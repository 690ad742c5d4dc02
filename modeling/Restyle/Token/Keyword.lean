/-!
# Reserved words

The words that the lexer reads as keywords rather than as names.
-/

namespace Restyle
namespace Token

/-- Every reserved word, in alphabetical order. -/
def reservedWords : List String :=
  [ "as", "associatedtype", "async", "await", "break", "case", "catch", "class", "continue",
    "default", "defer", "deinit", "do", "else", "enum", "extension", "fallthrough", "false",
    "fileprivate", "final", "for", "func", "guard", "if", "import", "in", "init", "inout",
    "internal", "is", "lazy", "let", "mutating", "nil", "open", "operator", "override",
    "private", "protocol", "public", "repeat", "rethrows", "return", "self", "Self", "static",
    "struct", "subscript", "super", "switch", "throw", "throws", "true", "try", "typealias",
    "var", "weak", "where", "while"]

/-- Whether a word is reserved. -/
def isReserved (word : String) : Bool := reservedWords.contains word

end Token
end Restyle
