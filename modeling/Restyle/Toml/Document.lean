import Restyle.Toml.Scalar

/-!
# TOML documents

A document is a sequence of headers and of keys with values.  Each header opens a
table, and the keys after it belong there.  `read?` gives the table that a text
describes, or nothing if the text is not a document.

## When two statements meet

Most of what can be wrong with a document that is spelled well is that it says
something twice.  A table that is being built remembers how it came about: by a
header of its own, on the way to another table, or by a dotted key.

* A header may open a table that so far only stood on the way to another one; it
  opens no table twice, and none that a dotted key made.
* A dotted key may go through tables that dotted keys made, and through no other.
* No key has two values, and nothing is added to a value.
* A header in double brackets adds one more table to a list of tables; what
  follows goes to the last of them.
-/

namespace Restyle
namespace Toml

/-! ## Tables under construction -/

/-- A part of a document under construction. -/
inductive Node where
  /-- A value, to which nothing can be added. -/
  | leaf (v : Value)
  /-- A table.  It is implicit until a header opens it, and dotted if a dotted key
  made it. -/
  | table (implicit dotted : Bool) (fields : List (String × Node))
  /-- A list of tables. -/
  | tables (all : List (List (String × Node)))

/-- The fields of a table under construction, in the order in which they came. -/
abbrev Fields := List (String × Node)

namespace Fields

/-- Puts a node under a key, in place of what was there. -/
def put (key : String) (node : Node) : Fields → Fields
  | [] => [(key, node)]
  | (k, n) :: rest => if k = key then (key, node) :: rest else (k, n) :: put key node rest

/-- Changes the table at the end of a path of keys, making tables on the way.  The
change is told whether that table is dotted.  Along a dotted path only implicit
tables can be entered. -/
def within? (dotted : Bool) (change : Bool → Fields → Option Fields) :
    List String → Bool → Fields → Option Fields
  | [], isDotted, fields => change isDotted fields
  | key :: path, _, fields =>
    match fields.lookup key with
    | none =>
      (within? dotted change path dotted []).map fun inner =>
        fields.put key (.table true dotted inner)
    | some (.leaf _) => none
    | some (.tables all) =>
      match all.getLast? with
      | none => none
      | some last =>
        (within? dotted change path false last).map fun inner =>
          fields.put key (.tables (all.dropLast ++ [inner]))
    | some (.table implicit isDotted inner) =>
      if dotted && !implicit then none
      else (within? dotted change path isDotted inner).map fun inner =>
        fields.put key (.table implicit isDotted inner)

/-- Adds a value under a dotted key, given as the keys on the way and the last
one. -/
def assign? (path : List String) (key : String) (v : Value) (isDotted : Bool)
    (fields : Fields) : Option Fields :=
  within? true (fun isDotted fields =>
    if isDotted == path.isEmpty || (fields.lookup key).isSome then none
    else some (fields.put key (.leaf v))) path isDotted fields

/-- Opens the table that a header names. -/
def open? (path : List String) (fields : Fields) : Option Fields :=
  match path.getLast? with
  | none => none
  | some key =>
    within? false (fun _ fields =>
      match fields.lookup key with
      | none => some (fields.put key (.table false false []))
      | some (.table true false inner) => some (fields.put key (.table false false inner))
      | some _ => none) path.dropLast false fields

/-- Adds a table to the list that a header in double brackets names. -/
def openNext? (path : List String) (fields : Fields) : Option Fields :=
  match path.getLast? with
  | none => none
  | some key =>
    within? false (fun _ fields =>
      match fields.lookup key with
      | none => some (fields.put key (.tables [[]]))
      | some (.tables all) => some (fields.put key (.tables (all ++ [[]])))
      | some _ => none) path.dropLast false fields

end Fields

/-! ## Finished tables -/

/-- Puts an entry where its key belongs. -/
def insertEntry (key : String) (v : Value) : List (String × Value) → List (String × Value)
  | [] => [(key, v)]
  | (k, w) :: rest => if key < k then (key, v) :: (k, w) :: rest else (k, w) :: insertEntry key v rest

mutual

/-- The value that a finished part stands for. -/
def Node.value : Node → Value
  | .leaf v => v
  | .table _ _ fields => .table (entriesOf fields)
  | .tables all => .array (tablesOf all)

/-- The entries of a finished table, in the order of their keys. -/
def entriesOf : List (String × Node) → List (String × Value)
  | [] => []
  | (key, node) :: rest => insertEntry key node.value (entriesOf rest)

/-- The tables of a finished list. -/
def tablesOf : List (List (String × Node)) → List Value
  | [] => []
  | fields :: rest => .table (entriesOf fields) :: tablesOf rest

end

/-! ## Blanks, comments and keys -/

/-- Drops spaces and tabs. -/
def skipSpaces (cs : List Char) : List Char := cs.dropWhile fun c => c == ' ' || c == '\t'

/-- What follows a comment, if one starts here and holds no control characters. -/
def skipComment? (cs : List Char) : Option (List Char) :=
  match cs with
  | '#' :: rest =>
    let after := rest.dropWhile isPlain
    match after with
    | [] => some []
    | c :: more => if c = '\n' || (c = '\r' && more.head? = some '\n') then some after else none
  | _ => some cs

/-- What follows the end of a line, after spaces and a comment. -/
def endLine? (cs : List Char) : Option (List Char) :=
  match skipComment? (skipSpaces cs) with
  | some [] => some []
  | some rest => newline? rest
  | none => none

/-- Drops spaces, comments and linebreaks. -/
def skipLines? (fuel : Nat) (cs : List Char) : Option (List Char) :=
  match fuel with
  | 0 => some cs
  | fuel + 1 =>
    match skipComment? (skipSpaces cs) with
    | none => none
    | some rest => match newline? rest with
      | some after => skipLines? fuel after
      | none => some rest

/-- One key, bare or quoted, and the rest. -/
def simpleKey? (cs : List Char) : Option (String × List Char) :=
  match cs with
  | '"' :: rest => (basicTail? (cs.length + 1) rest).map fun (k, r) => (String.ofList k, r)
  | '\x27' :: rest => (literalTail? rest).map fun (k, r) => (String.ofList k, r)
  | _ =>
    match cs.takeWhile isBareKeyChar with
    | [] => none
    | key => some (String.ofList key, cs.drop key.length)

/-- How deep a document may be nested: no list or inline table may be at this depth,
and no dotted key may have so many parts. -/
def nestingLimit : Nat := 80

/-- A dotted key of less than so many parts with the spaces around it, and the
rest. -/
def keyParts? (limit : Nat) (cs : List Char) : Option (List String × List Char) :=
  match limit with
  | 0 | 1 => none
  | limit + 1 => do
    let (first, rest) ← simpleKey? (skipSpaces cs)
    match skipSpaces rest with
    | '.' :: more =>
      let (others, rest) ← keyParts? limit more
      return (first :: others, rest)
    | rest => return ([first], rest)

/-- A dotted key with the spaces around it, and the rest. -/
def key? (cs : List Char) : Option (List String × List Char) := keyParts? nestingLimit cs

/-! ## Values -/

/-- The items of an array after its opening bracket, and the rest. -/
def items? (item? : List Char → Option (Value × List Char)) (fuel : Nat) (cs : List Char) :
    Option (List Value × List Char) :=
  match fuel with
  | 0 => none
  | fuel + 1 => do
    match ← skipLines? (cs.length + 1) cs with
    | ']' :: rest => return ([], rest)
    | cs =>
      let (v, rest) ← item? cs
      match ← skipLines? (rest.length + 1) rest with
      | ',' :: rest =>
        let (others, rest) ← items? item? fuel rest
        return (v :: others, rest)
      | ']' :: rest => return ([v], rest)
      | _ => none

/-- The fields of an inline table after its opening brace or a comma, and the
rest. -/
def inlineFields? (item? : List Char → Option (Value × List Char)) (fuel : Nat)
    (fields : Fields) (cs : List Char) : Option (Fields × List Char) :=
  match fuel with
  | 0 => none
  | fuel + 1 => do
    let (path, rest) ← key? cs
    let rest ← after? '=' rest
    let (v, rest) ← item? (skipSpaces rest)
    let key ← path.getLast?
    let fields ← fields.assign? path.dropLast key v false
    match skipSpaces rest with
    | ',' :: rest => inlineFields? item? fuel fields rest
    | '}' :: rest => return (fields, rest)
    | _ => none

/-- A text or a word at the start of a text, and the rest. -/
def plainValue? (cs : List Char) : Option (Value × List Char) :=
  match cs with
  | c :: _ =>
    if c = '"' || c = '\x27' then (string? cs).map fun (s, r) => (.text s, r) else scalar? cs
  | [] => none

/-- The value at the start of a text, and the rest.  Lists and inline tables may be
less than so many levels deep. -/
def nestedValue? (limit : Nat) (cs : List Char) : Option (Value × List Char) :=
  match limit, cs with
  | 0, '[' :: _ | 0, '{' :: _ => none
  | limit + 1, '[' :: rest =>
    (items? (nestedValue? limit) (cs.length + 1) rest).map fun (vs, r) => (.array vs, r)
  | limit + 1, '{' :: rest =>
    match skipSpaces rest with
    | '}' :: r => some (.table [], r)
    | rest => (inlineFields? (nestedValue? limit) (cs.length + 1) [] rest).map fun (fields, r) =>
        (.table (entriesOf fields), r)
  | _, cs => plainValue? cs

/-- The value at the start of a text, and the rest. -/
def value? (cs : List Char) : Option (Value × List Char) := nestedValue? (nestingLimit - 1) cs

/-! ## Statements -/

/-- Reads statements one after the other.  `header` is the path of the table that
keys go to. -/
def statements? (fuel : Nat) (header : List String) (fields : Fields) (cs : List Char) :
    Option Fields :=
  match fuel with
  | 0 => none
  | fuel + 1 => do
    match ← skipLines? (cs.length + 1) cs with
    | [] => return fields
    | '[' :: '[' :: rest =>
      let (path, rest) ← key? rest
      let rest ← after? ']' rest
      let rest ← after? ']' rest
      let fields ← fields.openNext? path
      statements? fuel path fields (← endLine? rest)
    | '[' :: rest =>
      let (path, rest) ← key? rest
      let rest ← after? ']' rest
      let fields ← fields.open? path
      statements? fuel path fields (← endLine? rest)
    | cs =>
      let (path, rest) ← key? cs
      let rest ← after? '=' rest
      let (v, rest) ← value? (skipSpaces rest)
      let key ← path.getLast?
      let fields ← fields.within? false (fun isDotted inner =>
        inner.assign? path.dropLast key v isDotted) header false
      statements? fuel header fields (← endLine? rest)

/-- The entries of the document that a text spells, in the order of their keys.  A
byte order mark in front does not count. -/
def read? (s : String) : Option (List (String × Value)) :=
  let cs := match s.toList with
    | '\ufeff' :: rest => rest
    | cs => cs
  (statements? (cs.length + 1) [] [] cs).map entriesOf

end Toml
end Restyle
