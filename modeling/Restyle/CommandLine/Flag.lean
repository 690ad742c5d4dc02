import Restyle.Style.Field

/-!
# The flags of the command line

A flag is a switch, which stands alone, or a parameter, which takes a value.
Every flag has a long name, and some have a letter.
-/

namespace Restyle

/-- A flag that takes a value. -/
inductive Parameter where
  /-- Where results go. -/
  | output
  /-- A settings file. -/
  | config
  /-- A cache file, or what to do with the cache. -/
  | cache
  /-- What happens at a symbolic link. -/
  | symlinks
  /-- The extensions of the files that are taken. -/
  | extensions
  /-- A pattern of what is left out. -/
  | exclude
  /-- The rules that run. -/
  | rules
  /-- The rules that do not run. -/
  | disable
  /-- A field of the style. -/
  | style (f : Field)
  /-- How many files are worked on at the same time. -/
  | jobs
deriving Repr, DecidableEq

/-- A flag that stands alone. -/
inductive Switch where
  /-- Files are worked on one after the other. -/
  | sequential
  /-- Nothing is written. -/
  | dryRun
  /-- The style of the files is printed instead of formatting them. -/
  | inferOptions
  /-- Every step is told. -/
  | verbose
  /-- Only errors are told. -/
  | quiet
  /-- The flags are explained. -/
  | help
  /-- The version is told. -/
  | version
deriving Repr, DecidableEq

/-- A flag. -/
inductive Flag where
  /-- One that takes a value. -/
  | parameter (p : Parameter)
  /-- One that stands alone. -/
  | switch (s : Switch)
deriving Repr, DecidableEq

namespace Parameter

/-- Every parameter. -/
def all : List Parameter :=
  [output, config, cache, symlinks, extensions, exclude, rules, disable]
    ++ Field.all.map style ++ [jobs]

/-- The long name of a parameter. -/
def name : Parameter → String
  | output => "output"
  | config => "config"
  | cache => "cache"
  | symlinks => "symlinks"
  | extensions => "exts"
  | exclude => "exclude"
  | rules => "rules"
  | disable => "disable"
  | style f => f.name
  | jobs => "jobs"

/-- The letter of a parameter. -/
def letter? : Parameter → Option Char
  | output => some 'o'
  | config => some 'c'
  | exclude => some 'e'
  | jobs => some 'j'
  | _ => none

/-- What the value of a parameter looks like. -/
def valueName : Parameter → String
  | output => "PATH"
  | config => "FILE"
  | cache => "PATH|ignore|clear"
  | symlinks => "MODE"
  | extensions => "EXTS"
  | exclude => "PATTERN"
  | rules | disable => "RULES"
  | style f => f.valueName
  | jobs => "NUM"

/-- What a parameter is for. -/
def help : Parameter → String
  | output => "Write output under this path instead of in place"
  | config => "Path to a config file (disables config discovery)"
  | cache => "Cache file path, \"ignore\" to disable or \"clear\" to reset"
  | symlinks => "How symbolic links are treated [default: ignore]"
  | extensions => "Comma-delimited list of file extensions to format [default: swift]"
  | exclude => "Exclude files/directories matching glob pattern (can be repeated)"
  | rules => "Comma-delimited list of rules to run instead of the defaults"
  | disable => "Comma-delimited list of rules to skip"
  | style f => f.help
  | jobs => "Number of parallel jobs (0=auto, 1=sequential)"

end Parameter

namespace Switch

/-- Every switch. -/
def all : List Switch := [sequential, dryRun, inferOptions, verbose, quiet, help, version]

/-- The long name of a switch. -/
def name : Switch → String
  | sequential => "sequential"
  | dryRun => "dry-run"
  | inferOptions => "infer-options"
  | verbose => "verbose"
  | quiet => "quiet"
  | help => "help"
  | version => "version"

/-- The letter of a switch. -/
def letter? : Switch → Option Char
  | verbose => some 'v'
  | quiet => some 'q'
  | help => some 'h'
  | version => some 'V'
  | _ => none

/-- What a switch is for. -/
def purpose : Switch → String
  | sequential => "Format files one at a time"
  | dryRun => "Report files that would change without writing them"
  | inferOptions => "Print the style options that best match the inputs"
  | verbose => "Log every file as it is processed"
  | quiet => "Only print errors"
  | help => "Print help"
  | version => "Print version"

end Switch

namespace Flag

/-- Every flag. -/
def all : List Flag := Parameter.all.map parameter ++ Switch.all.map switch

/-- The long name of a flag. -/
def name : Flag → String
  | parameter p => p.name
  | switch s => s.name

/-- The letter of a flag. -/
def letter? : Flag → Option Char
  | parameter p => p.letter?
  | switch s => s.letter?

/-- The flag with a given long name. -/
def ofName? (s : String) : Option Flag := all.find? (·.name == s)

/-- The flag with a given letter. -/
def ofLetter? (c : Char) : Option Flag := all.find? (·.letter? == some c)

/-- The line that explains a flag. -/
def line (f : Flag) : String :=
  let letter := match f.letter? with
    | some c => "  -" ++ c.toString ++ ", --"
    | none => "      --"
  match f with
  | parameter p => letter ++ p.name ++ " <" ++ p.valueName ++ ">  " ++ p.help
  | switch s => letter ++ s.name ++ "  " ++ s.purpose

end Flag
end Restyle
