import Restyle.CommandLine.Flag
import Restyle.Settings.Basic

/-!
# Reading the command line

Arguments are read from left to right.  A flag is written `--name` or by its
letter; letters can be joined behind one dash.  The value of a parameter follows
as the next argument, or in the same one: after an equals sign, or right after
the letter.  Everything that is no flag and no value is an input, and after `--`
everything is.

A value is looked at only when the next flag or input is recognised, or at the
end.  So an unknown flag is reported before a value that is wrong, and help that is
asked for after a wrong value is not given.
-/

namespace Restyle

/-- Why a command line is not carried out. -/
inductive UsageError where
  /-- There is no such flag. -/
  | unknownArgument
  /-- A value is missing, empty, or none of those there are. -/
  | invalidValue
  /-- A value cannot be read. -/
  | valueValidation
  /-- Two arguments exclude each other, or one is given twice. -/
  | argumentConflict
  /-- A switch is given a value. -/
  | tooManyValues
  /-- Help was asked for. -/
  | displayHelp
  /-- The version was asked for. -/
  | displayVersion
deriving Repr, DecidableEq

/-- Whether an error is what the user asked for. -/
def UsageError.isRequest : UsageError → Bool
  | displayHelp | displayVersion => true
  | _ => false

/-- What a command line asks for. -/
structure Arguments where
  /-- The files and directories to work on. -/
  inputs : List Path := []
  /-- Where results go. -/
  output : Option Path := none
  /-- The settings file. -/
  config : Option Path := none
  /-- The cache file, or what to do with the cache. -/
  cache : Option String := none
  /-- What happens at a symbolic link. -/
  links : Option LinkMode := none
  /-- The extensions of the files that are taken. -/
  extensions : List String := []
  /-- The patterns of what is left out. -/
  exclude : List String := []
  /-- The rules that run. -/
  rules : Option (List String) := none
  /-- The rules that do not run. -/
  disable : List String := []
  /-- The fields of the style that are given, in the order in which they came. -/
  given : List (Field × String) := []
  /-- How many files are worked on at the same time. -/
  jobs : Option Nat := none
  /-- Whether files are worked on one after the other. -/
  sequential : Bool := false
  /-- Whether nothing is written. -/
  dryRun : Bool := false
  /-- Whether the style of the files is printed. -/
  inferOptions : Bool := false
  /-- Whether every step is told. -/
  verbose : Bool := false
  /-- Whether only errors are told. -/
  quiet : Bool := false
deriving Repr, DecidableEq

namespace Arguments

/-- The fields of the style that are given, in the order of the fields. -/
def options (a : Arguments) : List (Field × String) :=
  Field.all.filterMap fun f => (a.given.lookup f).map (f, ·)

/-! ## Storing -/

/-- Whether a parameter has its one value already. -/
def hasValue (a : Arguments) : Parameter → Bool
  | .output => a.output.isSome
  | .config => a.config.isSome
  | .cache => a.cache.isSome
  | .symlinks => a.links.isSome
  | .style f => (a.given.lookup f).isSome
  | .jobs => a.jobs.isSome
  | .extensions | .exclude | .rules | .disable => false

/-- A path, which is not empty. -/
def path (v : String) : Except UsageError Path :=
  if v.isEmpty then .error .invalidValue else .ok (Path.ofText v)

/-- The items of a list between commas, without blanks around them. -/
def items (v : String) : List String :=
  let pieces := v.toList.foldr (fun c pieces =>
    if c = ',' then [] :: pieces
    else match pieces with
      | piece :: rest => (c :: piece) :: rest
      | [] => [[c]]) [[]]
  pieces.map fun piece => Text.trim (String.ofList piece)

/-- Stores a value of a parameter. -/
def store (a : Arguments) (v : String) : Parameter → Except UsageError Arguments
  | .output => (path v).map fun p => { a with output := some p }
  | .config => (path v).map fun p => { a with config := some p }
  | .cache => .ok { a with cache := some v }
  | .symlinks => match LinkMode.ofName? v with
    | some mode => .ok { a with links := some mode }
    | none => .error .invalidValue
  | .extensions => .ok { a with extensions := a.extensions ++ items v }
  | .exclude => .ok { a with exclude := a.exclude ++ [Text.trim v] }
  | .rules => .ok { a with rules := some (a.rules.getD [] ++ items v) }
  | .disable => .ok { a with disable := a.disable ++ items v }
  | .style f => .ok { a with given := a.given ++ [(f, v)] }
  | .jobs => match Text.word? v with
    | some n => .ok { a with jobs := some n }
    | none => .error .valueValidation

/-- Gives a parameter its value, if there is one.  Most parameters take only
one. -/
def give (a : Arguments) (p : Parameter) : Option String → Except UsageError Arguments
  | none => .error .invalidValue
  | some v => if a.hasValue p then .error .argumentConflict else a.store v p

/-- Turns a switch on, which can be done once. -/
def turnOn (a : Arguments) : Switch → Except UsageError Arguments
  | .sequential => if a.sequential then .error .argumentConflict
    else .ok { a with sequential := true }
  | .dryRun => if a.dryRun then .error .argumentConflict else .ok { a with dryRun := true }
  | .inferOptions => if a.inferOptions then .error .argumentConflict
    else .ok { a with inferOptions := true }
  | .verbose => if a.verbose then .error .argumentConflict else .ok { a with verbose := true }
  | .quiet => if a.quiet then .error .argumentConflict else .ok { a with quiet := true }
  | .help => .error .displayHelp
  | .version => .error .displayVersion

/-! ## Reading -/

/-- What has been read and not been looked at. -/
inductive Pending where
  /-- Nothing. -/
  | nothing
  /-- A parameter, and its value if that has come. -/
  | parameter (p : Parameter) (v : Option String)
  /-- Inputs. -/
  | inputs (vs : List String)
deriving Repr, DecidableEq

/-- A command line that has been read in part. -/
structure Reader where
  /-- What has been stored. -/
  arguments : Arguments := {}
  /-- What waits to be stored. -/
  pending : Pending := .nothing
  /-- Whether only inputs follow. -/
  onlyInputs : Bool := false
deriving Repr, DecidableEq

namespace Reader

/-- Stores what waits. -/
def settle (r : Reader) : Except UsageError Reader :=
  match r.pending with
  | .nothing => .ok r
  | .parameter p v => (r.arguments.give p v).map fun a =>
      { r with arguments := a, pending := .nothing }
  | .inputs vs => (vs.mapM path).map fun paths =>
      { r with
        arguments := { r.arguments with inputs := r.arguments.inputs ++ paths }
        pending := .nothing }

/-- Reads an input. -/
def input (r : Reader) (v : String) : Except UsageError Reader :=
  match r.pending with
  | .inputs vs => .ok { r with pending := .inputs (vs ++ [v]) }
  | _ => r.settle.map fun r => { r with pending := .inputs [v] }

/-- Reads a parameter, with its value if that is attached. -/
def parameter (r : Reader) (p : Parameter) : Option String → Except UsageError Reader
  | none => r.settle.map fun r => { r with pending := .parameter p none }
  | some v => do
    let r ← r.settle
    let a ← r.arguments.give p (some v)
    return { r with arguments := a }

/-- Reads a switch. -/
def switch (r : Reader) (s : Switch) : Except UsageError Reader := do
  let r ← r.settle
  let a ← r.arguments.turnOn s
  return { r with arguments := a }

/-- Reads a flag by its long name, with what follows an equals sign. -/
def long (r : Reader) (body : List Char) : Except UsageError Reader :=
  let name := body.takeWhile (· != '=')
  let attached := match body.drop name.length with
    | _ :: v => some (String.ofList v)
    | [] => none
  match Flag.ofName? (String.ofList name), attached with
  | none, _ => .error .unknownArgument
  | some (.parameter p), _ => r.parameter p attached
  | some (.switch _), some _ => .error .tooManyValues
  | some (.switch s), none => r.switch s

/-- The value that follows a letter, without an equals sign in front. -/
def attachedTo : List Char → Option String
  | [] => none
  | '=' :: v => some (String.ofList v)
  | v => some (String.ofList v)

/-- Reads flags by their letters. -/
def letters (r : Reader) : List Char → Except UsageError Reader
  | [] => .ok r
  | c :: rest =>
    match Flag.ofLetter? c with
    | none => .error .unknownArgument
    | some (.parameter p) => r.parameter p (attachedTo rest)
    | some (.switch s) => (r.switch s).bind fun r => r.letters rest

/-- Reads what is no flag: the value that a parameter waits for, or an input. -/
def plain (r : Reader) (v : String) : Except UsageError Reader :=
  match r.pending with
  | .parameter p none => .ok { r with pending := .parameter p (some v) }
  | _ => r.input v

/-- Reads one argument. -/
def step (r : Reader) (arg : String) : Except UsageError Reader :=
  if r.onlyInputs then r.input arg
  else match arg.toList with
    | ['-', '-'] => .ok { r with onlyInputs := true }
    | '-' :: '-' :: body => r.long body
    | ['-'] => r.plain arg
    | '-' :: body => r.letters body
    | _ => r.plain arg

/-- Ends the reading. -/
def finish (r : Reader) : Except UsageError Arguments := do
  let r ← r.settle
  if r.arguments.verbose && r.arguments.quiet then .error .argumentConflict
  else return r.arguments

end Reader

/-- What a command line asks for, or why it is not carried out. -/
def read (args : List String) : Except UsageError Arguments :=
  (args.foldlM Reader.step {}).bind Reader.finish

end Arguments
end Restyle
