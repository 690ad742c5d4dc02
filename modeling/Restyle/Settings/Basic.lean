import Restyle.Fault
import Restyle.Selection
import Restyle.Style.Field
import Restyle.Toml.Document

/-!
# Settings

Settings are everything a run needs to know besides its inputs: the style, which
files are taken, and which rules run.  They start from defaults.  A settings file
changes the fields that it names and leaves the others alone; if anything in it is
wrong, it changes nothing at all.
-/

namespace Restyle

/-- What happens at a symbolic link. -/
inductive LinkMode where
  /-- It is followed. -/
  | follow
  /-- It is passed over. -/
  | ignore
deriving Repr, DecidableEq

namespace LinkMode

/-- The name of a mode. -/
def name : LinkMode → String
  | follow => "follow"
  | ignore => "ignore"

/-- Both modes. -/
def all : List LinkMode := [follow, ignore]

/-- The mode with a given name. -/
def ofName? (s : String) : Option LinkMode := all.find? (·.name == s)

/-- The mode with a given name, or a complaint. -/
def ofName (s : String) : Except Complaint LinkMode :=
  match ofName? s with
  | some mode => .ok mode
  | none => .error ⟨s!"Unsupported --symlinks value '{s}', expected follow|ignore", []⟩

end LinkMode

/-- What a run needs to know besides its inputs. -/
structure Settings where
  /-- The style. -/
  style : Style := {}
  /-- The extensions of the files that are taken, in order and without
  repetition. -/
  extensions : List String := ["swift"]
  /-- The patterns of what is left out. -/
  exclude : List String := []
  /-- What happens at a symbolic link. -/
  links : LinkMode := .ignore
  /-- The rules that run, if not the default ones. -/
  rules : Option (List String) := none
  /-- The rules that do not run. -/
  disable : List String := []
deriving Repr, DecidableEq

namespace Settings

/-! ## Extensions -/

/-- An extension without the dots in front of it. -/
def bareExtension (s : String) : String := String.ofList (s.toList.dropWhile (· == '.'))

/-- Puts a name into an ordered list, unless it is there. -/
def insertName (s : String) : List String → List String
  | [] => [s]
  | t :: rest => if s < t then s :: t :: rest else if s = t then t :: rest else t :: insertName s rest

/-- Extensions as they were given, in order and without dots in front. -/
def extensionSet (given : List String) : List String :=
  given.foldl (fun set s => insertName (bareExtension s) set) []

/-! ## What a settings file says -/

/-- What a settings file says: nothing about a field that it does not name. -/
structure Changes where
  /-- The extensions. -/
  extensions : Option (List String) := none
  /-- The patterns. -/
  exclude : Option (List String) := none
  /-- What happens at a symbolic link. -/
  links : Option LinkMode := none
  /-- The rules that run. -/
  rules : Option (List String) := none
  /-- The rules that do not run. -/
  disable : Option (List String) := none
  /-- The fields of the style with their texts, in the order of their names. -/
  options : List (String × String) := []
deriving Repr, DecidableEq

/-- A list of texts. -/
def texts? : Toml.Value → Option (List String)
  | .array items => items.mapM fun
    | .text s => some s
    | _ => none
  | _ => none

/-- A link mode: its name, or a table with nothing under that name. -/
def links? : Toml.Value → Option LinkMode
  | .text s => LinkMode.ofName? s
  | .table [(key, .table [])] => LinkMode.ofName? key
  | .table [(key, .array [])] => LinkMode.ofName? key
  | _ => none

/-- The fields of a style with their texts.  A date counts as a table with one
entry. -/
def options? : Toml.Value → Option (List (String × String))
  | .table entries => some (entries.map fun (name, v) => (name, v.alone))
  | .moment s => some [(Toml.momentKey, s)]
  | _ => none

/-- Changes with one more entry of a document.  Only these keys are known. -/
def Changes.add? (c : Changes) (key : String) (v : Toml.Value) : Option Changes :=
  match key with
  | "extensions" => (texts? v).map fun l => { c with extensions := some l }
  | "exclude" => (texts? v).map fun l => { c with exclude := some l }
  | "symlinks" => (links? v).map fun m => { c with links := some m }
  | "rules" => (texts? v).map fun l => { c with rules := some l }
  | "disable" => (texts? v).map fun l => { c with disable := some l }
  | "options" => (options? v).map fun l => { c with options := l }
  | _ => none

/-- What the text of a settings file says, if it is a document with known keys and
fitting values. -/
def Changes.read? (s : String) : Option Changes :=
  (Toml.read? s).bind fun entries => entries.foldlM (fun c (key, v) => c.add? key v) {}

/-! ## Applying changes -/

/-- Why a settings file does not count. -/
inductive Objection where
  /-- It cannot be read. -/
  | unreadable (reason : String)
  /-- It is not a document of the right form. -/
  | malformed
  /-- It names a field that a style does not have. -/
  | unknownOption (name : String)
  /-- It gives a field a value that the field does not take. -/
  | badValue (fault : Fault)
deriving Repr, DecidableEq

/-- What the user is told. -/
def Objection.message : Objection → String
  | unreadable reason => reason
  | malformed => "TOML parse error"
  | unknownOption name => s!"unknown option '{name}'"
  | badValue fault => fault.message

/-- The style with fields set by name, in order. -/
def setOptions (style : Style) : List (String × String) → Except Objection Style
  | [] => .ok style
  | (name, text) :: rest =>
    match Field.ofName? name with
    | none => .error (.unknownOption name)
    | some f => match f.set style text with
      | .ok style => setOptions style rest
      | .error fault => .error (.badValue fault)

/-- The settings with changes applied: all of them or none. -/
def apply (s : Settings) (c : Changes) : Except Objection Settings :=
  (setOptions s.style c.options).map fun style =>
    { style := style
      extensions := (c.extensions.map extensionSet).getD s.extensions
      exclude := c.exclude.getD s.exclude
      links := c.links.getD s.links
      rules := c.rules.orElse fun _ => s.rules
      disable := c.disable.getD s.disable }

/-- The settings after a settings file with the given text. -/
def applyText (s : Settings) (text : String) : Except Objection Settings :=
  match Changes.read? text with
  | none => .error .malformed
  | some c => s.apply c

/-! ## Which files are taken -/

/-- The pattern that a text spells, or a complaint. -/
def pattern (s : String) : Except Complaint Glob :=
  match Glob.read s with
  | .ok g => .ok g
  | .error problem => .error ⟨s!"invalid exclude pattern '{s}'", [problem.message]⟩

/-- The selection that settings ask for. -/
def selection (s : Settings) (concurrently : Bool) : Except Complaint Selection :=
  (s.exclude.mapM pattern).map fun excluded =>
    { followLinks := s.links == .follow
      extensions := s.extensions
      concurrently := concurrently
      excluded := excluded }

end Settings
end Restyle
