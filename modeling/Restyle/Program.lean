import Restyle.Batch
import Restyle.CommandLine.Arguments

/-!
# The program

The program as a function: from the command line, the environment, the standard
input and a disk to an exit code, what is printed, and the disk afterwards.  It
formats the standard input, or the files below its inputs, or tells the style that
the files are written in.
-/

namespace Restyle
namespace Program

/-- The name of the program. -/
def name : String := "rulefmt"

/-- What a run is given. -/
structure Given where
  /-- The command line, without the name of the program. -/
  args : List String
  /-- The environment. -/
  environment : Environment := {}
  /-- The bytes of the standard input. -/
  input : ByteArray := .empty
  /-- The disk. -/
  tree : FileTree

/-- What comes of a run. -/
structure Result where
  /-- The exit code. -/
  exitCode : Nat
  /-- What is printed. -/
  output : String := ""
  /-- What is reported, line by line. -/
  report : List String := []
  /-- The disk afterwards. -/
  tree : FileTree

/-- A complaint as a line of the report. -/
def errorLine (message : String) : String := "error: " ++ message

/-- The exit code after some faults. -/
def exitCode (faults : List Fault) : Nat := if faults.isEmpty then 0 else 1

/-- The lines of the report for some faults. -/
def faultLines (faults : List Fault) : List String := faults.map fun f => errorLine f.message

/-! ## Settings -/

/-- The style with fields set in order. -/
def setFields (style : Style) : List (Field × String) → Except Complaint Style
  | [] => .ok style
  | (f, v) :: rest =>
    match f.set style v with
    | .ok style => setFields style rest
    | .error fault => .error fault.complaint

/-- Settings with what the command line says on top. -/
def override (s : Settings) (a : Arguments) : Except Complaint Settings :=
  (setFields s.style a.options).map fun style =>
    { style := style
      extensions :=
        if a.extensions.isEmpty then s.extensions else Settings.extensionSet a.extensions
      exclude := s.exclude ++ a.exclude
      links := a.links.getD s.links
      rules := a.rules.orElse fun _ => s.rules
      disable := s.disable ++ a.disable }

/-- The path of the working directory. -/
def workingPath (t : FileTree) : Path := Path.ofNames t.workingDirectory

/-- The standard input, written as an input. -/
def dash : Path := Path.ofText "-"

/-- Where the search for settings files starts. -/
def searchStart (t : FileTree) (inputs : List Path) : Path :=
  match inputs with
  | first :: _ => if first = dash then workingPath t else first
  | [] => workingPath t

/-- The settings of a run: those of the given settings file, or of those that are
found, with what the command line says on top. -/
def settings (a : Arguments) (env : Environment) (t : FileTree) : Except Complaint Settings := do
  let s ← match a.config with
    | some p => Settings.ofFile t p
    | none => .ok (Settings.discovered t env (searchStart t a.inputs))
  override s a

/-! ## What there is to do -/

/-- A complaint about a path that cannot be made absolute. -/
def nowhere : Complaint := ⟨"cannot make an empty path absolute", []⟩

/-- A path seen from the working directory. -/
def absolute (t : FileTree) (p : Path) : Except Complaint Path :=
  match p.absolute? (workingPath t) with
  | some p => .ok p
  | none => .error nowhere

/-- The cache file that a run uses, and whether what it holds does not count. -/
structure CacheChoice where
  /-- The cache file. -/
  path : Option Path
  /-- Whether what it holds does not count. -/
  clear : Bool := false

/-- The cache file at its usual place, whose directory is made if it is missing. -/
def usualCache (t : FileTree) (env : Environment) (clear : Bool) :
    FileTree × Except Complaint CacheChoice :=
  match Cache.defaultPath? env with
  | none => (t, .ok ⟨none, false⟩)
  | some p => match p.parent? with
    | none => (t, .ok ⟨some p, clear⟩)
    | some directory => match t.createDirectories directory with
      | (t, none) => (t, .ok ⟨some p, clear⟩)
      | (t, some e) =>
        (t, .error ⟨s!"failed to create cache directory {directory.text}", [e.message]⟩)

/-- The cache file that the command line asks for. -/
def chooseCache (t : FileTree) (env : Environment) (mode : Option String) :
    FileTree × Except Complaint CacheChoice :=
  match mode with
  | none => usualCache t env false
  | some "ignore" => (t, .ok ⟨none, false⟩)
  | some "clear" => usualCache t env true
  | some explicit => (t, (absolute t (Path.ofText explicit)).map fun p => ⟨some p, false⟩)

/-- Formats the standard input. -/
def formatInput (rules : List Rule) (style : Style) (g : Given) : Except Complaint Result :=
  match String.fromUTF8? g.input with
  | none => .error ⟨"failed to read stdin", [DiskError.notText.message]⟩
  | some source => match Formatting.format style rules source with
    | .ok text => .ok ⟨0, text, [], g.tree⟩
    | .error failure => .ok ⟨1, "", faultLines [failure.fault], g.tree⟩

/-- Prints the style that files are written in. -/
def printStyle (sel : Selection) (inputs : List Path) (t : FileTree) : Result :=
  let (style, faults) := Inference.ofFiles t sel inputs
  ⟨exitCode faults, style.serialized ++ "\n", faultLines faults, t⟩

/-- The line that says how many files were written. -/
def countLine (dryRun : Bool) (r : Batch.Report) : String :=
  let verb := if dryRun then "Would format" else "Formatted"
  s!"{verb} {r.written} of {r.checked} files."

/-- Formats files. -/
def formatFiles (a : Arguments) (s : Settings) (rules : List Rule) (sel : Selection)
    (inputs : List Path) (env : Environment) (t : FileTree) : FileTree × Except Complaint Result :=
  let (t, choice) := chooseCache t env a.cache
  let job : Except Complaint (CacheChoice × Option Path) := do
    let choice ← choice
    let output ← a.output.mapM (absolute t)
    return (choice, output)
  (t, job.map fun (choice, output) =>
    let batch : Batch :=
      { rules := rules
        style := s.style
        selection := sel
        cachePath := choice.path
        clearCache := choice.clear
        dryRun := a.dryRun }
    let (report, t) := batch.run t inputs output
    let count := if a.quiet then [] else [countLine a.dryRun report]
    ⟨exitCode report.faults, "", count ++ faultLines report.faults, t⟩)

/-- Whether a run formats the standard input. -/
def readsInput (inputs : List Path) : Bool := inputs.isEmpty || inputs == [dash]

/-- Whether files may be worked on at the same time. -/
def isConcurrent (a : Arguments) : Bool := !a.sequential && a.jobs != some 1

/-- What has to be known before any work: the settings, the rules, and what the
style may be. -/
def prepare (a : Arguments) (g : Given) : Except Complaint (Settings × List Rule) := do
  let s ← settings a g.environment g.tree
  match s.style.complaint? with
  | some complaint => .error ⟨s!"invalid options: {complaint}", []⟩
  | none => match Rule.select s.rules s.disable s.style with
    | .ok rules => .ok (s, rules)
    | .error fault => .error fault.complaint

/-- The result of a run that a complaint ended. -/
def complain (t : FileTree) (c : Complaint) : Result := ⟨1, "", [errorLine c.line], t⟩

/-- Carries out a command line. -/
def carryOut (a : Arguments) (g : Given) : Result :=
  match prepare a g with
  | .error c => complain g.tree c
  | .ok (s, rules) =>
    if readsInput a.inputs then
      match formatInput rules s.style g with
      | .ok r => r
      | .error c => complain g.tree c
    else
      let ready : Except Complaint (Selection × List Path) := do
        let sel ← s.selection (isConcurrent a)
        let inputs ← a.inputs.mapM (absolute g.tree)
        return (sel, inputs)
      match ready with
      | .error c => complain g.tree c
      | .ok (sel, inputs) =>
        if a.inferOptions then printStyle sel inputs g.tree
        else match formatFiles a s rules sel inputs g.environment g.tree with
          | (_, .ok r) => r
          | (t, .error c) => complain t c

/-! ## Help -/

/-- The explanation of the command line. -/
def helpText : String :=
  "Rule-based source formatter for brace-delimited languages\n\n"
    ++ "Usage: " ++ name ++ " [OPTIONS] [PATH]...\n\nOptions:\n"
    ++ String.join (Flag.all.map fun f => f.line ++ "\n")

/-- The version of the program, with its name. -/
def versionText : String := name ++ " " ++ version ++ "\n"

/-- What the user is told about a command line that is not carried out. -/
def usageMessage : UsageError → String
  | .unknownArgument => "unexpected argument"
  | .invalidValue => "invalid or missing value"
  | .valueValidation => "invalid value"
  | .argumentConflict => "an argument cannot be used with another, or more than once"
  | .tooManyValues => "unexpected value"
  | .displayHelp | .displayVersion => ""

/-- Runs the program. -/
def run (g : Given) : Result :=
  match Arguments.read g.args with
  | .ok a => carryOut a g
  | .error .displayHelp => ⟨0, helpText, [], g.tree⟩
  | .error .displayVersion => ⟨0, versionText, [], g.tree⟩
  | .error e => ⟨2, "", [errorLine (usageMessage e)], g.tree⟩

end Program
end Restyle
