import Restyle.Cache
import Restyle.Formatting
import Restyle.Style.Inference
import Restyle.Work

/-!
# Formatting files in bulk

A batch formats every file of a selection below some roots, in place or under an
output root.  What happens to one file does not depend on the others, and a file
that fails is reported and left as it was.

## The cache

What is remembered of a file is the version of the program, the style, and the
length in bytes of the formatted text.  A file whose length fits what is
remembered is taken to be formatted already.  All files of a run are compared with
the cache as it was at the start; what the run learns is saved at the end, unless
no file was looked at or nothing is to be written.
-/

namespace Restyle

/-- The version of the program. -/
def version : String := "0.1.0"

/-- What a batch needs to know besides its roots. -/
structure Batch where
  /-- The rules. -/
  rules : List Rule
  /-- The style. -/
  style : Style
  /-- Which files are taken. -/
  selection : Selection
  /-- The cache file, if there is to be one. -/
  cachePath : Option Path := none
  /-- Whether what the cache file holds does not count. -/
  clearCache : Bool := false
  /-- Whether nothing is to be written. -/
  dryRun : Bool := false

namespace Batch

/-- The books of a batch. -/
structure Books where
  /-- The cache, if there is one. -/
  cache : Option Cache
  /-- How many files were written, or would have been. -/
  written : Nat := 0
  /-- How many files were looked at. -/
  checked : Nat := 0

/-- What a batch did. -/
structure Report where
  /-- How many files were written, or would have been. -/
  written : Nat
  /-- How many files were looked at. -/
  checked : Nat
  /-- What went wrong, in order. -/
  faults : List Fault
deriving Repr, DecidableEq

/-! ## One file -/

/-- What came of a file. -/
inductive Outcome where
  /-- It could not be formatted. -/
  | failed (f : Fault)
  /-- The result is there already. -/
  | upToDate
  /-- The result would have been written. -/
  | wouldWrite
  /-- The result was written. -/
  | written
  /-- The result could not be written. -/
  | unwritten (f : Fault)
deriving Repr, DecidableEq

/-- The text that stands for a formatted file of some length in the cache. -/
def stamp (style : Style) (bytes : Nat) : String := s!"{version};{style.serialized};{bytes}"

/-- Remembers an entry, if there is a cache and an entry. -/
def Books.remember (b : Books) (entry : Option (String × String)) : Books :=
  match b.cache, entry with
  | some cache, some (key, value) => { b with cache := some (cache.insert key value) }
  | _, _ => b

/-- Enters the outcome of a file into the books.  `entry` is what the cache is to
remember if the result is there in the end. -/
def Books.enter (outcome : Outcome) (entry : Option (String × String)) (b : Books) :
    Books × Option Fault :=
  let b := { b with checked := b.checked + 1 }
  match outcome with
  | .failed f => (b, some f)
  | .upToDate => (b.remember entry, none)
  | .wouldWrite => ({ b with written := b.written + 1 }, none)
  | .written => ({ b with written := b.written + 1 }.remember entry, none)
  | .unwritten f => (b, some f)

/-- Writes a result, with the directories above it. -/
def writeOutput (t : FileTree) (p : Path) (text : String) (r : Refusals := .none) :
    FileTree × Option Fault :=
  let (t, fault) := match p.parent?.filter (!·.isEmpty) with
    | none => (t, none)
    | some directory =>
      let (t, e) := t.createDirectories directory r
      (t, e.map fun e =>
        ⟨.writing, s!"Failed to create directory at {directory.text}: {e.message}"⟩)
  match fault with
  | some f => (t, some f)
  | none => match t.writeText p text r with
    | .ok t => (t, none)
    | .error e => (t, some ⟨.writing, s!"Failed to write file {p.text}: {e.message}"⟩)

/-- The formatted form of a source text.  A text whose stamp is remembered is taken
as it is. -/
def formatted (b : Batch) (remembered : Option String) (input : Path) (source : String) :
    Except Fault String :=
  if remembered = some (stamp b.style source.utf8ByteSize) then .ok source
  else match Formatting.format b.style b.rules source with
    | .ok text => .ok text
    | .error failure =>
      .error { failure.fault with message := s!"{failure.fault.message} in {input.text}" }

/-- Whether a result is there already. -/
def isUpToDate (t : FileTree) (input output : Path) (source result : String)
    (r : Refusals := .none) : Bool :=
  if output.same input then result == source
  else match t.readText output r with
    | .ok existing => existing == result
    | .error _ => false

/-- Formats one file and writes the result.  `snapshot` is the cache as it was at
the start of the run. -/
def workOn (b : Batch) (snapshot : Option Cache) (r : Refusals := .none) : Work Books :=
    fun t input output =>
  match t.readText input r with
  | .error e =>
    (t, Books.enter
      (.failed ⟨.reading, s!"Failed to read file {input.text}: {e.message}"⟩) none)
  | .ok source =>
    let key := snapshot.map (·.key input)
    let remembered := snapshot.bind fun c => key.bind c.get?
    match b.formatted remembered input source with
    | .error f => (t, Books.enter (.failed f) none)
    | .ok result =>
      let entry := key.map fun k => (k, stamp b.style result.utf8ByteSize)
      if isUpToDate t input output source result r then (t, Books.enter .upToDate entry)
      else if b.dryRun then (t, Books.enter .wouldWrite entry)
      else match writeOutput t output result r with
        | (t, none) => (t, Books.enter .written entry)
        | (t, some f) => (t, Books.enter (.unwritten f) entry)

/-! ## A whole run -/

/-- Why a root can never have a result, if it cannot. -/
def rejection? (b : Batch) (t : FileTree) (root : Path) : Option Fault :=
  match t.entryAt false root with
  | .error _ => none
  | .ok entry =>
    if entry.isLink && !b.selection.followLinks then
      some ⟨.options, s!"Symbolic link at {root.text} was ignored"⟩
    else
      let isDirectory := if entry.isLink then t.isDirectory root else entry.isDirectory
      if !isDirectory && !b.selection.supports root then
        some ⟨.options, s!"Unsupported file type '{root.text}'"⟩
      else none

/-- Formats what is below one root. -/
def runRoot (b : Batch) (snapshot : Option Cache) (output : Option Path)
    (p : Progress Books) (root : Path) (schedule : Schedule Books) (r : Refusals := .none) :
    Progress Books :=
  match b.rejection? p.tree root with
  | some f => p.note (some f)
  | none => (b.workOn snapshot r).enumerate schedule b.selection root output p r

/-- The fault of a run in which no file was looked at. -/
def nothingFound (roots : List Path) : Fault :=
  ⟨.options, "No eligible files found at " ++ ", ".intercalate (roots.map Path.text)⟩

/-- The cache at the start of a run. -/
def snapshot (b : Batch) (t : FileTree) (r : Refusals := .none) : Option Cache :=
  b.cachePath.map fun p => if b.clearCache then Cache.empty p else Cache.load t p r

/-- Ends a run: saves the cache, or says that there was nothing to do. -/
def finish (b : Batch) (roots : List Path) (p : Progress Books) (r : Refusals := .none) :
    Progress Books :=
  if p.books.checked = 0 then p.note (some (nothingFound roots))
  else match b.cachePath, p.books.cache with
    | some path, some cache =>
      if b.dryRun then p
      else match cache.save p.tree path r with
        | .ok t => { p with tree := t }
        | .error f => p.note (some f)
    | _, _ => p

/-- Formats every file of the selection below the roots, with a schedule for each
root, as far as the disk allows. -/
def runScheduled (b : Batch) (t : FileTree) (jobs : List (Path × Schedule Books))
    (output : Option Path) (r : Refusals := .none) : Report × FileTree :=
  let snapshot := b.snapshot t r
  let p : Progress Books := ⟨t, { cache := snapshot }, []⟩
  let p := jobs.foldl (fun p (root, schedule) => b.runRoot snapshot output p root schedule r) p
  let p := b.finish (jobs.map Prod.fst) p r
  (⟨p.books.written, p.books.checked, p.faults.reverse⟩, p.tree)

/-- Formats every file of the selection below the roots. -/
def run (b : Batch) (t : FileTree) (roots : List Path) (output : Option Path)
    (r : Refusals := .none) : Report × FileTree :=
  b.runScheduled t (roots.map fun root => (root, {})) output r

end Batch

/-! ## Reading a style off files -/

namespace Inference

/-- Reads one file.  A file that cannot be read to its end is left out. -/
def readFile (r : Refusals := .none) : Work (List (List Token)) := fun t input _ =>
  match t.readText input r with
  | .error e =>
    (t, fun corpus => (corpus, some ⟨.reading, s!"Failed to read file {input.text}: {e.message}"⟩))
  | .ok source =>
    let tokens := Token.scan source
    if tokens.getLast?.any Token.isError then
      (t, fun corpus => (corpus, some ⟨.parsing, s!"Failed to tokenize {input.text}"⟩))
    else (t, fun corpus => (tokens :: corpus, none))

/-- The style that most files of a selection below the roots are written in, and
what went wrong. -/
def ofFiles (t : FileTree) (sel : Selection) (roots : List Path) (r : Refusals := .none) :
    Style × List Fault :=
  let p : Progress (List (List Token)) :=
    roots.foldl (fun p root => (readFile r).enumerate {} sel root none p r) ⟨t, [], []⟩
  (style p.books.reverse, p.faults.reverse)

end Inference
end Restyle
