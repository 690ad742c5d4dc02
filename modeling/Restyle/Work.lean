import Restyle.Walk

/-!
# Working on every file of a walk

Work on a file reads and writes the tree and leaves an outcome, which is entered
into the books of the run: counters, a cache, whatever the run keeps.  Entering
an outcome may report a fault.  Neither stops the walk.

Files are worked on in turn, as the walk comes across them, or at once: then all
files are found before any work starts, and the books are opened only when all
work is done.  Who is first when files are worked on at once is not fixed.  A
schedule says in which order the files are worked on and in which order their
outcomes are entered; without one, both are the order of the walk.
-/

namespace Restyle

/-- What entering an outcome does to the books, possibly with a fault. -/
abbrev Posting (α : Type) := α → α × Option Fault

/-- Work to be done on a file: what it does to the tree, and how its outcome is
entered into the books of the run.  The work itself does not see the books. -/
def Work (α : Type) := FileTree → Path → Path → FileTree × Posting α

/-- Who is first when files are worked on at once. -/
structure Schedule (α : Type) where
  /-- The order in which files are worked on, given those that were found. -/
  works : List (Path × Path) → List (Path × Path) := id
  /-- The order in which outcomes are entered, given that of the works. -/
  postings : List (Posting α) → List (Posting α) := id

/-- A schedule leaves nothing out and does nothing twice. -/
def Schedule.IsFair (s : Schedule α) : Prop :=
  (∀ pairs, (s.works pairs).Perm pairs) ∧ ∀ postings, (s.postings postings).Perm postings

/-- A run over files: the tree, the books, and the faults so far, last first. -/
structure Progress (α : Type) where
  /-- The tree. -/
  tree : FileTree
  /-- The books. -/
  books : α
  /-- The faults so far, last first. -/
  faults : List Fault := []

namespace Progress

/-- Adds a fault, if there is one. -/
def note (p : Progress α) : Option Fault → Progress α
  | some f => { p with faults := f :: p.faults }
  | none => p

/-- Enters an outcome into the books. -/
def post (p : Progress α) (posting : Posting α) : Progress α :=
  let (books, fault) := posting p.books
  { p with books := books }.note fault

/-- Works on a file and enters the outcome at once. -/
def advance (work : Work α) (input output : Path) (p : Progress α) : Progress α :=
  let (tree, posting) := work p.tree input output
  { p with tree := tree }.post posting

end Progress

namespace Work

/-- Works on each file as the walk comes across it. -/
def inTurn (work : Work α) (sel : Selection) (root output : Path) (p : Progress α)
    (r : Refusals := .none) : Progress α :=
  Walk.run
    { tree := Progress.tree
      file := Progress.advance work
      fault := fun f p => p.note (some f)
      refusals := r }
    sel root output p

/-- Works on files one after the other and keeps the outcomes for later, last
first. -/
def workOff (work : Work α) (t : FileTree) (pairs : List (Path × Path)) :
    FileTree × List (Posting α) :=
  pairs.foldl (fun (t, postings) (input, output) =>
    let (t, posting) := work t input output
    (t, posting :: postings)) (t, [])

/-- Finds all files first, works on them, and enters the outcomes when all work
is done. -/
def atOnce (work : Work α) (schedule : Schedule α) (sel : Selection) (root output : Path)
    (p : Progress α) (r : Refusals := .none) : Progress α :=
  let finds := Walk.finds p.tree sel root output r
  let p := (Walk.faults finds).foldl (fun p f => p.note (some f)) p
  let (tree, postings) := work.workOff p.tree (schedule.works (Walk.files finds))
  (schedule.postings postings.reverse).foldl Progress.post { p with tree := tree }

/-- Does the work on every file of a selection below a root.  Without an output
root the results belong where the files are. -/
def enumerate (work : Work α) (schedule : Schedule α) (sel : Selection) (root : Path)
    (output : Option Path) (p : Progress α) (r : Refusals := .none) : Progress α :=
  let output := output.getD root
  if sel.concurrently then work.atOnce schedule sel root output p r
  else work.inTurn sel root output p r

end Work
end Restyle
