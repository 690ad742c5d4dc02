import Restyle.Fault
import Restyle.FileTree.Access
import Restyle.Selection

/-!
# Walking a file tree

A walk starts at a root, which is a file or a directory, and comes across every
file of a selection below it, directories before what follows them and names in
order.  Each file comes with the path its result belongs to: the same path below
another root, or the file itself.

Names that start with a dot are passed over, and so is what the selection
excludes; both prune a directory with all that is in it.  A name that is no text is
never hidden, whatever its first byte is.

## What a walk is made of

The walk does not own the tree.  It is given a `Visitor`: a state, the tree as it
is in that state, and what to do at a file and at a fault.  A directory is listed
when the walk reaches it, so a visitor that changes the tree changes what is
found later.  With a visitor that only takes notes, the walk is a plain list of
what there is to find.

## Symbolic links

Links are passed over unless the selection follows them.  A followed link that
leads to a directory the walk is in already is a fault, since the walk would
never end.  A directory can still come up twice below itself, by way of another
directory that is not above it; but each followed link leads to a directory that
is new on the way down, so the way down is never longer than the square of the
number of entries.  That number bounds the recursion.
-/

namespace Restyle
namespace Walk

/-- What happens on a walk. -/
structure Visitor (σ : Type) where
  /-- The tree in a state. -/
  tree : σ → FileTree
  /-- What to do at a file, given the path of its result. -/
  file : Path → Path → σ → σ
  /-- What to do at a fault. -/
  fault : Fault → σ → σ
  /-- What the disk refuses. -/
  refusals : Refusals := .none

/-- A directory on the way down: its path and where it really is. -/
structure Level where
  /-- The path by which the walk came. -/
  path : Path
  /-- The location that the path leads to. -/
  location : Location

/-! ## Faults -/

/-- The fault of something that cannot be read. -/
def unreadable (p : Path) (reason : String) : Fault :=
  ⟨.reading, s!"Failed to read {p.text}: {reason}"⟩

/-- The fault of a link that leads nowhere, or of a directory that may not be read. -/
def closed (p : Path) (e : DiskError) : Fault :=
  unreadable p s!"IO error for operation on {p.text}: {e.message}"

/-- The fault of a link that leads to a directory above it. -/
def loop (p above : Path) : Fault :=
  unreadable p s!"File system loop found: {p.text} points to an ancestor {above.text}"

/-- The fault of a root that is not there. -/
def missing (p : Path) : Fault := ⟨.reading, s!"File not found at {p.text}"⟩

/-- The fault of a root whose kind cannot be found out. -/
def unknownKind (p : Path) (e : DiskError) : Fault :=
  ⟨.reading, s!"Failed to read attributes for {p.text}: {e.message}"⟩

/-! ## One entry -/

/-- Whether a name is hidden: it is a text that starts with a dot. -/
def isHidden (name : String) : Bool :=
  (Name.text? name).any fun text => text.toList.head? == some '.'

/-- What a walk makes of an entry on its way down: links are looked through if
they are followed. -/
def inspect (t : FileTree) (sel : Selection) (above : List Level) (p : Path) :
    Except Fault (Option Entry) :=
  match t.entryAt false p with
  | .error _ => .ok none
  | .ok e =>
    if !(e.isLink && sel.followLinks) then .ok (some e)
    else match t.locate true p with
      | .error e => .error (closed p e)
      | .ok loc => match t.lookup loc with
        | some .directory =>
          match above.find? (·.location = loc) with
          | some level => .error (loop p level.path)
          | none => .ok (some .directory)
        | other => .ok other

/-- Whether an entry is passed over, with all that is in it. -/
def isPruned (sel : Selection) (root p : Path) (name : String) : Bool :=
  isHidden name || (p.relativeTo? root).any sel.excludes

/-! ## The way down -/

/-- Walks through a directory, if it may be read.  `root` is where the walk started,
`output` the root of the results, and `above` the directories on the way, innermost
first. -/
def descend (v : Visitor σ) (sel : Selection) (root output : Path) :
    Nat → Path → List Level → σ → σ
  | 0, _, _, s => s
  | fuel + 1, directory, above, s =>
    match (v.tree s).locate true directory with
    | .error _ => s
    | .ok loc =>
      match v.refusals.reading loc with
      | some e => v.fault (closed directory e) s
      | none =>
        let above := ⟨directory, loc⟩ :: above
        ((v.tree s).names loc).foldl (fun s name =>
          let p := directory.child name
          match inspect (v.tree s) sel above p with
          | .error fault => v.fault fault s
          | .ok none => s
          | .ok (some e) =>
            if isPruned sel root p name then s
            else match e with
              | .directory => descend v sel root output fuel p above s
              | .file _ =>
                if !sel.supports p then s
                else match p.relativeTo? root with
                  | some below => v.file p (output.join below) s
                  | none => s
              | .link _ => s) s

/-- How deep a way down can be. -/
def depthBound (t : FileTree) : Nat := (t.entries.length + 2) * (t.entries.length + 2)

/-- The path of the result of a root that is a file.  A directory keeps the name
of the file. -/
def singleTarget (t : FileTree) (root output : Path) : Path :=
  match root.fileName? with
  | some name => if !output.same root && t.isDirectory output then output.child name else output
  | none => output

/-- What a walk makes of its root. -/
def inspectRoot (t : FileTree) (sel : Selection) (root : Path) : Except Fault (Option Entry) :=
  match t.entryAt false root with
  | .error .notFound => .error (missing root)
  | .error e => .error (unknownKind root e)
  | .ok (.link _) =>
    if !sel.followLinks then .ok none
    else match t.entryAt true root with
      | .error e => .error (unknownKind root e)
      | .ok e => .ok (some e)
  | .ok e => .ok (some e)

/-- Walks from a root. -/
def run (v : Visitor σ) (sel : Selection) (root output : Path) (s : σ) : σ :=
  let t := v.tree s
  match inspectRoot t sel root with
  | .error fault => v.fault fault s
  | .ok (some (.file _)) =>
    if sel.supports root then v.file root (singleTarget t root output) s else s
  | .ok (some .directory) => descend v sel root output (depthBound t) root [] s
  | .ok _ => s

/-! ## What there is to find -/

/-- Something that a walk comes across. -/
inductive Find where
  /-- A file, and the path of its result. -/
  | file (input output : Path)
  /-- A fault. -/
  | fault (f : Fault)
deriving DecidableEq

/-- The visitor that takes notes, last find first. -/
def recorder (t : FileTree) (r : Refusals := .none) : Visitor (List Find) where
  tree := fun _ => t
  file := fun input output finds => .file input output :: finds
  fault := fun f finds => .fault f :: finds
  refusals := r

/-- What a walk comes across in a tree that does not change, in order. -/
def finds (t : FileTree) (sel : Selection) (root output : Path) (r : Refusals := .none) :
    List Find :=
  (run (recorder t r) sel root output []).reverse

/-- The files among some finds. -/
def files (finds : List Find) : List (Path × Path) :=
  finds.filterMap fun
    | .file input output => some (input, output)
    | .fault _ => none

/-- The faults among some finds. -/
def faults (finds : List Find) : List Fault :=
  finds.filterMap fun
    | .file _ _ => none
    | .fault f => some f

end Walk
end Restyle
