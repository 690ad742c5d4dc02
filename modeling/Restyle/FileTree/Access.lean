import Restyle.FileTree.Basic

/-!
# Reading and writing a file tree by path

A path is followed segment by segment.  A symbolic link in the middle is always
followed, one at the end only when asked for; after forty links the search is
given up.  Segments of two dots go up from the directory that was reached, not
from the text of the path.

An operation fails where the path does not lead to what it needs, and with the
words that a disk gives.  Besides, a disk may refuse an operation where the path
is as it should be, because of permissions or because it cannot be written to.
What it refuses is given as `Refusals`, and by default it refuses nothing.  A
refused operation changes nothing.  What is not modelled is a path that may not be
followed, and a write that breaks off halfway.
-/

namespace Restyle

/-- Why an operation on a disk failed. -/
inductive DiskError where
  /-- There is nothing at the path. -/
  | notFound
  /-- There is something at the path already. -/
  | alreadyThere
  /-- Something on the way is not a directory. -/
  | notDirectory
  /-- There is a directory at the path. -/
  | isDirectory
  /-- There are too many symbolic links on the way. -/
  | tooManyLinks
  /-- The bytes of a file are not a text. -/
  | notText
  /-- There is no permission. -/
  | denied
  /-- The disk cannot be written to. -/
  | readOnly
  /-- There is no space for anything new. -/
  | noSpace
  /-- The name is longer than the disk allows. -/
  | nameTooLong
deriving Repr, DecidableEq

/-- How an error is worded. -/
def DiskError.message : DiskError → String
  | notFound => "No such file or directory (os error 2)"
  | alreadyThere => "File exists (os error 17)"
  | notDirectory => "Not a directory (os error 20)"
  | isDirectory => "Is a directory (os error 21)"
  | tooManyLinks => "Too many levels of symbolic links (os error 40)"
  | notText => "stream did not contain valid UTF-8"
  | denied => "Permission denied (os error 13)"
  | readOnly => "Read-only file system (os error 30)"
  | noSpace => "No space left on device (os error 28)"
  | nameTooLong => "File name too long (os error 36)"

/-! ## What a disk refuses -/

/-- What a disk refuses, and why. -/
structure Refusals where
  /-- Reading the bytes of a file or the names in a directory. -/
  reading : Location → Option DiskError := fun _ => none
  /-- Writing over a file, or making an entry where there is none. -/
  writing : Location → Option DiskError := fun _ => none

namespace Refusals

/-- A disk that refuses nothing. -/
def none : Refusals := {}

@[simp] theorem none_reading (loc : Location) : none.reading loc = .none := rfl

@[simp] theorem none_writing (loc : Location) : none.writing loc = .none := rfl

end Refusals

/-- What comes of an operation, unless it is refused. -/
def unlessRefused (refusal : Option DiskError) (a : α) : Except DiskError α :=
  match refusal with
  | some e => .error e
  | none => .ok a

@[simp] theorem unlessRefused_none (a : α) : unlessRefused none a = .ok a := rfl

@[simp] theorem unlessRefused_some (e : DiskError) (a : α) :
    unlessRefused (some e) a = .error e := rfl

theorem unlessRefused_eq_ok_iff {refusal : Option DiskError} {a b : α} :
    unlessRefused refusal a = .ok b ↔ refusal = none ∧ a = b := by
  cases refusal <;> simp

namespace FileTree

/-! ## Following a path -/

/-- Where a path leads. -/
inductive Spot where
  /-- To an entry. -/
  | taken (loc : Location)
  /-- To a place in a directory where nothing stands yet. -/
  | vacant (loc : Location)
  /-- To such a place, with a slash behind it: only a directory can be made there. -/
  | reserved (loc : Location)
deriving Repr, DecidableEq

/-- The location that a path leads to, taken or not. -/
def Spot.loc : Spot → Location
  | taken loc => loc
  | vacant loc => loc
  | reserved loc => loc

/-- How many symbolic links are followed for one path. -/
def linkLimit : Nat := 40

/-- Follows segments from a location up to the first link that has to be followed;
`jump` goes on from there, with the directory of the link or the root and with the
segments of its target in front of the others.  A link at the end is followed only
with `followLast`. -/
def followUntil (t : FileTree) (followLast : Bool)
    (jump : Location → List String → Except DiskError Spot) :
    Location → List String → Except DiskError Spot
  | loc, [] => .ok (.taken loc)
  | loc, segment :: rest =>
    if t.lookup loc != some .directory then .error .notDirectory
    else if Path.isIdle segment then followUntil t followLast jump loc rest
    else if segment == ".." then followUntil t followLast jump loc.dropLast rest
    else
      match t.lookup (loc ++ [segment]) with
      | none =>
        if rest.isEmpty then .ok (.vacant (loc ++ [segment]))
        else if rest.all (· == "") then .ok (.reserved (loc ++ [segment]))
        else .error .notFound
      | some (.link target) =>
        if rest.isEmpty && !followLast then .ok (.taken (loc ++ [segment]))
        else
          let path := Path.ofText target
          jump (if path.rooted then [] else loc) (path.segments ++ rest)
      | some _ => followUntil t followLast jump (loc ++ [segment]) rest

/-- Follows segments from a location.  At most `links` links are followed; one at
the end only with `followLast`. -/
def follow (t : FileTree) (followLast : Bool) :
    Nat → Location → List String → Except DiskError Spot
  | 0 => t.followUntil followLast fun _ _ => .error .tooManyLinks
  | links + 1 => t.followUntil followLast (t.follow followLast links)

/-- Where a path leads. -/
def resolve (t : FileTree) (followLast : Bool) (p : Path) : Except DiskError Spot :=
  if p.isEmpty then .error .notFound
  else follow t followLast linkLimit (if p.rooted then [] else t.workingDirectory) p.segments

/-- The location that a path leads to, if there is an entry. -/
def locate (t : FileTree) (followLast : Bool) (p : Path) : Except DiskError Location :=
  match t.resolve followLast p with
  | .ok (.taken loc) => .ok loc
  | .ok _ => .error .notFound
  | .error e => .error e

/-- The entry that a path leads to. -/
def entryAt (t : FileTree) (followLast : Bool) (p : Path) : Except DiskError Entry :=
  match t.locate followLast p with
  | .ok loc => match t.lookup loc with
    | some e => .ok e
    | none => .error .notFound
  | .error e => .error e

/-! ## Reading -/

/-- Whether a path leads to something that satisfies `p`, through any links. -/
def holds (t : FileTree) (p : Entry → Bool) (path : Path) : Bool :=
  match t.entryAt true path with
  | .ok e => p e
  | .error _ => false

/-- Whether a path leads to a file. -/
def isFile (t : FileTree) (p : Path) : Bool := t.holds Entry.isFile p

/-- Whether a path leads to a directory. -/
def isDirectory (t : FileTree) (p : Path) : Bool := t.holds Entry.isDirectory p

/-- Why what a path leads to may not be read, if it may not. -/
def readingRefusal? (t : FileTree) (p : Path) (r : Refusals) : Option DiskError :=
  match t.locate true p with
  | .ok loc => r.reading loc
  | .error _ => none

@[simp] theorem readingRefusal?_none (t : FileTree) (p : Path) :
    t.readingRefusal? p .none = none := by
  unfold readingRefusal?
  cases t.locate true p <;> rfl

/-- The text of the file that a path leads to. -/
def readText (t : FileTree) (p : Path) (r : Refusals := .none) : Except DiskError String :=
  match t.readingRefusal? p r with
  | some e => .error e
  | none => match t.entryAt true p with
    | .ok (.file content) => match String.fromUTF8? content with
      | some s => .ok s
      | none => .error .notText
    | .ok _ => .error .isDirectory
    | .error e => .error e

/-- The names in the directory that a path leads to, in order. -/
def list (t : FileTree) (p : Path) : List String :=
  match t.locate true p with
  | .ok loc => t.names loc
  | .error _ => []

/-! ## Writing -/

/-- Writes a text to a path: over the file that is there, through links, or as a
new file in a directory that is there.  A path that ends with a slash cannot be a
file, whatever its last name leads to. -/
def writeText (t : FileTree) (p : Path) (s : String) (r : Refusals := .none) :
    Except DiskError FileTree :=
  match t.resolve (!p.endsWithSlash) p.withoutSlash with
  | .error e => .error e
  | .ok (.reserved _) => .error .isDirectory
  | .ok spot =>
    if p.endsWithSlash || t.lookup spot.loc == some .directory then .error .isDirectory
    else unlessRefused (r.writing spot.loc) (t.put spot.loc (.file s.toUTF8))

/-- Makes one directory.  A slash at the end of the path makes no difference. -/
def makeDirectory (t : FileTree) (p : Path) (r : Refusals := .none) :
    Except DiskError FileTree :=
  match t.resolve false p.withoutSlash with
  | .ok (.taken _) => .error .alreadyThere
  | .ok spot => unlessRefused (r.writing spot.loc) (t.put spot.loc .directory)
  | .error e => .error e

/-- Makes the directories of a list, outermost last, so that the first one is
there.  What was made before a failure stays. -/
def makeDirectories (t : FileTree) (paths : List Path) (r : Refusals := .none) :
    FileTree × Option DiskError :=
  match paths with
  | [] => (t, none)
  | p :: above =>
    if p.components.isEmpty then (t, none)
    else match t.makeDirectory p r with
      | .ok t' => (t', none)
      | .error .notFound =>
        match makeDirectories t above r with
        | (t', some e) => (t', some e)
        | (t', none) => match t'.makeDirectory p r with
          | .ok t'' => (t'', none)
          | .error e => (t', if t'.isDirectory p then none else some e)
      | .error e => (t, if t.isDirectory p then none else some e)

/-- Makes a directory and all that are missing above it. -/
def createDirectories (t : FileTree) (p : Path) (r : Refusals := .none) :
    FileTree × Option DiskError :=
  t.makeDirectories p.ancestors r

end FileTree
end Restyle
