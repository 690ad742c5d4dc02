import Restyle.Path

/-!
# File trees

A file tree is what a disk holds: files with their bytes, directories, and
symbolic links with the text of their target.  Every entry stands at a location,
which is the list of names that leads to it from the root.  The root itself is
always a directory and is not listed.

A tree also knows the working directory, where relative paths start.  It is a
plain value: an operation that changes a disk gives another tree.

The laws of this module say what one more entry does to a look-up: `lookup_put` and
`lookup_put_of_ne`.
-/

namespace Restyle

/-- Where an entry stands: the names from the root. -/
abbrev Location := List String

/-- What stands at a location. -/
inductive Entry where
  /-- A file with its bytes. -/
  | file (content : ByteArray)
  /-- A directory. -/
  | directory
  /-- A symbolic link with its target as it was given. -/
  | link (target : String)

namespace Entry

/-- Files with the same bytes are the same. -/
theorem file_eq_iff {a b : ByteArray} : a.data = b.data ↔ file a = file b := by
  rw [file.injEq]
  exact ⟨ByteArray.ext, congrArg ByteArray.data⟩

/-- Entries are compared by their bytes or their targets. -/
instance : DecidableEq Entry
  | file _, file _ => decidable_of_decidable_of_iff file_eq_iff
  | directory, directory => isTrue rfl
  | link s, link t => decidable_of_decidable_of_iff (link.injEq s t).symm.to_iff
  | file _, directory | file _, link _ => isFalse Entry.noConfusion
  | directory, file _ | directory, link _ => isFalse Entry.noConfusion
  | link _, file _ | link _, directory => isFalse Entry.noConfusion

/-- Whether an entry is a file. -/
def isFile : Entry → Bool
  | file _ => true
  | _ => false

/-- Whether an entry is a directory. -/
def isDirectory : Entry → Bool
  | directory => true
  | _ => false

/-- Whether an entry is a symbolic link. -/
def isLink : Entry → Bool
  | link _ => true
  | _ => false

end Entry

/-- What a disk holds, and the working directory. -/
structure FileTree where
  /-- The entries, at most one for a location. -/
  entries : List (Location × Entry)
  /-- Where relative paths start. -/
  workingDirectory : Location

namespace FileTree

/-- The entry at a location. -/
def lookup (t : FileTree) (loc : Location) : Option Entry :=
  if loc = [] then some .directory else t.entries.lookup loc

/-- The tree with an entry put at a location, in place of what was there. -/
def put (t : FileTree) (loc : Location) (e : Entry) : FileTree :=
  { t with entries := (loc, e) :: t.entries.filter (·.1 != loc) }

/-- The tree without the entry at a location and all that is below it. -/
def remove (t : FileTree) (loc : Location) : FileTree :=
  { t with entries := t.entries.filter fun e => !loc.isPrefixOf e.1 }

/-- The order of names is that of their bytes. -/
def nameLE (a b : String) : Bool := !decide (Name.bytes b < Name.bytes a)

/-- The name of a location in a directory, if it stands right there. -/
def nameIn? (directory loc : Location) : Option String :=
  match loc.getLast? with
  | some name => if loc.dropLast = directory then some name else none
  | none => none

/-- The names in a directory, in order. -/
def names (t : FileTree) (directory : Location) : List String :=
  (t.entries.filterMap fun (loc, _) => nameIn? directory loc).mergeSort nameLE

/-! ## What a change does to a look-up -/

@[simp] theorem lookup_nil (t : FileTree) : t.lookup [] = some .directory := by
  simp [lookup]

/-- What was put is found. -/
theorem lookup_put (t : FileTree) {loc : Location} (e : Entry) (h : loc ≠ []) :
    (t.put loc e).lookup loc = some e := by
  simp [lookup, put, h]

/-- Filtering by key finds what was there under the keys that are kept, and nothing under
the others. -/
theorem lookup_filter (p : Location → Bool) (loc : Location) :
    ∀ entries : List (Location × Entry),
      (entries.filter fun e => p e.1).lookup loc = if p loc then entries.lookup loc else none
  | [] => by simp
  | (k, e) :: rest => by
    by_cases hk : loc = k
    · subst hk
      cases hp : p loc <;> simp [hp, lookup_filter p loc rest]
    · have hkb : (loc == k) = false := by simpa using hk
      cases hp : p k <;> simp [hp, List.lookup_cons, hkb, lookup_filter p loc rest]

/-- Putting an entry leaves every other location as it was. -/
theorem lookup_put_of_ne (t : FileTree) {loc other : Location} (e : Entry) (h : other ≠ loc) :
    (t.put loc e).lookup other = t.lookup other := by
  have hb : (other == loc) = false := by simpa using h
  have hk : (other != loc) = true := by simpa using h
  simp only [lookup, put, List.lookup_cons, hb]
  rw [lookup_filter (fun k => k != loc), if_pos hk]

end FileTree
end Restyle
