import Mathlib.Data.List.Nodup
import Mathlib.Data.List.Perm.Basic
import Restyle.FileTree.Access
import Restyle.Proofs.Name
import Restyle.Proofs.Path

/-!
# The shape of a file tree

What a walk comes across, and where a path leads, does not depend on the bytes of
the files.  The *shape* of an entry is the entry without its bytes, and two trees
have the same shape if they have entries of the same shapes at the same locations.

A tree that stands for a disk is `WellFormed`: there is one entry for a location, it
stands in a directory, and its names are names.  Then the names in a directory can be
read off the look-ups, and two trees that agree on these list the same names.

* `WellFormed.put`: an entry put in place of a file, or of nothing, keeps a tree well
  formed.
* `WellFormed.names_eq`: the names in a directory depend only on which locations are
  taken.
* `Grows`: everything stays where it is and what it is, up to the bytes of files.
* `SameShape.put`: overwriting a file keeps the shape.
-/

namespace Restyle

namespace Entry

/-- An entry without the bytes of a file. -/
def shape : Entry → Entry
  | file _ => file .empty
  | directory => directory
  | link target => link target

@[simp] theorem shape_file (content : ByteArray) : (file content).shape = file .empty := rfl

@[simp] theorem shape_directory : directory.shape = directory := rfl

@[simp] theorem shape_link (target : String) : (link target).shape = link target := rfl

@[simp] theorem shape_eq_directory {e : Entry} : e.shape = directory ↔ e = directory := by
  cases e <;> simp

@[simp] theorem shape_eq_link {e : Entry} {target : String} :
    e.shape = link target ↔ e = link target := by
  cases e <;> simp

@[simp] theorem shape_eq_file {e : Entry} :
    e.shape = file .empty ↔ ∃ content, e = file content := by
  cases e <;> simp

/-- What has the same shape is of the same kind. -/
theorem cases_of_map_shape {o o' : Option Entry} (h : o'.map shape = o.map shape) :
    o' = none ∧ o = none ∨ o' = some directory ∧ o = some directory ∨
      (∃ target, o' = some (link target) ∧ o = some (link target)) ∨
      ∃ content content', o' = some (file content') ∧ o = some (file content) := by
  rcases o with - | (content | - | target) <;> rcases o' with - | (content' | - | target') <;>
    simp_all

theorem isLink_eq_of_shape {e e' : Entry} (h : e'.shape = e.shape) : e'.isLink = e.isLink := by
  cases e <;> cases e' <;> simp_all [isLink]

end Entry

namespace FileTree

variable {t u v : FileTree} {loc : Location} {e : Entry}

/-! ## Well-formed trees -/

/-- A text that can be the name of an entry. -/
def IsName (s : String) : Prop := Path.IsPlain s ∧ '/' ∉ s.toList

instance (s : String) : Decidable (IsName s) := inferInstanceAs (Decidable (_ ∧ _))

/-- A tree that stands for a disk: one entry for a location, each in a directory and
with names for names, and a working directory that is there. -/
structure WellFormed (t : FileTree) : Prop where
  /-- No location is taken twice. -/
  nodup : (t.entries.map Prod.fst).Nodup
  /-- Every entry stands in a directory, and its names are names. -/
  entry : ∀ e ∈ t.entries,
    e.1 ≠ [] ∧ t.lookup e.1.dropLast = some .directory ∧ ∀ s ∈ e.1, IsName s
  /-- The working directory is a directory. -/
  workingDirectory : t.lookup t.workingDirectory = some .directory

instance (t : FileTree) : Decidable t.WellFormed :=
  decidable_of_iff ((t.entries.map Prod.fst).Nodup ∧
      (∀ e ∈ t.entries, e.1 ≠ [] ∧ t.lookup e.1.dropLast = some .directory ∧ ∀ s ∈ e.1, IsName s) ∧
      t.lookup t.workingDirectory = some .directory)
    ⟨fun h => ⟨h.1, h.2.1, h.2.2⟩, fun h => ⟨h.nodup, h.entry, h.workingDirectory⟩⟩

theorem mem_entries_of_lookup (h : t.lookup loc = some e) (hne : loc ≠ []) :
    (loc, e) ∈ t.entries := by
  rw [lookup, if_neg hne] at h
  obtain ⟨before, after, hentries, -⟩ := List.lookup_eq_some_iff.1 h
  rw [hentries]
  exact List.mem_append_right _ List.mem_cons_self

theorem lookup_isSome_iff (hne : loc ≠ []) :
    (t.lookup loc).isSome = true ↔ loc ∈ t.entries.map Prod.fst := by
  rw [lookup, if_neg hne, List.lookup_isSome_iff, List.mem_map]
  refine exists_congr fun entry => and_congr_right fun _ => ?_
  rw [beq_iff_eq, eq_comm]

namespace WellFormed

theorem parent (ht : t.WellFormed) (h : t.lookup loc = some e) (hne : loc ≠ []) :
    t.lookup loc.dropLast = some .directory :=
  (ht.entry _ (mem_entries_of_lookup h hne)).2.1

theorem isName (ht : t.WellFormed) (h : t.lookup loc = some e) : ∀ s ∈ loc, IsName s := by
  by_cases hne : loc = []
  · simp [hne]
  · exact (ht.entry _ (mem_entries_of_lookup h hne)).2.2

/-- What stands on the way to an entry is a directory. -/
theorem directory_of_prefix (ht : t.WellFormed) {above below : Location} (hbelow : below ≠ [])
    (h : t.lookup (above ++ below) = some e) : t.lookup above = some .directory := by
  induction below using List.reverseRecOn generalizing e with
  | nil => exact absurd rfl hbelow
  | append_singleton below s ih =>
    have hparent := ht.parent h (by simp)
    rw [← List.append_assoc, List.dropLast_concat] at hparent
    by_cases hnil : below = []
    · rwa [hnil, List.append_nil] at hparent
    · exact ih hnil hparent

/-- **An entry put in place of a file, or of nothing, keeps a tree well formed.** -/
theorem put (ht : t.WellFormed) (hne : loc ≠ [])
    (hdir : t.lookup loc.dropLast = some .directory) (hnames : ∀ s ∈ loc, IsName s)
    (hold : t.lookup loc ≠ some .directory) (e : Entry) : (t.put loc e).WellFormed := by
  have hkept : ∀ {other : Location}, t.lookup other = some .directory →
      (t.put loc e).lookup other = some .directory := by
    intro other hother
    rw [lookup_put_of_ne t e (by rintro rfl; exact hold hother), hother]
  refine ⟨?_, ?_, hkept ht.workingDirectory⟩
  · have hfilter : (t.entries.filter (·.1 != loc)).map Prod.fst =
        (t.entries.map Prod.fst).filter (· != loc) := by
      simp [List.filter_map, Function.comp_def]
    simp only [FileTree.put, List.map_cons, hfilter, List.nodup_cons, List.mem_filter,
      bne_self_eq_false, Bool.false_eq_true, and_false, not_false_eq_true, true_and]
    exact ht.nodup.filter _
  · intro entry hentry
    rcases List.mem_cons.1 hentry with rfl | hentry
    · exact ⟨hne, hkept hdir, hnames⟩
    · obtain ⟨hentry1, hentry2, hentry3⟩ := ht.entry entry (List.mem_of_mem_filter hentry)
      exact ⟨hentry1, hkept hentry2, hentry3⟩

/-- A file that is overwritten leaves a tree well formed. -/
theorem put_file (ht : t.WellFormed) {old : ByteArray}
    (hold : t.lookup loc = some (.file old)) (new : ByteArray) :
    (t.put loc (.file new)).WellFormed := by
  have hne : loc ≠ [] := by
    rintro rfl
    simp at hold
  exact ht.put hne (ht.parent hold hne) (ht.isName hold) (by simp [hold]) _

end WellFormed

/-! ## The names in a directory -/

theorem nameIn?_eq_some_iff {directory : Location} {s : String} :
    nameIn? directory loc = some s ↔ loc = directory ++ [s] := by
  induction loc using List.reverseRecOn with
  | nil => simp [nameIn?]
  | append_singleton loc last =>
    simp only [nameIn?, List.getLast?_concat, List.dropLast_concat]
    constructor
    · intro h
      split at h
      · rename_i heq
        rw [heq, Option.some.inj h]
      · simp at h
    · intro h
      obtain ⟨rfl, hs⟩ := List.append_inj' h rfl
      simpa using hs

theorem mem_names {s : String} :
    s ∈ t.names loc ↔ (t.lookup (loc ++ [s])).isSome = true := by
  rw [lookup_isSome_iff (by simp), names, List.mem_mergeSort]
  simp [nameIn?_eq_some_iff]

theorem nameLE_iff {a b : String} : nameLE a b = true ↔ Name.bytes a ≤ Name.bytes b := by
  simp only [nameLE, Bool.not_eq_true', decide_eq_false_iff_not, List.not_lt]

theorem nameLE_trans (a b c : String) (hab : nameLE a b = true) (hbc : nameLE b c = true) :
    nameLE a c = true :=
  nameLE_iff.2 (List.le_trans (nameLE_iff.1 hab) (nameLE_iff.1 hbc))

theorem nameLE_total (a b : String) : (nameLE a b || nameLE b a) = true := by
  rw [Bool.or_eq_true, nameLE_iff, nameLE_iff]
  exact List.le_total _ _

theorem nameLE_antisymm {a b : String} (hab : nameLE a b = true) (hba : nameLE b a = true) :
    a = b :=
  Name.bytes_injective (List.le_antisymm (nameLE_iff.1 hab) (nameLE_iff.1 hba))

theorem pairwise_names (t : FileTree) (loc : Location) :
    (t.names loc).Pairwise fun a b => nameLE a b = true :=
  List.pairwise_mergeSort nameLE_trans nameLE_total _

theorem WellFormed.nodup_names (ht : t.WellFormed) (loc : Location) : (t.names loc).Nodup := by
  have hperm := List.mergeSort_perm (t.entries.filterMap fun e => nameIn? loc e.1) nameLE
  refine hperm.nodup_iff.2 ?_
  have hmap : (t.entries.filterMap fun e => nameIn? loc e.1) =
      (t.entries.map Prod.fst).filterMap (nameIn? loc) := by
    simp [List.filterMap_map]
  rw [hmap]
  refine ht.nodup.filterMap fun a b s ha hb => ?_
  rw [nameIn?_eq_some_iff.1 ha, nameIn?_eq_some_iff.1 hb]

/-- The names in a directory are in order, each only once. -/
theorem WellFormed.sorted_names (ht : t.WellFormed) (loc : Location) :
    (t.names loc).Pairwise fun a b => Name.bytes a < Name.bytes b := by
  refine ((pairwise_names t loc).and (ht.nodup_names loc)).imp fun {a b} ⟨hle, hne⟩ => ?_
  by_contra hlt
  exact hne (nameLE_antisymm hle (nameLE_iff.2 (List.not_lt.1 hlt)))

/-- **The names in a directory depend only on which locations are taken.** -/
theorem WellFormed.names_eq (ht : t.WellFormed) (hu : u.WellFormed)
    (h : ∀ s, (u.lookup (loc ++ [s])).isSome = (t.lookup (loc ++ [s])).isSome) :
    u.names loc = t.names loc := by
  have hperm : (u.names loc).Perm (t.names loc) := by
    rw [List.perm_ext_iff_of_nodup (hu.nodup_names loc) (ht.nodup_names loc)]
    intro s
    rw [mem_names, mem_names, h]
  exact hperm.eq_of_pairwise (fun a b _ _ => nameLE_antisymm) (pairwise_names u loc)
    (pairwise_names t loc)

/-! ## Trees that keep what they have -/

theorem map_shape_eq_directory {o : Option Entry} :
    o.map Entry.shape = some .directory ↔ o = some .directory := by
  cases o <;> simp

/-- Results that a function does not tell apart are the same errors, or values that it
does not tell apart. -/
theorem cases_of_except_map {ε α β : Type} {f : α → β} {x x' : Except ε α}
    (h : x'.map f = x.map f) :
    (∃ e, x' = .error e ∧ x = .error e) ∨ ∃ a a', x' = .ok a' ∧ x = .ok a ∧ f a' = f a := by
  cases x <;> cases x' <;> simp_all [Except.map]

/-- Everything stays where it is and what it is, up to the bytes of files. -/
structure Grows (t u : FileTree) : Prop where
  /-- The working directory is the same. -/
  workingDirectory : u.workingDirectory = t.workingDirectory
  /-- What is there stays there. -/
  lookup : ∀ {loc : Location} {e : Entry}, t.lookup loc = some e →
    (u.lookup loc).map Entry.shape = some e.shape

namespace Grows

theorem refl (t : FileTree) : Grows t t := ⟨rfl, fun h => by rw [h]; rfl⟩

theorem trans (h : Grows t u) (h' : Grows u v) : Grows t v := by
  refine ⟨h'.workingDirectory.trans h.workingDirectory, fun hloc => ?_⟩
  obtain ⟨e', he', hshape⟩ := Option.map_eq_some_iff.1 (h.lookup hloc)
  rw [h'.lookup he', hshape]

theorem directory (h : Grows t u) (hloc : t.lookup loc = some .directory) :
    u.lookup loc = some .directory := by
  simpa using h.lookup hloc

theorem link (h : Grows t u) {target : String} (hloc : t.lookup loc = some (.link target)) :
    u.lookup loc = some (.link target) := by
  simpa using h.lookup hloc

theorem file (h : Grows t u) {content : ByteArray} (hloc : t.lookup loc = some (.file content)) :
    ∃ content', u.lookup loc = some (.file content') := by
  obtain ⟨e', he', hshape⟩ := Option.map_eq_some_iff.1 (h.lookup hloc)
  obtain ⟨content', rfl⟩ := Entry.shape_eq_file.1 hshape
  exact ⟨content', he'⟩

/-- A new entry, and a file in place of a file, take nothing away. -/
theorem put (hold : t.lookup loc = none ∨
    ∃ content, t.lookup loc = some (.file content) ∧ e.shape = .file .empty) :
    Grows t (t.put loc e) := by
  refine ⟨rfl, fun {other e'} hother => ?_⟩
  by_cases heq : other = loc
  · subst heq
    rcases hold with hnone | ⟨content, hfile, he⟩
    · rw [hnone] at hother
      exact absurd hother (by simp)
    · have hne : other ≠ [] := by
        rintro rfl
        simp at hfile
      rw [hfile] at hother
      obtain rfl := Option.some.inj hother
      rw [lookup_put t e hne, Option.map_some, he]
      rfl
  · rw [lookup_put_of_ne t e heq, hother]
    rfl

end Grows

/-- The same entries at the same locations, up to the bytes of files. -/
structure SameShape (t u : FileTree) : Prop where
  /-- The working directory is the same. -/
  workingDirectory : u.workingDirectory = t.workingDirectory
  /-- The number of entries is the same. -/
  length : u.entries.length = t.entries.length
  /-- The shapes of the entries are the same. -/
  lookup : ∀ loc, (u.lookup loc).map Entry.shape = (t.lookup loc).map Entry.shape

namespace SameShape

theorem refl (t : FileTree) : SameShape t t := ⟨rfl, rfl, fun _ => rfl⟩

theorem trans (h : SameShape t u) (h' : SameShape u v) : SameShape t v :=
  ⟨h'.workingDirectory.trans h.workingDirectory, h'.length.trans h.length,
    fun loc => (h'.lookup loc).trans (h.lookup loc)⟩

theorem grows (h : SameShape t u) : Grows t u :=
  ⟨h.workingDirectory, fun {loc e} hloc => by rw [h.lookup loc, hloc]; rfl⟩

/-- **Overwriting a file keeps the shape.** -/
theorem put (ht : t.WellFormed) {old new : ByteArray} (hold : t.lookup loc = some (.file old)) :
    SameShape t (t.put loc (.file new)) := by
  have hne : loc ≠ [] := by
    rintro rfl
    simp at hold
  refine ⟨rfl, ?_, fun other => ?_⟩
  · -- the one entry for the location goes, and one comes
    have hmem := mem_entries_of_lookup hold hne
    have hfilter : (t.entries.filter (·.1 != loc)).map Prod.fst =
        (t.entries.map Prod.fst).erase loc := by
      rw [ht.nodup.erase_eq_filter]
      simp [List.filter_map, Function.comp_def]
    have hlength := congrArg List.length hfilter
    have hkey : loc ∈ t.entries.map Prod.fst := List.mem_map_of_mem (f := Prod.fst) hmem
    rw [List.length_map, List.length_erase_of_mem hkey, List.length_map] at hlength
    have hpos : 0 < t.entries.length := List.length_pos_of_mem hmem
    simp only [FileTree.put, List.length_cons, hlength]
    omega
  · by_cases heq : other = loc
    · rw [heq, lookup_put t _ hne, hold]
      rfl
    · rw [lookup_put_of_ne t _ heq]

end SameShape

end FileTree
end Restyle
