import Restyle.Proofs.Cache

/-!
# Saving a cache and loading it again

What is remembered under a key is the last value that was inserted under it, `get?_insertAll`.  So
a cache depends on what is in it at the end and not on the order in which it came, and the same
holds for its file.

A file can be written at a path exactly if the path leads to a file, or to a free place in a
directory, and does not end with a slash: `exists_writeText_iff`.  There a cache is saved and loads
as it was.  Anywhere else in an existing directory, such as where a directory stands, saving fails
with a fault of writing.

* `save_insertAll`: the whole of it, for any path in a directory and anything inserted.
* `save_onto_directory`: not every path in a directory can hold a cache.
-/

namespace Restyle

/-! ## Where a file can be written -/

namespace FileTree

variable {t u : FileTree} {p : Path} {s : String}

/-- A file can be written at a path: the path does not end with a slash, and leads to a file or to
a free place in a directory. -/
def Writable (t : FileTree) (p : Path) : Prop :=
  p.endsWithSlash = false ∧ (t.isFile p = true ∨ ∃ loc, t.resolve true p = .ok (.vacant loc))

theorem writable_of_writeText (ht : t.WellFormed) (hp : p.Proper) (h : t.writeText p s = .ok u) :
    t.Writable p := by
  refine ⟨endsWithSlash_of_writeText h, ?_⟩
  rcases resolve_of_writeText hp h with ⟨l, hvacant | ⟨htaken, hdir⟩, rfl⟩
  · exact .inr ⟨l, hvacant⟩
  · obtain ⟨content, hlocate, hfile⟩ := ht.file_of_taken htaken hdir
    exact .inl (isFile_iff.2 ⟨l, content, hlocate, hfile⟩)

/-- A free place is in a directory, and can be filled. -/
theorem writeText_of_vacant (hp : p.Proper) (hslash : p.endsWithSlash = false) {l : Location}
    (hvacant : t.resolve true p = .ok (.vacant l)) (s : String) :
    t.writeText p s = .ok (t.put l (.file s.toUTF8)) := by
  obtain ⟨above, name, hloc, -, -, hnone, -⟩ :=
    follow_vacant ((resolve_eq (isEmpty_of_resolve hvacant)).symm.trans hvacant) (by simp)
  obtain rfl : l = above ++ [name] := hloc
  rw [writeText, Path.withoutSlash_of_not_endsWithSlash hp hslash, hslash, Bool.not_false,
    hvacant]
  simp [Spot.loc, hnone]

/-- **A text can be written where a file can be written**, and nowhere else. -/
theorem exists_writeText_iff (ht : t.WellFormed) (hp : p.Proper) :
    (∃ u, t.writeText p s = .ok u) ↔ t.Writable p := by
  constructor
  · rintro ⟨u, hu⟩
    exact writable_of_writeText ht hp hu
  · rintro ⟨hslash, hfile | ⟨l, hvacant⟩⟩
    · obtain ⟨l, content, hlocate, hl⟩ := isFile_iff.1 hfile
      exact ⟨_, writeText_of_file ht hlocate hl s⟩
    · exact ⟨_, writeText_of_vacant hp hslash hvacant s⟩

end FileTree

/-! ## What is in a cache -/

namespace StringMap

theorem get?_empty (key : String) : empty.get? key = none := rfl

/-- **The last value that was inserted under a key is found**, and if there is none, what was there
before. -/
theorem get?_insertAll (m : StringMap) (entries : List (String × String)) (key : String) :
    (m.insertAll entries).get? key = (entries.reverse.lookup key).or (m.get? key) := by
  induction entries generalizing m with
  | nil => rfl
  | cons e rest ih =>
    obtain ⟨k, v⟩ := e
    have hrest := ih (m.insert k v)
    rw [List.reverse_cons, List.lookup_append, Option.or_assoc]
    refine hrest.trans (congrArg _ ?_)
    rw [get?_insert, lookup_cons_eq]
    split_ifs <;> rfl

end StringMap

namespace Cache

variable {t u : FileTree} {p : Path} {c : Cache} {entries entries' : List (String × String)}

/-- A cache with several values inserted, one after the other. -/
def insertAll (c : Cache) (entries : List (String × String)) : Cache :=
  entries.foldl (fun c (key, value) => c.insert key value) c

/-- What is inserted goes to the entries. -/
theorem insertAll_eq (c : Cache) (entries : List (String × String)) :
    c.insertAll entries = { c with entries := c.entries.insertAll entries } := by
  induction entries generalizing c with
  | nil => rfl
  | cons e rest ih => exact ih (c.insert e.1 e.2)

/-- Entries leave the same values under the same keys: the last value under each key is the
same. -/
def SameInTheEnd (entries entries' : List (String × String)) : Prop :=
  ∀ key, entries'.reverse.lookup key = entries.reverse.lookup key

/-- **A cache is told by what is in it in the end.** -/
theorem insertAll_congr (h : SameInTheEnd entries entries') (c : Cache) :
    c.insertAll entries' = c.insertAll entries := by
  have hentries : c.entries.insertAll entries' = c.entries.insertAll entries := by
    refine StringMap.ext_get? fun key => ?_
    rw [StringMap.get?_insertAll, StringMap.get?_insertAll, h key]
  rw [insertAll_eq, insertAll_eq, hentries]

/-- What is remembered under a key is the last value that was inserted under it. -/
theorem get?_insertAll_empty (p : Path) (entries : List (String × String)) (key : String) :
    ((empty p).insertAll entries).get? key = entries.reverse.lookup key := by
  rw [insertAll_eq]
  refine (StringMap.get?_insertAll .empty entries key).trans ?_
  rw [StringMap.get?_empty, Option.or_none]

/-! ## Saving -/

/-- A path names a place in a directory that is there: a path without a directory in it means the
working directory. -/
def InDirectory (t : FileTree) (p : Path) : Prop :=
  ∃ d, p.parent? = some d ∧ (d.isEmpty = true ∨ t.isDirectory d = true)

/-- In a directory that is there, a cache that cannot be saved is a fault of writing. -/
theorem unwritable_of_inDirectory (h : InDirectory t p) (e : DiskError) :
    unwritable t p e = ⟨.writing, s!"Failed to write cache file at {p.text}: {e.message}"⟩ := by
  obtain ⟨d, hparent, hd⟩ := h
  cases hempty : d.isEmpty with
  | true => simp only [unwritable, hparent, Option.filter_some, hempty, Bool.not_true,
      Bool.false_eq_true, if_false]
  | false =>
    have hthere := hd.resolve_left (by simp [hempty])
    simp only [unwritable, hparent, Option.filter_some, hempty, Bool.not_false, if_true, hthere]

theorem save_eq_ok_iff : c.save t p = .ok u ↔ t.writeText p c.entries.toJson = .ok u := by
  unfold save
  split <;> simp [*]

/-- **A cache is loaded as it was saved**, and its file holds what was last inserted under each
key, in whatever order it came.  This is for any path in a directory where a file can be written;
where none can be written, nothing is, and the fault says so. -/
theorem save_insertAll (ht : t.WellFormed) (hp : p.Proper) (hdirectory : InDirectory t p)
    (entries : List (String × String)) :
    (t.Writable p → ∃ u, ((empty p).insertAll entries).save t p = .ok u ∧
      load u p = (empty p).insertAll entries ∧
      (∀ key, (load u p).get? key = entries.reverse.lookup key) ∧
      u.readText p = .ok ((empty p).insertAll entries).entries.toJson ∧
      ∀ entries', SameInTheEnd entries entries' →
        ((empty p).insertAll entries').save t p = .ok u) ∧
    (¬ t.Writable p → ∃ e : DiskError, ((empty p).insertAll entries).save t p =
      .error ⟨.writing, s!"Failed to write cache file at {p.text}: {e.message}"⟩) := by
  constructor
  · intro hwritable
    obtain ⟨u, hu⟩ := (FileTree.exists_writeText_iff
      (s := ((empty p).insertAll entries).entries.toJson) ht hp).2 hwritable
    have hsave := save_eq_ok_iff.2 hu
    have hload : load u p = (empty p).insertAll entries := by
      rw [load_of_save ht hp hsave, insertAll_eq]
    obtain ⟨loc, -, hloc, hfile, -⟩ := FileTree.writeText_eq_ok ht hp hu
    refine ⟨u, hsave, hload, fun key => ?_, FileTree.readText_eq_ok_iff.2 ⟨loc, hloc, hfile⟩,
      fun entries' hsame => ?_⟩
    · rw [hload, get?_insertAll_empty]
    · rw [insertAll_congr hsame, hsave]
  · intro hnot
    cases hwrite : t.writeText p ((empty p).insertAll entries).entries.toJson with
    | ok u => exact absurd ((FileTree.exists_writeText_iff ht hp).1 ⟨u, hwrite⟩) hnot
    | error e =>
      refine ⟨e, ?_⟩
      rw [← unwritable_of_inDirectory hdirectory e, save, hwrite]

/-- A disk with one directory. -/
def oneDirectory : FileTree := ⟨[(["taken"], .directory)], []⟩

/-- A cache with a key that has to be escaped, inserted twice: the later value is loaded. -/
theorem save_insertAll_twice :
    oneDirectory.WellFormed ∧ InDirectory oneDirectory (Path.ofText "taken/c.json") ∧
    oneDirectory.Writable (Path.ofText "taken/c.json") ∧
    ∃ u, ((empty (Path.ofText "taken/c.json")).insertAll
        [("\"\n", "1"), ("a", "\\"), ("\"\n", "\x01")]).save oneDirectory
          (Path.ofText "taken/c.json") = .ok u ∧
      (load u (Path.ofText "taken/c.json")).get? "\"\n" = some "\x01" ∧
      u.readText (Path.ofText "taken/c.json") =
        .ok "\x7b\n  \"\\\"\\n\": \"\\u0001\",\n  \"a\": \"\\\\\"\n\x7d" := by
  have hwell : oneDirectory.WellFormed := by decide +kernel
  have hdirectory : InDirectory oneDirectory (Path.ofText "taken/c.json") :=
    ⟨Path.ofText "taken", by decide +kernel, .inr (by decide +kernel)⟩
  have hwritable : oneDirectory.Writable (Path.ofText "taken/c.json") :=
    ⟨by decide +kernel, .inr ⟨["taken", "c.json"], by decide +kernel⟩⟩
  obtain ⟨u, hsave, -, hget, hread, -⟩ := (save_insertAll hwell (Path.proper_ofText _) hdirectory
    [("\"\n", "1"), ("a", "\\"), ("\"\n", "\x01")]).1 hwritable
  refine ⟨hwell, hdirectory, hwritable, u, hsave, (hget _).trans (by decide +kernel), ?_⟩
  rw [hread]
  exact congrArg Except.ok (by decide +kernel)

/-- **Not every path in a directory can hold a cache**: none can be saved where a directory
stands. -/
theorem save_onto_directory :
    ¬ ∀ (t : FileTree) (p : Path) (entries : List (String × String)), t.WellFormed → p.Proper →
      InDirectory t p → ∃ u, ((empty p).insertAll entries).save t p = .ok u ∧
        load u p = (empty p).insertAll entries := by
  intro h
  obtain ⟨u, hsave, -⟩ := h oneDirectory (Path.ofText "taken") [("a", "b")] (by decide +kernel)
    (Path.proper_ofText _) ⟨.empty, by decide +kernel, .inl (by decide +kernel)⟩
  have hnone : (oneDirectory.writeText (Path.ofText "taken")
      ((empty (Path.ofText "taken")).insertAll [("a", "b")]).entries.toJson).toOption.isNone =
        true := by decide +kernel
  rw [save_eq_ok_iff.1 hsave] at hnone
  exact absurd hnone (by simp [Except.toOption])

end Cache
end Restyle
