import Restyle.Proofs.FileTree.Access

/-!
# Trees that hold the same

The entries of a tree are a list, and the order of the list tells in which order they were
put there.  Nothing that is done to a tree by path depends on that order: trees that agree
on every location still agree after it, and it gives the same answers and the same errors.

* `Agrees.resolve`: paths lead to the same places.
* `Agrees.writeText`, `Agrees.createDirectories`: so they can be written to.
* `Agrees.sameShape`: trees that stand for disks and agree have the same number of entries.
-/

namespace Restyle
namespace FileTree

variable {t u v : FileTree} {p : Path} {l : Location} {followLast : Bool}

/-- The same entry at every location, and the same working directory. -/
structure Agrees (t u : FileTree) : Prop where
  /-- The working directory is the same. -/
  workingDirectory : u.workingDirectory = t.workingDirectory
  /-- The same stands everywhere. -/
  lookup : ∀ l, u.lookup l = t.lookup l

/-- Results that agree: the same error, or trees that agree. -/
inductive AgreeAs : Except DiskError FileTree → Except DiskError FileTree → Prop
  /-- The same error. -/
  | error (e : DiskError) : AgreeAs (.error e) (.error e)
  /-- Trees that agree. -/
  | ok {t u : FileTree} (h : Agrees t u) : AgreeAs (.ok t) (.ok u)

namespace Agrees

theorem refl (t : FileTree) : Agrees t t := ⟨rfl, fun _ => rfl⟩

theorem symm (h : Agrees t u) : Agrees u t :=
  ⟨h.workingDirectory.symm, fun l => (h.lookup l).symm⟩

theorem trans (h : Agrees t u) (h' : Agrees u v) : Agrees t v :=
  ⟨h'.workingDirectory.trans h.workingDirectory, fun l => (h'.lookup l).trans (h.lookup l)⟩

theorem grows (h : Agrees t u) : Grows t u :=
  ⟨h.workingDirectory, fun {l e} he => by rw [h.lookup, he]; rfl⟩

/-- Well-formed trees that agree have the same shape, the number of their entries
included. -/
theorem sameShape (h : Agrees t u) (ht : t.WellFormed) (hu : u.WellFormed) : SameShape t u := by
  refine ⟨h.workingDirectory, ?_, fun l => by rw [h.lookup]⟩
  have hmem : ∀ l, l ∈ u.entries.map Prod.fst ↔ l ∈ t.entries.map Prod.fst := by
    intro l
    by_cases hne : l = []
    · -- the root is not listed
      subst hne
      have hroot : ∀ {w : FileTree}, w.WellFormed → [] ∉ w.entries.map Prod.fst := by
        intro w hw hroot
        obtain ⟨e, he, hnil⟩ := List.mem_map.1 hroot
        exact (hw.entry e he).1 hnil
      exact ⟨fun hl => absurd hl (hroot hu), fun hl => absurd hl (hroot ht)⟩
    · rw [← lookup_isSome_iff hne, ← lookup_isSome_iff hne, h.lookup]
  have hperm := (List.perm_ext_iff_of_nodup hu.nodup ht.nodup).2 hmem
  simpa using hperm.length_eq

variable (h : Agrees t u)
include h

/-! ## Reading -/

theorem resolve : u.resolve followLast p = t.resolve followLast p := by
  unfold FileTree.resolve
  rw [h.workingDirectory]
  simp only [follow_shape fun l => congrArg (Option.map Entry.shape) (h.lookup l)]

theorem locate : u.locate followLast p = t.locate followLast p := by
  unfold FileTree.locate
  rw [h.resolve]

theorem entryAt : u.entryAt followLast p = t.entryAt followLast p := by
  unfold FileTree.entryAt
  rw [h.locate]
  simp only [h.lookup]

theorem readText : u.readText p = t.readText p := by
  rw [readText_eq, readText_eq, h.entryAt]

theorem isDirectory : u.isDirectory p = t.isDirectory p := by
  unfold FileTree.isDirectory holds
  rw [h.entryAt]

/-! ## Writing -/

theorem put (l : Location) (e : Entry) : Agrees (t.put l e) (u.put l e) := by
  refine ⟨h.workingDirectory, fun l' => ?_⟩
  by_cases heq : l' = l
  · subst heq
    by_cases hne : l' = []
    · rw [hne, lookup_nil, lookup_nil]
    · rw [lookup_put t e hne, lookup_put u e hne]
  · rw [lookup_put_of_ne t e heq, lookup_put_of_ne u e heq, h.lookup]

theorem writeText (text : String) : AgreeAs (t.writeText p text) (u.writeText p text) := by
  unfold FileTree.writeText
  rw [h.resolve]
  cases t.resolve (!p.endsWithSlash) p.withoutSlash with
  | error e => exact .error e
  | ok spot =>
    cases spot with
    | reserved l => exact .error _
    | taken l =>
      simp only [h.lookup]
      split_ifs
      · exact .error _
      · exact .ok (h.put _ _)
    | vacant l =>
      simp only [h.lookup]
      split_ifs
      · exact .error _
      · exact .ok (h.put _ _)

theorem makeDirectory : AgreeAs (t.makeDirectory p) (u.makeDirectory p) := by
  unfold FileTree.makeDirectory
  rw [h.resolve]
  cases t.resolve false p.withoutSlash with
  | error e => exact .error e
  | ok spot =>
    cases spot with
    | taken l => exact .error _
    | vacant l => exact .ok (h.put _ _)
    | reserved l => exact .ok (h.put _ _)

theorem makeDirectories (paths : List Path) :
    Agrees (t.makeDirectories paths).1 (u.makeDirectories paths).1 ∧
      (u.makeDirectories paths).2 = (t.makeDirectories paths).2 := by
  induction paths with
  | nil => exact ⟨h, rfl⟩
  | cons p above ih =>
    rw [FileTree.makeDirectories, FileTree.makeDirectories]
    by_cases hempty : p.components.isEmpty = true
    · rw [if_pos hempty, if_pos hempty]
      exact ⟨h, rfl⟩
    rw [if_neg hempty, if_neg hempty, @Agrees.isDirectory t u p h]
    have hfirst := @Agrees.makeDirectory t u p h
    revert hfirst
    generalize t.makeDirectory p = made
    generalize u.makeDirectory p = made'
    rintro (e | hmade)
    · cases e with
      | notFound =>
        -- the directories above are made first
        simp only
        revert ih
        generalize t.makeDirectories above = result
        generalize u.makeDirectories above = result'
        rintro ⟨hresult, herror⟩
        obtain ⟨w, error⟩ := result
        obtain ⟨w', error'⟩ := result'
        simp only at hresult herror
        subst herror
        cases error' with
        | some e => exact ⟨hresult, rfl⟩
        | none =>
          have hagain := @Agrees.makeDirectory w w' p hresult
          have hdirectory' := @Agrees.isDirectory w w' p hresult
          simp only
          revert hagain
          generalize w.makeDirectory p = made
          generalize w'.makeDirectory p = made'
          rintro (e | hmade)
          · exact ⟨hresult, by simp only [hdirectory']⟩
          · exact ⟨hmade, rfl⟩
      | _ => exact ⟨h, rfl⟩
    · exact ⟨hmade, rfl⟩

theorem createDirectories :
    Agrees (t.createDirectories p).1 (u.createDirectories p).1 ∧
      (u.createDirectories p).2 = (t.createDirectories p).2 :=
  h.makeDirectories _

end Agrees

end FileTree
end Restyle
