import Restyle.Proofs.Walk.Eligible

/-!
# How deep a walk goes

A walk that follows links may come to a directory by many ways, and the number of entries
bounds the length of each: a followed link leads to a directory that is new on the way, and
from there on the names go down until the next link.  `room` is what is left of that bound.

So a walk never stops for want of depth, and a tree with one file more makes no difference
to it but this file.

* `inspect_eq_ok_iff`: what a walk makes of an entry that it does not pass over.
* `OnTheWay.step_name`, `OnTheWay.step_link`: a step down leaves less room.
* `OneMore.mem_descent`: the files that a walk finds below a directory of the tree with one
  file more, it finds in the tree without it.
* `OneMore.mem_files`: so for the walk from a root.
-/

namespace Restyle
namespace Walk

open FileTree (Grows WellFormed)

variable {t u : FileTree} {sel : Selection} {loc lc : Location} {root output p o directory : Path}
  {name : String} {above : List Level} {seen : List Location} {e : Entry}

/-! ## One entry -/

section Entry

variable (ht : t.WellFormed) (hd : Reached [] t directory loc)
include ht hd

theorem entryAt_name {e : Entry} (he : t.lookup (loc ++ [name]) = some e) :
    t.entryAt false (directory.child name) = .ok e := by
  rw [FileTree.entryAt_child hd.locate hd.lookup (ht.isName he name (by simp)).1, he]

/-- A link is looked through if links are followed, unless it leads to a directory on the
way. -/
theorem inspect_link_iff {target : String} (hlink : t.lookup (loc ++ [name]) = some (.link target))
    (hnot : e.isLink = false) :
    inspect t sel above (directory.child name) = .ok (some e) ↔ sel.followLinks = true ∧
      ∃ l, t.locate true (directory.child name) = .ok l ∧ t.lookup l = some e ∧
        (e = .directory → ∀ level ∈ above, level.location ≠ l) := by
  rw [inspect, entryAt_name ht hd hlink]
  simp only [Entry.isLink, Bool.true_and]
  cases sel.followLinks with
  | false =>
    have hne : Entry.link target ≠ e := by
      rintro rfl
      simp [Entry.isLink] at hnot
    simp [hne]
  | true =>
    simp only [Bool.not_true, Bool.false_eq_true, if_false, true_and]
    cases t.locate true (directory.child name) with
    | error e => simp
    | ok l =>
      simp only [Except.ok.injEq, exists_eq_left']
      have hfind : above.find? (·.location = l) = none ↔ ∀ level ∈ above, level.location ≠ l := by
        simp
      cases hlookup : t.lookup l with
      | none => simp
      | some e' =>
        cases e' with
        | directory =>
          simp only [Option.some.injEq]
          cases habove : above.find? (·.location = l) with
          | none =>
            have hnew := hfind.1 habove
            simp only [Except.ok.injEq, Option.some.injEq]
            exact ⟨fun he => ⟨he, fun _ => hnew⟩, fun he => he.1⟩
          | some level =>
            simp only [reduceCtorEq, false_iff]
            rintro ⟨rfl, hnew⟩
            rw [hfind.2 (hnew rfl)] at habove
            simp at habove
        | file content =>
          simp only [Except.ok.injEq, Option.some.injEq]
          exact ⟨fun he => ⟨he, fun hdir => by simp [hdir] at he⟩, fun he => he.1⟩
        | link target =>
          simp only [Except.ok.injEq, Option.some.injEq]
          exact ⟨fun he => ⟨he, fun hdir => by simp [hdir] at he⟩, fun he => he.1⟩

/-- **What a walk makes of an entry**: it is what stands there, or what a followed link leads
to, which is no directory on the way. -/
theorem inspect_eq_ok_iff (hname : name ∈ t.names loc) (hnot : e.isLink = false) :
    inspect t sel above (directory.child name) = .ok (some e) ↔
      ∃ l, t.locate true (directory.child name) = .ok l ∧ t.lookup l = some e ∧
        (l = loc ++ [name] ∨
          sel.followLinks = true ∧ (∃ target, t.lookup (loc ++ [name]) = some (.link target)) ∧
            (e = .directory → ∀ level ∈ above, level.location ≠ l)) := by
  obtain ⟨e', he'⟩ := Option.isSome_iff_exists.1 (FileTree.mem_names.1 hname)
  cases hlink : e'.isLink with
  | false =>
    have hlocate : t.locate true (directory.child name) = .ok (loc ++ [name]) :=
      FileTree.locate_child hd.locate hd.lookup (ht.isName he' name (by simp)).1 he' (.inl hlink)
    rw [inspect, entryAt_name ht hd he']
    simp only [hlink, Bool.false_and, Bool.not_false, if_true, hlocate]
    constructor
    · intro h
      obtain rfl : e' = e := Option.some.inj (Except.ok.inj h)
      exact ⟨loc ++ [name], rfl, he', .inl rfl⟩
    · rintro ⟨l, hl, he, -⟩
      obtain rfl := Except.ok.inj hl
      rw [Option.some.inj (he'.symm.trans he)]
  | true =>
    obtain ⟨target, rfl⟩ : ∃ target, e' = .link target := by
      cases e' with
      | link target => exact ⟨target, rfl⟩
      | file content => simp [Entry.isLink] at hlink
      | directory => simp [Entry.isLink] at hlink
    rw [inspect_link_iff ht hd he' hnot]
    constructor
    · rintro ⟨hfollow, l, hl, he, hnew⟩
      exact ⟨l, hl, he, .inr ⟨hfollow, ⟨target, he'⟩, hnew⟩⟩
    · rintro ⟨l, hl, he, rfl | ⟨hfollow, -, hnew⟩⟩
      · obtain rfl := Option.some.inj (he'.symm.trans he)
        simp [Entry.isLink] at hnot
      · exact ⟨hfollow, l, hl, he, hnew⟩

end Entry

/-- What a walk makes of its root: what its path leads to, through a link only if links are
followed. -/
theorem inspectRoot_eq_ok_iff :
    inspectRoot t sel root = .ok (some e) ↔ t.entryAt true root = .ok e ∧
      ∃ e', t.entryAt false root = .ok e' ∧ (e'.isLink = true → sel.followLinks = true) := by
  unfold inspectRoot
  cases hentry : t.entryAt false root with
  | error error => cases error <;> simp
  | ok e' =>
    have hself : e'.isLink = false → t.entryAt true root = .ok e' := by
      intro hlink
      obtain ⟨l, hl, he'⟩ := FileTree.entryAt_eq_ok_iff.1 hentry
      refine FileTree.entryAt_eq_ok_iff.2 ⟨l, FileTree.locate_true_of_not_link hl ?_, he'⟩
      rintro target htarget
      obtain rfl := Option.some.inj (he'.symm.trans htarget)
      simp [Entry.isLink] at hlink
    cases e' with
    | file content => simp [hself rfl, Entry.isLink]
    | directory => simp [hself rfl, Entry.isLink]
    | link target =>
      cases hfollow : sel.followLinks with
      | false => simp [Entry.isLink]
      | true => cases htrue : t.entryAt true root <;> simp

/-- The files that there are to find at a name. -/
theorem file_mem_findsAt {deeper : Path → List Find} {q : Path} :
    Find.file p o ∈ findsAt t sel root output above deeper q name ↔
      isPruned sel root q name = false ∧
        (inspect t sel above q = .ok (some .directory) ∧ Find.file p o ∈ deeper q ∨
          (∃ content, inspect t sel above q = .ok (some (.file content))) ∧
            sel.supports q = true ∧ p = q ∧
            ∃ below, q.relativeTo? root = some below ∧ o = output.join below) := by
  unfold findsAt
  cases hinspect : inspect t sel above q with
  | error fault => simp
  | ok found =>
    cases found with
    | none => simp
    | some e =>
      cases hpruned : isPruned sel root q name with
      | true => simp
      | false =>
        cases e with
        | directory => simp
        | link target => simp
        | file content =>
          cases hsupports : sel.supports q with
          | false => simp
          | true => cases hbelow : q.relativeTo? root <;> simp

/-! ## The way down -/

/-- How much further down a way can go from a location, with some directories seen on it. -/
def room (t : FileTree) (seen : List Location) (loc : Location) : Nat :=
  (t.entries.length + 1 - seen.length) * (t.entries.length + 1) +
    (t.entries.length - loc.length) + 1

/-- Different directories on the way down to a location. -/
structure OnTheWay (t : FileTree) (above : List Level) (loc : Location) (seen : List Location) :
    Prop where
  /-- They are different. -/
  nodup : seen.Nodup
  /-- They are on the way. -/
  way : ∀ l ∈ seen, l = loc ∨ ∃ level ∈ above, level.location = l
  /-- They are directories. -/
  directory : ∀ l ∈ seen, t.lookup l = some .directory

namespace OnTheWay

variable (h : OnTheWay t above loc seen)
include h

theorem length_le : seen.length ≤ t.entries.length + 1 := by
  have hsubset : seen ⊆ [] :: t.entries.map Prod.fst := by
    intro l hl
    by_cases hne : l = []
    · simp [hne]
    · refine List.mem_cons_of_mem _ ((FileTree.lookup_isSome_iff hne).1 ?_)
      rw [h.directory l hl]
      rfl
  simpa using (List.Nodup.subperm h.nodup hsubset).length_le

/-- A name leads down to a directory, and leaves less room. -/
theorem step_name (ht : t.WellFormed) {s : String}
    (hdir : t.lookup (loc ++ [s]) = some .directory) :
    OnTheWay t (⟨directory, loc⟩ :: above) (loc ++ [s]) seen ∧
      room t seen (loc ++ [s]) < room t seen loc := by
  refine ⟨⟨h.nodup, fun l hl => .inr ?_, h.directory⟩, ?_⟩
  · rcases h.way l hl with rfl | ⟨level, hlevel, rfl⟩
    · exact ⟨_, List.mem_cons_self, rfl⟩
    · exact ⟨level, List.mem_cons_of_mem _ hlevel, rfl⟩
  · have hlength := length_le_entries ht hdir
    rw [List.length_append, List.length_singleton] at hlength
    unfold room
    rw [List.length_append, List.length_singleton]
    omega

/-- A link leads to a directory that is new on the way, and leaves less room. -/
theorem step_link {l : Location} (hdir : t.lookup l = some .directory)
    (hnew : ∀ level ∈ (⟨directory, loc⟩ : Level) :: above, level.location ≠ l) :
    OnTheWay t (⟨directory, loc⟩ :: above) l (l :: seen) ∧
      room t (l :: seen) l < room t seen loc := by
  have hway : ∀ l' ∈ seen, ∃ level ∈ (⟨directory, loc⟩ : Level) :: above,
      level.location = l' := by
    intro l' hl'
    rcases h.way l' hl' with rfl | ⟨level, hlevel, rfl⟩
    · exact ⟨_, List.mem_cons_self, rfl⟩
    · exact ⟨level, List.mem_cons_of_mem _ hlevel, rfl⟩
  have hnext : OnTheWay t (⟨directory, loc⟩ :: above) l (l :: seen) := by
    refine ⟨List.nodup_cons.2 ⟨fun hl => ?_, h.nodup⟩, ?_, ?_⟩
    · obtain ⟨level, hlevel, heq⟩ := hway l hl
      exact hnew level hlevel heq
    · rintro l' (_ | ⟨_, hl'⟩)
      · exact .inl rfl
      · exact .inr (hway l' hl')
    · rintro l' (_ | ⟨_, hl'⟩)
      · exact hdir
      · exact h.directory l' hl'
  refine ⟨hnext, ?_⟩
  have hlength := hnext.length_le
  rw [List.length_cons] at hlength
  obtain ⟨k, hk⟩ : ∃ k, t.entries.length + 1 - seen.length = k + 1 :=
    ⟨t.entries.length - seen.length, by omega⟩
  have hk' : t.entries.length + 1 - (seen.length + 1) = k := by omega
  unfold room
  rw [List.length_cons, hk, hk', Nat.add_mul]
  omega

end OnTheWay

/-! ## One file more -/

/-- A tree with one file more than another, up to the bytes of files. -/
structure OneMore (t u : FileTree) (lc : Location) : Prop where
  /-- The tree without the file stands for a disk. -/
  before : t.WellFormed
  /-- So does the tree with the file. -/
  wellFormed : u.WellFormed
  /-- What there is stays. -/
  grows : Grows t u
  /-- Nothing else comes. -/
  other : ∀ l, l ≠ lc → (u.lookup l).map Entry.shape = (t.lookup l).map Entry.shape
  /-- The file. -/
  file : ∃ content, u.lookup lc = some (.file content)

namespace OneMore

variable (h : OneMore t u lc)
include h

theorem locate {followLast : Bool} {l : Location} (hl : u.locate followLast p = .ok l)
    (hne : l ≠ lc) : t.locate followLast p = .ok l := by
  obtain ⟨content, hfile⟩ := h.file
  obtain ⟨hempty, hreach⟩ := FileTree.locate_eq_ok_iff.1 hl
  have hstart : t.start p = u.start p := by
    rw [FileTree.start, FileTree.start, h.grows.workingDirectory]
  exact FileTree.locate_eq_ok_iff.2 ⟨hempty, hstart ▸ hreach.without_file h.other hfile hne⟩

theorem ne_of_directory {l : Location} (hdir : u.lookup l = some .directory) : l ≠ lc := by
  obtain ⟨content, hfile⟩ := h.file
  rintro rfl
  simp [hfile] at hdir

theorem lookup {l : Location} (he : u.lookup l = some e) (hne : l ≠ lc) :
    ∃ e', t.lookup l = some e' ∧ e'.shape = e.shape := by
  simpa [he] using (h.other l hne).symm

theorem isDirectory (hdir : u.isDirectory p = true) : t.isDirectory p = true := by
  obtain ⟨l, hl, hlookup⟩ := FileTree.isDirectory_iff.1 hdir
  have hne := h.ne_of_directory hlookup
  obtain ⟨e, he, hshape⟩ := h.lookup hlookup hne
  obtain rfl := Entry.shape_eq_directory.1 hshape
  exact FileTree.isDirectory_iff.2 ⟨l, h.locate hl hne, he⟩

theorem reached (hd : Reached [] t directory loc) : Reached [] u directory loc :=
  ⟨FileTree.locate_of_grows h.grows hd.locate, h.grows.directory hd.lookup, hd.below⟩

/-- An entry that is taken in the tree with the file is taken in the tree without it. -/
theorem inspect (hd : Reached [] t directory loc) (hname : name ∈ u.names loc)
    (hnot : e.isLink = false)
    (hinspect : inspect u sel above (directory.child name) = .ok (some e))
    (hp : u.locate true (directory.child name) ≠ .ok lc) :
    name ∈ t.names loc ∧ ∃ e', e'.shape = e.shape ∧
      Walk.inspect t sel above (directory.child name) = .ok (some e') := by
  obtain ⟨l, hl, he, hway⟩ :=
    (inspect_eq_ok_iff h.wellFormed (h.reached hd) hname hnot).1 hinspect
  have hne : l ≠ lc := by
    rintro rfl
    exact hp hl
  obtain ⟨e', he', hshape⟩ := h.lookup he hne
  have hnot' : e'.isLink = false := (Entry.isLink_eq_of_shape hshape).trans hnot
  -- what stands in the directory is not the file
  obtain ⟨e₀, he₀, hway'⟩ : ∃ e₀, t.lookup (loc ++ [name]) = some e₀ ∧
      (l = loc ++ [name] ∨ sel.followLinks = true ∧
        (∃ target, t.lookup (loc ++ [name]) = some (.link target)) ∧
        (e' = .directory → ∀ level ∈ above, level.location ≠ l)) := by
    rcases hway with rfl | ⟨hfollow, ⟨target, hlink⟩, hnew⟩
    · exact ⟨e', he', .inl rfl⟩
    · obtain ⟨content, hfile⟩ := h.file
      have hne' : loc ++ [name] ≠ lc := by
        intro heq
        simp [heq, hfile] at hlink
      obtain ⟨e₀, he₀, hshape₀⟩ := h.lookup hlink hne'
      obtain rfl := Entry.shape_eq_link.1 hshape₀
      refine ⟨_, he₀, .inr ⟨hfollow, ⟨target, he₀⟩, fun hdir => hnew ?_⟩⟩
      rw [hdir] at hshape
      exact Entry.shape_eq_directory.1 hshape.symm
  have hname' : name ∈ t.names loc := FileTree.mem_names.2 (by simp [he₀])
  exact ⟨hname', e', hshape, (inspect_eq_ok_iff h.before hd hname' hnot').2
    ⟨l, h.locate hl hne, he', hway'⟩⟩

/-- **The files that are found below a directory of the tree with the file**, other than this
one, are found in the tree without it, as long as there is room. -/
theorem mem_descent (hd : Reached [] t directory loc) (hseen : OnTheWay t above loc seen)
    {fuel fuel' : Nat} (hfuel : room t seen loc ≤ fuel')
    (hfind : Find.file p o ∈ descent u sel root output fuel directory above)
    (hp : u.locate true p ≠ .ok lc) :
    Find.file p o ∈ descent t sel root output fuel' directory above := by
  induction fuel generalizing directory loc above seen fuel' with
  | zero => simp [descent] at hfind
  | succ fuel ih =>
    obtain ⟨fuel', rfl⟩ : ∃ n, fuel' = n + 1 := ⟨fuel' - 1, by unfold room at hfuel; omega⟩
    rw [descent, FileTree.locate_of_grows h.grows hd.locate] at hfind
    obtain ⟨name, hname, hfind⟩ := List.mem_flatMap.1 hfind
    obtain ⟨hpruned, ⟨hinspect, hdeeper⟩ | ⟨⟨content, hinspect⟩, hsupports, rfl, hbelow⟩⟩ :=
      file_mem_findsAt.1 hfind
    · have hnot : u.locate true (directory.child name) ≠ .ok lc := by
        intro heq
        obtain ⟨l, hl, hdir, -⟩ :=
          (inspect_eq_ok_iff h.wellFormed (h.reached hd) hname rfl).1 hinspect
        exact h.ne_of_directory hdir (Except.ok.inj (hl.symm.trans heq))
      obtain ⟨hname', e', hshape, hinspect'⟩ := h.inspect hd hname rfl hinspect hnot
      obtain rfl := Entry.shape_eq_directory.1 hshape
      obtain ⟨l, hl, hdir, hway⟩ := (inspect_eq_ok_iff h.before hd hname' rfl).1 hinspect'
      have hnext : ∃ seen', OnTheWay t (⟨directory, loc⟩ :: above) l seen' ∧
          room t seen' l < room t seen loc := by
        rcases hway with rfl | ⟨-, -, hnew⟩
        · exact ⟨seen, hseen.step_name h.before hdir⟩
        · exact ⟨l :: seen, hseen.step_link hdir (hnew rfl)⟩
      obtain ⟨seen', hseen', hroom⟩ := hnext
      rw [descent, hd.locate]
      refine List.mem_flatMap.2 ⟨name, hname', file_mem_findsAt.2 ⟨hpruned, .inl ⟨hinspect', ?_⟩⟩⟩
      exact ih ⟨hl, hdir, List.nil_prefix⟩ hseen' (by omega) hdeeper
    · obtain ⟨hname', e', hshape, hinspect'⟩ := h.inspect hd hname rfl hinspect hp
      obtain ⟨content', rfl⟩ := Entry.shape_eq_file.1 hshape
      rw [descent, hd.locate]
      exact List.mem_flatMap.2 ⟨name, hname', file_mem_findsAt.2
        ⟨hpruned, .inr ⟨⟨content', hinspect'⟩, hsupports, rfl, hbelow⟩⟩⟩

/-- What a walk makes of its root. -/
theorem inspectRoot (hinspect : inspectRoot u sel root = .ok (some e))
    (hp : u.locate true root ≠ .ok lc) :
    ∃ e', e'.shape = e.shape ∧ Walk.inspectRoot t sel root = .ok (some e') := by
  obtain ⟨htrue, e₀, hfalse, hfollow⟩ := inspectRoot_eq_ok_iff.1 hinspect
  obtain ⟨l, hl, he⟩ := FileTree.entryAt_eq_ok_iff.1 htrue
  obtain ⟨l₀, hl₀, he₀⟩ := FileTree.entryAt_eq_ok_iff.1 hfalse
  have hne : l ≠ lc := by
    rintro rfl
    exact hp hl
  have hne₀ : l₀ ≠ lc := by
    rintro rfl
    obtain ⟨content, hfile⟩ := h.file
    exact hp (FileTree.locate_true_of_not_link hl₀ (by simp [hfile]))
  obtain ⟨e', he', hshape⟩ := h.lookup he hne
  obtain ⟨e₀', he₀', hshape₀⟩ := h.lookup he₀ hne₀
  refine ⟨e', hshape, inspectRoot_eq_ok_iff.2
    ⟨FileTree.entryAt_eq_ok_iff.2 ⟨l, h.locate hl hne, he'⟩, e₀',
      FileTree.entryAt_eq_ok_iff.2 ⟨l₀, h.locate hl₀ hne₀, he₀'⟩, ?_⟩⟩
  rwa [Entry.isLink_eq_of_shape hshape₀]

/-- **The files that are found in the tree with the file**, other than this one, are found in
the tree without it. -/
theorem mem_files (hroot : root.Proper) (hfind : (p, o) ∈ files (finds u sel root root))
    (hp : u.locate true p ≠ .ok lc) : (p, o) ∈ files (finds t sel root root) := by
  obtain rfl := output_eq_of_mem_files h.wellFormed hroot hfind
  suffices hmem : ∃ o', (o, o') ∈ files (finds t sel root root) by
    obtain ⟨o', ho'⟩ := hmem
    rwa [output_eq_of_mem_files h.before hroot ho'] at ho'
  rw [Walk.mem_files, finds_eq h.wellFormed] at hfind
  simp only [Walk.mem_files, finds_eq h.before]
  split at hfind
  · simp at hfind
  · rename_i content hinspect
    split_ifs at hfind with hsupports
    · obtain ⟨rfl, -⟩ : o = root ∧ o = singleTarget u root root := by simpa using hfind
      obtain ⟨e', hshape, hinspect'⟩ := h.inspectRoot hinspect hp
      obtain ⟨content', rfl⟩ := Entry.shape_eq_file.1 hshape
      rw [hinspect']
      exact ⟨singleTarget t o o, by simp [hsupports]⟩
    · simp at hfind
  · rename_i hinspect
    obtain ⟨lr, hlr, hdir⟩ := reached_of_inspectRoot hinspect
    have hne := h.ne_of_directory hdir
    obtain ⟨e', hshape, hinspect'⟩ := h.inspectRoot hinspect
      (fun heq => hne (Except.ok.inj (hlr.symm.trans heq)))
    obtain rfl := Entry.shape_eq_directory.1 hshape
    obtain ⟨lr', hlr', hdir'⟩ := reached_of_inspectRoot hinspect'
    rw [hinspect']
    have hseen : OnTheWay t [] lr' [lr'] := ⟨by simp, by simp, by simpa using hdir'⟩
    have hroom : room t [lr'] lr' ≤ depthBound t := by
      unfold room depthBound
      rw [List.length_singleton, Nat.add_sub_cancel, Nat.add_mul _ 2, Nat.mul_add _ _ 2,
        Nat.mul_add _ _ 1]
      omega
    exact ⟨o, h.mem_descent ⟨hlr', hdir', List.nil_prefix⟩ hseen hroom hfind hp⟩
  · simp at hfind

end OneMore

/-! ## What is found -/

end Walk
end Restyle
