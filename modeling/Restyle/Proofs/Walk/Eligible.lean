import Mathlib.Data.List.Lex
import Mathlib.Data.List.Perm.Subperm
import Restyle.Proofs.Walk.Replay

/-!
# The files that a walk takes

A walk that does not follow links takes the files that names lead to from its root:
those of the selection on whose way no name is passed over.  Where a disk does not let
every directory be read, the directories on the way must be `Listed` besides.

* `mem_descent`: the files that a walk finds below a directory, as far as its fuel goes.
* `mem_files_finds`: the files that a walk finds from a root.  The fuel is always
  enough, since no location has more names than the tree has entries.
* `sorted_files_descent`: below a directory, files are found in the order of the names that
  lead to them.
* `nodup_files_finds`: no file is found twice.
* `output_eq_of_mem_files`: without an output root every file is its own result.
* `mem_files_of_alike`: what a walk finds in a tree that has more elsewhere.
-/

namespace Restyle
namespace Walk

open FileTree (Grows SameShape WellFormed)

variable {t u : FileTree} {sel : Selection} {lr : Location} {root output p o : Path}
  {front names : List String} {s : String} {above : List Level} {r : Refusals} {loc : Location}

/-! ## Eligible files -/

/-- Names lead from a directory below the root to a file of the selection, and none of
them is passed over. -/
structure Eligible (t : FileTree) (sel : Selection) (root : Path) (lr : Location)
    (front names : List String) : Prop where
  /-- A file stands there. -/
  file : ∃ content, t.lookup (lr ++ (front ++ names)) = some (.file content)
  /-- It is of the selection. -/
  supported : sel.supports (root.below (front ++ names)) = true
  /-- No name is passed over. -/
  kept : ∀ {before : List String} {s : String}, before ++ [s] <+: names →
    isPruned sel root (root.below (front ++ before ++ [s])) s = false

theorem eligible_cons_iff :
    Eligible t sel root lr front (s :: names) ↔
      isPruned sel root (root.below (front ++ [s])) s = false ∧
        Eligible t sel root lr (front ++ [s]) names := by
  have hassoc : front ++ [s] ++ names = front ++ s :: names := by simp
  constructor
  · intro h
    refine ⟨by simpa using @Eligible.kept _ _ _ _ _ _ h [] s (by simp), ?_⟩
    refine ⟨hassoc ▸ h.file, hassoc ▸ h.supported, fun {before x} hx => ?_⟩
    have hpre : (s :: before) ++ [x] <+: s :: names := by
      rw [List.cons_append, List.cons_prefix_cons]
      exact ⟨rfl, hx⟩
    simpa using h.kept hpre
  · rintro ⟨hs, h⟩
    refine ⟨hassoc ▸ h.file, hassoc ▸ h.supported, fun {before x} hx => ?_⟩
    cases before with
    | nil =>
      obtain ⟨rfl, -⟩ := List.cons_prefix_cons.1 hx
      simpa using hs
    | cons y before =>
      rw [List.cons_append, List.cons_prefix_cons] at hx
      obtain ⟨rfl, hx⟩ := hx
      simpa using h.kept hx

theorem eligible_nil_iff :
    Eligible t sel root lr front [] ↔
      (∃ content, t.lookup (lr ++ front) = some (.file content)) ∧
        sel.supports (root.below front) = true := by
  constructor
  · intro h
    exact ⟨by simpa using h.file, by simpa using h.supported⟩
  · rintro ⟨hfile, hsupported⟩
    exact ⟨by simpa using hfile, by simpa using hsupported, fun h => by simp at h⟩

/-- What stands on the way to an eligible file is a directory, and the file itself is
none. -/
theorem Eligible.lookup_front (h : Eligible t sel root lr front names) (ht : t.WellFormed) :
    names ≠ [] ∧ t.lookup (lr ++ front) = some .directory ∨
      names = [] ∧ ∃ content, t.lookup (lr ++ front) = some (.file content) := by
  obtain ⟨content, hfile⟩ := h.file
  by_cases hnil : names = []
  · exact .inr ⟨hnil, content, by simpa [hnil] using hfile⟩
  · rw [← List.append_assoc] at hfile
    exact .inl ⟨hnil, ht.directory_of_prefix hnil hfile⟩

/-- The shape of the tree decides. -/
theorem Eligible.of_shape (h : Eligible t sel root lr front names)
    (hshape : (u.lookup (lr ++ (front ++ names))).map Entry.shape =
      (t.lookup (lr ++ (front ++ names))).map Entry.shape) :
    Eligible u sel root lr front names := by
  obtain ⟨content, hfile⟩ := h.file
  refine ⟨?_, h.supported, h.kept⟩
  rw [hfile, Option.map_some, Option.map_eq_some_iff] at hshape
  obtain ⟨e, he, hshape⟩ := hshape
  obtain ⟨content', rfl⟩ := Entry.shape_eq_file.1 hshape
  exact ⟨content', he⟩

/-! ## Directories that may be read -/

/-- Every directory on the way that some names lead from a location may be read. -/
def Listed (r : Refusals) (loc : Location) (names : List String) : Prop :=
  ∀ before, before <+: names → before ≠ names → r.reading (loc ++ before) = none

@[simp]
theorem listed_none (loc : Location) (names : List String) : Listed .none loc names :=
  fun _ _ _ => rfl

@[simp]
theorem listed_nil : Listed r loc [] := fun _ h hne => absurd (List.prefix_nil.1 h) hne

theorem listed_cons_iff :
    Listed r loc (s :: names) ↔ r.reading loc = none ∧ Listed r (loc ++ [s]) names := by
  constructor
  · intro h
    refine ⟨by simpa using h [] List.nil_prefix (by simp), fun before hbefore hne => ?_⟩
    simpa using h (s :: before) (List.cons_prefix_cons.2 ⟨rfl, hbefore⟩) (by simpa using hne)
  · rintro ⟨hloc, h⟩ before hbefore hne
    cases before with
    | nil => simpa using hloc
    | cons x before =>
      obtain ⟨rfl, hrest⟩ := List.cons_prefix_cons.1 hbefore
      simpa using h before hrest (by simpa using hne)

/-! ## Below a directory -/

/-- Without links, what stands at a name is what the walk makes of it. -/
theorem inspect_child (hlinks : sel.followLinks = false) {directory : Path} {loc : Location}
    (hd : t.locate true directory = .ok loc) (hdir : t.lookup loc = some .directory)
    (hs : Path.IsPlain s) :
    inspect t sel above (directory.child s) = .ok (t.lookup (loc ++ [s])) := by
  rw [inspect, FileTree.entryAt_child hd hdir hs]
  cases t.lookup (loc ++ [s]) <;> simp [hlinks]

/-- The files that a walk finds at a name, given those that it finds below. -/
theorem mem_findsAt (ht : t.WellFormed) (hroot : root.components ≠ []) {fuel : Nat} {e : Entry}
    (he : t.lookup (lr ++ (front ++ [s])) = some e) {deeper : Path → List Find}
    (hinspect : inspect t sel above (root.below (front ++ [s])) = .ok (some e))
    (hdeeper : e = .directory → (Find.file p o ∈ deeper (root.below (front ++ [s])) ↔
      ∃ rest, rest ≠ [] ∧ rest.length ≤ fuel ∧ Eligible t sel root lr (front ++ [s]) rest ∧
        Listed r (lr ++ (front ++ [s])) rest ∧
        p = root.below (front ++ [s] ++ rest) ∧ o = output.join ⟨false, front ++ [s] ++ rest⟩)) :
    Find.file p o ∈ findsAt t sel root output above deeper (root.below (front ++ [s])) s ↔
      ∃ rest, rest.length ≤ fuel ∧ Eligible t sel root lr front (s :: rest) ∧
        Listed r (lr ++ (front ++ [s])) rest ∧
        p = root.below (front ++ s :: rest) ∧ o = output.join ⟨false, front ++ s :: rest⟩ := by
  rw [findsAt, hinspect]
  simp only [eligible_cons_iff]
  simp only [List.append_assoc, List.singleton_append] at hdeeper ⊢
  cases hpruned : isPruned sel root (root.below (front ++ [s])) s with
  | true => simp
  | false =>
    simp only [Bool.false_eq_true, if_false, true_and]
    cases e with
    | directory =>
      rw [hdeeper rfl]
      refine exists_congr fun rest => and_iff_right_of_imp ?_
      rintro ⟨-, h, -⟩ hnil
      rcases h.lookup_front ht with ⟨hne, -⟩ | ⟨-, content, hfile⟩
      · exact hne hnil
      · rw [he] at hfile
        simp at hfile
    | link target =>
      simp only [List.not_mem_nil, false_iff, not_exists, not_and]
      intro rest _ h
      rcases h.lookup_front ht with ⟨-, hdir⟩ | ⟨-, content, hfile⟩
      · rw [he] at hdir
        simp at hdir
      · rw [he] at hfile
        simp at hfile
    | file content =>
      have hnames : ∀ x ∈ front ++ [s], Path.IsPlain x := fun x hx =>
        (ht.isName he x (List.mem_append_right _ hx)).1
      rw [Path.relativeTo?_below hnames (by simp) hroot]
      constructor
      · intro h
        cases hsupports : sel.supports (root.below (front ++ [s])) with
        | false => simp [hsupports] at h
        | true =>
          obtain ⟨rfl, rfl⟩ : p = root.below (front ++ [s]) ∧
              o = output.join ⟨false, front ++ [s]⟩ := by simpa [hsupports] using h
          exact ⟨[], Nat.zero_le _, eligible_nil_iff.2 ⟨⟨content, he⟩, hsupports⟩, listed_nil,
            rfl, rfl⟩
      · rintro ⟨rest, -, h, -, rfl, rfl⟩
        rcases h.lookup_front ht with ⟨-, hdir⟩ | ⟨rfl, -⟩
        · rw [he] at hdir
          simp at hdir
        · simp [(eligible_nil_iff.1 h).2]

/-- The files that a walk finds at a name in a directory that it has reached. -/
theorem mem_findsAt_child (ht : t.WellFormed) (hlinks : sel.followLinks = false)
    (hroot : root.components ≠ []) (hd : t.locate true (root.below front) = .ok (lr ++ front))
    (hdir : t.lookup (lr ++ front) = some .directory) {fuel : Nat} {e : Entry}
    {deeper : Path → List Find} (he : t.lookup (lr ++ (front ++ [s])) = some e)
    (hdeeper : e = .directory → t.locate true (root.below (front ++ [s])) =
        .ok (lr ++ (front ++ [s])) → (Find.file p o ∈ deeper (root.below (front ++ [s])) ↔
      ∃ rest, rest ≠ [] ∧ rest.length ≤ fuel ∧ Eligible t sel root lr (front ++ [s]) rest ∧
        Listed r (lr ++ (front ++ [s])) rest ∧
        p = root.below (front ++ [s] ++ rest) ∧ o = output.join ⟨false, front ++ [s] ++ rest⟩)) :
    Find.file p o ∈ findsAt t sel root output above deeper ((root.below front).child s) s ↔
      ∃ rest, rest.length ≤ fuel ∧ Eligible t sel root lr front (s :: rest) ∧
        Listed r (lr ++ (front ++ [s])) rest ∧
        p = root.below (front ++ s :: rest) ∧ o = output.join ⟨false, front ++ s :: rest⟩ := by
  have hs := (ht.isName he s (by simp)).1
  have hplace : t.lookup (lr ++ front ++ [s]) = some e := by rw [List.append_assoc, he]
  rw [← Path.below_concat]
  refine mem_findsAt ht hroot he ?_ fun hdirectory => hdeeper hdirectory ?_
  · rw [Path.below_concat, inspect_child hlinks hd hdir hs, hplace]
  · rw [Path.below_concat, ← List.append_assoc]
    exact FileTree.locate_child hd hdir hs hplace (.inl (by rw [hdirectory]; rfl))

/-- **The files that a walk finds below a directory** are the eligible ones that are not
too deep for its fuel, and on whose way every directory may be read. -/
theorem mem_descent (ht : t.WellFormed) (hlinks : sel.followLinks = false)
    (hroot : root.components ≠ []) {fuel : Nat}
    (hd : t.locate true (root.below front) = .ok (lr ++ front))
    (hdir : t.lookup (lr ++ front) = some .directory) :
    Find.file p o ∈ descent t sel root output fuel (root.below front) above r ↔
      ∃ names, names ≠ [] ∧ names.length ≤ fuel ∧ Eligible t sel root lr front names ∧
        Listed r (lr ++ front) names ∧
        p = root.below (front ++ names) ∧ o = output.join ⟨false, front ++ names⟩ := by
  induction fuel generalizing front above with
  | zero =>
    refine ⟨fun h => by simp [descent] at h, ?_⟩
    rintro ⟨names, hne, hlength, -⟩
    exact absurd (List.length_eq_zero_iff.1 (Nat.le_zero.1 hlength)) hne
  | succ fuel ih =>
    have hone : ∀ {s : String} {e : Entry}, t.lookup (lr ++ (front ++ [s])) = some e →
        (Find.file p o ∈ findsAt t sel root output (⟨root.below front, lr ++ front⟩ :: above)
            (fun p => descent t sel root output fuel p (⟨root.below front, lr ++ front⟩ :: above) r)
            ((root.below front).child s) s ↔
          ∃ rest, rest.length ≤ fuel ∧ Eligible t sel root lr front (s :: rest) ∧
            Listed r (lr ++ (front ++ [s])) rest ∧
            p = root.below (front ++ s :: rest) ∧
            o = output.join ⟨false, front ++ s :: rest⟩) := fun he =>
      mem_findsAt_child ht hlinks hroot hd hdir he fun hdirectory hlocate =>
        ih hlocate (hdirectory ▸ he)
    have hlisted : ∀ {s : String} {rest : List String}, Listed r (lr ++ front) (s :: rest) ↔
        r.reading (lr ++ front) = none ∧ Listed r (lr ++ (front ++ [s])) rest := by
      intro s rest
      rw [listed_cons_iff, List.append_assoc]
    rw [descent, hd]
    simp only
    cases hrefused : r.reading (lr ++ front) with
    | some e =>
      simp only [List.mem_singleton, reduceCtorEq, false_iff]
      rintro ⟨names, hne, -, -, hnames, -⟩
      obtain ⟨s, rest, rfl⟩ := List.exists_cons_of_ne_nil hne
      rw [(hlisted.1 hnames).1] at hrefused
      cases hrefused
    | none =>
      simp only [List.mem_flatMap, FileTree.mem_names, Option.isSome_iff_exists]
      constructor
      · rintro ⟨s, ⟨e, he⟩, hfind⟩
        rw [List.append_assoc] at he
        obtain ⟨rest, hlength, h, hrest, hp, ho⟩ := (hone he).1 hfind
        exact ⟨s :: rest, by simp, by simpa using hlength, h, hlisted.2 ⟨hrefused, hrest⟩, hp, ho⟩
      · rintro ⟨names, hne, hlength, h, hnames, hp, ho⟩
        obtain ⟨s, rest, rfl⟩ := List.exists_cons_of_ne_nil hne
        obtain ⟨e, he⟩ : ∃ e, t.lookup (lr ++ (front ++ [s])) = some e := by
          rcases (eligible_cons_iff.1 h).2.lookup_front ht with ⟨-, hs⟩ | ⟨-, content, hs⟩
          · exact ⟨_, hs⟩
          · exact ⟨_, hs⟩
        refine ⟨s, ⟨e, by rw [List.append_assoc, he]⟩, (hone he).2 ?_⟩
        exact ⟨rest, by simpa using hlength, h, (hlisted.1 hnames).2, hp, ho⟩

/-- Different names lead to different paths. -/
theorem below_inj {names' : List String} (hnames : ∀ x ∈ names, Path.IsPlain x)
    (hnames' : ∀ x ∈ names', Path.IsPlain x) (h : root.below names = root.below names') :
    names = names' := by
  have hcomponents := congrArg Path.components h
  rw [Path.components_below hnames, Path.components_below hnames'] at hcomponents
  exact List.map_injective_iff.2 (fun _ _ => Component.name.inj)
    (List.append_cancel_left hcomponents)

theorem mem_files {finds : List Find} : (p, o) ∈ files finds ↔ Find.file p o ∈ finds := by
  simp only [files, List.mem_filterMap]
  constructor
  · rintro ⟨find, hfind, h⟩
    cases find with
    | file input output =>
      obtain ⟨rfl, rfl⟩ : input = p ∧ output = o := by simpa using h
      exact hfind
    | fault f => simp at h
  · intro h
    exact ⟨_, h, rfl⟩

theorem pairwise_files_findsAt {R : Path × Path → Path × Path → Prop} {deeper : Path → List Find}
    (h : inspect t sel above p = .ok (some .directory) → (files (deeper p)).Pairwise R)
    (name : String) : (files (findsAt t sel root output above deeper p name)).Pairwise R := by
  unfold findsAt
  cases hinspect : inspect t sel above p with
  | error fault => exact .nil
  | ok found =>
    cases found with
    | none => exact .nil
    | some e =>
      cases isPruned sel root p name with
      | true => exact .nil
      | false =>
        cases e with
        | directory => exact h hinspect
        | link target => exact .nil
        | file content =>
          cases sel.supports p with
          | false => exact .nil
          | true => cases p.relativeTo? root <;> simp [files]

/-- The names that lead to one file from the root come before those that lead to another, name by
name in the order of their bytes. -/
def Sooner (root : Path) (x y : Path × Path) : Prop :=
  ∃ names names', (∀ s ∈ names, Path.IsPlain s) ∧ (∀ s ∈ names', Path.IsPlain s) ∧
    x.1 = root.below names ∧ y.1 = root.below names' ∧
    names.map Name.bytes < names'.map Name.bytes

theorem Sooner.ne {x y : Path × Path} (h : Sooner root x y) : x ≠ y := by
  rintro rfl
  obtain ⟨names, names', hplain, hplain', hx, hx', hlt⟩ := h
  rw [below_inj hplain hplain' (hx.symm.trans hx')] at hlt
  exact List.lt_irrefl _ hlt

/-- **A walk below a directory is depth-first**, and takes the names in every directory in
order. -/
theorem sorted_files_descent (ht : t.WellFormed) (hlinks : sel.followLinks = false)
    (hroot : root.components ≠ []) {fuel : Nat}
    (hd : t.locate true (root.below front) = .ok (lr ++ front))
    (hdir : t.lookup (lr ++ front) = some .directory) :
    (files (descent t sel root output fuel (root.below front) above r)).Pairwise
      (Sooner root) := by
  induction fuel generalizing front above with
  | zero => exact .nil
  | succ fuel ih =>
    have hentry : ∀ {s : String}, s ∈ t.names (lr ++ front) →
        ∃ e, t.lookup (lr ++ (front ++ [s])) = some e := by
      intro s hs
      obtain ⟨e, he⟩ := Option.isSome_iff_exists.1 (FileTree.mem_names.1 hs)
      exact ⟨e, by rw [← List.append_assoc, he]⟩
    rw [descent, hd]
    simp only
    cases r.reading (lr ++ front) with
    | some e => exact .nil
    | none =>
      simp only [files, List.filterMap_flatMap]
      refine List.pairwise_flatMap.2 ⟨fun s hs => pairwise_files_findsAt (fun hinspect => ?_) s, ?_⟩
      · obtain ⟨e, he⟩ := hentry hs
        have hplain := (ht.isName he s (by simp)).1
        have hplace : t.lookup (lr ++ front ++ [s]) = some e := by rw [List.append_assoc, he]
        rw [inspect_child hlinks hd hdir hplain, hplace] at hinspect
        obtain rfl : e = .directory := Option.some.inj (Except.ok.inj hinspect)
        rw [← Path.below_concat]
        refine ih ?_ he
        rw [Path.below_concat, ← List.append_assoc]
        exact FileTree.locate_child hd hdir hplain hplace (.inl rfl)
      · -- what is found at a name has this name in its path
        have hfound : ∀ {s : String} {pair : Path × Path}, s ∈ t.names (lr ++ front) →
            pair ∈ files (findsAt t sel root output (⟨root.below front, lr ++ front⟩ :: above)
              (fun p =>
                descent t sel root output fuel p (⟨root.below front, lr ++ front⟩ :: above) r)
              ((root.below front).child s) s) →
            ∃ rest, (∀ x ∈ front ++ s :: rest, Path.IsPlain x) ∧
              pair.1 = root.below (front ++ s :: rest) := by
          rintro s ⟨p, o⟩ hs hpair
          obtain ⟨e, he⟩ := hentry hs
          obtain ⟨rest, -, heligible, -, hp, -⟩ :=
            (mem_findsAt_child ht hlinks hroot hd hdir he fun hdirectory hlocate =>
              mem_descent ht hlinks hroot hlocate (hdirectory ▸ he)).1 (mem_files.1 hpair)
          obtain ⟨content, hfile⟩ := heligible.file
          exact ⟨rest, fun x hx => (ht.isName hfile x (List.mem_append_right _ hx)).1, hp⟩
        refine (ht.sorted_names _).imp_of_mem fun hs hs' hlt pair hpair pair' hpair' => ?_
        obtain ⟨rest, hplain, hp⟩ := hfound hs hpair
        obtain ⟨rest', hplain', hp'⟩ := hfound hs' hpair'
        refine ⟨_, _, hplain, hplain', hp, hp', ?_⟩
        rw [List.map_append, List.map_append]
        exact List.Lex.append_left _ (.rel hlt) (front.map Name.bytes)

/-- **A walk below a directory finds no file twice.** -/
theorem nodup_files_descent (ht : t.WellFormed) (hlinks : sel.followLinks = false)
    (hroot : root.components ≠ []) {fuel : Nat}
    (hd : t.locate true (root.below front) = .ok (lr ++ front))
    (hdir : t.lookup (lr ++ front) = some .directory) :
    (files (descent t sel root output fuel (root.below front) above r)).Nodup :=
  (sorted_files_descent ht hlinks hroot hd hdir).imp Sooner.ne

/-! ## From a root -/

/-- No location has more names than the tree has entries. -/
theorem length_le_entries (ht : t.WellFormed) {loc : Location} {e : Entry}
    (he : t.lookup loc = some e) : loc.length ≤ t.entries.length := by
  -- the locations on the way are entries, and they are all different
  let way := (List.range loc.length).map fun n => loc.take (n + 1)
  have hnodup : way.Nodup := by
    refine (List.nodup_map_iff_inj_on List.nodup_range).2 fun m hm n hn heq => ?_
    have hlength := congrArg List.length heq
    simp only [List.length_take, List.mem_range] at hlength hm hn
    omega
  have hsubset : way ⊆ t.entries.map Prod.fst := by
    intro l hl
    obtain ⟨n, hn, rfl⟩ := List.mem_map.1 hl
    rw [List.mem_range] at hn
    have hne : loc.take (n + 1) ≠ [] := by
      rw [← List.length_pos_iff, List.length_take]
      omega
    rw [← FileTree.lookup_isSome_iff hne]
    by_cases hdrop : loc.drop (n + 1) = []
    · rw [List.take_of_length_le (List.drop_eq_nil_iff.1 hdrop), he]
      rfl
    · rw [ht.directory_of_prefix hdrop (by rw [List.take_append_drop, he])]
      rfl
  have hlength := (List.Nodup.subperm hnodup hsubset).length_le
  simpa [way] using hlength

/-- No eligible file is too deep for a walk. -/
theorem length_le_depthBound (ht : t.WellFormed) (h : Eligible t sel root lr [] names) :
    names.length ≤ depthBound t := by
  obtain ⟨content, hfile⟩ := h.file
  have hlength := length_le_entries ht hfile
  simp only [List.nil_append, List.length_append] at hlength
  calc names.length ≤ t.entries.length + 2 := by omega
    _ ≤ depthBound t := Nat.le_mul_of_pos_right _ (by omega)

/-- A path with a component leads somewhere, and the other way round for one that a text
spells. -/
theorem components_ne_nil (hroot : root.Proper) (hempty : root.isEmpty = false) :
    root.components ≠ [] := by
  intro hnil
  rw [Path.components_eq, List.append_eq_nil_iff] at hnil
  unfold Path.lead at hnil
  split_ifs at hnil with hrooted hdot
  · simp at hnil
  · simp at hnil
  · obtain ⟨first, rest, hsegments⟩ := List.exists_cons_of_ne_nil hroot.nonempty
    have hidle : Path.isIdle first = true := by
      rw [← Path.component?_eq_none_iff]
      exact List.filterMap_eq_nil_iff.1 hnil.2 first (by simp [hsegments])
    rw [hsegments] at hdot
    have hfirst : first = "" := by
      simp only [Path.isIdle, Bool.or_eq_true, beq_iff_eq] at hidle
      exact hidle.resolve_right (by simpa using hdot)
    have hone := hroot.head (by simpa using hrooted) (by simp [hsegments, hfirst])
    simp [Path.isEmpty, hone, hrooted] at hempty

/-- A file that a walk finds below a directory is spelled as the root followed by names, and
so is its result.  This holds with links as well. -/
theorem spelled_of_mem_descent (ht : t.WellFormed) (hroot : root.components ≠ []) {fuel : Nat}
    (hfront : ∀ x ∈ front, Path.IsPlain x)
    (h : Find.file p o ∈ descent t sel root output fuel (root.below front) above r) :
    ∃ names, names ≠ [] ∧ (∀ x ∈ names, Path.IsPlain x) ∧ p = root.below names ∧
      o = output.join ⟨false, names⟩ := by
  induction fuel generalizing front above with
  | zero => simp [descent] at h
  | succ fuel ih =>
    rw [descent] at h
    split at h
    · simp at h
    rename_i loc hloc
    split at h
    · simp at h
    obtain ⟨s, hs, h⟩ := List.mem_flatMap.1 h
    obtain ⟨e, he⟩ := Option.isSome_iff_exists.1 (FileTree.mem_names.1 hs)
    have hnames : ∀ x ∈ front ++ [s], Path.IsPlain x := by
      simpa [or_imp, forall_and, (ht.isName he s (by simp)).1] using hfront
    rw [← Path.below_concat, findsAt] at h
    split at h
    · simp at h
    · simp at h
    · rename_i found hfound
      by_cases hpruned : isPruned sel root (root.below (front ++ [s])) s = true
      · simp [hpruned] at h
      rw [if_neg hpruned] at h
      cases found with
      | directory => exact ih hnames h
      | link target => simp at h
      | file content =>
        cases hsupports : sel.supports (root.below (front ++ [s])) with
        | false => simp [hsupports] at h
        | true =>
          obtain ⟨rfl, rfl⟩ : p = root.below (front ++ [s]) ∧
              o = output.join ⟨false, front ++ [s]⟩ := by
            simpa [hsupports, Path.relativeTo?_below hnames (by simp) hroot] using h
          exact ⟨front ++ [s], by simp, hnames, rfl, rfl⟩

/-- **Without an output root every file is its own result.** -/
theorem output_eq_of_mem_files (ht : t.WellFormed) (hroot : root.Proper)
    (h : (p, o) ∈ files (finds t sel root root r)) : o = p := by
  rw [mem_files, finds_eq ht] at h
  split at h
  · simp at h
  · split_ifs at h
    · obtain ⟨rfl, rfl⟩ : p = root ∧ o = singleTarget t root root := by simpa using h
      simp [singleTarget, Path.same]
      split <;> rfl
    · simp at h
  · rename_i hinspect
    obtain ⟨lr, hlr, -⟩ := reached_of_inspectRoot hinspect
    have hcomponents := components_ne_nil hroot (FileTree.locate_eq_ok_iff.1 hlr).1
    obtain ⟨names, hne, hplain, rfl, rfl⟩ :=
      @spelled_of_mem_descent t sel root root p o [] [] r ht hcomponents _ (by simp) h
    rw [Path.below_eq_join (fun x hx => Path.ne_empty_of_not_isIdle (hplain x hx).1) hne]
  · simp at h

/-- The path of the result of a file, by the names that lead to it from the root. -/
def target (t : FileTree) (root output : Path) (names : List String) : Path :=
  if names = [] then singleTarget t root output else output.join ⟨false, names⟩

/-- **The files that a walk finds from a root** are the eligible ones on whose way every directory
may be read. -/
theorem mem_files_finds_of_refusals (ht : t.WellFormed) (hlinks : sel.followLinks = false)
    (hroot : root.Proper) :
    (p, o) ∈ files (finds t sel root output r) ↔
      ∃ lr names, t.locate false root = .ok lr ∧ Eligible t sel root lr [] names ∧
        Listed r lr names ∧ p = root.below names ∧ o = target t root output names := by
  rw [mem_files, finds_eq ht, inspectRoot]
  cases hentry : t.entryAt false root with
  | error e =>
    have hnot : ∀ lr names, t.locate false root = .ok lr → ¬Eligible t sel root lr [] names := by
      intro lr names hlr h
      obtain ⟨e', he', -⟩ := ht.lookup_of_locate hlr
      rw [FileTree.entryAt_eq_ok_iff.2 ⟨lr, hlr, he'⟩] at hentry
      simp at hentry
    constructor
    · intro h
      cases e <;> simp at h
    · rintro ⟨lr, names, hlr, h, -⟩
      exact absurd h (hnot lr names hlr)
  | ok e =>
    obtain ⟨lr, hlr, he⟩ := FileTree.entryAt_eq_ok_iff.1 hentry
    have hsame : ∀ {lr' : Location}, t.locate false root = .ok lr' → lr' = lr := by
      intro lr' hlr'
      rw [hlr] at hlr'
      exact (Except.ok.inj hlr').symm
    cases e with
    | link target =>
      simp only [hlinks, Bool.not_false, if_true, List.not_mem_nil, false_iff]
      rintro ⟨lr', names, hlr', h, -⟩
      obtain rfl := hsame hlr'
      rcases h.lookup_front ht with ⟨-, hdir⟩ | ⟨-, content, hfile⟩
      · simp [he] at hdir
      · simp [he] at hfile
    | file content =>
      constructor
      · intro h
        cases hsupports : sel.supports root with
        | false => simp [hsupports] at h
        | true =>
          obtain ⟨rfl, rfl⟩ : p = root ∧ o = singleTarget t root output := by
            simpa [hsupports] using h
          exact ⟨lr, [], hlr, eligible_nil_iff.2 ⟨⟨content, by simpa using he⟩, by simpa⟩,
            listed_nil, rfl, by simp [target]⟩
      · rintro ⟨lr', names, hlr', h, -, rfl, rfl⟩
        obtain rfl := hsame hlr'
        rcases h.lookup_front ht with ⟨-, hdir⟩ | ⟨rfl, -⟩
        · simp [he] at hdir
        · have hsupports : sel.supports root = true := by
            simpa using (eligible_nil_iff.1 h).2
          simp [hsupports, target]
    | directory =>
      have hlr' := FileTree.locate_true_of_not_link hlr (by simp [he])
      have hcomponents := components_ne_nil hroot (FileTree.locate_eq_ok_iff.1 hlr).1
      have hmem := @mem_descent t sel lr root output p o [] [] r ht hlinks hcomponents
        (depthBound t) (by simpa using hlr') (by simpa using he)
      simp only [Path.below_nil, List.nil_append, List.append_nil] at hmem
      simp only
      rw [hmem]
      constructor
      · rintro ⟨names, hne, -, h, hlisted, rfl, rfl⟩
        exact ⟨lr, names, hlr, h, hlisted, rfl, by simp [target, hne]⟩
      · rintro ⟨lr', names, hlr', h, hlisted, rfl, rfl⟩
        obtain rfl := hsame hlr'
        rcases h.lookup_front ht with ⟨hne, -⟩ | ⟨-, content, hfile⟩
        · exact ⟨names, hne, length_le_depthBound ht h, h, hlisted, rfl, by simp [target, hne]⟩
        · simp [he] at hfile

theorem mem_files_finds (ht : t.WellFormed) (hlinks : sel.followLinks = false)
    (hroot : root.Proper) :
    (p, o) ∈ files (finds t sel root output) ↔
      ∃ lr names, t.locate false root = .ok lr ∧ Eligible t sel root lr [] names ∧
        p = root.below names ∧ o = target t root output names := by
  simpa using mem_files_finds_of_refusals (r := .none) ht hlinks hroot

/-- **A walk finds no file twice.** -/
theorem nodup_files_finds (ht : t.WellFormed) (hlinks : sel.followLinks = false)
    (hroot : root.Proper) : (files (finds t sel root output r)).Nodup := by
  rw [finds_eq ht]
  cases hinspect : inspectRoot t sel root with
  | error fault => exact List.nodup_nil
  | ok found =>
    cases found with
    | none => exact List.nodup_nil
    | some e =>
      cases e with
      | link target => exact List.nodup_nil
      | file content => cases sel.supports root <;> simp [files]
      | directory =>
        obtain ⟨lr, hlr, hdir⟩ := reached_of_inspectRoot hinspect
        have hcomponents := components_ne_nil hroot (FileTree.locate_eq_ok_iff.1 hlr).1
        exact @nodup_files_descent t sel lr root output [] [] r ht hlinks hcomponents _
          (by simpa using hlr) (by simpa using hdir)

/-- The root of a walk that finds a file is no link. -/
theorem Eligible.locate_root (h : Eligible t sel root lr [] names) (ht : t.WellFormed)
    (hlr : t.locate false root = .ok lr) : t.locate true root = .ok lr := by
  refine FileTree.locate_true_of_not_link hlr fun link hlink => ?_
  rcases h.lookup_front ht with ⟨-, hdir⟩ | ⟨-, content, hfile⟩
  · simp [hlink] at hdir
  · simp [hlink] at hfile

/-- A file that a walk finds is there. -/
theorem Eligible.locate (h : Eligible t sel root lr [] names) (ht : t.WellFormed)
    (hlr : t.locate true root = .ok lr) : t.locate true (root.below names) = .ok (lr ++ names) := by
  obtain ⟨content, hfile⟩ := h.file
  exact FileTree.locate_below ht hlr (by simpa using hfile) rfl

theorem locate_of_mem_files (ht : t.WellFormed) (hlinks : sel.followLinks = false)
    (hroot : root.Proper) (h : (p, o) ∈ files (finds t sel root output r)) :
    ∃ l content, t.locate true p = .ok l ∧ t.lookup l = some (.file content) := by
  obtain ⟨lr, names, hlr, helig, -, rfl, -⟩ := (mem_files_finds_of_refusals ht hlinks hroot).1 h
  obtain ⟨content, hfile⟩ := helig.file
  exact ⟨lr ++ names, content, helig.locate ht (helig.locate_root ht hlr), by simpa using hfile⟩

/-! ## Trees with more in them -/

/-- **Elsewhere, a tree may have more**: the walk finds the same files, as long as their
results belong to the same paths. -/
theorem mem_files_of_alike (ht : t.WellFormed) (hlinks : sel.followLinks = false)
    (hroot : root.Proper) (hlr : t.locate false root = .ok lr) (hu : Alike lr t u)
    (htarget : ∀ names, Eligible t sel root lr [] names →
      target u root output names = target t root output names) :
    (p, o) ∈ files (finds u sel root output) ↔ (p, o) ∈ files (finds t sel root output) := by
  have hlr' := FileTree.locate_of_grows hu.grows hlr
  have hshape : ∀ names, (u.lookup (lr ++ ([] ++ names))).map Entry.shape =
      (t.lookup (lr ++ ([] ++ names))).map Entry.shape :=
    fun names => hu.shape (List.prefix_append _ _)
  rw [mem_files_finds hu.wellFormed hlinks hroot, mem_files_finds ht hlinks hroot, hlr, hlr']
  constructor
  · rintro ⟨l, names, hl, h, hp, ho⟩
    obtain rfl := Except.ok.inj hl
    have h' := h.of_shape (hshape names).symm
    exact ⟨lr, names, rfl, h', hp, htarget names h' ▸ ho⟩
  · rintro ⟨l, names, hl, h, hp, ho⟩
    obtain rfl := Except.ok.inj hl
    exact ⟨lr, names, rfl, h.of_shape (hshape names), hp, (htarget names h).symm ▸ ho⟩

end Walk
end Restyle
