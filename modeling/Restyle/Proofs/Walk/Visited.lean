import Restyle.Proofs.Walk.Eligible

/-!
# The files that a walk visits in a tree that changes

A visitor may change the tree on the way, and a directory is listed when the walk reaches it.
So what a walk visits is not what there was to find when it started.  This module says what can
be said all the same, for walks that do not follow links and visitors that only add to the tree,
where every directory may be read.

The files are read off a `Visitor.logged`, which does what the visitor does and keeps a list.

* `visited`, `run_logged`: the files that a walk visits, in order.
* `enter_eq`: what a walk does at one name.
* `descend_induction`: what the visit of an eligible file keeps, the walk keeps.
* `mem_descend_logged`: the files that were eligible at the start are visited.
* `nodup_descend_logged`: no file is visited twice.
-/

namespace Restyle
namespace Walk

open FileTree (Grows WellFormed)

variable {σ τ : Type} {v : Visitor σ} {sel : Selection} {lr loc : Location}
  {root output directory : Path} {front names : List String} {name : String}
  {above : List Level} {fuel : Nat} {s : σ} {log : List (Path × Path)}

/-! ## Keeping a list -/

/-- The visitor that also keeps a list of the files that it visits, last first. -/
def Visitor.logged (v : Visitor σ) : Visitor (σ × List (Path × Path)) where
  tree := fun s => v.tree s.1
  file := fun input output s => (v.file input output s.1, (input, output) :: s.2)
  fault := fun f s => (v.fault f s.1, s.2)
  refusals := v.refusals

/-- The files that a walk visits, each with the path of its result, in order. -/
def visited (v : Visitor σ) (sel : Selection) (root output : Path) (s : σ) :
    List (Path × Path) :=
  (run v.logged sel root output (s, [])).2.reverse

section Map

variable {w : Visitor τ} {f : σ → τ} (htree : ∀ s, w.tree (f s) = v.tree s)
  (hfile : ∀ input output s, f (v.file input output s) = w.file input output (f s))
  (hfault : ∀ fault s, f (v.fault fault s) = w.fault fault (f s))
  (hrefusals : w.refusals = v.refusals)
include htree hfile hfault hrefusals

/-- Walks that see the same tree and do the same go the same way down. -/
theorem descend_map (fuel : Nat) (directory : Path) (above : List Level) (s : σ) :
    f (descend v sel root output fuel directory above s) =
      descend w sel root output fuel directory above (f s) := by
  induction fuel generalizing directory above s with
  | zero => rfl
  | succ fuel ih =>
    rw [descend, descend, htree]
    cases (v.tree s).locate true directory with
    | error e => rfl
    | ok loc =>
      simp only [hrefusals]
      cases v.refusals.reading loc with
      | some e => exact hfault _ s
      | none =>
        refine (List.foldl_hom f fun s name => ?_).symm
        rw [htree]
        cases inspect (v.tree s) sel (⟨directory, loc⟩ :: above) (directory.child name) with
        | error fault => exact (hfault fault s).symm
        | ok found =>
          cases found with
          | none => rfl
          | some e =>
            cases isPruned sel root (directory.child name) name with
            | true => rfl
            | false =>
              cases e with
              | directory => exact (ih _ _ s).symm
              | link target => rfl
              | file content =>
                cases sel.supports (directory.child name) with
                | false => rfl
                | true =>
                  cases (directory.child name).relativeTo? root with
                  | none => rfl
                  | some below => exact (hfile _ _ s).symm

theorem run_map (s : σ) : f (run v sel root output s) = run w sel root output (f s) := by
  unfold run
  simp only [htree]
  cases inspectRoot (v.tree s) sel root with
  | error fault => exact hfault fault s
  | ok found =>
    cases found with
    | none => rfl
    | some e =>
      cases e with
      | link target => rfl
      | directory => exact descend_map htree hfile hfault hrefusals _ _ _ s
      | file content =>
        cases sel.supports root with
        | false => rfl
        | true => exact hfile _ _ s

end Map

/-- **Keeping a list makes no difference.** -/
theorem run_logged (s : σ) (log : List (Path × Path)) :
    (run v.logged sel root output (s, log)).1 = run v sel root output s :=
  @run_map _ _ v.logged sel root output v Prod.fst (fun _ => rfl) (fun _ _ _ => rfl)
    (fun _ _ => rfl) rfl (s, log)

/-- **What every visit and every fault keeps, the walk keeps.** -/
theorem run_keeps {I : σ → Prop} (hfile : ∀ input output s, I s → I (v.file input output s))
    (hfault : ∀ f s, I s → I (v.fault f s)) (hs : I s) : I (run v sel root output s) := by
  -- the walk is one through the states that satisfy the invariant
  let w : Visitor { s // I s } :=
    { tree := fun s => v.tree s.1
      file := fun input output s => ⟨v.file input output s.1, hfile input output s.1 s.2⟩
      fault := fun f s => ⟨v.fault f s.1, hfault f s.1 s.2⟩
      refusals := v.refusals }
  have hrun := @run_map _ _ w sel root output v Subtype.val (fun _ => rfl) (fun _ _ _ => rfl)
    (fun _ _ => rfl) rfl ⟨s, hs⟩
  exact hrun ▸ (run w sel root output ⟨s, hs⟩).2

/-! ## One name -/

/-- What a walk does at a name in a directory, given what it does below a directory. -/
def enter (v : Visitor σ) (sel : Selection) (root output : Path) (above : List Level)
    (down : Path → σ → σ) (directory : Path) (s : σ) (name : String) : σ :=
  match inspect (v.tree s) sel above (directory.child name) with
  | .error fault => v.fault fault s
  | .ok none => s
  | .ok (some e) =>
    if isPruned sel root (directory.child name) name then s
    else match e with
      | .directory => down (directory.child name) s
      | .file _ =>
        if !sel.supports (directory.child name) then s
        else match (directory.child name).relativeTo? root with
          | some below => v.file (directory.child name) (output.join below) s
          | none => s
      | .link _ => s

/-- What a walk does at an entry that is not passed over. -/
def enterEntry (v : Visitor σ) (sel : Selection) (p target : Path) (down : Path → σ → σ)
    (s : σ) : Entry → σ
  | .directory => down p s
  | .file _ => if sel.supports p then v.file p target s else s
  | .link _ => s

theorem descend_succ (hd : (v.tree s).locate true directory = .ok loc)
    (hopen : v.refusals.reading loc = none) :
    descend v sel root output (fuel + 1) directory above s =
      ((v.tree s).names loc).foldl
        (enter v sel root output (⟨directory, loc⟩ :: above)
          (fun p => descend v sel root output fuel p (⟨directory, loc⟩ :: above)) directory) s := by
  rw [descend, hd]
  simp only [hopen]
  rfl

/-- The walk has come to a directory below the root, by names none of which is passed over. -/
structure At (t : FileTree) (sel : Selection) (root : Path) (lr : Location)
    (front : List String) : Prop where
  /-- The tree stands for a disk. -/
  wellFormed : t.WellFormed
  /-- The path leads to the directory. -/
  locate : t.locate true (root.below front) = .ok (lr ++ front)
  /-- It is one. -/
  directory : t.lookup (lr ++ front) = some .directory
  /-- No name is passed over. -/
  kept : ∀ {before : List String} {x : String}, before ++ [x] <+: front →
    isPruned sel root (root.below (before ++ [x])) x = false

theorem At.grows {t u : FileTree} (h : At t sel root lr front) (hu : Grows t u)
    (hwell : u.WellFormed) : At u sel root lr front :=
  ⟨hwell, FileTree.locate_of_grows hu h.locate, hu.directory h.directory, h.kept⟩

/-- A directory that is not passed over is the next one. -/
theorem At.concat {t : FileTree} (h : At t sel root lr front)
    (hdir : t.lookup (lr ++ (front ++ [name])) = some .directory)
    (hpruned : isPruned sel root (root.below (front ++ [name])) name = false) :
    At t sel root lr (front ++ [name]) := by
  have hplain := (h.wellFormed.isName hdir name (by simp)).1
  rw [← List.append_assoc] at hdir
  refine ⟨h.wellFormed, ?_, by rwa [← List.append_assoc], fun {before x} hx => ?_⟩
  · rw [Path.below_concat, ← List.append_assoc]
    exact FileTree.locate_child h.locate h.directory hplain hdir (.inl rfl)
  · rcases List.prefix_concat_iff.1 hx with heq | hx
    · obtain ⟨rfl, hlast⟩ := List.append_inj' heq rfl
      obtain rfl : x = name := by simpa using hlast
      exact hpruned
    · exact h.kept hx

/-- A file of the selection that is not passed over is eligible. -/
theorem At.eligible {t : FileTree} (h : At t sel root lr front) {content : ByteArray}
    (hfile : t.lookup (lr ++ (front ++ [name])) = some (.file content))
    (hpruned : isPruned sel root (root.below (front ++ [name])) name = false)
    (hsupports : sel.supports (root.below (front ++ [name])) = true) :
    Eligible t sel root lr [] (front ++ [name]) := by
  refine ⟨⟨content, by simpa using hfile⟩, by simpa using hsupports, fun {before x} hx => ?_⟩
  rw [List.nil_append]
  rcases List.prefix_concat_iff.1 hx with heq | hx
  · obtain ⟨rfl, hlast⟩ := List.append_inj' heq rfl
    obtain rfl : x = name := by simpa using hlast
    exact hpruned
  · exact h.kept hx

section Unlinked

variable (hlinks : sel.followLinks = false) (hroot : root.components ≠ [])
include hlinks hroot

/-- **What a walk does at one name**: nothing, if the name is passed over; else it goes down to
a directory, and visits a file of the selection. -/
theorem enter_eq {e : Entry} {down : Path → σ → σ} (h : At (v.tree s) sel root lr front)
    (he : (v.tree s).lookup (lr ++ (front ++ [name])) = some e) :
    enter v sel root output above down (root.below front) s name =
      if isPruned sel root (root.below (front ++ [name])) name then s
      else enterEntry v sel (root.below (front ++ [name])) (output.join ⟨false, front ++ [name]⟩)
        down s e := by
  have hnames : ∀ x ∈ front ++ [name], Path.IsPlain x := fun x hx =>
    (h.wellFormed.isName he x (List.mem_append_right _ hx)).1
  have hplace : (v.tree s).lookup (lr ++ front ++ [name]) = some e := by
    rw [List.append_assoc, he]
  rw [enter, inspect_child hlinks h.locate h.directory (hnames name (by simp)), hplace,
    ← Path.below_concat]
  cases isPruned sel root (root.below (front ++ [name])) name with
  | true => rfl
  | false =>
    cases e with
    | directory => rfl
    | link target => rfl
    | file content =>
      rw [Path.relativeTo?_below hnames (by simp) hroot]
      cases hsupports : sel.supports (root.below (front ++ [name])) <;>
        simp [enterEntry, hsupports]

section Invariant

variable (hopen : ∀ loc, v.refusals.reading loc = none) {I : σ → Prop}
  (hwell : ∀ s, I s → (v.tree s).WellFormed)
  (hfile : ∀ names s, I s → names ≠ [] → Eligible (v.tree s) sel root lr [] names →
    I (v.file (root.below names) (output.join ⟨false, names⟩) s) ∧
      Grows (v.tree s) (v.tree (v.file (root.below names) (output.join ⟨false, names⟩) s)))
include hwell hfile

/-- A name that was listed keeps what visits keep, if the way down does. -/
theorem enter_induction {down : Path → σ → σ} {u : σ}
    (hdown : ∀ s, I s → At (v.tree s) sel root lr (front ++ [name]) →
      I (down (root.below (front ++ [name])) s) ∧
        Grows (v.tree s) (v.tree (down (root.below (front ++ [name])) s)))
    (h : At (v.tree s) sel root lr front) (hname : name ∈ (v.tree s).names (lr ++ front))
    (hu : I u ∧ Grows (v.tree s) (v.tree u)) :
    I (enter v sel root output above down (root.below front) u name) ∧
      Grows (v.tree s)
        (v.tree (enter v sel root output above down (root.below front) u name)) := by
  obtain ⟨hu, hgrows⟩ := hu
  have hat := h.grows hgrows (hwell u hu)
  -- what was listed is still there
  obtain ⟨e₀, he₀⟩ := Option.isSome_iff_exists.1 (FileTree.mem_names.1 hname)
  obtain ⟨e, he, -⟩ := Option.map_eq_some_iff.1 (hgrows.lookup he₀)
  rw [List.append_assoc] at he
  rw [enter_eq hlinks hroot hat he]
  split_ifs with hpruned
  · exact ⟨hu, hgrows⟩
  rw [Bool.not_eq_true] at hpruned
  cases e with
  | link target => exact ⟨hu, hgrows⟩
  | directory => exact (hdown u hu (hat.concat he hpruned)).imp_right hgrows.trans
  | file content =>
    rw [enterEntry]
    split_ifs with hsupports
    · exact (hfile _ u hu (by simp) (hat.eligible he hpruned hsupports)).imp_right hgrows.trans
    · exact ⟨hu, hgrows⟩

include hopen in
/-- **What the visit of an eligible file keeps, the walk keeps.**  The file is eligible in the
tree as it is then. -/
theorem descend_induction (h : At (v.tree s) sel root lr front) (hs : I s) :
    I (descend v sel root output fuel (root.below front) above s) ∧
      Grows (v.tree s)
        (v.tree (descend v sel root output fuel (root.below front) above s)) := by
  induction fuel generalizing front above s with
  | zero => exact ⟨hs, .refl _⟩
  | succ fuel ih =>
    rw [descend_succ h.locate (hopen _)]
    refine List.foldlRecOn (motive := fun u => I u ∧ Grows (v.tree s) (v.tree u)) _ _
      ⟨hs, .refl _⟩ fun u hu name hname => ?_
    exact enter_induction hlinks hroot hwell hfile (fun s hs hat => ih hat hs) h hname hu

end Invariant

end Unlinked

/-! ## What is visited -/

/-- The list only gets longer. -/
theorem suffix_enter_logged {down : Path → σ × List (Path × Path) → σ × List (Path × Path)}
    (hdown : ∀ p s, s.2 <:+ (down p s).2) (s : σ × List (Path × Path)) :
    s.2 <:+ (enter v.logged sel root output above down directory s name).2 := by
  unfold enter
  cases inspect (v.logged.tree s) sel above (directory.child name) with
  | error fault => exact List.suffix_refl _
  | ok found =>
    cases found with
    | none => exact List.suffix_refl _
    | some e =>
      cases isPruned sel root (directory.child name) name with
      | true => exact List.suffix_refl _
      | false =>
        cases e with
        | directory => exact hdown _ s
        | link target => exact List.suffix_refl _
        | file content =>
          cases sel.supports (directory.child name) with
          | false => exact List.suffix_refl _
          | true =>
            cases (directory.child name).relativeTo? root with
            | none => exact List.suffix_refl _
            | some below => exact List.suffix_cons _ _

theorem suffix_descend_logged (s : σ × List (Path × Path)) :
    s.2 <:+ (descend v.logged sel root output fuel directory above s).2 := by
  induction fuel generalizing directory above s with
  | zero => exact List.suffix_refl _
  | succ fuel ih =>
    cases hd : (v.logged.tree s).locate true directory with
    | error e => simpa only [descend, hd] using List.suffix_refl s.2
    | ok loc =>
      cases hopen : v.logged.refusals.reading loc with
      | some e =>
        simp only [descend, hd, hopen]
        exact List.suffix_refl s.2
      | none =>
        rw [descend_succ hd hopen]
        refine List.foldlRecOn (motive := fun u : σ × List (Path × Path) => s.2 <:+ u.2) _ _
          (List.suffix_refl _) fun u hu name _ => ?_
        exact hu.trans (suffix_enter_logged (fun _ s => ih s) u)

/-- What one step brings about and the others keep, a fold brings about. -/
theorem foldl_of_mem {α : Type} {P Q : σ → Prop} {step : σ → α → σ} {l : List α} {a : α}
    (ha : a ∈ l) (hP : ∀ x ∈ l, ∀ s, P s → P (step s x)) (hQ : ∀ x s, Q s → Q (step s x))
    (hstep : ∀ s, P s → Q (step s a)) (hs : P s) : Q (l.foldl step s) := by
  obtain ⟨before, after, rfl⟩ := List.append_of_mem ha
  have hbefore : P (before.foldl step s) :=
    List.foldlRecOn _ _ hs fun u hu x hx => hP x (by simp [hx]) u hu
  rw [List.foldl_append, List.foldl_cons]
  exact List.foldlRecOn _ _ (hstep _ hbefore) fun u hu x _ => hQ x u hu

theorem Eligible.grows {t u : FileTree} (h : Eligible t sel root lr front names)
    (hu : Grows t u) : Eligible u sel root lr front names := by
  obtain ⟨content, hfile⟩ := h.file
  refine h.of_shape ?_
  rw [hfile]
  exact hu.lookup hfile

/-- A list is longer by files that stand at some names in a directory or below them, none of
them twice. -/
def Lengthens (root : Path) (front names : List String) (old new : List (Path × Path)) : Prop :=
  ∃ more, new = more ++ old ∧ more.Nodup ∧ ∀ pair ∈ more, ∃ name ∈ names, ∃ rest,
    (∀ x ∈ front ++ name :: rest, Path.IsPlain x) ∧ pair.1 = root.below (front ++ name :: rest)

namespace Lengthens

variable {old new newer : List (Path × Path)} {names' : List String}

theorem refl (root : Path) (front names : List String) (log : List (Path × Path)) :
    Lengthens root front names log log :=
  ⟨[], rfl, List.nodup_nil, nofun⟩

/-- What is below a name is told by the name. -/
theorem of_concat (h : Lengthens root (front ++ [name]) names old new) :
    Lengthens root front [name] old new := by
  obtain ⟨more, rfl, hnodup, hmore⟩ := h
  refine ⟨more, rfl, hnodup, fun pair hpair => ?_⟩
  obtain ⟨x, -, rest, hplain, hpath⟩ := hmore pair hpair
  rw [← List.append_cons] at hplain hpath
  exact ⟨name, List.mem_singleton_self _, x :: rest, hplain, hpath⟩

/-- Different names have different files below them. -/
theorem trans (h : Lengthens root front names old new) (h' : Lengthens root front names' new newer)
    (hdisjoint : names.Disjoint names') : Lengthens root front (names ++ names') old newer := by
  obtain ⟨more, rfl, hnodup, hmore⟩ := h
  obtain ⟨more', rfl, hnodup', hmore'⟩ := h'
  refine ⟨more' ++ more, (List.append_assoc _ _ _).symm, List.nodup_append'.2
    ⟨hnodup', hnodup, fun pair hpair' hpair => ?_⟩, fun pair hpair => ?_⟩
  · obtain ⟨x, hx, rest, hplain, hpath⟩ := hmore pair hpair
    obtain ⟨x', hx', rest', hplain', hpath'⟩ := hmore' pair hpair'
    have hnames := List.append_cancel_left (below_inj hplain hplain' (hpath.symm.trans hpath'))
    exact hdisjoint hx ((List.cons.inj hnames).1 ▸ hx')
  · rcases List.mem_append.1 hpair with hpair | hpair
    · obtain ⟨x, hx, hrest⟩ := hmore' pair hpair
      exact ⟨x, List.mem_append_right _ hx, hrest⟩
    · obtain ⟨x, hx, hrest⟩ := hmore pair hpair
      exact ⟨x, List.mem_append_left _ hx, hrest⟩

end Lengthens

section Logged

variable (hlinks : sel.followLinks = false) (hroot : root.components ≠ [])
  (hopen : ∀ loc, v.refusals.reading loc = none) {I : σ → Prop}
  (hwell : ∀ s, I s → (v.tree s).WellFormed)
  (hfile : ∀ names s, I s → names ≠ [] → Eligible (v.tree s) sel root lr [] names →
    I (v.file (root.below names) (output.join ⟨false, names⟩) s) ∧
      Grows (v.tree s) (v.tree (v.file (root.below names) (output.join ⟨false, names⟩) s)))
include hlinks hroot hopen hwell hfile

/-- A name that was listed keeps what visits keep, with a list as well. -/
theorem enter_logged {s u : σ × List (Path × Path)} (h : At (v.tree s.1) sel root lr front)
    (hname : name ∈ (v.tree s.1).names (lr ++ front))
    (hu : I u.1 ∧ Grows (v.tree s.1) (v.tree u.1)) :
    I (enter v.logged sel root output above
        (fun p => descend v.logged sel root output fuel p above) (root.below front) u name).1 ∧
      Grows (v.tree s.1) (v.tree (enter v.logged sel root output above
        (fun p => descend v.logged sel root output fuel p above) (root.below front) u name).1) := by
  have hwell' : ∀ u : σ × List (Path × Path), I u.1 → (v.logged.tree u).WellFormed :=
    fun u => hwell u.1
  have hvisit : ∀ names (u : σ × List (Path × Path)), I u.1 → names ≠ [] →
      Eligible (v.logged.tree u) sel root lr [] names →
      I (v.logged.file (root.below names) (output.join ⟨false, names⟩) u).1 ∧
        Grows (v.logged.tree u)
          (v.logged.tree (v.logged.file (root.below names) (output.join ⟨false, names⟩) u)) :=
    fun names u => hfile names u.1
  exact enter_induction (v := v.logged) (s := s) hlinks hroot hwell' hvisit
    (fun u hu hat => descend_induction (v := v.logged) hlinks hroot hopen hwell' hvisit hat hu) h
    hname hu

/-- **Every file that is eligible when the walk comes to a directory is visited**, whatever the
visits before it add to the tree. -/
theorem mem_descend_logged {s : σ × List (Path × Path)} (h : At (v.tree s.1) sel root lr front)
    (hs : I s.1) (hnames : Eligible (v.tree s.1) sel root lr front names) (hne : names ≠ [])
    (hfuel : names.length ≤ fuel) :
    (root.below (front ++ names), output.join ⟨false, front ++ names⟩) ∈
      (descend v.logged sel root output fuel (root.below front) above s).2 := by
  induction fuel generalizing front names above s with
  | zero => exact absurd (List.length_eq_zero_iff.1 (Nat.le_zero.1 hfuel)) hne
  | succ fuel ih =>
    obtain ⟨x, rest, rfl⟩ := List.exists_cons_of_ne_nil hne
    obtain ⟨hpruned, hrest⟩ := eligible_cons_iff.1 hnames
    have hx : x ∈ (v.logged.tree s).names (lr ++ front) := by
      rw [FileTree.mem_names, List.append_assoc]
      rcases hrest.lookup_front h.wellFormed with ⟨-, hdir⟩ | ⟨-, content, hfile⟩
      · exact (congrArg Option.isSome hdir).trans rfl
      · exact (congrArg Option.isSome hfile).trans rfl
    rw [descend_succ (v := v.logged) h.locate (hopen _)]
    refine foldl_of_mem (P := fun u => I u.1 ∧ Grows (v.tree s.1) (v.tree u.1)) hx ?_
      (fun x u hu => (suffix_enter_logged (fun _ s => suffix_descend_logged s) u).subset hu) ?_
      ⟨hs, .refl _⟩
    · exact fun name hname u hu => enter_logged hlinks hroot hopen hwell hfile h hname hu
    · rintro u ⟨hu, hgrows⟩
      have hat := h.grows hgrows (hwell u.1 hu)
      have hrest' := hrest.grows hgrows
      rcases hrest'.lookup_front hat.wellFormed with ⟨hne', hdir⟩ | ⟨rfl, content, hplace⟩
      · rw [List.append_cons front x rest, enter_eq (v := v.logged) (s := u) hlinks hroot hat hdir,
          if_neg (by simp [hpruned])]
        exact ih (hat.concat hdir hpruned) hu hrest' hne' (Nat.le_of_succ_le_succ hfuel)
      · have hsupports := (eligible_nil_iff.1 hrest').2
        rw [enter_eq (v := v.logged) (s := u) hlinks hroot hat hplace,
          if_neg (by simp [hpruned]), enterEntry, if_pos hsupports]
        exact List.mem_cons_self

omit hopen hwell hfile in
theorem lengthens_enter_logged {u : σ × List (Path × Path)}
    {down : Path → σ × List (Path × Path) → σ × List (Path × Path)}
    (hdown : At (v.tree u.1) sel root lr (front ++ [name]) → ∃ names,
      Lengthens root (front ++ [name]) names u.2 (down (root.below (front ++ [name])) u).2)
    (h : At (v.tree u.1) sel root lr front) {e : Entry}
    (he : (v.tree u.1).lookup (lr ++ (front ++ [name])) = some e) :
    Lengthens root front [name] u.2
      (enter v.logged sel root output above down (root.below front) u name).2 := by
  rw [enter_eq (v := v.logged) (s := u) hlinks hroot h he]
  split_ifs with hpruned
  · exact .refl _ _ _ _
  rw [Bool.not_eq_true] at hpruned
  cases e with
  | link target => exact .refl _ _ _ _
  | directory =>
    obtain ⟨names, hnames⟩ := hdown (h.concat he hpruned)
    exact hnames.of_concat
  | file content =>
    rw [enterEntry]
    split_ifs with hsupports
    · refine ⟨[_], rfl, List.nodup_singleton _, fun pair hpair => ?_⟩
      rw [List.mem_singleton.1 hpair]
      exact ⟨name, List.mem_singleton_self _, [], fun x hx =>
        (h.wellFormed.isName he x (List.mem_append_right _ hx)).1, rfl⟩
    · exact .refl _ _ _ _

/-- **No file is visited twice.** -/
theorem lengthens_descend_logged {s : σ × List (Path × Path)}
    (h : At (v.tree s.1) sel root lr front) (hs : I s.1) :
    Lengthens root front ((v.tree s.1).names (lr ++ front)) s.2
      (descend v.logged sel root output fuel (root.below front) above s).2 := by
  induction fuel generalizing front above s with
  | zero => exact .refl _ _ _ _
  | succ fuel ih =>
    rw [descend_succ (v := v.logged) h.locate (hopen _)]
    -- the names of the list are different, so what is found at them is
    have hfold : ∀ (l : List String) (u : σ × List (Path × Path)), l.Nodup →
        (∀ name ∈ l, name ∈ (v.logged.tree s).names (lr ++ front)) →
        I u.1 ∧ Grows (v.tree s.1) (v.tree u.1) →
        Lengthens root front l u.2 (l.foldl (enter v.logged sel root output
          (⟨root.below front, lr ++ front⟩ :: above)
          (fun p => descend v.logged sel root output fuel p
            (⟨root.below front, lr ++ front⟩ :: above)) (root.below front)) u).2 := by
      intro l
      induction l with
      | nil => exact fun u _ _ _ => .refl _ _ _ _
      | cons name l ihl =>
        intro u hnodup hlisted hu
        obtain ⟨hname, hnodup⟩ := List.nodup_cons.1 hnodup
        obtain ⟨e₀, he₀⟩ :=
          Option.isSome_iff_exists.1 (FileTree.mem_names.1 (hlisted name List.mem_cons_self))
        obtain ⟨e, he, -⟩ := Option.map_eq_some_iff.1 (hu.2.lookup he₀)
        rw [List.append_assoc] at he
        refine (lengthens_enter_logged hlinks hroot (fun hat => ⟨_, ih hat hu.1⟩)
          (h.grows hu.2 (hwell u.1 hu.1)) he).trans (ihl _ hnodup
            (fun x hx => hlisted x (List.mem_cons_of_mem _ hx)) ?_)
          (List.singleton_disjoint.2 hname)
        exact enter_logged hlinks hroot hopen hwell hfile h (hlisted name List.mem_cons_self) hu
    exact hfold _ s (h.wellFormed.nodup_names _) (fun _ hname => hname) ⟨hs, .refl _⟩

end Logged

/-! ## From a root -/

theorem run_logged_eq (s : σ) :
    run v.logged sel root output (s, []) =
      (run v sel root output s, (visited v sel root output s).reverse) :=
  Prod.ext (run_logged s []) (List.reverse_reverse _).symm

/-- **What a walk can visit from its root**: nothing, the root alone if it is a file, or what is
below it if it is a directory. -/
theorem visited_cases (hlinks : sel.followLinks = false) :
    visited v sel root output s = [] ∨
    (v.tree s).isDirectory root = false ∧
      visited v sel root output s = [(root, singleTarget (v.tree s) root output)] ∨
    ∃ lr, (v.tree s).locate false root = .ok lr ∧ (v.tree s).lookup lr = some .directory := by
  have htree : v.logged.tree (s, []) = v.tree s := rfl
  simp only [visited, run, htree, inspectRoot]
  cases hentry : (v.tree s).entryAt false root with
  | error e => exact .inl (by cases e <;> rfl)
  | ok e =>
    obtain ⟨lr, hlr, he⟩ := FileTree.entryAt_eq_ok_iff.1 hentry
    cases e with
    | link target => exact .inl (by simp [hlinks])
    | directory => exact .inr (.inr ⟨lr, hlr, he⟩)
    | file content =>
      cases sel.supports root with
      | false => exact .inl rfl
      | true =>
        refine .inr (.inl ⟨?_, rfl⟩)
        rw [Bool.eq_false_iff]
        intro hdirectory
        obtain ⟨l, hl, hdir⟩ := FileTree.isDirectory_iff.1 hdirectory
        have hlr' := FileTree.locate_true_of_not_link hlr (by simp [he])
        obtain rfl := Except.ok.inj (hlr'.symm.trans hl)
        simp [he] at hdir

section Root

variable (hopen : ∀ loc, v.refusals.reading loc = none) (hroot : root.Proper)
  (hlr : (v.tree s).locate false root = .ok lr)
  (hdir : (v.tree s).lookup lr = some .directory) (hlinks : sel.followLinks = false)
include hlr hdir

/-- The walk from a directory is the way down from it, where no name has been taken. -/
theorem run_of_directory : run v sel root output s =
    descend v sel root output (depthBound (v.tree s)) (root.below []) [] s := by
  have hentry : (v.tree s).entryAt false root = .ok .directory :=
    FileTree.entryAt_eq_ok_iff.2 ⟨lr, hlr, hdir⟩
  simp only [run, inspectRoot, hentry, Path.below_nil]

theorem at_root (ht : (v.tree s).WellFormed) : At (v.tree s) sel root lr [] := by
  have hlr' := FileTree.locate_true_of_not_link hlr (by simp [hdir])
  exact ⟨ht, by simpa using hlr', by simpa using hdir, fun h => by simp at h⟩

include hopen hroot hlinks

/-- **What the visit of an eligible file keeps, the walk from a directory keeps.** -/
theorem visited_induction {I : σ × List (Path × Path) → Prop}
    (hwell : ∀ u, I u → (v.tree u.1).WellFormed)
    (hfile : ∀ names u, I u → names ≠ [] → Eligible (v.tree u.1) sel root lr [] names →
      I (v.file (root.below names) (output.join ⟨false, names⟩) u.1,
          (root.below names, output.join ⟨false, names⟩) :: u.2) ∧
        Grows (v.tree u.1) (v.tree (v.file (root.below names) (output.join ⟨false, names⟩) u.1)))
    (hs : I (s, [])) :
    I (run v sel root output s, (visited v sel root output s).reverse) := by
  have hcomponents := components_ne_nil hroot (FileTree.locate_eq_ok_iff.1 hlr).1
  rw [← run_logged_eq, run_of_directory (v := v.logged) (s := (s, [])) hlr hdir]
  exact (descend_induction (v := v.logged) (s := (s, [])) hlinks hcomponents hopen hwell hfile
    (at_root hlr hdir (hwell _ hs)) hs).1

variable {I : σ → Prop} (hwell : ∀ s, I s → (v.tree s).WellFormed)
  (hfile : ∀ names s, I s → names ≠ [] → Eligible (v.tree s) sel root lr [] names →
    I (v.file (root.below names) (output.join ⟨false, names⟩) s) ∧
      Grows (v.tree s) (v.tree (v.file (root.below names) (output.join ⟨false, names⟩) s)))
  (hs : I s)
include hwell hfile hs

/-- **Every file that is eligible at the start is visited.** -/
theorem mem_visited (hne : names ≠ []) (hnames : Eligible (v.tree s) sel root lr [] names) :
    (root.below names, output.join ⟨false, names⟩) ∈ visited v sel root output s := by
  have hcomponents := components_ne_nil hroot (FileTree.locate_eq_ok_iff.1 hlr).1
  rw [visited, List.mem_reverse, run_of_directory (v := v.logged) (s := (s, [])) hlr hdir]
  exact mem_descend_logged (s := (s, [])) hlinks hcomponents hopen hwell hfile
    (at_root hlr hdir (hwell s hs)) hs hnames hne (length_le_depthBound (hwell s hs) hnames)

/-- **No file is visited twice.** -/
theorem nodup_visited : (visited v sel root output s).Nodup := by
  have hcomponents := components_ne_nil hroot (FileTree.locate_eq_ok_iff.1 hlr).1
  have hlengthens : Lengthens root [] ((v.tree s).names (lr ++ [])) []
      (run v.logged sel root output (s, [])).2 := by
    rw [run_of_directory (v := v.logged) (s := (s, [])) hlr hdir]
    exact lengthens_descend_logged (s := (s, [])) hlinks hcomponents hopen hwell hfile
      (at_root hlr hdir (hwell s hs)) hs
  obtain ⟨more, hmore, hnodup, -⟩ := hlengthens
  rwa [visited, List.nodup_reverse, hmore, List.append_nil]

end Root

/-- **Nothing goes wrong on a walk from a directory** that does not follow links. -/
theorem faults_finds {t : FileTree} (ht : t.WellFormed) (hroot : root.Proper)
    (hlr : t.locate false root = .ok lr) (hdir : t.lookup lr = some .directory)
    (hlinks : sel.followLinks = false) : faults (finds t sel root output) = [] := by
  have hnone : faults (run (recorder t) sel root output []) = [] :=
    visited_induction (v := recorder t) (I := fun u => faults u.1 = []) (fun _ => rfl) hroot hlr
      hdir hlinks (fun _ _ => ht) (fun _ _ hu _ _ => ⟨hu, .refl t⟩) rfl
  unfold faults at hnone ⊢
  rw [finds, List.filterMap_reverse, hnone, List.reverse_nil]

end Walk
end Restyle
