import Restyle.Proofs.Batch.Independence
import Restyle.Proofs.Batch.Mirrored

/-!
# Batches in trees without links

In a tree without links it makes no difference whether links are followed, and each file that
a walk finds below a root stands at a location of its own.  So does its result, in place as
well as under an output root that lies apart.  Then the visits of one root have nothing to do
with each other.

* `Walk.run_of_linkFree`: a walk does not depend on whether links are followed.
* `runRoot_passing`: so for the run over a root.
* `Steady`: the visits of one root are independent, and the walk does not notice them.
* `steady_in_place`, `steady_apart`: they are.
-/

namespace Restyle

open FileTree (Adds Grows SameShape)

/-! ## Walks -/

namespace Walk

variable {σ : Type} {v : Visitor σ} {t : FileTree} {sel sel' : Selection} {root output p : Path}

/-- Selections that take the same files, links apart. -/
structure SameFiles (sel sel' : Selection) : Prop where
  /-- The extensions are the same. -/
  extensions : sel'.extensions = sel.extensions
  /-- The patterns are the same. -/
  excluded : sel'.excluded = sel.excluded

section SameFiles

variable (hsel : SameFiles sel sel')
include hsel

theorem SameFiles.supports (p : Path) : sel'.supports p = sel.supports p := by
  unfold Selection.supports
  rw [hsel.extensions]

theorem SameFiles.isPruned (p : Path) (name : String) :
    isPruned sel' root p name = isPruned sel root p name := by
  unfold Walk.isPruned
  congr 2
  funext below
  unfold Selection.excludes
  rw [hsel.excluded]

end SameFiles

theorem isLink_of_entryAt {followLast : Bool} {e : Entry} (hlinks : t.LinkFree)
    (h : t.entryAt followLast p = .ok e) : e.isLink = false := by
  obtain ⟨l, -, hl⟩ := FileTree.entryAt_eq_ok_iff.1 h
  exact hlinks.isLink hl

theorem inspect_of_linkFree (hlinks : t.LinkFree) (above : List Level) (p : Path) :
    inspect t sel' above p = inspect t sel above p := by
  unfold inspect
  cases h : t.entryAt false p with
  | error e => rfl
  | ok e => simp [isLink_of_entryAt hlinks h]

theorem inspectRoot_of_linkFree (hlinks : t.LinkFree) (root : Path) :
    inspectRoot t sel' root = inspectRoot t sel root := by
  unfold inspectRoot
  cases h : t.entryAt false root with
  | error e => cases e <;> rfl
  | ok e =>
    have hlink := isLink_of_entryAt hlinks h
    cases e with
    | link target => simp [Entry.isLink] at hlink
    | file content => rfl
    | directory => rfl

theorem foldl_congr_of_invariant {α : Type} {I : σ → Prop} {f g : σ → α → σ} {l : List α}
    (h : ∀ a ∈ l, ∀ s, I s → f s a = g s a ∧ I (g s a)) {s : σ} (hs : I s) :
    l.foldl f s = l.foldl g s ∧ I (l.foldl g s) := by
  induction l generalizing s with
  | nil => exact ⟨rfl, hs⟩
  | cons a rest ih =>
    obtain ⟨heq, hnext⟩ := h a List.mem_cons_self s hs
    rw [List.foldl_cons, List.foldl_cons, heq]
    exact ih (fun x hx => h x (List.mem_cons_of_mem _ hx)) hnext

section Unlinked

variable (hsel : SameFiles sel sel') {I : σ → Prop} (hI : ∀ s, I s → (v.tree s).LinkFree)
  (hfile : ∀ input output s, I s → I (v.file input output s))
  (hfault : ∀ f s, I s → I (v.fault f s))
include hsel hI hfile hfault

/-- The way down does not depend on whether links are followed. -/
theorem descend_of_linkFree {fuel : Nat} {directory : Path} {above : List Level} {s : σ}
    (hs : I s) :
    descend v sel' root output fuel directory above s =
      descend v sel root output fuel directory above s ∧
      I (descend v sel root output fuel directory above s) := by
  induction fuel generalizing directory above s with
  | zero => exact ⟨rfl, hs⟩
  | succ fuel ih =>
    rw [descend, descend]
    cases (v.tree s).locate true directory with
    | error e => exact ⟨rfl, hs⟩
    | ok loc =>
      simp only
      cases v.refusals.reading loc with
      | some e => exact ⟨rfl, hfault _ s hs⟩
      | none =>
        simp only
        refine foldl_congr_of_invariant (fun name _ s hs => ?_) hs
        rw [@inspect_of_linkFree _ sel sel' (hI s hs), hsel.isPruned]
        cases inspect (v.tree s) sel (⟨directory, loc⟩ :: above) (directory.child name) with
        | error fault => exact ⟨rfl, hfault fault s hs⟩
        | ok found =>
          cases found with
          | none => exact ⟨rfl, hs⟩
          | some e =>
            simp only [hsel.supports]
            cases isPruned sel root (directory.child name) name with
            | true => exact ⟨rfl, hs⟩
            | false =>
              cases e with
              | directory => exact ih hs
              | link target => exact ⟨rfl, hs⟩
              | file content =>
                cases sel.supports (directory.child name) with
                | false => exact ⟨rfl, hs⟩
                | true =>
                  cases (directory.child name).relativeTo? root with
                  | none => exact ⟨rfl, hs⟩
                  | some below => exact ⟨rfl, hfile _ _ s hs⟩

/-- **A walk through a tree without links does not depend on whether links are followed**, as
long as the visitor makes none. -/
theorem run_of_linkFree {s : σ} (hs : I s) :
    run v sel' root output s = run v sel root output s := by
  unfold run
  simp only [@inspectRoot_of_linkFree _ sel sel' (hI s hs), hsel.supports,
    (descend_of_linkFree hsel hI hfile hfault hs).1]

end Unlinked

theorem finds_of_linkFree (hsel : SameFiles sel sel') (hlinks : t.LinkFree) (root output : Path) :
    finds t sel' root output = finds t sel root output := by
  unfold finds
  rw [@run_of_linkFree _ (recorder t) sel sel' root output hsel (fun _ => True)
    (fun _ _ => hlinks) (fun _ _ _ _ => trivial) (fun _ _ _ => trivial) [] trivial]

end Walk

namespace Batch

variable {b : Batch} {snapshot : Option Cache} {t u : FileTree} {p : Progress Books}
  {root o : Path} {output : Option Path} {l lo : Location} {schedule : Schedule Books}
  {order : List (Path × Path)} {base : Location} {J : FileTree → Prop}

/-! ## Runs -/

theorem linkFree_writeOutput (h : t.LinkFree) (o : Path) (text : String) :
    (writeOutput t o text).1.LinkFree := by
  have habove : (makeAbove t o).1.LinkFree := by
    unfold makeAbove
    split
    · exact h
    · exact h.createDirectories _
  rcases tree_writeOutput t o text with hsame | hwrite
  · rwa [hsame]
  · exact habove.writeText hwrite

/-- A visit makes no link. -/
theorem linkFree_visit (h : t.LinkFree) (input output : Path) :
    (b.visit snapshot t input output).1.LinkFree := by
  rcases tree_visit b snapshot t input output with hsame | ⟨-, result, hwrite⟩
  · rwa [hsame]
  · rw [hwrite]
    exact linkFree_writeOutput h output result

/-- The batch that works on the files of a root at once, or in turn. -/
def paced (b : Batch) (concurrently : Bool) : Batch :=
  { b with selection := { b.selection with concurrently := concurrently } }

/-- The batch that passes over links. -/
def passing (b : Batch) : Batch :=
  { b with selection := { b.selection with followLinks := false } }

/-- Visits do not depend on the selection. -/
theorem visitAll_selection (sel : Selection) :
    Batch.visitAll { b with selection := sel } snapshot t order = b.visitAll snapshot t order := by
  induction order generalizing t with
  | nil => rfl
  | cons pair rest ih =>
    rw [visitAll_cons, visitAll_cons, ih]
    rfl

theorem rejection?_passing (h : t.LinkFree) (root : Path) :
    b.passing.rejection? t root = b.rejection? t root := by
  unfold rejection?
  cases hentry : t.entryAt false root with
  | error e => rfl
  | ok e =>
    simp only [Walk.isLink_of_entryAt h hentry]
    rfl

/-- **In a tree without links, it makes no difference to the run over a root whether links are
followed.** -/
theorem runRoot_passing (h : p.tree.LinkFree) :
    b.passing.runRoot snapshot output p root schedule =
      b.runRoot snapshot output p root schedule := by
  have hsel : Walk.SameFiles b.selection b.passing.selection := ⟨rfl, rfl⟩
  unfold runRoot
  rw [rejection?_passing h]
  cases b.rejection? p.tree root with
  | some f => rfl
  | none =>
    unfold Work.enumerate
    simp only [show b.passing.selection.concurrently = b.selection.concurrently from rfl]
    cases b.selection.concurrently with
    | true =>
      simp only [if_true, Work.atOnce, Walk.finds_of_linkFree hsel h]
      rfl
    | false =>
      refine @Walk.run_of_linkFree _ (b.visitor snapshot) _ _ _ _ hsel
        (fun p => p.tree.LinkFree) (fun _ hp => hp) (fun input output p hp => ?_)
        (fun f p hp => hp) p h
      have htree : ((b.visitor snapshot).file input output p).tree =
          (b.visit snapshot p.tree input output).1 :=
        (accounts_advance b snapshot input output p).tree
      rw [htree]
      exact linkFree_visit hp input output

/-! ## The visits of one root -/

/-- The visits of one root have nothing to do with each other, and the trees that they leave,
of which something holds, are alike for the walk. -/
structure Steady (b : Batch) (snapshot : Option Cache) (output : Option Path) (t : FileTree)
    (root : Path) (base : Location) (J : FileTree → Prop) : Prop where
  /-- The tree stands for a disk. -/
  wellFormed : t.WellFormed
  /-- What is left is alike for the walk. -/
  alike : ∀ u, J u → Walk.Alike base t u
  /-- There are no links in it. -/
  linkFree : ∀ u, J u → u.LinkFree
  /-- The root is not outside. -/
  below : ∀ {lr}, t.locate true root = .ok lr → base <+: lr
  /-- Every visit keeps to it. -/
  step : ∀ pair ∈ Walk.files (Walk.finds t b.selection root (output.getD root)), ∀ u, J u →
    J (b.visit snapshot u pair.1 pair.2).1
  /-- It holds of the tree. -/
  start : J t
  /-- Visits are independent. -/
  independent : ∀ first ∈ Walk.files (Walk.finds t b.selection root (output.getD root)),
    ∀ second ∈ Walk.files (Walk.finds t b.selection root (output.getD root)), first ≠ second →
      Independent t first second

namespace Steady

theorem visitAll (h : Steady b snapshot output t root base J)
    (horder : ∀ pair ∈ order,
      pair ∈ Walk.files (Walk.finds t b.selection root (output.getD root))) (hu : J u) :
    J (b.visitAll snapshot u order).1 := by
  induction order generalizing u with
  | nil => exact hu
  | cons pair rest ih =>
    rw [visitAll_cons]
    exact ih (fun x hx => horder x (List.mem_cons_of_mem _ hx))
      (h.step pair (horder pair List.mem_cons_self) u hu)

/-- **The run over the root visits the files that there are to find.** -/
theorem accounts (h : Steady b snapshot output p.tree root base J)
    (hlinks : b.selection.followLinks = false) (hfair : schedule.IsFair) :
    Accounts b snapshot (b.orderOf p.tree output (root, schedule))
      (b.notices p.tree output root) p (b.runRoot snapshot output p root schedule) :=
  @accounts_runRoot b snapshot .none output (root, schedule) hfair p J base h.wellFormed h.alike
    (.inl hlinks) h.below h.step h.start

/-- What the run over the root leaves. -/
theorem left (h : Steady b snapshot output p.tree root base J)
    (hlinks : b.selection.followLinks = false) (hfair : schedule.IsFair) :
    (b.runRoot snapshot output p root schedule).tree.WellFormed ∧
      (b.runRoot snapshot output p root schedule).tree.LinkFree ∧
      Grows p.tree (b.runRoot snapshot output p root schedule).tree := by
  rw [(h.accounts hlinks hfair).tree]
  have hfound : ∀ pair ∈ b.orderOf p.tree output (root, schedule),
      pair ∈ Walk.files (Walk.finds p.tree b.selection root (output.getD root)) :=
    fun pair hpair => ((@mem_orderOf b p.tree .none output (root, schedule) hfair pair).1 hpair).2
  have hleft := h.visitAll hfound h.start
  exact ⟨(h.alike _ hleft).wellFormed, h.linkFree _ hleft, (h.alike _ hleft).grows⟩

end Steady

/-! ## What is found -/

/-- A file that a walk finds stands below the root, by names that settle the path of its
result as well. -/
theorem exists_names_of_mem_files (ht : t.WellFormed) (hfollow : b.selection.followLinks = false)
    (hroot : root.Proper) {output : Path} {pair : Path × Path}
    (h : pair ∈ Walk.files (Walk.finds t b.selection root output)) :
    ∃ lr names content, t.locate true root = .ok lr ∧
      pair = (root.below names, Walk.target t root output names) ∧
      t.locate true pair.1 = .ok (lr ++ names) ∧
      t.lookup (lr ++ names) = some (.file content) := by
  obtain ⟨lr, names, hlr, heligible, hinput, houtput⟩ :=
    (Walk.mem_files_finds ht hfollow hroot).1 h
  have hlr' := heligible.locate_root ht hlr
  obtain ⟨content, hfile⟩ := heligible.file
  exact ⟨lr, names, content, hlr', Prod.ext hinput houtput, hinput ▸ heligible.locate ht hlr',
    by simpa using hfile⟩

theorem slashFree_below (ht : t.WellFormed) (hroot : root.Proper) {lr : Location}
    {names : List String} {e : Entry} (he : t.lookup (lr ++ names) = some e) :
    ∀ s ∈ (root.below names).segments, '/' ∉ s.toList := by
  by_cases hnil : names = []
  · rw [hnil]
    exact hroot.slashFree
  · exact Cache.slashFree_below (fun s hs => ht.isName he s (by simp [hs])) hnil hroot

/-- No file is on the way to another. -/
theorem not_prefix_of_files (ht : t.WellFormed) {l l' : Location} {content content' : ByteArray}
    (h : t.lookup l = some (.file content)) (h' : t.lookup l' = some (.file content'))
    (hne : l ≠ l') : ¬l <+: l' := by
  rintro ⟨more, rfl⟩
  have hmore : more ≠ [] := by
    rintro rfl
    simp at hne
  rw [ht.directory_of_prefix hmore h'] at h
  simp at h

/-! ## In place -/

/-- A file that is written over is its own place. -/
theorem exists_site_self (ht : t.WellFormed) (hlinks : t.LinkFree) {p : Path}
    (hp : t.locate true p = .ok l) {content : ByteArray}
    (hfile : t.lookup l = some (.file content)) (hslash : ∀ s ∈ p.segments, '/' ∉ s.toList) :
    ∃ above s, Site t (p, p) l above s ∧ l = above ++ [s] := by
  obtain ⟨front, s, above, hsegments, hs, hfront, -⟩ := FileTree.exists_name_of_file ht hp hfile
  have hends : t.EndsIn p above s := ⟨⟨front, hsegments, .of_reaches hfront⟩, hs⟩
  exact ⟨above, s, ⟨hp, ⟨content, hfile⟩, hends, hslash⟩, (hends.leadsTo hlinks).eq_of_locate hp⟩

/-- A visit in place keeps the shape of the tree, also if nothing is to be written. -/
theorem sameShape_visit_in_place (ht : t.WellFormed) (p : Path) :
    SameShape t (b.visit snapshot t p p).1 ∧ (b.visit snapshot t p p).1.WellFormed := by
  cases hdry : b.dryRun with
  | false => exact sameShape_visit_self ht hdry p
  | true =>
    rcases tree_visit b snapshot t p p with hsame | ⟨hnot, -⟩
    · rw [hsame]
      exact ⟨.refl t, ht⟩
    · simp [hdry] at hnot

/-- **In place, the visits of one root are independent.** -/
theorem steady_in_place (ht : t.WellFormed) (hlinks : t.LinkFree)
    (hfollow : b.selection.followLinks = false) (hroot : root.Proper) :
    Steady b snapshot none t root [] fun u => SameShape t u ∧ u.WellFormed where
  wellFormed := ht
  alike := fun u hu => Walk.alike_of_sameShape hu.2 hu.1
  linkFree := by
    rintro u ⟨hshape, -⟩ l target hlink
    have htarget := hshape.lookup l
    rw [hlink] at htarget
    exact hlinks l target (by simpa using htarget.symm)
  below := fun _ => List.nil_prefix
  step := by
    rintro pair hpair u ⟨hshape, hu⟩
    rw [Walk.output_eq_of_mem_files ht hroot hpair]
    obtain ⟨hshape', hu'⟩ := @sameShape_visit_in_place b snapshot u hu pair.1
    exact ⟨hshape.trans hshape', hu'⟩
  start := ⟨.refl t, ht⟩
  independent := by
    rintro ⟨p, o⟩ hfirst ⟨p', o'⟩ hsecond hne
    obtain rfl : o = p := Walk.output_eq_of_mem_files ht hroot hfirst
    obtain rfl : o' = p' := Walk.output_eq_of_mem_files ht hroot hsecond
    obtain ⟨lr, names, content, hlr, hpair, hlocate, hfile⟩ :=
      exists_names_of_mem_files ht hfollow hroot hfirst
    obtain ⟨lr', names', content', hlr', hpair', hlocate', hfile'⟩ :=
      exists_names_of_mem_files ht hfollow hroot hsecond
    obtain rfl : lr = lr' := Except.ok.inj (hlr.symm.trans hlr')
    have hplaces : lr ++ names ≠ lr ++ names' := by
      intro heq
      rw [List.append_cancel_left heq, ← hpair'] at hpair
      exact hne hpair
    have hpath : o = root.below names := congrArg Prod.fst hpair
    have hpath' : o' = root.below names' := congrArg Prod.fst hpair'
    obtain ⟨above, s, hsite, hl⟩ := exists_site_self ht hlinks hlocate hfile
      (hpath ▸ slashFree_below ht hroot hfile)
    obtain ⟨above', s', hsite', hl'⟩ := exists_site_self ht hlinks hlocate' hfile'
      (hpath' ▸ slashFree_below ht hroot hfile')
    rw [hl, hl'] at hplaces
    refine ⟨_, above, s, _, above', s', hsite, hsite', ?_, ?_, ?_, ?_⟩
    · rw [hl']
      exact hplaces.symm
    · rw [hl]
      exact hplaces
    · exact not_prefix_of_files ht (hl ▸ hfile) (hl' ▸ hfile') hplaces
    · exact not_prefix_of_files ht (hl' ▸ hfile') (hl ▸ hfile) hplaces.symm

/-! ## Under an output root -/

section Apart

variable {lr : Location} {sel : Selection} {pair : Path × Path} {names : List String}
  (hapart : Apart t root o lr lo)
include hapart

/-- The result of a file below the root has a place below the output root. -/
theorem Placed.exists_site (h : Placed t sel root o lr lo pair names l) (hne : names ≠ []) :
    ∃ above s, Site t pair (lr ++ names) above s ∧ lo ++ names = above ++ [s] := by
  obtain ⟨front, s, rfl⟩ := (List.eq_nil_or_concat names).resolve_left hne
  rw [List.concat_eq_append] at h hne ⊢
  have hnames := h.isName hapart
  have hfront : ∀ x ∈ front, Path.IsPlain x := fun x hx => (hnames x (by simp [hx])).1
  have houtput : pair.2 = ⟨o.rooted, o.stem ++ (front ++ [s])⟩ := by
    rw [h.output_eq, Walk.target, if_neg hne, Path.join_eq rfl]
  refine ⟨lo ++ front, s, ⟨h.locate_input hapart, by simpa using h.eligible.file, ?_,
    h.proper.slashFree⟩, (List.append_assoc _ _ _).symm⟩
  refine ⟨⟨o.stem ++ front, by rw [houtput, List.append_assoc], ?_⟩, (hnames s (by simp)).1⟩
  rw [houtput]
  exact hapart.writes.below hfront (hapart.straight _) rfl rfl

/-- **Under an output root that lies apart, the visits of one root are independent.** -/
theorem steady_apart (hlinks : t.LinkFree) (hfollow : b.selection.followLinks = false) :
    Steady b snapshot (some o) t root lr (Adds lo t) where
  wellFormed := hapart.wellFormed
  alike := fun u hu => hapart.alike hu
  linkFree := fun u hu l target hlink => hlinks l target (hu.links hlink)
  below := by
    intro lr' hlr'
    obtain rfl := Except.ok.inj (hlr'.symm.trans hapart.reads)
    exact List.prefix_refl _
  step := by
    intro pair hpair u hu
    obtain ⟨names, l, hplaced⟩ := exists_placed hapart hfollow hpair
    exact (adds_visit hu hplaced.leads hplaced.below hplaced.proper pair.1).1
  start := .refl hapart.wellFormed lo
  independent := by
    intro first hfirst second hsecond hne
    obtain ⟨names, l, hplaced⟩ := exists_placed hapart hfollow hfirst
    obtain ⟨names', l', hplaced'⟩ := exists_placed hapart hfollow hsecond
    have hnames : names ≠ names' := by
      rintro rfl
      refine hne (Prod.ext ?_ ?_)
      · rw [hplaced.input_eq, hplaced'.input_eq]
      · rw [hplaced.output_eq, hplaced'.output_eq]
    -- a root that is a file is the only one
    have hnil := hplaced.nil_iff hapart hplaced'
    have hne₁ : names ≠ [] := fun h => hnames (h.trans (hnil.1 h).symm)
    have hne₂ : names' ≠ [] := mt hnil.2 hne₁
    obtain ⟨above, s, hsite, hplace⟩ := hplaced.exists_site hapart hne₁
    obtain ⟨above', s', hsite', hplace'⟩ := hplaced'.exists_site hapart hne₂
    obtain ⟨content, hfile⟩ := hsite.file
    obtain ⟨content', hfile'⟩ := hsite'.file
    have hsources : lr ++ names ≠ lr ++ names' := fun heq =>
      hnames (List.append_cancel_left heq)
    have hapart' : ∀ names names' : List String, lr ++ names ≠ lo ++ names' := by
      intro names names' heq
      exact hapart.not_prefix (List.prefix_append lr names) (heq ▸ List.prefix_append lo names')
    refine ⟨_, above, s, _, above', s', hsite, hsite', ?_, ?_, ?_, ?_⟩
    · exact hplace ▸ hapart' names' names
    · exact hplace' ▸ hapart' names names'
    · rw [← hplace, ← hplace', List.prefix_append_right_inj, ← List.prefix_append_right_inj lr]
      exact not_prefix_of_files hapart.wellFormed hfile hfile' hsources
    · rw [← hplace, ← hplace', List.prefix_append_right_inj, ← List.prefix_append_right_inj lr]
      exact not_prefix_of_files hapart.wellFormed hfile' hfile hsources.symm

end Apart

/-- **The output root is apart from every root**: it leads to a location, now or when its
directories are made, which is neither below nor above the one that a root spells. -/
structure Separate (t : FileTree) (o : Path) (roots : List Path) : Prop where
  /-- The output root is a path that a text spells. -/
  proper : o.Proper
  /-- It leads to the location that it spells. -/
  leads : t.LeadsTo o (t.spelled o)
  /-- It is not below a root. -/
  notBelow : ∀ root ∈ roots, ¬t.spelled root <+: t.spelled o
  /-- It is not above a root. -/
  notAbove : ∀ root ∈ roots, ¬t.spelled o <+: t.spelled root

theorem spelled_of_grows (hu : Grows t u) (p : Path) : u.spelled p = t.spelled p := by
  unfold FileTree.spelled FileTree.start
  rw [hu.workingDirectory]

theorem Separate.grows {roots : List Path} (h : Separate t o roots) (hu : Grows t u)
    (hlinks : u.LinkFree) : Separate u o roots := by
  have hleads := h.leads.grows hu fun hlink => absurd hlink (hlinks _ _)
  refine ⟨h.proper, ?_, ?_, ?_⟩
  · rwa [spelled_of_grows hu]
  · simpa only [spelled_of_grows hu] using h.notBelow
  · simpa only [spelled_of_grows hu] using h.notAbove

/-- **The visits of one root are independent**, in place or under an output root. -/
theorem exists_steady (ht : t.WellFormed) (hlinks : t.LinkFree)
    (hfollow : b.selection.followLinks = false) (hroot : root.Proper) {roots : List Path}
    (houtput : ∀ o, output = some o → Separate t o roots) (hmem : root ∈ roots) :
    ∃ base J, Steady b snapshot output t root base J := by
  cases output with
  | none => exact ⟨_, _, steady_in_place ht hlinks hfollow hroot⟩
  | some o =>
    have hseparate := houtput o rfl
    cases hlr : t.locate true root with
    | ok lr =>
      have hspelled : lr = t.spelled root :=
        (FileTree.locate_eq_ok_iff.1 hlr).2.eq_spelled hlinks
      have hapart : Apart t root o lr (t.spelled o) := by
        refine ⟨ht, hroot, hseparate.proper, hlr, hseparate.leads, ?_, ?_, fun l target _ =>
          hlinks l target⟩
        · exact fun h => hseparate.notBelow root hmem (hspelled ▸ h)
        · exact fun h => hseparate.notAbove root hmem (hspelled ▸ h)
      exact ⟨_, _, steady_apart hapart hlinks hfollow⟩
    | error e =>
      -- there is nothing to find
      have hnone : ∀ pair, pair ∉ Walk.files (Walk.finds t b.selection root o) := by
        intro pair hpair
        obtain ⟨lr, _, _, hlr', _⟩ := exists_names_of_mem_files ht hfollow hroot hpair
        rw [hlr'] at hlr
        simp at hlr
      refine ⟨[], (· = t), ht, ?_, ?_, fun _ => List.nil_prefix, ?_, rfl, ?_⟩
      · rintro u rfl
        exact .refl ht []
      · rintro u rfl
        exact hlinks
      · exact fun pair hpair => absurd hpair (hnone pair)
      · exact fun pair hpair => absurd hpair (hnone pair)

end Batch

end Restyle
