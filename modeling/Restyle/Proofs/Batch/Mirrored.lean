import Restyle.Proofs.Batch.InPlace
import Restyle.Proofs.FileTree.Making
import Restyle.Proofs.Keys

/-!
# Batches under an output root

With an output root that lies apart from the root that is walked, a batch reads below the
one and writes below the other: the files that it finds stay as they are, and each has a
place of its own for its result.

* `adds_writeOutput`: what writing a result can do.  `adds_visit`: so for a visit.
* `exists_placed`, `Placed.inj`: the places of the results.
* `holds_visitAll`: after visits without faults every result is at its place.
-/

namespace Restyle
namespace Batch

open FileTree (Adds Grows SameShape WellFormed IsName)
open Restyle.Path (IsPlain)

variable {b : Batch} {snapshot : Option Cache} {t u left : FileTree} {root output c o : Path}
  {l lr lo : Location} {names : List String} {pair pair' : Path × Path}
  {order : List (Path × Path)} {sel : Selection}

/-! ## Writing below the output root -/

section Writing

variable (h : Adds lo t u) (ho : t.LeadsTo o l) (hlo : lo <+: l) (hproper : o.Proper)
include h ho hlo hproper

/-- Making the directories above a result adds directories where nothing was. -/
theorem adds_makeAbove :
    Adds lo t (makeAbove u o).1 ∧ Grows u (makeAbove u o).1 ∧
      ∀ l', u.lookup l' ≠ none → (makeAbove u o).1.lookup l' = u.lookup l' := by
  unfold makeAbove
  cases hparent : o.parent?.filter (!·.isEmpty) with
  | none => exact ⟨h, .refl u, fun _ _ => rfl⟩
  | some directory =>
    have habove := Path.StartsAs.of_parent? (Option.eq_some_of_filter_eq_some hparent)
    refine FileTree.makeDirectories_induction (J := fun v => Adds lo t v ∧ Grows u v ∧
      ∀ l', u.lookup l' ≠ none → v.lookup l' = u.lookup l') ?_ ⟨h, .refl u, fun _ _ => rfl⟩
    rintro q hq v v' ⟨hadds, hgrows, hkept⟩ hmade
    have hstarts := habove.trans (Path.startsAs_of_mem_ancestors hq)
    obtain ⟨hadds', ld, hnone, rfl⟩ := hadds.makeDirectory ho hlo hproper hstarts hmade
    refine ⟨hadds', hgrows.trans (.put (.inl hnone)), fun l' hl' => ?_⟩
    have hne : l' ≠ ld := by
      rintro rfl
      exact hl' (by rw [← hkept l' hl', hnone])
    rw [FileTree.lookup_put_of_ne _ _ hne, hkept l' hl']

/-- **What writing a result does.**  It adds to the tree, it changes nothing that is there
but the result itself, and if it succeeds the result is at its place. -/
theorem adds_writeOutput (text : String) :
    Adds lo t (writeOutput u o text).1 ∧ Grows u (writeOutput u o text).1 ∧
      (∀ l', u.lookup l' ≠ none → l' ≠ l → (writeOutput u o text).1.lookup l' = u.lookup l') ∧
      ((writeOutput u o text).2 = none → (writeOutput u o text).1.readText o = .ok text) := by
  obtain ⟨hadds, hgrows, hkept⟩ := adds_makeAbove h ho hlo hproper
  rcases writeOutput_cases u o text with
    ⟨e, f, hmade, hfault⟩ | ⟨made, hmade, ⟨e, f, -, hwrite⟩ | ⟨u', hu', hwrite⟩⟩
  · rw [hmade] at hadds hgrows hkept
    exact ⟨hadds, hgrows, fun l' hl' _ => hkept l' hl', fun hnone => by simp [hnone] at hfault⟩
  · rw [hmade] at hadds hgrows hkept
    rw [hwrite]
    exact ⟨hadds, hgrows, fun l' hl' _ => hkept l' hl', fun hnone => by simp at hnone⟩
  · rw [hmade] at hadds hgrows hkept
    rw [hwrite]
    obtain ⟨hadds', hput, hlocate, hfile⟩ := hadds.writeText ho hlo hproper hu'
    obtain ⟨-, -, -, -, -, hgrows', -⟩ := FileTree.writeText_eq_ok hadds.wellFormed hproper hu'
    refine ⟨hadds', hgrows.trans hgrows', fun l' hl' hne => ?_,
      fun _ => FileTree.readText_eq_ok_iff.2 ⟨l, hlocate, hfile⟩⟩
    rw [hput, FileTree.lookup_put_of_ne _ _ hne, hkept l' hl']

/-- **What a visit does** to the tree. -/
theorem adds_visit (input : Path) :
    Adds lo t (b.visit snapshot u input o).1 ∧ Grows u (b.visit snapshot u input o).1 ∧
      ∀ l', u.lookup l' ≠ none → l' ≠ l →
        (b.visit snapshot u input o).1.lookup l' = u.lookup l' := by
  rcases tree_visit b snapshot u input o with hsame | ⟨-, result, hwrite⟩
  · rw [hsame]
    exact ⟨h, .refl u, fun _ _ _ => rfl⟩
  · rw [hwrite]
    obtain ⟨hadds, hgrows, hkept, -⟩ := adds_writeOutput h ho hlo hproper result
    exact ⟨hadds, hgrows, hkept⟩

end Writing

/-! ## Roots that lie apart -/

/-- The root that is walked leads to a location, the output root leads to another one, now
or when its directories are made, and neither location is below the other.  No link stands
at the output root or below it. -/
structure Apart (t : FileTree) (root output : Path) (lr lo : Location) : Prop where
  /-- The tree stands for a disk. -/
  wellFormed : t.WellFormed
  /-- The root is a path that a text spells. -/
  properRoot : root.Proper
  /-- So is the output root. -/
  properOutput : output.Proper
  /-- Where the root leads. -/
  reads : t.locate true root = .ok lr
  /-- Where the output root leads. -/
  writes : t.LeadsTo output lo
  /-- The output root is not below the root. -/
  notBelow : ¬lr <+: lo
  /-- The root is not below the output root. -/
  notAbove : ¬lo <+: lr
  /-- Nothing that is written goes elsewhere. -/
  noLinks : ∀ l target, lo <+: l → t.lookup l ≠ some (.link target)

namespace Apart

variable (h : Apart t root output lr lo)
include h

theorem not_prefix (hl : lr <+: l) : ¬lo <+: l := fun hlo =>
  (List.prefix_or_prefix_of_prefix hl hlo).elim h.notBelow h.notAbove

/-- What is added below the output root makes no difference to the walk. -/
theorem alike (hu : Adds lo t u) : Walk.Alike lr t u := by
  refine ⟨hu.wellFormed, hu.grows, fun {l} hl => ?_⟩
  rcases hu.elsewhere (h.not_prefix hl) with hsame | ⟨-, -, hlo⟩
  · rw [hsame]
  · exact absurd (hl.trans hlo) h.notBelow

theorem straight (names : List String) : t.Straight lo names :=
  fun _ target _ _ => h.noLinks _ target (List.prefix_append _ _)

end Apart

/-- A file that a walk finds: the names that lead to it from the root, and the place of its
result. -/
structure Placed (t : FileTree) (sel : Selection) (root output : Path) (lr lo : Location)
    (pair : Path × Path) (names : List String) (l : Location) : Prop where
  /-- The file is found. -/
  eligible : Walk.Eligible t sel root lr [] names
  /-- The names lead to it. -/
  input_eq : pair.1 = root.below names
  /-- They settle the path of its result as well. -/
  output_eq : pair.2 = Walk.target t root output names
  /-- The path of the result leads to the place. -/
  leads : t.LeadsTo pair.2 l
  /-- The place is below the output root. -/
  below : lo <+: l
  /-- The path of the result is one that a text spells. -/
  proper : pair.2.Proper
  /-- Below a directory, the place goes by the names. -/
  place : names ≠ [] → l = lo ++ names

theorem isName_of_fileName? {name : String} (hroot : root.Proper)
    (h : root.fileName? = some name) : IsName name := by
  unfold Path.fileName? at h
  split at h
  swap
  · simp at h
  rename_i s hlast
  obtain rfl : s = name := Option.some.inj h
  have hmem := List.mem_of_getLast? hlast
  rw [Path.components_eq, List.mem_append] at hmem
  have hsegment : Component.name s ∈ root.segments.filterMap Path.component? := by
    refine hmem.resolve_left fun hlead => ?_
    unfold Path.lead at hlead
    split_ifs at hlead <;> simp at hlead
  obtain ⟨x, hx, hcomponent⟩ := List.mem_filterMap.1 hsegment
  unfold Path.component? at hcomponent
  split_ifs at hcomponent with hidle hup
  · simp at hcomponent
  · obtain rfl : x = s := by simpa using hcomponent
    exact ⟨⟨by simpa using hidle, by simpa using hup⟩, hroot.slashFree x hx⟩

theorem proper_of_names (houtput : output.Proper) (hnames : ∀ s ∈ names, IsName s)
    (hne : names ≠ []) : Path.Proper ⟨output.rooted, output.stem ++ names⟩ := by
  have hslash := Cache.slashFree_below hnames hne houtput
  rw [Cache.below_eq_of_isName hnames hne] at hslash
  refine ⟨by simp [hne], hslash, fun hrooted hhead => ?_⟩
  -- an empty segment in front would have been the only one
  exfalso
  simp only at hrooted hhead
  cases hstem : output.stem with
  | nil =>
    rw [hstem, List.nil_append] at hhead
    exact absurd (hnames "" (List.mem_of_head? hhead)).1.1 (by decide)
  | cons first rest =>
    rw [hstem] at hhead
    obtain rfl : first = "" := by simpa using hhead
    unfold Path.stem at hstem
    have hfirst : output.segments.head? = some "" := by
      split_ifs at hstem with hlast
      · obtain ⟨front, hfront⟩ : ∃ front, output.segments = front ++ [""] :=
          List.getLast?_eq_some_iff.1 (by simpa using hlast)
        rw [hfront, List.dropLast_concat] at hstem
        simp [hfront, hstem]
      · simp [hstem]
    rw [houtput.head hrooted hfirst] at hstem
    simp at hstem

/-- **Every file that is found has a place for its result.** -/
theorem exists_placed (h : Apart t root output lr lo) (hlinks : sel.followLinks = false)
    (hpair : pair ∈ Walk.files (Walk.finds t sel root output)) :
    ∃ names l, Placed t sel root output lr lo pair names l := by
  obtain ⟨input, o⟩ := pair
  obtain ⟨lr', names, hlr', heligible, hinput, ho⟩ :=
    (Walk.mem_files_finds h.wellFormed hlinks h.properRoot).1 hpair
  obtain rfl : lr' = lr :=
    Except.ok.inj ((heligible.locate_root h.wellFormed hlr').symm.trans h.reads)
  have hplace : ∀ {more : List String}, (∀ s ∈ more, IsName s) → more ≠ [] →
      t.LeadsTo ⟨output.rooted, output.stem ++ more⟩ (lo ++ more) ∧
        Path.Proper ⟨output.rooted, output.stem ++ more⟩ := fun hmore hne =>
    ⟨h.writes.below (fun s hs => (hmore s hs).1) (h.straight _) rfl rfl,
      proper_of_names h.properOutput hmore hne⟩
  have hnames : ∀ s ∈ names, IsName s := by
    obtain ⟨content, hfile⟩ := heligible.file
    exact fun s hs => h.wellFormed.isName hfile s (by simp [hs])
  by_cases hnil : names = []
  · -- a root that is a file: the output root is the result, or a directory for it
    have hsingle : (∃ name, IsName name ∧ o = ⟨output.rooted, output.stem ++ [name]⟩) ∨
        o = output := by
      rw [ho, Walk.target, if_pos hnil, Walk.singleTarget]
      split
      · rename_i name hname
        split_ifs
        · exact .inl ⟨name, isName_of_fileName? h.properRoot hname, Path.child_eq output name⟩
        · exact .inr rfl
      · exact .inr rfl
    rcases hsingle with ⟨name, hname, hchild⟩ | hself
    · obtain ⟨hleads, hproper⟩ := @hplace [name] (by simpa using hname) (by simp)
      exact ⟨names, lo ++ [name], heligible, hinput, ho, hchild ▸ hleads, List.prefix_append _ _,
        hchild ▸ hproper, fun hne => absurd hnil hne⟩
    · exact ⟨names, lo, heligible, hinput, ho, hself ▸ h.writes, List.prefix_refl _,
        hself ▸ h.properOutput, fun hne => absurd hnil hne⟩
  · have hjoin : o = ⟨output.rooted, output.stem ++ names⟩ := by
      rw [ho, Walk.target, if_neg hnil, Path.join_eq rfl]
    obtain ⟨hleads, hproper⟩ := hplace hnames hnil
    exact ⟨names, lo ++ names, heligible, hinput, ho, hjoin ▸ hleads, List.prefix_append _ _,
      hjoin ▸ hproper, fun _ => rfl⟩

namespace Placed

variable (hapart : Apart t root output lr lo) (h : Placed t sel root output lr lo pair names l)
include hapart h

theorem isName : ∀ s ∈ names, IsName s := by
  obtain ⟨content, hfile⟩ := h.eligible.file
  exact fun s hs => hapart.wellFormed.isName hfile s (by simp [hs])

/-- The root is one file, or all files are below it. -/
theorem nil_iff {names' : List String} {l' : Location}
    (h' : Placed t sel root output lr lo pair' names' l') : names = [] ↔ names' = [] := by
  rcases h.eligible.lookup_front hapart.wellFormed with ⟨hne, hdir⟩ | ⟨hnil, content, hfile⟩ <;>
    rcases h'.eligible.lookup_front hapart.wellFormed with ⟨hne', hdir'⟩ | ⟨hnil', content', hfile'⟩
  · simp [hne, hne']
  · rw [hdir] at hfile'
    simp at hfile'
  · rw [hfile] at hdir'
    simp at hdir'
  · simp [hnil, hnil']

/-- **No two files have one place for their results.** -/
theorem inj {names' : List String} (h' : Placed t sel root output lr lo pair' names' l) :
    pair = pair' := by
  have hnil := h.nil_iff hapart h'
  have hnames : names = names' := by
    by_cases hne : names = []
    · rw [hne, hnil.1 hne]
    · exact List.append_cancel_left ((h.place hne).symm.trans (h'.place (mt hnil.2 hne)))
  ext1
  · rw [h.input_eq, h'.input_eq, hnames]
  · rw [h.output_eq, h'.output_eq, hnames]

theorem locate_input : t.locate true pair.1 = .ok (lr ++ names) := by
  rw [h.input_eq]
  exact h.eligible.locate hapart.wellFormed hapart.reads

/-- No file is its own result. -/
theorem same_eq_false : pair.2.same pair.1 = false := by
  rw [Bool.eq_false_iff]
  intro hsame
  have hl := h.leads.eq_of_same (h.locate_input hapart) hsame
  exact hapart.not_prefix (List.prefix_append lr names) (hl ▸ h.below)

/-- What is added below the output root leaves the file as it is. -/
theorem readText_input (hu : Adds lo t u) : u.readText pair.1 = t.readText pair.1 := by
  have hlocate := h.locate_input hapart
  obtain ⟨content, hfile⟩ := h.eligible.file
  rw [List.nil_append] at hfile
  have hkept := hu.lookup_eq (hapart.not_prefix (List.prefix_append lr names)) hfile
  exact FileTree.readText_congr hlocate (FileTree.locate_of_grows hu.grows hlocate)
    (hkept.trans hfile.symm)

end Placed

/-! ## The first run -/

/-- The result of a file is at its place. -/
def Holds (b : Batch) (t u : FileTree) (pair : Path × Path) : Prop :=
  ∃ source result, t.readText pair.1 = .ok source ∧
    Formatting.format b.style b.rules source = .ok result ∧ u.readText pair.2 = .ok result

section First

variable (hapart : Apart t root output lr lo)
include hapart

/-- A result that is at its place stays there when another file is visited. -/
theorem Holds.visit (h : Placed t sel root output lr lo pair names l) (hu : Adds lo t u)
    {names' : List String} {l' : Location}
    (h' : Placed t sel root output lr lo pair' names' l') (hne : pair ≠ pair')
    (hholds : Holds b t u pair) :
    Holds b t (b.visit snapshot u pair'.1 pair'.2).1 pair := by
  obtain ⟨source, result, hsource, hresult, hread⟩ := hholds
  obtain ⟨-, hgrows, hkept⟩ := @adds_visit b snapshot t u _ l' lo hu h'.leads h'.below h'.proper
    pair'.1
  obtain ⟨l'', hlocate, hfile⟩ := FileTree.readText_eq_ok_iff.1 hread
  obtain rfl : l'' = l := (hu.leadsTo h.leads).eq_of_locate hlocate
  have hplace : l'' ≠ l' := by
    rintro rfl
    exact hne (h.inj hapart h')
  refine ⟨source, result, hsource, hresult, FileTree.readText_eq_ok_iff.2
    ⟨l'', FileTree.locate_of_grows hgrows hlocate, ?_⟩⟩
  rw [hkept l'' (by simp [hfile]) hplace, hfile]

variable (hdry : b.dryRun = false) (hfresh : ∀ p, remembered snapshot p = none)
include hdry hfresh

/-- **A visit without a fault puts the result at its place**, and its length goes into the
cache. -/
theorem holds_visit (h : Placed t sel root output lr lo pair names l) (hu : Adds lo t u)
    (hfault : (b.visit snapshot u pair.1 pair.2).2.outcome.fault? = none) :
    ∃ source result, t.readText pair.1 = .ok source ∧
      Formatting.format b.style b.rules source = .ok result ∧
      (b.visit snapshot u pair.1 pair.2).1.readText pair.2 = .ok result ∧
      (b.visit snapshot u pair.1 pair.2).2.learned = b.entryFor snapshot pair.1 result := by
  rcases visit_cases b snapshot u pair.1 pair.2 with ⟨f, hvisit⟩ |
    ⟨source, result, hsource, hresult, ⟨hthere, hvisit⟩ | ⟨-, ⟨hdry', -⟩ | ⟨-, hvisit⟩⟩⟩
  · simp [hvisit, Outcome.fault?] at hfault
  · rw [h.readText_input hapart hu] at hsource
    rw [hfresh, formatted_none] at hresult
    refine ⟨source, result, hsource, hresult, ?_, by rw [hvisit]; rfl⟩
    rw [hvisit]
    rw [isUpToDate, h.same_eq_false hapart] at hthere
    simp only [Bool.false_eq_true, if_false] at hthere
    split at hthere
    · rename_i existing hexisting
      rw [hexisting, show existing = result by simpa using hthere]
    · simp at hthere
  · simp [hdry] at hdry'
  · rw [h.readText_input hapart hu] at hsource
    rw [hfresh, formatted_none] at hresult
    obtain ⟨-, -, -, hread⟩ := adds_writeOutput hu h.leads h.below h.proper result
    rw [hvisit] at hfault ⊢
    cases hfault' : (writeOutput u pair.2 result).2 with
    | none => exact ⟨source, result, hsource, hresult, hread hfault', rfl⟩
    | some f => simp [hfault', Outcome.fault?] at hfault

variable (hlinks : b.selection.followLinks = false)
include hlinks

/-- **After visits without faults every result is at its place.** -/
theorem holds_visitAll
    (horder : ∀ pair ∈ order, pair ∈ Walk.files (Walk.finds t b.selection root output))
    (hu : Adds lo t u)
    (hfaults : ∀ r ∈ (b.visitAll snapshot u order).2, r.outcome.fault? = none) :
    Adds lo t (b.visitAll snapshot u order).1 ∧
      ∀ pair ∈ Walk.files (Walk.finds t b.selection root output),
        pair ∈ order ∨ Holds b t u pair → Holds b t (b.visitAll snapshot u order).1 pair := by
  induction order generalizing u with
  | nil => exact ⟨hu, fun pair _ h => by simpa using h⟩
  | cons first rest ih =>
    rw [visitAll_cons] at hfaults ⊢
    obtain ⟨names, l, hplaced⟩ := exists_placed hapart hlinks (horder first List.mem_cons_self)
    obtain ⟨hadds, -⟩ := @adds_visit b snapshot t u _ l lo hu hplaced.leads hplaced.below
      hplaced.proper first.1
    obtain ⟨hadds', hholds⟩ := ih (fun x hx => horder x (List.mem_cons_of_mem _ hx)) hadds
      (fun r hr => hfaults r (List.mem_cons_of_mem _ hr))
    refine ⟨hadds', fun pair hpair h => hholds pair hpair ?_⟩
    by_cases hfirst : pair = first
    · subst hfirst
      obtain ⟨source, result, hsource, hresult, hread, -⟩ :=
        holds_visit hapart hdry hfresh hplaced hu (hfaults _ List.mem_cons_self)
      exact .inr ⟨source, result, hsource, hresult, hread⟩
    · rcases h with h | h
      · exact .inl ((List.mem_cons.1 h).resolve_left hfirst)
      · obtain ⟨names', l', hplaced'⟩ := exists_placed hapart hlinks hpair
        exact .inr (h.visit hapart hplaced' hu hplaced hfirst)

/-- What the cache learns from a visit among others: the length of the result. -/
theorem learned_visitAll
    (horder : ∀ pair ∈ order, pair ∈ Walk.files (Walk.finds t b.selection root output))
    (hu : Adds lo t u)
    (hfaults : ∀ r ∈ (b.visitAll snapshot u order).2, r.outcome.fault? = none)
    {before after : List (Path × Path)} (hsplit : order = before ++ pair :: after) :
    ∃ source result, t.readText pair.1 = .ok source ∧
      Formatting.format b.style b.rules source = .ok result ∧
      (b.visit snapshot (b.visitAll snapshot u before).1 pair.1 pair.2).2.learned =
        b.entryFor snapshot pair.1 result := by
  subst hsplit
  rw [visitAll_append] at hfaults
  obtain ⟨hadds, -⟩ := holds_visitAll hapart hdry hfresh hlinks
    (fun x hx => horder x (List.mem_append_left _ hx)) hu
    (fun r hr => hfaults r (List.mem_append_left _ hr))
  obtain ⟨names, l, hplaced⟩ := exists_placed hapart hlinks (horder pair (by simp))
  obtain ⟨source, result, hsource, hresult, -, hlearned⟩ :=
    holds_visit hapart hdry hfresh hplaced hadds
      (hfaults _ (List.mem_append_right _ (by rw [visitAll_cons]; exact List.mem_cons_self)))
  exact ⟨source, result, hsource, hresult, hlearned⟩

end First

/-- A first run under an output root that lies apart, with a cache that holds nothing yet and
a cache file outside both roots.  Nothing goes wrong. -/
structure FirstRun (b : Batch) (t : FileTree) (root output c : Path) (schedule : Schedule Books)
    (lr lo : Location) (left : FileTree) : Prop where
  /-- The roots lie apart. -/
  apart : Apart t root output lr lo
  /-- Links are passed over. -/
  links : b.selection.followLinks = false
  /-- Results are written. -/
  dry : b.dryRun = false
  /-- The cache file counts. -/
  clear : b.clearCache = false
  /-- There is a cache file. -/
  cache : b.cachePath = some c
  /-- Its path is one that a text spells. -/
  proper : c.Proper
  /-- It holds nothing yet. -/
  fresh : Cache.load t c = Cache.empty c
  /-- Every file is worked on. -/
  fair : schedule.IsFair
  /-- What the run leaves. -/
  left_eq : left = (b.runScheduled t [(root, schedule)] (some output)).2
  /-- Nothing goes wrong. -/
  faultless : (b.runScheduled t [(root, schedule)] (some output)).1.faults = []
  /-- The cache file stands outside both roots, and so does a link to it. -/
  outside : ∀ followLast lc, left.locate followLast c = .ok lc → ¬lr <+: lc ∧ ¬lo <+: lc

namespace FirstRun

variable {schedule : Schedule Books}
  (h : FirstRun b t root output c schedule lr lo left)
include h

theorem properCache : b.ProperCache := by
  intro path hpath
  rw [← Option.some.inj (h.cache.symm.trans hpath)]
  exact h.proper

theorem forgotten (p : Path) : remembered (b.snapshot t) p = none :=
  remembered_of_load_eq_empty h.cache (fun _ => h.fresh) p

/-- **The run is a sequence of visits** to the files that there were to find. -/
theorem goes : Goes b (b.snapshot t) (b.orderOf t (some output) (root, schedule))
    ⟨t, { cache := b.snapshot t }, []⟩ (b.reached t [(root, schedule)] (some output)) := by
  refine @goes_runRoot b (b.snapshot t) .none (some output) (root, schedule) h.fair
    ⟨t, { cache := b.snapshot t }, []⟩ (Adds lo t) lr h.apart.wellFormed
    (fun u hu => h.apart.alike hu) (.inl h.links) ?_ ?_ (.refl h.apart.wellFormed lo)
  · intro lr' hlr'
    obtain rfl := Except.ok.inj (hlr'.symm.trans h.apart.reads)
    exact List.prefix_refl _
  · intro pair hpair u hu
    obtain ⟨names, l, hplaced⟩ := exists_placed h.apart h.links hpair
    exact (adds_visit hu hplaced.leads hplaced.below hplaced.proper pair.1).1

/-- What the run has learned is saved. -/
theorem saved : ∃ cache, (b.reached t [(root, schedule)] (some output)).books.cache = some cache ∧
    (b.reached t [(root, schedule)] (some output)).faults = [] ∧
    cache.save (b.reached t [(root, schedule)] (some output)).tree c = .ok left := by
  obtain ⟨cache, hsome⟩ := h.goes.exists_cache (snapshot_eq h.cache t)
  have hfaults := h.faultless
  rw [runScheduled_eq, List.reverse_eq_nil_iff] at hfaults
  obtain ⟨hnone, hsave⟩ := save_of_faultless _ h.dry h.cache hsome hfaults
  refine ⟨cache, hsome, hnone, ?_⟩
  rw [hsave, h.left_eq, runScheduled_eq]

theorem accepted : b.rejection? t root = none := by
  obtain ⟨-, -, hfaults, -⟩ := h.saved
  cases hrejection : b.rejection? t root with
  | none => rfl
  | some f =>
    have hreached : (b.reached t [(root, schedule)] (some output)).faults = [f] := by
      simp only [reached, List.foldl_cons, List.foldl_nil, runRoot, hrejection]
      rfl
    simp [hreached] at hfaults

theorem mem_order (hpair : pair ∈ Walk.files (Walk.finds t b.selection root output)) :
    pair ∈ b.orderOf t (some output) (root, schedule) :=
  (mem_orderOf h.fair).2 ⟨h.accepted, hpair⟩

theorem mem_files (hpair : pair ∈ b.orderOf t (some output) (root, schedule)) :
    pair ∈ Walk.files (Walk.finds t b.selection root output) :=
  ((mem_orderOf h.fair).1 hpair).2

theorem faultless_records :
    ∀ r ∈ (b.visitAll (b.snapshot t) t (b.orderOf t (some output) (root, schedule))).2,
      r.outcome.fault? = none := by
  intro r hr
  obtain ⟨-, -, hfaults, -⟩ := h.saved
  obtain ⟨more, hmore, hreported⟩ := h.goes.faults
  obtain rfl : more = [] := by simpa [hfaults] using hmore.symm
  cases hfault : r.outcome.fault? with
  | none => rfl
  | some f => simpa using hreported r hr f hfault

/-- **Every result is at its place** before the cache is saved. -/
theorem holds_reached : Adds lo t (b.reached t [(root, schedule)] (some output)).tree ∧
    ∀ pair ∈ Walk.files (Walk.finds t b.selection root output),
      Holds b t (b.reached t [(root, schedule)] (some output)).tree pair := by
  rw [h.goes.tree]
  obtain ⟨hadds, hholds⟩ := holds_visitAll h.apart h.dry h.forgotten h.links
    (fun _ hpair => h.mem_files hpair) (.refl h.apart.wellFormed lo) h.faultless_records
  exact ⟨hadds, fun pair hpair => hholds pair hpair (.inl (h.mem_order hpair))⟩

/-! ### What the run leaves -/

/-- The run ends with writing the cache file. -/
theorem written_cache : ∃ lc, left.WellFormed ∧
    Grows (b.reached t [(root, schedule)] (some output)).tree left ∧
    left.locate true c = .ok lc ∧ (∃ content, left.lookup lc = some (.file content)) ∧
    ∀ l, l ≠ lc → left.lookup l = (b.reached t [(root, schedule)] (some output)).tree.lookup l := by
  obtain ⟨cache, -, -, hsave⟩ := h.saved
  unfold Cache.save at hsave
  split at hsave
  · rename_i hwrite
    obtain rfl := Except.ok.inj hsave
    obtain ⟨lc, hput, hlc, hfile, hwell, hgrows, -⟩ :=
      FileTree.writeText_eq_ok h.holds_reached.1.wellFormed h.proper hwrite
    refine ⟨lc, hwell, hgrows, hlc, ⟨_, hfile⟩, fun l hl => ?_⟩
    rw [hput, FileTree.lookup_put_of_ne _ _ hl]
  · simp at hsave

/-- Nothing changes below the two roots when the cache file is written. -/
theorem lookup_left (hl : lr <+: l ∨ lo <+: l) :
    left.lookup l = (b.reached t [(root, schedule)] (some output)).tree.lookup l := by
  obtain ⟨lc, -, -, hlc, -, hother⟩ := h.written_cache
  obtain ⟨hroot, houtput⟩ := h.outside true lc hlc
  refine hother l ?_
  rintro rfl
  exact hl.elim hroot houtput

theorem alike_left : Walk.Alike lr t left := by
  obtain ⟨-, hwell, hgrows, -⟩ := h.written_cache
  have halike := h.apart.alike h.holds_reached.1
  refine ⟨hwell, halike.grows.trans hgrows, fun {l} hl => ?_⟩
  rw [h.lookup_left (.inl hl)]
  exact halike.shape hl

/-- The files that were read are as they were. -/
theorem readText_left (hplaced : Placed t b.selection root output lr lo pair names l) :
    left.readText pair.1 = t.readText pair.1 := by
  obtain ⟨-, -, hgrows, -⟩ := h.written_cache
  have hadds := h.holds_reached.1
  rw [← hplaced.readText_input h.apart hadds]
  have hlocate := FileTree.locate_of_grows hadds.grows (hplaced.locate_input h.apart)
  exact FileTree.readText_congr hlocate (FileTree.locate_of_grows hgrows hlocate)
    (h.lookup_left (.inl (List.prefix_append lr names)))

/-- **Every result is at its place** at the end. -/
theorem place_left (hpair : pair ∈ Walk.files (Walk.finds t b.selection root output))
    (hplaced : Placed t b.selection root output lr lo pair names l) :
    ∃ source result, t.readText pair.1 = .ok source ∧
      Formatting.format b.style b.rules source = .ok result ∧
      left.locate true pair.2 = .ok l ∧ left.lookup l = some (.file result.toUTF8) := by
  obtain ⟨-, -, hgrows, -⟩ := h.written_cache
  obtain ⟨hadds, hholds⟩ := h.holds_reached
  obtain ⟨source, result, hsource, hresult, hread⟩ := hholds pair hpair
  obtain ⟨l', hlocate, hfile⟩ := FileTree.readText_eq_ok_iff.1 hread
  obtain rfl : l' = l := (hadds.leadsTo hplaced.leads).eq_of_locate hlocate
  refine ⟨source, result, hsource, hresult, FileTree.locate_of_grows hgrows hlocate, ?_⟩
  rw [h.lookup_left (.inr hplaced.below), hfile]

theorem holds_left (hpair : pair ∈ Walk.files (Walk.finds t b.selection root output)) :
    Holds b t left pair := by
  obtain ⟨names, l, hplaced⟩ := exists_placed h.apart h.links hpair
  obtain ⟨source, result, hsource, hresult, hl, hfile⟩ := h.place_left hpair hplaced
  exact ⟨source, result, hsource, hresult, FileTree.readText_eq_ok_iff.2 ⟨l, hl, hfile⟩⟩

/-! ### What the run remembers -/

/-- The directory of the cache file is not on the way from the root to a file: then the
cache file would be below the root. -/
theorem directory_ne (hplaced : Placed t b.selection root output lr lo pair names l)
    {front : List String} (hne : front ≠ []) (hfront : front <+: names) :
    (Cache.empty c).directory.components ≠ root.components ++ front.map Component.name := by
  intro heq
  obtain ⟨lc, hwell, -, hlc, ⟨content, hfile⟩, -⟩ := h.written_cache
  obtain ⟨q, s, above, hparent, hq, hplace⟩ := FileTree.exists_parent_of_file hwell hlc hfile
  have hdirectory : (Cache.empty c).directory = q := by simp [Cache.empty, hparent]
  rw [hdirectory] at heq
  have hempty : q.isEmpty = false := by
    rw [Bool.eq_false_iff]
    intro hempty
    obtain ⟨hrooted, hsegments⟩ : q.rooted = false ∧ q.segments = [""] := by
      simpa [Path.isEmpty] using hempty
    have hnone : q.components = [] := by simp [Path.components, hrooted, hsegments, Path.component?,
      Path.isIdle_empty]
    rw [hnone] at heq
    simp [hne] at heq
  -- the names lead to an entry below the root
  have halike := h.alike_left
  obtain ⟨content', hfile'⟩ : ∃ content', left.lookup (lr ++ names) = some (.file content') := by
    obtain ⟨content, hfile⟩ := hplaced.eligible.file
    exact halike.grows.file (by simpa using hfile)
  obtain ⟨e, he, hnot⟩ : ∃ e, left.lookup (lr ++ front) = some e ∧ e.isLink = false := by
    obtain ⟨more, rfl⟩ := hfront
    rw [← List.append_assoc] at hfile'
    by_cases hmore : more = []
    · exact ⟨_, by simpa [hmore] using hfile', rfl⟩
    · exact ⟨_, hwell.directory_of_prefix hmore hfile', rfl⟩
  have hbelow := FileTree.locate_below hwell
    (FileTree.locate_of_grows halike.grows h.apart.reads) he hnot
  have hsame : q.same (root.below front) = true := by
    rw [Path.same, beq_iff_eq, heq,
      Path.components_below fun s hs => (hplaced.isName h.apart s (hfront.subset hs)).1]
  obtain rfl := (FileTree.LeadsTo.of_locate (hq hempty)).eq_of_same hbelow hsame
  refine (h.outside false _ hplace).1 ?_
  rw [List.append_assoc]
  exact List.prefix_append _ _

/-- **Files have keys of their own.** -/
theorem key_inj (hpair : pair ∈ Walk.files (Walk.finds t b.selection root output))
    (hpair' : pair' ∈ Walk.files (Walk.finds t b.selection root output))
    (hkey : (Cache.empty c).key pair.1 = (Cache.empty c).key pair'.1) : pair.1 = pair'.1 := by
  obtain ⟨names, l, hplaced⟩ := exists_placed h.apart h.links hpair
  obtain ⟨names', l', hplaced'⟩ := exists_placed h.apart h.links hpair'
  have hnil := hplaced.nil_iff h.apart hplaced'
  rw [hplaced.input_eq, hplaced'.input_eq] at hkey ⊢
  by_cases hne : names = []
  · rw [hne, hnil.1 hne]
  · rw [Cache.key_below_inj h.apart.properRoot (hplaced.isName h.apart)
      (hplaced'.isName h.apart) hne (mt hnil.2 hne) (fun _ => h.directory_ne hplaced)
      (fun _ => h.directory_ne hplaced') hkey]

/-- **The second run remembers the lengths of the results.** -/
theorem remembered_left (hpair : pair ∈ Walk.files (Walk.finds t b.selection root output))
    {source result : String} (hsource : t.readText pair.1 = .ok source)
    (hresult : Formatting.format b.style b.rules source = .ok result) :
    remembered (b.snapshot left) pair.1 = some (stamp b.style result.utf8ByteSize) := by
  obtain ⟨cache, hcache, -, hsave⟩ := h.saved
  obtain ⟨entered, hperm, hbooks⟩ := h.goes.books
  have hlearned := fun {pair before after} =>
    @learned_visitAll b (b.snapshot t) t t root output lr lo pair _ h.apart h.dry h.forgotten
      h.links (fun _ hpair => h.mem_files hpair) (.refl h.apart.wellFormed lo) h.faultless_records
      before after
  have hkey := fun p => key_snapshot h.cache (snapshot_eq h.cache t) p
  have hentry : ∀ p result, b.entryFor (b.snapshot t) p result =
      some ((Cache.empty c).key p, stamp b.style result.utf8ByteSize) := by
    intro p result
    rw [snapshot_eq h.cache t, entryFor, Option.map_some, hkey]
  have hget := @get?_enterAll { cache := b.snapshot t } entered ((Cache.empty c).key pair.1)
    (stamp b.style result.utf8ByteSize) _ (snapshot_eq h.cache t) ?_ (.inr ?_)
  · rw [← hbooks, hcache] at hget
    rw [snapshot_eq h.cache, h.clear, remembered, Option.bind_some]
    simp only [Bool.false_eq_true, if_false]
    rw [Cache.load_of_save h.holds_reached.1.wellFormed h.proper hsave]
    exact hget
  · -- what is entered under the key is about this file
    intro r hr v hv
    obtain ⟨before, pair', after, hsplit, rfl⟩ := mem_visitAll.1 (hperm.mem_iff.1 hr)
    obtain ⟨source', result', hsource', hresult', hlearned'⟩ := hlearned hsplit
    rw [hlearned', hentry] at hv
    obtain ⟨hkey', rfl⟩ := Prod.mk.inj (Option.some.inj hv)
    rw [h.key_inj (h.mem_files (by simp [hsplit])) hpair hkey', hsource] at hsource'
    obtain rfl := Except.ok.inj hsource'
    rw [Except.ok.inj (hresult'.symm.trans hresult)]
  · obtain ⟨before, after, hsplit⟩ := List.append_of_mem (h.mem_order hpair)
    obtain ⟨source', result', hsource', hresult', hlearned'⟩ := hlearned hsplit
    obtain rfl := Except.ok.inj (hsource.symm.trans hsource')
    obtain rfl := Except.ok.inj (hresult.symm.trans hresult')
    exact ⟨_, hperm.mem_iff.2 (mem_visitAll.2 ⟨before, pair, after, hsplit, rfl⟩),
      hlearned'.trans (hentry _ _)⟩

end FirstRun

end Batch
end Restyle
