import Restyle.Proofs.Batch.Mirrored
import Restyle.Proofs.Walk.Visited

/-!
# The turns of a run

A batch comes to its roots one after the other.  In the turn of a root it works on the files
below it: if it works on them at once, on those that there are when the turn comes, and else on
those that the walk comes across while results are written.  Either way a turn is a list of files,
each with the path of its result, and a run is the visits of its turns.

Under an output root the results of one root mirror it, so the path of a result is the output root
and the way of the file from its root.  Files of one turn have different ways.  Files of different
turns need not: each root is mirrored in the same place.

* `wellFormed_visit`: a visit leaves a tree well formed, and takes nothing away.
* `worked`, `accounts_worked`: what the run over a root works on.
* `Walk.way`, `components_of_mem_worked`: where the result of a file goes.
* `turns`, `goes_turns`: a run is the visits of its turns.
* `same_outputs_iff`: which results share a path.
* `same_outputs_of_two_roots`: two roots with a file of the same name.
-/

namespace Restyle

open FileTree (Grows IsName)

/-! ## Where a result goes -/

namespace Walk

variable {t : FileTree} {root output : Path} {names : List String}

/-- The way of a file from its root, which its result takes from the output root.  Below a
directory it is what comes after the root.  A root that is a file has its name as its way if the
output root is a directory, and no way else. -/
def way (t : FileTree) (root output input : Path) : List Component :=
  if t.isDirectory root then input.components.drop root.components.length
  else if !output.same root && t.isDirectory output then root.fileName?.toList.map Component.name
  else []

theorem components_target (hroot : root.Proper) (hnames : ∀ s ∈ names, IsName s)
    (hnil : names = [] ↔ t.isDirectory root = false) :
    (target t root output names).components =
      output.components ++ way t root output (root.below names) := by
  have hplain : ∀ s ∈ names, Path.IsPlain s := fun s hs => (hnames s hs).1
  unfold target way
  by_cases hne : names = []
  · rw [if_pos hne, hnil.1 hne, if_neg (by simp), singleTarget]
    cases hname : root.fileName? with
    | none => simp
    | some name =>
      have hplain : ∀ s ∈ [name], Path.IsPlain s := by
        simpa using (Batch.isName_of_fileName? hroot hname).1
      simp only
      split_ifs
      · exact Path.components_below hplain output
      · simp
  · have hdirectory : t.isDirectory root = true := by
      simpa using mt hnil.2 hne
    rw [if_neg hne, if_pos hdirectory, Path.components_below hplain, List.drop_left,
      ← Path.below_eq_join (fun s hs => Path.ne_empty_of_not_isIdle (hplain s hs).1) hne,
      Path.components_below hplain]

theorem proper_target (hroot : root.Proper) (houtput : output.Proper)
    (hnames : ∀ s ∈ names, IsName s) : (target t root output names).Proper := by
  unfold target
  split_ifs with hne
  · unfold singleTarget
    split
    · rename_i name hname
      have hisName : ∀ s ∈ [name], IsName s := by
        simpa using Batch.isName_of_fileName? hroot hname
      split_ifs
      · exact Path.child_eq output name ▸ Batch.proper_of_names houtput hisName (by simp)
      · exact houtput
    · exact houtput
  · exact Path.join_eq (p := output) (q := ⟨false, names⟩) rfl ▸
      Batch.proper_of_names houtput hnames hne

end Walk

namespace Batch

variable {b : Batch} {snapshot : Option Cache} {t : FileTree} {root o : Path}
  {output : Option Path} {p : Progress Books} {job : Path × Schedule Books}
  {jobs : List (Path × Schedule Books)} {order : List (Path × Path)} {x y : Path × Path}

/-! ## What visits leave -/

theorem wellFormed_writeOutput (ht : t.WellFormed) (ho : o.Proper) (text : String) :
    (writeOutput t o text).1.WellFormed ∧ Grows t (writeOutput t o text).1 := by
  have habove : (makeAbove t o).1.WellFormed ∧ Grows t (makeAbove t o).1 := by
    unfold makeAbove
    cases hparent : o.parent?.filter (!·.isEmpty) with
    | none => exact ⟨ht, .refl t⟩
    | some directory =>
      have hstarts := Path.StartsAs.of_parent? (Option.eq_some_of_filter_eq_some hparent)
      exact ht.createDirectories (hstarts.slashFree ho.slashFree)
  rcases tree_writeOutput t o text with hsame | hwrite
  · rwa [hsame]
  · obtain ⟨-, -, -, -, hwell, hgrows, -⟩ := FileTree.writeText_eq_ok habove.1 ho hwrite
    exact ⟨hwell, habove.2.trans hgrows⟩

/-- **A visit leaves a tree well formed**, and takes nothing away. -/
theorem wellFormed_visit (ht : t.WellFormed) (ho : o.Proper) (input : Path) :
    (b.visit snapshot t input o).1.WellFormed ∧ Grows t (b.visit snapshot t input o).1 := by
  rcases tree_visit b snapshot t input o with hsame | ⟨-, result, hwrite⟩
  · rw [hsame]
    exact ⟨ht, .refl t⟩
  · rw [hwrite]
    exact wellFormed_writeOutput ht ho result

theorem wellFormed_visitAll (ht : t.WellFormed) (horder : ∀ pair ∈ order, pair.2.Proper) :
    (b.visitAll snapshot t order).1.WellFormed := by
  induction order generalizing t with
  | nil => exact ht
  | cons pair rest ih =>
    rw [visitAll_cons]
    exact ih (wellFormed_visit ht (horder pair List.mem_cons_self) pair.1).1
      fun x hx => horder x (List.mem_cons_of_mem _ hx)

/-! ## One turn -/

/-- The files that the run over a root works on, each with the path of its result, in order. -/
def worked (b : Batch) (snapshot : Option Cache) (output : Option Path) (p : Progress Books)
    (job : Path × Schedule Books) : List (Path × Path) :=
  if (b.rejection? p.tree job.1).isSome then []
  else if b.selection.concurrently then
    job.2.works (Walk.files (Walk.finds p.tree b.selection job.1 (output.getD job.1)))
  else Walk.visited (b.visitor snapshot) b.selection job.1 (output.getD job.1) p

/-- **The run over a root is the visits of the files that it works on.** -/
theorem accounts_worked (hfair : job.2.IsFair) :
    ∃ noticed, Accounts b snapshot (b.worked snapshot output p job) noticed p
      (b.runRoot snapshot output p job.1 job.2) := by
  unfold worked runRoot
  cases b.rejection? p.tree job.1 with
  | some f => exact ⟨_, .note p f⟩
  | none =>
    simp only [Option.isSome_none, Bool.false_eq_true, if_false, Work.enumerate]
    cases b.selection.concurrently with
    | true => exact ⟨_, accounts_atOnce hfair _ _ _ _⟩
    | false =>
      have hkept := @Walk.run_keeps _ (b.visitor snapshot).logged b.selection job.1
        (output.getD job.1) (p, [])
        (fun u => ∃ noticed, Accounts b snapshot u.2.reverse noticed p u.1) ?_ ?_ ⟨_, .refl p⟩
      · rw [Walk.run_logged_eq, List.reverse_reverse] at hkept
        exact hkept
      · rintro input output u ⟨noticed, hu⟩
        have hnext := hu.trans (accounts_advance b snapshot input output u.1)
        rw [← List.reverse_cons] at hnext
        exact ⟨_, hnext⟩
      · rintro f u ⟨noticed, hu⟩
        have hnext := hu.trans (Accounts.note u.1 f)
        rw [List.append_nil] at hnext
        exact ⟨_, hnext⟩

@[simp] theorem tree_visitor (p : Progress Books) : (b.visitor snapshot).tree p = p.tree := rfl

theorem tree_visitor_file (input output : Path) (p : Progress Books) :
    ((b.visitor snapshot).file input output p).tree = (b.visit snapshot p.tree input output).1 :=
  (accounts_advance b snapshot input output p).tree

/-- The visit of a file below the root keeps what a walk in turn relies on. -/
theorem wellFormed_visitor {sel : Selection} {names : List String} {lr : Location}
    (ho : o.Proper) (ht : p.tree.WellFormed) (hne : names ≠ [])
    (h : Walk.Eligible p.tree sel root lr [] names) :
    ((b.visitor snapshot).file (root.below names) (o.join ⟨false, names⟩) p).tree.WellFormed ∧
      Grows p.tree
        ((b.visitor snapshot).file (root.below names) (o.join ⟨false, names⟩) p).tree := by
  obtain ⟨content, hfile⟩ := h.file
  have hnames : ∀ s ∈ names, IsName s := fun s hs => ht.isName hfile s (by simp [hs])
  rw [tree_visitor_file]
  refine wellFormed_visit ht ?_ _
  rw [Path.join_eq rfl]
  exact proper_of_names ho hnames hne

/-- A file of a turn stands below its root, by names that settle the path of its result as
well.  There are none only if the root is a file. -/
def Mirrors (t : FileTree) (root output : Path) (x : Path × Path) : Prop :=
  ∃ names, (∀ s ∈ names, IsName s) ∧ (names = [] ↔ t.isDirectory root = false) ∧
    x = (root.below names, Walk.target t root output names)

theorem isDirectory_of_eligible {sel : Selection} {lr : Location} {names : List String}
    (h : Walk.Eligible t sel root lr [] names) (ht : t.WellFormed)
    (hlr : t.locate true root = .ok lr) : names = [] ↔ t.isDirectory root = false := by
  have hdirectory : t.isDirectory root = true ↔ t.lookup lr = some .directory := by
    rw [FileTree.isDirectory_iff, hlr]
    simp
  rcases h.lookup_front ht with ⟨hne, hdir⟩ | ⟨hnil, content, hfile⟩
  · simp [hne, hdirectory.2 (by simpa using hdir)]
  · rw [List.append_nil] at hfile
    simp [hnil, ← Bool.not_eq_true, hdirectory, hfile]

section Turn

variable (ht : p.tree.WellFormed) (hlinks : b.selection.followLinks = false)
include ht hlinks

theorem mirrors_of_mem_files (hroot : root.Proper)
    (hx : x ∈ Walk.files (Walk.finds p.tree b.selection root o)) : Mirrors p.tree root o x := by
  obtain ⟨lr, names, hlr, heligible, hinput, hx⟩ := (Walk.mem_files_finds ht hlinks hroot).1 hx
  obtain ⟨content, hfile⟩ := heligible.file
  exact ⟨names, fun s hs => ht.isName hfile s (by simp [hs]),
    isDirectory_of_eligible heligible ht (heligible.locate_root ht hlr), Prod.ext hinput hx⟩

theorem mirrors_of_mem_visited (hroot : root.Proper) (ho : o.Proper)
    (hx : x ∈ Walk.visited (b.visitor snapshot) b.selection root o p) :
    Mirrors p.tree root o x := by
  rcases @Walk.visited_cases _ (b.visitor snapshot) b.selection root o p hlinks with
    hnone | ⟨hnot, hsingle⟩ | ⟨lr, hlr, hdir⟩
  · simp [hnone] at hx
  · rw [hsingle, List.mem_singleton] at hx
    rw [tree_visitor] at hnot hx
    exact ⟨[], by simp, by simpa using hnot, by simpa [Walk.target] using hx⟩
  · rw [tree_visitor] at hlr hdir
    have hdirectory : p.tree.isDirectory root = true := FileTree.isDirectory_iff.2
      ⟨lr, FileTree.locate_true_of_not_link hlr (by simp [hdir]), hdir⟩
    have hkept := @Walk.visited_induction _ (b.visitor snapshot) b.selection lr root o p
      (fun _ => rfl) hroot hlr hdir hlinks
      (fun u => u.1.tree.WellFormed ∧ ∀ x ∈ u.2, Mirrors p.tree root o x)
      (fun u hu => hu.1) ?_ ⟨ht, by simp⟩
    · exact hkept.2 x (List.mem_reverse.2 hx)
    · rintro names u ⟨hu, hmirrors⟩ hne heligible
      obtain ⟨hwell, hgrows⟩ :=
        @wellFormed_visitor b snapshot root o u.1 _ _ lr ho hu hne heligible
      refine ⟨⟨hwell, fun x hx => ?_⟩, hgrows⟩
      rcases List.mem_cons.1 hx with rfl | hx
      · obtain ⟨content, hfile⟩ := heligible.file
        exact ⟨names, fun s hs => hu.isName hfile s (by simp [hs]), by simp [hne, hdirectory],
          by simp [Walk.target, hne]⟩
      · exact hmirrors x hx

theorem nodup_visited (hroot : root.Proper) (ho : o.Proper) :
    (Walk.visited (b.visitor snapshot) b.selection root o p).Nodup := by
  rcases @Walk.visited_cases _ (b.visitor snapshot) b.selection root o p hlinks with
    hnone | ⟨-, hsingle⟩ | ⟨lr, hlr, hdir⟩
  · simp [hnone]
  · simp [hsingle]
  · exact Walk.nodup_visited (fun _ => rfl) hroot hlr hdir hlinks
      (I := fun q => q.tree.WellFormed) (fun q hq => hq)
      (fun names q hq hne heligible => wellFormed_visitor ho hq hne heligible) ht

variable (hroot : job.1.Proper) (houtput : (output.getD job.1).Proper) (hfair : job.2.IsFair)
include hroot houtput hfair

/-- **The files of a turn mirror its root**, whether they are worked on at once or in turn. -/
theorem mirrors_of_mem_worked (hx : x ∈ b.worked snapshot output p job) :
    Mirrors p.tree job.1 (output.getD job.1) x := by
  unfold worked at hx
  split_ifs at hx
  · simp at hx
  · exact mirrors_of_mem_files ht hlinks hroot ((hfair.1 _).mem_iff.1 hx)
  · exact mirrors_of_mem_visited ht hlinks hroot houtput hx

/-- **No file comes twice in a turn.** -/
theorem nodup_worked : (b.worked snapshot output p job).Nodup := by
  unfold worked
  split_ifs
  · exact List.nodup_nil
  · exact (hfair.1 _).nodup_iff.2 (Walk.nodup_files_finds ht hlinks hroot)
  · exact nodup_visited ht hlinks hroot houtput

/-- **The result of a file takes the way of the file** from the output root. -/
theorem components_of_mem_worked (hx : x ∈ b.worked snapshot output p job) :
    x.2.components = (output.getD job.1).components ++
      Walk.way p.tree job.1 (output.getD job.1) x.1 := by
  obtain ⟨names, hnames, hnil, rfl⟩ := mirrors_of_mem_worked ht hlinks hroot houtput hfair hx
  exact Walk.components_target hroot hnames hnil

/-- **Files of one turn have results of their own.** -/
theorem pairwise_worked :
    (b.worked snapshot output p job).Pairwise fun x y => x.2.same y.2 = false := by
  refine (nodup_worked ht hlinks hroot houtput hfair).imp_of_mem fun {x y} hx hy hne => ?_
  rw [Bool.eq_false_iff]
  intro hsame
  obtain ⟨names, hnames, hnil, rfl⟩ := mirrors_of_mem_worked ht hlinks hroot houtput hfair hx
  obtain ⟨names', hnames', hnil', rfl⟩ := mirrors_of_mem_worked ht hlinks hroot houtput hfair hy
  refine hne ?_
  rw [Path.same, beq_iff_eq, Walk.components_target hroot hnames hnil,
    Walk.components_target hroot hnames' hnil'] at hsame
  have hways := List.append_cancel_left hsame
  cases hdirectory : p.tree.isDirectory job.1 with
  | false => rw [hnil.2 hdirectory, hnil'.2 hdirectory]
  | true =>
    simp only [Walk.way, hdirectory, if_true,
      Path.components_below fun s hs => (hnames s hs).1,
      Path.components_below fun s hs => (hnames' s hs).1, List.drop_left] at hways
    rw [List.map_injective_iff.2 (fun _ _ => Component.name.inj) hways]

theorem wellFormed_runRoot : (b.runRoot snapshot output p job.1 job.2).tree.WellFormed := by
  obtain ⟨noticed, haccounts⟩ := @accounts_worked b snapshot output p job hfair
  rw [haccounts.tree]
  refine wellFormed_visitAll ht fun x hx => ?_
  obtain ⟨names, hnames, -, rfl⟩ := mirrors_of_mem_worked ht hlinks hroot houtput hfair hx
  exact Walk.proper_target hroot houtput hnames

end Turn

/-! ## All turns -/

/-- The turn of a root. -/
structure Turn where
  /-- The state of the run when the turn comes. -/
  state : Progress Books
  /-- The root. -/
  root : Path
  /-- The files that are worked on, each with the path of its result. -/
  pairs : List (Path × Path)

/-- The turns of a run from a state. -/
def turnsFrom (b : Batch) (snapshot : Option Cache) (output : Option Path) :
    Progress Books → List (Path × Schedule Books) → List Turn
  | _, [] => []
  | p, job :: rest =>
    ⟨p, job.1, b.worked snapshot output p job⟩ ::
      turnsFrom b snapshot output (b.runRoot snapshot output p job.1 job.2) rest

/-- The turns of a run. -/
def turns (b : Batch) (t : FileTree) (jobs : List (Path × Schedule Books))
    (output : Option Path) : List Turn :=
  b.turnsFrom (b.snapshot t) output ⟨t, { cache := b.snapshot t }, []⟩ jobs

theorem goes_turnsFrom (hjobs : Sound jobs) :
    Goes b snapshot ((b.turnsFrom snapshot output p jobs).flatMap Turn.pairs) p
      (jobs.foldl (fun p job => b.runRoot snapshot output p job.1 job.2) p) := by
  induction jobs generalizing p with
  | nil => exact .refl p
  | cons job rest ih =>
    obtain ⟨noticed, haccounts⟩ :=
      @accounts_worked b snapshot output p job (hjobs job List.mem_cons_self).2
    rw [turnsFrom, List.flatMap_cons, List.foldl_cons]
    exact haccounts.toGoes.trans (ih fun x hx => hjobs x (List.mem_cons_of_mem _ hx))

/-- **A run is the visits of its turns**, one after the other. -/
theorem goes_turns (hjobs : Sound jobs) :
    Goes b (b.snapshot t) ((b.turns t jobs output).flatMap Turn.pairs)
      ⟨t, { cache := b.snapshot t }, []⟩ (b.reached t jobs output) :=
  goes_turnsFrom hjobs

/-- A turn comes in a well-formed tree, and is that of a root of the run. -/
theorem exists_job_of_mem_turnsFrom (ht : p.tree.WellFormed)
    (hlinks : b.selection.followLinks = false) (hjobs : Sound jobs)
    (houtput : ∀ job ∈ jobs, (output.getD job.1).Proper) {turn : Turn}
    (hturn : turn ∈ b.turnsFrom snapshot output p jobs) :
    ∃ q job, job ∈ jobs ∧ q.tree.WellFormed ∧
      turn = ⟨q, job.1, b.worked snapshot output q job⟩ := by
  induction jobs generalizing p with
  | nil => simp [turnsFrom] at hturn
  | cons job rest ih =>
    rcases List.mem_cons.1 hturn with rfl | hturn
    · exact ⟨p, job, List.mem_cons_self, ht, rfl⟩
    · obtain ⟨hroot, hfair⟩ := hjobs job List.mem_cons_self
      obtain ⟨q, job', hjob', hq⟩ :=
        ih (wellFormed_runRoot ht hlinks hroot (houtput job List.mem_cons_self) hfair)
          (fun x hx => hjobs x (List.mem_cons_of_mem _ hx))
          (fun x hx => houtput x (List.mem_cons_of_mem _ hx)) hturn
      exact ⟨q, job', List.mem_cons_of_mem _ hjob', hq⟩

/-- **Which results share a path.**  A run under an output root is the visits of its turns.  No
two files of one turn have the same path for their results.  Files of any two turns have it if,
and only if, they have the same way from their roots. -/
theorem same_outputs_iff (ht : t.WellFormed) (hlinks : b.selection.followLinks = false)
    (hjobs : Sound jobs) (ho : o.Proper) :
    Goes b (b.snapshot t) ((b.turns t jobs (some o)).flatMap Turn.pairs)
      ⟨t, { cache := b.snapshot t }, []⟩ (b.reached t jobs (some o)) ∧
    (∀ turn ∈ b.turns t jobs (some o), turn.pairs.Pairwise fun x y => x.2.same y.2 = false) ∧
    ∀ turn ∈ b.turns t jobs (some o), ∀ x ∈ turn.pairs,
      ∀ turn' ∈ b.turns t jobs (some o), ∀ y ∈ turn'.pairs,
        (x.2.same y.2 = true ↔ Walk.way turn.state.tree turn.root o x.1 =
          Walk.way turn'.state.tree turn'.root o y.1) := by
  have hjob := fun turn => @exists_job_of_mem_turnsFrom b (b.snapshot t) (some o)
    ⟨t, { cache := b.snapshot t }, []⟩ jobs ht hlinks hjobs (fun _ _ => ho) turn
  refine ⟨goes_turns hjobs, fun turn hturn => ?_, fun turn hturn x hx turn' hturn' y hy => ?_⟩
  · obtain ⟨q, job, hmem, hq, rfl⟩ := hjob turn hturn
    exact pairwise_worked hq hlinks (hjobs job hmem).1 ho (hjobs job hmem).2
  · obtain ⟨q, job, hmem, hq, rfl⟩ := hjob turn hturn
    obtain ⟨q', job', hmem', hq', rfl⟩ := hjob turn' hturn'
    have hcomponents := fun {q job x} => @components_of_mem_worked b (b.snapshot t) (some o) q job x
    rw [Path.same, beq_iff_eq, hcomponents hq hlinks (hjobs job hmem).1 ho (hjobs job hmem).2 hx,
      hcomponents hq' hlinks (hjobs job' hmem').1 ho (hjobs job' hmem').2 hy]
    exact List.append_right_inj _

/-! ## Two roots -/

/-- A tree with two directories, each of which has a file with the same name. -/
def twoRoots : FileTree where
  entries := [(["a"], .directory), (["a", "x.swift"], .file "a\n".toUTF8),
    (["b"], .directory), (["b", "x.swift"], .file "b\n".toUTF8)]
  workingDirectory := []

theorem wellFormed_twoRoots : twoRoots.WellFormed := by decide +kernel

/-- The default rules and the default style, without a cache file. -/
def uncached : Batch where
  rules := Rule.defaults {}
  style := {}
  selection := {}

/-- The two directories as roots. -/
def twoJobs : List (Path × Schedule Books) :=
  (["a", "b"].map Path.ofText).map fun root => (root, {})

/-- Each file has its turn, and both have the same way. -/
theorem same_outputs_iff_twoRoots :
    twoRoots.WellFormed ∧ Sound twoJobs ∧ (Path.ofText "out").Proper ∧
    (uncached.turns twoRoots twoJobs (some (Path.ofText "out"))).map Turn.pairs =
      [[(Path.ofText "a/x.swift", Path.ofText "out/x.swift")],
        [(Path.ofText "b/x.swift", Path.ofText "out/x.swift")]] ∧
    ∀ turn ∈ uncached.turns twoRoots twoJobs (some (Path.ofText "out")), ∀ x ∈ turn.pairs,
      ∀ turn' ∈ uncached.turns twoRoots twoJobs (some (Path.ofText "out")), ∀ y ∈ turn'.pairs,
        (x.2.same y.2 = true ↔ Walk.way turn.state.tree turn.root (Path.ofText "out") x.1 =
          Walk.way turn'.state.tree turn'.root (Path.ofText "out") y.1) :=
  ⟨wellFormed_twoRoots, sound_of_texts _, Path.proper_ofText "out", by decide +kernel,
    (same_outputs_iff wellFormed_twoRoots rfl (sound_of_texts ["a", "b"])
      (Path.proper_ofText "out")).2.2⟩

/-- **Two files below different roots**: they have the same path for their results, and only the
result of the second is there in the end. -/
theorem same_outputs_of_two_roots :
    twoRoots.WellFormed ∧ uncached.selection.followLinks = false ∧
    (¬∀ turn ∈ uncached.turns twoRoots twoJobs (some (Path.ofText "out")), ∀ x ∈ turn.pairs,
      ∀ turn' ∈ uncached.turns twoRoots twoJobs (some (Path.ofText "out")), ∀ y ∈ turn'.pairs,
        x.1 ≠ y.1 → x.2.same y.2 = false) ∧
    (uncached.runScheduled twoRoots twoJobs (some (Path.ofText "out"))).2.readText
      (Path.ofText "out/x.swift") = .ok "b\n" :=
  ⟨wellFormed_twoRoots, rfl, by decide +kernel, by decide +kernel⟩

end Batch
end Restyle
