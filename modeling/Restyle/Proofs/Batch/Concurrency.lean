import Restyle.Proofs.Batch.Unlinked

/-!
# Working on files at once, or in turn

A batch that works on the files of a root at once finds them all first, works on them in any
order, and enters what came of them in any order.  In a tree without links it ends as a batch
does that works on them in turn: with the same tree, the cache file included, the same counts
and the same faults, each as often.

The visits of one root have nothing to do with each other (`Steady`), so their order makes no
difference.  The order in which outcomes are entered makes none as long as no two files go by
one key for the cache.

* `cache_enterAll_perm`: entries under different keys can be entered in any order.
* `Ready.visitAll_perm`: the files below a root can be visited in any order.
* `Matches.runRoot`: the run over one root.
* `keysDistinct_of_cacheOutside`: files below one root only share a key if the cache file is in
  a directory below it.
* `run_concurrently`: the whole run.
* `run_concurrently_sharedKey`: two files that share a key.
-/

namespace Restyle

open FileTree (Agrees)

theorem Cache.insert_comm {k k' v v' : String} (c : Cache) (hne : k ≠ k') :
    (c.insert k v).insert k' v' = (c.insert k' v').insert k v := by
  simp only [Cache.insert, StringMap.insert_comm c.entries hne]

namespace Batch

variable {b : Batch} {snapshot : Option Cache} {t u : FileTree} {p q : Progress Books}
  {root : Path} {output : Option Path} {schedule : Schedule Books} {roots : List Path}
  {order : List (Path × Path)} {jobs : List (Path × Schedule Books)}

/-! ## The books -/

/-- The cache in the end holds what the records say, entered one after the other. -/
theorem cache_enterAll (books : Books) (records : List Record) :
    (books.enterAll records).cache = books.cache.map fun cache =>
      (records.filterMap Record.learned).foldl (fun c e => c.insert e.1 e.2) cache := by
  induction records generalizing books with
  | nil => simp
  | cons r rest ih =>
    rw [enterAll_cons, ih, cache_record]
    cases books.cache with
    | none => cases r.learned <;> rfl
    | some cache => cases hlearned : r.learned <;> simp [hlearned]

/-- **Entries under different keys can be entered in any order.** -/
theorem cache_enterAll_perm {records records' : List Record} (hperm : records'.Perm records)
    (hkeys : ((records.filterMap Record.learned).map Prod.fst).Nodup) (books : Books) :
    (books.enterAll records').cache = (books.enterAll records).cache := by
  have hlearned := hperm.filterMap Record.learned
  rw [cache_enterAll, cache_enterAll]
  congr 1
  funext cache
  refine hlearned.foldl_eq' (fun e he e' he' c => ?_) cache
  by_cases heq : e = e'
  · rw [heq]
  · refine Cache.insert_comm c fun hkey => heq ?_
    exact List.inj_on_of_nodup_map hkeys (hlearned.mem_iff.1 he) (hlearned.mem_iff.1 he') hkey

/-- What a visit learns goes by the key of its file. -/
theorem key_of_learned_visit {input output : Path} {e : String × String}
    (h : (b.visit snapshot t input output).2.learned = some e) :
    ∃ cache, snapshot = some cache ∧ e.1 = cache.key input := by
  have hentry : ∀ {result : String}, b.entryFor snapshot input result = some e →
      ∃ cache, snapshot = some cache ∧ e.1 = cache.key input := by
    intro result hresult
    obtain ⟨cache, hcache, rfl⟩ := Option.map_eq_some_iff.1 hresult
    exact ⟨cache, hcache, rfl⟩
  rcases visit_cases b snapshot t input output with
    ⟨f, hvisit⟩ | ⟨source, result, -, -, ⟨-, hvisit⟩ | ⟨-, ⟨-, hvisit⟩ | ⟨-, hvisit⟩⟩⟩
  · simp [hvisit, Record.learned] at h
  · rw [hvisit] at h
    exact hentry h
  · simp [hvisit, Record.learned] at h
  · rw [hvisit] at h
    cases hfault : (writeOutput t output result).2 with
    | none =>
      rw [hfault] at h
      exact hentry h
    | some f => simp [hfault, Record.learned] at h

/-- Files with keys of their own leave entries under keys of their own. -/
theorem nodup_keys_learned
    (hkeys : ∀ cache, snapshot = some cache → (order.map fun pair => cache.key pair.1).Nodup) :
    (((b.visitAll snapshot t order).2.filterMap Record.learned).map Prod.fst).Nodup := by
  cases snapshot with
  | none =>
    have hnone : (b.visitAll none t order).2.filterMap Record.learned = [] := by
      refine List.filterMap_eq_nil_iff.2 fun r hr => ?_
      obtain ⟨before, pair, after, -, rfl⟩ := mem_visitAll.1 hr
      rw [Option.eq_none_iff_forall_ne_some]
      intro e he
      obtain ⟨cache, hcache, -⟩ := key_of_learned_visit he
      simp at hcache
    rw [hnone]
    exact List.nodup_nil
  | some cache =>
    refine List.Sublist.nodup ?_ (hkeys cache rfl)
    clear hkeys
    induction order generalizing t with
    | nil => exact .slnil
    | cons pair rest ih =>
      rw [visitAll_cons, List.map_cons]
      cases hlearned : (b.visit (some cache) t pair.1 pair.2).2.learned with
      | none =>
        rw [List.filterMap_cons_none hlearned]
        exact ih.cons _
      | some e =>
        rw [List.filterMap_cons_some hlearned, List.map_cons]
        obtain ⟨cache', hcache, hkey⟩ := key_of_learned_visit hlearned
        obtain rfl := Option.some.inj hcache
        rw [hkey]
        exact ih.cons_cons _

/-! ## Two runs -/

/-- Two states of a batch that only differ in the order of things.  What a run that writes
nothing remembers is left out, since it is not saved. -/
structure Matches (b : Batch) (p q : Progress Books) : Prop where
  /-- The trees agree. -/
  tree : Agrees p.tree q.tree
  /-- As many files were written. -/
  written : q.books.written = p.books.written
  /-- As many files were looked at. -/
  checked : q.books.checked = p.books.checked
  /-- The same is remembered. -/
  cache : b.dryRun = false → q.books.cache = p.books.cache
  /-- The same went wrong, each as often. -/
  faults : q.faults.Perm p.faults

/-- A tree without links in which an output root, if there is one, is apart from every root. -/
structure Ready (output : Option Path) (roots : List Path) (t : FileTree) : Prop where
  /-- The tree stands for a disk. -/
  wellFormed : t.WellFormed
  /-- There are no links in it. -/
  linkFree : t.LinkFree
  /-- The output root is apart from every root. -/
  separate : ∀ o, output = some o → Separate t o roots

theorem Ready.exists_steady (h : Ready output roots t) (hroot : root.Proper)
    (hmem : root ∈ roots) : ∃ base J, Steady b.passing snapshot output t root base J :=
  Batch.exists_steady h.wellFormed h.linkFree rfl hroot h.separate hmem

theorem Ready.runRoot (h : Ready output roots p.tree) (hroot : root.Proper)
    (hmem : root ∈ roots) (hfair : schedule.IsFair) :
    Ready output roots (b.runRoot snapshot output p root schedule).tree := by
  obtain ⟨base, J, hsteady⟩ := @Ready.exists_steady b snapshot _ _ _ _ h hroot hmem
  obtain ⟨hwell, hlinks, hgrows⟩ := hsteady.left rfl hfair
  rw [runRoot_passing h.linkFree] at hwell hlinks hgrows
  exact ⟨hwell, hlinks, fun o ho => (h.separate o ho).grows hgrows hlinks⟩

section Paced

variable (hlinks : t.LinkFree) (c : Bool)
include hlinks

theorem finds_paced (root output : Path) :
    Walk.finds t (b.paced c).passing.selection root output =
      Walk.finds t b.selection root output := by
  have hsel : Walk.SameFiles b.selection (b.paced c).passing.selection := ⟨rfl, rfl⟩
  exact Walk.finds_of_linkFree hsel hlinks root output

theorem rejection?_paced (root : Path) :
    (b.paced c).passing.rejection? t root = b.rejection? t root :=
  rejection?_passing hlinks root

theorem notices_paced (output : Option Path) (root : Path) :
    (b.paced c).passing.notices t output root = b.notices t output root := by
  unfold notices
  rw [rejection?_paced hlinks, finds_paced hlinks]

theorem orderOf_paced (output : Option Path) (job : Path × Schedule Books) :
    (b.paced c).passing.orderOf t output job =
      if (b.rejection? t job.1).isSome then []
      else if c then job.2.works (Walk.files (Walk.finds t b.selection job.1 (output.getD job.1)))
      else Walk.files (Walk.finds t b.selection job.1 (output.getD job.1)) := by
  unfold orderOf
  rw [rejection?_paced hlinks, finds_paced hlinks]
  rfl

end Paced

/-- What a run does is told by its visits, which do not depend on the selection. -/
theorem Accounts.of_selection {sel : Selection} {noticed : List Fault}
    (h : Accounts { b with selection := sel } snapshot order noticed p q) :
    Accounts b snapshot order noticed p q := by
  obtain ⟨⟨htree, hbooks, hfaults⟩, hexact⟩ := h
  simp only [visitAll_selection] at htree hbooks hfaults hexact
  exact ⟨⟨htree, hbooks, hfaults⟩, hexact⟩

/-- Runs whose visits leave the same, up to order, lead from states that match to states that
match. -/
theorem Matches.accounts {p' q' : Progress Books} {order' : List (Path × Path)}
    {noticed : List Fault} (h : Matches b p q) (hp : Accounts b snapshot order noticed p p')
    (hq : Accounts b snapshot order' noticed q q')
    (htree : Agrees (b.visitAll snapshot p.tree order).1 (b.visitAll snapshot q.tree order').1)
    (hrecords : (b.visitAll snapshot q.tree order').2.Perm (b.visitAll snapshot p.tree order).2)
    (hkeys : b.dryRun = false →
      (((b.visitAll snapshot p.tree order).2.filterMap Record.learned).map Prod.fst).Nodup) :
    Matches b p' q' := by
  obtain ⟨entered, hperm, hbooks⟩ := hp.books
  obtain ⟨entered', hperm', hbooks'⟩ := hq.books
  have hboth := (hperm'.trans hrecords).trans hperm.symm
  refine ⟨?_, ?_, ?_, fun hdry => ?_, ?_⟩
  · rwa [hp.tree, hq.tree]
  · rw [hbooks, hbooks', written_enterAll, written_enterAll, h.written, hboth.countP_eq]
  · rw [hbooks, hbooks', checked_enterAll, checked_enterAll, h.checked, hboth.length_eq]
  · have hnodup : ((entered.filterMap Record.learned).map Prod.fst).Nodup :=
      ((hperm.filterMap _).map _).nodup_iff.2 (hkeys hdry)
    rw [hbooks, hbooks', ← cache_enterAll_perm hboth hnodup, cache_enterAll, cache_enterAll,
      h.cache hdry]
  · refine hq.exact.trans (List.Perm.trans ?_ hp.exact.symm)
    exact ((hrecords.filterMap _).append_left _).append h.faults

/-- The files below a root go by keys of their own: no two of them share one. -/
def OwnKeys (b : Batch) (snapshot : Option Cache) (t : FileTree) (root output : Path) : Prop :=
  ∀ cache, snapshot = some cache → ∀ pair ∈ Walk.files (Walk.finds t b.selection root output),
    ∀ pair' ∈ Walk.files (Walk.finds t b.selection root output),
      cache.key pair.1 = cache.key pair'.1 → pair = pair'

theorem OwnKeys.of_paced {output : Path} {c : Bool}
    (h : (b.paced c).OwnKeys snapshot t root output) (hlinks : t.LinkFree) :
    b.OwnKeys snapshot t root output := by
  have hsel : Walk.SameFiles b.selection (b.paced c).selection := ⟨rfl, rfl⟩
  unfold OwnKeys at h
  rwa [Walk.finds_of_linkFree hsel hlinks] at h

/-- Files with keys of their own are entered under different keys, in any order. -/
theorem OwnKeys.nodup {output : Path} {cache : Cache} (h : b.OwnKeys snapshot t root output)
    (hcache : snapshot = some cache) (ht : t.WellFormed) (hlinks : t.LinkFree)
    (hroot : root.Proper)
    (hperm : order.Perm (Walk.files (Walk.finds t b.selection root output))) :
    (order.map fun pair => cache.key pair.1).Nodup := by
  have hnodup := @Walk.nodup_files_finds t b.passing.selection root output .none ht rfl hroot
  have hsel : Walk.SameFiles b.selection b.passing.selection := ⟨rfl, rfl⟩
  rw [Walk.finds_of_linkFree hsel hlinks] at hnodup
  exact (hperm.map _).nodup_iff.2 (hnodup.map_on (h cache hcache))

section Root

variable (hroot : root.Proper) (hmem : root ∈ roots)
include hroot hmem

/-- The run over a root visits the files below it, at once or in turn. -/
theorem Ready.accounts (h : Ready output roots p.tree) (hfair : schedule.IsFair) (c : Bool) :
    Accounts b snapshot
      (if (b.rejection? p.tree root).isSome then []
        else if c then
          schedule.works (Walk.files (Walk.finds p.tree b.selection root (output.getD root)))
        else Walk.files (Walk.finds p.tree b.selection root (output.getD root)))
      (b.notices p.tree output root) p
      ((b.paced c).runRoot snapshot output p root schedule) := by
  obtain ⟨base, J, hsteady⟩ := @Ready.exists_steady (b.paced c) snapshot _ _ _ _ h hroot hmem
  have hgoes := @Accounts.of_selection b snapshot _ _ _ (b.paced c).passing.selection _
    (hsteady.accounts rfl hfair)
  rwa [runRoot_passing h.linkFree, notices_paced h.linkFree, orderOf_paced h.linkFree] at hgoes

/-- The files below a root can be visited in any order. -/
theorem Ready.visitAll_perm (h : Ready output roots t)
    (hperm : order.Perm (Walk.files (Walk.finds t b.selection root (output.getD root)))) :
    Agrees (b.visitAll snapshot t order).1
        (b.visitAll snapshot t
          (Walk.files (Walk.finds t b.selection root (output.getD root)))).1 ∧
      (b.visitAll snapshot t
        (Walk.files (Walk.finds t b.selection root (output.getD root)))).2.Perm
        (b.visitAll snapshot t order).2 := by
  obtain ⟨base, J, hsteady⟩ := @Ready.exists_steady (b.paced true) snapshot _ _ _ _ h hroot hmem
  have hstep := hsteady.step
  have hindependent := hsteady.independent
  rw [finds_paced h.linkFree] at hstep hindependent
  refine @Batch.visitAll_perm b snapshot t t _ _ J (fun u hu => ?_) hperm
    (fun pair hpair => hstep pair (hperm.mem_iff.1 hpair))
    (fun x hx y hy => hindependent x (hperm.mem_iff.1 hx) y (hperm.mem_iff.1 hy)) hsteady.start
  have halike := hsteady.alike u hu
  exact ⟨halike.wellFormed, hsteady.linkFree u hu, halike.grows⟩

/-- **The run over one root ends the same** whether its files are worked on at once or in
turn. -/
theorem Matches.runRoot (h : Matches b p q) (hp : Ready output roots p.tree)
    (hq : Ready output roots q.tree) (hfair : schedule.IsFair)
    (hkeys : b.dryRun = false → b.OwnKeys snapshot q.tree root (output.getD root)) :
    Matches b ((b.paced true).runRoot snapshot output p root schedule)
      ((b.paced false).runRoot snapshot output q root schedule) := by
  have hgoes := @Ready.accounts b snapshot _ _ _ _ _ hroot hmem hp hfair true
  have hgoes' := @Ready.accounts b snapshot _ _ _ _ _ hroot hmem hq hfair false
  -- both find the same files
  have hshape := h.tree.sameShape hp.wellFormed hq.wellFormed
  have hfinds := @Walk.finds_of_sameShape _ _ b.selection root (output.getD root) .none hshape
    hp.wellFormed hq.wellFormed
  rw [notices_of_sameShape hshape hp.wellFormed hq.wellFormed, rejection?_of_sameShape hshape,
    hfinds] at hgoes'
  simp only [if_true, Bool.false_eq_true, if_false] at hgoes hgoes'
  cases hrejection : (b.rejection? p.tree root).isSome with
  | true =>
    simp only [hrejection, if_true] at hgoes hgoes'
    exact h.accounts hgoes hgoes' h.tree (.refl _) fun _ => by simp
  | false =>
    simp only [hrejection, Bool.false_eq_true, if_false] at hgoes hgoes'
    have hperm := hfair.1 (Walk.files (Walk.finds p.tree b.selection root (output.getD root)))
    obtain ⟨htrees, hrecords⟩ := @Ready.visitAll_perm b snapshot _ _ _ _ _ hroot hmem hp hperm
    obtain ⟨htrees', hrecords'⟩ := @visitAll_agrees b snapshot _ _ h.tree
      (Walk.files (Walk.finds p.tree b.selection root (output.getD root)))
    refine h.accounts hgoes hgoes' (htrees.trans htrees') (hrecords' ▸ hrecords) fun hdry => ?_
    exact nodup_keys_learned fun cache hcache =>
      (hkeys hdry).nodup hcache hq.wellFormed hq.linkFree hroot (hfinds ▸ hperm)

end Root

/-- **All roots.** -/
theorem Matches.foldl (hjobs : Sound jobs) (hroots : ∀ job ∈ jobs, job.1 ∈ roots)
    (h : Matches b p q) (hp : Ready output roots p.tree) (hq : Ready output roots q.tree)
    (hkeys : b.dryRun = false → ∀ before job after, jobs = before ++ job :: after →
      (b.paced false).OwnKeys snapshot (before.foldl (fun p job =>
        (b.paced false).runRoot snapshot output p job.1 job.2) q).tree job.1
        (output.getD job.1)) :
    Matches b
      (jobs.foldl (fun p job => (b.paced true).runRoot snapshot output p job.1 job.2) p)
      (jobs.foldl (fun p job => (b.paced false).runRoot snapshot output p job.1 job.2) q) := by
  induction jobs generalizing p q with
  | nil => exact h
  | cons job rest ih =>
    obtain ⟨hroot, hfair⟩ := hjobs job List.mem_cons_self
    have hmem := hroots job List.mem_cons_self
    have hfirst := h.runRoot hroot hmem hp hq hfair fun hdry =>
      (hkeys hdry [] job rest rfl).of_paced hq.linkFree
    rw [List.foldl_cons, List.foldl_cons]
    refine ih (fun x hx => hjobs x (List.mem_cons_of_mem _ hx))
      (fun x hx => hroots x (List.mem_cons_of_mem _ hx)) hfirst
      (hp.runRoot hroot hmem hfair) (hq.runRoot hroot hmem hfair) ?_
    intro hdry before x after hsplit
    exact hkeys hdry (job :: before) x after (by rw [hsplit]; rfl)

theorem save_agrees (h : Agrees t u) (cache : Cache) (path : Path) :
    (∃ f, cache.save t path = .error f ∧ cache.save u path = .error f) ∨
      ∃ t' u', cache.save t path = .ok t' ∧ cache.save u path = .ok u' ∧ Agrees t' u' := by
  have hwrite := @Agrees.writeText t u path h cache.entries.toJson
  have hunwritable : ∀ e, Cache.unwritable u path e = Cache.unwritable t path e := by
    intro e
    unfold Cache.unwritable
    simp only [h.isDirectory]
  unfold Cache.save
  simp only [hunwritable]
  generalize t.writeText path cache.entries.toJson = result at hwrite ⊢
  generalize u.writeText path cache.entries.toJson = result' at hwrite ⊢
  cases hwrite with
  | error e => exact .inl ⟨_, rfl, rfl⟩
  | ok h' => exact .inr ⟨_, _, rfl, rfl, h'⟩

/-- **The end of a run.** -/
theorem Matches.finish (h : Matches b p q) (roots : List Path) :
    Agrees (b.finish roots p).tree (b.finish roots q).tree ∧
      (b.finish roots q).faults.Perm (b.finish roots p).faults := by
  unfold Batch.finish
  rw [h.checked]
  by_cases hchecked : p.books.checked = 0
  · rw [if_pos hchecked, if_pos hchecked]
    exact ⟨h.tree, h.faults.cons _⟩
  rw [if_neg hchecked, if_neg hchecked]
  cases b.cachePath with
  | none => exact ⟨h.tree, h.faults⟩
  | some path =>
    cases hdry : b.dryRun with
    | true => cases p.books.cache <;> cases q.books.cache <;> exact ⟨h.tree, h.faults⟩
    | false =>
      rw [h.cache hdry]
      cases p.books.cache with
      | none => exact ⟨h.tree, h.faults⟩
      | some cache =>
        simp only [Bool.false_eq_true, if_false]
        rcases save_agrees h.tree cache path with ⟨f, hp, hq⟩ | ⟨t', u', hp, hq, hagrees⟩
        · rw [hp, hq]
          exact ⟨h.tree, h.faults.cons _⟩
        · rw [hp, hq]
          exact ⟨hagrees, h.faults⟩

/-! ## The whole run -/

/-- In turn, a schedule makes no difference. -/
theorem foldl_runRoot_in_turn (jobs : List (Path × Schedule Books)) (p : Progress Books) :
    jobs.foldl (fun p job => (b.paced false).runRoot snapshot output p job.1 job.2) p =
      ((jobs.map Prod.fst).map fun root => (root, {})).foldl
        (fun p job => (b.paced false).runRoot snapshot output p job.1 job.2) p := by
  rw [List.foldl_map, List.foldl_map]
  rfl

/-- The files below each root go by keys of their own when the turn of the root comes.  Where
nothing is written, no key counts. -/
def KeysDistinct (b : Batch) (t : FileTree) (roots : List Path) (output : Option Path) : Prop :=
  b.dryRun = false → ∀ before root after, roots = before ++ root :: after →
    OwnKeys b (b.snapshot t) (b.reached t (before.map fun root => (root, {})) output).tree root
      (output.getD root)

/-- The directory of the cache file is not spelled as one below a root. -/
def CacheOutside (b : Batch) (roots : List Path) : Prop :=
  ∀ c, b.cachePath = some c → ∀ root ∈ roots, ∀ names, names ≠ [] →
    (Cache.empty c).directory.components ≠ root.components ++ names.map Component.name

theorem Ready.reached (h : Ready output roots t) (hjobs : Sound jobs)
    (hroots : ∀ job ∈ jobs, job.1 ∈ roots) :
    Ready output roots (b.reached t jobs output).tree := by
  unfold Batch.reached
  refine List.foldlRecOn (motive := fun p : Progress Books => Ready output roots p.tree) jobs _ h
    fun p hp job hjob => ?_
  exact hp.runRoot (hjobs job hjob).1 (hroots job hjob) (hjobs job hjob).2

/-- **Files share a key only if the cache file is in a directory below their root.** -/
theorem keysDistinct_of_cacheOutside (h : Ready output roots t)
    (hroots : ∀ root ∈ roots, root.Proper) (houtside : b.CacheOutside roots) :
    b.KeysDistinct t roots output := by
  intro _ before root after hsplit cache hcache pair hpair pair' hpair' hkey
  have hmem : ∀ x ∈ before ++ root :: after, x ∈ roots := fun x hx => hsplit ▸ hx
  have hroot : root ∈ roots := hmem root (by simp)
  have hready : Ready output roots
      (b.reached t (before.map fun root => (root, {})) output).tree := by
    refine h.reached (fun job hjob => ?_) fun job hjob => ?_
    all_goals
      obtain ⟨x, hx, rfl⟩ := List.mem_map.1 hjob
    · exact ⟨hroots x (hmem x (by simp [hx])), fun _ => .refl _, fun _ => .refl _⟩
    · exact hmem x (by simp [hx])
  generalize (b.reached t (before.map fun root => (root, {})) output).tree = u
    at hready hpair hpair'
  have hsel : Walk.SameFiles b.selection b.passing.selection := ⟨rfl, rfl⟩
  rw [← Walk.finds_of_linkFree hsel hready.linkFree] at hpair hpair'
  obtain ⟨lr, names, content, hlr, rfl, -, hfile⟩ :=
    exists_names_of_mem_files hready.wellFormed rfl (hroots root hroot) hpair
  obtain ⟨lr', names', content', hlr', rfl, -, hfile'⟩ :=
    exists_names_of_mem_files hready.wellFormed rfl (hroots root hroot) hpair'
  obtain rfl : lr = lr' := Except.ok.inj (hlr.symm.trans hlr')
  suffices hnames : names = names' by rw [hnames]
  by_cases hne : names = [] ∨ names' = []
  · -- the root is a file, and there is no other below it
    by_contra hnames
    have hprefix : lr ++ names <+: lr ++ names' ∨ lr ++ names' <+: lr ++ names := by
      rcases hne with rfl | rfl
      · exact .inl (by simp)
      · exact .inr (by simp)
    have hplaces : lr ++ names ≠ lr ++ names' := fun heq => hnames (List.append_cancel_left heq)
    rcases hprefix with hprefix | hprefix
    · exact not_prefix_of_files hready.wellFormed hfile hfile' hplaces hprefix
    · exact not_prefix_of_files hready.wellFormed hfile' hfile hplaces.symm hprefix
  · obtain ⟨hne, hne'⟩ := not_or.1 hne
    obtain ⟨c, hc⟩ : ∃ c, b.cachePath = some c := by
      cases hpath : b.cachePath with
      | none => simp [Batch.snapshot, hpath] at hcache
      | some c => exact ⟨c, rfl⟩
    rw [key_snapshot hc hcache, key_snapshot hc hcache] at hkey
    exact Cache.key_below_inj (hroots root hroot)
      (fun s hs => hready.wellFormed.isName hfile s (by simp [hs]))
      (fun s hs => hready.wellFormed.isName hfile' s (by simp [hs])) hne hne'
      (fun front hfront _ => houtside c hc root hroot front hfront)
      (fun front hfront _ => houtside c hc root hroot front hfront) hkey

/-- **Concurrent and sequential batches agree.**  In a tree without links, and in place or
under an output root that is apart from every root, a batch that works on the files of each
root at once, in any order and with its outcomes entered in any order, ends as the batch does
that works on them in turn: with the same tree, the cache file included, as many files written
and looked at, and the same faults, each as often.

Files below one root go by keys of their own: of two files that share a key the cache holds
what was entered last. -/
theorem run_concurrently (ht : t.WellFormed) (hlinks : t.LinkFree) (hjobs : Sound jobs)
    (houtput : ∀ o, output = some o → Separate t o (jobs.map Prod.fst))
    (hkeys : (b.paced false).KeysDistinct t (jobs.map Prod.fst) output) :
    Agrees ((b.paced true).runScheduled t jobs output).2
        ((b.paced false).run t (jobs.map Prod.fst) output).2 ∧
      ((b.paced false).run t (jobs.map Prod.fst) output).1.written =
        ((b.paced true).runScheduled t jobs output).1.written ∧
      ((b.paced false).run t (jobs.map Prod.fst) output).1.checked =
        ((b.paced true).runScheduled t jobs output).1.checked ∧
      ((b.paced false).run t (jobs.map Prod.fst) output).1.faults.Perm
        ((b.paced true).runScheduled t jobs output).1.faults := by
  have hready : Ready output (jobs.map Prod.fst) t := ⟨ht, hlinks, houtput⟩
  have hstart : Matches b ⟨t, { cache := b.snapshot t }, []⟩ ⟨t, { cache := b.snapshot t }, []⟩ :=
    ⟨.refl t, rfl, rfl, fun _ => rfl, .refl _⟩
  have hreached : Matches b ((b.paced true).reached t jobs output)
      ((b.paced false).reached t jobs output) := by
    refine hstart.foldl hjobs (fun job hjob => List.mem_map_of_mem hjob) hready hready ?_
    intro hdry before job after hsplit
    rw [foldl_runRoot_in_turn]
    refine hkeys hdry (before.map Prod.fst) job.1 (after.map Prod.fst) ?_
    rw [hsplit, List.map_append, List.map_cons]
  have hturn : (b.paced false).reached t ((jobs.map Prod.fst).map fun root => (root, {})) output =
      (b.paced false).reached t jobs output := (foldl_runRoot_in_turn jobs _).symm
  have hroots : ((jobs.map Prod.fst).map fun root => ((root, {}) : Path × Schedule Books)).map
      Prod.fst = jobs.map Prod.fst := by
    rw [List.map_map]
    exact List.map_id _
  obtain ⟨htree, hfaults⟩ := hreached.finish (jobs.map Prod.fst)
  rw [Batch.run, runScheduled_eq, runScheduled_eq, hturn, hroots]
  refine ⟨htree, hreached.written, hreached.checked, ?_⟩
  exact (List.reverse_perm _).trans (hfaults.trans (List.reverse_perm _).symm)

/-! ## Two files below one root -/

/-- A tree with two files below `src`.  From `src/sub` the path of one is the whole path of the
other. -/
def nestedTree : FileTree where
  entries := [(["src"], .directory), (["src", "sub"], .directory),
    (["src", "sub", "src"], .directory), (["src", "sub", "src", "x.swift"], .file "a\n".toUTF8),
    (["src", "x.swift"], .file "ab\n".toUTF8)]
  workingDirectory := []

theorem wellFormed_nestedTree : nestedTree.WellFormed := by decide +kernel

theorem linkFree_nestedTree : nestedTree.LinkFree :=
  FileTree.linkFree_of_entries (by decide +kernel)

theorem finds_nestedTree :
    Walk.finds nestedTree {} (Path.ofText "src") (Path.ofText "src") =
      [.file (Path.ofText "src/sub/src/x.swift") (Path.ofText "src/sub/src/x.swift"),
        .file (Path.ofText "src/x.swift") (Path.ofText "src/x.swift")] := by
  -- only `src` has more than one name in it
  have hnames : nestedTree.names ["src"] = ["sub", "x.swift"] := by
    unfold FileTree.names
    rw [List.mergeSort_of_pairwise (by decide +kernel)]
    rfl
  have hroot : Walk.inspectRoot nestedTree {} (Path.ofText "src") = .ok (some .directory) := rfl
  have hlocate : nestedTree.locate true (Path.ofText "src") = .ok ["src"] := rfl
  have hdown : ∀ deeper above, Walk.findsAt nestedTree {} (Path.ofText "src") (Path.ofText "src")
      above deeper ((Path.ofText "src").child "sub") "sub" =
        deeper ((Path.ofText "src").child "sub") := fun _ _ => rfl
  have hdepth : Walk.depthBound nestedTree = 48 + 1 := rfl
  rw [Walk.finds_eq wellFormed_nestedTree, hroot]
  simp only [hdepth]
  rw [Walk.descent, hlocate]
  simp only [hnames, List.flatMap_cons, List.flatMap_nil, hdown]
  decide +kernel

/-- The last file first. -/
def backwards : Schedule Books where
  works := List.reverse

theorem isFair_backwards : backwards.IsFair :=
  ⟨fun pairs => List.reverse_perm pairs, fun postings => .refl postings⟩

/-- Two files below one root, under an output root that is not there yet. -/
theorem run_concurrently_backwards :
    nestedTree.WellFormed ∧ nestedTree.LinkFree ∧
    Agrees
      (((standard "cache.json").paced true).runScheduled nestedTree
        [(Path.ofText "src", backwards)] (some (Path.ofText "out"))).2
      (((standard "cache.json").paced false).run nestedTree [Path.ofText "src"]
        (some (Path.ofText "out"))).2 := by
  have hseparate : Separate nestedTree (Path.ofText "out") [Path.ofText "src"] := by
    refine ⟨Path.proper_ofText "out", ⟨[], ["out"], [], rfl, .here, by decide,
      linkFree_nestedTree.straight _ _, by decide +kernel⟩, ?_, ?_⟩
    · decide +kernel
    · decide +kernel
  have hready : Ready (some (Path.ofText "out")) [Path.ofText "src"] nestedTree := by
    refine ⟨wellFormed_nestedTree, linkFree_nestedTree, fun o ho => ?_⟩
    rwa [← Option.some.inj ho]
  have hroots : ∀ root ∈ [Path.ofText "src"], root.Proper := by
    rintro root hroot
    rw [List.mem_singleton.1 hroot]
    exact Path.proper_ofText "src"
  have hjobs : Sound [(Path.ofText "src", backwards)] := by
    rintro job hjob
    rw [List.mem_singleton.1 hjob]
    exact ⟨Path.proper_ofText "src", isFair_backwards⟩
  have houtside : ((standard "cache.json").paced false).CacheOutside [Path.ofText "src"] := by
    rintro c hc root hroot names -
    obtain rfl : Path.ofText "cache.json" = c := Option.some.inj hc
    have hnone : (Cache.empty (Path.ofText "cache.json")).directory.components = [] := by
      decide +kernel
    have hsome : (Path.ofText "src").components ≠ [] := by decide +kernel
    rw [List.mem_singleton.1 hroot, hnone]
    exact fun heq => hsome (List.append_eq_nil_iff.1 heq.symm).1
  exact ⟨wellFormed_nestedTree, linkFree_nestedTree,
    (run_concurrently wellFormed_nestedTree linkFree_nestedTree hjobs hready.separate
      (keysDistinct_of_cacheOutside hready hroots houtside)).1⟩

/-- The batch for the two files, with a cache file in the directory from which they look the
same. -/
def sharing : Batch := standard "src/sub/cache.json"

theorem reached_sharing (schedule : Schedule Books) {pairs : List (Path × Path)}
    (hpairs : pairs = [(Path.ofText "src/sub/src/x.swift", Path.ofText "src/sub/src/x.swift"),
      (Path.ofText "src/x.swift", Path.ofText "src/x.swift")]) :
    (sharing.paced true).reached nestedTree [(Path.ofText "src", schedule)] none =
      (schedule.postings ((sharing.workOn (sharing.snapshot nestedTree)).workOff nestedTree
        (schedule.works pairs)).2.reverse).foldl Progress.post
        ⟨((sharing.workOn (sharing.snapshot nestedTree)).workOff nestedTree
          (schedule.works pairs)).1, { cache := sharing.snapshot nestedTree }, []⟩ := by
  have hrejection : (sharing.paced true).rejection? nestedTree (Path.ofText "src") = none := rfl
  have hfinds : Walk.finds nestedTree (sharing.paced true).selection (Path.ofText "src")
      ((none : Option Path).getD (Path.ofText "src")) = _ := finds_nestedTree
  have hconcurrently : (sharing.paced true).selection.concurrently = true := rfl
  simp only [reached, List.foldl_cons, List.foldl_nil, runRoot, hrejection, Work.enumerate,
    Work.atOnce]
  rw [if_pos hconcurrently, hfinds, hpairs]
  rfl

/-- What is saved under the key of the two files is what was entered under it. -/
theorem get?_load_sharing {p : Progress Books} {value : Option String} (hfair : schedule.IsFair)
    (hp : p = (sharing.paced true).reached nestedTree [(Path.ofText "src", schedule)] none)
    (hchecked : p.books.checked ≠ 0)
    (hfile : ((sharing.paced true).finish [Path.ofText "src"] p).tree.isFile
      (Path.ofText "src/sub/cache.json") = true)
    (hget : p.books.cache.bind (·.get? "src/x.swift") = value) :
    (Cache.load
      ((sharing.paced true).runScheduled nestedTree [(Path.ofText "src", schedule)] none).2
      (Path.ofText "src/sub/cache.json")).get? "src/x.swift" = value := by
  have hjobs : Sound [(Path.ofText "src", schedule)] := by
    rintro job hjob
    rw [List.mem_singleton.1 hjob]
    exact ⟨Path.proper_ofText "src", hfair⟩
  have hpath : (sharing.paced true).ProperCache := properCache_standard _
  subst hp
  rw [← hget]
  refine get?_load_run wellFormed_nestedTree rfl hjobs hpath rfl hchecked ?_ "src/x.swift"
  rw [runScheduled_eq]
  exact hfile

set_option maxRecDepth 10000 in
/-- **Two files that share a key**: the cache holds the length of the one that was entered
last, so what is saved depends on the order. -/
theorem run_concurrently_sharedKey :
    nestedTree.WellFormed ∧ nestedTree.LinkFree ∧
    ¬∀ schedule : Schedule Books, schedule.IsFair →
      Agrees
        ((sharing.paced true).runScheduled nestedTree [(Path.ofText "src", schedule)] none).2
        ((sharing.paced false).run nestedTree [Path.ofText "src"] none).2 := by
  refine ⟨wellFormed_nestedTree, linkFree_nestedTree, fun hall => ?_⟩
  have hfair : Schedule.IsFair ({} : Schedule Books) := ⟨fun _ => .refl _, fun _ => .refl _⟩
  -- both orders would save what the batch saves that works in turn
  have hagrees := (hall {} hfair).trans (hall backwards isFair_backwards).symm
  have hforth := get?_load_sharing hfair (reached_sharing {} rfl).symm (by decide +kernel)
    (by decide +kernel) rfl
  have hback := get?_load_sharing isFair_backwards (reached_sharing backwards rfl).symm
    (by decide +kernel) (by decide +kernel) rfl
  rw [Cache.load, hagrees.readText, ← Cache.load, hforth] at hback
  exact absurd hback (by decide +kernel)

end Batch
end Restyle
