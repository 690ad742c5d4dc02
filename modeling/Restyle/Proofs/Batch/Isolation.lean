import Restyle.Proofs.Batch.Rerun

/-!
# What happens to a file does not depend on the others

A run in place that visits a file once leaves the file, what the cache holds of it, and what
is reported about it as they follow from the bytes of the file and from what the cache
remembered of it, and from nothing else: the other files may be no text, or such that
formatting them fails.

The cache file is one of a kind.  It is written at the end, with what the run has learned
about all files, so that it can be visited, but what is left there is not what the visit made
of it.

* `reports`: the faults of visits, each with the path that was visited.
* `faults_runScheduled`: a run reports these, what it notices on the way, and what goes wrong
  at its end, and nothing else.
* `VisitedOnce`: a file that a run visits once.  `VisitedOnce.entryAt_run`,
  `VisitedOnce.get?_reached_eq` and `VisitedOnce.reports_eq` say what comes of it.
* `get?_reached_of_unvisited`, `get?_load_of_unvisited`: what the cache holds of files that
  are not visited stays.
* `run_isolated`: two runs do the same to a file that is the same for both.
-/

namespace Restyle
namespace Batch

open FileTree (Grows SameShape WellFormed)

variable {b : Batch} {snapshot : Option Cache} {t u : FileTree} {p path : Path}
  {l : Location} {order order' : List (Path × Path)} {content : ByteArray}
  {jobs jobs' : List (Path × Schedule Books)}

/-! ## What is reported -/

/-- What visits report: the faults of their records, each with the path that was visited. -/
def reports (b : Batch) (snapshot : Option Cache) (t : FileTree) (order : List (Path × Path)) :
    List (Path × Fault) :=
  (order.zip (b.visitAll snapshot t order).2).filterMap fun x =>
    x.2.outcome.fault?.map (x.1.1, ·)

theorem reports_append :
    b.reports snapshot t (order ++ order') = b.reports snapshot t order ++
      b.reports snapshot (b.visitAll snapshot t order).1 order' := by
  unfold reports
  rw [visitAll_append, List.zip_append length_visitAll.symm, List.filterMap_append]

theorem reports_cons (pair : Path × Path) (rest : List (Path × Path)) :
    b.reports snapshot t (pair :: rest) =
      ((b.visit snapshot t pair.1 pair.2).2.outcome.fault?.map (pair.1, ·)).toList ++
        b.reports snapshot (b.visit snapshot t pair.1 pair.2).1 rest := by
  unfold reports
  rw [visitAll_cons, List.zip_cons_cons, List.filterMap_cons]
  cases (b.visit snapshot t pair.1 pair.2).2.outcome.fault? <;> rfl

theorem map_snd_reports :
    (b.reports snapshot t order).map Prod.snd = faultsOf (b.visitAll snapshot t order).2 := by
  induction order generalizing t with
  | nil => rfl
  | cons pair rest ih =>
    rw [reports_cons, List.map_append, ih, visitAll_cons]
    unfold faultsOf
    rw [List.filterMap_cons]
    cases (b.visit snapshot t pair.1 pair.2).2.outcome.fault? <;> rfl

/-- What is reported about a path comes from a visit to it. -/
theorem filter_reports_of_notMem (h : ∀ pair ∈ order, pair.1 ≠ p) :
    (b.reports snapshot t order).filter (·.1 = p) = [] := by
  rw [List.filter_eq_nil_iff]
  intro x hx
  obtain ⟨⟨pair, record⟩, hmem, hfault⟩ := List.mem_filterMap.1 hx
  obtain ⟨f, -, rfl⟩ := Option.map_eq_some_iff.1 hfault
  simpa using h pair (List.of_mem_zip hmem).1

/-- What a run in place reports about its files. -/
def fileReports (b : Batch) (t : FileTree) (jobs : List (Path × Schedule Books)) :
    List (Path × Fault) :=
  b.reports (b.snapshot t) t (b.inPlaceOrder t jobs)

/-- **What a run in place reports**: what it notices on the way, the faults of its files, and
what goes wrong at its end. -/
theorem faults_runScheduled (ht : t.WellFormed) (hdry : b.dryRun = false) (hjobs : Sound jobs) :
    (b.runScheduled t jobs none).1.faults.Perm
      (b.inPlaceNotices t jobs ++ (b.fileReports t jobs).map Prod.snd ++
        b.closing (jobs.map Prod.fst) (b.reached t jobs none)) := by
  have hexact := (@accounts_reached b t .none jobs ht hdry hjobs).exact
  rw [List.append_nil] at hexact
  rw [runScheduled_eq, faults_finish, fileReports, map_snd_reports]
  exact (List.reverse_perm _).trans (List.perm_append_comm.trans (hexact.append_right _))

/-! ## A file that is visited once -/

/-- What formatting a file gives, given what the cache remembers of it. -/
def formattedFile (b : Batch) (remembered : Option String) (p : Path) (content : ByteArray) :
    Except Fault String :=
  match String.fromUTF8? content with
  | none => .error ⟨.reading, s!"Failed to read file {p.text}: {DiskError.notText.message}"⟩
  | some source => b.formatted remembered p source

/-- What the cache holds of a file after a visit. -/
def keptOf (b : Batch) (remembered : Option String) (p : Path) (content : ByteArray) :
    Option String :=
  match b.formattedFile remembered p content with
  | .ok result => some (stamp b.style result.utf8ByteSize)
  | .error _ => remembered

/-- What is reported about a file. -/
def reportOn (b : Batch) (remembered : Option String) (p : Path) (content : ByteArray) :
    List (Path × Fault) :=
  match b.formattedFile remembered p content with
  | .ok _ => []
  | .error f => [(p, f)]

/-- **What a visit in place to a file reports** follows from the bytes of the file and from
what is remembered of it. -/
theorem fault?_visit_self (ht : t.WellFormed) (hdry : b.dryRun = false)
    (hl : t.locate true p = .ok l) (hfile : t.lookup l = some (.file content)) :
    ((b.visit snapshot t p p).2.outcome.fault?.map (p, ·)).toList =
      b.reportOn (remembered snapshot p) p content := by
  unfold reportOn formattedFile
  cases htext : String.fromUTF8? content with
  | none =>
    have hread : t.readText p = .error .notText := by
      rw [FileTree.readText_eq, FileTree.entryAt_eq_ok_iff.2 ⟨l, hl, hfile⟩]
      simp only [htext]
    simp only [visit, hread]
    rfl
  | some source =>
    rw [← FileTree.toUTF8_of_fromUTF8? htext] at hfile
    simp only
    cases hformatted : b.formatted (remembered snapshot p) p source with
    | error f =>
      rw [visit_of_unformatted hl hfile hformatted]
      rfl
    | ok result =>
      rw [visit_of_formatted hdry ht hl hfile hformatted]
      split_ifs <;> rfl

/-- A file that a run in place visits once: one visited path leads to it. -/
structure VisitedOnce (b : Batch) (t : FileTree) (jobs : List (Path × Schedule Books)) (p : Path)
    (content : ByteArray) : Prop where
  /-- There is a file, with some bytes. -/
  file : t.entryAt true p = .ok (.file content)
  /-- No other visited path leads to it, and this one does not come up again. -/
  once : ((b.inPlaceOrder t jobs).map Prod.fst).filter
    (fun q => t.locate true q = t.locate true p) = [p]

namespace VisitedOnce

variable (h : VisitedOnce b t jobs p content)
include h

theorem exists_location : ∃ l, t.locate true p = .ok l ∧ t.lookup l = some (.file content) ∧
    leadingTo t (b.inPlaceOrder t jobs) l = [p] := by
  obtain ⟨l, hl, hfile⟩ := FileTree.entryAt_eq_ok_iff.1 h.file
  refine ⟨l, hl, hfile, ?_⟩
  have honce := h.once
  simp only [hl] at honce
  exact honce

/-- The visit to the file, and what comes before it and after it. -/
theorem exists_split (hl : t.locate true p = .ok l) {before after : List (Path × Path)}
    {pair : Path × Path} (horder : b.inPlaceOrder t jobs = before ++ pair :: after)
    (hpair : t.locate true pair.1 = .ok l) :
    pair.1 = p ∧ leadingTo t before l = [] ∧ leadingTo t after l = [] := by
  obtain ⟨l', hl', -, honce⟩ := h.exists_location
  obtain rfl : l' = l := Except.ok.inj (hl'.symm.trans hl)
  have hsplit : leadingTo t before l' ++ pair.1 :: leadingTo t after l' = [p] := by
    rw [← honce, horder]
    simp [leadingTo, hpair]
  rcases List.append_eq_cons_iff.1 hsplit with ⟨hbefore, hrest⟩ | ⟨more, -, hrest⟩
  · obtain ⟨hp, hafter⟩ := List.cons.inj hrest
    exact ⟨hp, hbefore, hafter⟩
  · simp at hrest

variable (ht : t.WellFormed) (hdry : b.dryRun = false) (hjobs : Sound jobs)
include ht hdry hjobs

/-- **What is reported about the file** follows from its bytes and from what is remembered of
it. -/
theorem reports_eq :
    (b.fileReports t jobs).filter (·.1 = p) =
      b.reportOn (remembered (b.snapshot t) p) p content := by
  obtain ⟨l, hl, hfile, honce⟩ := h.exists_location
  obtain ⟨⟨pair, hpair, hpair_eq⟩, -⟩ := mem_leadingTo.1 (honce ▸ List.mem_cons_self)
  obtain ⟨before, after, horder⟩ := List.append_of_mem hpair
  have hself : ∀ pair ∈ b.inPlaceOrder t jobs, pair.2 = pair.1 :=
    self_of_mem_inPlaceOrder ht hjobs
  rw [horder] at hself
  obtain ⟨-, hbefore, hafter⟩ := h.exists_split hl horder (hpair_eq ▸ hl)
  have hother : ∀ {some : List (Path × Path)}, leadingTo t some l = [] →
      ∀ x ∈ some, x.1 ≠ p := by
    rintro some hnone x hx rfl
    have hmem : x.1 ∈ leadingTo t some l := mem_leadingTo.2 ⟨⟨x, hx, rfl⟩, hl⟩
    simp [hnone] at hmem
  -- what comes before leaves the file as it is
  obtain ⟨hshape, hwell, hlookup⟩ := @lookup_visitAll b (b.snapshot t) t before ht hdry
    fun x hx => hself x (List.mem_append_left _ hx)
  have hfile' : (b.visitAll (b.snapshot t) t before).1.lookup l = some (.file content) := by
    rw [hlookup, hbefore, hfile]
    rfl
  have hreport := @fault?_visit_self b (b.snapshot t) _ p l content hwell hdry
    (by rw [hshape.locate, hl]) hfile'
  rw [fileReports, horder, reports_append, reports_cons, hself pair (by simp), hpair_eq, hreport,
    List.filter_append, List.filter_append, filter_reports_of_notMem (hother hbefore),
    filter_reports_of_notMem (hother hafter), List.nil_append, List.append_nil,
    List.filter_eq_self]
  intro x hx
  unfold reportOn at hx
  split at hx
  · simp at hx
  · simp [List.mem_singleton.1 hx]

/-- **What the cache holds of the file** in the end follows from its bytes and from what is
remembered of it, if no other visited file goes by its key. -/
theorem get?_reached_eq (hcache : b.cachePath = some path)
    (hkey : ∀ pair ∈ b.inPlaceOrder t jobs,
      (Cache.empty path).key pair.1 = (Cache.empty path).key p → pair.1 = p) :
    (b.reached t jobs none).books.cache.bind (·.get? ((Cache.empty path).key p)) =
      b.keptOf (remembered (b.snapshot t) p) p content := by
  obtain ⟨l, hl, hfile, honce⟩ := h.exists_location
  have hp : p ∈ leadingTo t (b.inPlaceOrder t jobs) l := honce ▸ List.mem_cons_self
  have hkeys : OwnsKeys path t (b.inPlaceOrder t jobs) l := by
    intro q hq pair hpair heq
    obtain rfl : q = p := by simpa [honce] using hq
    rw [hkey pair hpair heq, hl]
  have hsource : ∀ {before : List (Path × Path)} {source : String}, leadingTo t before l = [] →
      (b.reviseAll (b.snapshot t) (leadingTo t before l) (t.lookup l) =
        some (.file source.toUTF8) ↔ String.fromUTF8? content = some source) := by
    intro before source hbefore
    rw [hbefore, hfile]
    constructor
    · intro heq
      rw [Entry.file.inj (Option.some.inj heq), FileTree.fromUTF8?_toUTF8]
    · intro htext
      rw [FileTree.toUTF8_of_fromUTF8? htext]
      rfl
  unfold keptOf
  cases hresult : b.formattedFile (remembered (b.snapshot t) p) p content with
  | ok result =>
    refine get?_reached ht hdry hjobs hcache hkeys hp fun before pair after horder hpair => ?_
    obtain ⟨hpair_eq, hbefore, -⟩ := h.exists_split hl horder hpair
    unfold formattedFile at hresult
    split at hresult
    · simp at hresult
    · rename_i source htext
      exact ⟨source, (hsource hbefore).2 htext, hpair_eq ▸ hresult⟩
  | error f =>
    rw [get?_reached_of_fails ht hdry hjobs hcache hkeys hp, remembered, snapshot_eq hcache]
    · rw [Option.bind_some, Option.bind_some, key_snapshot hcache (snapshot_eq hcache t)]
    · intro before pair after horder hpair source hrevised result hformatted
      obtain ⟨hpair_eq, hbefore, -⟩ := h.exists_split hl horder hpair
      rw [hpair_eq] at hformatted
      simp only [formattedFile, (hsource hbefore).1 hrevised, hformatted] at hresult
      simp at hresult

/-- **What is left of the file** follows from its bytes and from what is remembered of it, if
it is not the cache file. -/
theorem entryAt_run (hpath : b.ProperCache)
    (hnot : ∀ path, b.cachePath = some path → t.locate true path ≠ t.locate true p) :
    (b.runScheduled t jobs none).2.entryAt true p =
      .ok (b.revised (remembered (b.snapshot t) p) (.file content)) := by
  obtain ⟨l, hl, hfile, honce⟩ := h.exists_location
  obtain ⟨hshape, hwell⟩ := sameShape_reached ht hdry hjobs
  have hrevised : (b.reached t jobs none).tree.lookup l =
      some (b.revised (remembered (b.snapshot t) p) (.file content)) := by
    rw [(goes_reached ht hdry hjobs).tree,
      (lookup_visitAll ht hdry (self_of_mem_inPlaceOrder ht hjobs)).2.2, honce, hfile]
    rfl
  obtain ⟨-, hgrows, -⟩ := lookup_runScheduled ht hdry hjobs hpath rfl
  refine FileTree.entryAt_eq_ok_iff.2 ⟨l, FileTree.locate_of_grows hgrows hl, ?_⟩
  rw [runScheduled_eq]
  refine lookup_finish_of_unchanged hpath _ hwell hrevised fun path hcache heq => ?_
  rw [hshape.locate] at heq
  exact hnot path hcache (heq.trans hl.symm)

end VisitedOnce

/-! ## Files that are not visited -/

section Unvisited

variable (ht : t.WellFormed) (hdry : b.dryRun = false) (hjobs : Sound jobs)
  (hcache : b.cachePath = some path) (hclear : b.clearCache = false) {key : String}
  (hkey : ∀ pair ∈ b.inPlaceOrder t jobs, (Cache.empty path).key pair.1 ≠ key)
include ht hdry hjobs hcache hclear hkey

/-- What the cache holds under a key of no visited file is what it held. -/
theorem get?_reached_of_unvisited :
    (b.reached t jobs none).books.cache.bind (·.get? key) = (Cache.load t path).get? key := by
  obtain ⟨entered, hperm, hbooks⟩ := (goes_reached ht hdry hjobs).books
  rw [hbooks, get?_enterAll_of_not_learned fun r hr v hv => ?_, snapshot_eq hcache, hclear]
  · rfl
  · obtain ⟨cache, before, pair, after, -, -, -, hcache', horder, hlearned, -⟩ :=
      learned_in_place ht hdry hjobs (hperm.mem_iff.1 hr) hv
    rw [key_snapshot hcache hcache'] at hlearned
    exact hkey pair (by simp [horder]) hlearned

/-- So does the cache file. -/
theorem get?_load_of_unvisited (hpath : b.ProperCache) :
    (Cache.load (b.runScheduled t jobs none).2 path).get? key = (Cache.load t path).get? key := by
  have hgoes := @goes_reached b t .none jobs ht hdry hjobs
  obtain ⟨-, hgrows, -⟩ := lookup_runScheduled ht hdry hjobs hpath rfl
  obtain ⟨entered, hperm, hbooks⟩ := hgoes.books
  by_cases hchecked : (b.reached t jobs none).books.checked = 0
  · -- no file is visited, so nothing changes
    have hnone : b.inPlaceOrder t jobs = [] := by
      rw [hbooks, checked_enterAll, hperm.length_eq, length_visitAll] at hchecked
      exact List.eq_nil_of_length_eq_zero (by omega)
    have htree : (b.runScheduled t jobs none).2 = t := by
      rw [runScheduled_eq, finish, if_pos hchecked]
      show (b.reached t jobs none).tree = t
      simpa [hnone] using hgoes.tree
    rw [htree]
  · cases hfile : (b.runScheduled t jobs none).2.isFile path with
    | true =>
      rw [get?_load_run ht hdry hjobs hpath hcache hchecked hfile,
        get?_reached_of_unvisited ht hdry hjobs hcache hclear hkey]
    | false =>
      -- the cache file is not there, and was not
      have hbefore : t.isFile path = false := by
        rw [Bool.eq_false_iff]
        intro hthere
        simp [FileTree.isFile_of_grows hgrows hthere] at hfile
      rw [load_eq_empty_of_not_isFile hfile, load_eq_empty_of_not_isFile hbefore]

end Unvisited

/-! ## Two runs -/

/-- **What happens to a file does not depend on the others.**  Two runs in place over any two
trees, in which a file has the same bytes, the cache remembers the same of it and the file is
visited once, leave the same of the file, unless it is the cache file; they leave the same of
it in the cache, if no other visited file goes by its key; and they report the same about it,
which is what their reports hold besides what is noticed on the way, the faults of other files
and what goes wrong at the end.  What the cache holds of files that are not visited stays,
unless it is cleared. -/
theorem run_isolated (hdry : b.dryRun = false) (hpath : b.ProperCache)
    (ht : t.WellFormed) (hu : u.WellFormed) (hjobs : Sound jobs) (hjobs' : Sound jobs')
    (h : VisitedOnce b t jobs p content) (h' : VisitedOnce b u jobs' p content)
    (hremembered : remembered (b.snapshot u) p = remembered (b.snapshot t) p) :
    ((∀ path, b.cachePath = some path →
        t.locate true path ≠ t.locate true p ∧ u.locate true path ≠ u.locate true p) →
      (b.runScheduled u jobs' none).2.entryAt true p =
        (b.runScheduled t jobs none).2.entryAt true p) ∧
    (∀ path, b.cachePath = some path →
      (∀ pair ∈ b.inPlaceOrder t jobs ++ b.inPlaceOrder u jobs',
        (Cache.empty path).key pair.1 = (Cache.empty path).key p → pair.1 = p) →
      (b.reached u jobs' none).books.cache.bind (·.get? ((Cache.empty path).key p)) =
        (b.reached t jobs none).books.cache.bind (·.get? ((Cache.empty path).key p))) ∧
    ((b.fileReports u jobs').filter (·.1 = p) = (b.fileReports t jobs).filter (·.1 = p) ∧
      (b.runScheduled t jobs none).1.faults.Perm
        (b.inPlaceNotices t jobs ++ (b.fileReports t jobs).map Prod.snd ++
          b.closing (jobs.map Prod.fst) (b.reached t jobs none)) ∧
      (b.runScheduled u jobs' none).1.faults.Perm
        (b.inPlaceNotices u jobs' ++ (b.fileReports u jobs').map Prod.snd ++
          b.closing (jobs'.map Prod.fst) (b.reached u jobs' none))) ∧
    ∀ path key, b.cachePath = some path → b.clearCache = false →
      (∀ pair ∈ b.inPlaceOrder t jobs, (Cache.empty path).key pair.1 ≠ key) →
      (b.reached t jobs none).books.cache.bind (·.get? key) = (Cache.load t path).get? key ∧
        (Cache.load (b.runScheduled t jobs none).2 path).get? key =
          (Cache.load t path).get? key := by
  refine ⟨fun hnot => ?_, fun path hcache hkey => ?_, ⟨?_, ?_, ?_⟩,
    fun path key hcache hclear hkey => ⟨?_, ?_⟩⟩
  · rw [h.entryAt_run ht hdry hjobs hpath fun path hcache => (hnot path hcache).1,
      h'.entryAt_run hu hdry hjobs' hpath fun path hcache => (hnot path hcache).2, hremembered]
  · have hkept := h.get?_reached_eq ht hdry hjobs hcache
      fun pair hpair => hkey pair (List.mem_append_left _ hpair)
    have hkept' := h'.get?_reached_eq hu hdry hjobs' hcache
      fun pair hpair => hkey pair (List.mem_append_right _ hpair)
    rw [hkept, hkept', hremembered]
  · rw [h.reports_eq ht hdry hjobs, h'.reports_eq hu hdry hjobs', hremembered]
  · exact faults_runScheduled ht hdry hjobs
  · exact faults_runScheduled hu hdry hjobs'
  · exact get?_reached_of_unvisited ht hdry hjobs hcache hclear hkey
  · exact get?_load_of_unvisited ht hdry hjobs hcache hclear hkey hpath

/-- A file that can be formatted beside another one, and a cache that holds something of a
file that is not there. -/
def besideTree (other : ByteArray) : FileTree where
  entries := [(["src"], .directory), (["src", "a.swift"], .file "a  b".toUTF8),
    (["lib"], .directory), (["lib", "b.swift"], .file other),
    (["cache.json"], .file "\x7b\"c\": \"d\"\x7d".toUTF8)]
  workingDirectory := []

/-- The jobs for some roots, without schedules of their own. -/
def plainJobs (roots : List String) : List (Path × Schedule Books) :=
  (roots.map Path.ofText).map fun root => (root, {})

set_option maxRecDepth 10000 in
/-- One run finds a text beside the file, and the other one bytes that are no text. -/
theorem run_isolated_beside :
    VisitedOnce (standard "cache.json") (besideTree "x".toUTF8) (plainJobs ["lib", "src"])
      (Path.ofText "src/a.swift") "a  b".toUTF8 ∧
    ((standard "cache.json").runScheduled (besideTree "x".toUTF8) (plainJobs ["lib", "src"])
      none).2.lookup ["src", "a.swift"] = some (.file "a b\n".toUTF8) ∧
    ((standard "cache.json").runScheduled (besideTree ⟨#[0xff]⟩) (plainJobs ["lib", "src"])
        none).2.entryAt true (Path.ofText "src/a.swift") =
      ((standard "cache.json").runScheduled (besideTree "x".toUTF8) (plainJobs ["lib", "src"])
        none).2.entryAt true (Path.ofText "src/a.swift") := by
  have hjobs : Sound (plainJobs ["lib", "src"]) := sound_of_texts ["lib", "src"]
  have h : VisitedOnce (standard "cache.json") (besideTree "x".toUTF8) (plainJobs ["lib", "src"])
      (Path.ofText "src/a.swift") "a  b".toUTF8 := ⟨by rfl, by decide +kernel⟩
  refine ⟨h, by decide +kernel, ?_⟩
  refine (run_isolated rfl (properCache_standard _) (by decide +kernel) (by decide +kernel) hjobs
    hjobs h ⟨by rfl, by decide +kernel⟩ (by decide +kernel)).1 fun path hpath => ?_
  obtain rfl : Path.ofText "cache.json" = path := Option.some.inj hpath
  decide +kernel

/-- A cache file that is of the selection, and another file. -/
def ownCacheTree (other : String) : FileTree where
  entries := [(["lib"], .directory), (["lib", "a.swift"], .file other.toUTF8),
    (["src"], .directory), (["src", "c.swift"], .file "x\n".toUTF8)]
  workingDirectory := []

set_option maxRecDepth 10000 in
/-- **The cache file is not left alone**: it is visited once, and then it is written with what
the run has learned about the other file. -/
theorem cacheFile_not_isolated :
    (ownCacheTree "abc\n").WellFormed ∧ (ownCacheTree "abcd\n").WellFormed ∧
    VisitedOnce (standard "src/c.swift") (ownCacheTree "abc\n") (plainJobs ["lib", "src"])
      (Path.ofText "src/c.swift") "x\n".toUTF8 ∧
    VisitedOnce (standard "src/c.swift") (ownCacheTree "abcd\n") (plainJobs ["lib", "src"])
      (Path.ofText "src/c.swift") "x\n".toUTF8 ∧
    remembered ((standard "src/c.swift").snapshot (ownCacheTree "abcd\n"))
        (Path.ofText "src/c.swift") =
      remembered ((standard "src/c.swift").snapshot (ownCacheTree "abc\n"))
        (Path.ofText "src/c.swift") ∧
    ((standard "src/c.swift").runScheduled (ownCacheTree "abcd\n") (plainJobs ["lib", "src"])
        none).2.entryAt true (Path.ofText "src/c.swift") ≠
      ((standard "src/c.swift").runScheduled (ownCacheTree "abc\n") (plainJobs ["lib", "src"])
        none).2.entryAt true (Path.ofText "src/c.swift") := by
  have hjobs : Sound (plainJobs ["lib", "src"]) := sound_of_texts ["lib", "src"]
  have ht : (ownCacheTree "abc\n").WellFormed := by decide +kernel
  have hu : (ownCacheTree "abcd\n").WellFormed := by decide +kernel
  refine ⟨ht, hu, ⟨by rfl, by decide +kernel⟩, ⟨by rfl, by decide +kernel⟩, by decide +kernel,
    fun hsame => ?_⟩
  -- the cache file holds the length of the other file
  have hload : ∀ {v w : FileTree} {path : Path}, v.entryAt true path = w.entryAt true path →
      Cache.load v path = Cache.load w path := by
    intro v w path heq
    rw [Cache.load, Cache.load, FileTree.readText_eq, FileTree.readText_eq, heq]
  have hget := congrArg (·.get? "lib/a.swift") (hload hsame)
  rw [get?_load_run hu rfl hjobs (properCache_standard _) rfl (by decide +kernel)
      (by decide +kernel),
    get?_load_run ht rfl hjobs (properCache_standard _) rfl (by decide +kernel)
      (by decide +kernel)] at hget
  exact absurd hget (by decide +kernel)

end Batch
end Restyle
