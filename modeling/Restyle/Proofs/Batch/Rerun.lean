import Restyle.Proofs.Batch.InPlace
import Restyle.Proofs.Formatting.Idempotence
import Restyle.Proofs.Walk.Depth

/-!
# Running a batch in place again

A second run in place finds the files as the first run left them, and a cache with what
the first run learned.  A file is skipped if the cache holds its length under its key, and
formatted otherwise.  Under a key the cache holds one length, so a length can be relied on
for the files that have their keys for themselves.

* `mem_inPlaceOrder_again`: the second run visits no file that the first one did not.
* `get?_reached`, `get?_reached_of_fails`: what the first run learns about a file.
* `remembered_again`: what the second run remembers of it.
* `revised_again`: what the first run has left, the next visit leaves alone.
* `run_in_place_again`: so the second run does nothing.
-/

namespace Restyle
namespace Batch

open FileTree (Grows SameShape WellFormed)

variable {b b' : Batch} {snapshot : Option Cache} {t left : FileTree} {p path : Path}
  {l : Location} {order : List (Path × Path)} {source result : String}
  {jobs jobs' : List (Path × Schedule Books)}

/-! ## What the second run visits -/

theorem mem_leadingTo : p ∈ leadingTo t order l ↔
    (∃ pair ∈ order, pair.1 = p) ∧ t.locate true p = .ok l := by
  simp [leadingTo]

/-- A root that is rejected is rejected in a tree with one file more. -/
theorem rejection?_of_oneMore {lc : Location} {root : Path} (h : Walk.OneMore t left lc)
    (hrejection : b.rejection? left root = none) : b.rejection? t root = none := by
  unfold rejection? at hrejection ⊢
  cases hentry : t.entryAt false root with
  | error error => rfl
  | ok e =>
    obtain ⟨lr, hlr, he⟩ := FileTree.entryAt_eq_ok_iff.1 hentry
    obtain ⟨e', he', hshape⟩ := Option.map_eq_some_iff.1 (h.grows.lookup he)
    have hentry' := FileTree.entryAt_eq_ok_iff.2 ⟨lr, FileTree.locate_of_grows h.grows hlr, he'⟩
    rw [hentry'] at hrejection
    cases e with
    | directory =>
      obtain rfl := Entry.shape_eq_directory.1 hshape
      exact hrejection
    | file content =>
      obtain ⟨content', rfl⟩ := Entry.shape_eq_file.1 hshape
      exact hrejection
    | link target =>
      -- what the link leads to is a directory in both trees, or has to be of the selection
      obtain rfl := Entry.shape_eq_link.1 hshape
      simp only [Entry.isLink, if_true] at hrejection ⊢
      split_ifs at hrejection with hfollow hkind
      rw [if_neg hfollow, if_neg]
      intro hkind'
      cases hdir : left.isDirectory root with
      | true => simp [h.isDirectory hdir] at hkind'
      | false => exact hkind (by simp_all)

section Again

variable (ht : t.WellFormed) (hdry : b.dryRun = false) (hjobs : Sound jobs)
  (hpath : b.ProperCache) (hleft : left = (b.runScheduled t jobs none).2)
include ht hdry hjobs hpath hleft

/-- After a run the tree has the shape that it had, or one file more: the cache file. -/
theorem sameShape_or_oneMore : SameShape t left ∨ ∃ path lc, b.cachePath = some path ∧
    left.locate true path = .ok lc ∧ Walk.OneMore t left lc := by
  obtain ⟨hwell, hgrows, -⟩ := lookup_runScheduled ht hdry hjobs hpath hleft
  rcases shape_runScheduled ht hdry hjobs hpath hleft with
    hshape | ⟨path, lc, content, hcache, hlc, -, hfile, hother⟩
  · exact .inl hshape
  · exact .inr ⟨path, lc, hcache, hlc, ht, hwell, hgrows, hother, content, hfile⟩

/-- Where a visited path leads after a run, it led before. -/
theorem locate_of_run (hnot : ∀ path, b.cachePath = some path → left.locate true path ≠ .ok l)
    (hl : left.locate true p = .ok l) : t.locate true p = .ok l := by
  rcases sameShape_or_oneMore ht hdry hjobs hpath hleft with
    hshape | ⟨path, lc, hcache, hlc, hmore⟩
  · rwa [hshape.locate] at hl
  · refine hmore.locate hl ?_
    rintro rfl
    exact hnot path hcache hlc

/-- **The second run visits no file that the first one did not**, other than the cache
file. -/
theorem mem_inPlaceOrder_again (hjobs' : Sound jobs')
    (hroots : jobs'.map Prod.fst = jobs.map Prod.fst) {pair : Path × Path}
    (hpair : pair ∈ b.inPlaceOrder left jobs')
    (hnot : ∀ path, b.cachePath = some path → left.locate true pair.1 ≠ left.locate true path) :
    pair ∈ b.inPlaceOrder t jobs := by
  obtain ⟨job', hjob', hrejection, hfound⟩ := (mem_inPlaceOrder hjobs').1 hpair
  obtain ⟨job, hjob, hroot⟩ : ∃ job ∈ jobs, job.1 = job'.1 := by
    have hmem : job'.1 ∈ jobs.map Prod.fst := hroots ▸ List.mem_map_of_mem hjob'
    exact List.mem_map.1 hmem
  rw [mem_inPlaceOrder hjobs]
  refine ⟨job, hjob, ?_⟩
  rw [hroot]
  rcases sameShape_or_oneMore ht hdry hjobs hpath hleft with
    hshape | ⟨path, lc, hcache, hlc, hmore⟩
  · rw [rejection?_of_sameShape hshape] at hrejection
    have hwell := (lookup_runScheduled ht hdry hjobs hpath hleft).1
    rw [Walk.finds_of_sameShape hshape ht hwell] at hfound
    exact ⟨hrejection, hfound⟩
  · refine ⟨rejection?_of_oneMore hmore hrejection, ?_⟩
    exact hmore.mem_files (hjobs' job' hjob').1 hfound (by rw [← hlc]; exact hnot path hcache)

end Again

/-! ## What the second run remembers -/

/-- The files at other locations go by other keys than the visited file at a location. -/
def OwnsKeys (path : Path) (t : FileTree) (order : List (Path × Path)) (l : Location) : Prop :=
  ∀ p ∈ leadingTo t order l, ∀ pair ∈ order,
    (Cache.empty path).key pair.1 = (Cache.empty path).key p → t.locate true pair.1 = .ok l

/-- Every visit to the file at a location gets through with the same result. -/
def Yields (b : Batch) (snapshot : Option Cache) (t : FileTree) (order : List (Path × Path))
    (l : Location) (result : String) : Prop :=
  ∀ before pair after, order = before ++ pair :: after → t.locate true pair.1 = .ok l →
    ∃ source, b.reviseAll snapshot (leadingTo t before l) (t.lookup l) =
        some (.file source.toUTF8) ∧
      b.formatted (remembered snapshot pair.1) pair.1 source = .ok result

/-- No visit to the file at a location gets through. -/
def Fails (b : Batch) (snapshot : Option Cache) (t : FileTree) (order : List (Path × Path))
    (l : Location) : Prop :=
  ∀ before pair after, order = before ++ pair :: after → t.locate true pair.1 = .ok l →
    ∀ source, b.reviseAll snapshot (leadingTo t before l) (t.lookup l) =
        some (.file source.toUTF8) →
      ∀ result, b.formatted (remembered snapshot pair.1) pair.1 source ≠ .ok result

section Memory

variable (ht : t.WellFormed) (hdry : b.dryRun = false) (hjobs : Sound jobs)
include ht hdry hjobs

/-- What a record of a run in place says to the cache comes from a visit. -/
theorem learned_in_place {r : Record} {key value : String}
    (hr : r ∈ (b.visitAll snapshot t (b.inPlaceOrder t jobs)).2)
    (h : r.learned = some (key, value)) :
    ∃ cache before pair after l source result, snapshot = some cache ∧
      b.inPlaceOrder t jobs = before ++ pair :: after ∧ cache.key pair.1 = key ∧
      t.locate true pair.1 = .ok l ∧
      b.reviseAll snapshot (leadingTo t before l) (t.lookup l) = some (.file source.toUTF8) ∧
      b.formatted (remembered snapshot pair.1) pair.1 source = .ok result ∧
      value = stamp b.style result.utf8ByteSize := by
  obtain ⟨before, pair, after, horder, rfl⟩ := mem_visitAll.1 hr
  have hself : ∀ pair ∈ b.inPlaceOrder t jobs, pair.2 = pair.1 :=
    self_of_mem_inPlaceOrder ht hjobs
  rw [horder] at hself
  obtain ⟨hshape, hwell, hlookup⟩ := @lookup_visitAll b snapshot t before ht hdry
    fun x hx => hself x (List.mem_append_left _ hx)
  rw [hself pair (by simp)] at h
  obtain ⟨cache, l, source, result, hcache, hkey, hl, hfile, hresult, hvalue⟩ :=
    learned_visit_self hwell hdry h
  rw [hshape.locate] at hl
  rw [hlookup] at hfile
  exact ⟨cache, before, pair, after, l, source, result, hcache, horder, hkey, hl, hfile, hresult,
    hvalue⟩

/-- A visit that gets through leaves a record that says so. -/
theorem exists_learned {cache : Cache} (hcache : snapshot = some cache)
    {before after : List (Path × Path)} {pair : Path × Path}
    (horder : b.inPlaceOrder t jobs = before ++ pair :: after)
    (hl : t.locate true pair.1 = .ok l)
    (hfile : b.reviseAll snapshot (leadingTo t before l) (t.lookup l) =
      some (.file source.toUTF8))
    (hresult : b.formatted (remembered snapshot pair.1) pair.1 source = .ok result) :
    ∃ r ∈ (b.visitAll snapshot t (b.inPlaceOrder t jobs)).2,
      r.learned = some (cache.key pair.1, stamp b.style result.utf8ByteSize) := by
  have hself : ∀ pair ∈ b.inPlaceOrder t jobs, pair.2 = pair.1 :=
    self_of_mem_inPlaceOrder ht hjobs
  refine ⟨_, mem_visitAll.2 ⟨before, pair, after, horder, rfl⟩, ?_⟩
  rw [horder] at hself
  obtain ⟨hshape, hwell, hlookup⟩ := @lookup_visitAll b snapshot t before ht hdry
    fun x hx => hself x (List.mem_append_left _ hx)
  rw [← hlookup] at hfile
  rw [hself pair (by simp), visit_of_formatted hdry hwell (by rwa [hshape.locate]) hfile hresult,
    hcache]
  split_ifs <;> rfl

variable (hcache : b.cachePath = some path) (hkeys : OwnsKeys path t (b.inPlaceOrder t jobs) l)
  (hp : p ∈ leadingTo t (b.inPlaceOrder t jobs) l)
include hcache hkeys hp

/-- **A run learns the length of a file that all visits give the same result.** -/
theorem get?_reached (hyields : Yields b (b.snapshot t) t (b.inPlaceOrder t jobs) l result) :
    (b.reached t jobs none).books.cache.bind (·.get? ((Cache.empty path).key p)) =
      some (stamp b.style result.utf8ByteSize) := by
  obtain ⟨entered, hperm, hbooks⟩ := (goes_reached ht hdry hjobs).books
  have hsnapshot := snapshot_eq hcache t
  rw [hbooks]
  refine get?_enterAll hsnapshot (fun r hr v hv => ?_) (.inr ?_)
  · -- other records under the key are about the same file
    obtain ⟨cache', before, pair, after, l', source, result', hcache', horder, hkey, hl', hfile,
      hresult, rfl⟩ := learned_in_place ht hdry hjobs (hperm.mem_iff.1 hr) hv
    rw [key_snapshot hcache hcache'] at hkey
    have hl := hkeys p hp pair (by simp [horder]) hkey
    obtain rfl : l' = l := Except.ok.inj (hl'.symm.trans hl)
    obtain ⟨source', hfile', hresult'⟩ := hyields before pair after horder hl
    obtain rfl : source = source' :=
      String.toByteArray_inj.1 (Entry.file.inj (Option.some.inj (hfile.symm.trans hfile')))
    rw [Except.ok.inj (hresult.symm.trans hresult')]
  · obtain ⟨⟨pair, hpair, rfl⟩, hl⟩ := mem_leadingTo.1 hp
    obtain ⟨before, after, horder⟩ := List.append_of_mem hpair
    obtain ⟨source, hfile, hresult⟩ := hyields before pair after horder hl
    obtain ⟨r, hr, hlearned⟩ := exists_learned ht hdry hjobs hsnapshot horder hl hfile hresult
    rw [key_snapshot hcache hsnapshot] at hlearned
    exact ⟨r, hperm.mem_iff.2 hr, hlearned⟩

/-- A run learns nothing about a file that fails. -/
theorem get?_reached_of_fails (hfails : Fails b (b.snapshot t) t (b.inPlaceOrder t jobs) l) :
    (b.reached t jobs none).books.cache.bind (·.get? ((Cache.empty path).key p)) =
      (b.snapshot t).bind (·.get? ((Cache.empty path).key p)) := by
  obtain ⟨entered, hperm, hbooks⟩ := (goes_reached ht hdry hjobs).books
  rw [hbooks]
  refine get?_enterAll_of_not_learned fun r hr v hv => ?_
  obtain ⟨cache, before, pair, after, l', source, result, hcache', horder, hkey, hl', hfile,
    hresult, -⟩ := learned_in_place ht hdry hjobs (hperm.mem_iff.1 hr) hv
  rw [key_snapshot hcache hcache'] at hkey
  have hl := hkeys p hp pair (by simp [horder]) hkey
  obtain rfl : l' = l := Except.ok.inj (hl'.symm.trans hl)
  exact hfails before pair after horder hl source hfile result hresult

omit hkeys in
/-- What a second run remembers is what the first one learned, if the cache file is
there. -/
theorem remembered_again (hpath : b.ProperCache) (hleft : left = (b.runScheduled t jobs none).2)
    (hcache' : b'.cachePath = some path) (hclear : b'.clearCache = false)
    (hfile : left.isFile path = true) :
    remembered (b'.snapshot left) p =
      (b.reached t jobs none).books.cache.bind (·.get? ((Cache.empty path).key p)) := by
  obtain ⟨entered, hperm, hbooks⟩ := (goes_reached ht hdry hjobs).books
  have hchecked : (b.reached t jobs none).books.checked ≠ 0 := by
    obtain ⟨⟨pair, hpair, -⟩, -⟩ := mem_leadingTo.1 hp
    rw [hbooks, checked_enterAll, hperm.length_eq, length_visitAll]
    have := List.length_pos_of_mem hpair
    omega
  obtain ⟨cache, hsome⟩ := (goes_reached ht hdry hjobs).exists_cache (snapshot_eq hcache t)
  rw [runScheduled_eq] at hleft
  subst hleft
  have hload := load_finish hpath _ (sameShape_reached ht hdry hjobs).2 hdry hchecked hcache hsome
    hfile
  rw [remembered, snapshot_eq hcache', hclear, hload, hsome]
  rfl

end Memory

/-! ## With the default rules -/

/-- A text that no visit changes, whatever is remembered of it. -/
def Settled (b : Batch) (source : String) : Prop :=
  ∀ remembered, b.revise remembered source = source

theorem settled_of_format (hrules : b.rules = Rule.defaults b.style)
    (h : Formatting.format b.style b.rules source = .ok result) : b.Settled result := by
  intro remembered
  rw [hrules] at h
  rw [revise, hrules, Formatting.format_of_format h]
  split_ifs <;> rfl

theorem settled_of_failure {failure : Formatting.Failure}
    (h : Formatting.format b.style b.rules source = .error failure) : b.Settled source := by
  intro remembered
  rw [revise, h]
  split_ifs <;> rfl

theorem reviseAll_cons (p : Path) (rest : List Path) (e : Option Entry) :
    b.reviseAll snapshot (p :: rest) e =
      b.reviseAll snapshot rest (e.map (b.revised (remembered snapshot p))) := rfl

/-- Where every visit leaves an entry alone, all visits do. -/
theorem reviseAll_of_fixed {paths : List Path} {e : Option Entry}
    (h : ∀ p ∈ paths, e.map (b.revised (remembered snapshot p)) = e) :
    b.reviseAll snapshot paths e = e := by
  induction paths with
  | nil => rfl
  | cons p rest ih =>
    rw [reviseAll_cons, h p List.mem_cons_self]
    exact ih fun q hq => h q (List.mem_cons_of_mem _ hq)

/-- **A text that every visit skips** is its own result at every visit. -/
theorem yields_of_skipped (hfile : t.lookup l = some (.file source.toUTF8))
    (hskip : ∀ p ∈ leadingTo t order l,
      remembered snapshot p = some (stamp b.style source.utf8ByteSize)) :
    Yields b snapshot t order l source := by
  intro before pair after horder hl
  have hbefore : ∀ p ∈ leadingTo t before l, p ∈ leadingTo t order l := by
    intro p hp
    obtain ⟨⟨x, hx, rfl⟩, hxl⟩ := mem_leadingTo.1 hp
    exact mem_leadingTo.2 ⟨⟨x, by simp [horder, hx], rfl⟩, hxl⟩
  have hpair : pair.1 ∈ leadingTo t order l :=
    mem_leadingTo.2 ⟨⟨pair, by simp [horder], rfl⟩, hl⟩
  refine ⟨source, ?_, ?_⟩
  · rw [hfile]
    refine reviseAll_of_fixed fun p hp => ?_
    rw [Option.map_some, revised_text, revise, if_pos (hskip p (hbefore p hp))]
  · rw [formatted, if_pos (hskip _ hpair)]

/-- **What visits make of a text with the default rules.**  A visit that does not skip the
text settles it, so that it is settled in the end or has been skipped by all visits. -/
theorem reviseAll_text (hrules : b.rules = Rule.defaults b.style) (paths : List Path)
    (source : String) :
    (∃ s, b.reviseAll snapshot paths (some (.file source.toUTF8)) = some (.file s.toUTF8) ∧
      b.Settled s) ∨
    b.reviseAll snapshot paths (some (.file source.toUTF8)) = some (.file source.toUTF8) ∧
      ∀ p ∈ paths, remembered snapshot p = some (stamp b.style source.utf8ByteSize) := by
  induction paths with
  | nil => exact .inr ⟨rfl, by simp⟩
  | cons p rest ih =>
    rw [reviseAll_cons, Option.map_some, revised_text]
    by_cases hskip : remembered snapshot p = some (stamp b.style source.utf8ByteSize)
    · rw [revise, if_pos hskip]
      refine ih.imp_right fun h => ⟨h.1, ?_⟩
      rintro q (_ | ⟨_, hq⟩)
      · exact hskip
      · exact h.2 q hq
    · have hsettled : b.Settled (b.revise (remembered snapshot p) source) := by
        rw [revise, if_neg hskip]
        cases hformat : Formatting.format b.style b.rules source with
        | ok text => exact settled_of_format hrules hformat
        | error failure => exact settled_of_failure hformat
      refine .inl ⟨_, reviseAll_of_fixed fun q _ => ?_, hsettled⟩
      rw [Option.map_some, revised_text, hsettled]

/-- A cache file that is not there counts as empty. -/
theorem load_eq_empty_of_not_isFile (h : t.isFile path = false) :
    Cache.load t path = Cache.empty path := by
  unfold Cache.load
  cases hread : t.readText path with
  | error e => rfl
  | ok text =>
    obtain ⟨lc, hlc, hfile⟩ := FileTree.readText_eq_ok_iff.1 hread
    rw [FileTree.isFile_iff.2 ⟨lc, _, hlc, hfile⟩] at h
    simp at h

/-- A cache that remembers something was loaded from its file. -/
theorem isFile_of_remembered {value : String} (h : remembered (b.snapshot t) p = some value) :
    b.clearCache = false ∧ ∃ path, b.cachePath = some path ∧ t.isFile path = true := by
  unfold remembered snapshot at h
  cases hcache : b.cachePath with
  | none => simp [hcache] at h
  | some path =>
    have hempty : ∀ key, (Cache.empty path).get? key = none := fun _ => rfl
    cases hclear : b.clearCache with
    | true => simp [hcache, hclear, hempty] at h
    | false =>
      refine ⟨rfl, path, rfl, ?_⟩
      cases hread : t.readText path with
      | error e => simp [hcache, hclear, Cache.load, hread, hempty] at h
      | ok text =>
        obtain ⟨l, hl, hfile⟩ := FileTree.readText_eq_ok_iff.1 hread
        exact FileTree.isFile_iff.2 ⟨l, _, hl, hfile⟩

/-- Visited paths that go by one key lead to one file. -/
def KeysApart (path : Path) (t : FileTree) (order : List (Path × Path)) : Prop :=
  ∀ x ∈ order, ∀ y ∈ order, (Cache.empty path).key x.1 = (Cache.empty path).key y.1 →
    t.locate true x.1 = t.locate true y.1

theorem KeysApart.ownsKeys (h : KeysApart path t order) (l : Location) :
    OwnsKeys path t order l := by
  intro p hp pair hpair hkey
  obtain ⟨⟨x, hx, rfl⟩, hl⟩ := mem_leadingTo.1 hp
  rw [h pair hpair x hx hkey, hl]

/-- **What a run in place has left, the next visit leaves alone.** -/
theorem revised_again (ht : t.WellFormed) (hdry : b.dryRun = false) (hjobs : Sound jobs)
    (hpath : b.ProperCache) (hleft : left = (b.runScheduled t jobs none).2)
    (hrules : b.rules = Rule.defaults b.style)
    (hkeys : b.clearCache = false → ∀ path, b.cachePath = some path →
      KeysApart path t (b.inPlaceOrder t jobs))
    (hnot : ∀ path, b.cachePath = some path → left.locate true path ≠ .ok l)
    (hp : p ∈ leadingTo t (b.inPlaceOrder t jobs) l) :
    (left.lookup l).map (b.revised (remembered (b.snapshot left) p)) = left.lookup l := by
  obtain ⟨-, hgrows, hlookup⟩ := lookup_runScheduled ht hdry hjobs hpath hleft
  rw [hlookup l hnot]
  rcases text_or_unrevised b (t.lookup l) with ⟨source, hentry⟩ | hfixed
  swap
  · rw [reviseAll_of_fixed fun _ _ => hfixed _, hfixed]
  rw [hentry]
  rcases @reviseAll_text b (b.snapshot t) hrules
    (leadingTo t (b.inPlaceOrder t jobs) l) source with ⟨s, hs, hsettled⟩ | ⟨hs, hskip⟩
  · rw [hs, Option.map_some, revised_text, hsettled]
  · -- the file was skipped by all visits, so its length is what the run has learned
    obtain ⟨hclear, path, hcache, hfile⟩ := isFile_of_remembered (hskip p hp)
    have hkeys' := (hkeys hclear path hcache).ownsKeys l
    have hagain := remembered_again ht hdry hjobs hcache hp hpath hleft hcache hclear
      (FileTree.isFile_of_grows hgrows hfile)
    rw [get?_reached ht hdry hjobs hcache hkeys' hp (yields_of_skipped hentry hskip)] at hagain
    rw [hs, Option.map_some, revised_text, revise, if_pos hagain]

/-- **Running a batch in place again does nothing**, with the default rules and without
links to follow: the second run writes no file, and every file other than the cache file
keeps its bytes.

The roots may overlap, and the cache file may hold anything before the first run.  It is
none of the visited files, and if it counts, visited paths that go by one key lead to one
file: of two files that share a key the cache holds one length only, so that the other one
may have been skipped for a length that is not remembered any more. -/
theorem run_in_place_again (hrules : b.rules = Rule.defaults b.style)
    (hlinks : b.selection.followLinks = false) (hdry : b.dryRun = false) (ht : t.WellFormed)
    (hpath : b.ProperCache) (hjobs : Sound jobs) (hjobs' : Sound jobs')
    (hroots : jobs'.map Prod.fst = jobs.map Prod.fst)
    (hleft : left = (b.runScheduled t jobs none).2)
    (hcache : ∀ path, b.cachePath = some path → ∀ pair ∈ b.inPlaceOrder left jobs',
      left.locate true pair.1 ≠ left.locate true path)
    (hkeys : b.clearCache = false → ∀ path, b.cachePath = some path →
      KeysApart path t (b.inPlaceOrder t jobs)) :
    (b.runScheduled left jobs' none).1.written = 0 ∧
      ∀ l content, left.lookup l = some (.file content) →
        (∀ path, b.cachePath = some path → left.locate true path ≠ .ok l) →
        (b.runScheduled left jobs' none).2.lookup l = some (.file content) := by
  obtain ⟨hwell, hgrows, -⟩ := lookup_runScheduled ht hdry hjobs hpath hleft
  have hgoes := @goes_reached b left .none jobs' hwell hdry hjobs'
  have hcalm : ∀ pair ∈ b.inPlaceOrder left jobs',
      (b.visit (b.snapshot left) left pair.1 pair.2).1 = left ∧
        (b.visit (b.snapshot left) left pair.1 pair.2).2.outcome.writes = false := by
    intro pair hpair
    obtain ⟨job, hjob, -, hfound⟩ := (mem_inPlaceOrder hjobs').1 hpair
    obtain ⟨l, content, hl, -⟩ :=
      Walk.locate_of_mem_files hwell hlinks (hjobs' job hjob).1 hfound
    have hnot : ∀ path, b.cachePath = some path → left.locate true path ≠ .ok l := by
      intro path hpath' heq
      exact hcache path hpath' pair hpair (hl.trans heq.symm)
    have hbefore : pair.1 ∈ leadingTo t (b.inPlaceOrder t jobs) l :=
      mem_leadingTo.2 ⟨⟨pair, mem_inPlaceOrder_again ht hdry hjobs hpath hleft hjobs' hroots
        hpair fun path hpath' => hcache path hpath' pair hpair, rfl⟩,
        locate_of_run ht hdry hjobs hpath hleft hnot hl⟩
    rw [self_of_mem_inPlaceOrder hwell hjobs' pair hpair]
    exact calm_visit_self hwell hdry hl
      (revised_again ht hdry hjobs hpath hleft hrules hkeys hnot hbefore)
  obtain ⟨htree, hwrites⟩ := visitAll_of_calm hcalm
  have hreached := hgoes.tree.trans htree
  rw [runScheduled_eq]
  constructor
  · obtain ⟨entered, hperm, hbooks⟩ := hgoes.books
    rw [hbooks, written_enterAll, Nat.zero_add, List.countP_eq_zero]
    intro r hr
    rw [hwrites r (hperm.mem_iff.1 hr)]
    simp
  · intro l content hfile hnot
    have hwell' := (@sameShape_reached b left .none jobs' hwell hdry hjobs').2
    rw [← hreached] at hfile hnot
    exact lookup_finish_of_unchanged hpath _ hwell' hfile hnot

/-- A file that can be formatted, one that cannot, and a cache that is wrong about the
second. -/
def staleTree : FileTree where
  entries := [(["lib"], .directory), (["lib", "b.swift"], .file "\x7b".toUTF8),
    (["src"], .directory), (["src", "a.swift"], .file "a  b".toUTF8),
    (["cache.json"], .file "\x7b\"lib/b.swift\": \"\"\x7d".toUTF8)]
  workingDirectory := []

set_option maxRecDepth 10000 in
/-- The file that can be formatted is visited twice, and written once. -/
theorem run_in_place_again_stale :
    staleTree.WellFormed ∧
    ((standard "cache.json").run staleTree
      (["lib", "src", "src/a.swift"].map Path.ofText) none).1.written = 1 ∧
    ((standard "cache.json").run
      ((standard "cache.json").run staleTree
        (["lib", "src", "src/a.swift"].map Path.ofText) none).2
      (["lib", "src", "src/a.swift"].map Path.ofText) none).1.written = 0 := by
  have ht : staleTree.WellFormed := by decide +kernel
  have hjobs := sound_of_texts ["lib", "src", "src/a.swift"]
  refine ⟨ht, by decide +kernel, ?_⟩
  refine (run_in_place_again rfl rfl rfl ht (properCache_standard _) hjobs hjobs rfl rfl ?_ ?_).1
  · intro path hpath
    obtain rfl : Path.ofText "cache.json" = path := Option.some.inj hpath
    decide +kernel
  · intro _ path hpath
    obtain rfl : Path.ofText "cache.json" = path := Option.some.inj hpath
    unfold KeysApart
    decide +kernel

/-- Two files that go by one key for the cache file in `w`: one by its path below `w`, and
one, which is not below `w`, by its whole path.  The cache holds the length of the first. -/
def sharedKeyTree : FileTree where
  entries := [(["a"], .directory), (["a", "f.swift"], .file "abcd\n".toUTF8),
    (["w"], .directory), (["w", "a"], .directory),
    (["w", "a", "f.swift"], .file "a  b".toUTF8),
    (["w", "cache.json"], .file ("\x7b\"a/f.swift\": \"" ++ stamp {} 4 ++ "\"\x7d").toUTF8)]
  workingDirectory := []

set_option maxRecDepth 10000 in
/-- **Two files that share a key**: the first run skips one of them and then remembers the
length of the other, so that the second run writes. -/
theorem run_in_place_again_sharedKey :
    sharedKeyTree.WellFormed ∧
    (standard "w/cache.json").selection.supports (Path.ofText "w/cache.json") = false ∧
    ((standard "w/cache.json").run
      ((standard "w/cache.json").run sharedKeyTree (["w/a", "a"].map Path.ofText) none).2
      (["w/a", "a"].map Path.ofText) none).1.written = 1 := by
  decide +kernel

end Batch
end Restyle
