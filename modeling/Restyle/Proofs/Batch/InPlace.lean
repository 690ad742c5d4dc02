import Restyle.Proofs.Batch.Visits

/-!
# Batches in place

Without an output root a batch writes every result over its own file.  It never adds an
entry to the tree, so it visits the files that were there to find when it started, and
what it does can be told for each location on its own: the file there is revised once
for every visited path that leads to it, or it is left alone if the disk does not let it be
read or written over.

* `visit_self_of_refusals`: what one visit does; `visit_self` is where nothing is refused.
  `learned_visit_self`: what the cache learns from it.
* `accounts_in_place`: the run over all roots, as visits in the order of the schedules.
* `lookup_visitAll_of_refusals`: what the visits make of the file at a location;
  `lookup_visitAll` is where nothing is refused.
* `lookup_runScheduled`: so for a whole run, the cache file apart.
-/

namespace Restyle
namespace Batch

open FileTree (Grows SameShape WellFormed)

variable {b : Batch} {snapshot : Option Cache} {t u : FileTree} {p : Path} {l : Location}
  {order : List (Path × Path)} {source result : String} {rf : Refusals}

/-! ## Writing over a file -/

/-- What is reported of a file that may not be written over. -/
def unwritableFile (p : Path) (e : DiskError) : Fault :=
  ⟨.writing, s!"Failed to write file {p.text}: {e.message}"⟩

/-- **Writing a result over a file replaces the file**, unless that is refused, and makes no
directory. -/
theorem writeOutput_of_file_of_refusals (ht : t.WellFormed) (hp : t.locate true p = .ok l)
    {content : ByteArray} (hfile : t.lookup l = some (.file content)) (text : String) :
    writeOutput t p text rf = match rf.writing l with
      | none => (t.put l (.file text.toUTF8), none)
      | some e => (t, some (unwritableFile p e)) := by
  obtain ⟨front, s, above, hsegments, hs, hfront, hdir⟩ :=
    FileTree.exists_name_of_file ht hp hfile
  obtain ⟨parent, hparent, htrims⟩ := Path.parent?_of_not_isIdle hsegments hs.1
  have hwrite := FileTree.writeText_of_file_of_refusals ht hp hfile text rf
  unfold writeOutput
  rw [hparent]
  cases hempty : parent.isEmpty with
  | true =>
    simp only [Option.filter, hempty, Bool.not_true, Bool.false_eq_true, if_false, hwrite]
    cases rf.writing l <;> rfl
  | false =>
    have hisDirectory : t.isDirectory parent = true :=
      FileTree.isDirectory_iff.2 ⟨above, FileTree.locate_of_trims hfront htrims hempty, hdir⟩
    simp only [Option.filter, hempty, Bool.not_false, if_true,
      FileTree.createDirectories_of_isDirectory hisDirectory, Option.map_none, hwrite]
    cases rf.writing l <;> rfl

theorem writeOutput_of_file (ht : t.WellFormed) (hp : t.locate true p = .ok l)
    {content : ByteArray} (hfile : t.lookup l = some (.file content)) (text : String) :
    writeOutput t p text = (t.put l (.file text.toUTF8), none) :=
  writeOutput_of_file_of_refusals ht hp hfile text

/-- Whether a disk lets a file be read and be written over. -/
def spares (rf : Refusals) (l : Location) : Bool :=
  (rf.reading l).isNone && (rf.writing l).isNone

@[simp] theorem spares_none (l : Location) : spares .none l = true := rfl

/-! ## What a visit makes of a file -/

/-- The text of a file after a visit: as it was if its stamp is remembered or if it cannot
be formatted, and formatted otherwise. -/
def revise (b : Batch) (remembered : Option String) (source : String) : String :=
  if remembered = some (stamp b.style source.utf8ByteSize) then source
  else (Formatting.format b.style b.rules source).toOption.getD source

theorem revise_of_formatted {remembered : Option String}
    (h : b.formatted remembered p source = .ok result) : b.revise remembered source = result := by
  unfold formatted at h
  unfold revise
  split_ifs at h ⊢
  · exact Except.ok.inj h
  · split at h
    · rename_i hformat
      rw [hformat]
      exact Except.ok.inj h
    · simp at h

theorem revise_of_formatted_error {remembered : Option String} {f : Fault}
    (h : b.formatted remembered p source = .error f) : b.revise remembered source = source := by
  unfold formatted at h
  unfold revise
  split_ifs at h ⊢
  split at h
  · simp at h
  · rename_i hformat
    rw [hformat]
    rfl

/-- An entry after a visit.  What is no text stays as it is. -/
def revised (b : Batch) (remembered : Option String) : Entry → Entry
  | .file content => .file ((String.fromUTF8? content).elim content fun source =>
      (b.revise remembered source).toUTF8)
  | e => e

theorem revised_text (remembered : Option String) (source : String) :
    b.revised remembered (.file source.toUTF8) =
      .file (b.revise remembered source).toUTF8 := by
  simp only [revised, FileTree.fromUTF8?_toUTF8]
  rfl

/-- **What stands at a place is a text, or every visit leaves it alone.** -/
theorem text_or_unrevised (b : Batch) (e : Option Entry) :
    (∃ source : String, e = some (.file source.toUTF8)) ∨
      ∀ remembered, e.map (b.revised remembered) = e := by
  cases e with
  | none => exact .inr fun _ => rfl
  | some e =>
    cases e with
    | directory => exact .inr fun _ => rfl
    | link target => exact .inr fun _ => rfl
    | file content =>
      cases htext : String.fromUTF8? content with
      | none => exact .inr fun _ => by simp [revised, htext]
      | some source => exact .inl ⟨source, by rw [FileTree.toUTF8_of_fromUTF8? htext]⟩

section Visit

variable (hl : t.locate true p = .ok l) (hfile : t.lookup l = some (.file source.toUTF8))
include hl hfile

theorem readText_of_spared (hread : rf.reading l = none) : t.readText p rf = .ok source :=
  FileTree.readText_eq_ok_iff_of_refusals.2
    ⟨by simpa [FileTree.readingRefusal?, hl] using hread,
      FileTree.readText_eq_ok_iff.2 ⟨l, hl, hfile⟩⟩

theorem visit_of_unformatted {f : Fault}
    (h : b.formatted (remembered snapshot p) p source = .error f) :
    b.visit snapshot t p p = (t, ⟨.failed f, none⟩) := by
  simp only [visit, readText_of_spared hl hfile (Refusals.none_reading l), h]

/-- **A visit in place that gets through a text** writes the result over it if that is another
text and the disk lets it. -/
theorem visit_of_formatted_of_refusals (hdry : b.dryRun = false) (ht : t.WellFormed)
    (hread : rf.reading l = none)
    (h : b.formatted (remembered snapshot p) p source = .ok result) :
    b.visit snapshot t p p rf =
      if result = source then (t, ⟨.upToDate, b.entryFor snapshot p result⟩)
      else match rf.writing l with
        | none => (t.put l (.file result.toUTF8), ⟨.written, b.entryFor snapshot p result⟩)
        | some e => (t, ⟨.unwritten (unwritableFile p e), b.entryFor snapshot p result⟩) := by
  simp only [visit, readText_of_spared hl hfile hread, h, isUpToDate, Path.same,
    beq_self_eq_true, if_true, hdry, Bool.false_eq_true, if_false, beq_iff_eq,
    writeOutput_of_file_of_refusals ht hl hfile]
  split_ifs
  · rfl
  · cases rf.writing l <;> rfl

end Visit

theorem visit_of_formatted (hdry : b.dryRun = false) (ht : t.WellFormed)
    (hl : t.locate true p = .ok l) (hfile : t.lookup l = some (.file source.toUTF8))
    (h : b.formatted (remembered snapshot p) p source = .ok result) :
    b.visit snapshot t p p =
      if result = source then (t, ⟨.upToDate, b.entryFor snapshot p result⟩)
      else (t.put l (.file result.toUTF8), ⟨.written, b.entryFor snapshot p result⟩) :=
  visit_of_formatted_of_refusals hl hfile hdry ht (Refusals.none_reading l) h

/-- **What one visit in place does.**  It fails and changes nothing, or it gets through a
text and writes the result over it if that is another text and the disk lets it. -/
theorem visit_self_of_refusals (ht : t.WellFormed) (hdry : b.dryRun = false) (p : Path)
    (rf : Refusals) :
    (∃ f, b.visit snapshot t p p rf = (t, ⟨.failed f, none⟩) ∧
      ∀ l, t.locate true p = .ok l → rf.reading l = none →
        (t.lookup l).map (b.revised (remembered snapshot p)) = t.lookup l) ∨
    ∃ l source result, t.locate true p = .ok l ∧ t.lookup l = some (.file source.toUTF8) ∧
      rf.reading l = none ∧ b.formatted (remembered snapshot p) p source = .ok result ∧
      b.visit snapshot t p p rf =
        if result = source then (t, ⟨.upToDate, b.entryFor snapshot p result⟩)
        else match rf.writing l with
          | none => (t.put l (.file result.toUTF8), ⟨.written, b.entryFor snapshot p result⟩)
          | some e => (t, ⟨.unwritten (unwritableFile p e), b.entryFor snapshot p result⟩) := by
  cases hread : t.readText p rf with
  | error e =>
    refine .inl ⟨_, by rw [visit, hread], fun l hl hspared => ?_⟩
    -- what cannot be read although nothing is refused is no text
    rcases text_or_unrevised b (t.lookup l) with ⟨source, hfile⟩ | hsame
    · simp [readText_of_spared hl hfile hspared] at hread
    · exact hsame _
  | ok source =>
    obtain ⟨hnot, htext⟩ := FileTree.readText_eq_ok_iff_of_refusals.1 hread
    obtain ⟨l, hl, hfile⟩ := FileTree.readText_eq_ok_iff.1 htext
    rw [FileTree.readingRefusal?, hl] at hnot
    cases hformatted : b.formatted (remembered snapshot p) p source with
    | error f =>
      refine .inl ⟨f, by simp only [visit, hread, hformatted], fun l' hl' _ => ?_⟩
      obtain rfl : l' = l := Except.ok.inj (hl'.symm.trans hl)
      rw [hfile, Option.map_some, revised_text, revise_of_formatted_error hformatted]
    | ok result =>
      exact .inr ⟨l, source, result, hl, hfile, hnot, hformatted,
        visit_of_formatted_of_refusals hl hfile hdry ht hnot hformatted⟩

theorem visit_self (ht : t.WellFormed) (hdry : b.dryRun = false) (p : Path) :
    (∃ f, b.visit snapshot t p p = (t, ⟨.failed f, none⟩) ∧
      ∀ l, t.locate true p = .ok l →
        (t.lookup l).map (b.revised (remembered snapshot p)) = t.lookup l) ∨
    ∃ l source result, t.locate true p = .ok l ∧ t.lookup l = some (.file source.toUTF8) ∧
      b.formatted (remembered snapshot p) p source = .ok result ∧
      b.visit snapshot t p p =
        if result = source then (t, ⟨.upToDate, b.entryFor snapshot p result⟩)
        else (t.put l (.file result.toUTF8), ⟨.written, b.entryFor snapshot p result⟩) := by
  simpa using @visit_self_of_refusals b snapshot t ht hdry p .none

/-- **What a visit in place makes of a location**: the file there is revised if the path leads to
it and the disk spares it. -/
theorem lookup_visit_self (ht : t.WellFormed) (hdry : b.dryRun = false) (p : Path)
    (l : Location) :
    (b.visit snapshot t p p rf).1.lookup l =
      if t.locate true p = .ok l ∧ spares rf l = true then
        (t.lookup l).map (b.revised (remembered snapshot p))
      else t.lookup l := by
  rcases @visit_self_of_refusals b snapshot t ht hdry p rf with
    ⟨f, hvisit, hsame⟩ | ⟨l', source, result, hl', hfile, hread, hresult, hvisit⟩
  · rw [hvisit]
    split_ifs with hl
    · exact (hsame l hl.1 (by simpa [spares] using (Bool.and_eq_true_iff.1 hl.2).1)).symm
    · rfl
  have hne : l' ≠ [] := by
    rintro rfl
    simp at hfile
  by_cases heq : l = l'
  · subst heq
    cases hwrite : rf.writing l with
    | some e =>
      rw [if_neg (by simp [spares, hwrite]), hvisit, hwrite]
      split_ifs <;> rfl
    | none =>
      rw [if_pos ⟨hl', by simp [spares, hread, hwrite]⟩, hvisit, hwrite, hfile, Option.map_some,
        revised_text, revise_of_formatted hresult]
      split_ifs with hsame
      · rw [hsame, hfile]
      · exact FileTree.lookup_put t _ hne
  · rw [if_neg (by rw [hl']; simpa using fun h => absurd h.symm heq), hvisit]
    split_ifs
    · rfl
    · cases rf.writing l' with
      | none => exact FileTree.lookup_put_of_ne t _ heq
      | some e => rfl

/-- A visit in place keeps the shape of the tree. -/
theorem sameShape_visit_self (ht : t.WellFormed) (hdry : b.dryRun = false) (p : Path) :
    SameShape t (b.visit snapshot t p p rf).1 ∧ (b.visit snapshot t p p rf).1.WellFormed := by
  rcases @visit_self_of_refusals b snapshot t ht hdry p rf with
    ⟨f, hvisit, -⟩ | ⟨l, source, result, hl, hfile, -, -, hvisit⟩
  · rw [hvisit]
    exact ⟨.refl t, ht⟩
  · rw [hvisit]
    split_ifs
    · exact ⟨.refl t, ht⟩
    · cases rf.writing l with
      | none => exact ⟨.put ht hfile, ht.put_file hfile _⟩
      | some e => exact ⟨.refl t, ht⟩

/-- **A visit learns the length of a result that is there in the end.** -/
theorem learned_visit_self (ht : t.WellFormed) (hdry : b.dryRun = false) {key value : String}
    (h : (b.visit snapshot t p p).2.learned = some (key, value)) :
    ∃ cache l source result, snapshot = some cache ∧ cache.key p = key ∧
      t.locate true p = .ok l ∧ t.lookup l = some (.file source.toUTF8) ∧
      b.formatted (remembered snapshot p) p source = .ok result ∧
      value = stamp b.style result.utf8ByteSize := by
  rcases @visit_self b snapshot t ht hdry p with
    ⟨f, hvisit, -⟩ | ⟨l, source, result, hl, hfile, hresult, hvisit⟩
  · simp [hvisit, Record.learned] at h
  · have hentry : b.entryFor snapshot p result = some (key, value) := by
      rw [hvisit] at h
      split_ifs at h <;> exact h
    cases snapshot with
    | none => simp [entryFor] at hentry
    | some cache =>
      obtain ⟨hkey, hvalue⟩ := Prod.mk.inj (Option.some.inj hentry)
      exact ⟨cache, l, source, result, rfl, hkey, hl, hfile, hresult, hvalue.symm⟩

/-- A visit that leaves the file as it is writes nothing. -/
theorem calm_visit_self (ht : t.WellFormed) (hdry : b.dryRun = false)
    (hl : t.locate true p = .ok l)
    (hsame : (t.lookup l).map (b.revised (remembered snapshot p)) = t.lookup l) :
    (b.visit snapshot t p p).1 = t ∧ (b.visit snapshot t p p).2.outcome.writes = false := by
  rcases @visit_self b snapshot t ht hdry p with
    ⟨f, hvisit, -⟩ | ⟨l', source, result, hl', hfile, hresult, hvisit⟩
  · rw [hvisit]
    exact ⟨rfl, rfl⟩
  · obtain rfl : l' = l := Except.ok.inj (hl'.symm.trans hl)
    rw [hfile, Option.map_some, revised_text, revise_of_formatted hresult] at hsame
    have htext : result = source :=
      String.toByteArray_inj.1 (Entry.file.inj (Option.some.inj hsame))
    rw [hvisit, if_pos htext]
    exact ⟨rfl, rfl⟩

/-! ## All visits -/

/-- The paths of an order that lead to a location. -/
def leadingTo (t : FileTree) (order : List (Path × Path)) (l : Location) : List Path :=
  (order.map Prod.fst).filter fun p => t.locate true p = .ok l

/-- What stands at a location after visits to some paths that lead there. -/
def reviseAll (b : Batch) (snapshot : Option Cache) (paths : List Path) (e : Option Entry) :
    Option Entry :=
  paths.foldl (fun e p => e.map (b.revised (remembered snapshot p))) e

/-- **What visits in place make of a location**: it is revised for every path that leads to
it if the disk spares it, and the shape of the tree is kept. -/
theorem lookup_visitAll_of_refusals (ht : t.WellFormed) (hdry : b.dryRun = false)
    (hself : ∀ pair ∈ order, pair.2 = pair.1) (rf : Refusals) :
    SameShape t (b.visitAll snapshot t order rf).1 ∧
      (b.visitAll snapshot t order rf).1.WellFormed ∧
      ∀ l, (b.visitAll snapshot t order rf).1.lookup l =
        if spares rf l then b.reviseAll snapshot (leadingTo t order l) (t.lookup l)
        else t.lookup l := by
  induction order generalizing t with
  | nil => exact ⟨.refl t, ht, fun _ => (ite_self _).symm⟩
  | cons pair rest ih =>
    have hpair := hself pair List.mem_cons_self
    obtain ⟨hshape, hwell⟩ := @sameShape_visit_self b snapshot t rf ht hdry pair.1
    obtain ⟨hshape', hwell', hlookup⟩ := ih hwell fun x hx => hself x (List.mem_cons_of_mem _ hx)
    rw [visitAll_cons, hpair]
    refine ⟨hshape.trans hshape', hwell', fun l => ?_⟩
    have hleading : leadingTo (b.visit snapshot t pair.1 pair.1 rf).1 rest l =
        leadingTo t rest l := by
      unfold leadingTo
      simp only [hshape.locate]
    rw [hlookup, hleading, lookup_visit_self ht hdry]
    unfold leadingTo reviseAll
    rw [List.map_cons, List.filter_cons]
    cases spares rf l with
    | false => simp
    | true =>
      by_cases hl : t.locate true pair.1 = .ok l
      · simp [hl]
      · simp [hl]

theorem lookup_visitAll (ht : t.WellFormed) (hdry : b.dryRun = false)
    (hself : ∀ pair ∈ order, pair.2 = pair.1) :
    SameShape t (b.visitAll snapshot t order).1 ∧ (b.visitAll snapshot t order).1.WellFormed ∧
      ∀ l, (b.visitAll snapshot t order).1.lookup l =
        b.reviseAll snapshot (leadingTo t order l) (t.lookup l) := by
  simpa using @lookup_visitAll_of_refusals b snapshot t order ht hdry hself .none

/-! ## The whole run -/

theorem rejection?_of_sameShape (h : SameShape t u) (root : Path) :
    b.rejection? u root = b.rejection? t root := by
  unfold rejection?
  rw [Walk.isDirectory_of_sameShape h]
  rcases FileTree.cases_of_except_map (@Walk.entryAt_shape t u root h false) with
    ⟨e, hu, ht⟩ | ⟨e, e', hu, ht, hshape⟩
  · rw [hu, ht]
  · rw [hu, ht]
    cases e <;> cases e' <;> simp_all [Entry.isLink, Entry.isDirectory]

theorem orderOf_of_sameShape (h : SameShape t u) (ht : t.WellFormed) (hu : u.WellFormed)
    (output : Option Path) (job : Path × Schedule Books) :
    b.orderOf u output job rf = b.orderOf t output job rf := by
  unfold orderOf
  rw [rejection?_of_sameShape h, Walk.finds_of_sameShape h ht hu]

theorem notices_of_sameShape (h : SameShape t u) (ht : t.WellFormed) (hu : u.WellFormed)
    (output : Option Path) (root : Path) :
    b.notices u output root rf = b.notices t output root rf := by
  unfold notices
  rw [rejection?_of_sameShape h, Walk.finds_of_sameShape h ht hu]

/-- The paths that a run in place visits, in order. -/
def inPlaceOrder (b : Batch) (t : FileTree) (jobs : List (Path × Schedule Books))
    (rf : Refusals := .none) : List (Path × Path) :=
  jobs.flatMap fun job => b.orderOf t none job rf

/-- What a run in place notices besides the faults of its files. -/
def inPlaceNotices (b : Batch) (t : FileTree) (jobs : List (Path × Schedule Books))
    (rf : Refusals := .none) : List Fault :=
  jobs.flatMap fun job => b.notices t none job.1 rf

/-- The jobs of a run: roots that texts spell, with fair schedules. -/
def Sound (jobs : List (Path × Schedule Books)) : Prop :=
  ∀ job ∈ jobs, job.1.Proper ∧ job.2.IsFair

theorem sound_of_texts (texts : List String) :
    Sound ((texts.map Path.ofText).map fun root => (root, {})) := by
  intro job hjob
  obtain ⟨root, hroot, rfl⟩ := List.mem_map.1 hjob
  obtain ⟨text, -, rfl⟩ := List.mem_map.1 hroot
  exact ⟨Path.proper_ofText text, fun _ => .refl _, fun _ => .refl _⟩

variable {jobs : List (Path × Schedule Books)}

theorem mem_inPlaceOrder (hjobs : Sound jobs) {pair : Path × Path} :
    pair ∈ b.inPlaceOrder t jobs rf ↔ ∃ job ∈ jobs, b.rejection? t job.1 = none ∧
      pair ∈ Walk.files (Walk.finds t b.selection job.1 job.1 rf) := by
  unfold inPlaceOrder
  rw [List.mem_flatMap]
  exact exists_congr fun job => and_congr_right fun hjob => mem_orderOf (hjobs job hjob).2

theorem self_of_mem_inPlaceOrder (ht : t.WellFormed) (hjobs : Sound jobs) :
    ∀ pair ∈ b.inPlaceOrder t jobs rf, pair.2 = pair.1 := by
  intro pair hpair
  obtain ⟨job, hjob, -, hfound⟩ := (mem_inPlaceOrder hjobs).1 hpair
  exact Walk.output_eq_of_mem_files ht (hjobs job hjob).1 hfound

/-- **A run in place is a sequence of visits** to the files that there were to find at its
start, and it accounts for every fault. -/
theorem accounts_in_place (ht : t.WellFormed) (hdry : b.dryRun = false) (hjobs : Sound jobs)
    {q : Progress Books} (hq : SameShape t q.tree) (hwell : q.tree.WellFormed) :
    Accounts b snapshot (b.inPlaceOrder t jobs rf) (b.inPlaceNotices t jobs rf) q
      (jobs.foldl (fun p job => b.runRoot snapshot none p job.1 job.2 rf) q) rf := by
  induction jobs generalizing q with
  | nil => exact .refl q
  | cons job rest ih =>
    have hjob := hjobs job List.mem_cons_self
    have hrest : Sound rest := fun x hx => hjobs x (List.mem_cons_of_mem _ hx)
    -- what is visited at one root keeps the shape of the tree
    have hself : ∀ pair ∈ Walk.files (Walk.finds q.tree b.selection job.1 job.1 rf),
        pair.2 = pair.1 := fun pair hpair =>
      Walk.output_eq_of_mem_files hwell hjob.1 hpair
    have hgoes := @accounts_runRoot b snapshot rf none job hjob.2 q
      (fun u => SameShape q.tree u ∧ u.WellFormed) [] hwell
      (fun u hu => Walk.alike_of_sameShape hu.2 hu.1) (.inr rfl) (fun _ => List.nil_prefix)
      (fun pair hpair u hu => by
        rw [hself pair hpair]
        obtain ⟨hshape, hwell'⟩ := @sameShape_visit_self b snapshot u rf hu.2 hdry pair.1
        exact ⟨hu.1.trans hshape, hwell'⟩) ⟨.refl _, hwell⟩
    rw [orderOf_of_sameShape hq ht hwell, notices_of_sameShape hq ht hwell] at hgoes
    have hself' : ∀ pair ∈ b.orderOf t none job rf, pair.2 = pair.1 := by
      intro pair hpair
      rw [← orderOf_of_sameShape hq ht hwell] at hpair
      exact hself pair ((mem_orderOf hjob.2).1 hpair).2
    obtain ⟨hshape, hwell', -⟩ :=
      @lookup_visitAll_of_refusals b snapshot q.tree _ hwell hdry hself' rf
    rw [← hgoes.tree] at hshape hwell'
    exact hgoes.trans (ih hrest (hq.trans hshape) hwell')

section Run

variable (ht : t.WellFormed) (hdry : b.dryRun = false) (hjobs : Sound jobs)
include ht hdry hjobs

theorem accounts_reached :
    Accounts b (b.snapshot t rf) (b.inPlaceOrder t jobs rf) (b.inPlaceNotices t jobs rf)
      ⟨t, { cache := b.snapshot t rf }, []⟩ (b.reached t jobs none rf) rf :=
  accounts_in_place ht hdry hjobs (.refl t) ht

theorem goes_reached :
    Goes b (b.snapshot t rf) (b.inPlaceOrder t jobs rf) ⟨t, { cache := b.snapshot t rf }, []⟩
      (b.reached t jobs none rf) rf :=
  (accounts_reached ht hdry hjobs).toGoes

theorem sameShape_reached :
    SameShape t (b.reached t jobs none rf).tree ∧ (b.reached t jobs none rf).tree.WellFormed := by
  obtain ⟨hshape, hwell, -⟩ := @lookup_visitAll_of_refusals b (b.snapshot t rf) t _ ht hdry
    (self_of_mem_inPlaceOrder ht hjobs) rf
  rw [(goes_reached ht hdry hjobs).tree]
  exact ⟨hshape, hwell⟩

/-- **What a run in place makes of the tree.**  Nothing is lost, and everything but what the
cache path leads to then is revised for every visited path that leads to it. -/
theorem lookup_runScheduled (hpath : b.ProperCache) {left : FileTree}
    (hleft : left = (b.runScheduled t jobs none).2) :
    left.WellFormed ∧ Grows t left ∧
      ∀ l, (∀ path, b.cachePath = some path → left.locate true path ≠ .ok l) →
        left.lookup l =
          b.reviseAll (b.snapshot t) (leadingTo t (b.inPlaceOrder t jobs) l) (t.lookup l) := by
  obtain ⟨hshape, hwell⟩ := sameShape_reached ht hdry hjobs
  obtain ⟨hwell', hgrows⟩ := wellFormed_finish hpath (jobs.map Prod.fst) hwell
  rw [runScheduled_eq] at hleft
  subst hleft
  refine ⟨hwell', hshape.grows.trans hgrows, fun l hl => ?_⟩
  rw [lookup_finish hpath _ hwell hl, (goes_reached ht hdry hjobs).tree]
  exact (lookup_visitAll ht hdry (self_of_mem_inPlaceOrder ht hjobs)).2.2 l

/-- A run in place keeps the shape of the tree, or it adds the cache file to it. -/
theorem shape_runScheduled (hpath : b.ProperCache) {left : FileTree}
    (hleft : left = (b.runScheduled t jobs none).2) :
    SameShape t left ∨
    ∃ path lc content, b.cachePath = some path ∧ left.locate true path = .ok lc ∧
      t.lookup lc = none ∧ left.lookup lc = some (.file content) ∧
      ∀ l, l ≠ lc → (left.lookup l).map Entry.shape = (t.lookup l).map Entry.shape := by
  obtain ⟨hshape, hwell⟩ := sameShape_reached ht hdry hjobs
  rw [runScheduled_eq] at hleft
  rcases tree_finish hpath (jobs.map Prod.fst) hwell with
    h | ⟨path, lc, content, hcache, hput, hlc, hfile, -, -, hold | ⟨old, hold⟩⟩
  · rw [hleft, h]
    exact .inl hshape
  · subst hleft
    refine .inr ⟨path, lc, content, hcache, hlc, ?_, hfile, fun l hl => ?_⟩
    · simpa [hold] using (hshape.lookup lc).symm
    · rw [hput, FileTree.lookup_put_of_ne _ _ hl, hshape.lookup]
  · rw [hleft, hput]
    exact .inl (hshape.trans (.put hwell hold))

/-- A cache file that is there after a run holds what the run has learned, if any file was
visited. -/
theorem get?_load_run (hpath : b.ProperCache) {path : Path} (hcache : b.cachePath = some path)
    (hchecked : (b.reached t jobs none).books.checked ≠ 0)
    (hfile : (b.runScheduled t jobs none).2.isFile path = true) (key : String) :
    (Cache.load (b.runScheduled t jobs none).2 path).get? key =
      (b.reached t jobs none).books.cache.bind (·.get? key) := by
  obtain ⟨cache, hsome⟩ := (goes_reached ht hdry hjobs).exists_cache (snapshot_eq hcache t)
  rw [runScheduled_eq] at hfile ⊢
  rw [load_finish hpath _ (sameShape_reached ht hdry hjobs).2 hdry hchecked hcache hsome hfile,
    hsome]
  rfl

end Run

end Batch
end Restyle
