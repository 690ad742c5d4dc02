import Restyle.Batch
import Restyle.Proofs.Cache
import Restyle.Proofs.Walk.Eligible

/-!
# A batch as a sequence of visits

What a batch does is told by its visits.  A `visit` works on one file: it may change the
tree, and it leaves a `Record`, which holds what came of the file and what the cache is
to remember.  The records are entered into the books in some order; what is entered does
not depend on the books, so the visits and the books can be told apart.

All of this holds whatever the disk refuses.  What it refuses, `rf`, is left out where it
refuses nothing.

* `workOn_eq`: the work on a file is its visit.  `tree_visit`, `tree_writeOutput`: what it does
  to the tree.
* `Goes`: a run goes from one state to another by visiting files in an order and entering
  their records in any order.  `Goes.trans` composes such runs.
* `goes_runRoot`: the run over one root visits the files that a walk finds, in the order
  of its schedule, as long as the visits keep the tree alike for the walk.
* `get?_enterAll`: what the cache holds under a key, if all records agree about it.
* `finish_cases`: what the end of a run does to the tree.
-/

namespace Restyle
namespace Batch

open FileTree (Grows SameShape WellFormed)

variable {b : Batch} {snapshot : Option Cache} {t u : FileTree} {input output : Path}
  {order : List (Path × Path)} {rf : Refusals}

/-! ## Writing a result -/

/-- Makes the directories above a result. -/
def makeAbove (t : FileTree) (p : Path) (rf : Refusals := .none) :
    FileTree × Option DiskError :=
  match p.parent?.filter (!·.isEmpty) with
  | none => (t, none)
  | some directory => t.createDirectories directory rf

/-- **What writing a result can do**: fail to make the directories above it, fail to write
the file, or write it. -/
theorem writeOutput_cases (t : FileTree) (p : Path) (text : String) (rf : Refusals := .none) :
    (∃ e f, makeAbove t p rf = ((writeOutput t p text rf).1, some e) ∧
      (writeOutput t p text rf).2 = some f) ∨
    ∃ made, makeAbove t p rf = (made, none) ∧
      ((∃ e f, made.writeText p text rf = .error e ∧
          writeOutput t p text rf = (made, some f)) ∨
        ∃ u, made.writeText p text rf = .ok u ∧ writeOutput t p text rf = (u, none)) := by
  have hwrite : ∀ {made : FileTree}, makeAbove t p rf = (made, none) →
      (∀ u, made.writeText p text rf = .ok u → writeOutput t p text rf = (u, none)) ∧
      ∀ e, made.writeText p text rf = .error e →
        ∃ f, writeOutput t p text rf = (made, some f) := by
    intro made hmade
    unfold makeAbove at hmade
    unfold writeOutput
    cases hparent : p.parent?.filter (!·.isEmpty) with
    | none =>
      rw [hparent] at hmade
      obtain rfl : t = made := congrArg Prod.fst hmade
      exact ⟨fun u hu => by simp [hu], fun e he => ⟨_, by simp only [he]; rfl⟩⟩
    | some directory =>
      rw [hparent] at hmade
      exact ⟨fun u hu => by simp [hmade, hu], fun e he => ⟨_, by simp only [hmade, he]; rfl⟩⟩
  cases hmade : makeAbove t p rf with
  | mk made error =>
    cases error with
    | none =>
      refine .inr ⟨made, rfl, ?_⟩
      cases htext : made.writeText p text rf with
      | error e =>
        obtain ⟨f, hf⟩ := (hwrite hmade).2 e htext
        exact .inl ⟨e, f, rfl, hf⟩
      | ok u => exact .inr ⟨u, rfl, (hwrite hmade).1 u htext⟩
    | some e =>
      refine .inl ⟨e, ?_⟩
      unfold makeAbove at hmade
      unfold writeOutput
      cases hparent : p.parent?.filter (!·.isEmpty) with
      | none =>
        rw [hparent] at hmade
        simp at hmade
      | some directory =>
        rw [hparent] at hmade
        simp only [hmade, Option.map_some]
        exact ⟨_, trivial, rfl⟩

theorem writeOutput_eq_of_ok {made : FileTree} {text : String}
    (hmade : makeAbove t input rf = (made, none)) (hwrite : made.writeText input text rf = .ok u) :
    writeOutput t input text rf = (u, none) := by
  rcases writeOutput_cases t input text rf with
    ⟨e, f, hfail, -⟩ | ⟨made', hmade', ⟨e, f, hfail, -⟩ | ⟨u', hu', hdone⟩⟩
  · simp [hmade] at hfail
  · obtain rfl : made = made' := by simpa using hmade.symm.trans hmade'
    simp [hwrite] at hfail
  · obtain rfl : made = made' := by simpa using hmade.symm.trans hmade'
    rw [hdone, ← Except.ok.inj (hwrite.symm.trans hu')]

/-- **What writing a result does to the tree**: it makes the directories above it, and then
writes the text, or nothing more. -/
theorem tree_writeOutput (t : FileTree) (p : Path) (text : String) (rf : Refusals := .none) :
    (writeOutput t p text rf).1 = (makeAbove t p rf).1 ∨
      (makeAbove t p rf).1.writeText p text rf = .ok (writeOutput t p text rf).1 := by
  rcases writeOutput_cases t p text rf with
    ⟨e, f, hmade, -⟩ | ⟨made, hmade, ⟨e, f, -, hdone⟩ | ⟨u, hu, hdone⟩⟩
  · exact .inl (by rw [hmade])
  · exact .inl (by rw [hmade, hdone])
  · exact .inr (by rw [hmade, hdone, hu])

/-! ## One visit -/

/-- The fault that an outcome reports. -/
def Outcome.fault? : Outcome → Option Fault
  | failed f => some f
  | unwritten f => some f
  | _ => none

/-- Whether a result was written, or would have been. -/
def Outcome.writes : Outcome → Bool
  | wouldWrite => true
  | written => true
  | _ => false

/-- What a visit leaves for the books. -/
structure Record where
  /-- What came of the file. -/
  outcome : Outcome
  /-- What the cache is to remember if the result is there in the end. -/
  entry : Option (String × String)

/-- What the cache remembers of a file. -/
def remembered (snapshot : Option Cache) (input : Path) : Option String :=
  snapshot.bind fun c => c.get? (c.key input)

/-- What the cache is to remember of a file with a formatted text. -/
def entryFor (b : Batch) (snapshot : Option Cache) (input : Path) (result : String) :
    Option (String × String) :=
  snapshot.map fun c => (c.key input, stamp b.style result.utf8ByteSize)

/-- Where nothing is remembered, a text is formatted. -/
theorem formatted_none {result : String} (p : Path) (source : String) :
    b.formatted none p source = .ok result ↔
      Formatting.format b.style b.rules source = .ok result := by
  unfold formatted
  rw [if_neg (by simp)]
  split
  · rename_i hformat
    simp [hformat]
  · rename_i hformat
    simp [hformat]

/-- Visits a file: the tree after that, and the record of the visit. -/
def visit (b : Batch) (snapshot : Option Cache) (t : FileTree) (input output : Path)
    (rf : Refusals := .none) : FileTree × Record :=
  match t.readText input rf with
  | .error e =>
    (t, ⟨.failed ⟨.reading, s!"Failed to read file {input.text}: {e.message}"⟩, none⟩)
  | .ok source =>
    match b.formatted (remembered snapshot input) input source with
    | .error f => (t, ⟨.failed f, none⟩)
    | .ok result =>
      if isUpToDate t input output source result rf then
        (t, ⟨.upToDate, b.entryFor snapshot input result⟩)
      else if b.dryRun then (t, ⟨.wouldWrite, b.entryFor snapshot input result⟩)
      else match writeOutput t output result rf with
        | (t, none) => (t, ⟨.written, b.entryFor snapshot input result⟩)
        | (t, some f) => (t, ⟨.unwritten f, b.entryFor snapshot input result⟩)

/-- **The work on a file is its visit**, and entering the record. -/
theorem workOn_eq (b : Batch) (snapshot : Option Cache) (t : FileTree) (input output : Path) :
    b.workOn snapshot rf t input output =
      ((b.visit snapshot t input output rf).1,
        Books.enter (b.visit snapshot t input output rf).2.outcome
          (b.visit snapshot t input output rf).2.entry) := by
  have hremembered : (snapshot.bind fun c => (snapshot.map (·.key input)).bind c.get?) =
      remembered snapshot input := by cases snapshot <;> rfl
  have hentry : ∀ result : String, ((snapshot.map (·.key input)).map fun k =>
      (k, stamp b.style result.utf8ByteSize)) = b.entryFor snapshot input result := by
    intro result
    cases snapshot <;> rfl
  unfold workOn visit
  simp only [hremembered, hentry]
  cases t.readText input rf with
  | error e => rfl
  | ok source =>
    simp only
    cases b.formatted (remembered snapshot input) input source with
    | error f => rfl
    | ok result =>
      simp only
      split_ifs
      · rfl
      · rfl
      · cases writeOutput t output result rf with
        | mk t' fault => cases fault <;> rfl

/-- **What a visit can do**: fail, find the result there already, leave it at what would be
written, or write it, which may fail as well. -/
theorem visit_cases (b : Batch) (snapshot : Option Cache) (t : FileTree) (input output : Path)
    (rf : Refusals := .none) :
    (∃ f, b.visit snapshot t input output rf = (t, ⟨.failed f, none⟩)) ∨
    ∃ source result, t.readText input rf = .ok source ∧
      b.formatted (remembered snapshot input) input source = .ok result ∧
      (isUpToDate t input output source result rf = true ∧ b.visit snapshot t input output rf =
          (t, ⟨.upToDate, b.entryFor snapshot input result⟩) ∨
        isUpToDate t input output source result rf = false ∧
          (b.dryRun = true ∧ b.visit snapshot t input output rf =
              (t, ⟨.wouldWrite, b.entryFor snapshot input result⟩) ∨
            b.dryRun = false ∧ b.visit snapshot t input output rf =
              ((writeOutput t output result rf).1, ⟨match (writeOutput t output result rf).2 with
                | none => .written
                | some f => .unwritten f, b.entryFor snapshot input result⟩))) := by
  cases hread : t.readText input rf with
  | error e => exact .inl ⟨_, by rw [visit, hread]⟩
  | ok source =>
    cases hformatted : b.formatted (remembered snapshot input) input source with
    | error f => exact .inl ⟨f, by simp only [visit, hread, hformatted]⟩
    | ok result =>
      refine .inr ⟨source, result, rfl, hformatted, ?_⟩
      simp only [visit, hread, hformatted]
      cases isUpToDate t input output source result rf with
      | true => exact .inl ⟨rfl, rfl⟩
      | false =>
        refine .inr ⟨rfl, ?_⟩
        cases b.dryRun with
        | true => exact .inl ⟨rfl, rfl⟩
        | false =>
          refine .inr ⟨rfl, ?_⟩
          cases writeOutput t output result rf with
          | mk u fault => cases fault <;> rfl

/-- **What a visit does to the tree**: nothing, or it writes a result, which no dry run
does. -/
theorem tree_visit (b : Batch) (snapshot : Option Cache) (t : FileTree) (input output : Path)
    (rf : Refusals := .none) :
    (b.visit snapshot t input output rf).1 = t ∨
      b.dryRun = false ∧ ∃ result,
        (b.visit snapshot t input output rf).1 = (writeOutput t output result rf).1 := by
  rcases visit_cases b snapshot t input output rf with
    ⟨f, hvisit⟩ | ⟨source, result, -, -, ⟨-, hvisit⟩ | ⟨-, ⟨-, hvisit⟩ | ⟨hdry, hvisit⟩⟩⟩
  · exact .inl (by rw [hvisit])
  · exact .inl (by rw [hvisit])
  · exact .inl (by rw [hvisit])
  · exact .inr ⟨hdry, result, by rw [hvisit]⟩

/-- Visits files one after the other. -/
def visitAll (b : Batch) (snapshot : Option Cache) (t : FileTree) (order : List (Path × Path))
    (rf : Refusals := .none) : FileTree × List Record :=
  match order with
  | [] => (t, [])
  | (input, output) :: rest =>
    let (t', record) := b.visit snapshot t input output rf
    let (t'', records) := visitAll b snapshot t' rest rf
    (t'', record :: records)

@[simp] theorem visitAll_nil : b.visitAll snapshot t [] rf = (t, []) := rfl

theorem visitAll_cons (pair : Path × Path) (rest : List (Path × Path)) :
    b.visitAll snapshot t (pair :: rest) rf =
      ((b.visitAll snapshot (b.visit snapshot t pair.1 pair.2 rf).1 rest rf).1,
        (b.visit snapshot t pair.1 pair.2 rf).2 ::
          (b.visitAll snapshot (b.visit snapshot t pair.1 pair.2 rf).1 rest rf).2) := rfl

theorem visitAll_append (order order' : List (Path × Path)) :
    b.visitAll snapshot t (order ++ order') rf =
      ((b.visitAll snapshot (b.visitAll snapshot t order rf).1 order' rf).1,
        (b.visitAll snapshot t order rf).2 ++
          (b.visitAll snapshot (b.visitAll snapshot t order rf).1 order' rf).2) := by
  induction order generalizing t with
  | nil => rfl
  | cons pair rest ih => simp only [List.cons_append, visitAll_cons, ih]

theorem length_visitAll : (b.visitAll snapshot t order rf).2.length = order.length := by
  induction order generalizing t with
  | nil => rfl
  | cons pair rest ih => rw [visitAll_cons, List.length_cons, ih, List.length_cons]

/-- A record is left by a visit to a tree that the visits before it left. -/
theorem mem_visitAll {r : Record} :
    r ∈ (b.visitAll snapshot t order rf).2 ↔
      ∃ before pair after, order = before ++ pair :: after ∧
        r = (b.visit snapshot (b.visitAll snapshot t before rf).1 pair.1 pair.2 rf).2 := by
  induction order generalizing t with
  | nil => simp
  | cons first rest ih =>
    rw [visitAll_cons, List.mem_cons, ih]
    constructor
    · rintro (rfl | ⟨before, pair, after, rfl, rfl⟩)
      · exact ⟨[], first, rest, rfl, rfl⟩
      · exact ⟨first :: before, pair, after, rfl, by rw [visitAll_cons]⟩
    · rintro ⟨before, pair, after, horder, rfl⟩
      cases before with
      | nil =>
        obtain ⟨rfl, rfl⟩ := List.cons.inj horder
        exact .inl rfl
      | cons x before =>
        obtain ⟨rfl, rfl⟩ := List.cons.inj horder
        exact .inr ⟨before, pair, after, rfl, by rw [visitAll_cons]⟩

/-- Visits that change nothing and write nothing leave the tree as it is. -/
theorem visitAll_of_calm (h : ∀ pair ∈ order, (b.visit snapshot t pair.1 pair.2 rf).1 = t ∧
      (b.visit snapshot t pair.1 pair.2 rf).2.outcome.writes = false) :
    (b.visitAll snapshot t order rf).1 = t ∧
      ∀ r ∈ (b.visitAll snapshot t order rf).2, r.outcome.writes = false := by
  induction order with
  | nil => simp
  | cons pair rest ih =>
    obtain ⟨htree, hwrites⟩ := h pair List.mem_cons_self
    obtain ⟨htree', hwrites'⟩ := ih fun x hx => h x (List.mem_cons_of_mem _ hx)
    rw [visitAll_cons, htree]
    exact ⟨htree', by simpa [hwrites] using hwrites'⟩

/-- If no visit writes, and a visit that does not write changes nothing, then all files are
visited in the tree as it is. -/
theorem writes_eq_false_of_visitAll (hcalm : ∀ pair ∈ order,
      (b.visit snapshot t pair.1 pair.2 rf).2.outcome.writes = false →
      (b.visit snapshot t pair.1 pair.2 rf).1 = t)
    (h : ∀ r ∈ (b.visitAll snapshot t order rf).2, r.outcome.writes = false) :
    ∀ pair ∈ order, (b.visit snapshot t pair.1 pair.2 rf).2.outcome.writes = false := by
  induction order with
  | nil => simp
  | cons first rest ih =>
    rw [visitAll_cons] at h
    have hfirst := h _ List.mem_cons_self
    rw [hcalm first List.mem_cons_self hfirst] at h
    rintro pair (_ | ⟨_, hpair⟩)
    · exact hfirst
    · exact ih (fun x hx => hcalm x (List.mem_cons_of_mem _ hx))
        (fun r hr => h r (List.mem_cons_of_mem _ hr)) pair hpair

/-! ## The books -/

/-- Enters a record into the books. -/
def Books.record (books : Books) (r : Record) : Books := (books.enter r.outcome r.entry).1

/-- Enters records into the books, one after the other. -/
def Books.enterAll (books : Books) (records : List Record) : Books :=
  records.foldl Books.record books

@[simp] theorem enterAll_nil (books : Books) : books.enterAll [] = books := rfl

theorem enterAll_cons (books : Books) (r : Record) (rest : List Record) :
    books.enterAll (r :: rest) = (books.record r).enterAll rest := rfl

theorem enter_eq (r : Record) (books : Books) :
    Books.enter r.outcome r.entry books = (books.record r, r.outcome.fault?) := by
  unfold Books.record Books.enter
  cases r.outcome <;> rfl

/-- What a record says to the cache: an entry, if the result is there in the end. -/
def Record.learned (r : Record) : Option (String × String) :=
  match r.outcome with
  | .upToDate => r.entry
  | .written => r.entry
  | _ => none

theorem written_record (books : Books) (r : Record) :
    (books.record r).written = books.written + if r.outcome.writes then 1 else 0 := by
  obtain ⟨outcome, entry⟩ := r
  cases outcome <;> simp [Books.record, Books.enter, Outcome.writes, Books.remember] <;>
    split <;> simp

theorem checked_record (books : Books) (r : Record) :
    (books.record r).checked = books.checked + 1 := by
  obtain ⟨outcome, entry⟩ := r
  cases outcome <;> simp [Books.record, Books.enter, Books.remember] <;> split <;> simp

theorem cache_record (books : Books) (r : Record) :
    (books.record r).cache = match books.cache, r.learned with
      | some cache, some (key, value) => some (cache.insert key value)
      | cache, _ => cache := by
  obtain ⟨outcome, entry⟩ := r
  cases hcache : books.cache <;> cases outcome <;> cases entry <;>
    simp [Books.record, Books.enter, Books.remember, Record.learned, hcache]

/-- **As many files are written as records say so.** -/
theorem written_enterAll (books : Books) (records : List Record) :
    (books.enterAll records).written =
      books.written + records.countP fun r => r.outcome.writes := by
  induction records generalizing books with
  | nil => rfl
  | cons r rest ih =>
    rw [enterAll_cons, ih, written_record, List.countP_cons]
    omega

theorem checked_enterAll (books : Books) (records : List Record) :
    (books.enterAll records).checked = books.checked + records.length := by
  induction records generalizing books with
  | nil => rfl
  | cons r rest ih =>
    rw [enterAll_cons, ih, checked_record, List.length_cons]
    omega

/-- There is a cache in the end iff there was one, for the same directory. -/
theorem directory_enterAll (books : Books) (records : List Record) :
    (books.enterAll records).cache.map Cache.directory = books.cache.map Cache.directory := by
  induction records generalizing books with
  | nil => rfl
  | cons r rest ih =>
    rw [enterAll_cons, ih, cache_record]
    cases books.cache <;> cases r.learned <;> rfl

/-- **What the cache holds under a key**: if it held a value, or a record has it, and no
record has another one, then it holds this value in the end. -/
theorem get?_enterAll {books : Books} {records : List Record} {key value : String} {cache : Cache}
    (hcache : books.cache = some cache)
    (hsame : ∀ r ∈ records, ∀ v, r.learned = some (key, v) → v = value)
    (hsome : cache.get? key = some value ∨ ∃ r ∈ records, r.learned = some (key, value)) :
    (books.enterAll records).cache.bind (·.get? key) = some value := by
  induction records generalizing books cache with
  | nil => simpa [hcache] using hsome
  | cons r rest ih =>
    have hrest : ∀ r' ∈ rest, ∀ v, r'.learned = some (key, v) → v = value :=
      fun r' hr' => hsame r' (List.mem_cons_of_mem _ hr')
    have hstep := cache_record books r
    rw [hcache] at hstep
    rw [enterAll_cons]
    cases hlearned : r.learned with
    | none =>
      rw [hlearned] at hstep
      refine ih hstep hrest (hsome.imp_right ?_)
      rintro ⟨r', hr', hvalue⟩
      rcases List.mem_cons.1 hr' with rfl | hr'
      · simp [hlearned] at hvalue
      · exact ⟨r', hr', hvalue⟩
    | some e =>
      obtain ⟨k, v⟩ := e
      rw [hlearned] at hstep
      refine ih hstep hrest ?_
      by_cases hk : key = k
      · subst hk
        obtain rfl := hsame r List.mem_cons_self v hlearned
        refine .inl ?_
        simp [Cache.get?, Cache.insert, StringMap.get?_insert]
      · have hget : (cache.insert k v).get? key = cache.get? key := by
          simp [Cache.get?, Cache.insert, StringMap.get?_insert, hk]
        rw [hget]
        refine hsome.imp_right ?_
        rintro ⟨r', hr', hvalue⟩
        rcases List.mem_cons.1 hr' with rfl | hr'
        · rw [hlearned] at hvalue
          simp_all
        · exact ⟨r', hr', hvalue⟩

/-- A key that no record has keeps its value. -/
theorem get?_enterAll_of_not_learned {books : Books} {records : List Record} {key : String}
    (h : ∀ r ∈ records, ∀ v, r.learned ≠ some (key, v)) :
    (books.enterAll records).cache.bind (·.get? key) = books.cache.bind (·.get? key) := by
  induction records generalizing books with
  | nil => rfl
  | cons r rest ih =>
    rw [enterAll_cons, ih fun r' hr' => h r' (List.mem_cons_of_mem _ hr'), cache_record]
    cases hcache : books.cache with
    | none => cases r.learned <;> rfl
    | some cache =>
      cases hlearned : r.learned with
      | none => rfl
      | some e =>
        obtain ⟨k, v⟩ := e
        have hk : key ≠ k := by
          rintro rfl
          exact h r List.mem_cons_self v hlearned
        simp [Cache.get?, Cache.insert, StringMap.get?_insert, hk]

/-! ## Runs -/

/-- A run goes from one state to another by visiting files in an order, and by entering
their records in any order.  What goes wrong with a file is reported. -/
structure Goes (b : Batch) (snapshot : Option Cache) (order : List (Path × Path))
    (p q : Progress Books) (rf : Refusals := .none) : Prop where
  /-- The tree is what the visits leave. -/
  tree : q.tree = (b.visitAll snapshot p.tree order rf).1
  /-- Every record is entered. -/
  books : ∃ entered, entered.Perm (b.visitAll snapshot p.tree order rf).2 ∧
    q.books = p.books.enterAll entered
  /-- No fault is lost. -/
  faults : ∃ more, q.faults = more ++ p.faults ∧
    ∀ r ∈ (b.visitAll snapshot p.tree order rf).2, ∀ f, r.outcome.fault? = some f → f ∈ more

namespace Goes

variable {p q r : Progress Books} {order' : List (Path × Path)}

theorem note (p : Progress Books) (f : Fault) : Goes b snapshot [] p (p.note (some f)) rf :=
  ⟨rfl, ⟨[], .refl _, rfl⟩, [f], rfl, by simp⟩

theorem refl (p : Progress Books) : Goes b snapshot [] p p rf :=
  ⟨rfl, ⟨[], .refl _, rfl⟩, [], rfl, by simp⟩

theorem trans (h : Goes b snapshot order p q rf) (h' : Goes b snapshot order' q r rf) :
    Goes b snapshot (order ++ order') p r rf := by
  have htree := h.tree
  obtain ⟨entered, hperm, hbooks⟩ := h.books
  obtain ⟨entered', hperm', hbooks'⟩ := h'.books
  obtain ⟨more, hfaults, hreported⟩ := h.faults
  obtain ⟨more', hfaults', hreported'⟩ := h'.faults
  rw [htree] at hperm' hreported'
  refine ⟨?_, ⟨entered ++ entered', ?_, ?_⟩, more' ++ more, ?_, fun record hrecord f hf => ?_⟩
  · rw [h'.tree, htree, visitAll_append]
  · rw [visitAll_append]
    exact hperm.append hperm'
  · rw [hbooks', hbooks, Books.enterAll, Books.enterAll, Books.enterAll, List.foldl_append]
  · rw [hfaults', hfaults, List.append_assoc]
  · rw [visitAll_append] at hrecord
    rcases List.mem_append.1 hrecord with hrecord | hrecord
    · exact List.mem_append_right _ (hreported record hrecord f hf)
    · exact List.mem_append_left _ (hreported' record hrecord f hf)

/-- A run with a cache has one at its end. -/
theorem exists_cache (h : Goes b snapshot order p q rf) {cache : Cache}
    (hcache : p.books.cache = some cache) : ∃ cache, q.books.cache = some cache := by
  obtain ⟨entered, -, hbooks⟩ := h.books
  have hdirectory := directory_enterAll p.books entered
  rw [← hbooks, hcache] at hdirectory
  cases hq : q.books.cache with
  | none => simp [hq] at hdirectory
  | some cache => exact ⟨cache, rfl⟩

end Goes

/-- The faults of some records, in order. -/
def faultsOf (records : List Record) : List Fault :=
  records.filterMap fun r => r.outcome.fault?

@[simp] theorem faultsOf_nil : faultsOf [] = [] := rfl

theorem faultsOf_append (records records' : List Record) :
    faultsOf (records ++ records') = faultsOf records ++ faultsOf records' :=
  List.filterMap_append

/-- A run that accounts for every fault: what it reports is what it notices on the way, and
the faults of its records, each as often as it comes up. -/
structure Accounts (b : Batch) (snapshot : Option Cache) (order : List (Path × Path))
    (noticed : List Fault) (p q : Progress Books) (rf : Refusals := .none) : Prop
    extends Goes b snapshot order p q rf where
  /-- Nothing is lost, and nothing is made up. -/
  exact : q.faults.Perm
    (noticed ++ faultsOf (b.visitAll snapshot p.tree order rf).2 ++ p.faults)

namespace Accounts

variable {p q r : Progress Books} {order' : List (Path × Path)} {noticed noticed' : List Fault}

theorem note (p : Progress Books) (f : Fault) :
    Accounts b snapshot [] [f] p (p.note (some f)) rf :=
  ⟨.note p f, .refl _⟩

theorem refl (p : Progress Books) : Accounts b snapshot [] [] p p rf := ⟨.refl p, .refl _⟩

theorem trans (h : Accounts b snapshot order noticed p q rf)
    (h' : Accounts b snapshot order' noticed' q r rf) :
    Accounts b snapshot (order ++ order') (noticed ++ noticed') p r rf := by
  refine ⟨h.toGoes.trans h'.toGoes, List.perm_iff_count.2 fun f => ?_⟩
  have hfirst := List.perm_iff_count.1 h.exact f
  have hsecond := List.perm_iff_count.1 h'.exact f
  rw [h.tree] at hsecond
  rw [visitAll_append, faultsOf_append]
  simp only [List.count_append] at hfirst hsecond ⊢
  omega

end Accounts

theorem post_record (p : Progress Books) (r : Record) :
    p.post (Books.enter r.outcome r.entry) =
      { p with books := p.books.record r }.note r.outcome.fault? := by
  rw [Progress.post, enter_eq]

/-- Working on one file is a run. -/
theorem accounts_advance (b : Batch) (snapshot : Option Cache) (input output : Path)
    (p : Progress Books) (rf : Refusals := .none) :
    Accounts b snapshot [(input, output)] [] p
      (Progress.advance (b.workOn snapshot rf) input output p) rf := by
  rw [Progress.advance, workOn_eq]
  simp only [post_record]
  have hfaults : faultsOf (b.visitAll snapshot p.tree [(input, output)] rf).2 =
      (b.visit snapshot p.tree input output rf).2.outcome.fault?.toList := by
    rw [visitAll_cons, visitAll_nil]
    cases hfault : (b.visit snapshot p.tree input output rf).2.outcome.fault? <;>
      simp [faultsOf, hfault]
  cases hfault : (b.visit snapshot p.tree input output rf).2.outcome.fault? with
  | none =>
    refine ⟨⟨rfl, ⟨_, .refl _, rfl⟩, [], rfl, fun r hr f hf => ?_⟩, ?_⟩
    · obtain rfl : r = (b.visit snapshot p.tree input output rf).2 := by
        simpa [visitAll_cons] using hr
      simp [hfault] at hf
    · rw [hfaults, hfault]
      exact .refl _
  | some fault =>
    refine ⟨⟨rfl, ⟨_, .refl _, rfl⟩, [fault], rfl, fun r hr f hf => ?_⟩, ?_⟩
    · obtain rfl : r = (b.visit snapshot p.tree input output rf).2 := by
        simpa [visitAll_cons] using hr
      rw [hfault] at hf
      simpa using hf.symm
    · rw [hfaults, hfault]
      exact .refl _

/-- The visitor of a batch that works on files in turn. -/
def visitor (b : Batch) (snapshot : Option Cache) (rf : Refusals := .none) :
    Walk.Visitor (Progress Books) where
  tree := Progress.tree
  file := Progress.advance (b.workOn snapshot rf)
  fault := fun f p => p.note (some f)
  refusals := rf

/-- Meeting finds one after the other is a run over the files among them. -/
theorem accounts_foldl_meet (finds : List Walk.Find) (p : Progress Books) :
    Accounts b snapshot (Walk.files finds) (Walk.faults finds) p
      (finds.foldl (b.visitor snapshot rf).meet p) rf := by
  induction finds generalizing p with
  | nil => exact .refl p
  | cons find rest ih =>
    cases find with
    | file input output => exact (accounts_advance b snapshot input output p rf).trans (ih _)
    | fault f => exact (Accounts.note p f).trans (ih _)

/-- What is permuted after a function is the function of what is permuted. -/
theorem exists_perm_map {α β : Type} {f : α → β} {l : List α} {l' : List β}
    (h : l'.Perm (l.map f)) : ∃ l₀ : List α, l₀.Perm l ∧ l' = l₀.map f := by
  generalize hm : l.map f = m at h
  induction h generalizing l with
  | nil =>
    obtain rfl : l = [] := by simpa using hm
    exact ⟨[], .refl _, rfl⟩
  | cons x _ ih =>
    obtain ⟨a, rest, rfl, rfl, hrest⟩ := List.map_eq_cons_iff.1 hm
    obtain ⟨l₀, hperm, rfl⟩ := ih hrest
    exact ⟨a :: l₀, hperm.cons a, rfl⟩
  | swap x y rest =>
    obtain ⟨a, l₁, rfl, rfl, hl₁⟩ := List.map_eq_cons_iff.1 hm
    obtain ⟨c, l₂, rfl, rfl, rfl⟩ := List.map_eq_cons_iff.1 hl₁
    exact ⟨c :: a :: l₂, .swap a c l₂, rfl⟩
  | trans _ _ ih₁ ih₂ =>
    obtain ⟨l₁, hperm₁, rfl⟩ := ih₂ hm
    obtain ⟨l₀, hperm₀, rfl⟩ := ih₁ rfl
    exact ⟨l₀, hperm₀.trans hperm₁, rfl⟩

theorem workOff_eq (order : List (Path × Path)) (t : FileTree) :
    (b.workOn snapshot rf).workOff t order =
      ((b.visitAll snapshot t order rf).1,
        ((b.visitAll snapshot t order rf).2.map fun r =>
          Books.enter r.outcome r.entry).reverse) := by
  -- the postings before the first file are kept as they are
  have hfold : ∀ (order : List (Path × Path)) (t : FileTree) (postings : List (Posting Books)),
      order.foldl (fun (x : FileTree × List (Posting Books)) (pair : Path × Path) =>
          ((b.workOn snapshot rf x.1 pair.1 pair.2).1,
            (b.workOn snapshot rf x.1 pair.1 pair.2).2 :: x.2)) (t, postings) =
        ((b.visitAll snapshot t order rf).1,
          ((b.visitAll snapshot t order rf).2.map fun r =>
            Books.enter r.outcome r.entry).reverse ++ postings) := by
    intro order
    induction order with
    | nil => intros; rfl
    | cons pair rest ih =>
      intro t postings
      rw [List.foldl_cons, ih, visitAll_cons, workOn_eq]
      simp
  have hempty := hfold order t []
  rw [List.append_nil] at hempty
  exact hempty

/-- Entering records one after the other. -/
theorem foldl_post (records : List Record) (p : Progress Books) :
    (records.map fun r => Books.enter r.outcome r.entry).foldl Progress.post p =
      ⟨p.tree, p.books.enterAll records, (faultsOf records).reverse ++ p.faults⟩ := by
  induction records generalizing p with
  | nil => rfl
  | cons r rest ih =>
    rw [List.map_cons, List.foldl_cons, post_record, ih]
    cases hfault : r.outcome.fault? with
    | none => simp [faultsOf, hfault, Progress.note, Books.enterAll]
    | some fault => simp [faultsOf, hfault, Progress.note, Books.enterAll]

/-- Finding all files first is a run over them in the order of the schedule. -/
theorem accounts_atOnce {schedule : Schedule Books} (hfair : schedule.IsFair) (sel : Selection)
    (root output : Path) (p : Progress Books) :
    Accounts b snapshot (schedule.works (Walk.files (Walk.finds p.tree sel root output rf)))
      (Walk.faults (Walk.finds p.tree sel root output rf)) p
      ((b.workOn snapshot rf).atOnce schedule sel root output p rf) rf := by
  have hnotes : ∀ (faults : List Fault) (p : Progress Books),
      Accounts b snapshot [] faults p (faults.foldl (fun p f => p.note (some f)) p) rf := by
    intro faults
    induction faults with
    | nil => exact Accounts.refl
    | cons f rest ih =>
      intro p
      exact (Accounts.note p f).trans (ih _)
  have hnoted := hnotes (Walk.faults (Walk.finds p.tree sel root output rf)) p
  rw [← List.append_nil (Walk.faults _)]
  refine hnoted.trans ?_
  unfold Work.atOnce
  simp only [workOff_eq, List.reverse_reverse]
  generalize (Walk.faults (Walk.finds p.tree sel root output rf)).foldl
    (fun p f => p.note (some f)) p = p'
  obtain ⟨entered, hperm, hentered⟩ := exists_perm_map (hfair.2 _)
  rw [hentered, foldl_post]
  refine ⟨⟨rfl, ⟨entered, hperm, rfl⟩, _, rfl, fun r hr f hf => ?_⟩, ?_⟩
  · exact List.mem_reverse.2 (List.mem_filterMap.2 ⟨r, hperm.mem_iff.2 hr, hf⟩)
  · exact ((List.reverse_perm _).trans (hperm.filterMap _)).append_right _

/-- The files of a root in the order in which they are visited. -/
def orderOf (b : Batch) (t : FileTree) (output : Option Path) (job : Path × Schedule Books)
    (rf : Refusals := .none) : List (Path × Path) :=
  let found := Walk.files (Walk.finds t b.selection job.1 (output.getD job.1) rf)
  if (b.rejection? t job.1).isSome then []
  else if b.selection.concurrently then job.2.works found
  else found

theorem mem_orderOf {output : Option Path} {job : Path × Schedule Books}
    (hfair : job.2.IsFair) {pair : Path × Path} :
    pair ∈ b.orderOf t output job rf ↔ b.rejection? t job.1 = none ∧
      pair ∈ Walk.files (Walk.finds t b.selection job.1 (output.getD job.1) rf) := by
  unfold orderOf
  cases b.rejection? t job.1 with
  | some f => simp
  | none =>
    cases b.selection.concurrently with
    | true => simpa using (hfair.1 _).mem_iff
    | false => simp

/-- Without links to follow, whether a root is rejected depends on what kind of entry it
is. -/
theorem rejection?_of_shape {u : FileTree} {root : Path} {e e' : Entry}
    (hlinks : b.selection.followLinks = false) (ht : t.entryAt false root = .ok e)
    (hu : u.entryAt false root = .ok e') (hshape : e'.shape = e.shape) :
    b.rejection? u root = b.rejection? t root := by
  unfold rejection?
  rw [ht, hu]
  cases e <;> cases e' <;>
    simp_all [Entry.shape, Entry.isLink, Entry.isDirectory]

/-- What a run over a root notices besides the faults of its files: that the root is
rejected, or what goes wrong on the walk. -/
def notices (b : Batch) (t : FileTree) (output : Option Path) (root : Path)
    (rf : Refusals := .none) : List Fault :=
  (b.rejection? t root).elim
    (Walk.faults (Walk.finds t b.selection root (output.getD root) rf)) fun f => [f]

section Root

variable {output : Option Path} {job : Path × Schedule Books} (hfair : job.2.IsFair)
  {p : Progress Books} {J : FileTree → Prop} {base : Location} (ht : p.tree.WellFormed)
  (hJ : ∀ u, J u → Walk.Alike base p.tree u)
  (hlinks : b.selection.followLinks = false ∨ base = [])
  (hbase : ∀ {lr}, p.tree.locate true job.1 = .ok lr → base <+: lr)
  (hstep : ∀ pair ∈ Walk.files (Walk.finds p.tree b.selection job.1 (output.getD job.1) rf),
    ∀ u, J u → J (b.visit snapshot u pair.1 pair.2 rf).1) (hp : J p.tree)
include hfair ht hJ hlinks hbase hstep hp

/-- **The run over one root visits the files that a walk finds there**, in the order of its
schedule, as long as the visits keep the tree alike for the walk. -/
theorem accounts_runRoot :
    Accounts b snapshot (b.orderOf p.tree output job rf) (b.notices p.tree output job.1 rf) p
      (b.runRoot snapshot output p job.1 job.2 rf) rf := by
  unfold runRoot orderOf notices
  cases b.rejection? p.tree job.1 with
  | some f => exact Accounts.note p f
  | none =>
    simp only [Option.isSome_none, Bool.false_eq_true, if_false, Work.enumerate, Option.elim_none]
    cases b.selection.concurrently with
    | true => exact accounts_atOnce hfair _ _ _ _
    | false =>
      have hreplay := @Walk.run_eq_foldl _ (b.visitor snapshot rf) b.selection base job.1
        (output.getD job.1) (fun q => J q.tree) p ht (fun q hq => hJ q.tree hq) hlinks hbase
        (fun find hfind q hq => ?_) hp
      · simp only [Bool.false_eq_true, if_false, Work.inTurn]
        exact hreplay ▸ accounts_foldl_meet _ p
      · cases find with
        | fault f => exact hq
        | file input output =>
          have hvisit := hstep (input, output) (Walk.mem_files.2 hfind) q.tree hq
          have htree : ((b.visitor snapshot rf).meet q (.file input output)).tree =
              (b.visit snapshot q.tree input output rf).1 :=
            (accounts_advance b snapshot input output q rf).tree
          rwa [htree]

theorem goes_runRoot :
    Goes b snapshot (b.orderOf p.tree output job rf) p
      (b.runRoot snapshot output p job.1 job.2 rf) rf :=
  (accounts_runRoot hfair ht hJ hlinks hbase hstep hp).toGoes

end Root

/-! ## The end of a run -/

/-- The state of a run after its last root. -/
def reached (b : Batch) (t : FileTree) (jobs : List (Path × Schedule Books))
    (output : Option Path) (rf : Refusals := .none) : Progress Books :=
  jobs.foldl (fun p job => b.runRoot (b.snapshot t rf) output p job.1 job.2 rf)
    ⟨t, { cache := b.snapshot t rf }, []⟩

theorem snapshot_eq {path : Path} (hcache : b.cachePath = some path) (t : FileTree)
    (rf : Refusals := .none) :
    b.snapshot t rf = some (if b.clearCache then Cache.empty path else Cache.load t path rf) := by
  rw [Batch.snapshot, hcache, Option.map_some]

/-- The key of a file does not depend on what the cache holds. -/
theorem key_snapshot {path : Path} {cache : Cache} (hcache : b.cachePath = some path)
    (h : b.snapshot t rf = some cache) (p : Path) : cache.key p = (Cache.empty path).key p := by
  obtain rfl := Option.some.inj ((snapshot_eq hcache t rf).symm.trans h)
  split
  · rfl
  · unfold Cache.load
    split <;> rfl

/-- A cache without entries remembers nothing. -/
theorem remembered_of_load_eq_empty {path : Path} (hcache : b.cachePath = some path)
    (h : b.clearCache = false → Cache.load t path rf = Cache.empty path) (p : Path) :
    remembered (b.snapshot t rf) p = none := by
  rw [snapshot_eq hcache t rf]
  cases hclear : b.clearCache with
  | true => rfl
  | false =>
    rw [h hclear]
    rfl

/-- **What the end of a run can do**: say that there was nothing to do, do nothing, or save
the cache, which may fail. -/
theorem finish_cases (b : Batch) (roots : List Path) (p : Progress Books)
    (rf : Refusals := .none) :
    p.books.checked = 0 ∧ b.finish roots p rf = p.note (some (nothingFound roots)) ∨
    p.books.checked ≠ 0 ∧
      (b.finish roots p rf = p ∧ (b.dryRun = true ∨ b.cachePath = none ∨ p.books.cache = none) ∨
      ∃ path cache, b.cachePath = some path ∧ p.books.cache = some cache ∧
        ((∃ t', cache.save p.tree path rf = .ok t' ∧
            b.finish roots p rf = { p with tree := t' }) ∨
          ∃ f, cache.save p.tree path rf = .error f ∧
            b.finish roots p rf = p.note (some f))) := by
  by_cases hchecked : p.books.checked = 0
  · exact .inl ⟨hchecked, by rw [finish, if_pos hchecked]⟩
  refine .inr ⟨hchecked, ?_⟩
  rw [finish, if_neg hchecked]
  cases hpath : b.cachePath with
  | none => exact .inl ⟨rfl, .inr (.inl rfl)⟩
  | some path =>
    cases hcache : p.books.cache with
    | none => exact .inl ⟨rfl, .inr (.inr rfl)⟩
    | some cache =>
      cases hdry : b.dryRun with
      | true => exact .inl ⟨rfl, .inl rfl⟩
      | false =>
        refine .inr ⟨path, cache, rfl, rfl, ?_⟩
        cases hsave : cache.save p.tree path rf with
        | ok t' => exact .inl ⟨t', rfl, by simp [hsave]⟩
        | error f => exact .inr ⟨f, rfl, by simp [hsave]⟩

theorem books_finish (roots : List Path) (p : Progress Books) :
    (b.finish roots p rf).books = p.books := by
  rcases finish_cases b roots p rf with ⟨-, h⟩ | ⟨-, ⟨h, -⟩ | ⟨_, _, -, -, ⟨_, -, h⟩ | ⟨_, -, h⟩⟩⟩
  all_goals rw [h]
  all_goals rfl

/-- What goes wrong at the end of a run. -/
def closing (b : Batch) (roots : List Path) (p : Progress Books) (rf : Refusals := .none) :
    List Fault :=
  (b.finish roots { p with faults := [] } rf).faults

theorem faults_finish (roots : List Path) (p : Progress Books) :
    (b.finish roots p rf).faults = b.closing roots p rf ++ p.faults := by
  unfold closing finish
  by_cases hchecked : p.books.checked = 0
  · rw [if_pos hchecked, if_pos hchecked]
    rfl
  rw [if_neg hchecked, if_neg hchecked]
  cases b.cachePath with
  | none => rfl
  | some path =>
    cases hcache : p.books.cache with
    | none => rfl
    | some cache =>
      cases b.dryRun with
      | true => rfl
      | false =>
        simp only [Bool.false_eq_true, if_false]
        cases cache.save p.tree path rf <;> rfl

/-- The cache path of a batch is one that a text spells. -/
def ProperCache (b : Batch) : Prop := ∀ path, b.cachePath = some path → path.Proper

/-- **The end of a run changes the tree only where the cache path leads then.** -/
theorem tree_finish (hpath : b.ProperCache) (roots : List Path) {p : Progress Books}
    (ht : p.tree.WellFormed) :
    (b.finish roots p rf).tree = p.tree ∨
    ∃ path lc content, b.cachePath = some path ∧
      (b.finish roots p rf).tree = p.tree.put lc (.file content) ∧
      (b.finish roots p rf).tree.locate true path = .ok lc ∧
      (b.finish roots p rf).tree.lookup lc = some (.file content) ∧
      (b.finish roots p rf).tree.WellFormed ∧ Grows p.tree (b.finish roots p rf).tree ∧
      (p.tree.lookup lc = none ∨ ∃ content, p.tree.lookup lc = some (.file content)) := by
  rcases finish_cases b roots p rf with
    ⟨-, h⟩ | ⟨-, ⟨h, -⟩ | ⟨path, cache, hcache, -, ⟨u, hsave, h⟩ | ⟨f, -, h⟩⟩⟩
  · exact .inl (by rw [h]; rfl)
  · exact .inl (by rw [h])
  · unfold Cache.save at hsave
    split at hsave
    · rename_i hwrite
      obtain rfl := Except.ok.inj hsave
      obtain ⟨lc, hput, hlc⟩ := FileTree.writeText_eq_ok ht (hpath path hcache) hwrite
      rw [h]
      exact .inr ⟨path, lc, _, hcache, hput, hlc⟩
    · simp at hsave
  · exact .inl (by rw [h]; rfl)

theorem wellFormed_finish (hpath : b.ProperCache) (roots : List Path) {p : Progress Books}
    (ht : p.tree.WellFormed) :
    (b.finish roots p rf).tree.WellFormed ∧ Grows p.tree (b.finish roots p rf).tree := by
  rcases tree_finish hpath roots ht with h | ⟨_, _, _, _, _, _, _, hwell, hgrows, _⟩
  · rw [h]
    exact ⟨ht, .refl _⟩
  · exact ⟨hwell, hgrows⟩

/-- Where the cache path does not lead, the end of a run changes nothing. -/
theorem lookup_finish (hpath : b.ProperCache) (roots : List Path) {p : Progress Books}
    (ht : p.tree.WellFormed) {l : Location}
    (hl : ∀ path, b.cachePath = some path → (b.finish roots p rf).tree.locate true path ≠ .ok l) :
    (b.finish roots p rf).tree.lookup l = p.tree.lookup l := by
  rcases tree_finish hpath roots ht with h | ⟨path, lc, content, hcache, hput, hlc, -⟩
  · rw [h]
  · have hne : l ≠ lc := by
      rintro rfl
      exact hl path hcache hlc
    rw [hput, FileTree.lookup_put_of_ne _ _ hne]

/-- **A cache that is there after a run is what the run remembers**, if nothing is refused. -/
theorem load_finish (hpath : b.ProperCache) (roots : List Path) {p : Progress Books}
    (ht : p.tree.WellFormed) (hdry : b.dryRun = false) (hchecked : p.books.checked ≠ 0)
    {path : Path} (hcachePath : b.cachePath = some path) {cache : Cache}
    (hcache : p.books.cache = some cache) (hfile : (b.finish roots p).tree.isFile path = true) :
    Cache.load (b.finish roots p).tree path =
      { Cache.empty path with entries := cache.entries } := by
  rcases finish_cases b roots p with
    ⟨h, -⟩ | ⟨-, ⟨-, h⟩ | ⟨path', cache', hpath', hcache', hsave⟩⟩
  · exact absurd h hchecked
  · simp [hdry, hcachePath, hcache] at h
  obtain rfl : path = path' := Option.some.inj (hcachePath.symm.trans hpath')
  obtain rfl : cache = cache' := Option.some.inj (hcache.symm.trans hcache')
  rcases hsave with ⟨u, hsave, h⟩ | ⟨f, hsave, h⟩
  · rw [h]
    exact Cache.load_of_save ht (hpath path hcachePath) hsave
  · -- a file that is there can be written
    rw [h] at hfile
    obtain ⟨lc, content, hlc, hfile⟩ := FileTree.isFile_iff.1 hfile
    have hwrite := FileTree.writeText_of_file ht hlc hfile cache.entries.toJson
    rw [Cache.save, show p.tree.writeText path cache.entries.toJson = _ from hwrite] at hsave
    simp at hsave

/-- A run that changes nothing before its end leaves every file as it is, other than the
cache file. -/
theorem lookup_finish_of_unchanged (hpath : b.ProperCache) (roots : List Path)
    {p : Progress Books} (ht : p.tree.WellFormed) {l : Location} {content : ByteArray}
    (hfile : p.tree.lookup l = some (.file content))
    (hl : ∀ path, b.cachePath = some path → p.tree.locate true path ≠ .ok l) :
    (b.finish roots p rf).tree.lookup l = some (.file content) := by
  rcases tree_finish hpath roots ht with h | ⟨path, lc, new, hcache, hput, hlc, -⟩
  · rw [h, hfile]
  · have hne : l ≠ lc := by
      rintro rfl
      -- a file that is there keeps the path to it
      rw [hput, (SameShape.put ht hfile).locate] at hlc
      exact hl path hcache hlc
    rw [hput, FileTree.lookup_put_of_ne _ _ hne, hfile]

/-- **A run without faults saves its cache.** -/
theorem save_of_faultless (roots : List Path) {p : Progress Books} (hdry : b.dryRun = false)
    {path : Path} (hpath : b.cachePath = some path) {cache : Cache}
    (hcache : p.books.cache = some cache) (hfaults : (b.finish roots p rf).faults = []) :
    p.faults = [] ∧ cache.save p.tree path rf = .ok (b.finish roots p rf).tree := by
  rcases finish_cases b roots p rf with
    ⟨-, h⟩ | ⟨-, ⟨-, h⟩ | ⟨path', cache', hpath', hcache', ⟨u, hsave, h⟩ | ⟨f, -, h⟩⟩⟩
  · simp [h, Progress.note] at hfaults
  · simp [hdry, hpath, hcache] at h
  · obtain rfl : path = path' := Option.some.inj (hpath.symm.trans hpath')
    obtain rfl : cache = cache' := Option.some.inj (hcache.symm.trans hcache')
    rw [h] at hfaults ⊢
    exact ⟨hfaults, hsave⟩
  · simp [h, Progress.note] at hfaults

/-- The report and the tree of a run. -/
theorem runScheduled_eq (b : Batch) (t : FileTree) (jobs : List (Path × Schedule Books))
    (output : Option Path) :
    b.runScheduled t jobs output rf =
      (⟨(b.reached t jobs output rf).books.written, (b.reached t jobs output rf).books.checked,
          (b.finish (jobs.map Prod.fst) (b.reached t jobs output rf) rf).faults.reverse⟩,
        (b.finish (jobs.map Prod.fst) (b.reached t jobs output rf) rf).tree) := by
  have hbooks := @books_finish b rf (jobs.map Prod.fst) (b.reached t jobs output rf)
  rw [← hbooks]
  rfl

/-! ## A batch with defaults -/

/-- The default rules and the default style, with a cache file. -/
def standard (cache : String) : Batch where
  rules := Rule.defaults {}
  style := {}
  selection := {}
  cachePath := some (Path.ofText cache)

/-- A tree with one file, `src/a.swift`. -/
def oneFile (text : String) : FileTree where
  entries := [(["src"], .directory), (["src", "a.swift"], .file text.toUTF8)]
  workingDirectory := []

theorem properCache_standard (cache : String) : (standard cache).ProperCache := by
  rintro path hpath
  obtain rfl : Path.ofText cache = path := Option.some.inj hpath
  exact Path.proper_ofText cache

end Batch
end Restyle
