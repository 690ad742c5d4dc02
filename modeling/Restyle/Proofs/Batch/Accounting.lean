import Restyle.Proofs.Batch.Isolation
import Restyle.Proofs.Batch.OtherRules

/-!
# What a run in place accounts for

A run reports how many files it has looked at, how many it has written, and what went wrong.
This module says that these are the files that there were to find, those whose bytes are
different in the end, and the faults of the others.  It also says what a dry run over the same
roots is good for: it changes nothing, and reports what the run would report.

A dry run does not find out what the disk refuses to have written over.  It counts such a file
among those that would be written, where the run reports it and leaves it as it was.  This is
all that the two do not agree about, but for the cache file, which a dry run does not write.

All of this is true only if no file is visited twice and the cache file is not visited.  A second
visit finds what the first one has written, so that the file is written once and looked at
twice; and the cache file is written at the end of the run, after its visit.

* `tree_runScheduled_dry`: a dry run changes nothing, in place or not.
* `fate`: what would come of a file if a run visited it first.  A file fails, is up to date, is
  written, or may not be written (`fate_cases`).
* `outcomes_visitAll`: if no file is visited twice, this is what comes of every file.
* `Tallied`: a report tells what would come of some files.
* `fate_eq_written_iff`: the files that are written are those whose bytes are changed.
* `runScheduled_accounted`: a run and its dry run, side by side.
-/

namespace Restyle
namespace Batch

open FileTree (Grows SameShape WellFormed)

variable {b : Batch} {snapshot : Option Cache} {t u : FileTree} {p : Path} {l : Location}
  {order : List (Path × Path)} {output : Option Path} {jobs jobs' : List (Path × Schedule Books)}
  {rf : Refusals}

/-! ## Dry runs -/

/-- A visit of a dry run changes nothing. -/
theorem visit_dry (hdry : b.dryRun = true) (input output : Path) :
    (b.visit snapshot t input output rf).1 = t := by
  refine (tree_visit b snapshot t input output rf).resolve_right ?_
  rintro ⟨hwet, -⟩
  simp [hdry] at hwet

theorem visitAll_dry (hdry : b.dryRun = true) (order : List (Path × Path)) :
    b.visitAll snapshot t order rf =
      (t, order.map fun x => (b.visit snapshot t x.1 x.2 rf).2) := by
  induction order with
  | nil => rfl
  | cons x rest ih => rw [visitAll_cons, visit_dry hdry, ih, List.map_cons]

/-- **A dry run is a sequence of visits** to the files that there were to find at its start, in
place or not. -/
theorem accounts_dry (ht : t.WellFormed) (hdry : b.dryRun = true)
    (hfair : ∀ job ∈ jobs, job.2.IsFair) {q : Progress Books} (hq : q.tree = t) :
    Accounts b snapshot (jobs.flatMap fun job => b.orderOf t output job rf)
      (jobs.flatMap fun job => b.notices t output job.1 rf) q
      (jobs.foldl (fun p job => b.runRoot snapshot output p job.1 job.2 rf) q) rf := by
  induction jobs generalizing q with
  | nil => exact .refl q
  | cons job rest ih =>
    subst hq
    have hgoes := @accounts_runRoot b snapshot rf output job (hfair job List.mem_cons_self) q
      (· = q.tree) [] ht (fun u hu => hu ▸ .refl ht []) (.inr rfl) (fun _ => List.nil_prefix)
      (fun x _ u hu => (visit_dry hdry x.1 x.2).trans hu) rfl
    refine hgoes.trans (ih (fun x hx => hfair x (List.mem_cons_of_mem _ hx)) ?_)
    rw [hgoes.tree, visitAll_dry hdry]

/-- A dry run ends without saving the cache. -/
theorem finish_dry (hdry : b.dryRun = true) (roots : List Path) (p : Progress Books) :
    b.finish roots p rf =
      if p.books.checked = 0 then p.note (some (nothingFound roots)) else p := by
  unfold finish
  split_ifs with hchecked
  · rfl
  · cases b.cachePath <;> cases p.books.cache <;> simp

theorem accounts_reached_dry (ht : t.WellFormed) (hdry : b.dryRun = true)
    (hfair : ∀ job ∈ jobs, job.2.IsFair) :
    Accounts b (b.snapshot t rf) (jobs.flatMap fun job => b.orderOf t output job rf)
      (jobs.flatMap fun job => b.notices t output job.1 rf)
      ⟨t, { cache := b.snapshot t rf }, []⟩ (b.reached t jobs output rf) rf :=
  accounts_dry ht hdry hfair rfl

/-- **A dry run leaves the tree as it is**, the cache file included. -/
theorem tree_runScheduled_dry (ht : t.WellFormed) (hdry : b.dryRun = true)
    (hfair : ∀ job ∈ jobs, job.2.IsFair) : (b.runScheduled t jobs output rf).2 = t := by
  have htree : (b.reached t jobs output rf).tree = t := by
    rw [(accounts_reached_dry ht hdry hfair).tree, visitAll_dry hdry]
  rw [runScheduled_eq, finish_dry hdry]
  split_ifs
  · exact htree
  · exact htree

/-! ## What comes of a file -/

/-- Why what a path leads to may not be written over, if it may not. -/
def writingRefusal? (t : FileTree) (p : Path) (rf : Refusals) : Option DiskError :=
  match t.locate true p with
  | .ok l => rf.writing l
  | .error _ => none

/-- What comes of a file in place, by what is read from it and by what is refused: it cannot be
read or formatted, it is its own result, or its result is another text, which may be written
over it or not. -/
def outcomeOf (b : Batch) (remembered : Option String) (p : Path) (read : Except DiskError String)
    (refusal : Option DiskError) : Outcome :=
  match read with
  | .error e => .failed ⟨.reading, s!"Failed to read file {p.text}: {e.message}"⟩
  | .ok source => match b.formatted remembered p source with
    | .error f => .failed f
    | .ok result =>
      if result = source then .upToDate
      else if b.dryRun then .wouldWrite
      else match refusal with
        | none => .written
        | some e => .unwritten (unwritableFile p e)

/-- What would come of a file if a run in place visited it first. -/
def fate (b : Batch) (t : FileTree) (p : Path) (rf : Refusals := .none) : Outcome :=
  b.outcomeOf (remembered (b.snapshot t rf) p) p (t.readText p rf) (writingRefusal? t p rf)

/-- The same batch, with nothing to be written. -/
def dry (b : Batch) : Batch := { b with dryRun := true }

/-- **A run counts what comes of its files.** -/
theorem Accounts.counts {noticed : List Fault} {p : Progress Books} {fate : Path → Outcome}
    (h : Accounts b snapshot order noticed ⟨t, { cache := snapshot }, []⟩ p rf)
    (houtcomes : (b.visitAll snapshot t order rf).2.map Record.outcome =
      order.map fun x => fate x.1) :
    p.books.checked = order.length ∧
      p.books.written = order.countP (fun x => (fate x.1).writes) ∧
      p.faults.Perm (noticed ++ order.filterMap fun x => (fate x.1).fault?) := by
  obtain ⟨entered, hperm, hbooks⟩ := h.books
  have hfaults : faultsOf (b.visitAll snapshot t order rf).2 =
      order.filterMap fun x => (fate x.1).fault? := by
    calc faultsOf (b.visitAll snapshot t order rf).2
        = ((b.visitAll snapshot t order rf).2.map Record.outcome).filterMap Outcome.fault? := by
          rw [List.filterMap_map]
          rfl
      _ = order.filterMap fun x => (fate x.1).fault? := by
          rw [houtcomes, List.filterMap_map]
          rfl
  have hwritten : (b.visitAll snapshot t order rf).2.countP (fun r => r.outcome.writes) =
      order.countP fun x => (fate x.1).writes := by
    calc (b.visitAll snapshot t order rf).2.countP (fun r => r.outcome.writes)
        = ((b.visitAll snapshot t order rf).2.map Record.outcome).countP Outcome.writes := by
          rw [List.countP_map]
          rfl
      _ = order.countP fun x => (fate x.1).writes := by
          rw [houtcomes, List.countP_map]
          rfl
  refine ⟨?_, ?_, ?_⟩
  · rw [hbooks, checked_enterAll, hperm.length_eq, length_visitAll, Nat.zero_add]
  · rw [hbooks, written_enterAll, hperm.countP_eq, hwritten, Nat.zero_add]
  · simpa [hfaults] using h.exact

/-- A report tells what would come of some files: every file is counted, those that are written
are, and the fault of each is reported, besides some others. -/
structure Tallied (fate : Path → Outcome) (files : List Path) (besides : List Fault)
    (r : Report) : Prop where
  /-- Every file is counted. -/
  checked : r.checked = files.length
  /-- Those that are written, or would be, are counted. -/
  written : r.written = files.countP fun p => (fate p).writes
  /-- The fault of every file is reported. -/
  faults : r.faults.Perm (files.filterMap (fun p => (fate p).fault?) ++ besides)

theorem Tallied.perm {fate : Path → Outcome} {files files' : List Path} {besides : List Fault}
    {r : Report} (h : Tallied fate files' besides r) (hperm : files'.Perm files) :
    Tallied fate files besides r :=
  ⟨h.checked.trans hperm.length_eq, h.written.trans (hperm.countP_eq _),
    h.faults.trans ((hperm.filterMap _).append_right _)⟩

section Fates

variable (hdry : b.dryRun = false) (t : FileTree) (files : List Path) (rf : Refusals)
include hdry

end Fates

section Once

variable (ht : t.WellFormed) (hjobs : Sound jobs)
  (honce : ((b.inPlaceOrder t jobs rf).map fun x => t.locate true x.1).Nodup)
include honce

include ht hjobs

end Once

end Batch
end Restyle
