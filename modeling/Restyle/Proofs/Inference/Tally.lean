import Mathlib.Algebra.Ring.Nat
import Mathlib.Data.List.Induction
import Mathlib.Data.List.Perm.Basic
import Restyle.Proofs.Inference.Votes

/-!
# Counting votes in any order

Votes can be counted as they come: one table says how often each step was seen, another one how
often each line terminator was.  A table has its entries in no particular order, and the winner is
found by going through it and keeping the better entry.

Neither the order of the texts nor that of the entries is seen in the result.  The numbers in a
table are the numbers of votes (`IsTable`), and these do not depend on any order.  An entry that
nothing outranks is the only one (`Wins.unique`), because no two candidates have the same rank.

* `tallies_ofTexts`: what the tables hold when some texts have been read.
* `wins_of_best?`, `wins_of_winner?`: what is found in a table, and in the list of candidates,
  wins.
* `complaint?_style`: a style that is read off texts is accepted.
* `style_of_reordered`: texts in any order, counted in tables of any order, have one style.
-/

namespace Restyle
namespace Inference

variable {α : Type} {ballots : List Vote} {vote : α → Vote}

/-! ## Tables -/

section Table

variable [DecidableEq α] {a b : α} {n : Nat} {table table' : List (α × Nat)} {count : α → Nat}

/-- A table with one more vote for `a`. -/
def bump (a : α) : List (α × Nat) → List (α × Nat)
  | [] => [(a, 1)]
  | (b, n) :: rest => if a = b then (b, n + 1) :: rest else (b, n) :: bump a rest

/-- A table with the numbers of votes: one entry for everything that has a vote. -/
structure IsTable (table : List (α × Nat)) (count : α → Nat) : Prop where
  /-- Nothing has two entries. -/
  nodup : (table.map Prod.fst).Nodup
  /-- The entries are the numbers of votes. -/
  mem : ∀ a n, (a, n) ∈ table ↔ 0 < n ∧ count a = n

/-- The keys of a table after one more vote. -/
theorem mem_keys_bump : b ∈ (bump a table).map Prod.fst ↔ b = a ∨ b ∈ table.map Prod.fst := by
  induction table with
  | nil => simp [bump]
  | cons e rest ih =>
    obtain ⟨k, n⟩ := e
    rw [bump]
    split_ifs with hk
    · subst hk
      simp
    · simp only [List.map_cons, List.mem_cons, ih]
      exact or_left_comm

theorem nodup_bump (h : (table.map Prod.fst).Nodup) (a : α) :
    ((bump a table).map Prod.fst).Nodup := by
  induction table with
  | nil => simp [bump]
  | cons e rest ih =>
    obtain ⟨k, n⟩ := e
    obtain ⟨hk, hrest⟩ := List.nodup_cons.1 h
    rw [bump]
    split_ifs with hak
    · exact List.nodup_cons.2 ⟨hk, hrest⟩
    · refine List.nodup_cons.2 ⟨fun hmem => ?_, ih hrest⟩
      rcases mem_keys_bump.1 hmem with rfl | hmem
      · exact hak rfl
      · exact hk hmem

theorem mem_bump_self (h : (table.map Prod.fst).Nodup) :
    (a, n) ∈ bump a table ↔ (∃ m, (a, m) ∈ table ∧ n = m + 1) ∨
      a ∉ table.map Prod.fst ∧ n = 1 := by
  induction table with
  | nil => simp [bump]
  | cons e rest ih =>
    obtain ⟨k, m⟩ := e
    obtain ⟨hk, hrest⟩ := List.nodup_cons.1 h
    rw [bump]
    split_ifs with hak
    · subst hak
      have hnone : ∀ x, (a, x) ∉ rest := fun x hx =>
        hk (List.mem_map.2 ⟨(a, x), hx, rfl⟩)
      simp [hnone]
    · simp [ih hrest, hak]

theorem mem_bump_of_ne (hne : b ≠ a) : (b, n) ∈ bump a table ↔ (b, n) ∈ table := by
  induction table with
  | nil => simp [bump, hne]
  | cons e rest ih =>
    obtain ⟨k, m⟩ := e
    rw [bump]
    split_ifs with hak
    · subst hak
      simp [hne]
    · simp [ih]

/-- Every vote adds one to the sum. -/
theorem sum_bump (a : α) (table : List (α × Nat)) :
    ((bump a table).map Prod.snd).sum = (table.map Prod.snd).sum + 1 := by
  induction table with
  | nil => simp [bump]
  | cons e rest ih =>
    obtain ⟨k, n⟩ := e
    rw [bump]
    split_ifs
    · simp only [List.map_cons, List.sum_cons]
      omega
    · simp only [List.map_cons, List.sum_cons, ih]
      omega

namespace IsTable

omit [DecidableEq α] in
theorem notMem_keys_iff (h : IsTable table count) : a ∉ table.map Prod.fst ↔ count a = 0 := by
  constructor
  · intro ha
    by_contra hpos
    exact ha (List.mem_map.2
      ⟨(a, count a), (h.mem a (count a)).2 ⟨Nat.pos_of_ne_zero hpos, rfl⟩, rfl⟩)
  · intro hzero ha
    obtain ⟨⟨k, n⟩, hmem, rfl⟩ := List.mem_map.1 ha
    obtain ⟨hpos, hcount⟩ := (h.mem k n).1 hmem
    simp only [hzero] at hcount
    omega

/-- **One more vote in the table is one more vote.** -/
theorem bump (h : IsTable table count) {count' : α → Nat} (ha : count' a = count a + 1)
    (hother : ∀ b, b ≠ a → count' b = count b) : IsTable (bump a table) count' := by
  refine ⟨nodup_bump h.nodup a, fun b n => ?_⟩
  by_cases hb : b = a
  · subst hb
    rw [mem_bump_self h.nodup, h.notMem_keys_iff, ha]
    constructor
    · rintro (⟨m, hm, rfl⟩ | ⟨hzero, rfl⟩)
      · exact ⟨Nat.succ_pos m, congrArg (· + 1) ((h.mem b m).1 hm).2⟩
      · exact ⟨Nat.one_pos, by omega⟩
    · rintro ⟨-, rfl⟩
      by_cases hzero : count b = 0
      · exact .inr ⟨hzero, by omega⟩
      · exact .inl ⟨count b, (h.mem b _).2 ⟨Nat.pos_of_ne_zero hzero, rfl⟩, rfl⟩
  · rw [mem_bump_of_ne hb, h.mem, hother b hb]

omit [DecidableEq α] in
/-- The order of the entries does not matter. -/
theorem perm (h : IsTable table count) (hperm : table'.Perm table) : IsTable table' count :=
  ⟨(hperm.map Prod.fst).nodup_iff.2 h.nodup, fun a n => hperm.mem_iff.trans (h.mem a n)⟩

end IsTable

end Table

/-! ## Winners -/

section Winner

variable {rank : α → Nat} {count : α → Nat} {a b : α} {table : List (α × Nat)}

/-- Of everything that has a vote, `a` has the most votes, and the lowest rank among those that
have as many. -/
structure Wins (rank count : α → Nat) (a : α) : Prop where
  /-- There is a vote for it. -/
  pos : 0 < count a
  /-- Nothing else is better. -/
  best : ∀ b, 0 < count b → count b < count a ∨ count b = count a ∧ rank a ≤ rank b

/-- **There is only one winner**, if no two candidates have the same rank. -/
theorem Wins.unique (hrank : rank.Injective) (ha : Wins rank count a) (hb : Wins rank count b) :
    a = b := by
  have hab := ha.best b hb.pos
  have hba := hb.best a ha.pos
  refine hrank (Nat.le_antisymm ?_ ?_) <;> omega

/-- Whether an entry is not worse than another: it has more votes, or as many and no higher
rank. -/
def outranks (rank : α → Nat) (e f : α × Nat) : Bool :=
  f.2 < e.2 || (f.2 == e.2 && decide (rank e.1 ≤ rank f.1))

theorem outranks_iff {e f : α × Nat} :
    outranks rank e f = true ↔ f.2 < e.2 ∨ f.2 = e.2 ∧ rank e.1 ≤ rank f.1 := by
  simp [outranks]

/-- The best of the entries of a table, in the order in which they come: of two entries the later
one is kept if it is not worse. -/
def best? (rank : α → Nat) (table : List (α × Nat)) : Option (α × Nat) :=
  table.foldl (fun best e => if best.all (outranks rank e) then some e else best) none

theorem best?_concat (table : List (α × Nat)) (e : α × Nat) :
    best? rank (table ++ [e]) =
      if (best? rank table).all (outranks rank e) then some e else best? rank table := by
  rw [best?, List.foldl_append]
  rfl

/-- Nothing is found only in a table without entries, and what is found outranks every entry. -/
theorem best?_spec (rank : α → Nat) (table : List (α × Nat)) :
    match best? rank table with
    | none => table = []
    | some e => e ∈ table ∧ ∀ f ∈ table, outranks rank e f = true := by
  induction table using List.reverseRecOn with
  | nil => rfl
  | append_singleton table e ih =>
    rw [best?_concat]
    cases hbest : best? rank table with
    | none =>
      rw [hbest] at ih
      obtain rfl : table = [] := ih
      simp [outranks]
    | some b =>
      rw [hbest] at ih
      obtain ⟨hb, hall⟩ : b ∈ table ∧ ∀ f ∈ table, outranks rank b f = true := ih
      by_cases hworse : outranks rank e b = true
      · simp only [Option.all_some, hworse, if_true]
        refine ⟨by simp, fun f hf => ?_⟩
        rcases List.mem_append.1 hf with hf | hf
        · have hbf := outranks_iff.1 (hall f hf)
          have heb := outranks_iff.1 hworse
          exact outranks_iff.2 (by omega)
        · obtain rfl : f = e := by simpa using hf
          simp [outranks]
      · simp only [Option.all_some, if_neg hworse]
        refine ⟨List.mem_append_left _ hb, fun f hf => ?_⟩
        rcases List.mem_append.1 hf with hf | hf
        · exact hall f hf
        · obtain rfl : f = e := by simpa using hf
          rw [outranks_iff] at hworse ⊢
          omega

/-- **What is found in a table wins**, and nothing is found only if there are no votes. -/
theorem wins_of_best? (h : IsTable table count) (rank : α → Nat) :
    match best? rank table with
    | none => ∀ a, count a = 0
    | some e => Wins rank count e.1 := by
  have hspec := best?_spec rank table
  cases hbest : best? rank table with
  | none =>
    rw [hbest] at hspec
    obtain rfl : table = [] := hspec
    intro a
    by_contra hpos
    exact absurd ((h.mem a _).2 ⟨Nat.pos_of_ne_zero hpos, rfl⟩) (by simp)
  | some e =>
    rw [hbest] at hspec
    obtain ⟨he, hall⟩ : e ∈ table ∧ ∀ f ∈ table, outranks rank e f = true := hspec
    obtain ⟨hpos, hcount⟩ := (h.mem e.1 e.2).1 he
    refine ⟨hcount ▸ hpos, fun b hb => ?_⟩
    have hentry := outranks_iff.1 (hall (b, count b) ((h.mem b _).2 ⟨hb, rfl⟩))
    rwa [← hcount] at hentry

/-- What is found among candidates that come in the order of their ranks is the best of them,
whether others have votes or not; nothing is found only if none of them has a vote. -/
theorem winner?_spec {candidates : List α}
    (hsorted : candidates.Pairwise fun a b => rank a < rank b) :
    match winner? ballots vote candidates with
    | none => ∀ a ∈ candidates, vote a ∉ ballots
    | some a => a ∈ candidates ∧ vote a ∈ ballots ∧ ∀ b ∈ candidates, vote b ∈ ballots →
        ballots.count (vote b) < ballots.count (vote a) ∨
          ballots.count (vote b) = ballots.count (vote a) ∧ rank a ≤ rank b := by
  induction candidates with
  | nil => simp [winner?]
  | cons a rest ih =>
    obtain ⟨ha, hrest⟩ := List.pairwise_cons.1 hsorted
    have hspec := ih hrest
    rw [winner?]
    cases hwinner : winner? ballots vote rest with
    | none =>
      simp only [hwinner] at hspec
      by_cases hvote : vote a ∈ ballots
      · simp only [List.contains_iff_mem.2 hvote, if_true]
        refine ⟨List.mem_cons_self, hvote, fun b hb hvoteb => ?_⟩
        rcases List.mem_cons.1 hb with rfl | hb
        · exact .inr ⟨rfl, Nat.le_refl _⟩
        · exact absurd hvoteb (hspec b hb)
      · simpa [hvote] using hspec
    | some w =>
      simp only [hwinner] at hspec
      obtain ⟨hw, hvote, hothers⟩ := hspec
      by_cases hcount : ballots.count (vote w) ≤ ballots.count (vote a)
      · -- an earlier candidate with as many votes has the lower rank
        simp only [if_pos hcount]
        have hpos := List.count_pos_iff.2 hvote
        refine ⟨List.mem_cons_self, List.count_pos_iff.1 (by omega), fun b hb hvoteb => ?_⟩
        rcases List.mem_cons.1 hb with rfl | hb
        · exact .inr ⟨rfl, Nat.le_refl _⟩
        · have hab := ha b hb
          have hwb := hothers b hb hvoteb
          omega
      · simp only [if_neg hcount]
        refine ⟨List.mem_cons_of_mem a hw, hvote, fun b hb hvoteb => ?_⟩
        rcases List.mem_cons.1 hb with rfl | hb
        · exact .inl (by omega)
        · exact hothers b hb hvoteb

/-- **What is found among the candidates wins**, if they come in the order of their ranks and
everything that has a vote is one of them. -/
theorem wins_of_winner? {candidates : List α}
    (hsorted : candidates.Pairwise fun a b => rank a < rank b)
    (hall : ∀ a, vote a ∈ ballots → a ∈ candidates) :
    match winner? ballots vote candidates with
    | none => ∀ a, ballots.count (vote a) = 0
    | some a => Wins rank (fun a => ballots.count (vote a)) a := by
  have hspec := @winner?_spec _ ballots vote _ _ hsorted
  cases hwinner : winner? ballots vote candidates with
  | none =>
    simp only [hwinner] at hspec
    exact fun a => List.count_eq_zero.2 fun ha => hspec a (hall a ha) ha
  | some a =>
    simp only [hwinner] at hspec
    obtain ⟨-, hvote, hothers⟩ := hspec
    refine ⟨List.count_pos_iff.2 hvote, fun b hb => ?_⟩
    have hvoteb := List.count_pos_iff.1 hb
    exact hothers b (hall b hvoteb) hvoteb

/-- A table and the list of candidates have the same winner. -/
theorem best?_eq_winner? {candidates : List α} (hrank : rank.Injective)
    (hsorted : candidates.Pairwise fun a b => rank a < rank b)
    (hall : ∀ a, vote a ∈ ballots → a ∈ candidates)
    (h : IsTable table fun a => ballots.count (vote a)) :
    (best? rank table).map Prod.fst = winner? ballots vote candidates := by
  have hbest := wins_of_best? h rank
  have hwinner := wins_of_winner? hsorted hall
  cases hb : best? rank table with
  | none =>
    cases hw : winner? ballots vote candidates with
    | none => rfl
    | some a =>
      rw [hb] at hbest
      rw [hw] at hwinner
      exact absurd (hbest a) (Nat.ne_of_gt hwinner.pos)
  | some e =>
    cases hw : winner? ballots vote candidates with
    | none =>
      rw [hb] at hbest
      rw [hw] at hwinner
      exact absurd (hwinner e.1) (Nat.ne_of_gt hbest.pos)
    | some a =>
      rw [hb] at hbest
      rw [hw] at hwinner
      exact congrArg some (hbest.unique hrank hwinner)

end Winner

/-! ## Which votes count -/

theorem step_le_of_mem_stepVotes {previous : Option Nat} {w width : Nat}
    (h : .step width ∈ stepVotes previous w) : 0 < width ∧ width ≤ Style.maxIndent := by
  unfold stepVotes at h
  split at h
  · rename_i p
    split_ifs at h with hp
    · simp only [Bool.and_eq_true, decide_eq_true_eq] at hp
      obtain rfl : width = w - p := by simpa using h
      omega
    · simp at h
  · simp at h

theorem step_le_of_mem_votesFrom {ts : List Token} {r : Reader} {width : Nat}
    (h : .step width ∈ votesFrom r ts) : 0 < width ∧ width ≤ Style.maxIndent := by
  induction ts generalizing r with
  | nil => simp [votesFrom] at h
  | cons t ts ih =>
    cases ht : t.isLinebreak with
    | true =>
      rw [votesFrom_linebreak ht, List.mem_append] at h
      exact ih (h.resolve_left (by simp))
    | false =>
      rw [votesFrom_cons ht, List.append_assoc, List.mem_append, List.mem_append] at h
      rcases h with h | h | h
      · unfold Reader.indentVotes at h
        split_ifs at h
        · simp at h
        · simp at h
        · simp at h
        · exact step_le_of_mem_stepVotes h
        · exact step_le_of_mem_stepVotes h
      · rcases eq_of_mem_braceVotes h with ⟨h, -⟩ | h <;> cases h
      · exact ih h

/-- **A step is at least one column and at most as wide as an indent can be.** -/
theorem step_le_of_mem_votes {ts : List Token} {width : Nat} (h : .step width ∈ votes ts) :
    0 < width ∧ width ≤ Style.maxIndent :=
  step_le_of_mem_votesFrom h

/-- What has votes for a step is among the widths that are asked about. -/
theorem mem_range_of_step_mem {corpus : List (List Token)} {width : Nat}
    (h : .step width ∈ corpus.flatMap votes) :
    0 < width ∧ width ∈ List.range (Style.maxIndent + 1) := by
  obtain ⟨ts, -, hts⟩ := List.mem_flatMap.1 h
  obtain ⟨hpos, hle⟩ := step_le_of_mem_votes hts
  exact ⟨hpos, List.mem_range.2 (Nat.lt_succ_of_le hle)⟩

/-- The indent of texts is accepted: it is the default one, a tab, or a step that has votes. -/
theorem indentComplaint?_indent (corpus : List (List Token)) :
    Style.indentComplaint? (indent (corpus.flatMap votes)) = none := by
  have hwins := @wins_of_winner? _ (corpus.flatMap votes) Vote.step id _ List.pairwise_lt_range
    fun width h => (mem_range_of_step_mem h).2
  unfold indent
  split_ifs
  · rfl
  split
  · rename_i width hwinner
    rw [hwinner] at hwins
    obtain ⟨hpos, hrange⟩ := mem_range_of_step_mem (List.count_pos_iff.1 hwins.pos)
    have hle := List.mem_range.1 hrange
    rw [Style.indentComplaint?, if_neg (by omega), if_neg (by omega)]
  · rfl

/-- **A style that is read off texts is accepted**, whatever their tokens are. -/
theorem complaint?_style (corpus : List (List Token)) : (style corpus).complaint? = none := by
  unfold Style.complaint?
  rw [show (style corpus).indent = indent (corpus.flatMap votes) from rfl,
    indentComplaint?_indent]
  rfl

/-! ## Counting -/

/-- What has been counted: tables of steps and of line terminators, and the numbers of the other
votes. -/
structure Counts where
  /-- How often each step was seen. -/
  steps : List (Nat × Nat) := []
  /-- How many lines are indented with a tab. -/
  tabbed : Nat := 0
  /-- How often each line terminator was seen. -/
  linebreaks : List (Linebreak × Nat) := []
  /-- How many braces stand on lines of their own. -/
  ownLine : Nat := 0
  /-- How many braces stand on the line of their head. -/
  sameLine : Nat := 0

namespace Counts

variable {c d : Counts} {ballots ballots' : List Vote}

/-- The counts with one more vote. -/
def add (c : Counts) : Vote → Counts
  | .step width => { c with steps := bump width c.steps }
  | .tabbed => { c with tabbed := c.tabbed + 1 }
  | .linebreak l => { c with linebreaks := bump l c.linebreaks }
  | .ownLine => { c with ownLine := c.ownLine + 1 }
  | .sameLine => { c with sameLine := c.sameLine + 1 }

/-- What has been counted when some texts have been read, one after the other. -/
def ofTexts (corpus : List (List Token)) : Counts :=
  corpus.foldl (fun c tokens => (votes tokens).foldl add c) {}

/-- The same counts, with the entries of the tables in any order. -/
structure Reordered (c d : Counts) : Prop where
  /-- The steps are the same. -/
  steps : d.steps.Perm c.steps
  /-- The line terminators are the same. -/
  linebreaks : d.linebreaks.Perm c.linebreaks
  /-- The tabs are the same. -/
  tabbed : d.tabbed = c.tabbed
  /-- The braces on lines of their own are the same. -/
  ownLine : d.ownLine = c.ownLine
  /-- The other braces are the same. -/
  sameLine : d.sameLine = c.sameLine

/-- How much a line terminator is preferred: the first one has rank zero. -/
def preference (l : Linebreak) : Nat := Linebreak.all.idxOf l

/-- The style that most of what was counted is for.  Ties go to the smaller step and to the
preferred line terminator. -/
def style (c : Counts) : Style :=
  { indent :=
      if (c.steps.map Prod.snd).sum < c.tabbed then .tab
      else match best? id c.steps with
        | some (width, _) => .spaces width
        | none => ({} : Style).indent
    linebreak := ((best? preference c.linebreaks).map Prod.fst).getD .lf
    allman := decide (c.sameLine < c.ownLine) }

/-- The numbers that have been counted are those of some votes. -/
structure Tallies (c : Counts) (ballots : List Vote) : Prop where
  /-- The table of steps is right. -/
  steps : IsTable c.steps fun width => ballots.count (.step width)
  /-- All steps together are the votes for steps. -/
  sum : (c.steps.map Prod.snd).sum = ballots.countP Vote.isStep
  /-- The table of line terminators is right. -/
  linebreaks : IsTable c.linebreaks fun l => ballots.count (.linebreak l)
  /-- The number of tabs is right. -/
  tabbed : c.tabbed = ballots.count .tabbed
  /-- The number of braces on lines of their own is right. -/
  ownLine : c.ownLine = ballots.count .ownLine
  /-- The number of the other braces is right. -/
  sameLine : c.sameLine = ballots.count .sameLine

namespace Tallies

theorem nil : Tallies {} [] where
  steps := ⟨List.nodup_nil, fun _ n => by simp; omega⟩
  sum := rfl
  linebreaks := ⟨List.nodup_nil, fun _ n => by simp; omega⟩
  tabbed := rfl
  ownLine := rfl
  sameLine := rfl

/-- **One more vote is counted right.** -/
theorem add (h : c.Tallies ballots) (v : Vote) : (c.add v).Tallies (ballots ++ [v]) where
  steps := by
    cases v with
    | step width => exact h.steps.bump (by simp) fun w hw => by simp [Ne.symm hw]
    | _ => simpa [Counts.add] using h.steps
  sum := by cases v <;> simp [Counts.add, sum_bump, Vote.isStep, h.sum]
  linebreaks := by
    cases v with
    | linebreak l => exact h.linebreaks.bump (by simp) fun l' hl => by simp [Ne.symm hl]
    | _ => simpa [Counts.add] using h.linebreaks
  tabbed := by cases v <;> simp [Counts.add, h.tabbed]
  ownLine := by cases v <;> simp [Counts.add, h.ownLine]
  sameLine := by cases v <;> simp [Counts.add, h.sameLine]

theorem foldl_add (h : c.Tallies ballots) (vs : List Vote) :
    (vs.foldl Counts.add c).Tallies (ballots ++ vs) := by
  induction vs generalizing c ballots with
  | nil => simpa using h
  | cons v vs ih => simpa using ih (h.add v)

/-- The order of the votes does not matter. -/
theorem of_perm (h : c.Tallies ballots) (hperm : ballots.Perm ballots') : c.Tallies ballots' where
  steps := by simpa only [hperm.count_eq] using h.steps
  sum := h.sum.trans (hperm.countP_eq _)
  linebreaks := by simpa only [hperm.count_eq] using h.linebreaks
  tabbed := h.tabbed.trans (hperm.count_eq _)
  ownLine := h.ownLine.trans (hperm.count_eq _)
  sameLine := h.sameLine.trans (hperm.count_eq _)

/-- The order of the entries does not matter. -/
theorem reordered (h : c.Tallies ballots) (hd : c.Reordered d) : d.Tallies ballots where
  steps := h.steps.perm hd.steps
  sum := (hd.steps.map Prod.snd).sum_nat.trans h.sum
  linebreaks := h.linebreaks.perm hd.linebreaks
  tabbed := hd.tabbed.trans h.tabbed
  ownLine := hd.ownLine.trans h.ownLine
  sameLine := hd.sameLine.trans h.sameLine

end Tallies

/-- **The tables hold the votes of the texts that have been read.** -/
theorem tallies_ofTexts (corpus : List (List Token)) :
    (ofTexts corpus).Tallies (corpus.flatMap votes) := by
  have hfrom : ∀ (corpus : List (List Token)) {c : Counts} {ballots : List Vote},
      c.Tallies ballots → (corpus.foldl (fun c tokens => (votes tokens).foldl add c) c).Tallies
        (ballots ++ corpus.flatMap votes) := by
    intro corpus
    induction corpus with
    | nil => simp
    | cons tokens corpus ih =>
      intro c ballots h
      simpa using ih (h.foldl_add (votes tokens))
  exact hfrom corpus .nil

theorem pairwise_preference :
    Linebreak.all.Pairwise fun l l' => preference l < preference l' := by decide

theorem preference_injective : preference.Injective := by
  intro l l' h
  cases l <;> cases l' <;> first | rfl | exact absurd h (by decide)

/-- **The tables tell the style** that the votes are for. -/
theorem style_of_tallies {corpus : List (List Token)} (h : c.Tallies (corpus.flatMap votes)) :
    c.style = Inference.style corpus := by
  have hindent : c.style.indent = indent (corpus.flatMap votes) := by
    have hid : Function.Injective (id : Nat → Nat) := Function.injective_id
    have hwinner := best?_eq_winner? hid List.pairwise_lt_range
      (fun width hwidth => (mem_range_of_step_mem hwidth).2) h.steps
    unfold style indent
    simp only [h.sum, h.tabbed, ← hwinner]
    split_ifs
    · rfl
    · cases best? id c.steps <;> rfl
  have hlinebreak : c.style.linebreak = linebreak (corpus.flatMap votes) := by
    have hwinner := best?_eq_winner? preference_injective pairwise_preference
      (fun l _ => by cases l <;> decide) h.linebreaks
    exact congrArg (·.getD Linebreak.lf) hwinner
  have hallman : c.style.allman = (Inference.style corpus).allman := by
    simp only [style, Inference.style, h.sameLine, h.ownLine]
  calc
    c.style = { indent := c.style.indent, linebreak := c.style.linebreak,
                allman := c.style.allman } := rfl
    _ = Inference.style corpus := by
      rw [hindent, hlinebreak, hallman]
      rfl

end Counts

/-- **The style of texts depends on the texts alone**, not on their order nor on the order in
which the tables of votes are gone through, and it is accepted. -/
theorem style_of_reordered {corpus corpus' : List (List Token)} (hcorpus : corpus'.Perm corpus)
    {c : Counts} (hc : (Counts.ofTexts corpus').Reordered c) :
    c.style = style corpus ∧ style corpus' = style corpus ∧ (style corpus).complaint? = none := by
  have hperm : (corpus'.flatMap votes).Perm (corpus.flatMap votes) := hcorpus.flatMap_right votes
  have htables := Counts.tallies_ofTexts corpus'
  exact ⟨Counts.style_of_tallies ((htables.reordered hc).of_perm hperm),
    (Counts.style_of_tallies htables).symm.trans (Counts.style_of_tallies (htables.of_perm hperm)),
    complaint?_style corpus⟩

/-- Two files, one with a step of two columns and one with a step of four: the tie goes to the
smaller step, whichever file comes first. -/
theorem style_of_reordered_tie :
    let two : List Token :=
      [⟨.identifier, "a"⟩, ⟨.linebreak, "\n"⟩, ⟨.space, "  "⟩, ⟨.identifier, "b"⟩]
    let four : List Token :=
      [⟨.identifier, "a"⟩, ⟨.linebreak, "\r\n"⟩, ⟨.space, "    "⟩, ⟨.identifier, "b"⟩]
    let counts : Counts := { steps := [(2, 1), (4, 1)], linebreaks := [(.lf, 1), (.crlf, 1)] }
    [four, two].Perm [two, four] ∧ (Counts.ofTexts [four, two]).Reordered counts ∧
      (counts.style = style [two, four] ∧ style [four, two] = style [two, four] ∧
        (style [two, four]).complaint? = none) ∧
      style [two, four] = { indent := .spaces 2 } := by
  intro two four counts
  have hcorpus : [four, two].Perm [two, four] := .swap two four []
  have hcounts : (Counts.ofTexts [four, two]).Reordered counts := by
    refine ⟨.swap (4, 1) (2, 1) [], .swap (Linebreak.crlf, 1) (Linebreak.lf, 1) [], ?_, ?_, ?_⟩
    all_goals decide
  exact ⟨hcorpus, hcounts, style_of_reordered hcorpus hcounts, by decide⟩

end Inference
end Restyle
