import Mathlib.Data.List.Basic
import Restyle.Style.Inference

/-!
# What the votes of a text say

A style is read off a text by counting votes.  This file says which votes a text casts, in the
terms of its tokens, and what comes of votes that are all for one thing.

* `winner?_eq_some`: a candidate without competition wins.
* `indent_eq_spaces`, `indent_eq_tab`, `linebreak_eq`: the answers, if there is no competition.
* `linebreak_mem_votes`: the votes for a line terminator are its linebreaks.
* `exists_of_ownLine_mem_votes`: a vote for braces on lines of their own comes from such a brace.
-/

namespace Restyle
namespace Inference

open Token

variable {ballots : List Vote}

/-! ## Counting -/

/-- There is a winner if there is a vote, and it has one. -/
theorem exists_winner? {α : Type} {vote : α → Vote} {candidates : List α}
    (h : ∃ a ∈ candidates, vote a ∈ ballots) :
    ∃ a ∈ candidates, vote a ∈ ballots ∧ winner? ballots vote candidates = some a := by
  induction candidates with
  | nil => simp at h
  | cons a rest ih =>
    by_cases hrest : ∃ b ∈ rest, vote b ∈ ballots
    · obtain ⟨b, hb, hvote, hwinner⟩ := ih hrest
      rw [winner?, hwinner]
      by_cases hcount : ballots.count (vote b) ≤ ballots.count (vote a)
      · have hpos := List.count_pos_iff.2 hvote
        exact ⟨a, List.mem_cons_self, List.count_pos_iff.1 (by omega), if_pos hcount⟩
      · exact ⟨b, List.mem_cons_of_mem a hb, hvote, if_neg hcount⟩
    · have hnone : winner? ballots vote rest = none := by
        clear ih h
        induction rest with
        | nil => rfl
        | cons b rest ih =>
          have hb : vote b ∉ ballots := fun hb => hrest ⟨b, List.mem_cons_self, hb⟩
          rw [winner?, ih fun ⟨c, hc, hvote⟩ => hrest ⟨c, List.mem_cons_of_mem b hc, hvote⟩]
          simp [hb]
      obtain ⟨b, hb, hvote⟩ := h
      obtain rfl : b = a := by
        rcases List.mem_cons.1 hb with rfl | hb
        · rfl
        · exact absurd ⟨b, hb, hvote⟩ hrest
      exact ⟨b, List.mem_cons_self, hvote, by simp [winner?, hnone, hvote]⟩

/-- **A candidate without competition wins.** -/
theorem winner?_eq_some {α : Type} {vote : α → Vote} {candidates : List α} {a : α}
    (ha : a ∈ candidates) (hvote : vote a ∈ ballots)
    (honly : ∀ b ∈ candidates, vote b ∈ ballots → b = a) :
    winner? ballots vote candidates = some a := by
  obtain ⟨b, hb, hvoteb, hwinner⟩ := exists_winner? ⟨a, ha, hvote⟩
  rw [hwinner, honly b hb hvoteb]

theorem indent_eq_spaces {width : Nat} (hwidth : width ≤ Style.maxIndent)
    (hvote : .step width ∈ ballots) (honly : ∀ w, .step w ∈ ballots → w = width)
    (htab : .tabbed ∉ ballots) : indent ballots = .spaces width := by
  have hwinner := @winner?_eq_some ballots _ Vote.step (List.range (Style.maxIndent + 1)) width
    (List.mem_range.2 (by omega)) hvote fun w _ => honly w
  rw [indent, List.count_eq_zero_of_not_mem htab, if_neg (Nat.not_lt_zero _), hwinner]

theorem indent_eq_tab (hvote : .tabbed ∈ ballots) (hsteps : ∀ w, .step w ∉ ballots) :
    indent ballots = .tab := by
  have hnone : ballots.countP Vote.isStep = 0 := by
    rw [List.countP_eq_zero]
    rintro (width | _) hvote hstep
    · exact hsteps width hvote
    all_goals simp [Vote.isStep] at hstep
  rw [indent, hnone, if_pos (List.count_pos_iff.2 hvote)]

theorem linebreak_eq {l : Linebreak} (hvote : .linebreak l ∈ ballots)
    (honly : ∀ l', .linebreak l' ∈ ballots → l' = l) : linebreak ballots = l := by
  have hall : l ∈ Linebreak.all := by cases l <;> decide
  rw [linebreak, winner?_eq_some hall hvote fun l' _ => honly l', Option.getD_some]

/-! ## Which votes there are -/

/-- Whether a vote is about indentation. -/
def Vote.tellsIndent : Vote → Bool
  | step _ | tabbed => true
  | _ => false

variable {r : Reader} {t : Token} {ts rest : List Token}

theorem votesFrom_linebreak (ht : t.isLinebreak = true) :
    votesFrom r (t :: ts) = (Linebreak.ofText? t.text).toList.map .linebreak ++
      votesFrom { r with atLineStart := true, broken := true } ts := by
  rw [votesFrom, if_pos ht]

theorem votesFrom_cons (ht : t.isLinebreak = false) :
    votesFrom r (t :: ts) = (r.indentVotes t ts).1 ++ r.braceVotes t ++
      votesFrom (r.advance t (r.indentVotes t ts).2) ts := by
  rw [votesFrom, if_neg (by simp [ht])]

/-- The first token of a line votes about indentation only. -/
theorem tellsIndent_of_mem_indentVotes {v : Vote} (h : v ∈ (r.indentVotes t rest).1) :
    v.tellsIndent = true := by
  have hstep : ∀ previous width, v ∈ stepVotes previous width → v.tellsIndent = true := by
    intro previous width hv
    unfold stepVotes at hv
    split at hv
    · split_ifs at hv
      · rw [List.mem_singleton.1 hv]
        rfl
      · simp at hv
    · simp at hv
  unfold Reader.indentVotes at h
  split_ifs at h
  · simp at h
  · simp at h
  · rw [List.mem_singleton.1 h]
    rfl
  · exact hstep _ _ h
  · exact hstep _ _ h

/-- A brace votes about braces only. -/
theorem eq_of_mem_braceVotes {v : Vote} (h : v ∈ r.braceVotes t) :
    v = .ownLine ∧ r.broken = true ∨ v = .sameLine := by
  unfold Reader.braceVotes at h
  split_ifs at h with _ hbroken
  · exact .inl ⟨List.mem_singleton.1 h, hbroken⟩
  · exact .inr (List.mem_singleton.1 h)
  · simp at h

/-- **The votes for a line terminator are its linebreaks.** -/
theorem linebreak_mem_votes {l : Linebreak} :
    .linebreak l ∈ votes ts ↔
      ∃ t ∈ ts, t.isLinebreak = true ∧ Linebreak.ofText? t.text = some l := by
  have hfrom : ∀ (ts : List Token) (r : Reader), .linebreak l ∈ votesFrom r ts ↔
      ∃ t ∈ ts, t.isLinebreak = true ∧ Linebreak.ofText? t.text = some l := by
    intro ts
    induction ts with
    | nil => simp [votesFrom]
    | cons t ts ih =>
      intro r
      cases ht : t.isLinebreak with
      | true => simp [votesFrom_linebreak ht, ih, ht]
      | false =>
        have hindent : .linebreak l ∉ (r.indentVotes t ts).1 := fun hv =>
          absurd (tellsIndent_of_mem_indentVotes hv) (by simp [Vote.tellsIndent])
        have hbrace : .linebreak l ∉ r.braceVotes t := fun hv => by
          rcases eq_of_mem_braceVotes hv with ⟨hv, -⟩ | hv <;> cases hv
        simp [votesFrom_cons ht, ih, ht, hindent, hbrace]
  exact hfrom ts {}

/-- What a reader knows of the tokens before it: its head is the last code token, and if it is
broken, a linebreak has come after the head. -/
def Reader.Knows (r : Reader) (seen : List Token) : Prop :=
  ∀ head, r.head = some head → ∃ before blanks, seen = before ++ head :: blanks ∧
    (∀ b ∈ blanks, b.isLayout = true) ∧
    (r.broken = true → ∃ b ∈ blanks, b.isLinebreak = true)

namespace Reader.Knows

variable {seen : List Token}

theorem linebreak (h : r.Knows seen) (ht : t.isLinebreak = true) :
    Reader.Knows { r with atLineStart := true, broken := true } (seen ++ [t]) := by
  intro head hhead
  obtain ⟨before, blanks, rfl, hblanks, -⟩ := h head hhead
  refine ⟨before, blanks ++ [t], by simp, ?_, fun _ => ⟨t, by simp, ht⟩⟩
  simpa [or_imp, forall_and, isLayout, ht] using hblanks

theorem advance (h : r.Knows seen) (width : Option Nat) :
    (r.advance t width).Knows (seen ++ [t]) := by
  unfold Reader.advance
  split_ifs with ht
  · intro head hhead
    obtain ⟨before, blanks, rfl, hblanks, hbroken⟩ := h head hhead
    refine ⟨before, blanks ++ [t], by simp, ?_, fun hb => ?_⟩
    · simpa [or_imp, forall_and, isLayout, ht] using hblanks
    · obtain ⟨b, hb, hbreak⟩ := hbroken hb
      exact ⟨b, by simp [hb], hbreak⟩
  · intro head hhead
    obtain rfl : t = head := Option.some.inj hhead
    exact ⟨seen, [], rfl, by simp, by simp⟩

end Reader.Knows

/-- **A vote for braces on lines of their own** comes from a brace that a linebreak parts from
the head of its block. -/
theorem exists_of_ownLine_mem_votes (h : .ownLine ∈ votes ts) :
    ∃ before head blanks brace after, ts = before ++ head :: (blanks ++ brace :: after) ∧
      head.endsBlockHead = true ∧ (∀ b ∈ blanks, b.isLayout = true) ∧
      brace.opens openBrace = true ∧ ∃ b ∈ blanks, b.isLinebreak = true := by
  have hfrom : ∀ (ts : List Token) (r : Reader) (seen : List Token), r.Knows seen →
      .ownLine ∈ votesFrom r ts →
      ∃ before head blanks brace after,
        seen ++ ts = before ++ head :: (blanks ++ brace :: after) ∧
        head.endsBlockHead = true ∧ (∀ b ∈ blanks, b.isLayout = true) ∧
        brace.opens openBrace = true ∧ ∃ b ∈ blanks, b.isLinebreak = true := by
    intro ts
    induction ts with
    | nil => simp [votesFrom]
    | cons t ts ih =>
      intro r seen hknows hvote
      rw [show seen ++ t :: ts = (seen ++ [t]) ++ ts by simp]
      cases ht : t.isLinebreak with
      | true =>
        rw [votesFrom_linebreak ht, List.mem_append] at hvote
        exact ih _ _ (hknows.linebreak ht) (hvote.resolve_left (by simp))
      | false =>
        rw [votesFrom_cons ht, List.append_assoc, List.mem_append, List.mem_append] at hvote
        rcases hvote with hvote | hvote | hvote
        · exact absurd (tellsIndent_of_mem_indentVotes hvote) (by simp [Vote.tellsIndent])
        · -- the brace stands at the end of what the reader knows
          have hbroken : r.broken = true := by
            rcases eq_of_mem_braceVotes hvote with ⟨-, hbroken⟩ | hv
            · exact hbroken
            · cases hv
          unfold Reader.braceVotes at hvote
          split_ifs at hvote with hbrace
          · rw [Bool.and_eq_true, Option.any_eq_true] at hbrace
            obtain ⟨hopens, head, hhead, hends⟩ := hbrace
            obtain ⟨before, blanks, rfl, hblanks, hbreak⟩ := hknows head hhead
            exact ⟨before, head, blanks, t, ts, by simp, hends, hblanks, hopens, hbreak hbroken⟩
          · simp at hvote
        · exact ih _ _ (hknows.advance _) hvote
  have hstart : Reader.Knows {} [] := fun head hhead => by simp at hhead
  exact hfrom ts {} [] hstart h

end Inference
end Restyle
