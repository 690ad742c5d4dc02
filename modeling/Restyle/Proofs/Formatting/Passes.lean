import Mathlib.Logic.Function.Iterate
import Restyle.Formatting

/-!
# Passes and what they settle on

A pass applies every rule once.  This file reads passes as one function on lists
of tokens, `step`, and the search for a fixed point as an iteration of it.

* `settle_eq_ok_iff`: the search with `more` further passes succeeds with `out`
  exactly if `out` is the `more`-th iterate and the next pass leaves it alone.  A
  fixed point that is reached earlier is still there then.
* `applyRules_eq_ok_iff`: the same for the whole application of rules, with the
  refusal of unreadable texts in front of it.
* `step_induction`, `iterate_induction`: what every rule keeps, a pass keeps, and
  so does any number of passes.
-/

namespace Restyle

/-- The effect of a rule on tokens, without the flag. -/
def Rule.run (r : Rule) (style : Style) (tokens : List Token) : List Token :=
  (r.apply style ⟨tokens, false⟩).tokens

@[simp] theorem Rule.run_ofTransform (name help : String) (f : Style → List Token → List Token)
    (style : Style) (tokens : List Token) :
    (Rule.ofTransform name help f).run style tokens = f style tokens := by
  simp [Rule.run, Rule.ofTransform]

namespace Formatting

variable {style : Style} {rules : List Rule}

/-- One pass, as a function on lists of tokens. -/
def step (style : Style) (rules : List Rule) (tokens : List Token) : List Token :=
  (pass style tokens rules).tokens

@[simp] theorem step_nil (style : Style) (tokens : List Token) :
    step style [] tokens = tokens := rfl

@[simp] theorem step_cons (style : Style) (r : Rule) (rules : List Rule) (tokens : List Token) :
    step style (r :: rules) tokens = step style rules (r.run style tokens) := rfl

/-- What every rule of a pass keeps, the pass keeps. -/
theorem step_induction {P : List Token → Prop}
    (h : ∀ r ∈ rules, ∀ tokens, P tokens → P (r.run style tokens)) {tokens : List Token}
    (hP : P tokens) : P (step style rules tokens) := by
  induction rules generalizing tokens with
  | nil => exact hP
  | cons r rules ih =>
    rw [step_cons]
    exact ih (fun s hs => h s (List.mem_cons_of_mem _ hs)) (h r List.mem_cons_self tokens hP)

/-- What a pass keeps, any number of passes keeps. -/
theorem iterate_induction {P : List Token → Prop}
    (h : ∀ tokens, P tokens → P (step style rules tokens)) (n : Nat) {tokens : List Token}
    (hP : P tokens) : P ((step style rules)^[n] tokens) := by
  induction n generalizing tokens with
  | zero => exact hP
  | succ n ih => exact ih (h tokens hP)

/-- **The search for a fixed point succeeds exactly if its last pass finds one.** -/
theorem settle_eq_ok_iff {more : Nat} {tokens out : List Token} :
    settle style rules more tokens = .ok out ↔
      (step style rules)^[more] tokens = out ∧ step style rules out = out := by
  induction more generalizing tokens with
  | zero =>
    unfold settle
    simp only [Function.iterate_zero, id_eq]
    split
    · rename_i hfixed
      rw [Except.ok.injEq]
      constructor
      · rintro rfl
        exact ⟨rfl, hfixed⟩
      · exact fun h => h.1
    · rename_i hfixed
      constructor
      · intro h
        exact absurd h (by simp)
      · rintro ⟨rfl, h⟩
        exact absurd h hfixed
  | succ more ih =>
    unfold settle
    simp only
    split
    · rename_i hfixed
      have hfixed' : step style rules tokens = tokens := hfixed
      rw [Except.ok.injEq, Function.iterate_fixed hfixed']
      constructor
      · rintro rfl
        exact ⟨rfl, hfixed⟩
      · exact fun h => h.1
    · rw [ih, Function.iterate_succ_apply]
      rfl

/-- **Rules succeed on tokens exactly if these are not refused and the last pass
finds a fixed point.** -/
theorem applyRules_eq_ok_iff {tokens out : List Token} :
    applyRules style rules tokens = .ok out ↔
      refusal? style tokens = none ∧
        (step style rules)^[maxPasses - 1] tokens = out ∧ step style rules out = out := by
  unfold applyRules
  cases h : refusal? style tokens with
  | some failure => simp
  | none => simp [settle_eq_ok_iff]

theorem format_eq_ok_iff {source out : String} :
    format style rules source = .ok out ↔
      ∃ tokens, applyRules style rules (Token.scan source) = .ok tokens ∧
        Token.source tokens = out := by
  unfold format
  cases h : applyRules style rules (Token.scan source) with
  | error failure => simp [Except.map]
  | ok tokens => simp [Except.map]

/-- Tokens are refused exactly if the text must be complete and they end with an
error. -/
theorem refusal?_eq_none_iff {tokens : List Token} :
    refusal? style tokens = none ↔
      style.fragment = true ∨ ∀ t ∈ tokens.getLast?, t.isError = false := by
  unfold refusal?
  split
  · simp_all
  · rename_i hfragment
    cases hlast : tokens.getLast? with
    | none => simp
    | some t => cases ht : t.isError <;> simp_all

end Formatting
end Restyle
