import Mathlib.Data.List.FinRange
import Restyle.Proofs.Formatting.Passes

/-!
# Rules at work

Passes stop when one leaves the tokens alone, and rules that are still at work in the last
pass are named.  This file says exactly when that happens, for any list of rules that work
through the edits of a buffer.

Two things are easily confused here: that a rule has *changed* the tokens, and that it has
been *at work*.  A rule may take back what it did, and a later rule may take back what an
earlier one did.  The flag of a buffer tells the second.  It is up exactly if one of the edits
that led to the buffer changed the tokens at that point, whichever edits these were.

* `Buffer.Run`: a run of edits, with what each of them found and left.
* `Buffer.Run.edited_iff`: what the flag tells about a run.
* `active_eq`: the rules that a pass names, as the positions of the rules that raise it.
* `settle_eq_error_iff`: when the search for a fixed point is given up, and with what names.
* `applyRules_ok_iff_or_restless`: all of this for the application of rules to a list of tokens.
-/

namespace Restyle

/-! ## Edits and the flag -/

namespace Buffer

/-- An edit raises the flag exactly if it changes the tokens. -/
theorem Edit.edited_eq {b c : Buffer} (h : Edit b c) :
    c.edited = (b.edited || c.tokens != b.tokens) := by
  -- a list of another length is another list
  have hlength : ∀ {tokens : List Token}, tokens.length ≠ b.tokens.length →
      true = (b.edited || tokens != b.tokens) := by
    intro tokens hne
    have hne' : tokens ≠ b.tokens := fun heq => hne (congrArg List.length heq)
    simp [hne']
  have hassign : ∀ tokens, (b.assign tokens).edited =
      (b.edited || (b.assign tokens).tokens != b.tokens) := by
    intro tokens
    rw [assign_edited, assign_tokens]
  cases h with
  | @replace i t h =>
    unfold replace? at h
    split at h
    · obtain rfl := Option.some.inj h
      exact hassign _
    · exact absurd h (by simp)
  | @insert i t h =>
    unfold insert? at h
    split at h
    · obtain rfl := Option.some.inj h
      apply hlength
      simp only [List.length_append, List.length_cons, List.length_take, List.length_drop]
      omega
    · exact absurd h (by simp)
  | @remove i h =>
    unfold remove? at h
    split at h
    · obtain rfl := Option.some.inj h
      apply hlength
      simp only [List.length_append, List.length_take, List.length_drop]
      omega
    · exact absurd h (by simp)
  | @removeRange start stop h =>
    unfold removeRange? at h
    split at h
    · obtain rfl := Option.some.inj h
      simp
    · split at h
      · obtain rfl := Option.some.inj h
        apply hlength
        simp only [List.length_append, List.length_take, List.length_drop]
        omega
      · exact absurd h (by simp)
  | @replaceRange start stop tokens h =>
    unfold replaceRange? at h
    split at h
    · obtain rfl := Option.some.inj h
      exact hassign _
    · exact absurd h (by simp)

/-- A run of edits that leads from one buffer to another.  The log holds the tokens before and
after every edit. -/
inductive Run : Buffer → List (List Token × List Token) → Buffer → Prop
  /-- No edit. -/
  | refl (b : Buffer) : Run b [] b
  /-- One edit more. -/
  | tail {a b c : Buffer} {log : List (List Token × List Token)} (h : Run a log b)
      (hedit : Edit b c) : Run a (log ++ [(b.tokens, c.tokens)]) c

/-- Whether one of the edits of a log has changed the tokens that it found. -/
def Effective (log : List (List Token × List Token)) : Prop := ∃ e ∈ log, e.2 ≠ e.1

theorem effective_concat {log : List (List Token × List Token)} {found left : List Token} :
    Effective (log ++ [(found, left)]) ↔ Effective log ∨ left ≠ found := by
  simp [Effective, or_and_right, exists_or]

/-- What is reached by edits is reached by a run of them. -/
theorem Reaches.exists_run {a b : Buffer} (h : Reaches a b) : ∃ log, Run a log b := by
  induction h with
  | refl => exact ⟨[], .refl _⟩
  | tail _ hedit ih =>
    obtain ⟨log, hlog⟩ := ih
    exact ⟨_, hlog.tail hedit⟩

namespace Run

variable {a b : Buffer} {log : List (List Token × List Token)}

/-- **The flag is up after a run of edits exactly if it was up before or one of the edits changed
the tokens.** -/
theorem edited_iff (h : Run a log b) : b.edited = true ↔ a.edited = true ∨ Effective log := by
  induction h with
  | refl => simp [Effective]
  | tail _ hedit ih => rw [hedit.edited_eq, Bool.or_eq_true, ih, effective_concat, or_assoc,
      bne_iff_ne]

/-- A run without effective edits leaves the tokens as they are. -/
theorem tokens_eq (h : Run a log b) (hlog : ¬ Effective log) : b.tokens = a.tokens := by
  induction h with
  | refl => rfl
  | @tail b c log _ _ ih =>
    rw [effective_concat, not_or, not_not] at hlog
    rw [hlog.2, ih hlog.1]

end Run
end Buffer

namespace Rule

/-- A faithful rule that does not raise the flag leaves the tokens as they are. -/
theorem Faithful.run_eq_self {r : Rule} (h : r.Faithful) {style : Style} {tokens : List Token}
    (hflag : (r.apply style ⟨tokens, false⟩).edited = false) : r.run style tokens = tokens := by
  obtain ⟨log, hlog⟩ := (h style ⟨tokens, false⟩).exists_run
  refine hlog.tokens_eq fun heffective => ?_
  rw [hlog.edited_iff.2 (Or.inr heffective)] at hflag
  exact absurd hflag (by simp)

theorem faithful_asExperimental {r : Rule} (h : r.Faithful) : r.asExperimental.Faithful := h

/-- **Every rule there is works through the edits of a buffer.** -/
theorem faithful_of_mem_catalog {r : Rule} (h : r ∈ catalog) : r.Faithful := by
  have hcommas : spaceAroundCommas.Faithful := fun style b =>
    ((Buffer.Reaches.refl b).tail (Buffer.edit_transform _ b)).tail (Buffer.edit_transform _ _)
  have hall : ∀ s ∈ catalog, s.Faithful := by
    simp [catalog, hcommas, linebreaks, braces, spaceAroundBraces, spaceAroundOperators,
      spaceInsideParens, semicolons, consecutiveSpaces, blankLinesAtStartOfScope,
      blankLinesAtEndOfScope, consecutiveBlankLines, indent, trailingSpace, linebreakAtEndOfFile,
      faithful_ofTransform, faithful_asExperimental]
  exact hall r h

end Rule

/-! ## The rules that a pass names -/

namespace Formatting

variable {style : Style} {rules : List Rule} {tokens : List Token}

/-- What the rule at position `i` makes of what it finds in a pass. -/
def turn (style : Style) (rules : List Rule) (tokens : List Token) (i : Fin rules.length) :
    Buffer :=
  (rules.get i).apply style ⟨step style (rules.take i) tokens, false⟩

/-- Edits that the rule at position `i` can have made in a pass. -/
def Logged (style : Style) (rules : List Rule) (tokens : List Token) (i : Fin rules.length)
    (log : List (List Token × List Token)) : Prop :=
  Buffer.Run ⟨step style (rules.take i) tokens, false⟩ log (turn style rules tokens i)

theorem exists_logged (hrules : ∀ r ∈ rules, r.Faithful) (i : Fin rules.length) :
    ∃ log, Logged style rules tokens i log :=
  (hrules _ (List.get_mem rules i) style _).exists_run

/-- **A pass names the rules that raise the flag when their turn comes**, in order. -/
theorem active_eq (style : Style) (rules : List Rule) (tokens : List Token) :
    (pass style tokens rules).active =
      ((List.finRange rules.length).filter fun i => (turn style rules tokens i).edited).map
        fun i => (rules.get i).name := by
  induction rules generalizing tokens with
  | nil => rfl
  | cons r rules ih =>
    have hfirst : turn style (r :: rules) tokens 0 = r.apply style ⟨tokens, false⟩ := rfl
    have hlater : ∀ i : Fin rules.length, turn style (r :: rules) tokens i.succ =
        turn style rules (r.run style tokens) i := fun i => rfl
    simp only [pass, List.length_cons, List.finRange_succ, List.filter_cons, List.filter_map,
      Function.comp_def, hfirst, hlater, ih]
    split
    · simp only [List.map_cons, List.map_map]
      rfl
    · simp only [List.map_map]
      rfl

/-- A pass that names no rule leaves the tokens as they are. -/
theorem step_eq_self_of_active (hrules : ∀ r ∈ rules, r.Faithful)
    (h : (pass style tokens rules).active = []) : step style rules tokens = tokens := by
  induction rules generalizing tokens with
  | nil => rfl
  | cons r rules ih =>
    rw [pass] at h
    dsimp only at h
    split at h
    · exact absurd h (by simp)
    · rename_i hflag
      have hrun := (hrules r List.mem_cons_self).run_eq_self (Bool.eq_false_iff.2 hflag)
      rw [step_cons, hrun]
      rw [show (r.apply style ⟨tokens, false⟩).tokens = tokens from hrun] at h
      exact ih (fun s hs => hrules s (List.mem_cons_of_mem _ hs)) h

/-- **The search for a fixed point is given up exactly if the last pass finds none**, and then the
rules that this pass names are reported. -/
theorem settle_eq_error_iff {more : Nat} {failure : Failure} :
    settle style rules more tokens = .error failure ↔
      step style rules ((step style rules)^[more] tokens) ≠ (step style rules)^[more] tokens ∧
        failure = .restless (pass style ((step style rules)^[more] tokens) rules).active := by
  induction more generalizing tokens with
  | zero =>
    unfold settle
    dsimp only [Function.iterate_zero, id_eq]
    split
    · rename_i hfixed
      simp [step, hfixed]
    · rename_i hfixed
      rw [Except.error.injEq, eq_comm]
      exact ⟨fun h => ⟨hfixed, h⟩, fun h => h.2⟩
  | succ more ih =>
    unfold settle
    dsimp only
    split
    · rename_i hfixed
      have hfixed' : step style rules tokens = tokens := hfixed
      simp [Function.iterate_fixed hfixed', hfixed']
    · rw [ih, Function.iterate_succ_apply]
      rfl

/-- A fixed point that one of the first iterates finds is the one that a later iterate finds. -/
theorem exists_iterate_iff {α : Type} {f : α → α} {n : Nat} {x y : α} :
    (∃ k ≤ n, y = f^[k] x ∧ f y = y) ↔ f^[n] x = y ∧ f y = y := by
  constructor
  · rintro ⟨k, hk, rfl, hfixed⟩
    refine ⟨?_, hfixed⟩
    rw [← Nat.sub_add_cancel hk, Function.iterate_add_apply, Function.iterate_fixed hfixed]
  · rintro ⟨rfl, hfixed⟩
    exact ⟨n, Nat.le_refl n, rfl, hfixed⟩

/-- **What the application of rules comes to.**  For all rules that work through the edits of a
buffer, in any order and with repetitions, and all tokens that are not refused:

* the rules succeed with `out` exactly if `out` is found after at most nine passes and a pass
  leaves it alone;
* otherwise the tokens are refused with a fault of parsing that names, in order, the rules at the
  positions `busy`: there is one at least, and whatever edits a rule makes in the tenth pass, its
  position is among them exactly if one of these edits changes the tokens;
* a rule that does not raise the flag leaves the tokens as they are. -/
theorem applyRules_ok_iff_or_restless (hrules : ∀ r ∈ rules, r.Faithful)
    (hread : style.fragment = true ∨ ∀ t ∈ tokens.getLast?, t.isError = false) :
    (∀ out, applyRules style rules tokens = .ok out ↔
        ∃ k ≤ 9, out = (step style rules)^[k] tokens ∧ step style rules out = out) ∧
      ((∀ out, applyRules style rules tokens ≠ .ok out) →
        ∃ busy : List (Fin rules.length), busy ≠ [] ∧ busy.Pairwise (· < ·) ∧
          (∀ i, (∃ log, Logged style rules ((step style rules)^[9] tokens) i log) ∧
            ∀ log, Logged style rules ((step style rules)^[9] tokens) i log →
              (i ∈ busy ↔ Buffer.Effective log)) ∧
          ∃ failure, applyRules style rules tokens = .error failure ∧
            failure.fault = ⟨.parsing, "rules failed to converge after 10 passes (still changing: "
              ++ ", ".intercalate (busy.map fun i => (rules.get i).name) ++ ")"⟩) ∧
      ∀ r ∈ rules, ∀ ts, (r.apply style ⟨ts, false⟩).edited = false →
        (r.apply style ⟨ts, false⟩).tokens = ts := by
  have hrefused := refusal?_eq_none_iff.2 hread
  refine ⟨fun out => ?ok, fun hnot => ?restless, fun r hr ts => (hrules r hr).run_eq_self⟩
  case ok =>
    rw [applyRules_eq_ok_iff, exists_iterate_iff]
    exact and_iff_right hrefused
  case restless =>
    obtain ⟨last, hlast⟩ : ∃ last, (step style rules)^[9] tokens = last := ⟨_, rfl⟩
    rw [hlast]
    have hmoves : step style rules last ≠ last := by
      intro hfixed
      exact hnot last (applyRules_eq_ok_iff.2 ⟨hrefused, hlast, hfixed⟩)
    refine ⟨(List.finRange rules.length).filter fun i => (turn style rules last i).edited,
      fun hnil => ?_, (List.pairwise_lt_finRange _).filter _,
      fun i => ⟨exists_logged hrules i, fun log hlog => ?_⟩,
      .restless (pass style last rules).active, ?_, ?_⟩
    · exact hmoves (step_eq_self_of_active hrules (by rw [active_eq, hnil, List.map_nil]))
    · rw [List.mem_filter, Buffer.Run.edited_iff hlog]
      simp
    · rw [applyRules, hrefused]
      refine settle_eq_error_iff.2 ?_
      rw [show maxPasses - 1 = 9 from rfl, hlast]
      exact ⟨hmoves, rfl⟩
    · rw [active_eq]
      rfl

/-- A rule that puts a space between two commas and takes it out again, and one that takes away
one of ten semicolons in every pass: both are named, although the first one changes nothing. -/
theorem applyRules_ok_iff_or_restless_commas :
    applyRules {} [.spaceAroundCommas, .semicolons] (Token.scan "a,,;;;;;;;;;;") =
        .error (.restless ["spaceAroundCommas", "semicolons"]) ∧
      ∃ busy : List (Fin 2), busy ≠ [] ∧ busy.Pairwise (· < ·) ∧
        ∃ failure, applyRules {} [.spaceAroundCommas, .semicolons] (Token.scan "a,,;;;;;;;;;;") =
            .error failure ∧
          failure.fault = ⟨.parsing, "rules failed to converge after 10 passes (still changing: "
            ++ ", ".intercalate (busy.map fun i =>
              ([.spaceAroundCommas, .semicolons] : List Rule)[i].name) ++ ")"⟩ := by
  have h : applyRules {} [.spaceAroundCommas, .semicolons] (Token.scan "a,,;;;;;;;;;;") =
      .error (.restless ["spaceAroundCommas", "semicolons"]) := by decide +kernel
  have hrules : ∀ r ∈ ([.spaceAroundCommas, .semicolons] : List Rule), r.Faithful := by
    intro r hr
    rcases List.mem_pair.1 hr with rfl | rfl <;>
      exact Rule.faithful_of_mem_catalog (by simp [Rule.catalog])
  obtain ⟨busy, hne, hsorted, -, hfailure⟩ :=
    (@applyRules_ok_iff_or_restless {} _ (Token.scan "a,,;;;;;;;;;;") hrules
      (Or.inr (by decide +kernel))).2.1 (by simp [h])
  exact ⟨h, busy, hne, hsorted, hfailure⟩

end Formatting
end Restyle
