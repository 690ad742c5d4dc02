import Restyle.Proofs.Formatting.Delay
import Restyle.Proofs.Formatting.Iterates

/-!
# Whether formatting comes to rest

Without the experimental rule on semicolons, one pass with the default rules is
enough: the next pass finds nothing to do, whatever the text and the style.

With it this fails.  A run of semicolons at the end of a line goes one by one, a
brace may have to wait for the run, and there are only `maxPasses` passes.  The delay
of a text says exactly which texts are refused.

* `applyRules_defaults_eq_ok`: without the experimental rule.
* `format_defaults_iff_delay`: with it.
-/

namespace Restyle

namespace Page
namespace Mark

/-- Wrapping changes neither that a brace follows nor that it ends its line. -/
theorem nextIs_wrapMarks (ms : List Mark) :
    nextIs (fun n => n.opens && n.ends) (wrapMarks ms) =
      nextIs (fun n => n.opens && n.ends) ms := by
  cases ms with
  | nil => rfl
  | cons m ms =>
    cases hopens : m.opens with
    | false =>
      have hcode : ∀ ends, opens ⟨m.code, ends⟩ = false := fun ends => hopens
      rw [wrapMarks, nextIs_cons, nextIs_cons, hcode, hopens, Bool.false_and, Bool.false_and]
    | true =>
      have hcons := braceMarks_cons_of_not_head (endsBlockHead_of_opens hopens) true ms
      rw [show wrapMarks (m :: ms) = m :: wrapMarks ms from hcons, nextIs_cons, nextIs_cons]

theorem nextIs_opens_joinMarks (ms : List Mark) :
    nextIs opens (joinMarks ms) = nextIs opens ms := by
  cases ms <;> rfl

/-- **Braces are put in place at once.** -/
theorem braceMarks_braceMarks (allman : Bool) (ms : List Mark) :
    braceMarks allman (braceMarks allman ms) = braceMarks allman ms := by
  cases allman with
  | true =>
    show wrapMarks (wrapMarks ms) = wrapMarks ms
    induction ms with
    | nil => rfl
    | cons m ms ih =>
      rw [wrapMarks, wrapMarks, ih, nextIs_wrapMarks]
      simp
  | false =>
    show joinMarks (joinMarks ms) = joinMarks ms
    induction ms with
    | nil => rfl
    | cons m ms ih =>
      rw [joinMarks, joinMarks, ih, nextIs_opens_joinMarks]
      simp

end Mark
end Page

namespace Formatting

open Token

variable {style : Style} {source : String}

/-- **Without the experimental rule, formatting with the default rules comes to rest
after one pass.**  For every text and every such style, unless the text has to be
complete and is not, the rules succeed with the tokens of the first pass: the second
pass leaves them as they are. -/
theorem applyRules_defaults_eq_ok (hex : style.experimental = false)
    (hread : style.fragment = true ∨ ∀ t ∈ (scan source).getLast?, t.isError = false) :
    applyRules style (Rule.defaults style) (scan source) =
        .ok (step style (Rule.defaults style) (scan source)) ∧
      step style (Rule.defaults style) (step style (Rule.defaults style) (scan source)) =
        step style (Rule.defaults style) (scan source) := by
  have hrefused := refusal?_eq_none_iff.2 hread
  have hmarks : ∀ ms, Page.Mark.pass style ms = Page.Mark.braceMarks style.allman ms := by
    intro ms
    rw [Page.Mark.pass, hex]
    rfl
  have hstart : (Page.read (scan source)).NoOpenEnd := noOpenEnd_iterate hrefused 0
  have hpage := noOpenEnd_iterate hrefused 1
  have hfixed : step style (Rule.defaults style) (step style (Rule.defaults style) (scan source)) =
      step style (Rule.defaults style) (scan source) := by
    have hstep : step style (Rule.defaults style) (scan source) =
        ((Page.read (scan source)).pass style).tokens style.linebreak.text :=
      iterate_step_scan style source 0
    rw [hstep, step_tokens, (Page.pass_pass_eq_iff style hpage).2]
    rw [Page.outline_pass style hstart, hmarks, hmarks,
      Page.Mark.braceMarks_braceMarks]
  refine ⟨applyRules_eq_ok_iff.2 ⟨hrefused, ?_, hfixed⟩, hfixed⟩
  rw [show maxPasses - 1 = 8 + 1 from rfl, Function.iterate_succ_apply,
    Function.iterate_fixed hfixed]

/-- A block in the style that puts braces on lines of their own, as part of a file. -/
theorem applyRules_defaults_eq_ok_block :
    applyRules { allman := true, fragment := true }
        (Rule.defaults { allman := true, fragment := true }) (scan "if( a ) \x7b\n\n b=1;;\n\x7d") =
      .ok (step { allman := true, fragment := true }
        (Rule.defaults { allman := true, fragment := true })
        (scan "if( a ) \x7b\n\n b=1;;\n\x7d")) :=
  (@applyRules_defaults_eq_ok { allman := true, fragment := true } _ rfl (Or.inl rfl)).1

/-! ## With the experimental rule -/

/-- The search for a fixed point fails in one way only. -/
theorem exists_of_settle_eq_error {rules : List Rule} {more : Nat} {tokens : List Token}
    {failure : Failure} (h : settle style rules more tokens = .error failure) :
    ∃ names, failure = .restless names := by
  induction more generalizing tokens with
  | zero =>
    unfold settle at h
    dsimp only at h
    split at h
    · exact absurd h (by simp)
    · exact ⟨_, (Except.error.inj h).symm⟩
  | succ more ih =>
    unfold settle at h
    dsimp only at h
    split at h
    · exact absurd h (by simp)
    · exact ih h

/-- **With the experimental rule, formatting with the default rules succeeds exactly
if the delay of the text is less than the number of passes.**  For every text that
can be read to its end and every such style: if the delay is less, the text is
formatted, and otherwise it is refused because the rules do not come to rest. -/
theorem format_defaults_iff_delay (hex : style.experimental = true)
    (hread : ∀ t ∈ (scan source).getLast?, t.isError = false) :
    ((∃ out, format style (Rule.defaults style) source = .ok out) ↔
        Page.Mark.delay style.allman (Page.read (scan source)).outline < maxPasses) ∧
      ((∃ names, format style (Rule.defaults style) source = .error (.restless names)) ↔
        maxPasses ≤ Page.Mark.delay style.allman (Page.read (scan source)).outline) := by
  have hrefused := refusal?_eq_none_iff.2 (Or.inr (a := style.fragment = true) hread)
  have hrest : (∃ ts, applyRules style (Rule.defaults style) (scan source) = .ok ts) ↔
      Page.Mark.delay style.allman (Page.read (scan source)).outline < maxPasses := by
    rw [applyRules_defaults_ok_iff hrefused, Page.Mark.pass_eq_self_iff_delay hex,
      Page.Mark.delay_iterate_pass hex, maxPasses]
    omega
  cases happly : applyRules style (Rule.defaults style) (scan source) with
  | ok ts =>
    have hformat : format style (Rule.defaults style) source = .ok (Token.source ts) :=
      format_eq_ok_iff.2 ⟨ts, happly, rfl⟩
    have hlt := hrest.1 ⟨ts, happly⟩
    refine ⟨⟨fun _ => hlt, fun _ => ⟨_, hformat⟩⟩, ⟨?_, fun hle => absurd hlt (by omega)⟩⟩
    rintro ⟨names, hnames⟩
    exact absurd (hformat.symm.trans hnames) (by simp)
  | error failure =>
    have hformat : format style (Rule.defaults style) source = .error failure := by
      rw [format, happly]
      rfl
    have hge : maxPasses ≤ Page.Mark.delay style.allman (Page.read (scan source)).outline := by
      by_contra hlt
      obtain ⟨ts, hts⟩ := hrest.2 (by omega)
      exact absurd (happly.symm.trans hts) (by simp)
    have hsettle : settle style (Rule.defaults style) (maxPasses - 1) (scan source) =
        .error failure := by
      rw [applyRules, hrefused] at happly
      exact happly
    obtain ⟨names, rfl⟩ := exists_of_settle_eq_error hsettle
    refine ⟨⟨?_, fun hlt => absurd hge (by omega)⟩, ⟨fun _ => hge, fun _ => ⟨names, hformat⟩⟩⟩
    rintro ⟨out, hout⟩
    exact absurd (hformat.symm.trans hout) (by simp)

/-- Nine semicolons at the end of a line go in time; in front of a brace that waits
for them, they do not. -/
theorem format_defaults_iff_delay_nine :
    (∃ out, format { experimental := true } (Rule.defaults { experimental := true })
        "a;;;;;;;;;\n" = .ok out) ∧
      ∃ names, format { experimental := true } (Rule.defaults { experimental := true })
        "a;;;;;;;;;\n\x7b\x7d" = .error (.restless names) :=
  ⟨(@format_defaults_iff_delay { experimental := true } _ rfl (by decide +kernel)).1.2
      (by decide +kernel),
    (@format_defaults_iff_delay { experimental := true } _ rfl (by decide +kernel)).2.2
      (by decide +kernel)⟩

/-- **The default rules do not come to rest on ten semicolons at the end of a line.** -/
theorem format_ten_semicolons :
    format { experimental := true } (Rule.defaults { experimental := true }) "a;;;;;;;;;;\n" =
      .error (.restless ["semicolons"]) := by
  decide +kernel

end Formatting
end Restyle
