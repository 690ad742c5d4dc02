import Restyle.Proofs.Formatting.Iterates

/-!
# Formatting twice

Formatting comes to rest on a list of tokens, and its result is a text.  The text is
read back as the very tokens that formatting came to rest on: they are legible, as
the tokens of any pass are, and they are the tokens of a page, so that no two blanks
of it are taken for one.  A formatted text is therefore left alone when it is
formatted again.
-/

namespace Restyle
namespace Formatting

open Token

variable {style : Style} {source : String} {ts : List Token}

/-- What the default rules come to rest on is read back from its text. -/
theorem scan_source_of_applyRules
    (h : applyRules style (Rule.defaults style) (scan source) = .ok ts) :
    scan (Token.source ts) = ts := by
  obtain ⟨hrefused, rfl, -⟩ := applyRules_eq_ok_iff.1 h
  have hkept := kept_iterate true (mem_catalog_of_select (select_none_nil style))
    (fun _ _ _ => rfl) (legible_scan source) hrefused (maxPasses - 1)
  have htidy : Tidy ((step style (Rule.defaults style))^[maxPasses - 1] (scan source)) := by
    rw [show maxPasses - 1 = 8 + 1 from rfl, iterate_step_scan]
    exact Page.tidy_tokens _ _
  rw [scan_source, scanFrom_chars_of_tidy hkept.legible htidy]

/-- What the default rules come to rest on is accepted again. -/
theorem refusal?_of_applyRules
    (h : applyRules style (Rule.defaults style) (scan source) = .ok ts) :
    refusal? style ts = none := by
  obtain ⟨hrefused, rfl, -⟩ := applyRules_eq_ok_iff.1 h
  have hkept := kept_iterate true (mem_catalog_of_select (select_none_nil style))
    (fun _ _ _ => rfl) (legible_scan source) hrefused (maxPasses - 1)
  rw [refusal?_eq_none_iff] at hrefused ⊢
  rcases hrefused with hfragment | hlast
  · exact Or.inl hfragment
  · right
    intro t ht
    have herror := isError_eq_false_of_getLast? (legible_scan source) hlast
    exact hkept.isError_eq_false herror t (List.mem_of_getLast? ht)

/-- A formatted text is its own formatted form. -/
theorem format_of_format {out : String}
    (h : format style (Rule.defaults style) source = .ok out) :
    format style (Rule.defaults style) out = .ok out := by
  obtain ⟨ts, hts, rfl⟩ := format_eq_ok_iff.1 h
  have hfixed := (applyRules_eq_ok_iff.1 hts).2.2
  refine format_eq_ok_iff.2 ⟨ts, ?_, rfl⟩
  rw [scan_source_of_applyRules hts]
  exact applyRules_eq_ok_iff.2
    ⟨refusal?_of_applyRules hts, Function.iterate_fixed hfixed _, hfixed⟩

/-- **Formatting with the default rules is idempotent.**  For every text and every
style: if the default rules come to rest on some tokens, their text is read back as
these tokens, and formatting it gives the same text again. -/
theorem format_source_of_applyRules
    (h : applyRules style (Rule.defaults style) (scan source) = .ok ts) :
    scan (Token.source ts) = ts ∧
      format style (Rule.defaults style) (Token.source ts) = .ok (Token.source ts) := by
  have hscan := scan_source_of_applyRules h
  have hfixed := (applyRules_eq_ok_iff.1 h).2.2
  refine ⟨hscan, format_eq_ok_iff.2 ⟨ts, ?_, rfl⟩⟩
  rw [hscan]
  exact applyRules_eq_ok_iff.2
    ⟨refusal?_of_applyRules h, Function.iterate_fixed hfixed _, hfixed⟩

/-- A block in the style that puts braces on lines of their own, cut off in the
middle: the brace that is still open is an error token at the end. -/
theorem format_source_of_applyRules_fragment :
    applyRules { allman := true, experimental := true, fragment := true }
        (Rule.defaults { allman := true, experimental := true, fragment := true })
        (scan "f\x7b\r\nb; \n") =
      .ok [⟨.identifier, "f"⟩, ⟨.linebreak, "\n"⟩, ⟨.startOfScope, "\x7b"⟩, ⟨.linebreak, "\n"⟩,
        ⟨.space, "    "⟩, ⟨.identifier, "b"⟩, ⟨.linebreak, "\n"⟩, ⟨.space, "    "⟩,
        ⟨.error, ""⟩] ∧
      format { allman := true, experimental := true, fragment := true }
        (Rule.defaults { allman := true, experimental := true, fragment := true })
        "f\n\x7b\n    b\n    " = .ok "f\n\x7b\n    b\n    " := by
  have h : applyRules { allman := true, experimental := true, fragment := true }
        (Rule.defaults { allman := true, experimental := true, fragment := true })
        (scan "f\x7b\r\nb; \n") =
      .ok [⟨.identifier, "f"⟩, ⟨.linebreak, "\n"⟩, ⟨.startOfScope, "\x7b"⟩, ⟨.linebreak, "\n"⟩,
        ⟨.space, "    "⟩, ⟨.identifier, "b"⟩, ⟨.linebreak, "\n"⟩, ⟨.space, "    "⟩,
        ⟨.error, ""⟩] := by decide +kernel
  exact ⟨h, (format_source_of_applyRules h).2⟩

end Formatting
end Restyle
