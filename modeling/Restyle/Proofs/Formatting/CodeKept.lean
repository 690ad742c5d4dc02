import Restyle.Proofs.Formatting.Passes
import Restyle.Proofs.Layout.Rules

/-!
# Formatting changes only layout

The code of a formatted text --- its tokens that are neither spaces nor
linebreaks, with comments, string literals and an error at the end among them ---
is the code of the source, except that semicolons may be missing if the rule that
removes them is at work.

The statement is about texts, not about the tokens that the rules work on: the
formatted text is read again.  What makes this possible is that every rule of the
catalog lays its input out anew (`Relaid`), so that the tokens stay legible from
the first pass to the last.
-/

namespace Restyle
namespace Formatting

open Token

/-- The tokens `ys` can be read back, and their code is that of `xs` but for
semicolons, which may be missing if `semis` is set. -/
structure Kept (semis : Bool) (xs ys : List Token) : Prop where
  /-- The tokens can be read back. -/
  legible : Legible [] ys
  /-- The code has lost semicolons at most. -/
  thinned : Thinned (fun t => semis && Semicolons.isSemicolon t) (code xs) (code ys)

namespace Kept

variable {semis : Bool} {xs ys zs : List Token}

theorem refl (h : Legible [] xs) : Kept semis xs xs := ⟨h, .refl _ _⟩

theorem trans (hxy : Kept semis xs ys) (hyz : Kept semis ys zs) : Kept semis xs zs :=
  ⟨hyz.legible, hxy.thinned.trans hyz.thinned⟩

theorem of_relaid (hx : Legible [] xs) (h : Relaid semis none xs ys) : Kept semis xs ys :=
  ⟨h.legible hx, h.thinned⟩

/-- No error appears. -/
theorem isError_eq_false (h : Kept semis xs ys) (hxs : ∀ t ∈ xs, t.isError = false) :
    ∀ t ∈ ys, t.isError = false := by
  intro t ht
  by_contra herror
  have hcode : t.isCode = true := by
    have hkind : t.kind = .error := by simpa [isError] using herror
    simp [isCode, isLayout, isSpace, isLinebreak, hkind]
  have hmem : t ∈ code xs := h.thinned.subset (List.mem_filter.2 ⟨ht, hcode⟩)
  exact herror (hxs t (List.mem_filter.1 hmem).1)

end Kept

/-- Joining and shortening runs of spaces, with the blanks of a legible list. -/
theorem kept_consecutiveSpaces {semis : Bool} {tokens : List Token} (h : Legible [] tokens) :
    Kept semis tokens (Spacing.singleSpaces none (Spacing.joinSpaces tokens)) := by
  have hjoin : Kept semis tokens (Spacing.joinSpaces tokens) :=
    .of_relaid h (.joinSpaces tokens fun b hb hlayout => h.isBlank_of_mem hb hlayout)
  exact hjoin.trans (.of_relaid hjoin.legible (.singleSpaces none _))

/-- **Every rule of the catalog keeps the code**, with one exception: the rule on
semicolons removes some of them. -/
theorem kept_run {semis : Bool} {style : Style} {r : Rule} {tokens : List Token}
    (hr : r ∈ Rule.catalog) (hsemis : r.name = "semicolons" → semis = true)
    (h : Legible [] tokens)
    (herror : style.fragment = false → ∀ t ∈ tokens, t.isError = false) :
    Kept semis tokens (r.run style tokens) := by
  simp only [Rule.catalog, List.mem_cons, List.not_mem_nil, or_false] at hr
  rcases hr with rfl | rfl | rfl | rfl | rfl | rfl | rfl | rfl | rfl | rfl | rfl | rfl | rfl | rfl
  · exact .of_relaid h (by simpa [Rule.linebreaks] using Relaid.unify style.linebreak tokens)
  · refine .of_relaid h ?_
    rw [Rule.braces, Rule.run_ofTransform]
    split
    · exact .wrap style.linebreak tokens
    · exact .join tokens
  · exact .of_relaid h (by simpa [Rule.spaceAroundBraces] using Relaid.aroundBraces tokens)
  · exact .of_relaid h (by simpa [Rule.spaceAroundOperators] using Relaid.aroundOperators tokens)
  · have hafter : Kept semis tokens (Spacing.afterCommas tokens) :=
      .of_relaid h (.afterCommas tokens)
    have hbefore : Kept semis (Spacing.afterCommas tokens)
        (Spacing.beforeCommas none (Spacing.afterCommas tokens)) :=
      .of_relaid hafter.legible (.beforeCommas none _)
    simpa [Rule.run, Rule.spaceAroundCommas] using hafter.trans hbefore
  · refine .of_relaid h ?_
    rw [Rule.spaceInsideParens, Rule.run_ofTransform]
    exact .insideBrackets none tokens (by simp)
  · refine .of_relaid h ?_
    rw [hsemis rfl]
    simpa [Rule.run, Rule.semicolons, Rule.asExperimental, Rule.ofTransform] using
      Relaid.dropTrailing tokens
  · rw [Rule.consecutiveSpaces, Rule.run_ofTransform]
    exact kept_consecutiveSpaces h
  · refine .of_relaid h ?_
    rw [Rule.blankLinesAtStartOfScope, Rule.run_ofTransform]
    exact .trimBlockStarts false tokens
  · refine .of_relaid h ?_
    rw [Rule.blankLinesAtEndOfScope, Rule.run_ofTransform]
    exact .trimBlockEnds tokens
  · refine .of_relaid h ?_
    rw [Rule.consecutiveBlankLines, Rule.run_ofTransform]
    exact .limitBlankLines _ 0 tokens (by simp)
  · refine .of_relaid h ?_
    rw [Rule.indent, Rule.run_ofTransform]
    exact .indentLines _ [] tokens (by simp)
  · refine .of_relaid h ?_
    rw [Rule.trailingSpace, Rule.run_ofTransform]
    exact .trimLines _ none tokens
  · refine .of_relaid h ?_
    rw [Rule.linebreakAtEndOfFile, Rule.run_ofTransform]
    split
    · exact .refl _ _ _
    · rename_i hfragment
      exact .endWithLinebreak _ tokens (herror (by simpa using hfragment))

/-- A legible list that does not end with an error has none. -/
theorem isError_eq_false_of_getLast? {scopes : List Char} {tokens : List Token}
    (h : Legible scopes tokens) (hlast : ∀ t ∈ tokens.getLast?, t.isError = false) :
    ∀ t ∈ tokens, t.isError = false := by
  -- the last token of a longer list is the last token of its tail
  have htail : ∀ {u : Token} {rest : List Token}, (∀ t ∈ (u :: rest).getLast?, t.isError = false) →
      ∀ t ∈ rest.getLast?, t.isError = false := by
    intro u rest hu t ht
    refine hu t ?_
    cases rest with
    | nil => simp at ht
    | cons v rest => rwa [List.getLast?_cons_cons]
  induction h with
  | done => simp
  | @blank _ u rest hblank _ ih =>
    intro t ht
    rcases List.mem_cons.1 ht with rfl | ht
    · rcases hblank.kind with hk | hk <;> simp [isError, hk]
    · exact ih (htail hlast) t ht
  | @code _ _ kind c more rest hcode hlex _ _ ih =>
    intro t ht
    rcases List.mem_cons.1 ht with rfl | ht
    · have hfits := fits_lexeme hcode (more ++ chars rest)
      rw [hlex] at hfits
      simpa [isError] using hfits.2.2.1
    · exact ih (htail hlast) t ht
  | unfinished => exact absurd (hlast ⟨.error, ""⟩ rfl) (by decide)
  | unexpected => exact absurd (hlast _ rfl) (by simp [isError])
  | unmatched => exact absurd (hlast _ rfl) (by simp [isError])
  | unclosed => exact absurd (hlast ⟨.error, ""⟩ rfl) (by decide)

/-- **Passes keep the code.** -/
theorem kept_iterate (semis : Bool) {style : Style} {rules : List Rule} {tokens : List Token}
    (hrules : ∀ r ∈ rules, r ∈ Rule.catalog)
    (hsemis : ∀ r ∈ rules, r.name = "semicolons" → semis = true)
    (h : Legible [] tokens) (hrefused : refusal? style tokens = none) (n : Nat) :
    Kept semis tokens ((step style rules)^[n] tokens) := by
  have herror : style.fragment = false → ∀ t ∈ tokens, t.isError = false := by
    intro hfragment
    rcases refusal?_eq_none_iff.1 hrefused with hf | hlast
    · rw [hfragment] at hf
      exact absurd hf (by decide)
    · exact isError_eq_false_of_getLast? h hlast
  refine iterate_induction (fun ts hts => ?_) n (.refl h)
  refine step_induction (fun r hr us hus => ?_) hts
  exact hus.trans (kept_run (hrules r hr) (hsemis r hr) hus.legible
    fun hf => hus.isError_eq_false (herror hf))

/-! ## The rules of a selection -/

/-- Whatever is asked for, the rules that are selected come from the catalog. -/
theorem mem_catalog_of_select {enabled : Option (List String)} {disabled : List String}
    {style : Style} {rules : List Rule} (h : Rule.select enabled disabled style = .ok rules) :
    ∀ r ∈ rules, r ∈ Rule.catalog := by
  intro r hr
  unfold Rule.select at h
  split at h
  · exact absurd h (by simp)
  · obtain rfl := Except.ok.inj h
    have hr := (List.mem_filter.1 hr).1
    cases enabled with
    | none => exact (List.mem_filter.1 hr).1
    | some names => exact (List.mem_filter.1 hr).1

/-- With nothing asked for and nothing disabled, the default rules are selected. -/
theorem select_none_nil (style : Style) :
    Rule.select none [] style = .ok (Rule.defaults style) := by
  simp [Rule.select]

/-- **Formatting changes only layout.**  For every text, every style and every
selection of rules: if the text can be formatted, the formatted text has the code
of the source, less some semicolons at most; and if the rule on semicolons is not
among the rules, it has exactly the code of the source. -/
theorem code_scan_format {style : Style} {enabled : Option (List String)}
    {disabled : List String} {rules : List Rule} {source out : String}
    (hrules : Rule.select enabled disabled style = .ok rules)
    (h : format style rules source = .ok out) :
    ("semicolons" ∉ rules.map Rule.name → code (scan out) = code (scan source)) ∧
      Thinned Semicolons.isSemicolon (code (scan source)) (code (scan out)) := by
  obtain ⟨tokens, happly, rfl⟩ := format_eq_ok_iff.1 h
  obtain ⟨hrefused, rfl, -⟩ := applyRules_eq_ok_iff.1 happly
  have hcatalog := mem_catalog_of_select hrules
  have hread : ∀ semis, (∀ r ∈ rules, r.name = "semicolons" → semis = true) →
      Thinned (fun t => semis && Semicolons.isSemicolon t) (code (scan source))
        (code (scan (Token.source ((step style rules)^[maxPasses - 1] (scan source))))) := by
    intro semis hsemis
    have hkept := kept_iterate semis hcatalog hsemis (legible_scan source) hrefused (maxPasses - 1)
    rw [scan_source, code_scanFrom_chars hkept.legible]
    exact hkept.thinned
  constructor
  · intro hnone
    have hthin := hread false fun r hr hname =>
      absurd (List.mem_map.2 ⟨r, hr, hname⟩) hnone
    exact hthin.eq_of_none fun t => rfl
  · simpa using hread true fun _ _ _ => rfl

/-- A block whose brace moves up, with a semicolon that goes and a comment that
stays. -/
theorem code_scan_format_block :
    format { experimental := true } (Rule.defaults { experimental := true })
        "if( a )\n\x7bb=1;\n\x7d //c" = .ok "if(a) \x7bb = 1\n\x7d //c\n" ∧
      Thinned Semicolons.isSemicolon (code (scan "if( a )\n\x7bb=1;\n\x7d //c"))
        (code (scan "if(a) \x7bb = 1\n\x7d //c\n")) := by
  have h : format { experimental := true } (Rule.defaults { experimental := true })
      "if( a )\n\x7bb=1;\n\x7d //c" = .ok "if(a) \x7bb = 1\n\x7d //c\n" := by decide +kernel
  exact ⟨h, (code_scan_format (select_none_nil _) h).2⟩

end Formatting
end Restyle
