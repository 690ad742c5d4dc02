import Restyle.Proofs.Formatting.Delay
import Restyle.Proofs.Formatting.Idempotence
import Restyle.Proofs.Formatting.NormalForm

/-!
# Statements stay apart

A semicolon that is dropped stands at the end of its line, so that the linebreak takes its place and
two statements stay apart.  In one pass this is plain.  Over several passes it is not: once the
semicolon is gone, the rule on braces sees another token before the next brace, and where this can
be the end of a head, the linebreak goes as well.  A block that follows on a statement becomes the
block of the statement.

This file says that nothing else goes wrong.  What is followed through the passes is one spot of an
outline: two tokens, and the semicolons that are left between them.

* `Mark.Spot`: the two tokens, and what parts them.  As long as semicolons are lost, a line ends
  between the two, unless a brace is drawn up to the line of its head.
* `Mark.Spot.braces` and `Mark.Spot.drop`: each of the two rules keeps this; `Mark.Spot.iterate`: so
  do any number of passes.
* `parted_of_format`: what stands between two statements in a formatted text.
  `format_block_after_semicolon`: a block that is drawn up.
-/

namespace Restyle

open Token

namespace Page

/-- The style puts the token `b` on the line of `a`: it is the brace of a block, and `a` can be the
end of its head. -/
def DrawsUp (allman : Bool) (a b : Token) : Prop :=
  allman = false ∧ a.endsBlockHead = true ∧ b.opens openBrace = true

namespace Mark

/-! ## Outlines in parts -/

theorem map_code_braceMarks (allman : Bool) (ms : List Mark) :
    (braceMarks allman ms).map Mark.code = ms.map Mark.code := by
  induction ms with
  | nil => cases allman <;> rfl
  | cons m ms ih =>
    obtain ⟨ends, hcons, -⟩ := exists_braceMarks_cons allman m ms
    rw [hcons, List.map_cons, ih, List.map_cons]

/-- The rule on braces takes back the end of a line only where it draws a brace up. -/
theorem exists_braceMarks_cons_of_ends (allman : Bool) (m : Mark) (ms : List Mark) :
    ∃ ends, braceMarks allman (m :: ms) = ⟨m.code, ends⟩ :: braceMarks allman ms ∧
      (m.ends = true → ends = true ∨
        (allman = false ∧ m.code.endsBlockHead = true ∧ nextIs opens ms = true)) := by
  cases allman with
  | true => exact ⟨_, rfl, fun h => Or.inl (by simp [h])⟩
  | false =>
    refine ⟨_, rfl, fun h => ?_⟩
    cases hup : m.code.endsBlockHead && nextIs opens ms with
    | false => exact Or.inl (by simp [h])
    | true =>
      rw [Bool.and_eq_true] at hup
      exact Or.inr ⟨rfl, hup⟩

/-- The rule on braces works on the marks of the front one by one, and then on the rest. -/
theorem exists_braceMarks_append (allman : Bool) (pre rest : List Mark) :
    ∃ pre' : List Mark, braceMarks allman (pre ++ rest) = pre' ++ braceMarks allman rest ∧
      pre'.map Mark.code = pre.map Mark.code := by
  induction pre with
  | nil => exact ⟨[], rfl, rfl⟩
  | cons m pre ih =>
    obtain ⟨pre', hpre, hcodes⟩ := ih
    obtain ⟨ends, hcons, -⟩ := exists_braceMarks_cons allman m (pre ++ rest)
    refine ⟨⟨m.code, ends⟩ :: pre', ?_, ?_⟩
    · rw [List.cons_append, hcons, hpre, List.cons_append]
    · rw [List.map_cons, List.map_cons, hcodes]

/-- The rule on braces leaves semicolons alone. -/
theorem braceMarks_semis_append {semis : List Mark} (h : ∀ m ∈ semis, m.semi = true)
    (allman : Bool) (rest : List Mark) :
    braceMarks allman (semis ++ rest) = semis ++ braceMarks allman rest := by
  induction semis with
  | nil => rfl
  | cons m semis ih =>
    have hhead := endsBlockHead_of_semi (h m List.mem_cons_self)
    rw [List.cons_append, braceMarks_cons_of_not_head hhead,
      ih fun n hn => h n (List.mem_cons_of_mem _ hn), List.cons_append]

/-- What is lost of an outline is semicolons. -/
theorem thinned_dropMarks (ms : List Mark) :
    Thinned Semicolons.isSemicolon (ms.map Mark.code) ((dropMarks ms).map Mark.code) := by
  induction ms with
  | nil => exact .nil
  | cons m ms ih =>
    cases hdrops : m.drops with
    | true =>
      rw [dropMarks_cons_of_drops hdrops, List.map_cons]
      rw [drops_eq, Bool.and_eq_true] at hdrops
      exact .drop hdrops.1 ih
    | false =>
      rw [dropMarks_cons hdrops, List.map_cons, List.map_cons]
      exact .keep ih

/-- A token that stays parts an outline in two for the rule on semicolons. -/
theorem dropMarks_append_cons {m : Mark} (h : m.drops = false) (pre rest : List Mark) :
    dropMarks (pre ++ m :: rest) = dropMarks pre ++ dropMarks (m :: rest) := by
  induction pre with
  | nil => rfl
  | cons n pre ih =>
    have hnext : nextIs drops (pre ++ m :: rest) = nextIs drops pre := by
      cases pre with
      | nil => exact h
      | cons _ _ => rfl
    rw [List.cons_append]
    cases hdrops : n.drops with
    | true => rw [dropMarks_cons_of_drops hdrops, dropMarks_cons_of_drops hdrops, ih]
    | false => rw [dropMarks_cons hdrops, dropMarks_cons hdrops, hnext, ih, List.cons_append]

/-- Where a line ends after a semicolon, it still ends there when the semicolon is gone: after the
one before it, or after the token before all of them. -/
theorem ends_of_dropMarks {semis : List Mark} (h : ∀ m ∈ semis, m.semi = true)
    (hends : ∃ m ∈ semis, m.ends = true) :
    nextIs drops semis = true ∨ ∃ m ∈ dropMarks semis, m.ends = true := by
  induction semis with
  | nil => simp at hends
  | cons m semis ih =>
    rw [nextIs_cons]
    cases hdrops : m.drops with
    | true => exact Or.inl rfl
    | false =>
      right
      have hm := ends_of_semi (h m List.mem_cons_self) hdrops
      obtain ⟨n, hn, hnends⟩ := hends
      rcases List.mem_cons.1 hn with rfl | hn
      · exact absurd hnends (by simp [hm])
      · rw [dropMarks_cons hdrops]
        rcases ih (fun n hn => h n (List.mem_cons_of_mem _ hn)) ⟨n, hn, hnends⟩ with hnext | hrest
        · exact ⟨_, List.mem_cons_self, by simp [hnext]⟩
        · obtain ⟨k, hk, hkends⟩ := hrest
          exact ⟨k, List.mem_cons_of_mem _ hk, hkends⟩

/-- Where no line ends, no semicolon is lost. -/
theorem dropMarks_eq_self_of_ends {semis : List Mark} (h : ∀ m ∈ semis, m.ends = false) :
    dropMarks semis = semis := by
  refine dropMarks_eq_self ?_
  induction semis with
  | nil => rfl
  | cons m semis ih =>
    have hdrops : m.drops = false := by rw [drops_eq, h m List.mem_cons_self, Bool.and_false]
    rw [dropMarks_cons hdrops, List.length_cons, List.length_cons,
      ih fun n hn => h n (List.mem_cons_of_mem _ hn)]

/-! ## One spot -/

/-- The tokens `a` and `b` in an outline, with nothing but semicolons between them.  Of the tokens
`before` and `after` them and of the semicolons `run` between them, nothing but semicolons is lost.
If semicolons of the run are lost, a line ends between `a` and `b`, or `b` is a brace that is drawn
up to `a`. -/
inductive Spot (allman : Bool) (before run after : List Token) (a b : Token) : List Mark → Prop
  /-- The parts of the outline. -/
  | intro {pre semis post : List Mark} {ends ends' : Bool}
      (hbefore : Thinned Semicolons.isSemicolon before (pre.map Mark.code))
      (hrun : Thinned Semicolons.isSemicolon run (semis.map Mark.code))
      (hafter : Thinned Semicolons.isSemicolon after (post.map Mark.code))
      (hparted : semis.map Mark.code = run ∨ (ends = true ∨ ∃ m ∈ semis, m.ends = true) ∨
        (semis = [] ∧ DrawsUp allman a b)) :
      Spot allman before run after a b (pre ++ ⟨a, ends⟩ :: (semis ++ ⟨b, ends'⟩ :: post))

section Spot

variable {allman : Bool} {before run after : List Token} {a b : Token} {ms : List Mark}

theorem semi_of_thinned {semis : List Mark} (hrun : ∀ t ∈ run, Semicolons.isSemicolon t = true)
    (h : Thinned Semicolons.isSemicolon run (semis.map Mark.code)) : ∀ m ∈ semis, m.semi = true :=
  fun _ hm => hrun _ (h.subset (List.mem_map_of_mem hm))

/-- The rule on braces on the spot itself: the end of the line after the first token is lost only if
the second one is drawn up. -/
theorem exists_braceMarks_spot {semis : List Mark} (hsemis : ∀ m ∈ semis, m.semi = true)
    (allman ends ends' : Bool) (a b : Token) (post : List Mark) :
    ∃ endsa endsb, braceMarks allman (⟨a, ends⟩ :: (semis ++ ⟨b, ends'⟩ :: post)) =
        ⟨a, endsa⟩ :: (semis ++ ⟨b, endsb⟩ :: braceMarks allman post) ∧
      (ends = true → endsa = true ∨ (semis = [] ∧ DrawsUp allman a b)) := by
  obtain ⟨endsa, ha, hends⟩ :=
    exists_braceMarks_cons_of_ends allman ⟨a, ends⟩ (semis ++ ⟨b, ends'⟩ :: post)
  obtain ⟨endsb, hb, -⟩ := exists_braceMarks_cons allman ⟨b, ends'⟩ post
  refine ⟨endsa, endsb, by rw [ha, braceMarks_semis_append hsemis, hb], fun h => ?_⟩
  rcases hends h with hkept | ⟨hjoin, hhead, hopens⟩
  · exact Or.inl hkept
  · cases semis with
    | nil => exact Or.inr ⟨rfl, hjoin, hhead, hopens⟩
    | cons m semis =>
      have hm := opens_of_semi (hsemis m List.mem_cons_self)
      exact absurd hopens (by simp [hm])

/-- **The rule on braces keeps two tokens apart**, but for a brace that it draws up. -/
theorem Spot.braces (hall : ∀ t ∈ run, Semicolons.isSemicolon t = true)
    (h : Spot allman before run after a b ms) :
    Spot allman before run after a b (braceMarks allman ms) := by
  cases h with
  | @intro pre semis post ends ends' hbefore hrun hafter hparted =>
    obtain ⟨pre', hpre, hcodes⟩ :=
      exists_braceMarks_append allman pre (⟨a, ends⟩ :: (semis ++ ⟨b, ends'⟩ :: post))
    obtain ⟨endsa, endsb, hspot, hends⟩ :=
      exists_braceMarks_spot (semi_of_thinned hall hrun) allman ends ends' a b post
    rw [hpre, hspot]
    refine .intro (hcodes ▸ hbefore) hrun (map_code_braceMarks allman post ▸ hafter) ?_
    rcases hparted with hkept | (hended | hsemi) | hup
    · exact Or.inl hkept
    · rcases hends hended with hended | hup
      · exact Or.inr (Or.inl (Or.inl hended))
      · exact Or.inr (Or.inr hup)
    · exact Or.inr (Or.inl (Or.inr hsemi))
    · exact Or.inr (Or.inr hup)

/-- **The rule on semicolons keeps two tokens apart.** -/
theorem Spot.drop (hall : ∀ t ∈ run, Semicolons.isSemicolon t = true)
    (ha : Semicolons.isSemicolon a = false) (hb : Semicolons.isSemicolon b = false)
    (h : Spot allman before run after a b ms) :
    Spot allman before run after a b (dropMarks ms) := by
  cases h with
  | @intro pre semis post ends ends' hbefore hrun hafter hparted =>
    have hsemis := semi_of_thinned hall hrun
    have hstaysa : drops ⟨a, ends⟩ = false := drops_of_not_semi ha
    have hstaysb : drops ⟨b, ends'⟩ = false := drops_of_not_semi hb
    have hnext : nextIs drops (semis ++ ⟨b, ends'⟩ :: post) = nextIs drops semis := by
      cases semis with
      | nil => exact hstaysb
      | cons _ _ => rfl
    rw [dropMarks_append_cons hstaysa, dropMarks_cons hstaysa, dropMarks_append_cons hstaysb,
      dropMarks_cons hstaysb, hnext]
    refine .intro (hbefore.trans (thinned_dropMarks pre)) (hrun.trans (thinned_dropMarks semis))
      (hafter.trans (thinned_dropMarks post)) ?_
    -- a line that ends among the semicolons ends there or at the first token from now on
    have hline : (∃ m ∈ semis, m.ends = true) →
        (ends || nextIs drops semis) = true ∨ ∃ m ∈ dropMarks semis, m.ends = true := by
      intro hends
      rcases ends_of_dropMarks hsemis hends with hfirst | hlater
      · exact Or.inl (by simp [hfirst])
      · exact Or.inr hlater
    rcases hparted with hkept | (hends | hsemi) | ⟨rfl, hup⟩
    · by_cases hends : ∃ m ∈ semis, m.ends = true
      · exact Or.inr (Or.inl (hline hends))
      · rw [dropMarks_eq_self_of_ends (by simpa using hends)]
        exact Or.inl hkept
    · exact Or.inr (Or.inl (Or.inl (by simp [hends])))
    · exact Or.inr (Or.inl (hline hsemi))
    · exact Or.inr (Or.inr ⟨rfl, hup⟩)

/-- **Any number of passes keeps two tokens apart**, but for a brace that is drawn up. -/
theorem Spot.iterate {style : Style} (hall : ∀ t ∈ run, Semicolons.isSemicolon t = true)
    (ha : Semicolons.isSemicolon a = false) (hb : Semicolons.isSemicolon b = false)
    (h : Spot style.allman before run after a b ms) (n : Nat) :
    Spot style.allman before run after a b ((pass style)^[n] ms) := by
  induction n generalizing ms with
  | zero => exact h
  | succ n ih =>
    rw [Function.iterate_succ_apply]
    refine ih ?_
    unfold pass
    dsimp only
    split
    · exact (h.braces hall).drop hall ha hb
    · exact h.braces hall

end Spot

end Mark

/-! ## The spot on a page -/

variable {eol : String}

theorem code_weave (g : Gap) (cells : List Cell) :
    Token.code (weave eol g cells) = cells.map Cell.code := by
  rw [← code_read, read_weave]

theorem map_code_marks (cells : List Cell) :
    (marks cells).map Mark.code = cells.map Cell.code := by
  induction cells with
  | nil => rfl
  | cons c cells ih => rw [marks_cons, List.map_cons, ih, List.map_cons]

/-- Two code tokens of a list with semicolons between them are a spot of its outline. -/
theorem spot_of_code {allman : Bool} {ts before run after : List Token} {a b : Token}
    (h : Token.code ts = before ++ a :: (run ++ b :: after)) :
    Mark.Spot allman before run after a b (read ts).outline := by
  rw [← code_read, ← map_code_marks, ← outline] at h
  obtain ⟨pre, fromA, houtline, rfl, hfromA⟩ := List.map_eq_append_iff.1 h
  obtain ⟨ma, afterA, rfl, rfl, hafterA⟩ := List.map_eq_cons_iff.1 hfromA
  obtain ⟨semis, fromB, rfl, rfl, hfromB⟩ := List.map_eq_append_iff.1 hafterA
  obtain ⟨mb, post, rfl, rfl, rfl⟩ := List.map_eq_cons_iff.1 hfromB
  rw [houtline]
  exact .intro (.refl _ _) (.refl _ _) (.refl _ _) (Or.inl rfl)

theorem weave_append_cons (g : Gap) (cs : List Cell) (c : Cell) (ds : List Cell) :
    weave eol g (cs ++ c :: ds) = weave eol g cs ++ c.code :: weave eol c.gap ds := by
  induction cs generalizing g with
  | nil => rfl
  | cons d cs ih => rw [List.cons_append, weave_cons, ih, weave_cons, List.append_assoc,
      List.cons_append]

theorem any_isLinebreak_weave (g : Gap) (cells : List Cell) :
    (weave eol g cells).any isLinebreak = (g.breaks || cells.any (·.gap.breaks)) := by
  induction cells generalizing g with
  | nil => rw [weave_nil, Gap.any_isLinebreak_tokens, List.any_nil, Bool.or_false]
  | cons c cells ih =>
    rw [weave_cons, List.any_append, Gap.any_isLinebreak_tokens, List.any_cons, ih,
      isLinebreak_of_isCode c.isCode, Bool.false_or, List.any_cons]

/-- The mark of a cell that is not the last one. -/
def innerMark (c : Cell) : Mark := ⟨c.code, c.gap.breaks⟩

theorem map_code_innerMark (cells : List Cell) :
    (cells.map innerMark).map Mark.code = cells.map Cell.code := by
  rw [List.map_map]
  rfl

/-- The cells that a part of an outline comes from. -/
theorem exists_of_marks_eq {cells : List Cell} {pre rest : List Mark} {m : Mark}
    (h : marks cells = pre ++ m :: rest) :
    ∃ cs c ds, cells = cs ++ c :: ds ∧ pre = cs.map innerMark ∧ m = ⟨c.code, endsLine c ds⟩ ∧
      rest = marks ds := by
  induction pre generalizing cells with
  | nil =>
    cases cells with
    | nil => exact absurd h (by simp)
    | cons c cells =>
      obtain ⟨hm, hrest⟩ := List.cons.inj h
      exact ⟨[], c, cells, rfl, rfl, hm.symm, hrest.symm⟩
  | cons n pre ih =>
    cases cells with
    | nil => exact absurd h (by simp)
    | cons d cells =>
      obtain ⟨hn, htail⟩ := List.cons.inj h
      obtain ⟨cs, c, ds, rfl, rfl, hm, hrest⟩ := ih htail
      -- more cells follow, so the text does not end here
      have hends : endsLine d (cs ++ c :: ds) = d.gap.breaks := by simp [endsLine]
      exact ⟨d :: cs, c, ds, rfl, by rw [List.map_cons, innerMark, ← hn, hends], hm, hrest⟩

/-- **A spot of an outline on the page itself**: what the ends of lines say is that there are
linebreaks. -/
theorem Mark.Spot.exists_tokens {allman : Bool} {before run after : List Token} {a b : Token}
    {p : Page} (h : Mark.Spot allman before run after a b p.outline) (eol : String) :
    ∃ front between back, p.tokens eol = front ++ a :: (between ++ b :: back) ∧
      Thinned Semicolons.isSemicolon before (Token.code front) ∧
      Thinned Semicolons.isSemicolon run (Token.code between) ∧
      Thinned Semicolons.isSemicolon after (Token.code back) ∧
      (Token.code between = run ∨ (∃ t ∈ between, t.isLinebreak = true) ∨
        (Token.code between = [] ∧ DrawsUp allman a b)) := by
  generalize houtline : p.outline = ms at h
  cases h with
  | @intro pre semis post ends ends' hbefore hrun hafter hparted =>
    obtain ⟨cs, c, rest, hcells, rfl, hc, hrest⟩ := exists_of_marks_eq houtline
    obtain ⟨ss, d, es, rfl, rfl, hd, rfl⟩ := exists_of_marks_eq hrest.symm
    obtain ⟨rfl, rfl⟩ := Mark.mk.inj hc
    obtain ⟨rfl, -⟩ := Mark.mk.inj hd
    rw [map_code_innerMark, ← @code_weave eol] at hbefore hrun
    rw [map_code_marks, ← @code_weave eol d.gap] at hafter
    refine ⟨_, _, _, ?_, hbefore, hrun, hafter, ?_⟩
    · rw [tokens, hcells, weave_append_cons, weave_append_cons]
    have hbreak : (c.gap.breaks = true ∨ ∃ m ∈ ss.map innerMark, m.ends = true) →
        ∃ t ∈ weave eol c.gap ss, t.isLinebreak = true := by
      intro hends
      rw [← List.any_eq_true, any_isLinebreak_weave, Bool.or_eq_true, List.any_eq_true]
      simpa [innerMark] using hends
    rw [map_code_innerMark, ← @code_weave eol c.gap] at hparted
    rcases hparted with hkept | hends | ⟨hnil, hup⟩
    · exact Or.inl hkept
    · refine Or.inr (Or.inl (hbreak ?_))
      simpa [endsLine] using hends
    · rw [List.map_eq_nil_iff] at hnil
      exact Or.inr (Or.inr ⟨by rw [code_weave, hnil, List.map_nil], hup⟩)

/-- A brace that is drawn up has one space before it. -/
theorem AtRest.eq_oneSpace {style : Style} {p : Page} {before blanks after : List Token}
    {a b : Token} (hp : p.AtRest style) (hup : DrawsUp style.allman a b)
    (h : p.tokens eol = before ++ a :: (blanks ++ b :: after))
    (hblanks : ∀ t ∈ blanks, t.isLayout = true) : blanks = [oneSpace] := by
  obtain ⟨hjoin, hhead, hopens⟩ := hup
  have hkind := kind_of_opens hopens
  have ha := isCode_of_endsBlockHead hhead
  have hb : b.isCode = true := isCode_of_kind (by simp [hkind]) (by simp [hkind])
  have hline := hp.not_breaks_of_join hjoin h hhead hblanks hopens
  obtain ⟨g, c, cells, hgap, rfl, rfl, -⟩ := exists_gap_between h ha hb hblanks
  have hbreaks : g.breaks = false := by
    rw [← Gap.any_isLinebreak_tokens eol, List.any_eq_false]
    simpa using hline
  have hwants : wantsSpace (some a) (some c.code) = true := by
    simp [wantsSpace, Inserts.apart, spaceBeforeBrace, Spacing.thereIs, hopens, hhead]
  have hrefuses : refusesSpace (some a) (some c.code) = false := by
    rw [← Bool.not_eq_true, refusesSpace_iff ha hb]
    rintro (hcomma | ⟨hbracket, -⟩ | ⟨hbracket, -⟩)
    · exact absurd (kind_of_isDelimiter hcomma) (by simp [hkind])
    · exact absurd hhead (by simp [endsBlockHead, kind_of_isOpeningBracket hbracket])
    · exact absurd (kind_of_isClosingBracket hbracket) (by simp [hkind])
  have hsome := hgap.each hp.spaced rfl rfl hbreaks
  rw [next_cons, hwants, hrefuses] at hsome
  have hwidth := (hgap.each hp.lined).inner rfl rfl hbreaks
  obtain ⟨s, rfl⟩ := Gap.exists_of_not_breaks hbreaks
  rcases hwidth with rfl | rfl
  · exact absurd hsome (by simp)
  · rfl

end Page

namespace Formatting

variable {style : Style} {source : String}

/-- The outline of what the default rules come to rest on. -/
theorem outline_of_applyRules {p : Page}
    (h : applyRules style (Rule.defaults style) (scan source) =
      .ok (p.tokens style.linebreak.text)) :
    p.outline = (Page.Mark.pass style)^[maxPasses - 1] (Page.read (scan source)).outline := by
  obtain ⟨hrefused, hts, -⟩ := applyRules_eq_ok_iff.1 h
  rw [← outline_iterate_pass hrefused]
  rw [show maxPasses - 1 = 8 + 1 from rfl, iterate_step_scan] at hts
  have hread := congrArg Page.read hts
  rw [Page.read_tokens, Page.read_tokens] at hread
  rw [← hread]
  rfl

/-- What stands between the tokens `a` and `b` of a formatted text, where the semicolons `run` stood
in the source. -/
structure Parted (style : Style) (a b : Token) (run between : List Token) : Prop where
  /-- Nothing but semicolons is left between them, and not more than there were. -/
  thinned : Thinned Semicolons.isSemicolon run (code between)
  /-- If all semicolons are lost, a linebreak parts the two, unless a brace is drawn up. -/
  lost : run ≠ [] → code between = [] →
    ((∃ t ∈ between, t.isLinebreak = true) ↔ ¬ Page.DrawsUp style.allman a b)
  /-- If some are lost and others are left, there is a linebreak as well. -/
  shortened : code between ≠ [] → code between ≠ run → ∃ t ∈ between, t.isLinebreak = true
  /-- A brace that is drawn up is one space away. -/
  joined : code between = [] → Page.DrawsUp style.allman a b → between = [oneSpace]

/-- **What parts two statements in a formatted text.**  For every text and every style: where two
code tokens have a run of semicolons between them and the text is formatted with the default rules,
the two are found in the formatted text, at the same place but for semicolons.  If the run is lost,
they are on different lines exactly if the second is not a brace that is drawn up to the first. -/
theorem parted_of_format {out : String} {before run after : List Token} {a b : Token}
    (h : format style (Rule.defaults style) source = .ok out)
    (hcode : code (scan source) = before ++ a :: (run ++ b :: after))
    (hall : ∀ t ∈ run, Semicolons.isSemicolon t = true) (ha : Semicolons.isSemicolon a = false)
    (hb : Semicolons.isSemicolon b = false) :
    ∃ front between back, scan out = front ++ a :: (between ++ b :: back) ∧
      Thinned Semicolons.isSemicolon before (code front) ∧
      Thinned Semicolons.isSemicolon after (code back) ∧ Parted style a b run between := by
  obtain ⟨ts, happly, rfl⟩ := format_eq_ok_iff.1 h
  rw [scan_source_of_applyRules happly]
  obtain ⟨p, hp, rfl⟩ := exists_atRest_of_applyRules happly
  have hspot : Page.Mark.Spot style.allman before run after a b p.outline := by
    rw [outline_of_applyRules happly]
    exact .iterate hall ha hb (Page.spot_of_code hcode) _
  obtain ⟨front, between, back, htokens, hbefore, hrun, hafter, hparted⟩ :=
    hspot.exists_tokens style.linebreak.text
  -- between the two are blanks only, if no semicolon is left
  have hblanks : code between = [] → ∀ t ∈ between, t.isLayout = true := by
    intro hnil t ht
    simpa [isCode] using List.filter_eq_nil_iff.1 hnil t ht
  refine ⟨front, between, back, htokens, hbefore, hafter, hrun, ?lost, ?shortened, ?joined⟩
  case lost =>
    intro hne hnil
    constructor
    · rintro ⟨t, ht, hbreak⟩ ⟨hjoin, hhead, hopens⟩
      have hline := hp.not_breaks_of_join hjoin htokens hhead (hblanks hnil) hopens t ht
      exact absurd hbreak (by simp [hline])
    · intro hup
      rcases hparted with hkept | hbreak | ⟨-, hup'⟩
      · exact absurd (hkept.symm.trans hnil) hne
      · exact hbreak
      · exact absurd hup' hup
  case shortened =>
    intro hleft hlost
    rcases hparted with hkept | hbreak | ⟨hnil, -⟩
    · exact absurd hkept hlost
    · exact hbreak
    · exact absurd hnil hleft
  case joined => exact fun hnil hup => hp.eq_oneSpace hup htokens (hblanks hnil)

/-- Two statements on two lines, with two semicolons between them. -/
theorem parted_of_format_lines :
    format { experimental := true } (Rule.defaults { experimental := true }) "a;;\nb" =
        .ok "a\nb\n" ∧
      ∃ front between back,
        scan "a\nb\n" = front ++ ⟨.identifier, "a"⟩ :: (between ++ ⟨.identifier, "b"⟩ :: back) ∧
        Thinned Semicolons.isSemicolon [] (code front) ∧
        Thinned Semicolons.isSemicolon [] (code back) ∧
        Parted { experimental := true } ⟨.identifier, "a"⟩ ⟨.identifier, "b"⟩
          [⟨.delimiter, ";"⟩, ⟨.delimiter, ";"⟩] between := by
  have h : format { experimental := true } (Rule.defaults { experimental := true }) "a;;\nb" =
      .ok "a\nb\n" := by decide +kernel
  have hcode : code (scan "a;;\nb") = [] ++ ⟨.identifier, "a"⟩ ::
      ([⟨.delimiter, ";"⟩, ⟨.delimiter, ";"⟩] ++ ⟨.identifier, "b"⟩ :: []) := by decide +kernel
  exact ⟨h, parted_of_format h hcode (by decide) rfl rfl⟩

/-- **A block that follows on a statement becomes the block of the statement**: the text has no
error, its only semicolon is lost, and no linebreak is left between the two tokens beside it. -/
theorem format_block_after_semicolon :
    (∀ t ∈ scan "a;\n\x7b\n\x7d\n", t.isError = false) ∧
      code (scan "a;\n\x7b\n\x7d\n") = [⟨.identifier, "a"⟩, ⟨.delimiter, ";"⟩,
        ⟨.startOfScope, openBrace⟩, ⟨.endOfScope, closeBrace⟩] ∧
      format { experimental := true } (Rule.defaults { experimental := true })
        "a;\n\x7b\n\x7d\n" = .ok "a \x7b\n\x7d\n" ∧
      scan "a \x7b\n\x7d\n" = [⟨.identifier, "a"⟩, oneSpace, ⟨.startOfScope, openBrace⟩,
        ⟨.linebreak, "\n"⟩, ⟨.endOfScope, closeBrace⟩, ⟨.linebreak, "\n"⟩] := by
  refine ⟨?_, ?_, ?_, ?_⟩ <;> decide +kernel

end Formatting
end Restyle
