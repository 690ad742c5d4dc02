import Restyle.Proofs.Formatting.Idempotence
import Restyle.Proofs.Formatting.NormalForm
import Restyle.Proofs.Inference.Votes

/-!
# A formatted text tells its style

From a text that is formatted with the default rules, the style is read back as far as the text
shows it: the indent if a line is indented, the line terminator if there is one, and that braces
stand on the lines of their heads.

What carries the indent is the levels of the lines.  A line is one level deeper than the line
that opened the innermost scope around it, and the scopes that are open were opened by lines that
are not deeper than the current one, an outer scope never by a deeper line than an inner one
(`Nested`).  So from one line to the next the level rises by at most one, and every rise is a
vote for the indent of the style.

* `Nested.levelOf_le`: the level rises by at most one.
* `filter_votes_tokens`: the votes on indentation are the rises of the levels.
* `exists_level_of_hasIndentedLine`: a line that is indented has a level.
* `style_of_format`: the style is read back.
-/

namespace Restyle

open Token

/-! ## The text of a level -/

namespace Indent

/-- What the blanks of a level are. -/
def blank : Indent → Char
  | spaces _ => ' '
  | tab => '\t'

/-- How many blanks make a level. -/
def size : Indent → Nat
  | spaces width => width
  | tab => 1

theorem levels_eq (i : Indent) (level : Nat) :
    i.levels level = String.ofList (List.replicate (level * i.size) i.blank) := by
  have hunit : i.unit = String.ofList (List.replicate i.size i.blank) := by cases i <;> rfl
  rw [← String.toList_inj]
  simp only [levels, String.toList_join, String.toList_ofList, hunit, List.flatMap_replicate]
  simp

theorem size_pos {i : Indent} (h : Style.indentComplaint? i = none) : 0 < i.size := by
  cases i with
  | tab => exact Nat.one_pos
  | spaces width =>
    rw [Nat.pos_iff_ne_zero]
    rintro rfl
    simp [Style.indentComplaint?] at h

theorem size_le {i : Indent} (h : Style.indentComplaint? i = none) : i.size ≤ Style.maxIndent := by
  cases i with
  | tab => decide
  | spaces width =>
    by_contra hwide
    simp only [size, Nat.not_le] at hwide
    simp [Style.indentComplaint?, hwide, show width ≠ 0 by omega] at h

end Indent

theorem utf8ByteSize_replicate_space (n : Nat) :
    (String.ofList (List.replicate n ' ')).utf8ByteSize = n := by
  induction n with
  | zero => rfl
  | succ n ih =>
    rw [List.replicate_succ, ← List.singleton_append, String.ofList_append,
      String.utf8ByteSize_append, ih, Nat.add_comm]
    rfl

/-! ## Levels -/

namespace Indentation

/-- The scopes that are open on a line at some level: no scope was opened by a line deeper than
the current one, and no outer scope by a deeper line than an inner one. -/
def Nested (level : Nat) (scopes : List Nat) : Prop :=
  (level :: scopes).Pairwise fun inner outer => outer ≤ inner

namespace Nested

variable {level : Nat} {scopes : List Nat}

/-- **The level rises by at most one** from a line to the next. -/
theorem levelOf_le (h : Nested level scopes) (t : Token) : levelOf scopes t ≤ level + 1 := by
  cases scopes with
  | nil => exact Nat.zero_le _
  | cons innermost rest =>
    have hinnermost := List.rel_of_pairwise_cons h (List.mem_cons_self (a := innermost))
    unfold levelOf
    dsimp only
    split <;> omega

/-- The scopes are nested on the next line, too. -/
theorem next (h : Nested level scopes) (t : Token) : Nested (levelOf scopes t) scopes := by
  cases scopes with
  | nil => exact List.pairwise_singleton _ _
  | cons innermost rest =>
    have hscopes := h.of_cons
    refine List.pairwise_cons.2 ⟨fun s hs => ?_, hscopes⟩
    have hs' : s ≤ innermost := by
      rcases List.mem_cons.1 hs with rfl | hs
      · exact Nat.le_refl _
      · exact List.rel_of_pairwise_cons hscopes hs
    unfold levelOf
    dsimp only
    split <;> omega

/-- They are nested after a token of the line. -/
theorem scopesAfter (h : Nested level scopes) (t : Token) :
    Nested level (scopesAfter level scopes [t]) := by
  unfold Indentation.scopesAfter
  split
  · exact List.pairwise_cons.2 ⟨by simpa [Indentation.scopesAfter] using
      fun s hs => List.rel_of_pairwise_cons h hs, h⟩
  · exact h.sublist ((List.tail_sublist scopes).cons_cons level)
  · exact h

end Nested
end Indentation

namespace Page

open Indentation

/-- The levels of the lines with code on them that start after the code token `t`, whose line is
at `level`. -/
def levelsFrom (level : Nat) (scopes : List Nat) (t : Option Token) (g : Gap) :
    List Cell → List Nat
  | [] => []
  | c :: cells =>
    let level' := if startsLine t g then levelOf scopes c.code else level
    let rest := levelsFrom level' (scopesAfter level' scopes [c.code]) (some c.code) c.gap cells
    if startsLine t g then level' :: rest else rest

/-- The levels of the lines of a page that have code on them. -/
def levels (p : Page) : List Nat := levelsFrom 0 [] none p.lead p.cells

theorem margin_zero (i : Indent) : margin i 0 = none := rfl

theorem margin_pos {i : Indent} {level : Nat} (hi : 0 < i.size) (h : 0 < level) :
    margin i level = some (i.levels level) := by
  have hne : i.levels level ≠ "" := by
    have hpos := Nat.mul_pos h hi
    rw [Indent.levels_eq, ← String.toList_inj.ne]
    simp [Nat.pos_iff_ne_zero.1 hpos]
  rw [margin, if_neg (by simpa using hne)]

end Page

/-! ## Reading lines -/

namespace Inference

open Indentation Page

variable {i : Indent} {eol : String} {r : Reader} {c : Token} {ts : List Token} {level l : Nat}

/-- The width that a reader takes a line at some level to have.  Tabs have none. -/
def columns : Indent → Nat → Nat
  | .spaces width, level => level * width
  | .tab, _ => 0

/-- The vote for an indent. -/
def voteFor : Indent → Vote
  | .spaces width => .step width
  | .tab => .tabbed

/-- The votes on indentation of a line at a level that follows on a line at another: every rise
is a vote, and with tabs every line that is indented. -/
def lineVotes (i : Indent) (level l : Nat) : List Vote :=
  match i with
  | .spaces width => if level < l then [.step width] else []
  | .tab => if 0 < l then [.tabbed] else []

/-- The votes on indentation of lines at some levels. -/
def levelVotes (i : Indent) : Nat → List Nat → List Vote
  | _, [] => []
  | level, l :: rest => lineVotes i level l ++ levelVotes i l rest

theorem filter_braceVotes (r : Reader) (t : Token) :
    (r.braceVotes t).filter Vote.tellsIndent = [] := by
  refine List.filter_eq_nil_iff.2 fun v hv => ?_
  rcases eq_of_mem_braceVotes hv with ⟨rfl, -⟩ | rfl <;> simp [Vote.tellsIndent]

theorem filter_indentVotes (r : Reader) (t : Token) (ts : List Token) :
    (r.indentVotes t ts).1.filter Vote.tellsIndent = (r.indentVotes t ts).1 :=
  List.filter_eq_self.2 fun _ => tellsIndent_of_mem_indentVotes

theorem filter_votesFrom_cons {t : Token} (ht : t.isLinebreak = false) :
    (votesFrom r (t :: ts)).filter Vote.tellsIndent = (r.indentVotes t ts).1 ++
      (votesFrom (r.advance t (r.indentVotes t ts).2) ts).filter Vote.tellsIndent := by
  rw [votesFrom_cons ht, List.filter_append, List.filter_append, filter_braceVotes,
    filter_indentVotes, List.append_nil]

theorem filter_votesFrom_linebreak :
    (votesFrom r (⟨.linebreak, eol⟩ :: ts)).filter Vote.tellsIndent =
      (votesFrom { r with atLineStart := true, broken := true } ts).filter Vote.tellsIndent := by
  have hnone : ((Linebreak.ofText? eol).toList.map Vote.linebreak).filter Vote.tellsIndent = [] := by
    refine List.filter_eq_nil_iff.2 fun v hv => ?_
    obtain ⟨l, -, rfl⟩ := List.mem_map.1 hv
    simp [Vote.tellsIndent]
  rw [votesFrom_linebreak rfl, List.filter_append, hnone, List.nil_append]

/-- A code token in the middle of a line says nothing. -/
theorem filter_votesFrom_inner (hr : r.atLineStart = false) (hc : c.isCode = true)
    (s : Option String) :
    (votesFrom r (Gap.space s ++ c :: ts)).filter Vote.tellsIndent =
      (votesFrom ⟨r.width, false, some c, false⟩ ts).filter Vote.tellsIndent := by
  have hcode : ∀ r : Reader, r.atLineStart = false →
      (votesFrom r (c :: ts)).filter Vote.tellsIndent =
        (votesFrom ⟨r.width, false, some c, false⟩ ts).filter Vote.tellsIndent := by
    intro r hr
    rw [filter_votesFrom_cons (isLinebreak_of_isCode hc)]
    simp [Reader.indentVotes, hr, Reader.advance, isSpace_of_isCode hc]
  cases s with
  | none => exact hcode r hr
  | some text =>
    rw [Gap.space_some, List.singleton_append, filter_votesFrom_cons rfl]
    simp only [Reader.indentVotes, hr, Reader.advance, isSpace_space, Bool.not_false, if_true,
      List.nil_append]
    exact hcode _ rfl

/-- A blank line says nothing. -/
theorem filter_votesFrom_blank (s : Option String) :
    (votesFrom r (Gap.space s ++ ⟨.linebreak, eol⟩ :: ts)).filter Vote.tellsIndent =
      (votesFrom { r with atLineStart := true, broken := true } ts).filter Vote.tellsIndent := by
  cases s with
  | none => exact filter_votesFrom_linebreak
  | some text =>
    have hnone : r.indentVotes ⟨.space, text⟩ (⟨.linebreak, eol⟩ :: ts) = ([], r.width) := by
      simp [Reader.indentVotes]
    rw [Gap.space_some, List.singleton_append, filter_votesFrom_cons rfl, hnone,
      List.nil_append, filter_votesFrom_linebreak]
    rfl

/-- The lines that end in a gap say nothing. -/
theorem filter_votesFrom_gap (a : Option String) (ended : List (Option String))
    (s : Option String) :
    (votesFrom r (Gap.tokens eol ⟨a :: ended, s⟩ ++ ts)).filter Vote.tellsIndent =
      (votesFrom { r with atLineStart := true, broken := true }
        (Gap.space s ++ ts)).filter Vote.tellsIndent := by
  induction ended generalizing a r with
  | nil => simp [filter_votesFrom_blank]
  | cons a' ended ih =>
    rw [Gap.tokens_cons, List.append_assoc, List.cons_append, filter_votesFrom_blank, ih]

/-- Neither does a gap with nothing behind it. -/
theorem filter_votesFrom_lastGap (r : Reader) (g : Gap) :
    (votesFrom r (g.tokens eol)).filter Vote.tellsIndent = [] := by
  have hspace : ∀ (r : Reader) (s : Option String),
      (votesFrom r (Gap.space s)).filter Vote.tellsIndent = [] := by
    intro r s
    cases s with
    | none => rfl
    | some text =>
      rw [Gap.space_some, filter_votesFrom_cons rfl]
      simp [Reader.indentVotes, votesFrom]
  obtain ⟨ended, s⟩ := g
  cases ended with
  | nil => exact hspace r s
  | cons a ended =>
    have hgap := @filter_votesFrom_gap eol r [] a ended s
    rwa [List.append_nil, List.append_nil, hspace] at hgap

/-- **A line votes for the indent if it is deeper than the one before it.** -/
theorem filter_votesFrom_line (hi : Style.indentComplaint? i = none) (hr : r.atLineStart = true)
    (hwidth : 0 < l → r.width = some (columns i level)) (hl : l ≤ level + 1)
    (hc : c.isCode = true) :
    (votesFrom r (Gap.space (margin i l) ++ c :: ts)).filter Vote.tellsIndent =
      lineVotes i level l ++
        (votesFrom ⟨some (columns i l), false, some c, false⟩ ts).filter Vote.tellsIndent := by
  have hbreak := isLinebreak_of_isCode hc
  rcases Nat.eq_zero_or_pos l with rfl | hpos
  · -- no line is less deep than this one
    have hstep : stepVotes r.width 0 = [] := by cases h : r.width <;> simp [stepVotes]
    have hvotes : lineVotes i level 0 = [] := by cases i <;> rfl
    have hcolumns : columns i 0 = 0 := by cases i <;> simp [columns]
    rw [margin_zero, Gap.space_none, List.nil_append, filter_votesFrom_cons hbreak, hvotes,
      hcolumns]
    simp [Reader.indentVotes, hr, isSpace_of_isCode hc, hstep, Reader.advance]
  · have hspace : r.indentVotes ⟨.space, i.levels l⟩ (c :: ts) =
        (lineVotes i level l, some (columns i l)) := by
      rw [Reader.indentVotes, hwidth hpos, Indent.levels_eq]
      cases i with
      | tab =>
        have hne : l ≠ 0 := Nat.pos_iff_ne_zero.1 hpos
        simp [hr, hbreak, Indent.size, Indent.blank, lineVotes, columns, hpos, hne]
      | spaces width =>
        have hsize : 0 < width := Indent.size_pos hi
        have hmax : width ≤ Style.maxIndent := Indent.size_le hi
        have hvotes : stepVotes (some (level * width)) (l * width) =
            lineVotes (.spaces width) level l := by
          unfold stepVotes lineVotes
          dsimp only
          by_cases hrise : level < l
          · obtain rfl : l = level + 1 := by omega
            have hstep : (level + 1) * width - level * width = width := by
              rw [Nat.succ_mul, Nat.add_sub_cancel_left]
            simp [hsize, hmax, hstep]
          · have hle : ¬level * width < l * width :=
              Nat.not_lt.2 (Nat.mul_le_mul_right width (Nat.not_lt.1 hrise))
            simp [hrise, hle]
        simp [hr, hbreak, Indent.size, Indent.blank, columns, utf8ByteSize_replicate_space,
          hvotes]
    rw [margin_pos (Indent.size_pos hi) hpos, Gap.space_some, List.singleton_append,
      filter_votesFrom_cons rfl, hspace]
    congr 1
    exact filter_votesFrom_inner rfl hc none

/-! ## Reading pages -/

variable {scopes : List Nat} {t : Option Token} {g : Gap} {cells : List Cell}

/-- **The votes on indentation are told by the levels of the lines**, from any place of a page
on whose lines are indented. -/
theorem filter_votesFrom_weave (hi : Style.indentComplaint? i = none)
    (hnested : Nested level scopes) (hr : r.atLineStart = t.isNone)
    (hwidth : t.isSome = true → r.width = some (columns i level)) (hstart : t = none → scopes = [])
    (hfixed : indentFrom i level scopes t g cells = ⟨g, cells⟩) :
    (votesFrom r (weave eol g cells)).filter Vote.tellsIndent =
      levelVotes i level (levelsFrom level scopes t g cells) := by
  induction cells generalizing level scopes t g r with
  | nil => exact filter_votesFrom_lastGap r g
  | cons c cells ih =>
    rw [indentFrom, Page.mk.injEq, List.cons.injEq] at hfixed
    obtain ⟨hlead, hcell, hcells⟩ := hfixed
    rw [levelsFrom]
    cases hstarts : startsLine t g with
    | false =>
      simp only [hstarts, Bool.false_eq_true, if_false] at hcell hcells ⊢
      rw [startsLine, Bool.or_eq_false_iff, Option.isNone_eq_false_iff] at hstarts
      obtain ⟨ht, hbreaks⟩ := hstarts
      obtain ⟨s, rfl⟩ := Gap.exists_of_not_breaks hbreaks
      rw [Option.isNone_eq_false_iff.2 ht] at hr
      rw [weave_cons, Gap.tokens_nil, filter_votesFrom_inner hr c.isCode]
      exact ih (hnested.scopesAfter _) rfl (fun _ => hwidth ht) (by simp)
        (congrArg₂ Page.mk (congrArg Cell.gap hcell) hcells)
    | true =>
      simp only [hstarts, if_true] at hlead hcell hcells ⊢
      have hmargin : g.last = margin i (levelOf scopes c.code) := congrArg Gap.last hlead.symm
      have hwidth' : 0 < levelOf scopes c.code → r.width = some (columns i level) := by
        intro hpos
        cases t with
        | some t => exact hwidth rfl
        | none =>
          rw [hstart rfl] at hpos
          exact absurd hpos (Nat.lt_irrefl 0)
      have hnext := @ih ⟨some (columns i (levelOf scopes c.code)), false, some c.code, false⟩ _ _
        (some c.code) c.gap ((hnested.next c.code).scopesAfter _) rfl (fun _ => rfl) (by simp)
        (congrArg₂ Page.mk (congrArg Cell.gap hcell) hcells)
      rw [levelVotes, ← hnext]
      obtain ⟨ended, last⟩ := g
      obtain rfl : last = margin i (levelOf scopes c.code) := hmargin
      rw [weave_cons]
      cases ended with
      | nil =>
        -- only the first line starts without a linebreak
        have ht : t.isNone = true := by simpa [startsLine, Gap.breaks] using hstarts
        rw [Gap.tokens_nil]
        exact filter_votesFrom_line hi (hr.trans ht) hwidth' (hnested.levelOf_le _) c.isCode
      | cons a ended =>
        rw [filter_votesFrom_gap]
        exact filter_votesFrom_line hi rfl hwidth' (hnested.levelOf_le _) c.isCode

/-- The votes on indentation of a page whose lines are indented. -/
theorem filter_votes_tokens (hi : Style.indentComplaint? i = none) {p : Page}
    (hp : p.indent i = p) :
    (votes (p.tokens eol)).filter Vote.tellsIndent = levelVotes i 0 p.levels :=
  filter_votesFrom_weave hi (List.pairwise_singleton _ _) rfl (by simp) (fun _ => rfl) hp

theorem eq_voteFor_of_mem_levelVotes {v : Vote} {ls : List Nat} (h : v ∈ levelVotes i level ls) :
    v = voteFor i := by
  induction ls generalizing level with
  | nil => simp [levelVotes] at h
  | cons l rest ih =>
    rw [levelVotes, List.mem_append] at h
    rcases h with h | h
    · unfold lineVotes at h
      cases i with
      | spaces width =>
        dsimp only at h
        split_ifs at h
        · exact List.mem_singleton.1 h
        · simp at h
      | tab =>
        dsimp only at h
        split_ifs at h
        · exact List.mem_singleton.1 h
        · simp at h
    · exact ih h

/-- A line that is deeper than the first one is preceded by a rise. -/
theorem voteFor_mem_levelVotes {ls : List Nat} (hl : l ∈ ls) (h : level < l) :
    voteFor i ∈ levelVotes i level ls := by
  induction ls generalizing level with
  | nil => simp at hl
  | cons l' rest ih =>
    rw [levelVotes, List.mem_append]
    by_cases hrise : level < l'
    · left
      cases i with
      | spaces width => simp [lineVotes, voteFor, hrise]
      | tab => simp [lineVotes, voteFor, Nat.zero_lt_of_lt hrise]
    · right
      have hne : l ≠ l' := by omega
      exact ih ((List.mem_cons.1 hl).resolve_left hne) (by omega)

end Inference

/-! ## Lines that are indented -/

namespace Token

/-- A line is indented: a space is the first token of a line that is not blank. -/
def HasIndentedLine (ts : List Token) : Prop :=
  ∃ before s t after, ts = before ++ s :: t :: after ∧ s.isSpace = true ∧
    t.isLinebreak = false ∧ ∀ b ∈ before.getLast?, b.isLinebreak = true

end Token

namespace Page

open Indentation

variable {i : Indent} {eol : String} {level : Nat} {scopes : List Nat} {t : Option Token}
  {g : Gap} {cells : List Cell}

/-- Where no line has a level, no line starts with a space. -/
theorem eachFrom_of_levels (hfixed : indentFrom i level scopes t g cells = ⟨g, cells⟩)
    (hzero : ∀ l ∈ levelsFrom level scopes t g cells, l = 0) :
    EachFrom (fun t g u => startsLine t g = true → u.isSome = true → g.last = none) t g cells := by
  induction cells generalizing level scopes t g with
  | nil => exact fun _ h => by simp at h
  | cons c cells ih =>
    rw [indentFrom, Page.mk.injEq, List.cons.injEq] at hfixed
    obtain ⟨hlead, hcell, hcells⟩ := hfixed
    rw [levelsFrom] at hzero
    have hrest := ih (congrArg₂ Page.mk (congrArg Cell.gap hcell) hcells)
    cases hstarts : startsLine t g with
    | false =>
      simp only [hstarts, Bool.false_eq_true, if_false] at hrest hzero
      exact ⟨fun h => absurd h (by simp [hstarts]), hrest hzero⟩
    | true =>
      simp only [hstarts, if_true, List.mem_cons, forall_eq_or_imp] at hlead hrest hzero
      refine ⟨fun _ _ => ?_, hrest hzero.2⟩
      rw [← hlead, hzero.1]
      rfl

/-- **A line that is indented has a level.** -/
theorem exists_level_of_hasIndentedLine {p : Page} (hp : p.indent i = p)
    (h : HasIndentedLine (p.tokens eol)) : ∃ l ∈ p.levels, 0 < l := by
  by_contra hnone
  have hzero : ∀ l ∈ p.levels, l = 0 := by
    intro l hl
    by_contra hl'
    exact hnone ⟨l, hl, Nat.pos_of_ne_zero hl'⟩
  have heach : p.Each fun t g u => startsLine t g = true → u.isSome = true → g.last = none :=
    eachFrom_of_levels hp hzero
  obtain ⟨before, s, t, after, hts, hs, ht, hbefore⟩ := h
  have hplace : p.tokens eol = before ++ ([s] ++ t :: after) := hts
  obtain ⟨g, cells, earlier, front, back, hgap, rfl, hg, hafter⟩ := exists_gap hplace
    (by simp [isLayout, hs])
  rcases Gap.exists_of_tokens_eq_space hg hs with ⟨lines, later, hended, rfl⟩ | ⟨hlast, rfl, rfl⟩
  · -- a linebreak would follow
    have htokens : g.tokens eol = Gap.tokens eol ⟨lines, none⟩ ++
        s :: ⟨.linebreak, eol⟩ :: Gap.tokens eol ⟨later, g.last⟩ := by
      have hspace : s = ⟨.space, s.text⟩ := by
        obtain ⟨kind, text⟩ := s
        simp only [isSpace, beq_iff_eq] at hs
        rw [hs]
      rw [Gap.tokens, hended]
      conv_rhs => rw [hspace]
      simp [Gap.tokens]
    rw [htokens] at hg
    obtain rfl := (List.cons.inj (List.append_cancel_left hg)).2
    obtain rfl := (List.cons.inj hafter).1
    simp at ht
  · cases cells with
    | nil => simp at hafter
    | cons c cells =>
      have hstarts : startsLine earlier.getLast? g = true := by
        cases hbreaks : g.breaks with
        | true => simp [startsLine, hbreaks]
        | false =>
          -- the gap starts where the space stands, so no code token is before it
          have hended : g.ended = [] := by simpa [Gap.breaks] using hbreaks
          rw [hended, Gap.tokens_nil, Gap.space_none, List.append_nil] at hbefore
          cases hcode : earlier.getLast? with
          | none => rfl
          | some b =>
            rw [hcode] at hgap hbefore
            exact absurd (hbefore b rfl) (by simp [isLinebreak_of_isCode hgap.isCode])
      rw [hgap.each heach hstarts rfl] at hlast
      simp at hlast

end Page

/-! ## The style that the votes are for -/

namespace Inference

variable {i : Indent} {eol : String} {p : Page}

/-- A page with a line that is indented votes for its indent. -/
theorem indent_votes_tokens (hi : Style.indentComplaint? i = none) (hp : p.indent i = p)
    (hline : HasIndentedLine (p.tokens eol)) : indent (votes (p.tokens eol)) = i := by
  have hmem : ∀ v : Vote, v.tellsIndent = true →
      (v ∈ votes (p.tokens eol) ↔ v ∈ levelVotes i 0 p.levels) := by
    intro v hv
    rw [← filter_votes_tokens hi hp, List.mem_filter, and_iff_left hv]
  have honly : ∀ v : Vote, v.tellsIndent = true → v ∈ votes (p.tokens eol) → v = voteFor i :=
    fun v hv hcast => eq_voteFor_of_mem_levelVotes ((hmem v hv).1 hcast)
  obtain ⟨l, hl, hpos⟩ := Page.exists_level_of_hasIndentedLine hp hline
  have hcast := @voteFor_mem_levelVotes i 0 l _ hl hpos
  cases i with
  | spaces width =>
    refine indent_eq_spaces (Indent.size_le hi) ((hmem _ rfl).2 hcast) (fun w hw => ?_)
      fun htab => ?_
    · exact Vote.step.inj (honly _ rfl hw)
    · exact absurd (honly _ rfl htab) (by simp [voteFor])
  | tab =>
    refine indent_eq_tab ((hmem _ rfl).2 hcast) fun w hw => ?_
    exact absurd (honly _ rfl hw) (by simp [voteFor])

/-- A page with a linebreak votes for its line terminator. -/
theorem linebreak_votes_tokens {l : Linebreak}
    (h : ∃ t ∈ p.tokens l.text, t.isLinebreak = true) :
    linebreak (votes (p.tokens l.text)) = l := by
  have htext : ∀ {t : Token}, t ∈ p.tokens l.text → t.isLinebreak = true →
      Linebreak.ofText? t.text = some l := by
    intro t ht hbreak
    rw [Page.eq_of_mem_tokens ht hbreak]
    cases l <;> decide
  obtain ⟨t, ht, hbreak⟩ := h
  refine linebreak_eq (linebreak_mem_votes.2 ⟨t, ht, hbreak, htext ht hbreak⟩) fun l' hl' => ?_
  obtain ⟨t', ht', hbreak', hl'⟩ := linebreak_mem_votes.1 hl'
  exact Option.some.inj (hl'.symm.trans (htext ht' hbreak'))

/-- Where braces stand on the lines of their heads, nothing votes against it. -/
theorem ownLine_notMem_votes {style : Style} (hp : p.AtRest style) (hallman : style.allman = false) :
    .ownLine ∉ votes (p.tokens eol) := by
  intro hvote
  obtain ⟨before, head, blanks, brace, after, hplace, hhead, hblanks, hopens, b, hb, hbreak⟩ :=
    exists_of_ownLine_mem_votes hvote
  have hjoined := hp.not_breaks_of_join hallman hplace hhead hblanks hopens b hb
  exact absurd hbreak (by simp [hjoined])

end Inference

namespace Formatting

variable {style : Style} {source out : String}

/-- The default rules come to rest on lines that are indented. -/
theorem indent_of_applyRules {p : Page}
    (h : applyRules style (Rule.defaults style) (scan source) =
      .ok (p.tokens style.linebreak.text)) : p.indent style.indent = p := by
  have hfixed := (applyRules_eq_ok_iff.1 h).2.2
  rw [step_tokens] at hfixed
  have hpass := congrArg Page.read hfixed
  rw [Page.read_tokens, Page.read_tokens] at hpass
  rw [← hpass]
  exact Page.indent_finish style _

/-- **A formatted text tells its style.**  For every text and every style that can be asked for:
from the text that the default rules make of it, the style is read back.  The indent is, if a
line is indented; the line terminator is, if there is one; and braces are not taken to stand on
lines of their own unless the style wants it. -/
theorem style_of_format (hvalid : style.complaint? = none)
    (h : format style (Rule.defaults style) source = .ok out) :
    (HasIndentedLine (scan out) → (Inference.style [scan out]).indent = style.indent) ∧
    ((∃ t ∈ scan out, t.isLinebreak = true) →
      (Inference.style [scan out]).linebreak = style.linebreak) ∧
    (style.allman = false → (Inference.style [scan out]).allman = false) := by
  obtain ⟨ts, hts, rfl⟩ := format_eq_ok_iff.1 h
  rw [scan_source_of_applyRules hts]
  obtain ⟨p, hp, rfl⟩ := exists_atRest_of_applyRules hts
  have hi : Style.indentComplaint? style.indent = none := by
    unfold Style.complaint? at hvalid
    split at hvalid
    · simp at hvalid
    · assumption
  have hballots : [p.tokens style.linebreak.text].flatMap Inference.votes =
      Inference.votes (p.tokens style.linebreak.text) := List.append_nil _
  unfold Inference.style
  rw [hballots]
  refine ⟨Inference.indent_votes_tokens hi (indent_of_applyRules hts),
    Inference.linebreak_votes_tokens, fun hallman => ?_⟩
  simp [List.count_eq_zero_of_not_mem (Inference.ownLine_notMem_votes hp hallman)]

/-- A block in lines that end with two characters and are indented by three. -/
theorem style_of_format_block :
    format { indent := .spaces 3, linebreak := .crlf }
        (Rule.defaults { indent := .spaces 3, linebreak := .crlf }) "f\x7b\n\na\n\x7d" =
      .ok "f \x7b\r\n   a\r\n\x7d\r\n" ∧
    (Inference.style [scan "f \x7b\r\n   a\r\n\x7d\r\n"]).indent = .spaces 3 ∧
    (Inference.style [scan "f \x7b\r\n   a\r\n\x7d\r\n"]).linebreak = .crlf ∧
    (Inference.style [scan "f \x7b\r\n   a\r\n\x7d\r\n"]).allman = false := by
  have h : format { indent := .spaces 3, linebreak := .crlf }
        (Rule.defaults { indent := .spaces 3, linebreak := .crlf }) "f\x7b\n\na\n\x7d" =
      .ok "f \x7b\r\n   a\r\n\x7d\r\n" := by decide +kernel
  have hscan : scan "f \x7b\r\n   a\r\n\x7d\r\n" =
      [⟨.identifier, "f"⟩, oneSpace, ⟨.startOfScope, "\x7b"⟩, ⟨.linebreak, "\r\n"⟩] ++
        ⟨.space, "   "⟩ :: ⟨.identifier, "a"⟩ ::
        [⟨.linebreak, "\r\n"⟩, ⟨.endOfScope, "\x7d"⟩, ⟨.linebreak, "\r\n"⟩] := by decide +kernel
  have hline : HasIndentedLine (scan "f \x7b\r\n   a\r\n\x7d\r\n") :=
    ⟨_, _, _, _, hscan, rfl, rfl, by simp [isLinebreak]⟩
  have hbreak : ∃ t ∈ scan "f \x7b\r\n   a\r\n\x7d\r\n", t.isLinebreak = true :=
    ⟨⟨.linebreak, "\r\n"⟩, by rw [hscan]; simp, rfl⟩
  obtain ⟨hindent, hlinebreak, hallman⟩ := style_of_format (by decide) h
  exact ⟨h, hindent hline, hlinebreak hbreak, hallman rfl⟩

end Formatting

end Restyle
