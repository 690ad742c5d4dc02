import Restyle.Proofs.Loops.Lines

/-!
# Blank lines at the end of a block, in place

The loop looks for a closing brace and then goes backwards, line by line, while the lines are
blank.  The rule looks for a linebreak and goes forwards.  They meet in the tokens between: what the
loop has behind it is a part that no later brace can reach, and then a linebreak with blank lines
after it, which the next brace takes out if no other code token comes first.

* `Firm`, `Pending`: these two parts.
* `dropBlankLinesBefore_length`: the way back from a brace.  It comes no further than the firm part,
  and the position of the brace moves with each line that goes.
* `yields_blockEnds`: the loop.
-/

namespace Restyle

open Token
open Spacing (thereIs thereIs_some)

namespace Buffer

/-- Goes backwards from the start of a line that holds nothing but spaces up to a position, and
removes each blank line before it.  The first line of the text stays.  Answers where the token at
the position stands then. -/
def dropBlankLinesBefore (b : Buffer) (i lineStart : Nat) : Option (Buffer × Nat) :=
  if 0 < lineStart then do
    if ← b.isBlank? lineStart i then do
      let previousBreak ← lineStart.psub 1
      let previousStart := b.startOfLine previousBreak
      if previousStart = 0 then some (b, i)
      else do
        if ← b.isBlank? previousStart previousBreak then do
          let removed ← lineStart.psub previousStart
          let b ← b.removeRange? previousStart lineStart
          let i ← i.psub removed
          b |>.dropBlankLinesBefore i previousStart
        else some (b, i)
    else some (b, i)
  else some (b, i)
partial_fixpoint

end Buffer

namespace Loops

variable {front rest : List Token} {t : Token} {e : Bool}

/-- Blank lines at the end of a block: they are looked for before a closing brace. -/
def blockEndsTurn : Turn := fun b i =>
  if thereIs (closes closeBrace) (b.token? i) then do
    let (b, i) ← b.dropBlankLinesBefore i (b.startOfLine i)
    some (b, i + 1)
  else some (b, i + 1)

/-- No blank line that a brace behind them could take out is at the end of these tokens: their last
line holds something else than spaces, or is the first line of the text. -/
def Firm (ts : List Token) : Prop :=
  (∀ t ∈ ts, t.isLinebreak = false) ∨
    ∃ us lb line, ts = us ++ lb :: line ∧ lb.isLinebreak = true ∧
      (∀ t ∈ line, t.isLinebreak = false) ∧ line.all isSpace = false

theorem Firm.append (h : Firm front) (ht : t.isLinebreak = false) : Firm (front ++ [t]) := by
  rcases h with hnone | ⟨us, lb, line, rfl, hlb, hline, hblank⟩
  · exact Or.inl (by simpa [or_imp, forall_and, ht] using hnone)
  · exact Or.inr ⟨us, lb, line ++ [t], by simp, hlb, by simpa [or_imp, forall_and, ht] using hline,
      by simp [hblank]⟩

theorem firm_append_of_isCode (front : List Token) (ht : t.isCode = true) :
    Firm (front ++ [t]) := by
  have hspace : t.isSpace = false := Page.isSpace_of_isCode ht
  have hbreak : t.isLinebreak = false := Page.isLinebreak_of_isCode ht
  rcases none_or_last isLinebreak front with hnone | ⟨us, lb, line, rfl, hlb, hline⟩
  · exact Or.inl (by simpa [or_imp, forall_and, hbreak] using hnone)
  · exact Or.inr ⟨us, lb, line ++ [t], by simp, hlb,
      by simpa [or_imp, forall_and, hbreak] using hline, by simp [hspace]⟩

theorem isBlank?_line {lb : Token} {line : List Token} :
    Buffer.isBlank? ⟨front ++ lb :: line ++ rest, e⟩ (front.length + 1)
      (front ++ lb :: line).length = some (line.all isSpace) := by
  have h := @Buffer.isBlank?_append (front ++ [lb]) rest line e
  rw [List.length_append, List.append_assoc] at h
  rw [List.length_append, List.length_cons, List.append_assoc, Nat.add_comm line.length 1,
    ← Nat.add_assoc]
  exact h

/-- The line before is not blank, or it is the first. -/
theorem dropBlankLinesBefore_of_firm {lb : Token} {line : List Token} (h : Firm front)
    (hline : line.all isSpace = true) :
    Buffer.dropBlankLinesBefore ⟨front ++ lb :: line ++ rest, e⟩ (front ++ lb :: line).length
        (front.length + 1) =
      some (⟨front ++ lb :: line ++ rest, e⟩, (front ++ lb :: line).length) := by
  rw [Buffer.dropBlankLinesBefore, if_pos (Nat.succ_pos _), isBlank?_line, hline, psub_one]
  simp only [Option.bind_eq_bind, Option.bind_some, if_true]
  rcases h with hnone | ⟨us, lb', before, rfl, hlb', hbefore, hblank⟩
  · rw [List.append_assoc, Buffer.startOfLine_of_forall hnone, if_pos rfl]
  · have hstart := @Buffer.startOfLine_append_cons us (lb :: line ++ rest) before lb' e hlb' hbefore
    have hnot := @isBlank?_line us (lb :: line ++ rest) e lb' before
    rw [← List.append_assoc] at hstart hnot
    rw [hstart, if_neg (Nat.succ_ne_zero _), hnot, hblank]
    rfl

theorem isLinebreak_of_all_isSpace {ts : List Token} (h : ts.all isSpace = true) :
    ∀ t ∈ ts, t.isLinebreak = false := by
  intro t ht
  obtain ⟨text, rfl⟩ := exists_eq_space (List.all_eq_true.1 h t ht)
  rfl

/-- The line before is blank and goes. -/
theorem dropBlankLinesBefore_step {lb lb' : Token} {line blank : List Token}
    (hlb : lb.isLinebreak = true) (hblank : blank.all isSpace = true)
    (hline : line.all isSpace = true) :
    Buffer.dropBlankLinesBefore ⟨(front ++ lb :: blank) ++ lb' :: line ++ rest, e⟩
        ((front ++ lb :: blank) ++ lb' :: line).length ((front ++ lb :: blank).length + 1) =
      Buffer.dropBlankLinesBefore ⟨front ++ lb :: line ++ rest, true⟩ (front ++ lb :: line).length
        (front.length + 1) := by
  have hstart := @Buffer.startOfLine_append_cons front (lb' :: line ++ rest) blank lb e hlb
    (isLinebreak_of_all_isSpace hblank)
  have hbefore := @isBlank?_line front (lb' :: line ++ rest) e lb blank
  have hremoved : ((front ++ lb :: blank).length + 1).psub (front.length + 1) =
      some (blank.length + 1) := by
    rw [Nat.psub_eq_some, List.length_append, List.length_cons]
    omega
  have hposition : (front ++ lb :: blank ++ lb' :: line).length.psub (blank.length + 1) =
      some (front ++ lb :: line).length := by
    simp only [Nat.psub_eq_some, List.length_append, List.length_cons]
    omega
  have hremove : Buffer.removeRange? ⟨front ++ lb :: blank ++ lb' :: line ++ rest, e⟩
      (front.length + 1) ((front ++ lb :: blank).length + 1) =
        some ⟨front ++ lb :: line ++ rest, true⟩ := by
    have h := @Buffer.removeRange?_append (front ++ [lb]) (line ++ rest) (blank ++ [lb']) e
      (by simp)
    simpa [Nat.add_assoc, Nat.add_comm 1] using h
  rw [← List.append_assoc] at hstart hbefore
  rw [Buffer.dropBlankLinesBefore, if_pos (Nat.succ_pos _), isBlank?_line, hline, psub_one]
  simp only [Option.bind_eq_bind, Option.bind_some, if_true]
  rw [hstart, if_neg (Nat.succ_ne_zero _), hbefore, hblank, hremoved]
  simp only [Option.bind_some, if_true]
  rw [hremove, Option.bind_some, hposition, Option.bind_some]

/-- A blank line is a gap without linebreaks. -/
theorem all_isSpace_of_isLayout {ts : List Token} (hlayout : ∀ t ∈ ts, t.isLayout = true)
    (hline : ∀ t ∈ ts, t.isLinebreak = false) : ts.all isSpace = true := by
  refine List.all_eq_true.2 fun t ht => ?_
  have h := hlayout t ht
  rwa [isLayout, hline t ht, Bool.or_false] at h

/-- **The loop before a closing brace**, from the last linebreak `lb` on.  The blank lines before it
start with a linebreak, and this is the one that stays. -/
theorem dropBlankLinesBefore_length {lb : Token} {line : List Token} (h : Firm front)
    (hline : line.all isSpace = true) (hlb : lb.isLinebreak = true) (blanks : List Token)
    (hlayout : ∀ t ∈ blanks, t.isLayout = true) (hhead : ∀ t ∈ blanks.head?, t.isLinebreak = true)
    (e : Bool) :
    Buffer.dropBlankLinesBefore ⟨front ++ blanks ++ lb :: line ++ rest, e⟩
        (front ++ blanks ++ lb :: line).length ((front ++ blanks).length + 1) =
      some (⟨front ++ blanks.head?.getD lb :: line ++ rest, e || !blanks.isEmpty⟩,
        (front ++ blanks.head?.getD lb :: line).length) := by
  induction hlength : blanks.length using Nat.strong_induction_on generalizing blanks lb e with
  | _ length ih =>
    rcases none_or_last isLinebreak blanks with hnone | ⟨us, lb', blank, rfl, hlb', hblank⟩
    · obtain rfl : blanks = [] := by
        cases blanks with
        | nil => rfl
        | cons t blanks => exact absurd (hhead t rfl) (by simp [hnone t List.mem_cons_self])
      rw [List.append_nil, dropBlankLinesBefore_of_firm h hline]
      simp
    · have hspaces : blank.all isSpace = true :=
        all_isSpace_of_isLayout (fun t ht => hlayout t (by simp [ht])) hblank
      have hfirst : ∀ t ∈ us.head?, t.isLinebreak = true := by
        cases us with
        | nil => simp
        | cons u us => exact hhead
      have hnext := ih us.length (by simp [← hlength]) hlb' us
        (fun t ht => hlayout t (by simp [ht])) hfirst true rfl
      rw [← List.append_assoc, dropBlankLinesBefore_step hlb' hspaces hline, hnext]
      cases us <;> simp

/-! ## What the rule makes of the tokens behind the loop -/

theorem length_trimBlockEnds_le (ts : List Token) :
    (Linebreaks.trimBlockEnds ts).length ≤ ts.length := by
  fun_induction Linebreaks.trimBlockEnds ts with
  | case1 => exact Nat.le_refl _
  | case2 t rest hcond ih =>
    exact Nat.succ_le_succ (ih.trans (Linebreaks.length_dropBlankLines_le rest))
  | case3 t rest hcond ih => exact Nat.succ_le_succ ih

/-- Without its blank lines, a gap before a code token is the start of the token's line. -/
theorem exists_line_of_gap {gap : List Token} (ht : t.isCode = true)
    (hgap : ∀ b ∈ gap, b.isLayout = true) (rest : List Token) :
    ∃ line, line.all isSpace = true ∧
      Linebreaks.dropBlankLines (gap ++ t :: rest) = line ++ t :: rest ∧
      (gap = line ∨ ∃ us lb, gap = us ++ lb :: line ∧ lb.isLinebreak = true) := by
  induction hlength : gap.length using Nat.strong_induction_on generalizing gap with
  | _ length ih =>
    rcases all_or_first isSpace gap with hall | ⟨spaces, lb, more, rfl, hspaces, hnot⟩
    · refine ⟨gap, List.all_eq_true.2 hall, Linebreaks.dropBlankLines_eq_self ?_, Or.inl rfl⟩
      rw [firstOnLine, List.dropWhile_append_of_pos hall,
        List.dropWhile_cons_of_neg (by simp [Page.isSpace_of_isCode ht])]
      exact Page.isLinebreak_of_isCode ht
    · have hlb : lb.isLinebreak = true := by
        have h := hgap lb (by simp)
        rwa [isLayout, hnot, Bool.false_or] at h
      obtain ⟨line, hline, hdrop, hmore⟩ :=
        ih more.length (by simp [← hlength]; omega) (fun b hb => hgap b (by simp [hb])) rfl
      refine ⟨line, hline, ?_, Or.inr ?_⟩
      · rw [List.append_assoc, List.cons_append, Linebreaks.dropBlankLines_append_cons hspaces hlb,
          hdrop]
      · rcases hmore with rfl | ⟨us, lb', rfl, hlb'⟩
        · exact ⟨spaces, lb, rfl, hlb⟩
        · exact ⟨spaces ++ lb :: us, lb', by simp, hlb'⟩

theorem closesBlock_append {line : List Token} (ht : t.isCode = true)
    (hline : line.all isSpace = true) (rest : List Token) :
    Linebreaks.closesBlock (line ++ t :: rest) = t.closes closeBrace := by
  rw [closesBlock_eq, firstOnLine, List.dropWhile_append_of_pos (List.all_eq_true.1 hline),
    List.dropWhile_cons_of_neg (by simp [Page.isSpace_of_isCode ht])]
  rfl

/-- Before a code token that does not close a block, every blank line stays. -/
theorem trimBlockEnds_append {gap : List Token} (ht : t.isCode = true)
    (hcloses : t.closes closeBrace = false) (hgap : ∀ b ∈ gap, b.isLayout = true)
    (rest : List Token) : Linebreaks.trimBlockEnds (gap ++ t :: rest) =
      gap ++ t :: Linebreaks.trimBlockEnds rest := by
  induction gap with
  | nil => exact Page.trimBlockEnds_cons (Page.isLinebreak_of_isCode ht) rest
  | cons b gap ih =>
    have hmore : ∀ b ∈ gap, b.isLayout = true := fun c hc => hgap c (List.mem_cons_of_mem _ hc)
    obtain ⟨line, hline, hdrop, -⟩ := exists_line_of_gap ht hmore rest
    rw [List.cons_append, Linebreaks.trimBlockEnds, hdrop, closesBlock_append ht hline, hcloses,
      Bool.and_false, if_neg (by decide), ih hmore, List.cons_append]

/-- Before a closing brace, the blank lines go. -/
theorem trimBlockEnds_closes {gap line : List Token} {lb : Token} (ht : t.isCode = true)
    (hcloses : t.closes closeBrace = true) (hlb : lb.isLinebreak = true)
    (hline : line.all isSpace = true)
    (hdrop : Linebreaks.dropBlankLines (gap ++ t :: rest) = line ++ t :: rest) :
    Linebreaks.trimBlockEnds (lb :: (gap ++ t :: rest)) =
      lb :: (line ++ t :: Linebreaks.trimBlockEnds rest) := by
  rw [Linebreaks.trimBlockEnds, hdrop, closesBlock_append ht hline, hcloses, hlb,
    Linebreaks.keepsFirst_trimBlockEnds.spaces_append (List.all_eq_true.1 hline),
    Page.trimBlockEnds_cons (Page.isLinebreak_of_isCode ht)]
  rfl

theorem closes_of_isLayout (h : t.isLayout = true) : t.closes closeBrace = false := by
  cases hcloses : t.closes closeBrace with
  | false => rfl
  | true => simp [isLayout, isSpace, isLinebreak, Page.kind_of_closes hcloses] at h

/-- Without a brace behind them, blank lines stay. -/
theorem trimBlockEnds_of_isLayout {gap : List Token} (hgap : ∀ b ∈ gap, b.isLayout = true) :
    Linebreaks.trimBlockEnds gap = gap := by
  induction gap with
  | nil => rw [Linebreaks.trimBlockEnds]
  | cons b gap ih =>
    have hmore : ∀ b ∈ gap, b.isLayout = true := fun c hc => hgap c (List.mem_cons_of_mem _ hc)
    have hcloses : Linebreaks.closesBlock (Linebreaks.dropBlankLines gap) = false := by
      rw [closesBlock_eq]
      cases hfirst : firstOnLine (Linebreaks.dropBlankLines gap) with
      | none => rfl
      | some c =>
        have hmem : c ∈ Linebreaks.dropBlankLines gap :=
          (List.dropWhile_suffix _).mem (List.mem_of_mem_head? hfirst)
        exact closes_of_isLayout (hmore c ((dropBlankLines_suffix gap).mem hmem))
    rw [Linebreaks.trimBlockEnds, hcloses, Bool.and_false, if_neg (by decide), ih hmore]

/-! ## The loop -/

theorem blockEndsTurn_of_not_closes (h : t.closes closeBrace = false) :
    blockEndsTurn ⟨front ++ t :: rest, e⟩ front.length =
      some (⟨front ++ t :: rest, e⟩, front.length + 1) := by
  rw [blockEndsTurn, Buffer.token?_length, List.head?_cons, thereIs_some, h]
  rfl

/-- Where nothing but spaces is before a brace, there is nothing to do in the first line, and
otherwise something else is before it. -/
theorem blockEndsTurn_of_firm (h : Firm front) :
    blockEndsTurn ⟨front ++ t :: rest, e⟩ front.length =
      some (⟨front ++ t :: rest, e⟩, front.length + 1) := by
  have hdrop : Buffer.dropBlankLinesBefore ⟨front ++ t :: rest, e⟩ front.length
      (Buffer.startOfLine ⟨front ++ t :: rest, e⟩ front.length) =
        some (⟨front ++ t :: rest, e⟩, front.length) := by
    rcases h with hnone | ⟨us, lb, line, rfl, hlb, hline, hblank⟩
    · rw [Buffer.startOfLine_of_forall hnone, Buffer.dropBlankLinesBefore, if_neg (Nat.lt_irrefl 0)]
    · rw [Buffer.startOfLine_append_cons hlb hline, Buffer.dropBlankLinesBefore,
        if_pos (Nat.succ_pos _), isBlank?_line, hblank]
      rfl
  rw [blockEndsTurn, hdrop]
  split <;> rfl

/-- A brace behind a gap with a linebreak: the linebreak stays, and so does the start of the line
of the brace. -/
theorem exists_blockEndsTurn {gap line : List Token} {lb : Token} (h : Firm front)
    (hcloses : t.closes closeBrace = true) (hlb : lb.isLinebreak = true)
    (hgap : ∀ b ∈ gap, b.isLayout = true) (hline : line.all isSpace = true)
    (hsplit : gap = line ∨ ∃ us lb', gap = us ++ lb' :: line ∧ lb'.isLinebreak = true) :
    ∃ edits, (∀ e, blockEndsTurn ⟨front ++ lb :: gap ++ t :: rest, e⟩ (front ++ lb :: gap).length =
        some (⟨front ++ lb :: line ++ t :: rest, e || edits⟩, (front ++ lb :: line).length + 1)) ∧
      (edits = false → gap = line) ∧ (edits = true → line.length < gap.length) := by
  have hbreaks := isLinebreak_of_all_isSpace hline
  rcases hsplit with rfl | ⟨us, lb', rfl, hlb'⟩
  · refine ⟨false, fun e => ?_, fun _ => rfl, fun h => absurd h (by decide)⟩
    rw [blockEndsTurn, Buffer.token?_length, List.head?_cons, thereIs_some, if_pos hcloses,
      Buffer.startOfLine_append_cons hlb hbreaks, dropBlankLinesBefore_of_firm h hline,
      Bool.or_false]
    rfl
  · refine ⟨true, fun e => ?_, fun h => absurd h (by decide), fun _ => by simp; omega⟩
    have hdrop := @dropBlankLinesBefore_length front (t :: rest) lb' line h hline hlb' (lb :: us)
      (by simpa [Relaid.isLayout_of_isLinebreak hlb] using fun b hb => hgap b (by simp [hb]))
      (by simpa using hlb) e
    have hstart := @Buffer.startOfLine_append_cons (front ++ lb :: us) (t :: rest) line lb' e hlb'
      hbreaks
    have hfront : front ++ lb :: (us ++ lb' :: line) = front ++ lb :: us ++ lb' :: line := by simp
    rw [hfront, blockEndsTurn, Buffer.token?_length, List.head?_cons, thereIs_some, if_pos hcloses,
      hstart, hdrop]
    rfl

/-- The tokens behind the loop that a brace may still reach: none, or a linebreak and blanks. -/
def Pending (ts : List Token) : Prop :=
  ts = [] ∨ ∃ lb gap, ts = lb :: gap ∧ lb.isLinebreak = true ∧ ∀ b ∈ gap, b.isLayout = true

theorem Pending.isLayout {ts : List Token} (h : Pending ts) : ∀ b ∈ ts, b.isLayout = true := by
  rcases h with rfl | ⟨lb, gap, rfl, hlb, hgap⟩
  · simp
  · simpa [Relaid.isLayout_of_isLinebreak hlb] using hgap

/-- A blank goes to the tokens that a brace may reach, unless the line holds something else
already. -/
theorem exists_pending_append {pending : List Token} (hfirm : Firm front)
    (hpending : Pending pending) (ht : t.isLayout = true) (rest : List Token) :
    ∃ front' pending', Firm front' ∧ Pending pending' ∧
      front' ++ pending' = front ++ pending ++ [t] ∧
      front' ++ Linebreaks.trimBlockEnds (pending' ++ rest) =
        front ++ Linebreaks.trimBlockEnds (pending ++ t :: rest) := by
  rcases hpending with rfl | ⟨lb, gap, rfl, hlb, hgap⟩
  · cases hbreak : t.isLinebreak with
    | true => exact ⟨front, [t], hfirm, Or.inr ⟨t, [], rfl, hbreak, by simp⟩, by simp, rfl⟩
    | false =>
      refine ⟨front ++ [t], [], hfirm.append hbreak, Or.inl rfl, by simp, ?_⟩
      rw [List.nil_append, List.nil_append, Page.trimBlockEnds_cons hbreak, List.append_assoc]
      rfl
  · refine ⟨front, lb :: (gap ++ [t]), hfirm, Or.inr ⟨lb, gap ++ [t], rfl, hlb, ?_⟩, by simp,
      by simp⟩
    simpa [or_imp, forall_and, ht] using hgap

/-- **The loop on the ends of blocks is the rule.** -/
theorem yields_blockEnds {pending : List Token} (hfirm : Firm front) (hpending : Pending pending) :
    Yields blockEndsTurn (front ++ pending) rest
      (front ++ Linebreaks.trimBlockEnds (pending ++ rest)) := by
  -- on the tokens ahead: a blank joins what is pending, and a code token settles it
  induction rest generalizing front pending with
  | nil =>
    rw [List.append_nil, trimBlockEnds_of_isLayout hpending.isLayout]
    exact .nil
  | cons t rest ih =>
    cases hlayout : t.isLayout with
    | true =>
      obtain ⟨front', pending', hfirm', hpending', htokens, hout⟩ :=
        exists_pending_append hfirm hpending hlayout rest
      have hnext := ih hfirm' hpending'
      rw [htokens, hout] at hnext
      exact hnext.keep fun e => blockEndsTurn_of_not_closes (closes_of_isLayout hlayout)
    | false =>
      have ht : t.isCode = true := by simp [isCode, hlayout]
      have hlast : ∀ us : List Token, Yields blockEndsTurn (us ++ [t]) rest
          (us ++ t :: Linebreaks.trimBlockEnds rest) := by
        intro us
        have hnext := ih (firm_append_of_isCode us ht) (Or.inl rfl)
        rwa [List.append_nil, List.append_assoc] at hnext
      rcases hpending with rfl | ⟨lb, gap, rfl, hlb, hgap⟩
      · rw [List.append_nil, List.nil_append,
          Page.trimBlockEnds_cons (Page.isLinebreak_of_isCode ht)]
        exact (hlast front).keep fun e => blockEndsTurn_of_firm hfirm
      · have hlayouts := Pending.isLayout (Or.inr ⟨lb, gap, rfl, hlb, hgap⟩)
        cases hcloses : t.closes closeBrace with
        | false =>
          rw [trimBlockEnds_append ht hcloses hlayouts, ← List.append_assoc]
          exact (hlast _).keep fun e => blockEndsTurn_of_not_closes hcloses
        | true =>
          obtain ⟨line, hline, hdrop, hsplit⟩ := exists_line_of_gap ht hgap rest
          obtain ⟨edits, hturn, hsame, hless⟩ :=
            @exists_blockEndsTurn front rest t gap line lb hfirm hcloses hlb hgap hline hsplit
          have hout : front ++ Linebreaks.trimBlockEnds (lb :: gap ++ t :: rest) =
              front ++ lb :: line ++ t :: Linebreaks.trimBlockEnds rest := by
            rw [List.cons_append, trimBlockEnds_closes ht hcloses hlb hline hdrop,
              List.append_assoc, List.cons_append]
          rw [hout]
          refine (hlast (front ++ lb :: line)).step edits (fun e => ?_) (fun hnone => ?_)
            fun hedits heq => ?_
          · rw [hturn, List.append_assoc _ [t] rest]
            simp [Nat.add_assoc]
          · rw [hsame hnone, List.append_assoc _ [t] rest]
            rfl
          · have hlength := congrArg List.length heq
            have hle := length_trimBlockEnds_le rest
            have hlt := hless hedits
            simp only [List.length_append, List.length_cons] at hlength
            omega

theorem blockEnds_run (style : Style) (b : Buffer) :
    blockEndsTurn.sweep b 0 = some (Rule.blankLinesAtEndOfScope.apply style b) :=
  Yields.sweep_eq (fun _ => @yields_blockEnds [] _ [] (Or.inl (by simp)) (Or.inl rfl)) b

end Loops
end Restyle
