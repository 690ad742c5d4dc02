import Mathlib.Data.List.Nodup
import Restyle.Proofs.Loops.Indentation
import Restyle.Proofs.Loops.Lines

/-!
# The lines of a buffer

Three searches know about lines.  One goes back from a position to the start of its line, one goes
on to the end of it, and one goes through the buffer once and lists all lines.  Rules take ranges
from one of them and use them together with those of another, so the three have to agree at every
position: on a linebreak, in an empty line, at the start of the buffer and at its end.

What they agree on is `IsLine`: a range without a linebreak in it, between two places where a line
can start and end.  Two lines that touch one position are the same (`IsLine.eq_of_spans`), the two
searches from a position find the ends of a line (`exists_isLine`), and what is listed are the
lines (`mem_lines_iff`).

* `lines_navigation`: how many lines there are, that they and the linebreaks are the whole buffer,
  and that the searches find them.
-/

namespace Restyle
namespace Buffer

open Spacing (thereIs)

variable {b : Buffer} {l m : Nat × Nat} {i : Nat}
variable {front before line rest after : List Token} {lb : Token} {e : Bool}

/-- Whether a linebreak stands at a position. -/
def breaksAt (b : Buffer) (i : Nat) : Bool := thereIs Token.isLinebreak (b.token? i)

/-- The positions of the linebreaks. -/
def breaks (b : Buffer) : List Nat := (List.range b.tokens.length).filter b.breaksAt

/-- The positions in a range. -/
def positions (l : Nat × Nat) : List Nat := List.range' l.1 (l.2 - l.1)

/-- A range contains a position or ends there. -/
def Spans (l : Nat × Nat) (i : Nat) : Prop := i ∈ positions l ∨ l.2 = i

/-- A range is a line: it lies in the buffer, no linebreak stands in it, and it could not be longer
on either side. -/
structure IsLine (b : Buffer) (l : Nat × Nat) : Prop where
  /-- The range does not end before it starts. -/
  le : l.1 ≤ l.2
  /-- It ends in the buffer. -/
  le_length : l.2 ≤ b.tokens.length
  /-- It starts behind a linebreak, unless it starts with the buffer. -/
  start : ∀ j, l.1 = j + 1 → b.breaksAt j = true
  /-- It ends at a linebreak, unless it ends with the buffer. -/
  stop : l.2 < b.tokens.length → b.breaksAt l.2 = true
  /-- There is no linebreak in it. -/
  unbroken : ∀ j, l.1 ≤ j → j < l.2 → b.breaksAt j = false

theorem mem_positions : i ∈ positions l ↔ l.1 ≤ i ∧ i < l.2 := by
  rw [positions, List.mem_range'_1]
  omega

theorem mem_breaks : i ∈ b.breaks ↔ i < b.tokens.length ∧ b.breaksAt i = true := by
  rw [breaks, List.mem_filter, List.mem_range]

theorem spans_iff (h : l.1 ≤ l.2) : Spans l i ↔ l.1 ≤ i ∧ i ≤ l.2 := by
  rw [Spans, mem_positions]
  omega

/-! ## One line for a position -/

namespace IsLine

/-- Of two lines that touch one position neither starts behind the other: a linebreak would stand
before its start, and so in the other one. -/
theorem start_le (hl : IsLine b l) (hm : IsLine b m) (hil : Spans l i) (him : Spans m i) :
    m.1 ≤ l.1 := by
  rw [spans_iff hl.le] at hil
  rw [spans_iff hm.le] at him
  by_contra hlt
  obtain ⟨j, hj⟩ := Nat.exists_eq_succ_of_ne_zero (show m.1 ≠ 0 by omega)
  have hbreak := hm.start j hj
  rw [hl.unbroken j (by omega) (by omega)] at hbreak
  exact absurd hbreak (by decide)

/-- Nor does either end before the other. -/
theorem le_stop (hl : IsLine b l) (hm : IsLine b m) (hil : Spans l i) (him : Spans m i) :
    m.2 ≤ l.2 := by
  rw [spans_iff hl.le] at hil
  rw [spans_iff hm.le] at him
  by_contra hlt
  have hbreak := hl.stop (Nat.lt_of_lt_of_le (Nat.not_le.1 hlt) hm.le_length)
  rw [hm.unbroken l.2 (by omega) (by omega)] at hbreak
  exact absurd hbreak (by decide)

/-- **A position touches one line only.** -/
theorem eq_of_spans (hl : IsLine b l) (hm : IsLine b m) (hil : Spans l i) (him : Spans m i) :
    l = m :=
  Prod.ext (Nat.le_antisymm (hm.start_le hl him hil) (hl.start_le hm hil him))
    (Nat.le_antisymm (hm.le_stop hl him hil) (hl.le_stop hm hil him))

end IsLine

/-! ## Tokens between linebreaks -/

theorem breaksAt_length (hlb : lb.isLinebreak = true) :
    breaksAt ⟨front ++ lb :: rest, e⟩ front.length = true := by
  rw [breaksAt, token?_length]
  exact hlb

theorem breaksAt_of_unbroken (hline : ∀ t ∈ line, t.isLinebreak = false)
    (hfront : front.length ≤ i) (hi : i < front.length + line.length) :
    breaksAt ⟨front ++ (line ++ rest), e⟩ i = false := by
  obtain ⟨n, rfl⟩ := Nat.exists_eq_add_of_le hfront
  have hn : n < line.length := Nat.lt_of_add_lt_add_left hi
  rw [breaksAt, token?_length_add, List.getElem?_append_left hn, List.getElem?_eq_getElem hn]
  exact hline _ (List.getElem_mem hn)

/-- **Tokens between linebreaks are a line.** -/
theorem isLine_append (hbefore : ∀ t ∈ before.getLast?, t.isLinebreak = true)
    (hline : ∀ t ∈ line, t.isLinebreak = false)
    (hafter : ∀ t ∈ after.head?, t.isLinebreak = true) :
    IsLine ⟨before ++ (line ++ after), e⟩ (before.length, before.length + line.length) where
  le := Nat.le_add_right _ _
  le_length := by simp
  start j hj := by
    obtain ⟨front, lb, rfl⟩ := (List.eq_nil_or_concat' before).resolve_left
      (by rintro rfl; exact absurd hj (by simp))
    obtain rfl : front.length = j := by simpa using hj
    rw [List.append_assoc]
    exact breaksAt_length (hbefore lb (by simp))
  stop hlt := by
    obtain ⟨lb, rest, rfl⟩ := List.exists_cons_of_ne_nil (l := after)
      (by rintro rfl; exact absurd hlt (by simp))
    rw [← List.append_assoc, ← List.length_append]
    exact breaksAt_length (hafter lb rfl)
  unbroken _ := breaksAt_of_unbroken hline

/-! ## The searches from a position -/

/-- What is behind a position, from the start of its line on. -/
theorem exists_startOfLine (front rest : List Token) (e : Bool) :
    ∃ before line, front = before ++ line ∧
      startOfLine ⟨front ++ rest, e⟩ front.length = before.length ∧
      (∀ t ∈ before.getLast?, t.isLinebreak = true) ∧ ∀ t ∈ line, t.isLinebreak = false := by
  rcases Token.none_or_last Token.isLinebreak front with hnone | ⟨us, lb, line, rfl, hlb, hline⟩
  · exact ⟨[], front, rfl, startOfLine_of_forall hnone, by simp, hnone⟩
  · refine ⟨us ++ [lb], line, by simp, ?_, by simpa using hlb, hline⟩
    rw [startOfLine_append_cons hlb hline, List.length_append]
    rfl

/-- What is before a position, up to the end of its line. -/
theorem exists_endOfLine? (front rest : List Token) (e : Bool) :
    ∃ line after, rest = line ++ after ∧
      endOfLine? ⟨front ++ rest, e⟩ front.length = some (front.length + line.length) ∧
      (∀ t ∈ line, t.isLinebreak = false) ∧ ∀ t ∈ after.head?, t.isLinebreak = true := by
  rcases Token.all_or_first (!·.isLinebreak) rest with hall | ⟨line, lb, after, rfl, hline, hlb⟩
  · have hline : ∀ t ∈ rest, t.isLinebreak = false := by simpa using hall
    have hend := @Loops.endOfLine?_append front rest [] e hline (by simp)
    rw [List.append_nil] at hend
    exact ⟨rest, [], (List.append_nil rest).symm, hend, hline, by simp⟩
  · have hline : ∀ t ∈ line, t.isLinebreak = false := by simpa using hline
    have hafter : ∀ t ∈ (lb :: after).head?, t.isLinebreak = true := by simpa using hlb
    exact ⟨line, lb :: after, rfl, Loops.endOfLine?_append hline hafter, hline, hafter⟩

/-- **The searches from a position find a line**, and the position touches it. -/
theorem exists_isLine (hi : i ≤ b.tokens.length) :
    ∃ stop, b.endOfLine? i = some stop ∧ b.IsLine (b.startOfLine i, stop) ∧
      Spans (b.startOfLine i, stop) i := by
  obtain ⟨tokens, e⟩ := b
  obtain ⟨front, rest, rfl, rfl⟩ : ∃ front rest, tokens = front ++ rest ∧ i = front.length :=
    ⟨tokens.take i, tokens.drop i, (List.take_append_drop i tokens).symm,
      (List.length_take_of_le hi).symm⟩
  obtain ⟨before, line, hfront, hstart, hbefore, hline⟩ := exists_startOfLine front rest e
  obtain ⟨line', after, hrest, hstop, hline', hafter⟩ := exists_endOfLine? front rest e
  refine ⟨_, hstop, ?_⟩
  rw [hstart]
  have hisLine := @isLine_append before (line ++ line') after e hbefore
    (List.forall_mem_append.2 ⟨hline, hline'⟩) hafter
  rw [List.length_append, ← Nat.add_assoc, ← List.length_append, ← hfront, List.append_assoc,
    ← hrest, ← List.append_assoc, ← hfront] at hisLine
  exact ⟨hisLine, (spans_iff hisLine.le).2 ⟨by simp [hfront], Nat.le_add_right _ _⟩⟩

/-! ## The list of lines -/

theorem length_linesFrom (lineStart start : Nat) (ts : List Token) :
    (linesFrom lineStart start ts).length = ts.countP Token.isLinebreak + 1 := by
  induction ts generalizing lineStart start with
  | nil => rfl
  | cons t ts ih =>
    rw [linesFrom, List.countP_cons]
    split <;> simp [ih]

/-- What is listed from the start of a line on are the lines from there on. -/
theorem mem_linesFrom_iff (hfront : ∀ t ∈ front.getLast?, t.isLinebreak = true) :
    l ∈ linesFrom front.length front.length rest ↔
      IsLine ⟨front ++ rest, e⟩ l ∧ front.length ≤ l.1 := by
  induction rest using line_induction generalizing front with
  | last line hline =>
    have hlast := @isLine_append front line [] e hfront hline (by simp)
    rw [List.append_nil] at hlast
    rw [Loops.linesFrom_of_unbroken hline, List.mem_singleton]
    constructor
    · rintro rfl
      exact ⟨hlast, Nat.le_refl _⟩
    · rintro ⟨hl, hle⟩
      refine hl.eq_of_spans hlast (.inr rfl) ((spans_iff hlast.le).2 ?_)
      have hbound := hl.le_length
      have hge := hl.le
      rw [List.length_append] at hbound
      exact ⟨Nat.le_trans hle hge, hbound⟩
  | next line lb rest hline hlb ih =>
    have hfirst := @isLine_append front line (lb :: rest) e hfront hline (by simpa using hlb)
    have hmore := @ih (front ++ (line ++ [lb])) (by simpa using hlb)
    rw [List.append_assoc, List.append_assoc, List.singleton_append] at hmore
    have hlength : (front ++ (line ++ [lb])).length = front.length + line.length + 1 := by
      simp [Nat.add_assoc]
    rw [hlength] at hmore
    rw [Loops.linesFrom_append_cons hline hlb, List.mem_cons, hmore]
    constructor
    · rintro (rfl | ⟨hl, hle⟩)
      · exact ⟨hfirst, Nat.le_refl _⟩
      · exact ⟨hl, by omega⟩
    · rintro ⟨hl, hle⟩
      by_cases hend : l.2 ≤ front.length + line.length
      · have hge := hl.le
        exact .inl (hl.eq_of_spans hfirst (.inr rfl)
          ((spans_iff hfirst.le).2 ⟨Nat.le_trans hle hge, hend⟩))
      · -- a line that ends behind the linebreak starts behind it
        refine .inr ⟨hl, ?_⟩
        by_contra hstart
        have hbreak := @breaksAt_length (front ++ line) rest lb e hlb
        rw [List.append_assoc, List.length_append,
          hl.unbroken _ (by omega) (by omega)] at hbreak
        exact absurd hbreak (by decide)

/-- **What is listed are the lines.** -/
theorem mem_lines_iff : l ∈ b.lines ↔ b.IsLine l := by
  have h := @mem_linesFrom_iff l [] b.tokens b.edited (by simp)
  simpa [lines] using h

theorem pairwise_linesFrom (hfront : ∀ t ∈ front.getLast?, t.isLinebreak = true) :
    (linesFrom front.length front.length rest).Pairwise fun l m => l.2 < m.1 := by
  induction rest using line_induction generalizing front with
  | last line hline =>
    rw [Loops.linesFrom_of_unbroken hline]
    exact List.pairwise_singleton _ _
  | next line lb rest hline hlb ih =>
    have hlast : ∀ t ∈ (front ++ (line ++ [lb])).getLast?, t.isLinebreak = true := by
      simpa using hlb
    have hlength : (front ++ (line ++ [lb])).length = front.length + line.length + 1 := by
      simp [Nat.add_assoc]
    rw [Loops.linesFrom_append_cons hline hlb, ← hlength, List.pairwise_cons]
    refine ⟨fun m hm => ?_, ih hlast⟩
    have hle := ((@mem_linesFrom_iff m _ rest false hlast).1 hm).2
    omega

/-- **The lines come one after the other**, with a linebreak between any two of them. -/
theorem pairwise_lines (b : Buffer) : b.lines.Pairwise fun l m => l.2 < m.1 :=
  @pairwise_linesFrom [] b.tokens (by simp)

/-! ## The whole buffer -/

theorem nodup_positions (b : Buffer) : (b.lines.flatMap positions ++ b.breaks).Nodup := by
  refine List.nodup_append.2 ⟨List.nodup_flatMap.2 ⟨fun l _ => List.nodup_range', ?_⟩,
    List.nodup_range.filter _, ?_⟩
  · refine b.pairwise_lines.imp fun {l m} hlt => ?_
    intro i hl hm
    rw [mem_positions] at hl hm
    omega
  · rintro i hi j hj rfl
    obtain ⟨l, hl, hmem⟩ := List.mem_flatMap.1 hi
    obtain ⟨hge, hlt⟩ := mem_positions.1 hmem
    have hbreak := (mem_breaks.1 hj).2
    rw [(mem_lines_iff.1 hl).unbroken i hge hlt] at hbreak
    exact absurd hbreak (by decide)

/-- Every position is in a line or holds a linebreak. -/
theorem mem_positions_or_breaks (hi : i < b.tokens.length) :
    i ∈ b.lines.flatMap positions ++ b.breaks := by
  rw [List.mem_append]
  obtain ⟨stop, -, hline, hmem | hstop⟩ := exists_isLine (Nat.le_of_lt hi)
  · exact .inl (List.mem_flatMap.2 ⟨_, mem_lines_iff.2 hline, hmem⟩)
  · obtain rfl : stop = i := hstop
    exact .inr (mem_breaks.2 ⟨hi, hline.stop hi⟩)

/-- **The lines and the linebreaks are the whole buffer**, each position once. -/
theorem perm_positions (b : Buffer) :
    (b.lines.flatMap positions ++ b.breaks).Perm (List.range b.tokens.length) := by
  refine (List.perm_ext_iff_of_nodup b.nodup_positions List.nodup_range).2 fun i => ?_
  rw [List.mem_range]
  refine ⟨fun hi => ?_, mem_positions_or_breaks⟩
  rcases List.mem_append.1 hi with hi | hi
  · obtain ⟨l, hl, hmem⟩ := List.mem_flatMap.1 hi
    exact Nat.lt_of_lt_of_le (mem_positions.1 hmem).2 (mem_lines_iff.1 hl).le_length
  · exact (mem_breaks.1 hi).1

/-- **Lines are found from everywhere.**  There is one line more than there are linebreaks.  The
lines are ranges in increasing order, no linebreak stands in them, and together with the positions
of the linebreaks they are all positions, each of them once.  From every position up to the length
of the buffer, the searches for the start and for the end of its line give one of the lines, and it
is the only one that contains the position or ends there. -/
theorem lines_navigation (b : Buffer) :
    b.lines.length = b.tokens.countP Token.isLinebreak + 1 ∧
    b.lines.Pairwise (fun l m => l.2 < m.1) ∧
    (∀ l ∈ b.lines, l.1 ≤ l.2 ∧ ∀ i ∈ positions l, b.breaksAt i = false) ∧
    (b.lines.flatMap positions ++ b.breaks).Perm (List.range b.tokens.length) ∧
    ∀ i ≤ b.tokens.length, ∃ stop, b.endOfLine? i = some stop ∧
      ∀ l, l ∈ b.lines ∧ Spans l i ↔ l = (b.startOfLine i, stop) := by
  refine ⟨length_linesFrom 0 0 b.tokens, b.pairwise_lines, fun l hl => ?_, b.perm_positions,
    fun i hi => ?_⟩
  · have hline := mem_lines_iff.1 hl
    exact ⟨hline.le, fun i hi => hline.unbroken i (mem_positions.1 hi).1 (mem_positions.1 hi).2⟩
  · obtain ⟨stop, hstop, hline, hspans⟩ := exists_isLine hi
    refine ⟨stop, hstop, fun l => ⟨fun ⟨hl, hil⟩ => ?_, ?_⟩⟩
    · exact (mem_lines_iff.1 hl).eq_of_spans hline hil hspans
    · rintro rfl
      exact ⟨mem_lines_iff.2 hline, hspans⟩

/-- A buffer with a linebreak at its end, which leaves an empty line behind it. -/
def brokenAtEnd : Buffer := ⟨Token.scan "a b\n  c\n", false⟩

/-- The linebreak at position 3 is where the first line ends, and the end of the buffer is where the
empty line ends. -/
theorem lines_navigation_brokenAtEnd :
    brokenAtEnd.lines = [(0, 3), (4, 6), (7, 7)] ∧
    (∀ i ∈ positions (4, 6), brokenAtEnd.breaksAt i = false) ∧
    (3 ≤ brokenAtEnd.tokens.length ∧ ∀ l, l ∈ brokenAtEnd.lines ∧ Spans l 3 ↔ l = (0, 3)) ∧
    (7 ≤ brokenAtEnd.tokens.length ∧ ∀ l, l ∈ brokenAtEnd.lines ∧ Spans l 7 ↔ l = (7, 7)) := by
  have hlines : brokenAtEnd.lines = [(0, 3), (4, 6), (7, 7)] := by decide +kernel
  have hlength : brokenAtEnd.tokens.length = 7 := by decide +kernel
  obtain ⟨-, -, hunbroken, -, hnavigation⟩ := lines_navigation brokenAtEnd
  refine ⟨hlines, (hunbroken (4, 6) (by simp [hlines])).2, ⟨by simp [hlength], ?_⟩,
    ⟨by simp [hlength], ?_⟩⟩
  · obtain ⟨stop, hstop, honly⟩ := hnavigation 3 (by simp [hlength])
    rw [show brokenAtEnd.endOfLine? 3 = some 3 by decide +kernel] at hstop
    obtain rfl := Option.some.inj hstop
    rwa [show brokenAtEnd.startOfLine 3 = 0 by decide +kernel] at honly
  · obtain ⟨stop, hstop, honly⟩ := hnavigation 7 (by simp [hlength])
    rw [show brokenAtEnd.endOfLine? 7 = some 7 by decide +kernel] at hstop
    obtain rfl := Option.some.inj hstop
    rwa [show brokenAtEnd.startOfLine 7 = 7 by decide +kernel] at honly

end Buffer
end Restyle
