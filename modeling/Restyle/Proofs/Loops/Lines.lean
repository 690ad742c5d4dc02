import Restyle.Proofs.Loops.Basic
import Restyle.Proofs.Stability.Lines

/-!
# The rules on lines, carried out in place

Linebreaks are replaced one by one, and the end of the text in one step.  Runs of blank lines are
removed in two: the ranges are found first, and all of them are positions of the buffer as it was
then.  They are still right when their turn comes, since they are taken from the last to the first
and an edit moves only what stands behind it; `exists_excess` is this, by induction on the lines.

Blank lines at the start of a block are removed by a loop within a loop.  The inner one stays at its
linebreak, and ends because each turn leaves fewer tokens.

* `linebreaks_run`, `linebreakAtEndOfFile_run`, `consecutiveBlankLines_run`, `blockStarts_run`: the
  four rules.
* `dropBlankLinesAfter_length`: the inner loop.
-/

namespace Restyle

open Token
open Spacing (thereIs thereIs_some)

/-! ## Blank lines behind a position -/

namespace Buffer

variable {front rest : List Token} {t u : Token} {e : Bool}

/-- The linebreak that ends the line of a position, if nothing but spaces stands before it. -/
def nextBreak? (b : Buffer) (i : Nat) : Option Nat :=
  (b.next? i (!·.isSpace)).filter fun j => thereIs isLinebreak (b.token? j)

theorem nextBreak?_append_cons {spaces : List Token} (hspaces : ∀ s ∈ spaces, s.isSpace = true)
    (hu : u.isLinebreak = true) :
    nextBreak? ⟨front ++ t :: (spaces ++ u :: rest), e⟩ front.length =
      some (front.length + 1 + spaces.length) := by
  have hnot : u.isSpace = false := Relaid.isSpace_of_isLinebreak hu
  rw [nextBreak?, next?_append_cons (by simpa using hspaces) (by simp [hnot]),
    Option.filter_some, token?_behind, thereIs_some, if_pos hu]

theorem nextBreak?_eq_none (h : thereIs isLinebreak (firstOnLine rest) = false) :
    nextBreak? ⟨front ++ t :: rest, e⟩ front.length = none := by
  rw [nextBreak?]
  rcases all_or_first isSpace rest with hall | ⟨spaces, u, more, rfl, hspaces, hu⟩
  · rw [next?_of_forall (by simpa using hall), Option.filter_none]
  · have hbreak : u.isLinebreak = false := by
      rwa [firstOnLine, List.dropWhile_append_of_pos hspaces,
        List.dropWhile_cons_of_neg (by simp [hu])] at h
    rw [next?_append_cons (by simpa using hspaces) (by simp [hu]), Option.filter_some,
      token?_behind, thereIs_some, hbreak]
    rfl

/-- Removes the blank lines behind a linebreak, one after the other. -/
def dropBlankLinesAfter (b : Buffer) (linebreak : Nat) : Option Buffer :=
  match b.nextBreak? linebreak with
  | some stop => do
    let b ← b.removeRange? (linebreak + 1) (stop + 1)
    b |>.dropBlankLinesAfter linebreak
  | none => some b
partial_fixpoint

/-- The loop behind a linebreak is the removal of all blank lines there. -/
theorem dropBlankLinesAfter_length (front : List Token) (t : Token) (rest : List Token) (e : Bool) :
    dropBlankLinesAfter ⟨front ++ t :: rest, e⟩ front.length =
      some (Buffer.assign ⟨front ++ t :: rest, e⟩
        (front ++ t :: Linebreaks.dropBlankLines rest)) := by
  fun_induction Linebreaks.dropBlankLines rest generalizing e with
  | case1 ts rest h ih =>
    obtain ⟨spaces, lb, rfl, hspaces, hlb⟩ := Relaid.exists_of_afterBlankLine? h
    have hremove : removeRange? ⟨front ++ t :: (spaces ++ lb :: rest), e⟩ (front.length + 1)
        (front.length + 1 + spaces.length + 1) = some ⟨front ++ t :: rest, true⟩ := by
      have hline := @removeRange?_append (front ++ [t]) rest (spaces ++ [lb]) e (by simp)
      simpa [Nat.add_assoc] using hline
    have hne : front ++ t :: Linebreaks.dropBlankLines rest ≠
        front ++ t :: (spaces ++ lb :: rest) := by
      intro heq
      have hlength := congrArg List.length (List.cons.inj (List.append_cancel_left heq)).2
      have hle := Linebreaks.length_dropBlankLines_le rest
      rw [List.length_append, List.length_cons] at hlength
      omega
    rw [dropBlankLinesAfter, nextBreak?_append_cons hspaces hlb]
    dsimp only
    rw [hremove, assign_of_ne hne]
    exact (ih true).trans (by rw [assign_edited_true])
  | case2 ts h =>
    rw [dropBlankLinesAfter, assign_self,
      nextBreak?_eq_none (afterBlankLine?_eq_none_iff.1 h)]

end Buffer

namespace Loops

variable {front rest : List Token} {t u : Token} {e : Bool}

/-! ## Line terminators -/

/-- Replaces a linebreak that has another text. -/
def unifyAt? (text : String) (b : Buffer) (i : Nat) : Option Buffer :=
  if thereIs (fun t => t.isLinebreak && t.text != text) (b.token? i) then
    b.replace? i ⟨.linebreak, text⟩
  else some b

/-- Linebreaks: each position is looked at once. -/
def linebreaks : Program := fun style b =>
  (List.range b.tokens.length).foldlM (unifyAt? style.linebreak.text) b

/-- What the rule makes of a token. -/
def unified (text : String) (t : Token) : Token := if t.isLinebreak then ⟨.linebreak, text⟩ else t

theorem unifyAt?_length (text : String) :
    unifyAt? text ⟨front ++ t :: rest, e⟩ front.length =
      some ⟨front ++ unified text t :: rest, e || unified text t != t⟩ := by
  rw [unifyAt?, Buffer.token?_length, List.head?_cons, thereIs_some, unified]
  cases ht : t.isLinebreak with
  | false => simp
  | true =>
    obtain ⟨kind, own⟩ := t
    obtain rfl : kind = .linebreak := by simpa [isLinebreak] using ht
    by_cases hown : own = text
    · simp [hown]
    · simp [hown]

theorem foldlM_unifyAt? (text : String) (front rest : List Token) (e : Bool) :
    (List.range' front.length rest.length).foldlM (unifyAt? text) ⟨front ++ rest, e⟩ =
      some (Buffer.assign ⟨front ++ rest, e⟩ (front ++ Linebreaks.unify text rest)) := by
  induction rest generalizing front e with
  | nil => simp [Linebreaks.unify]
  | cons t rest ih =>
    have hnext := ih (front ++ [unified text t]) (e || unified text t != t)
    rw [List.length_append, List.append_assoc, List.append_assoc] at hnext
    rw [List.length_cons, List.range'_succ, List.foldlM_cons, unifyAt?_length]
    refine hnext.trans (congrArg some ?_)
    exact Buffer.assign_replaced

theorem linebreaks_run (style : Style) (b : Buffer) :
    linebreaks style b = some (Rule.linebreaks.apply style b) := by
  rw [linebreaks, List.range_eq_range']
  exact foldlM_unifyAt? style.linebreak.text [] b.tokens b.edited

/-! ## The end of the text -/

/-- The end of the text: what follows the last code token is replaced, if there is one. -/
def linebreakAtEndOfFile : Program := fun style b =>
  if style.fragment then some b
  else match b.previous? b.tokens.length (!·.isLayout) with
    | none => some b
    | some last =>
      b.replaceRange? (last + 1) b.tokens.length [⟨.linebreak, style.linebreak.text⟩]

theorem linebreakAtEndOfFile_run (style : Style) (b : Buffer) :
    linebreakAtEndOfFile style b = some (Rule.linebreakAtEndOfFile.apply style b) := by
  obtain ⟨ts, e⟩ := b
  rw [linebreakAtEndOfFile, Rule.linebreakAtEndOfFile, Rule.ofTransform]
  dsimp only
  split
  · exact congrArg some Buffer.assign_self.symm
  · rcases Relaid.layout_or_last_code ts with hall | ⟨init, t, gap, rfl, ht, hgap⟩
    · have hnone := @Buffer.previous?_of_forall ts [] e (!·.isLayout) (by simpa using hall)
      rw [List.append_nil] at hnone
      rw [hnone, Buffer.transform, Relaid.endWithLinebreak_of_isLayout _ hall, Buffer.assign_self]
    · have hlast := @Buffer.previous?_append_cons init [] gap t e (!·.isLayout) ht
        (by simpa using hgap)
      have hreplace := @Buffer.replaceRange?_append (init ++ [t]) []
        [⟨.linebreak, style.linebreak.text⟩] gap e
      rw [List.append_nil] at hlast
      rw [hlast, Buffer.transform, Relaid.endWithLinebreak_append _ _ ht hgap]
      simpa [Nat.add_assoc, Nat.add_comm 1] using hreplace

/-! ## Runs of blank lines -/

/-- Looks at a line, with the number of blank lines directly before it and the ranges of the lines
that go, the last one first.  The tokens after the last linebreak are no line. -/
def countBlank? (most : Nat) (b : Buffer) (state : Nat × List (Nat × Nat)) (line : Nat × Nat) :
    Option (Nat × List (Nat × Nat)) :=
  if line.2 < b.tokens.length then do
    if ← b.isBlank? line.1 line.2 then
      if most < state.1 + 1 then some (state.1 + 1, (line.1, line.2 + 1) :: state.2)
      else some (state.1 + 1, state.2)
    else some (0, state.2)
  else some (0, state.2)

/-- Runs of blank lines: the ranges of the lines that go are found first, and then removed from the
last to the first. -/
def consecutiveBlankLines : Program := fun style b => do
  let (_, excess) ← b.lines.foldlM (countBlank? style.maxBlankLines b) (0, [])
  excess.foldlM (fun b range => b.removeRange? range.1 range.2) b

theorem length_limitBlankLines_le (most before : Nat) (ts : List Token) :
    (Linebreaks.limitBlankLines most before ts).length ≤ ts.length := by
  induction ts using line_induction generalizing before with
  | last line hline => rw [Linebreaks.limitBlankLines_of_unbroken hline]
  | next line lb rest hline hlb ih =>
    rw [Linebreaks.limitBlankLines_append_cons hline hlb, List.length_append, List.length_cons]
    have hblank := ih (before + 1)
    have hzero := ih 0
    split
    · split
      · rw [List.length_append, List.length_cons]
        omega
      · omega
    · rw [List.length_append, List.length_cons]
      omega

theorem linesFrom_of_unbroken {line : List Token} (h : ∀ t ∈ line, t.isLinebreak = false)
    (lineStart start : Nat) :
    Buffer.linesFrom lineStart start line = [(lineStart, start + line.length)] := by
  induction line generalizing start with
  | nil => rfl
  | cons t line ih =>
    rw [Buffer.linesFrom, if_neg (by simp [h t List.mem_cons_self]),
      ih fun u hu => h u (List.mem_cons_of_mem _ hu), List.length_cons, Nat.add_right_comm,
      Nat.add_assoc]

theorem linesFrom_append_cons {line : List Token} {lb : Token}
    (h : ∀ t ∈ line, t.isLinebreak = false) (hlb : lb.isLinebreak = true) (rest : List Token)
    (lineStart start : Nat) :
    Buffer.linesFrom lineStart start (line ++ lb :: rest) = (lineStart, start + line.length) ::
      Buffer.linesFrom (start + line.length + 1) (start + line.length + 1) rest := by
  induction line generalizing start with
  | nil => rw [List.nil_append, Buffer.linesFrom, if_pos hlb]; rfl
  | cons t line ih =>
    rw [List.cons_append, Buffer.linesFrom, if_neg (by simp [h t List.mem_cons_self]),
      ih fun u hu => h u (List.mem_cons_of_mem _ hu), List.length_cons, Nat.add_right_comm,
      Nat.add_assoc]

/-- Whether a line goes that has so many blank lines directly before it. -/
def inExcess (most before : Nat) (line : List Token) : Bool :=
  line.all isSpace && decide (most ≤ before)

/-- The number of blank lines directly before the next line. -/
def blankBefore (before : Nat) (line : List Token) : Nat :=
  if line.all isSpace then before + 1 else 0

theorem limitBlankLines_line {line : List Token} {lb : Token}
    (hline : ∀ t ∈ line, t.isLinebreak = false) (hlb : lb.isLinebreak = true) (most before : Nat)
    (rest : List Token) : Linebreaks.limitBlankLines most before (line ++ lb :: rest) =
      (if inExcess most before line then [] else line ++ [lb]) ++
        Linebreaks.limitBlankLines most (blankBefore before line) rest := by
  rw [Linebreaks.limitBlankLines_append_cons hline hlb, inExcess, blankBefore]
  cases line.all isSpace with
  | false => simp
  | true => by_cases hle : most ≤ before <;> simp [hle, ← Nat.not_le]

theorem countBlank?_line {line : List Token} {lb : Token} (most before : Nat)
    (found : List (Nat × Nat)) :
    countBlank? most ⟨front ++ (line ++ lb :: rest), e⟩ (before, found)
        (front.length, front.length + line.length) =
      some (blankBefore before line,
        (if inExcess most before line then [(front.length, front.length + line.length + 1)]
          else []) ++ found) := by
  rw [countBlank?, if_pos (by simp), Buffer.isBlank?_append, blankBefore, inExcess]
  cases line.all isSpace with
  | false => simp
  | true =>
    have hlimit : (most < before + 1) = (most ≤ before) := propext Nat.lt_succ_iff
    simp only [hlimit]
    by_cases hle : most ≤ before <;> simp [hle]

theorem countBlank?_last {line : List Token} (most before : Nat) (found : List (Nat × Nat)) :
    countBlank? most ⟨front ++ line, e⟩ (before, found)
        (front.length, front.length + line.length) = some (0, found) := by
  rw [countBlank?, if_neg (by simp)]

/-- **The ranges that are found lie in the buffer, and what is left without them is what the rule
leaves.**  They are removed from the last to the first, so that none of them has moved when its turn
comes. -/
theorem exists_excess (most : Nat) (front rest : List Token) (before : Nat) (e : Bool) :
    ∃ last excess,
      (∀ found, (Buffer.linesFrom front.length front.length rest).foldlM
        (countBlank? most ⟨front ++ rest, e⟩) (before, found) = some (last, excess ++ found)) ∧
      excess.foldlM (fun b range => b.removeRange? range.1 range.2) ⟨front ++ rest, e⟩ =
        some (Buffer.assign ⟨front ++ rest, e⟩
          (front ++ Linebreaks.limitBlankLines most before rest)) := by
  induction rest using line_induction generalizing front before with
  | last line hline =>
    refine ⟨0, [], fun found => ?_, ?_⟩
    · rw [linesFrom_of_unbroken hline, List.foldlM_cons, countBlank?_last]
      rfl
    · rw [Linebreaks.limitBlankLines_of_unbroken hline, Buffer.assign_self]
      rfl
  | next line lb rest hline hlb ih =>
    obtain ⟨last, excess, hfound, hremoved⟩ :=
      ih (front ++ (line ++ [lb])) (blankBefore before line)
    have htokens : ∀ us, front ++ (line ++ [lb]) ++ us = front ++ (line ++ lb :: us) := by simp
    have hend : (front ++ (line ++ [lb])).length = front.length + line.length + 1 := by
      simp [Nat.add_assoc]
    rw [htokens, hend] at hfound
    rw [htokens, htokens] at hremoved
    refine ⟨last, excess ++ if inExcess most before line then
      [(front.length, front.length + line.length + 1)] else [], fun found => ?_, ?_⟩
    · rw [linesFrom_append_cons hline hlb, List.foldlM_cons, countBlank?_line]
      exact (hfound _).trans (by rw [List.append_assoc])
    · rw [List.foldlM_append, hremoved, limitBlankLines_line hline hlb]
      cases inExcess most before line with
      | false => simp
      | true =>
        have hlt := length_limitBlankLines_le most (blankBefore before line) rest
        have hne : front ++ Linebreaks.limitBlankLines most (blankBefore before line) rest ≠
            front ++ (line ++ lb :: rest) := by
          intro heq
          have hlength := congrArg List.length (List.append_cancel_left heq)
          rw [List.length_append, List.length_cons] at hlength
          omega
        have hremove := fun e => @Buffer.removeRange?_append front
          (Linebreaks.limitBlankLines most (blankBefore before line) rest) (line ++ [lb]) e
          (by simp)
        rw [if_pos rfl, if_pos rfl, List.nil_append, Buffer.assign_of_ne hne, Buffer.assign_eq]
        simpa [Nat.add_assoc] using hremove _

theorem consecutiveBlankLines_run (style : Style) (b : Buffer) :
    consecutiveBlankLines style b = some (Rule.consecutiveBlankLines.apply style b) := by
  obtain ⟨ts, e⟩ := b
  obtain ⟨last, excess, hfound, hremoved⟩ := exists_excess style.maxBlankLines [] ts 0 e
  have hlines : (Buffer.lines ⟨ts, e⟩).foldlM (countBlank? style.maxBlankLines ⟨ts, e⟩) (0, []) =
      some (last, excess) := by
    have h := hfound []
    rwa [List.append_nil] at h
  rw [consecutiveBlankLines, hlines]
  exact hremoved

/-! ## Blank lines at the start of a block -/

/-- Blank lines at the start of a block: they are looked for behind an opening brace that ends its
line. -/
def blockStartsTurn : Turn := fun b i =>
  if thereIs (opens openBrace) (b.token? i) then
    match b.nextBreak? i with
    | some j => do
      let b ← b.dropBlankLinesAfter j
      some (b, i + 1)
    | none => some (b, i + 1)
  else some (b, i + 1)

theorem dropBlankLines_suffix (ts : List Token) : Linebreaks.dropBlankLines ts <:+ ts := by
  fun_induction Linebreaks.dropBlankLines ts with
  | case1 ts rest h ih =>
    obtain ⟨spaces, lb, rfl, -, -⟩ := Relaid.exists_of_afterBlankLine? h
    exact ih.trans ((List.suffix_cons lb rest).trans (List.suffix_append spaces _))
  | case2 ts h => exact List.suffix_refl ts

theorem length_trimBlockStarts_le (opened : Bool) (ts : List Token) :
    (Linebreaks.trimBlockStarts opened ts).length ≤ ts.length := by
  fun_induction Linebreaks.trimBlockStarts opened ts with
  | case1 => exact Nat.le_refl _
  | case2 opened t rest hspace ih => exact Nat.succ_le_succ ih
  | case3 opened t rest hspace hcond ih =>
    exact Nat.succ_le_succ (ih.trans (Linebreaks.length_dropBlankLines_le rest))
  | case4 opened t rest hspace hcond ih => exact Nat.succ_le_succ ih

/-- A brace that ends its line. -/
theorem blockStartsTurn_of_endsLine {spaces : List Token} (ht : t.opens openBrace = true)
    (hspaces : ∀ s ∈ spaces, s.isSpace = true) (hu : u.isLinebreak = true) :
    blockStartsTurn ⟨front ++ t :: (spaces ++ u :: rest), e⟩ front.length =
      some (Buffer.assign ⟨front ++ t :: (spaces ++ u :: rest), e⟩
        (front ++ t :: (spaces ++ u :: Linebreaks.dropBlankLines rest)), front.length + 1) := by
  have hdrop := Buffer.dropBlankLinesAfter_length (front ++ t :: spaces) u rest e
  rw [List.length_append, List.length_cons, List.append_assoc, List.append_assoc, List.cons_append,
    List.cons_append, Nat.add_comm spaces.length 1, ← Nat.add_assoc] at hdrop
  rw [blockStartsTurn, Buffer.token?_length, List.head?_cons, thereIs_some, if_pos ht,
    Buffer.nextBreak?_append_cons hspaces hu]
  dsimp only
  rw [hdrop]
  rfl

/-- A brace that does not end its line, or no brace. -/
theorem blockStartsTurn_keep (h : (t.opens openBrace &&
      thereIs isLinebreak (firstOnLine rest)) = false) :
    blockStartsTurn ⟨front ++ t :: rest, e⟩ front.length =
      some (⟨front ++ t :: rest, e⟩, front.length + 1) := by
  rw [blockStartsTurn, Buffer.token?_length, List.head?_cons, thereIs_some]
  cases ht : t.opens openBrace with
  | false => rfl
  | true =>
    rw [ht, Bool.true_and] at h
    rw [if_pos rfl, Buffer.nextBreak?_eq_none h]

/-- Where the line goes on, it does not matter whether a brace stands before. -/
theorem trimBlockStarts_true (h : thereIs isLinebreak (firstOnLine rest) = false) :
    Linebreaks.trimBlockStarts true rest = Linebreaks.trimBlockStarts false rest := by
  induction rest with
  | nil => rw [Linebreaks.trimBlockStarts, Linebreaks.trimBlockStarts]
  | cons t rest ih =>
    cases ht : t.isSpace with
    | true =>
      rw [firstOnLine_cons_of_isSpace ht] at h
      rw [(Linebreaks.keepsFirst_trimBlockStarts true).space t rest ht, ih h,
        (Linebreaks.keepsFirst_trimBlockStarts false).space t rest ht]
    | false =>
      rw [firstOnLine_cons ht, thereIs_some] at h
      rw [Linebreaks.trimBlockStarts, Linebreaks.trimBlockStarts, ht, h]
      rfl

theorem opens_of_isLayout (h : t.isLayout = true) : t.opens openBrace = false := by
  cases hopens : t.opens openBrace with
  | false => rfl
  | true => simp [isLayout, isSpace, isLinebreak, Page.kind_of_opens hopens] at h

theorem trimBlockStarts_false_cons (t : Token) (rest : List Token) :
    Linebreaks.trimBlockStarts false (t :: rest) =
      t :: Linebreaks.trimBlockStarts (t.opens openBrace) rest := by
  cases hspace : t.isSpace with
  | true =>
    rw [(Linebreaks.keepsFirst_trimBlockStarts false).space t rest hspace,
      opens_of_isLayout (Relaid.isLayout_of_isSpace hspace)]
  | false => rw [Linebreaks.trimBlockStarts, hspace, Bool.and_false, if_neg (by decide),
      if_neg (by decide)]

/-- Behind a brace that ends its line, the rule goes on as if it were not there and the blank lines
were gone. -/
theorem trimBlockStarts_append_cons {spaces : List Token}
    (hspaces : ∀ s ∈ spaces, s.isSpace = true) (hu : u.isLinebreak = true) (rest : List Token) :
    Linebreaks.trimBlockStarts true (spaces ++ u :: rest) =
      Linebreaks.trimBlockStarts false (spaces ++ u :: Linebreaks.dropBlankLines rest) := by
  have hbreak : Linebreaks.trimBlockStarts true (u :: rest) =
      u :: Linebreaks.trimBlockStarts false (Linebreaks.dropBlankLines rest) := by
    rw [Linebreaks.trimBlockStarts, Relaid.isSpace_of_isLinebreak hu, hu]
    rfl
  rw [(Linebreaks.keepsFirst_trimBlockStarts true).spaces_append hspaces,
    (Linebreaks.keepsFirst_trimBlockStarts false).spaces_append hspaces, hbreak,
    trimBlockStarts_false_cons, opens_of_isLayout (Relaid.isLayout_of_isLinebreak hu)]

/-- **The loop on the starts of blocks is the rule.** -/
theorem yields_blockStarts (front rest : List Token) :
    Yields blockStartsTurn front rest (front ++ Linebreaks.trimBlockStarts false rest) := by
  -- on the number of tokens ahead, since a brace takes the blank lines behind it along
  induction hlength : rest.length using Nat.strong_induction_on generalizing front rest with
  | _ length ih =>
    have hlast : ∀ (v : Token) (more : List Token), more.length < length →
        Yields blockStartsTurn (front ++ [v]) more
          (front ++ v :: Linebreaks.trimBlockStarts false more) := by
      intro v more hmore
      have hnext := ih more.length hmore (front ++ [v]) more rfl
      rwa [List.append_assoc] at hnext
    cases rest with
    | nil =>
      rw [Linebreaks.trimBlockStarts, List.append_nil]
      exact .nil
    | cons t rest =>
      rw [List.length_cons] at hlength
      rw [trimBlockStarts_false_cons]
      cases hends : t.opens openBrace && thereIs isLinebreak (firstOnLine rest) with
      | false =>
        have hrest : Linebreaks.trimBlockStarts (t.opens openBrace) rest =
            Linebreaks.trimBlockStarts false rest := by
          cases hopens : t.opens openBrace with
          | false => rfl
          | true =>
            rw [hopens, Bool.true_and] at hends
            exact trimBlockStarts_true hends
        rw [hrest]
        exact (hlast t rest (by omega)).keep fun e => blockStartsTurn_keep hends
      | true =>
        rw [Bool.and_eq_true] at hends
        cases hafter : Linebreaks.afterBlankLine? rest with
        | none => exact absurd hends.2 (by simp [afterBlankLine?_eq_none_iff.1 hafter])
        | some more =>
          obtain ⟨spaces, u, rfl, hspaces, hu⟩ := Relaid.exists_of_afterBlankLine? hafter
          have hsuffix := dropBlankLines_suffix more
          rw [List.length_append, List.length_cons] at hlength
          rw [hends.1, trimBlockStarts_append_cons hspaces hu]
          refine (hlast t (spaces ++ u :: Linebreaks.dropBlankLines more) ?_).assign
            (fun e => ?_) fun hne heq => hne ?_
          · rw [List.length_append, List.length_cons]
            have := hsuffix.length_le
            omega
          · rw [blockStartsTurn_of_endsLine hends.1 hspaces hu, List.append_assoc,
              List.length_append]
            rfl
          · -- what is left is no shorter than what was there, so no blank line was there
            have hle := length_trimBlockStarts_le false
              (spaces ++ u :: Linebreaks.dropBlankLines more)
            rw [(List.cons.inj (List.append_cancel_left heq)).2] at hle
            rw [List.length_append, List.length_append, List.length_cons, List.length_cons] at hle
            rw [hsuffix.eq_of_length_le (by omega), List.append_assoc]
            rfl

theorem blockStarts_run (style : Style) (b : Buffer) :
    blockStartsTurn.sweep b 0 = some (Rule.blankLinesAtStartOfScope.apply style b) :=
  Yields.sweep_eq (yields_blockStarts []) b

end Loops
end Restyle
