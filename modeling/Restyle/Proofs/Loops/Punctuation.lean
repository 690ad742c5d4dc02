import Restyle.Proofs.Loops.Spaces

/-!
# The rules on commas and brackets, carried out in place

Both loops take out a space that they have already gone past: the one before a comma, and the one
before a closing bracket.  The space is still there while the loop is at the space itself, so what
a loop leaves is not what the rule makes of the tokens before it, put behind the tokens that the
loop has behind it.  It is said by `commasFrom` and `bracketsFrom`, which look at the end of these
tokens too.

* `dropSpaceBefore?`: the step back, with its two differences of positions.
* `sweep_commas`: the loop on commas.  It does two edits of the rule in one go, and a space that one
  of them puts in and the other takes out still raises the flag.
* `yields_brackets`: the loop on brackets.  The rule decides by a token that the loop has removed;
  `Agrees` says why this makes no difference.
-/

namespace Restyle

open Token
open Spacing (thereIs thereIs_some)

namespace Loops

variable {front rest : List Token} {t u : Token} {q : Option Token} {e : Bool}

/-! ## A space behind the loop -/

/-- Takes out the space before a position, unless there is no token before it that `p` holds of.
Answers the position where the token stands then. -/
def dropSpaceBefore? (p : Token → Bool) : Turn := fun b i =>
  if 2 ≤ i then do
    if ← back? b i 1 isSpace then
      if ← back? b i 2 p then do
        let j ← i.psub 1
        let b ← b.remove? j
        some (b, j)
      else some (b, i)
    else some (b, i)
  else some (b, i)

/-- Whether the last token is a space that follows on a token `p` holds of. -/
def endsWithSpace (p : Token → Bool) (front : List Token) : Bool :=
  thereIs isSpace front.getLast? && thereIs p front.dropLast.getLast?

/-- The tokens behind a loop, without the space at their end that the loop takes out. -/
def unspaced (p : Token → Bool) (front : List Token) : List Token :=
  if endsWithSpace p front then front.dropLast else front

theorem unspaced_append (p : Token → Bool) (front : List Token) (t : Token) :
    unspaced p (front ++ [t]) =
      if t.isSpace && thereIs p front.getLast? then front else front ++ [t] := by
  simp [unspaced, endsWithSpace]

theorem dropSpaceBefore?_length (p : Token → Bool) :
    dropSpaceBefore? p ⟨front ++ rest, e⟩ front.length =
      some (⟨unspaced p front ++ rest, e || endsWithSpace p front⟩, (unspaced p front).length) := by
  rcases List.eq_nil_or_concat' front with rfl | ⟨init, s, rfl⟩
  · simp [dropSpaceBefore?, unspaced, endsWithSpace, thereIs]
  rcases List.eq_nil_or_concat' init with rfl | ⟨init, v, rfl⟩
  · simp [dropSpaceBefore?, unspaced, endsWithSpace, thereIs]
  cases hs : s.isSpace <;> cases hv : p v <;>
    simp [dropSpaceBefore?, unspaced, endsWithSpace, back?, hs, hv]

theorem length_unspaced_of_endsWithSpace {p : Token → Bool} (h : endsWithSpace p front = true) :
    (unspaced p front).length < front.length := by
  have hne : front ≠ [] := by
    rintro rfl
    exact absurd h (by simp [endsWithSpace, thereIs])
  have hpos := List.length_pos_iff.2 hne
  rw [unspaced, if_pos h, List.length_dropLast]
  omega

theorem unspaced_of_not_endsWithSpace {p : Token → Bool} (h : endsWithSpace p front = false) :
    unspaced p front = front := if_neg (Bool.eq_false_iff.1 h)

/-! ### Commas -/

/-- Commas: the space before one goes, unless the line starts with it, and then a space is put
behind. -/
def commasTurn : Turn := fun b i =>
  if thereIs Spacing.isComma (b.token? i) then do
    let (b, i) ← dropSpaceBefore? (!·.isLinebreak) b i
    let b ← spaceIf? (Spacing.needsSpaceAfterComma (b.token? (i + 1))) b (i + 1)
    some (b, i + 1)
  else some (b, i + 1)

theorem commasTurn_of_not_isComma (h : Spacing.isComma t = false) :
    commasTurn ⟨front ++ t :: rest, e⟩ front.length =
      some (⟨front ++ t :: rest, e⟩, front.length + 1) := by
  simp [commasTurn, h]

/-- What stands behind a comma, once the space that it needs is put in. -/
def spacedAfterComma (rest : List Token) : List Token :=
  (if Spacing.needsSpaceAfterComma rest.head? then [oneSpace] else []) ++ rest

theorem commasTurn_of_isComma (h : Spacing.isComma t = true) :
    commasTurn ⟨front ++ t :: rest, e⟩ front.length =
      some (⟨unspaced (!·.isLinebreak) front ++ t :: spacedAfterComma rest,
        e || (endsWithSpace (!·.isLinebreak) front || Spacing.needsSpaceAfterComma rest.head?)⟩,
        (unspaced (!·.isLinebreak) front).length + 1) := by
  simp [commasTurn, h, dropSpaceBefore?_length, Bool.or_assoc, spacedAfterComma]

/-- What the loop on commas leaves.  The space before a comma stays until the loop comes to the
comma. -/
def commasFrom (front rest : List Token) : List Token :=
  (if thereIs Spacing.isComma rest.head? then unspaced (!·.isLinebreak) front else front) ++
    Spacing.beforeCommas front.getLast? (Spacing.afterCommas rest)

theorem commasFrom_of_not_isComma (h : Spacing.isComma t = false) :
    commasFrom front (t :: rest) = commasFrom (front ++ [t]) rest := by
  have hafter : Spacing.afterCommas (t :: rest) = t :: Spacing.afterCommas rest := by
    rw [Page.afterCommas_cons, Page.spaceAfterComma, h]
    rfl
  rw [commasFrom, commasFrom, hafter, Spacing.beforeCommas, Page.head?_afterCommas, unspaced_append,
    List.getLast?_append]
  cases t.isSpace <;> cases thereIs Spacing.isComma rest.head? <;>
    cases thereIs (!·.isLinebreak) front.getLast? <;> simp [h]

theorem afterCommas_of_isComma (h : Spacing.isComma t = true) (rest : List Token) :
    Spacing.afterCommas (t :: rest) = t :: Spacing.afterCommas (spacedAfterComma rest) := by
  rw [Page.afterCommas_cons, Page.spaceAfterComma, h, Bool.true_and, spacedAfterComma]
  split <;> rfl

theorem commasFrom_of_isComma (h : Spacing.isComma t = true) :
    commasFrom front (t :: rest) =
      commasFrom (unspaced (!·.isLinebreak) front ++ [t]) (spacedAfterComma rest) := by
  have ht : t.isSpace = false := Relaid.isSpace_of_isComma h
  rw [commasFrom, commasFrom, afterCommas_of_isComma h, Page.edits_beforeCommas.keep _ t _ ht,
    unspaced_append, ht, List.getLast?_append]
  simp [h]

/-- A space that is put in or taken out is a change at one of the two edits. -/
theorem changes_of_isComma (h : Spacing.isComma t = true)
    (hedits : (endsWithSpace (!·.isLinebreak) front ||
      Spacing.needsSpaceAfterComma rest.head?) = true) :
    front ++ Spacing.afterCommas (t :: rest) ≠ front ++ t :: rest ∨
      commasFrom front (t :: rest) ≠ front ++ Spacing.afterCommas (t :: rest) := by
  rw [Bool.or_eq_true] at hedits
  rcases hedits with hspace | hneeds
  · refine Or.inr fun heq => ?_
    have hlength := congrArg List.length heq
    have hlt := length_unspaced_of_endsWithSpace hspace
    have hle := length_le_of_edits Page.edits_beforeCommas front.getLast?
      (Spacing.afterCommas (t :: rest))
    rw [commasFrom, List.head?_cons, thereIs_some, if_pos h, List.length_append,
      List.length_append] at hlength
    omega
  · refine Or.inl fun heq => ?_
    have hlt : (t :: rest).length < (Spacing.afterCommas (t :: rest)).length :=
      @length_lt_of_inserts rest t _ _ _ Page.inserts_afterCommas none
        (by simp [Page.spaceAfterComma, h, hneeds])
    rw [List.append_cancel_left heq] at hlt
    exact absurd hlt (Nat.lt_irrefl _)

/-- **The loop on commas ends, and leaves what the two edits of the rule leave.**  The flag is
raised by a space that is put in, and by one that is taken out. -/
theorem sweep_commas (front rest : List Token) (e : Bool) :
    commasTurn.sweep ⟨front ++ rest, e⟩ front.length =
      some ((Buffer.assign ⟨front ++ rest, e⟩ (front ++ Spacing.afterCommas rest)).assign
        (commasFrom front rest)) := by
  induction rest generalizing front e with
  | nil =>
    rw [List.append_nil, sweep_nil]
    simp [Spacing.afterCommas, commasFrom, thereIs, Spacing.beforeCommas]
  | cons t rest ih =>
    have hpass : ∀ (us : List Token) (v : Token) (e : Bool), Spacing.isComma v = false →
        commasTurn.sweep ⟨us ++ v :: rest, e⟩ us.length =
          some ((Buffer.assign ⟨us ++ v :: rest, e⟩ (us ++ v :: Spacing.afterCommas rest)).assign
            (commasFrom us (v :: rest))) := by
      intro us v e hv
      have hnext := ih (us ++ [v]) e
      rw [List.append_assoc, List.append_assoc, List.length_append] at hnext
      rw [sweep_cons (commasTurn_of_not_isComma hv), commasFrom_of_not_isComma hv]
      exact hnext
    cases hcomma : Spacing.isComma t with
    | false =>
      have hafter : Spacing.afterCommas (t :: rest) = t :: Spacing.afterCommas rest := by
        simp [Spacing.afterCommas, hcomma]
      rw [hafter]
      exact hpass front t e hcomma
    | true =>
      have hbehind : ∀ (us : List Token) (e : Bool),
          commasTurn.sweep ⟨us ++ t :: spacedAfterComma rest, e⟩ (us.length + 1) =
            some ((Buffer.assign ⟨us ++ t :: spacedAfterComma rest, e⟩
              (us ++ Spacing.afterCommas (t :: rest))).assign
                (commasFrom (us ++ [t]) (spacedAfterComma rest))) := by
        intro us e
        rw [afterCommas_of_isComma hcomma, spacedAfterComma]
        split
        · have hspace := hpass (us ++ [t]) oneSpace e rfl
          rw [List.append_assoc, List.append_assoc, List.length_append] at hspace
          exact hspace
        · have hsame := ih (us ++ [t]) e
          rw [List.append_assoc, List.append_assoc, List.length_append] at hsame
          exact hsame
      rw [sweep_cons (commasTurn_of_isComma hcomma), hbehind, ← commasFrom_of_isComma hcomma]
      cases hedits : endsWithSpace (!·.isLinebreak) front ||
          Spacing.needsSpaceAfterComma rest.head? with
      | false =>
        rw [Bool.or_eq_false_iff] at hedits
        rw [unspaced_of_not_endsWithSpace hedits.1, spacedAfterComma, hedits.2, Bool.or_false]
        rfl
      | true =>
        rw [Bool.or_true, Buffer.assign_edited_true, Buffer.assign_edited_true,
          Buffer.assign_assign_of_ne (changes_of_isComma hcomma hedits)]

theorem commas_run (style : Style) (b : Buffer) :
    commasTurn.sweep b 0 = some (Rule.spaceAroundCommas.apply style b) := by
  have hsweep := sweep_commas [] b.tokens b.edited
  have hnone : commasFrom [] b.tokens =
      Spacing.beforeCommas none (Spacing.afterCommas b.tokens) := by
    rw [commasFrom, unspaced_of_not_endsWithSpace rfl, ite_self]
    rfl
  rw [hnone] at hsweep
  refine hsweep.trans (congrArg some ?_)
  have hafter := Buffer.transform_tokens Spacing.afterCommas b
  exact congrArg (fun ts => (b.transform Spacing.afterCommas).assign (Spacing.beforeCommas none ts))
    hafter.symm

/-! ### Brackets -/

/-- A token on the same line that is not a comment. -/
def plain (t : Token) : Bool := !t.isLinebreak && !t.isComment

/-- Brackets: the space behind an opening one goes, and the space before a closing one. -/
def bracketsTurn : Turn := fun b i =>
  if thereIs Spacing.isOpeningBracket (b.token? i) && thereIs isSpace (b.token? (i + 1)) &&
      thereIs plain (b.token? (i + 2)) then do
    let b ← b.remove? (i + 1)
    some (b, i + 1)
  else if thereIs Spacing.isClosingBracket (b.token? i) then do
    let (b, i) ← dropSpaceBefore? plain b i
    some (b, i + 1)
  else some (b, i + 1)

theorem bracketsTurn_opening {s : Token} (ht : Spacing.isOpeningBracket t = true)
    (hs : s.isSpace = true) (hu : plain u = true) :
    bracketsTurn ⟨front ++ t :: s :: u :: rest, e⟩ front.length =
      some (⟨front ++ t :: u :: rest, true⟩, front.length + 1) := by
  simp [bracketsTurn, ht, hs, hu]

theorem not_isSpace_of_isOpeningBracket (h : Spacing.isOpeningBracket t = true) :
    t.isSpace = false ∧ Spacing.isClosingBracket t = false ∧ plain t = true := by
  rw [Spacing.isOpeningBracket, Bool.or_eq_true] at h
  have hkind : t.kind = .startOfScope := h.elim Page.kind_of_opens Page.kind_of_opens
  simp [isSpace, Spacing.isClosingBracket, closes, plain, isLinebreak, isComment, hkind]

theorem not_isSpace_of_isClosingBracket (h : Spacing.isClosingBracket t = true) :
    t.isSpace = false ∧ Spacing.isOpeningBracket t = false := by
  rw [Spacing.isClosingBracket, Bool.or_eq_true] at h
  have hkind : t.kind = .endOfScope := h.elim Page.kind_of_closes Page.kind_of_closes
  simp [isSpace, Spacing.isOpeningBracket, opens, hkind]

theorem bracketsTurn_closing (h : Spacing.isClosingBracket t = true) :
    bracketsTurn ⟨front ++ t :: rest, e⟩ front.length =
      some (⟨unspaced plain front ++ t :: rest, e || endsWithSpace plain front⟩,
        (unspaced plain front).length + 1) := by
  simp [bracketsTurn, h, (not_isSpace_of_isClosingBracket h).2, dropSpaceBefore?_length]

theorem bracketsTurn_keep (hclosing : Spacing.isClosingBracket t = false)
    (hopening : (Spacing.isOpeningBracket t && thereIs isSpace rest.head? &&
      thereIs plain rest.tail.head?) = false) :
    bracketsTurn ⟨front ++ t :: rest, e⟩ front.length =
      some (⟨front ++ t :: rest, e⟩, front.length + 1) := by
  have htail : Buffer.token? ⟨front ++ t :: rest, e⟩ (front.length + 2) = rest.tail.head? := by
    rw [Buffer.token?_length_add, List.getElem?_cons_succ, List.head?_tail]
  rw [bracketsTurn, Buffer.token?_length, List.head?_cons, thereIs_some, thereIs_some,
    Buffer.token?_length_succ, htail, hopening, hclosing]
  rfl

/-- What the loop on brackets leaves, if the rule has seen `q` last.  The space before a closing
bracket stays until the loop comes to the bracket. -/
def bracketsFrom (q : Option Token) (front rest : List Token) : List Token :=
  (if thereIs Spacing.isClosingBracket rest.head? then unspaced plain front else front) ++
    Spacing.insideBrackets q rest

theorem bracketsFrom_append_not_isSpace (h : t.isSpace = false) :
    bracketsFrom q (front ++ [t]) rest = front ++ t :: Spacing.insideBrackets q rest := by
  rw [bracketsFrom, unspaced_append, h]
  simp

/-- The loop has dealt with the opening bracket behind it, and with the token before it: the rule,
which still sees a space that is gone, decides by it as the loop does by what is there. -/
structure Agrees (q : Option Token) (front rest : List Token) : Prop where
  /-- The rule and the loop find the same sort of token before them. -/
  plain : thereIs plain q = thereIs plain front.getLast?
  /-- No space is left that goes because of an opening bracket. -/
  opened : thereIs isSpace rest.head? = true →
    (thereIs Spacing.isOpeningBracket q && thereIs Loops.plain rest.tail.head?) = false

theorem Agrees.last (h : (Spacing.isOpeningBracket t && thereIs isSpace rest.head? &&
    thereIs Loops.plain rest.tail.head?) = false) : Agrees (some t) (front ++ [t]) rest where
  plain := by rw [List.getLast?_append]; rfl
  opened := fun hspace => by rwa [hspace, Bool.and_true] at h

theorem insideBrackets_space (h : t.isSpace = true) (rest : List Token) :
    Spacing.insideBrackets q (t :: rest) =
      if Page.noSpaceInside q rest.head? then Spacing.insideBrackets (some t) rest
      else t :: Spacing.insideBrackets (some t) rest := by
  rw [Spacing.insideBrackets, h, Bool.true_and, Page.noSpaceInside]

/-- A token that the loop passes by.  If it is a space before a closing bracket, the rule takes it
out at once and the loop at its next turn. -/
theorem bracketsFrom_cons (h : Agrees q front (t :: rest))
    (ht : Spacing.isClosingBracket t = false) :
    bracketsFrom q front (t :: rest) = bracketsFrom (some t) (front ++ [t]) rest := by
  rw [bracketsFrom, List.head?_cons, thereIs_some, if_neg (Bool.eq_false_iff.1 ht)]
  cases hspace : t.isSpace with
  | false =>
    rw [bracketsFrom_append_not_isSpace hspace, Page.edits_insideBrackets.keep q t rest hspace]
  | true =>
    have hinside : Page.noSpaceInside q rest.head? =
        (thereIs Spacing.isClosingBracket rest.head? && thereIs plain front.getLast?) := by
      rw [← h.plain]
      exact (congrArg (· || _) (h.opened hspace)).trans (Bool.false_or _)
    rw [insideBrackets_space hspace, bracketsFrom, unspaced_append, hspace, hinside, Bool.true_and]
    cases thereIs Spacing.isClosingBracket rest.head? <;>
      cases thereIs plain front.getLast? <;> simp

/-- The space behind an opening bracket goes. -/
theorem bracketsFrom_opening {s : Token} (ht : Spacing.isOpeningBracket t = true)
    (hs : s.isSpace = true) (hu : plain u = true) :
    bracketsFrom q front (t :: s :: u :: rest) =
      bracketsFrom (some s) (front ++ [t]) (u :: rest) := by
  obtain ⟨hspace, hclosing, -⟩ := not_isSpace_of_isOpeningBracket ht
  have hinside : Page.noSpaceInside (some t) (some u) = true := by
    rw [Page.noSpaceInside, thereIs_some, ht, Bool.true_and]
    exact (congrArg (· || _) hu).trans (Bool.true_or _)
  rw [bracketsFrom_append_not_isSpace hspace, bracketsFrom, List.head?_cons, thereIs_some,
    if_neg (Bool.eq_false_iff.1 hclosing), Page.edits_insideBrackets.keep q t _ hspace,
    insideBrackets_space hs, List.head?_cons, hinside, if_pos rfl]

/-- The space before a closing bracket is gone by now. -/
theorem bracketsFrom_closing (ht : Spacing.isClosingBracket t = true) :
    bracketsFrom q front (t :: rest) =
      bracketsFrom (some t) (unspaced plain front ++ [t]) rest := by
  obtain ⟨hspace, -⟩ := not_isSpace_of_isClosingBracket ht
  rw [bracketsFrom_append_not_isSpace hspace, bracketsFrom, List.head?_cons, thereIs_some,
    if_pos ht, Page.edits_insideBrackets.keep q t rest hspace]

/-- **The loop on brackets is the rule.** -/
theorem yields_brackets (h : Agrees q front rest) :
    Yields bracketsTurn front rest (bracketsFrom q front rest) := by
  induction hlength : rest.length using Nat.strong_induction_on generalizing q front rest with
  | _ length ih =>
    cases rest with
    | nil =>
      rw [bracketsFrom, Spacing.insideBrackets, List.append_nil]
      exact .nil
    | cons t rest =>
      rw [List.length_cons] at hlength
      cases hopening : Spacing.isOpeningBracket t && thereIs isSpace rest.head? &&
          thereIs plain rest.tail.head? with
      | true =>
        rw [Bool.and_eq_true, Bool.and_eq_true] at hopening
        obtain ⟨⟨ht, hspace⟩, hplain⟩ := hopening
        obtain ⟨s, more, rfl, hs⟩ := Relaid.exists_cons_of_thereIs hspace
        obtain ⟨u, more, rfl, hu⟩ := Relaid.exists_cons_of_thereIs hplain
        have hagrees : Agrees (some s) (front ++ [t]) (u :: more) := by
          obtain ⟨text, rfl⟩ := exists_eq_space hs
          refine ⟨?_, fun _ => rfl⟩
          rw [List.getLast?_append]
          exact (not_isSpace_of_isOpeningBracket ht).2.2.symm
        rw [bracketsFrom_opening ht hs hu]
        refine (ih _ (by simp [← hlength]) hagrees rfl).edit (fun e => ?_) fun heq => ?_
        · rw [bracketsTurn_opening ht hs hu, List.append_assoc, List.length_append]
          rfl
        · have hle := length_le_of_edits Page.edits_insideBrackets (some s) (u :: more)
          have hnot := (not_isSpace_of_isOpeningBracket ht).1
          rw [bracketsFrom_append_not_isSpace hnot] at heq
          have hsame := List.cons.inj (List.append_cancel_left heq)
          rw [hsame.2] at hle
          exact absurd hle (Nat.not_succ_le_self _)
      | false =>
        cases hclosing : Spacing.isClosingBracket t with
        | true =>
          have hnot := not_isSpace_of_isClosingBracket hclosing
          rw [bracketsFrom_closing hclosing]
          refine (ih rest.length (by omega) (.last hopening) rfl).step (endsWithSpace plain front)
            (fun e => ?_) (fun hspace => ?_) fun hspace heq => ?_
          · rw [bracketsTurn_closing hclosing, List.append_assoc, List.length_append]
            rfl
          · rw [unspaced_of_not_endsWithSpace hspace, List.append_assoc]
            rfl
          · have hlt := length_unspaced_of_endsWithSpace hspace
            have hle := length_le_of_edits Page.edits_insideBrackets (some t) rest
            have hsame := congrArg List.length heq
            rw [bracketsFrom_append_not_isSpace hnot.1, List.length_append, List.length_append,
              List.length_cons, List.length_cons] at hsame
            omega
        | false =>
          rw [bracketsFrom_cons h hclosing]
          exact (ih rest.length (by omega) (.last hopening) rfl).keep
            fun e => bracketsTurn_keep hclosing hopening

theorem brackets_run (style : Style) (b : Buffer) :
    bracketsTurn.sweep b 0 = some (Rule.spaceInsideParens.apply style b) := by
  refine Yields.sweep_eq (fun ts => ?_) b
  have hnone : bracketsFrom none [] ts = Spacing.insideBrackets none ts := by
    rw [bracketsFrom, unspaced_of_not_endsWithSpace rfl, ite_self]
    rfl
  rw [← hnone]
  exact yields_brackets ⟨rfl, fun _ => rfl⟩

end Loops
end Restyle
