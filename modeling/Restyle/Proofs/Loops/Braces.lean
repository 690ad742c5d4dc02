import Restyle.Proofs.Loops.Lines

/-!
# Opening braces, put where they belong in place

The loop looks for an opening brace and then back for the code token before it, which may be far
away.  The rule looks ahead, from each code token to the brace that may follow.  So the loop has
behind it a part that is settled, and then the last code token with the gap after it, which the next
brace may still replace; `AtHead` says so.

When a brace moves, the loop goes on behind the place where the brace is then.  It may leave alone
the gap that it has just put there, since each of the two styles puts in what it does not move.

* `movesTurn`: one turn, in both styles.
* `yields_moves`: the loop.
* `braces_run`: the rule.
-/

namespace Restyle

open Token
open Spacing (thereIs thereIs_some)

namespace Loops

variable {front rest : List Token} {t : Token} {e : Bool}

/-- Whether a linebreak stands in a range. -/
def anyLinebreak (b : Buffer) (start stop : Nat) : Bool :=
  (List.range' start (stop - start)).any fun j => thereIs isLinebreak (b.token? j)

/-- Braces: what is between the head of a block and its brace is replaced by `mark`, if `moves`
says so, which is told whether a line ends between the two and whether one ends right behind the
brace. -/
def movesTurn (mark : Token) (moves : Bool → Bool → Bool) : Turn := fun b i =>
  if thereIs (opens openBrace) (b.token? i) then
    match b.previous? i (!·.isLayout) with
    | some head =>
      if thereIs endsBlockHead (b.token? head) &&
          moves (anyLinebreak b (head + 1) i) (b.nextBreak? i).isSome then do
        let b ← b.replaceRange? (head + 1) i [mark]
        some (b, head + 2 + 1)
      else some (b, i + 1)
    | none => some (b, i + 1)
  else some (b, i + 1)

/-- Braces, in the style that is asked for. -/
def braces : Program := fun style b =>
  if style.allman then
    (movesTurn ⟨.linebreak, style.linebreak.text⟩ fun broken ends => !broken && ends).sweep b 0
  else (movesTurn oneSpace fun broken _ => broken).sweep b 0

theorem anyLinebreak_append {gap : List Token} :
    anyLinebreak ⟨front ++ (gap ++ rest), e⟩ front.length (front.length + gap.length) =
      gap.any isLinebreak := by
  have hmap := congrArg (List.any · (thereIs isLinebreak))
    (Buffer.map_token?_range' front gap rest e)
  rw [anyLinebreak, Nat.add_sub_cancel_left]
  simpa [List.any_map, Function.comp_def] using hmap

theorem isSome_nextBreak? :
    (Buffer.nextBreak? ⟨front ++ t :: rest, e⟩ front.length).isSome = Braces.endsLine rest := by
  rw [endsLine_eq]
  cases hfirst : thereIs isLinebreak (firstOnLine rest) with
  | false => rw [Buffer.nextBreak?_eq_none hfirst]; rfl
  | true =>
    cases hafter : Linebreaks.afterBlankLine? rest with
    | none => exact absurd hfirst (by simp [afterBlankLine?_eq_none_iff.1 hafter])
    | some more =>
      obtain ⟨spaces, u, rfl, hspaces, hu⟩ := Relaid.exists_of_afterBlankLine? hafter
      rw [Buffer.nextBreak?_append_cons hspaces hu]
      rfl

variable {rule : List Token → List Token} {mark : Token} {moves : Bool → Bool → Bool}

theorem movesTurn_of_not_opens (h : t.opens openBrace = false) :
    movesTurn mark moves ⟨front ++ t :: rest, e⟩ front.length =
      some (⟨front ++ t :: rest, e⟩, front.length + 1) := by
  rw [movesTurn, Buffer.token?_length, List.head?_cons, thereIs_some, h]
  rfl

/-- No code token stands before the brace. -/
theorem movesTurn_of_isLayout (h : ∀ b ∈ front, b.isLayout = true) :
    movesTurn mark moves ⟨front ++ t :: rest, e⟩ front.length =
      some (⟨front ++ t :: rest, e⟩, front.length + 1) := by
  rw [movesTurn, Buffer.previous?_of_forall (by simpa using h)]
  split <;> rfl

/-- A code token stands before the brace, and may be the head of its block. -/
theorem movesTurn_of_opens {head : Token} {gap : List Token} (hopens : t.opens openBrace = true)
    (hhead : head.isCode = true) (hgap : ∀ b ∈ gap, b.isLayout = true) :
    movesTurn mark moves ⟨front ++ head :: gap ++ t :: rest, e⟩ (front ++ head :: gap).length =
      if head.endsBlockHead && moves (gap.any isLinebreak) (Braces.endsLine rest) then
        some (Buffer.assign ⟨front ++ head :: gap ++ t :: rest, e⟩
          (front ++ [head, mark, t] ++ rest), (front ++ [head, mark, t]).length)
      else some (⟨front ++ head :: gap ++ t :: rest, e⟩, (front ++ head :: gap).length + 1) := by
  have hlast : Buffer.token? ⟨front ++ head :: gap ++ t :: rest, e⟩ front.length = some head := by
    rw [List.append_assoc, Buffer.token?_length]
    rfl
  have hbroken : anyLinebreak ⟨front ++ head :: gap ++ t :: rest, e⟩ (front.length + 1)
      (front ++ head :: gap).length = gap.any isLinebreak := by
    have h := @anyLinebreak_append (front ++ [head]) (t :: rest) e gap
    simpa [Nat.add_assoc, Nat.add_comm 1] using h
  have hreplace : Buffer.replaceRange? ⟨front ++ head :: gap ++ t :: rest, e⟩ (front.length + 1)
      (front ++ head :: gap).length [mark] =
        some (Buffer.assign ⟨front ++ head :: gap ++ t :: rest, e⟩
          (front ++ [head, mark, t] ++ rest)) := by
    have h := @Buffer.replaceRange?_append (front ++ [head]) (t :: rest) [mark] gap e
    simpa [Nat.add_assoc, Nat.add_comm 1] using h
  rw [movesTurn, Buffer.token?_length, List.head?_cons, thereIs_some, if_pos hopens,
    Buffer.previous?_append_cons (by simpa using Page.isLayout_of_isCode hhead)
      (by simpa using hgap)]
  dsimp only
  rw [hlast, thereIs_some, hbroken, isSome_nextBreak?, hreplace]
  split
  · simp
  · rfl

/-- What a loop has behind it that a brace may still move away from: nothing, with blanks only
before, or a code token and the gap after it. -/
def AtHead (front pending : List Token) : Prop :=
  (pending = [] ∧ ∀ b ∈ front, b.isLayout = true) ∨
    ∃ head gap, pending = head :: gap ∧ head.isCode = true ∧ ∀ b ∈ gap, b.isLayout = true

/-- Without a brace behind it, nothing moves. -/
theorem rule_of_atHead (h : Page.MovesBraces rule mark moves) {pending : List Token}
    (hpending : AtHead front pending) : rule pending = pending := by
  rcases hpending with ⟨rfl, -⟩ | ⟨head, gap, rfl, hhead, hgap⟩
  · exact h.nil
  · have hgapRule := h.layout_append hgap []
    rw [h.nil, List.append_nil] at hgapRule
    have hbrace : Braces.brace? gap = none := by
      rw [Braces.brace?, List.dropWhile_eq_nil_iff.2 hgap]
    rw [h.cons, hbrace, hgapRule]

/-- Where the brace stays, or no brace comes next. -/
theorem rule_append (h : Page.MovesBraces rule mark moves) {head : Token} {gap : List Token}
    (ht : t.isLayout = false) (hgap : ∀ b ∈ gap, b.isLayout = true)
    (hstays : (t.opens openBrace && (head.endsBlockHead &&
      moves (gap.any isLinebreak) (Braces.endsLine rest))) = false) :
    rule (head :: gap ++ t :: rest) = head :: gap ++ rule (t :: rest) := by
  rw [List.cons_append, h.cons, Page.brace?_append_cons hgap ht, h.layout_append hgap,
    List.cons_append]
  cases hopens : t.opens openBrace with
  | false => rfl
  | true =>
    rw [hopens, Bool.true_and] at hstays
    rw [if_pos rfl]
    dsimp only
    rw [hstays]
    rfl

/-- Where the brace moves. -/
theorem rule_append_of_moves (h : Page.MovesBraces rule mark moves) {head : Token}
    {gap : List Token} (ht : t.isLayout = false) (hgap : ∀ b ∈ gap, b.isLayout = true)
    (hopens : t.opens openBrace = true) (hmoves : (head.endsBlockHead &&
      moves (gap.any isLinebreak) (Braces.endsLine rest)) = true) :
    rule (head :: gap ++ t :: rest) = head :: mark :: t :: rule rest := by
  rw [List.cons_append, h.cons, Page.brace?_append_cons hgap ht, if_pos hopens]
  dsimp only
  rw [if_pos hmoves]

/-- A blank goes to the tokens that a brace may still move away from. -/
theorem exists_atHead_append (h : Page.MovesBraces rule mark moves) {pending : List Token}
    (hpending : AtHead front pending) (ht : t.isLayout = true) (rest : List Token) :
    ∃ front' pending', AtHead front' pending' ∧ front' ++ pending' = front ++ pending ++ [t] ∧
      front' ++ rule (pending' ++ rest) = front ++ rule (pending ++ t :: rest) := by
  have hlayouts : ∀ {ts : List Token}, (∀ b ∈ ts, b.isLayout = true) →
      ∀ b ∈ ts ++ [t], b.isLayout = true := by
    intro ts hts
    simpa [or_imp, forall_and, ht] using hts
  rcases hpending with ⟨rfl, hfront⟩ | ⟨head, gap, rfl, hhead, hgap⟩
  · refine ⟨front ++ [t], [], Or.inl ⟨rfl, hlayouts hfront⟩, by simp, ?_⟩
    have hrule := h.layout_append (@hlayouts [] (by simp)) rest
    rw [List.nil_append, List.singleton_append] at hrule
    rw [List.nil_append, List.nil_append, hrule, List.append_assoc]
  · exact ⟨front, head :: (gap ++ [t]), Or.inr ⟨head, gap ++ [t], rfl, hhead, hlayouts hgap⟩,
      by simp, by simp⟩

theorem movesTurn_of_stays {head : Token} {gap : List Token} (hhead : head.isCode = true)
    (hgap : ∀ b ∈ gap, b.isLayout = true) (hstays : (t.opens openBrace && (head.endsBlockHead &&
      moves (gap.any isLinebreak) (Braces.endsLine rest))) = false) :
    movesTurn mark moves ⟨front ++ head :: gap ++ t :: rest, e⟩ (front ++ head :: gap).length =
      some (⟨front ++ head :: gap ++ t :: rest, e⟩, (front ++ head :: gap).length + 1) := by
  cases hopens : t.opens openBrace with
  | false => exact movesTurn_of_not_opens hopens
  | true =>
    rw [hopens, Bool.true_and] at hstays
    rw [movesTurn_of_opens hopens hhead hgap, hstays]
    rfl

/-- **The loop on braces is the rule**, if the rule does not want to move the mark that it puts
before a brace. -/
theorem yields_moves (h : Page.MovesBraces rule mark moves) (hmark : mark.isLayout = true)
    (hmoves : ∀ ends, moves mark.isLinebreak ends = false) {pending : List Token}
    (hpending : AtHead front pending) :
    Yields (movesTurn mark moves) (front ++ pending) rest (front ++ rule (pending ++ rest)) := by
  -- on the tokens ahead: a blank joins what is pending, and a code token may be the next head
  induction rest generalizing front pending with
  | nil =>
    rw [List.append_nil, rule_of_atHead h hpending]
    exact .nil
  | cons t rest ih =>
    cases hlayout : t.isLayout with
    | true =>
      obtain ⟨front', pending', hpending', htokens, hout⟩ :=
        exists_atHead_append h hpending hlayout rest
      have hnext := ih hpending'
      rw [htokens, hout] at hnext
      exact hnext.keep fun e => movesTurn_of_not_opens (opens_of_isLayout hlayout)
    | false =>
      have ht : t.isCode = true := by simp [isCode, hlayout]
      have hlast : ∀ us : List Token, Yields (movesTurn mark moves) (us ++ [t]) rest
          (us ++ rule (t :: rest)) := fun us => ih (Or.inr ⟨t, [], rfl, ht, by simp⟩)
      rcases hpending with ⟨rfl, hfront⟩ | ⟨head, gap, rfl, hhead, hgap⟩
      · rw [List.append_nil]
        exact (hlast front).keep fun e => movesTurn_of_isLayout hfront
      · cases hcond : t.opens openBrace && (head.endsBlockHead &&
            moves (gap.any isLinebreak) (Braces.endsLine rest)) with
        | false =>
          rw [rule_append h hlayout hgap hcond, ← List.append_assoc]
          exact (hlast _).keep fun e => movesTurn_of_stays hhead hgap hcond
        | true =>
          rw [Bool.and_eq_true] at hcond
          have hnext := hlast (front ++ [head, mark])
          rw [h.cons_of_opens hcond.1, List.append_assoc, List.append_assoc] at hnext
          rw [rule_append_of_moves h hlayout hgap hcond.1 hcond.2]
          refine hnext.assign (fun e => ?_) fun _ heq => ?_
          · rw [movesTurn_of_opens hcond.1 hhead hgap, if_pos hcond.2]
            rfl
          · -- the mark would have been there before, and would not have moved
            rw [List.append_assoc] at heq
            have htail := (List.cons.inj (List.append_cancel_left heq)).2
            have hgapMark : [mark] = gap := eq_of_append_cons_eq isLayout (by simpa using hmark)
              hgap hlayout hlayout htail
            rw [← hgapMark, Bool.and_eq_true] at hcond
            simp [hmoves] at hcond

theorem braces_run (style : Style) (b : Buffer) :
    braces style b = some (Rule.braces.apply style b) := by
  rw [braces, Rule.braces, Rule.ofTransform]
  dsimp only
  split
  · exact Yields.sweep_eq (fun ts => @yields_moves [] ts _ _ _ (Page.movesBraces_wrap _) rfl
      (fun _ => rfl) [] (Or.inl ⟨rfl, by simp⟩)) b
  · exact Yields.sweep_eq (fun ts => @yields_moves [] ts _ _ _ Page.movesBraces_join rfl
      (fun _ => rfl) [] (Or.inl ⟨rfl, by simp⟩)) b

end Loops
end Restyle
