import Mathlib.Data.List.Basic
import Mathlib.Data.Nat.PSub
import Restyle.Buffer.Lines
import Restyle.Rule.Spacing

/-!
# Programs that edit a buffer where it stands

A rule says what becomes of all tokens at once.  It can also be carried out in place: a loop goes
from position to position, looks around, and inserts, removes and replaces tokens as it goes, while
it holds positions that its own edits move.  A program of this kind can go wrong in ways a
transformation cannot.  It may edit a position that is not there, ask for the line of such a
position, subtract one position from another that lies before it, or never come to an end.

A program here answers nothing in each of these cases.  Edits and ranges are those of `Buffer`,
differences are `Nat.psub`, and a loop is a least fixed point, of which nothing is known when it
does not end.  So an equation `program style b = some c` says that the program ends on `b`, that
every position it uses is in bounds, and what it leaves.

A loop is looked at with the tokens behind it, `front`, and those before it, `rest`: the buffer
holds `front ++ rest` and the position is the length of `front`.

* `Turn.sweep`: the loop.
* `sweep_cons`: one turn of it.
* `Yields`: what a loop makes of a buffer from a position on, with `Yields.keep` for a turn that
  passes a token by and `Yields.edit` for one that edits.
-/

namespace Restyle

namespace Token

/-! ## Where a list comes apart -/

/-- A list of tokens that `p` holds of, or the first one that it does not hold of. -/
theorem all_or_first (p : Token → Bool) (ts : List Token) :
    (∀ t ∈ ts, p t = true) ∨
      ∃ us u vs, ts = us ++ u :: vs ∧ (∀ t ∈ us, p t = true) ∧ p u = false := by
  induction ts with
  | nil => exact Or.inl (by simp)
  | cons t rest ih =>
    cases ht : p t with
    | false => exact Or.inr ⟨[], t, rest, rfl, by simp, ht⟩
    | true =>
      rcases ih with hall | ⟨us, u, vs, rfl, hus, hu⟩
      · exact Or.inl (by simpa [ht] using hall)
      · exact Or.inr ⟨t :: us, u, vs, rfl, by simpa [ht] using hus, hu⟩

/-- A list of tokens that `p` does not hold of, or the last one that it holds of. -/
theorem none_or_last (p : Token → Bool) (ts : List Token) :
    (∀ t ∈ ts, p t = false) ∨
      ∃ us u vs, ts = us ++ u :: vs ∧ p u = true ∧ ∀ t ∈ vs, p t = false := by
  induction ts with
  | nil => exact Or.inl (by simp)
  | cons t rest ih =>
    rcases ih with hnone | ⟨us, u, vs, rfl, hu, hvs⟩
    · cases ht : p t with
      | false => exact Or.inl (by simpa [ht] using hnone)
      | true => exact Or.inr ⟨[], t, rest, rfl, ht, hnone⟩
    · exact Or.inr ⟨t :: us, u, vs, rfl, hu, hvs⟩

/-- Where the first token is that `p` does not hold of, a list comes apart in one way. -/
theorem eq_of_append_cons_eq (p : Token → Bool) {us vs xs ys : List Token} {t u : Token}
    (hus : ∀ v ∈ us, p v = true) (hvs : ∀ v ∈ vs, p v = true) (ht : p t = false) (hu : p u = false)
    (h : us ++ t :: xs = vs ++ u :: ys) : us = vs := by
  have htake := congrArg (List.takeWhile p) h
  rwa [List.takeWhile_append_of_pos hus, List.takeWhile_append_of_pos hvs,
    List.takeWhile_cons_of_neg (by simp [ht]), List.takeWhile_cons_of_neg (by simp [hu]),
    List.append_nil, List.append_nil] at htake

end Token

namespace Spacing

@[simp] theorem thereIs_some (p : Token → Bool) (t : Token) : thereIs p (some t) = p t := rfl

end Spacing

namespace Buffer

variable {front rest ts us : List Token} {t u : Token} {e : Bool}

/-! ## Assignments -/

@[simp] theorem assign_self : assign ⟨ts, e⟩ ts = ⟨ts, e⟩ := if_pos rfl

theorem assign_eq : assign ⟨ts, e⟩ us = ⟨us, e || us != ts⟩ := by
  rw [assign]
  split
  · rename_i h
    simp [h]
  · rename_i h
    simp [h]

@[simp] theorem assign_edited_true : assign ⟨ts, true⟩ us = ⟨us, true⟩ := by
  rw [assign_eq, Bool.true_or]

theorem assign_of_ne (h : us ≠ ts) : assign ⟨ts, e⟩ us = ⟨us, true⟩ := if_neg h

/-- Two assignments, one of which is a change. -/
theorem assign_assign_of_ne {vs : List Token} (h : us ≠ ts ∨ vs ≠ us) :
    (assign ⟨ts, e⟩ us).assign vs = ⟨vs, true⟩ := by
  by_cases hus : us = ts
  · obtain rfl := hus
    rw [assign_self, assign_of_ne (h.resolve_left (not_not.2 rfl))]
  · rw [assign_of_ne hus, assign_edited_true]

/-- An assignment that the next one does not take back. -/
theorem assign_assign {vs : List Token} (h : us ≠ ts → vs ≠ ts) :
    (assign ⟨ts, e⟩ us).assign vs = assign ⟨ts, e⟩ vs := by
  by_cases hus : us = ts
  · rw [hus, assign_self]
  · rw [assign_of_ne hus, assign_edited_true, assign_of_ne (h hus)]

/-- A token that has been replaced, and an assignment to the tokens behind it. -/
theorem assign_replaced :
    assign ⟨front ++ u :: rest, e || u != t⟩ (front ++ u :: us) =
      assign ⟨front ++ t :: rest, e⟩ (front ++ u :: us) := by
  by_cases hu : u = t
  · simp [hu]
  · have hne : front ++ u :: us ≠ front ++ t :: rest := by simp [hu]
    rw [assign_of_ne hne, bne_iff_ne.2 hu, Bool.or_true, assign_edited_true]

/-! ## At a position between two lists -/

@[simp] theorem token?_length : token? ⟨front ++ rest, e⟩ front.length = rest.head? := by
  rw [token?, List.getElem?_append_right (Nat.le_refl _), Nat.sub_self, List.head?_eq_getElem?]

theorem token?_length_add (n : Nat) :
    token? ⟨front ++ rest, e⟩ (front.length + n) = rest[n]? := by
  rw [token?, List.getElem?_append_right (Nat.le_add_right _ _), Nat.add_sub_cancel_left]

@[simp] theorem token?_length_succ :
    token? ⟨front ++ t :: rest, e⟩ (front.length + 1) = rest.head? := by
  rw [token?_length_add, List.getElem?_cons_succ, List.head?_eq_getElem?]

@[simp] theorem token?_length_succ_succ :
    token? ⟨front ++ t :: u :: rest, e⟩ (front.length + 2) = rest.head? := by
  rw [token?_length_add, List.getElem?_cons_succ, List.getElem?_cons_succ,
    List.head?_eq_getElem?]

@[simp] theorem insert?_length :
    insert? ⟨front ++ rest, e⟩ front.length t = some ⟨front ++ t :: rest, true⟩ := by
  simp [insert?]

@[simp] theorem insert?_length_succ :
    insert? ⟨front ++ t :: rest, e⟩ (front.length + 1) u =
      some ⟨front ++ t :: u :: rest, true⟩ := by
  simpa using @insert?_length (front ++ [t]) rest u e

@[simp] theorem remove?_length :
    remove? ⟨front ++ t :: rest, e⟩ front.length = some ⟨front ++ rest, true⟩ := by
  simp [remove?]

@[simp] theorem remove?_length_succ :
    remove? ⟨front ++ t :: u :: rest, e⟩ (front.length + 1) = some ⟨front ++ t :: rest, true⟩ := by
  simpa using @remove?_length (front ++ [t]) rest u e

@[simp] theorem replace?_length :
    replace? ⟨front ++ t :: rest, e⟩ front.length u =
      some ⟨front ++ u :: rest, e || u != t⟩ := by
  have hset : (front ++ t :: rest).set front.length u = front ++ u :: rest := by simp
  rw [replace?, if_pos (by simp), hset]
  by_cases hu : u = t
  · simp [hu]
  · rw [assign_of_ne (by simpa using hu)]
    simp [hu]

/-! ### Looking ahead and back -/

theorem next?_of_forall {p : Token → Bool} (h : ∀ u ∈ rest, p u = false) :
    next? ⟨front ++ t :: rest, e⟩ front.length p = none := by
  simpa [next?, List.findIdx?_eq_none_iff] using h

theorem next?_append_cons {p : Token → Bool} (h : ∀ v ∈ us, p v = false) (hu : p u = true) :
    next? ⟨front ++ t :: (us ++ u :: rest), e⟩ front.length p =
      some (front.length + 1 + us.length) := by
  have hnone : us.findIdx? p = none := by simpa [List.findIdx?_eq_none_iff] using h
  simp [next?, List.findIdx?_append, hnone, List.findIdx?_cons, hu]

theorem token?_behind :
    token? ⟨front ++ t :: (us ++ u :: rest), e⟩ (front.length + 1 + us.length) = some u := by
  have h := @token?_length (front ++ t :: us) (u :: rest) e
  rw [List.length_append, List.length_cons, List.append_assoc, List.cons_append,
    Nat.add_comm us.length 1, ← Nat.add_assoc] at h
  exact h

theorem previous?_of_forall {p : Token → Bool} (h : ∀ u ∈ front, p u = false) :
    previous? ⟨front ++ rest, e⟩ front.length p = none := by
  have hnone : front.reverse.findIdx? p = none := by simpa [List.findIdx?_eq_none_iff] using h
  simp [previous?, lastIndex?, hnone]

theorem previous?_append_cons {p : Token → Bool} (ht : p t = true) (h : ∀ u ∈ us, p u = false) :
    previous? ⟨front ++ t :: us ++ rest, e⟩ (front ++ t :: us).length p = some front.length := by
  have hnone : us.reverse.findIdx? p = none := by simpa [List.findIdx?_eq_none_iff] using h
  rw [previous?, List.take_left, lastIndex?, List.reverse_append, List.reverse_cons]
  simp [List.findIdx?_append, hnone, List.findIdx?_cons, ht]

theorem startOfLine_of_forall (h : ∀ u ∈ front, u.isLinebreak = false) :
    startOfLine ⟨front ++ rest, e⟩ front.length = 0 := by
  rw [startOfLine, previous?_of_forall h]

theorem startOfLine_append_cons (ht : t.isLinebreak = true) (h : ∀ u ∈ us, u.isLinebreak = false) :
    startOfLine ⟨front ++ t :: us ++ rest, e⟩ (front ++ t :: us).length = front.length + 1 := by
  rw [startOfLine, previous?_append_cons ht h]

/-! ### Ranges -/

theorem isBlank?_append :
    isBlank? ⟨front ++ (us ++ rest), e⟩ front.length (front.length + us.length) =
      some (us.all Token.isSpace) := by
  rw [isBlank?, if_pos (by simp), ← List.append_assoc, ← List.length_append, List.take_left,
    List.drop_left]

theorem removeRange?_append (h : us ≠ []) :
    removeRange? ⟨front ++ (us ++ rest), e⟩ front.length (front.length + us.length) =
      some ⟨front ++ rest, true⟩ := by
  have hpos := List.length_pos_iff.2 h
  rw [removeRange?, if_neg (by omega), if_pos (by simp), ← List.append_assoc]
  simp

theorem replaceRange?_append :
    replaceRange? ⟨front ++ (us ++ rest), e⟩ front.length (front.length + us.length) ts =
      some (assign ⟨front ++ (us ++ rest), e⟩ (front ++ (ts ++ rest))) := by
  have htake : (front ++ (us ++ rest)).take front.length = front := by simp
  have hdrop : (front ++ (us ++ rest)).drop (front.length + us.length) = rest := by
    rw [← List.append_assoc]
    simp
  rw [replaceRange?, if_pos (by simp), htake, hdrop, List.append_assoc]

/-- A loop over the positions of a range sees the tokens there. -/
theorem map_token?_range' (front us rest : List Token) (e : Bool) :
    (List.range' front.length us.length).map (token? ⟨front ++ (us ++ rest), e⟩) =
      us.map some := by
  induction us generalizing front with
  | nil => rfl
  | cons u us ih =>
    have hnext := ih (front ++ [u])
    rw [List.length_append, List.append_assoc] at hnext
    rw [List.length_cons, List.range'_succ, List.map_cons, List.cons_append, token?_length,
      List.map_cons]
    exact congrArg (some u :: ·) hnext

end Buffer

namespace Loops

open Spacing (thereIs thereIs_some isLineEdge)

/-- A way to carry out a rule. -/
abbrev Program := Style → Buffer → Option Buffer

/-- What a loop does at a position: the buffer that it leaves, and the position to go on from. -/
abbrev Turn := Buffer → Nat → Option (Buffer × Nat)

/-- A loop over the positions of a buffer, up to the end that the buffer has by then. -/
def Turn.sweep (turn : Turn) (b : Buffer) (i : Nat) : Option Buffer :=
  if i < b.tokens.length then do
    let (b, i) ← turn b i
    turn |>.sweep b i
  else some b
partial_fixpoint

/-- Whether `p` holds of the token that stands `k` places before a position. -/
def back? (b : Buffer) (i k : Nat) (p : Token → Bool) : Option Bool :=
  (i.psub k).map fun j => thereIs p (b.token? j)

/-- Whether there is a token before a position that `p` holds of. -/
def before? (b : Buffer) (i : Nat) (p : Token → Bool) : Option Bool :=
  if 0 < i then back? b i 1 p else some false

/-- Whether a line starts at a position. -/
def startsLine? (b : Buffer) (i : Nat) : Option Bool :=
  if i = 0 then some true else back? b i 1 Token.isLinebreak

/-! ## Looking around in a turn -/

variable {turn : Turn} {front front' rest rest' out : List Token} {t : Token} {e : Bool}

@[simp] theorem psub_one (n : Nat) : (n + 1).psub 1 = some n := rfl

theorem back?_one (h : front ≠ []) (p : Token → Bool) :
    back? ⟨front ++ rest, e⟩ front.length 1 p = some (thereIs p front.getLast?) := by
  rcases List.eq_nil_or_concat' front with rfl | ⟨init, last, rfl⟩
  · exact absurd rfl h
  · simp [back?]

@[simp] theorem before?_length (p : Token → Bool) :
    before? ⟨front ++ rest, e⟩ front.length p = some (thereIs p front.getLast?) := by
  rw [before?]
  split
  · rename_i h
    exact back?_one (List.ne_nil_of_length_pos h) p
  · rename_i h
    obtain rfl := List.length_eq_zero_iff.1 (Nat.eq_zero_of_not_pos h)
    rfl

@[simp] theorem startsLine?_length :
    startsLine? ⟨front ++ rest, e⟩ front.length = some (isLineEdge front.getLast?) := by
  rcases List.eq_nil_or_concat' front with rfl | ⟨init, last, rfl⟩
  · rfl
  · rw [startsLine?, if_neg (by simp), back?_one (by simp)]
    simp [thereIs, isLineEdge]

/-! ## Loops -/

theorem sweep_nil : turn.sweep ⟨front, e⟩ front.length = some ⟨front, e⟩ := by
  rw [Turn.sweep, if_neg (Nat.lt_irrefl _)]

/-- One turn of a loop. -/
theorem sweep_cons {c : Buffer} {i : Nat}
    (h : turn ⟨front ++ t :: rest, e⟩ front.length = some (c, i)) :
    turn.sweep ⟨front ++ t :: rest, e⟩ front.length = turn.sweep c i := by
  rw [Turn.sweep, if_pos (by simp), h]
  rfl

/-- A loop that has `front` behind it and `rest` before it ends, and leaves `out`.  The flag is
raised if this is a change. -/
def Yields (turn : Turn) (front rest out : List Token) : Prop :=
  ∀ e, turn.sweep ⟨front ++ rest, e⟩ front.length = some (Buffer.assign ⟨front ++ rest, e⟩ out)

namespace Yields

theorem nil : Yields turn front [] front := by
  intro e
  rw [List.append_nil, sweep_nil, Buffer.assign_self]

/-- One turn, which edits the buffer or does not. -/
theorem step (h : Yields turn front' rest' out) (edits : Bool)
    (hturn : ∀ e, turn ⟨front ++ t :: rest, e⟩ front.length =
      some (⟨front' ++ rest', e || edits⟩, front'.length))
    (hsame : edits = false → front' ++ rest' = front ++ t :: rest)
    (hne : edits = true → out ≠ front ++ t :: rest) : Yields turn front (t :: rest) out := by
  intro e
  rw [sweep_cons (hturn e), h (e || edits)]
  cases edits with
  | false => rw [hsame rfl, Bool.or_false]
  | true => rw [Bool.or_true, Buffer.assign_edited_true, Buffer.assign_of_ne (hne rfl)]

/-- A turn that passes a token by. -/
theorem keep (h : Yields turn (front ++ [t]) rest out)
    (hturn : ∀ e, turn ⟨front ++ t :: rest, e⟩ front.length =
      some (⟨front ++ t :: rest, e⟩, front.length + 1)) :
    Yields turn front (t :: rest) out :=
  h.step false (fun e => by rw [hturn, Bool.or_false, List.append_assoc, List.length_append]; rfl)
    (fun _ => List.append_assoc front [t] rest) (fun hedits => absurd hedits (by decide))

/-- A turn that edits the buffer. -/
theorem edit (h : Yields turn front' rest' out)
    (hturn : ∀ e, turn ⟨front ++ t :: rest, e⟩ front.length =
      some (⟨front' ++ rest', true⟩, front'.length))
    (hne : out ≠ front ++ t :: rest) : Yields turn front (t :: rest) out :=
  h.step true (fun e => by rw [hturn, Bool.or_true]) (fun hedits => absurd hedits (by decide))
    fun _ => hne

/-- A turn that puts other tokens in place of those that are there. -/
theorem assign (h : Yields turn front' rest' out)
    (hturn : ∀ e, turn ⟨front ++ t :: rest, e⟩ front.length =
      some (Buffer.assign ⟨front ++ t :: rest, e⟩ (front' ++ rest'), front'.length))
    (hne : front' ++ rest' ≠ front ++ t :: rest → out ≠ front ++ t :: rest) :
    Yields turn front (t :: rest) out :=
  h.step (front' ++ rest' != front ++ t :: rest) (fun e => by rw [hturn, Buffer.assign_eq])
    (fun hsame => by simpa using hsame) fun hedits => hne (by simpa using hedits)

/-- A loop over the whole buffer is a transformation, if it yields what the transformation does. -/
theorem sweep_eq {f : List Token → List Token} (h : ∀ ts, Yields turn [] ts (f ts)) (b : Buffer) :
    turn.sweep b 0 = some (b.transform f) :=
  h b.tokens b.edited

end Yields

end Loops
end Restyle
