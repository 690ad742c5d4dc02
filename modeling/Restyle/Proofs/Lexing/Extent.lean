import Mathlib.Data.List.Basic
import Mathlib.Tactic.SplitIfs
import Restyle.Token.Lexer

/-!
# Where a token ends

The lexer decides how far a token reaches by looking at the characters of the
token and at one or two characters after it.  This file says what it looks for
there, so that the text after a token can be changed without the token being
read differently.

`Shift kind tail tail'` lists the changes of the tail that do no harm to a token
of the given kind:

* the tail may become empty, or come to start with a line end;
* it may come to start with a separator --- a space, a comma or a closing
  bracket --- unless the token may be a line comment, which would swallow it;
* it may keep its first character, if a point in front does not come to stand
  before a digit and a slash in front still opens the comment that it opened;
* it may change in any way after a bracket or a delimiter.

The main result is `lexeme_append_shift`.  Its proof goes through the functions that
measure a token, one lemma for each.  Those for block comments, strings and
quoted names find the end of the token inside the token and never see the tail;
those for names, numbers and operators stop at the first character of the tail,
and these are the ones that the conditions above are about.
-/

namespace Restyle
namespace Token

/-! ## Classes of characters -/

/-- A character that ends every token before it but a line comment. -/
def isSeparator (c : Char) : Bool := isSpaceChar c || c == ',' || c == ')' || c == ']'

/-- A character of layout: it belongs to a space or ends a line. -/
def isLayoutChar (c : Char) : Bool := isSpaceChar c || isLineEnd c

theorem isSpaceChar_iff {c : Char} :
    isSpaceChar c = true ↔ c = ' ' ∨ c = '\t' ∨ c = '\x0b' ∨ c = '\x0c' := by
  simp [isSpaceChar, or_assoc]

theorem isLineEnd_iff {c : Char} : isLineEnd c = true ↔ c = '\n' ∨ c = '\r' := by
  simp [isLineEnd]

theorem isSeparator_iff {c : Char} :
    isSeparator c = true ↔ isSpaceChar c = true ∨ c = ',' ∨ c = ')' ∨ c = ']' := by
  simp [isSeparator, or_assoc]

/-- A property that fails at every separator and at every line end. -/
def StopsAtGaps (p : Char → Bool) : Prop :=
  ∀ c, isSeparator c = true ∨ isLineEnd c = true → p c = false

/-- There are nine characters to look at. -/
theorem stopsAtGaps_of_all {p : Char → Bool}
    (h : [' ', '\t', '\x0b', '\x0c', ',', ')', ']', '\n', '\r'].all (!p ·) = true) :
    StopsAtGaps p := by
  intro c hc
  have hmem : c ∈ [' ', '\t', '\x0b', '\x0c', ',', ')', ']', '\n', '\r'] := by
    rw [isSeparator_iff, isSpaceChar_iff, isLineEnd_iff] at hc
    simp only [List.mem_cons, List.not_mem_nil, or_false]
    tauto
  simpa using List.all_eq_true.1 h c hmem

theorem stopsAtGaps_continuesName : StopsAtGaps continuesName :=
  stopsAtGaps_of_all (by decide)

theorem stopsAtGaps_continuesWord : StopsAtGaps continuesWord :=
  stopsAtGaps_of_all (by decide)

theorem stopsAtGaps_isOperatorChar : StopsAtGaps isOperatorChar :=
  stopsAtGaps_of_all (by decide)

theorem stopsAtGaps_isDigit : StopsAtGaps isDigit :=
  stopsAtGaps_of_all (by decide)

theorem stopsAtGaps_isSlashOrStar : StopsAtGaps fun c => c == '/' || c == '*' :=
  stopsAtGaps_of_all (by decide)

theorem stopsAtGaps_isQuote : StopsAtGaps (· == '"') :=
  stopsAtGaps_of_all (by decide)

/-- A digit continues a word.  There are ten of them. -/
theorem continuesWord_of_isDigit {c : Char} (h : isDigit c = true) : continuesWord c = true := by
  have hnum : 48 ≤ c.toNat ∧ c.toNat ≤ 57 := by
    simp only [isDigit, Bool.and_eq_true, decide_eq_true_eq] at h
    exact h
  have hc : Text.isNumeral c = true := by
    unfold Text.isNumeral Text.numerals Text.inRanges
    rw [if_neg (by simp only []; omega), if_pos (by simp only []; omega)]
  simp [continuesWord, Text.isLetterOrNumeral, hc]

/-! ## Changes of the tail -/

/-- The changes of the text after a token of a kind that leave the token as it
is. -/
inductive Shift (kind : Kind) : List Char → List Char → Prop
  /-- Brackets and delimiters end by themselves. -/
  | closed {tail tail' : List Char}
      (h : kind = .startOfScope ∨ kind = .endOfScope ∨ kind = .delimiter) : Shift kind tail tail'
  /-- Nothing follows any more. -/
  | ended {tail : List Char} : Shift kind tail []
  /-- A line end follows. -/
  | lineEnd {tail rest : List Char} {c : Char} (h : isLineEnd c = true) :
      Shift kind tail (c :: rest)
  /-- A separator follows, and the token was not a line comment: either by its
  kind, or because something on the same line followed it before. -/
  | separator {tail rest : List Char} {c : Char} (h : isSeparator c = true)
      (hkind : kind ≠ .comment ∨ ∃ d more, tail = d :: more ∧ isLineEnd d = false) :
      Shift kind tail (c :: rest)
  /-- The same character follows. -/
  | same {more more' : List Char} {c : Char}
      (hpoint : c = '.' → startsWithDigit more' = true → startsWithDigit more = true)
      (hslash : c = '/' → opensComment more = true → opensComment more' = true) :
      Shift kind (c :: more) (c :: more')

/-- The kinds for which the tail is looked at. -/
def LooksAhead (kind : Kind) : Prop :=
  kind ≠ .comment ∧ kind ≠ .startOfScope ∧ kind ≠ .endOfScope ∧ kind ≠ .delimiter

theorem LooksAhead.not_closed {kind : Kind} (hkind : LooksAhead kind) :
    ¬ (kind = .startOfScope ∨ kind = .endOfScope ∨ kind = .delimiter) := by
  rintro (h | h | h)
  · exact hkind.2.1 h
  · exact hkind.2.2.1 h
  · exact hkind.2.2.2 h

/-- A class of characters that stops at gaps still stops after a change of the
tail. -/
theorem Shift.stops {kind : Kind} {tail tail' : List Char} {p : Char → Bool}
    (hs : Shift kind tail tail') (hkind : LooksAhead kind) (hp : StopsAtGaps p)
    (h : ∀ c ∈ tail.head?, p c = false) : ∀ c ∈ tail'.head?, p c = false := by
  cases hs with
  | closed hk => exact absurd hk hkind.not_closed
  | ended => simp
  | @lineEnd _ rest d hd => simpa using hp d (Or.inr hd)
  | @separator _ rest d hd _ => simpa using hp d (Or.inl hd)
  | same => simpa using h

/-! ## Runs of characters -/

theorem run_append_eq_length_iff {p : Char → Bool} {xs tail : List Char} :
    run p (xs ++ tail) = xs.length ↔
      (∀ x ∈ xs, p x = true) ∧ ∀ c ∈ tail.head?, p c = false := by
  induction xs with
  | nil =>
    cases tail with
    | nil => simp [run]
    | cons c tail => cases hc : p c <;> simp [run, hc]
  | cons x xs ih =>
    have hrun : run p (x :: xs ++ tail) = if p x then run p (xs ++ tail) + 1 else 0 := by
      cases hx : p x <;> simp [run, hx]
    rw [hrun, List.length_cons]
    cases hx : p x with
    | false => simp [hx]
    | true => simp [hx, ih]

theorem run_append_shift {kind : Kind} {p : Char → Bool} {xs tail tail' : List Char}
    (hkind : LooksAhead kind) (hp : StopsAtGaps p) (hs : Shift kind tail tail')
    (h : run p (xs ++ tail) = xs.length) : run p (xs ++ tail') = xs.length := by
  rw [run_append_eq_length_iff] at h ⊢
  exact ⟨h.1, hs.stops hkind hp h.2⟩

/-! ## Numbers and operators

Both walk through the token one character at a time, and both look one character
further than they take: a number at the digit after a point, an operator at the
second character of a comment. -/

theorem numberTail_eq_zero_iff {tail : List Char} :
    numberTail tail = 0 ↔
      (∀ c ∈ tail.head?, continuesWord c = false) ∧
        ∀ more, tail = '.' :: more → startsWithDigit more = false := by
  cases tail with
  | nil => simp [numberTail]
  | cons c rest =>
    have hpoint : continuesWord '.' = false := by decide
    by_cases hc : c = '.'
    · subst hc
      cases hd : startsWithDigit rest <;> simp [numberTail, hd, hpoint]
    · cases hw : continuesWord c <;> simp [numberTail, hc, hw]

theorem numberTail_append_shift {kind : Kind} {tail tail' : List Char}
    (hkind : LooksAhead kind) (hs : Shift kind tail tail') :
    ∀ xs : List Char, numberTail (xs ++ tail) = xs.length → numberTail (xs ++ tail') = xs.length
  | [], h => by
    simp only [List.nil_append, List.length_nil, numberTail_eq_zero_iff] at h ⊢
    refine ⟨hs.stops hkind stopsAtGaps_continuesWord h.1, ?_⟩
    rintro more' rfl
    cases hs with
    | closed hk => exact absurd hk hkind.not_closed
    | lineEnd hd => exact absurd hd (by decide)
    | separator hd _ => exact absurd hd (by decide)
    | @same more _ _ hpoint _ =>
      cases hd : startsWithDigit more' with
      | false => rfl
      | true => exact absurd (hpoint rfl hd) (by simp [h.2 more rfl])
  | x :: xs, h => by
    have ih := numberTail_append_shift hkind hs xs
    simp only [List.cons_append, numberTail, List.length_cons] at h ⊢
    by_cases hx : x = '.'
    · rw [if_pos hx] at h ⊢
      cases xs with
      | nil =>
        -- the point is the last character, so the digit after it is not in the token
        exfalso
        split_ifs at h with hd
        · simp only [List.nil_append, List.length_nil, Nat.add_right_cancel_iff] at h hd
          cases tail with
          | nil => simp [startsWithDigit] at hd
          | cons c rest =>
            have hw := (numberTail_eq_zero_iff.1 h).1 c rfl
            rw [continuesWord_of_isDigit hd] at hw
            exact absurd hw (by decide)
      | cons y ys =>
        split_ifs at h with hd
        · have hd' : startsWithDigit (y :: ys ++ tail') = true := hd
          rw [if_pos hd', ih (by omega)]
    · rw [if_neg hx] at h ⊢
      split_ifs at h with hw
      · rw [if_pos hw, ih (by omega)]

theorem opensComment_cons (c : Char) (rest : List Char) :
    opensComment (c :: rest) = (c == '/' || c == '*') := by
  unfold opensComment
  split <;> simp_all

theorem opensComment_of_shift {kind : Kind} {tail tail' : List Char}
    (hkind : LooksAhead kind) (hs : Shift kind tail tail')
    (h : opensComment tail = false) : opensComment tail' = false := by
  cases hs with
  | closed hk => exact absurd hk hkind.not_closed
  | ended => rfl
  | @lineEnd _ rest c hc => rw [opensComment_cons]; exact stopsAtGaps_isSlashOrStar c (Or.inr hc)
  | @separator _ rest c hc _ =>
    rw [opensComment_cons]; exact stopsAtGaps_isSlashOrStar c (Or.inl hc)
  | same => rwa [opensComment_cons] at h ⊢

theorem operatorTail_eq_zero_iff {tail : List Char} :
    operatorTail tail = 0 ↔
      ∀ c more, tail = c :: more →
        isOperatorChar c = false ∨ (c = '/' ∧ opensComment more = true) := by
  cases tail with
  | nil => simp [operatorTail]
  | cons c rest =>
    cases hc : isOperatorChar c <;> simp [operatorTail, hc]

theorem operatorTail_append_shift {kind : Kind} {tail tail' : List Char}
    (hkind : LooksAhead kind) (hs : Shift kind tail tail') :
    ∀ xs : List Char,
      operatorTail (xs ++ tail) = xs.length → operatorTail (xs ++ tail') = xs.length
  | [], h => by
    simp only [List.nil_append, List.length_nil, operatorTail_eq_zero_iff] at h ⊢
    rintro c more' rfl
    cases hs with
    | closed hk => exact absurd hk hkind.not_closed
    | lineEnd hd => exact Or.inl (stopsAtGaps_isOperatorChar c (Or.inr hd))
    | separator hd _ => exact Or.inl (stopsAtGaps_isOperatorChar c (Or.inl hd))
    | @same more _ _ _ hslash =>
      exact (h c more rfl).imp_right fun hc => ⟨hc.1, hslash hc.1 hc.2⟩
  | x :: xs, h => by
    have ih := operatorTail_append_shift hkind hs xs
    simp only [List.cons_append, operatorTail, List.length_cons] at h ⊢
    split_ifs at h with hx hslash
    · simp only [Nat.add_right_cancel_iff] at h
      have hslash' : ¬ ((decide (x = '/') && opensComment (xs ++ tail')) = true) := by
        simp only [Bool.and_eq_true, decide_eq_true_eq, not_and, Bool.not_eq_true] at hslash ⊢
        intro hx
        have := hslash hx
        cases xs with
        | nil => exact opensComment_of_shift hkind hs this
        | cons y ys => rwa [List.cons_append, opensComment_cons] at this ⊢
      rw [if_neg hx, if_neg hslash', ih h]

/-! ## Comments, strings and quoted names

These close inside the token, so the tail does not matter at all. -/

theorem commentTail?_pos {depth : Nat} {cs : List Char} {n : Nat}
    (h : commentTail? depth cs = some n) : 2 ≤ n := by
  fun_induction commentTail? depth cs generalizing n with
  | case1 depth rest ih =>
    obtain ⟨m, -, rfl⟩ := Option.map_eq_some_iff.1 h
    omega
  | case2 rest => simp at h; omega
  | case3 rest outer ih =>
    obtain ⟨m, -, rfl⟩ := Option.map_eq_some_iff.1 h
    omega
  | case4 depth c rest _ _ ih =>
    obtain ⟨m, hm, rfl⟩ := Option.map_eq_some_iff.1 h
    have := ih hm
    omega
  | case5 => simp at h

theorem commentTail?_cons_cons (depth : Nat) (x y : Char) (rest : List Char) :
    commentTail? depth (x :: y :: rest) =
      if x = '/' ∧ y = '*' then (commentTail? (depth + 1) rest).map (· + 2)
      else if x = '*' ∧ y = '/' then
        match depth with
        | 0 => some 2
        | outer + 1 => (commentTail? outer rest).map (· + 2)
      else (commentTail? depth (y :: rest)).map (· + 1) := by
  rw [commentTail?.eq_def]
  split
  · rename_i rest' heq
    obtain ⟨rfl, rfl, rfl⟩ : x = '/' ∧ y = '*' ∧ rest = rest' := by simpa using heq
    simp
  · rename_i rest' heq
    obtain ⟨rfl, rfl, rfl⟩ : x = '*' ∧ y = '/' ∧ rest = rest' := by simpa using heq
    cases depth <;> simp
  · rename_i c rest' hopen hclose heq
    obtain ⟨rfl, rfl⟩ : x = c ∧ y :: rest = rest' := by simpa using heq
    rw [if_neg fun h => hopen rest h.1 (by rw [h.2]), if_neg fun h => hclose rest h.1 (by rw [h.2])]
  · rename_i heq
    simp at heq

theorem commentTail?_append {tail : List Char} (tail' : List Char) :
    ∀ (xs : List Char) {depth : Nat}, commentTail? depth (xs ++ tail) = some xs.length →
      commentTail? depth (xs ++ tail') = some xs.length
  | [], _, h => absurd (commentTail?_pos h) (by simp)
  | [_], _, h => absurd (commentTail?_pos h) (by simp)
  | x :: y :: ys, depth, h => by
    simp only [List.cons_append, commentTail?_cons_cons, List.length_cons] at h ⊢
    split_ifs at h ⊢ with hopen hclose
    · obtain ⟨m, hm, hlen⟩ := Option.map_eq_some_iff.1 h
      obtain rfl : m = ys.length := by omega
      rw [commentTail?_append tail' _ hm, Option.map_some]
    · cases depth with
      | zero => exact h
      | succ outer =>
        obtain ⟨m, hm, hlen⟩ := Option.map_eq_some_iff.1 h
        obtain rfl : m = ys.length := by omega
        simp only [commentTail?_append tail' _ hm, Option.map_some]
    · obtain ⟨m, hm, hlen⟩ := Option.map_eq_some_iff.1 h
      obtain rfl : m = (y :: ys).length := by simp only [List.length_cons]; omega
      have ih := commentTail?_append tail' (y :: ys) hm
      rw [List.cons_append] at ih
      rw [ih, Option.map_some, List.length_cons]
termination_by xs => xs.length

theorem longStringTail?_pos {cs : List Char} {n : Nat} (h : longStringTail? cs = some n) :
    3 ≤ n := by
  fun_induction longStringTail? cs generalizing n with
  | case1 c rest ih =>
    obtain ⟨m, hm, rfl⟩ := Option.map_eq_some_iff.1 h
    have := ih hm
    omega
  | case2 rest => simp at h; omega
  | case3 c rest _ _ ih =>
    obtain ⟨m, hm, rfl⟩ := Option.map_eq_some_iff.1 h
    have := ih hm
    omega
  | case4 => simp at h

theorem longStringTail?_cons_cons_cons (x y z : Char) (rest : List Char) :
    longStringTail? (x :: y :: z :: rest) =
      if x = '\\' then (longStringTail? (z :: rest)).map (· + 2)
      else if x = '"' ∧ y = '"' ∧ z = '"' then some 3
      else (longStringTail? (y :: z :: rest)).map (· + 1) := by
  rw [longStringTail?.eq_def]
  split
  · rename_i c rest' heq
    obtain ⟨rfl, rfl, rfl⟩ : x = '\\' ∧ y = c ∧ z :: rest = rest' := by simpa using heq
    simp
  · rename_i rest' heq
    obtain ⟨rfl, rfl, rfl, rfl⟩ : x = '"' ∧ y = '"' ∧ z = '"' ∧ rest = rest' := by
      simpa using heq
    simp
  · rename_i c rest' hescape hclose heq
    obtain ⟨rfl, rfl⟩ : x = c ∧ y :: z :: rest = rest' := by simpa using heq
    rw [if_neg fun h => hescape y (z :: rest) h rfl,
      if_neg fun h => hclose rest h.1 (by rw [h.2.1, h.2.2])]
  · rename_i heq
    simp at heq

theorem longStringTail?_append {tail : List Char} (tail' : List Char) :
    ∀ xs : List Char, longStringTail? (xs ++ tail) = some xs.length →
      longStringTail? (xs ++ tail') = some xs.length
  | [], h => absurd (longStringTail?_pos h) (by simp)
  | [_], h => absurd (longStringTail?_pos h) (by simp)
  | [_, _], h => absurd (longStringTail?_pos h) (by simp)
  | x :: y :: z :: zs, h => by
    simp only [List.cons_append, longStringTail?_cons_cons_cons, List.length_cons] at h ⊢
    split_ifs at h ⊢ with hescape hclose
    · obtain ⟨m, hm, hlen⟩ := Option.map_eq_some_iff.1 h
      obtain rfl : m = (z :: zs).length := by simp only [List.length_cons]; omega
      have ih := longStringTail?_append tail' (z :: zs) hm
      rw [List.cons_append] at ih
      rw [ih, Option.map_some, List.length_cons]
    · exact h
    · obtain ⟨m, hm, hlen⟩ := Option.map_eq_some_iff.1 h
      obtain rfl : m = (y :: z :: zs).length := by simp only [List.length_cons]; omega
      have ih := longStringTail?_append tail' (y :: z :: zs) hm
      simp only [List.cons_append] at ih
      rw [ih, Option.map_some, List.length_cons]
      rfl
termination_by xs => xs.length

theorem stringTail?_pos {depth : Nat} {cs : List Char} {n : Nat}
    (h : stringTail? depth cs = some n) : 1 ≤ n := by
  cases cs with
  | nil => simp [stringTail?] at h
  | cons c rest =>
    rw [stringTail?.eq_def] at h
    simp only at h
    split at h
    · split_ifs at h
      · simp at h; omega
      · split at h
        · simp at h
        · obtain ⟨m, -, rfl⟩ := Option.map_eq_some_iff.1 h
          omega
        · obtain ⟨m, -, rfl⟩ := Option.map_eq_some_iff.1 h
          omega
      · obtain ⟨m, -, rfl⟩ := Option.map_eq_some_iff.1 h
        omega
    · split_ifs at h
      all_goals
        obtain ⟨m, -, rfl⟩ := Option.map_eq_some_iff.1 h
        omega

/-- A string outside an interpolation, with the character after a backslash. -/
theorem stringTail?_zero_cons (x : Char) (rest : List Char) :
    stringTail? 0 (x :: rest) =
      if x = '"' then some 1
      else if x = '\\' then
        rest.head?.bind fun y =>
          (stringTail? (if y = '(' then 1 else 0) rest.tail).map (· + 2)
      else if isLineEnd x then none
      else (stringTail? 0 rest).map (· + 1) := by
  rw [stringTail?.eq_def]
  simp only
  congr 2
  cases rest with
  | nil => rfl
  | cons y ys =>
    by_cases hy : y = '('
    · subst hy; simp
    · simp only [hy, List.head?_cons, Option.bind_some, if_false, List.tail_cons]

/-- A string inside an interpolation. -/
theorem stringTail?_succ_cons (outer : Nat) (x : Char) (rest : List Char) :
    stringTail? (outer + 1) (x :: rest) =
      if isLineEnd x then none
      else (stringTail? (if x = '(' then outer + 2 else if x = ')' then outer else outer + 1)
        rest).map (· + 1) := by
  rw [stringTail?.eq_def]
  simp only
  split_ifs <;> rfl

theorem stringTail?_append {tail : List Char} (tail' : List Char) :
    ∀ {xs : List Char} {depth : Nat}, stringTail? depth (xs ++ tail) = some xs.length →
      stringTail? depth (xs ++ tail') = some xs.length
  | [], _, h => absurd (stringTail?_pos h) (by simp)
  | x :: xs, 0, h => by
    simp only [List.cons_append, stringTail?_zero_cons, List.length_cons] at h ⊢
    split_ifs at h ⊢ with hquote hescape hend
    · exact h
    · cases xs with
      | nil =>
        -- the backslash would be the last character of the token
        obtain ⟨y, -, hy⟩ := Option.bind_eq_some_iff.1 h
        obtain ⟨m, -, hlen⟩ := Option.map_eq_some_iff.1 hy
        simp at hlen
      | cons y ys =>
        simp only [List.cons_append, List.head?_cons, Option.bind_some, List.tail_cons,
          List.length_cons] at h ⊢
        obtain ⟨m, hm, hlen⟩ := Option.map_eq_some_iff.1 h
        obtain rfl : m = ys.length := by omega
        rw [stringTail?_append tail' hm, Option.map_some]
    · obtain ⟨m, hm, hlen⟩ := Option.map_eq_some_iff.1 h
      obtain rfl : m = xs.length := by omega
      rw [stringTail?_append tail' hm, Option.map_some]
  | x :: xs, outer + 1, h => by
    simp only [List.cons_append, stringTail?_succ_cons, List.length_cons] at h ⊢
    split_ifs at h ⊢ with hend
    all_goals
      obtain ⟨m, hm, hlen⟩ := Option.map_eq_some_iff.1 h
      obtain rfl : m = xs.length := by omega
      rw [stringTail?_append tail' hm, Option.map_some]
termination_by xs => xs.length

theorem run_append_of_lt (p : Char → Bool) (tail tail' : List Char) :
    ∀ xs : List Char, run p (xs ++ tail) < xs.length → run p (xs ++ tail') = run p (xs ++ tail)
  | [], h => absurd h (by simp)
  | x :: xs, h => by
    cases hx : p x with
    | false => simp [run, hx]
    | true =>
      have ih := run_append_of_lt p tail tail' xs
      simp only [run, List.cons_append, List.takeWhile_cons, hx, if_true, List.length_cons,
        Nat.add_lt_add_iff_right, Nat.add_right_cancel_iff] at h ih ⊢
      exact ih h

theorem quotedNameTail?_append {xs tail : List Char} (tail' : List Char)
    (h : quotedNameTail? (xs ++ tail) = some xs.length) :
    quotedNameTail? (xs ++ tail') = some xs.length := by
  unfold quotedNameTail? at h ⊢
  simp only at h ⊢
  split_ifs at h with hzero hquote
  · have hlen : run (fun c => !(c == '\x60' || isLineEnd c)) (xs ++ tail) + 1 = xs.length :=
      Option.some.inj h
    rw [run_append_of_lt _ tail tail' _ (by omega), if_neg hzero, if_pos, h]
    rwa [List.getElem?_append_left (by omega)] at hquote ⊢

/-! ## What stands at the front of a text -/

theorem slashLexeme_cons (c : Char) (rest : List Char) :
    slashLexeme (c :: rest) =
      if c = '/' then .complete .comment (run (!isLineEnd ·) rest + 1)
      else if c = '*' then .orUnfinished .comment ((commentTail? 0 rest).map (· + 1))
      else .complete .operator (operatorTail (c :: rest)) := by
  unfold slashLexeme
  split <;> simp_all

theorem slashLexeme_of_not_opensComment {rest : List Char} (h : opensComment rest = false) :
    slashLexeme rest = .complete .operator (operatorTail rest) := by
  cases rest with
  | nil => rfl
  | cons c rest =>
    simp only [opensComment_cons, Bool.or_eq_false_iff, beq_eq_false_iff_ne] at h
    rw [slashLexeme_cons, if_neg h.1, if_neg h.2]

theorem looksAhead_operator : LooksAhead .operator := by simp [LooksAhead]

/-- A token that was not closed is not complete. -/
theorem orUnfinished_eq_complete_iff {kind kind' : Kind} {length : Option Nat} {n : Nat} :
    Lexeme.orUnfinished kind length = .complete kind' n ↔ kind' = kind ∧ length = some n := by
  cases length <;> simp [Lexeme.orUnfinished, eq_comm]

theorem ofLength?_eq_complete_iff {kind kind' : Kind} {length : Option Nat} {n : Nat} :
    Lexeme.ofLength? kind length = .complete kind' n ↔ kind' = kind ∧ length = some n := by
  cases length <;> simp [Lexeme.ofLength?, eq_comm]

/-- The text after a line comment is empty or starts with a line end, and keeps
doing so. -/
theorem run_not_lineEnd_append_shift {xs tail tail' : List Char}
    (h : run (!isLineEnd ·) (xs ++ tail) = xs.length) (hs : Shift .comment tail tail') :
    run (!isLineEnd ·) (xs ++ tail') = xs.length := by
  rw [run_append_eq_length_iff] at h ⊢
  refine ⟨h.1, ?_⟩
  cases hs with
  | closed hk => simp at hk
  | ended => simp
  | lineEnd hd => simpa using hd
  | separator _ hkind =>
    obtain hkind | ⟨d, more, rfl, hd⟩ := hkind
    · exact absurd rfl hkind
    · have := h.2 d rfl
      simp [hd] at this
  | same => simpa using h.2

/-- A slash alone is an operator, and the text after it opens no comment. -/
theorem slashLexeme_eq_complete_zero {kind : Kind} {tail : List Char}
    (h : slashLexeme tail = .complete kind 0) :
    kind = .operator ∧ opensComment tail = false ∧ operatorTail tail = 0 := by
  have hopens : opensComment tail = false := by
    cases tail with
    | nil => rfl
    | cons c rest =>
      rw [slashLexeme_cons] at h
      split_ifs at h with h1 h2
      · simp at h
      · obtain ⟨-, hlen⟩ := orUnfinished_eq_complete_iff.1 h
        simp at hlen
      · simp [opensComment_cons, h1, h2]
  rw [slashLexeme_of_not_opensComment hopens, Lexeme.complete.injEq] at h
  exact ⟨h.1.symm, hopens, h.2⟩

theorem slashLexeme_append_shift {kind : Kind} {more tail tail' : List Char}
    (h : slashLexeme (more ++ tail) = .complete kind more.length) (hs : Shift kind tail tail') :
    slashLexeme (more ++ tail') = .complete kind more.length := by
  cases more with
  | nil =>
    obtain ⟨rfl, hopens, hlen⟩ := slashLexeme_eq_complete_zero h
    have hopens' := opensComment_of_shift looksAhead_operator hs hopens
    have hlen' := operatorTail_append_shift looksAhead_operator hs [] hlen
    rw [List.nil_append, slashLexeme_of_not_opensComment hopens']
    rw [List.nil_append] at hlen'
    rw [hlen']
  | cons x xs =>
    rw [List.cons_append, slashLexeme_cons] at h ⊢
    split_ifs at h ⊢ with hline hblock
    · rw [Lexeme.complete.injEq] at h ⊢
      obtain ⟨rfl, hlen⟩ := h
      rw [List.length_cons, Nat.add_right_cancel_iff] at hlen ⊢
      exact ⟨rfl, run_not_lineEnd_append_shift hlen hs⟩
    · obtain ⟨rfl, hlen⟩ := orUnfinished_eq_complete_iff.1 h
      obtain ⟨m, hm, hmlen⟩ := Option.map_eq_some_iff.1 hlen
      obtain rfl : m = xs.length := by simpa using hmlen
      rw [commentTail?_append tail' _ hm]
      rfl
    · rw [Lexeme.complete.injEq] at h ⊢
      obtain ⟨rfl, hlen⟩ := h
      exact ⟨rfl, operatorTail_append_shift looksAhead_operator hs (x :: xs) hlen⟩

theorem quoteLexeme_of_not_long {cs : List Char} (h : ∀ rest, cs ≠ '"' :: '"' :: rest) :
    quoteLexeme cs = .ofLength? .stringLiteral (stringTail? 0 cs) := by
  unfold quoteLexeme
  split
  · exact absurd rfl (h _)
  · rfl

theorem looksAhead_stringLiteral : LooksAhead .stringLiteral := by simp [LooksAhead]

theorem quoteLexeme_append_shift {kind : Kind} {more tail tail' : List Char}
    (h : quoteLexeme (more ++ tail) = .complete kind more.length) (hs : Shift kind tail tail') :
    quoteLexeme (more ++ tail') = .complete kind more.length := by
  by_cases hlong : ∃ rest, more ++ tail = '"' :: '"' :: rest
  · obtain ⟨rest, hrest⟩ := hlong
    rw [hrest] at h
    obtain ⟨rfl, hlen⟩ := orUnfinished_eq_complete_iff.1 h
    obtain ⟨m, hm, hmlen⟩ := Option.map_eq_some_iff.1 hlen
    match more, hrest, hmlen with
    | x :: y :: ys, hrest, hmlen =>
      obtain ⟨rfl, rfl, rfl⟩ : x = '"' ∧ y = '"' ∧ ys ++ tail = rest := by simpa using hrest
      obtain rfl : m = ys.length := by simpa using hmlen
      have hm' := longStringTail?_append tail' _ hm
      simp only [List.cons_append, quoteLexeme, hm', Option.map_some]
      rfl
  · have hshort : ∀ rest, more ++ tail ≠ '"' :: '"' :: rest := fun rest hr => hlong ⟨rest, hr⟩
    rw [quoteLexeme_of_not_long hshort] at h
    obtain ⟨rfl, hlen⟩ := ofLength?_eq_complete_iff.1 h
    rw [quoteLexeme_of_not_long, stringTail?_append tail' hlen]
    · rfl
    · -- the second quote of an empty string is not followed by a third
      intro rest hr
      match more, hlen, hshort, hr with
      | [], hlen, _, _ => exact absurd (stringTail?_pos hlen) (by simp)
      | [x], hlen, hshort, hr =>
        obtain ⟨rfl, rfl⟩ : x = '"' ∧ tail' = '"' :: rest := by simpa using hr
        have hstop : ∀ c ∈ tail.head?, (c == '"') = false := by
          cases tail with
          | nil => simp
          | cons c tail =>
            simp only [List.head?_cons, Option.mem_some_iff, beq_eq_false_iff_ne]
            rintro c' rfl rfl
            exact hshort tail rfl
        have := hs.stops looksAhead_stringLiteral stopsAtGaps_isQuote hstop '"' rfl
        exact absurd this (by decide)
      | x :: y :: ys, _, hshort, hr =>
        obtain ⟨rfl, rfl, -⟩ : x = '"' ∧ y = '"' ∧ ys ++ tail' = rest := by simpa using hr
        exact hshort (ys ++ tail) rfl

theorem nameLexeme_append_shift {kind : Kind} {c : Char} {more tail tail' : List Char}
    (h : nameLexeme c (more ++ tail) = .complete kind more.length) (hs : Shift kind tail tail') :
    nameLexeme c (more ++ tail') = .complete kind more.length := by
  have hrun : run continuesName (more ++ tail) = more.length ∧ LooksAhead kind := by
    unfold nameLexeme at h
    simp only at h
    split_ifs at h
    all_goals
      obtain ⟨rfl, hlen⟩ := Lexeme.complete.inj h
      exact ⟨hlen, by simp [LooksAhead]⟩
  obtain ⟨hrun, hkind⟩ := hrun
  have hrun' := run_append_shift hkind stopsAtGaps_continuesName hs hrun
  unfold nameLexeme at h ⊢
  simp only [hrun, hrun', List.take_left'] at h ⊢
  exact h

theorem markedLexeme_append_shift {kind : Kind} {more tail tail' : List Char}
    (h : markedLexeme (more ++ tail) = .complete kind more.length) (hs : Shift kind tail tail') :
    markedLexeme (more ++ tail') = .complete kind more.length := by
  have hrun : run continuesWord (more ++ tail) = more.length ∧ kind = .keyword := by
    unfold markedLexeme at h
    split at h
    · simp at h
    · obtain ⟨rfl, hlen⟩ := Lexeme.complete.inj h
      exact ⟨hlen, rfl⟩
  obtain ⟨hrun, rfl⟩ := hrun
  have hrun' := run_append_shift (by simp [LooksAhead]) stopsAtGaps_continuesWord hs hrun
  unfold markedLexeme at h ⊢
  rw [hrun']
  rwa [hrun] at h

/-- **What a token is does not depend on what follows it**, as long as the tail
changes in one of the ways that `Shift` lists. -/
theorem lexeme_append_shift {kind : Kind} {c : Char} {more tail tail' : List Char}
    (hkind : kind ≠ .space ∧ kind ≠ .linebreak)
    (h : lexeme c (more ++ tail) = .complete kind more.length) (hs : Shift kind tail tail') :
    lexeme c (more ++ tail') = .complete kind more.length := by
  unfold lexeme at h ⊢
  by_cases hspace : isSpaceChar c = true
  · rw [if_pos hspace] at h
    exact absurd (Lexeme.complete.inj h).1.symm hkind.1
  rw [if_neg hspace] at h ⊢
  by_cases hlf : c = '\n'
  · rw [if_pos hlf] at h
    exact absurd (Lexeme.complete.inj h).1.symm hkind.2
  rw [if_neg hlf] at h ⊢
  by_cases hcr : c = '\r'
  · rw [if_pos hcr] at h
    exact absurd (Lexeme.complete.inj h).1.symm hkind.2
  rw [if_neg hcr] at h ⊢
  by_cases hslash : c = '/'
  · rw [if_pos hslash] at h ⊢
    exact slashLexeme_append_shift h hs
  rw [if_neg hslash] at h ⊢
  by_cases hquote : c = '"'
  · rw [if_pos hquote] at h ⊢
    exact quoteLexeme_append_shift h hs
  rw [if_neg hquote] at h ⊢
  by_cases hback : c = '\x60'
  · rw [if_pos hback] at h ⊢
    obtain ⟨rfl, hlen⟩ := ofLength?_eq_complete_iff.1 h
    rw [quotedNameTail?_append tail' hlen]
    rfl
  rw [if_neg hback] at h ⊢
  by_cases hdigit : isDigit c = true
  · rw [if_pos hdigit, Lexeme.complete.injEq] at h ⊢
    obtain ⟨rfl, hlen⟩ := h
    exact ⟨rfl, numberTail_append_shift (by simp [LooksAhead]) hs _ hlen⟩
  rw [if_neg hdigit] at h ⊢
  by_cases hname : startsName c = true
  · rw [if_pos hname] at h ⊢
    exact nameLexeme_append_shift h hs
  rw [if_neg hname] at h ⊢
  by_cases hmark : (decide (c = '#') || decide (c = '@')) = true
  · rw [if_pos hmark] at h ⊢
    exact markedLexeme_append_shift h hs
  rw [if_neg hmark] at h ⊢
  by_cases hop : isOperatorChar c = true
  · rw [if_pos hop, Lexeme.complete.injEq] at h ⊢
    obtain ⟨rfl, hlen⟩ := h
    exact ⟨rfl, operatorTail_append_shift looksAhead_operator hs _ hlen⟩
  rw [if_neg hop] at h ⊢
  exact h

/-! ## No token reaches beyond the text -/

theorem run_le_length (p : Char → Bool) (cs : List Char) : run p cs ≤ cs.length :=
  (List.takeWhile_sublist p).length_le

theorem numberTail_le_length (cs : List Char) : numberTail cs ≤ cs.length := by
  fun_induction numberTail cs <;> simp_all

theorem operatorTail_le_length (cs : List Char) : operatorTail cs ≤ cs.length := by
  fun_induction operatorTail cs <;> simp_all

theorem commentTail?_le_length {depth : Nat} {cs : List Char} {n : Nat}
    (h : commentTail? depth cs = some n) : n ≤ cs.length := by
  fun_induction commentTail? depth cs generalizing n with
  | case1 depth rest ih =>
    obtain ⟨m, hm, rfl⟩ := Option.map_eq_some_iff.1 h
    simpa using ih hm
  | case2 rest => simp at h ⊢; omega
  | case3 rest outer ih =>
    obtain ⟨m, hm, rfl⟩ := Option.map_eq_some_iff.1 h
    simpa using ih hm
  | case4 depth c rest _ _ ih =>
    obtain ⟨m, hm, rfl⟩ := Option.map_eq_some_iff.1 h
    simpa using ih hm
  | case5 => simp at h

theorem longStringTail?_le_length {cs : List Char} {n : Nat} (h : longStringTail? cs = some n) :
    n ≤ cs.length := by
  fun_induction longStringTail? cs generalizing n with
  | case1 c rest ih =>
    obtain ⟨m, hm, rfl⟩ := Option.map_eq_some_iff.1 h
    simpa using ih hm
  | case2 rest => simp at h ⊢; omega
  | case3 c rest _ _ ih =>
    obtain ⟨m, hm, rfl⟩ := Option.map_eq_some_iff.1 h
    simpa using ih hm
  | case4 => simp at h

theorem stringTail?_le_length : ∀ {cs : List Char} {depth n : Nat},
    stringTail? depth cs = some n → n ≤ cs.length
  | [], _, _, h => by simp [stringTail?] at h
  | x :: rest, 0, n, h => by
    rw [stringTail?_zero_cons] at h
    split_ifs at h
    · simp only [Option.some.injEq] at h
      simp only [List.length_cons]
      omega
    · obtain ⟨y, hy, h⟩ := Option.bind_eq_some_iff.1 h
      obtain ⟨m, hm, rfl⟩ := Option.map_eq_some_iff.1 h
      cases rest with
      | nil => simp at hy
      | cons z rest => simpa using stringTail?_le_length hm
    · obtain ⟨m, hm, rfl⟩ := Option.map_eq_some_iff.1 h
      simpa using stringTail?_le_length hm
  | x :: rest, outer + 1, n, h => by
    rw [stringTail?_succ_cons] at h
    split_ifs at h
    all_goals
      obtain ⟨m, hm, rfl⟩ := Option.map_eq_some_iff.1 h
      simpa using stringTail?_le_length hm
termination_by cs => cs.length

theorem quotedNameTail?_le_length {cs : List Char} {n : Nat} (h : quotedNameTail? cs = some n) :
    n ≤ cs.length := by
  unfold quotedNameTail? at h
  simp only at h
  split_ifs at h with hzero hquote
  obtain rfl := Option.some.inj h
  exact (List.getElem?_eq_some_iff.1 hquote).1

/-- What a lexeme says about the kind and the length of a token that starts with
a character that is not a layout character. -/
def Lexeme.Fits (length : Nat) : Lexeme → Prop
  | .complete kind more =>
    kind ≠ .space ∧ kind ≠ .linebreak ∧ kind ≠ .error ∧ more ≤ length
  | .unfinished kind => kind = .comment ∨ kind = .stringLiteral
  | .unexpected => True

theorem fits_slashLexeme (rest : List Char) : (slashLexeme rest).Fits rest.length := by
  unfold slashLexeme
  split
  · simpa [Lexeme.Fits] using run_le_length _ _
  · rename_i rest
    cases h : commentTail? 0 rest with
    | none => simp [Lexeme.orUnfinished, Lexeme.Fits]
    | some n => simpa [Lexeme.orUnfinished, Lexeme.Fits] using commentTail?_le_length h
  · simpa [Lexeme.Fits] using operatorTail_le_length _

theorem fits_quoteLexeme (rest : List Char) : (quoteLexeme rest).Fits rest.length := by
  unfold quoteLexeme
  split
  · rename_i rest
    cases h : longStringTail? rest with
    | none => simp [Lexeme.orUnfinished, Lexeme.Fits]
    | some n => simpa [Lexeme.orUnfinished, Lexeme.Fits] using longStringTail?_le_length h
  · cases h : stringTail? 0 rest with
    | none => simp [Lexeme.ofLength?, Lexeme.Fits]
    | some n => simpa [Lexeme.ofLength?, Lexeme.Fits] using stringTail?_le_length h

theorem fits_nameLexeme (c : Char) (rest : List Char) :
    (nameLexeme c rest).Fits rest.length := by
  unfold nameLexeme
  simp only
  split <;> simpa [Lexeme.Fits] using run_le_length _ _

theorem fits_markedLexeme (rest : List Char) : (markedLexeme rest).Fits rest.length := by
  unfold markedLexeme
  split
  · trivial
  · simpa [Lexeme.Fits] using run_le_length _ _

/-- Both branches of a case distinction fit. -/
theorem Lexeme.Fits.ite {p : Prop} [Decidable p] {length : Nat} {l l' : Lexeme}
    (hpos : p → l.Fits length) (hneg : ¬ p → l'.Fits length) :
    (if p then l else l').Fits length := by
  by_cases hp : p
  · rw [if_pos hp]
    exact hpos hp
  · rw [if_neg hp]
    exact hneg hp

/-- **A character that is not a layout character starts no blank.**  The token it
starts, if there is one, is code and lies within the text. -/
theorem fits_lexeme {c : Char} (h : isLayoutChar c = false) (rest : List Char) :
    (lexeme c rest).Fits rest.length := by
  simp only [isLayoutChar, isLineEnd, Bool.or_eq_false_iff, beq_eq_false_iff_ne] at h
  obtain ⟨hspace, hlf, hcr⟩ := h
  unfold lexeme
  rw [if_neg (by simp [hspace]), if_neg hlf, if_neg hcr]
  refine .ite (fun _ => fits_slashLexeme rest) fun _ => ?_
  refine .ite (fun _ => fits_quoteLexeme rest) fun _ => ?_
  refine .ite (fun _ => ?_) fun _ => ?_
  · cases hq : quotedNameTail? rest with
    | none => trivial
    | some n => simpa [Lexeme.ofLength?, Lexeme.Fits] using quotedNameTail?_le_length hq
  refine .ite (fun _ => by simpa [Lexeme.Fits] using numberTail_le_length rest) fun _ => ?_
  refine .ite (fun _ => fits_nameLexeme c rest) fun _ => ?_
  refine .ite (fun _ => fits_markedLexeme rest) fun _ => ?_
  refine .ite (fun _ => by simpa [Lexeme.Fits] using operatorTail_le_length rest) fun _ => ?_
  refine .ite (fun _ => by simp [Lexeme.Fits]) fun _ => ?_
  refine .ite (fun _ => by simp [Lexeme.Fits]) fun _ => ?_
  exact .ite (fun _ => by simp [Lexeme.Fits]) fun _ => trivial

end Token
end Restyle
