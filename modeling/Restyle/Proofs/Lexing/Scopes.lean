import Restyle.Proofs.Lexing.Forms

/-!
# Scopes

A scope reaches from an opening bracket to the closing bracket that belongs to it.  The lexer keeps
a stack of the brackets that are open; a reader of the tokens sees no stack, but can say that every
bracket in a stretch of tokens is closed again.  This file says what scopes are in these terms and
that the stack of the lexer is about them.

* `Balanced`: every bracket in a list of tokens belongs to another one in the list.
* `Innermost front before o`: after `front`, the opening bracket `o` behind `before` is the
  innermost one that is still open.  `Innermost.unique`: there is at most one.
* `Leaves mark front marks`: a stack that holds a mark for each bracket that `front` leaves open.
  `Leaves.concat`: how it changes with one token more.
* `exists_holds`: wherever one stops in a text, the stack of the lexer holds the brackets that are
  open there.  From this come the scopes of a text: `exists_innermost_of_scan` for those that are
  closed, `balanced_scan` for a text that can be read to its end.
-/

namespace Restyle
namespace Token

/-! ## Stretches in which every scope is closed -/

/-- Whether a token opens or closes a scope. -/
def isBracket (t : Token) : Bool := t.kind == .startOfScope || t.kind == .endOfScope

/-- An opening bracket and the closing one that belongs to it. -/
inductive Pair : Token → Token → Prop
  /-- Round brackets. -/
  | round : Pair ⟨.startOfScope, "("⟩ ⟨.endOfScope, ")"⟩
  /-- Square brackets. -/
  | square : Pair ⟨.startOfScope, "["⟩ ⟨.endOfScope, "]"⟩
  /-- Braces. -/
  | brace : Pair ⟨.startOfScope, openBrace⟩ ⟨.endOfScope, closeBrace⟩

/-- Tokens in which every bracket belongs to another one. -/
inductive Balanced : List Token → Prop
  /-- No tokens. -/
  | nil : Balanced []
  /-- A token that is not a bracket. -/
  | plain {t : Token} {rest : List Token} (ht : t.isBracket = false) (hrest : Balanced rest) :
      Balanced (t :: rest)
  /-- A scope. -/
  | scope {o c : Token} {inner rest : List Token} (hpair : Pair o c) (hinner : Balanced inner)
      (hrest : Balanced rest) : Balanced (o :: (inner ++ c :: rest))

/-- After `front`, the opening bracket `o` behind `before` is open, and all brackets behind `o` are
closed. -/
def Innermost (front before : List Token) (o : Token) : Prop :=
  o.kind = .startOfScope ∧ ∃ inner, Balanced inner ∧ front = before ++ o :: inner

theorem Pair.kind_left {o c : Token} (h : Pair o c) : o.kind = .startOfScope := by
  cases h <;> rfl

theorem Pair.kind_right {o c : Token} (h : Pair o c) : c.kind = .endOfScope := by
  cases h <;> rfl

theorem isBracket_of_isLayout {t : Token} (h : t.isLayout = true) : t.isBracket = false := by
  simp only [isLayout, isSpace, isLinebreak, Bool.or_eq_true, beq_iff_eq] at h
  rcases h with h | h <;> simp [isBracket, h]

/-! ### Depth -/

/-- How many scopes a token adds to those that are open. -/
def rise (t : Token) : Int :=
  match t.kind with
  | .startOfScope => 1
  | .endOfScope => -1
  | _ => 0

/-- How many scopes more are open after some tokens than before. -/
def depth : List Token → Int
  | [] => 0
  | t :: ts => t.rise + depth ts

@[simp] theorem depth_nil : depth [] = 0 := rfl

@[simp] theorem depth_cons (t : Token) (ts : List Token) :
    depth (t :: ts) = t.rise + depth ts := rfl

@[simp] theorem depth_append (ts us : List Token) : depth (ts ++ us) = depth ts + depth us := by
  induction ts with
  | nil => rw [List.nil_append, depth_nil, Int.zero_add]
  | cons t ts ih => rw [List.cons_append, depth_cons, depth_cons, ih, Int.add_assoc]

theorem rise_of_opens {t : Token} (h : t.kind = .startOfScope) : t.rise = 1 := by simp [rise, h]

theorem rise_of_closes {t : Token} (h : t.kind = .endOfScope) : t.rise = -1 := by simp [rise, h]

theorem rise_of_not_isBracket {t : Token} (h : t.isBracket = false) : t.rise = 0 := by
  simp only [isBracket, Bool.or_eq_false_iff, beq_eq_false_iff_ne] at h
  unfold rise
  split
  · exact absurd ‹_› h.1
  · exact absurd ‹_› h.2
  · rfl

namespace Balanced

variable {ts us : List Token}

theorem append (hts : Balanced ts) (hus : Balanced us) : Balanced (ts ++ us) := by
  induction hts with
  | nil => exact hus
  | plain ht _ ih => exact .plain ht ih
  | scope hpair hinner _ _ ih =>
    rw [List.cons_append, List.append_assoc, List.cons_append]
    exact .scope hpair hinner ih

theorem of_not_isBracket (h : ∀ t ∈ ts, t.isBracket = false) : Balanced ts := by
  induction ts with
  | nil => exact .nil
  | cons t ts ih =>
    exact .plain (h t List.mem_cons_self) (ih fun u hu => h u (List.mem_cons_of_mem _ hu))

theorem depth_eq (h : Balanced ts) : depth ts = 0 := by
  induction h with
  | nil => rfl
  | plain ht _ ih => rw [depth_cons, rise_of_not_isBracket ht, ih, Int.zero_add]
  | scope hpair _ _ ihinner ihrest =>
    rw [depth_cons, depth_append, depth_cons, rise_of_opens hpair.kind_left,
      rise_of_closes hpair.kind_right, ihinner, ihrest]
    rfl

/-- The end of a balanced stretch opens no scope that it does not close. -/
theorem depth_suffix_le (h : Balanced ts) (hus : us <:+ ts) : depth us ≤ 0 := by
  induction h generalizing us with
  | nil => exact Int.le_of_eq (by rw [List.suffix_nil.1 hus, depth_nil])
  | @plain t rest ht hrest ih =>
    rcases List.suffix_cons_iff.1 hus with rfl | hus
    · exact Int.le_of_eq (Balanced.plain ht hrest).depth_eq
    · exact ih hus
  | @scope o c inner rest hpair hinner hrest ihinner ihrest =>
    rcases List.suffix_cons_iff.1 hus with rfl | ⟨front, hfront⟩
    · exact Int.le_of_eq (Balanced.scope hpair hinner hrest).depth_eq
    · rcases List.append_eq_append_iff.1 hfront with ⟨a, rfl, rfl⟩ | ⟨a, rfl, hrest'⟩
      · have ha := ihinner (List.suffix_append front a)
        rw [depth_append, depth_cons, rise_of_closes hpair.kind_right, hrest.depth_eq]
        omega
      · cases a with
        | nil =>
          rw [List.nil_append] at hrest'
          rw [← hrest', depth_cons, rise_of_closes hpair.kind_right, hrest.depth_eq]
          decide
        | cons x a =>
          rw [List.cons_append, List.cons.injEq] at hrest'
          exact ihrest ⟨a, hrest'.2.symm⟩

/-- No scope is still open at the end of a balanced stretch. -/
theorem not_innermost {before : List Token} {o : Token} (h : Balanced ts) :
    ¬ Innermost ts before o := by
  rintro ⟨ho, inner, hinner, rfl⟩
  have hle := h.depth_suffix_le (List.suffix_append before (o :: inner))
  rw [depth_cons, rise_of_opens ho, hinner.depth_eq] at hle
  omega

/-- **Every opening bracket of a balanced stretch is closed** by the one that belongs to it. -/
theorem exists_pair {before after : List Token} {o : Token} (h : Balanced ts)
    (hts : ts = before ++ o :: after) (ho : o.kind = .startOfScope) :
    ∃ inner c rest, after = inner ++ c :: rest ∧ Balanced inner ∧ Pair o c := by
  induction h generalizing before after with
  | nil => exact absurd hts (by simp)
  | @plain t rest ht _ ih =>
    cases before with
    | nil =>
      obtain ⟨rfl, rfl⟩ := List.cons.inj hts
      exact absurd ht (by simp [isBracket, ho])
    | cons x before => exact ih (List.cons.inj hts).2
  | @scope p c inner rest hpair hinner hrest ihinner ihrest =>
    cases before with
    | nil =>
      obtain ⟨rfl, rfl⟩ := List.cons.inj hts
      exact ⟨inner, c, rest, rfl, hinner, hpair⟩
    | cons x before =>
      rcases List.append_eq_append_iff.1 (List.cons.inj hts).2 with ⟨a, rfl, ha⟩ | ⟨a, rfl, ha⟩
      · cases a with
        | nil =>
          obtain ⟨rfl, -⟩ := List.cons.inj ha
          exact absurd ho (by simp [hpair.kind_right])
        | cons y a => exact ihrest (List.cons.inj ha).2
      · cases a with
        | nil =>
          obtain ⟨rfl, -⟩ := List.cons.inj ha
          exact absurd ho (by simp [hpair.kind_right])
        | cons y a =>
          obtain ⟨rfl, rfl⟩ := List.cons.inj ha
          obtain ⟨inner', c', rest', rfl, hinner', hpair'⟩ := ihinner rfl
          exact ⟨inner', c', rest' ++ c :: rest, by simp, hinner', hpair'⟩

end Balanced

namespace Innermost

variable {front before before' : List Token} {o o' : Token}

/-- An innermost open scope stays so while only whole scopes follow. -/
theorem append (h : Innermost front before o) {ts : List Token} (hts : Balanced ts) :
    Innermost (front ++ ts) before o := by
  obtain ⟨ho, inner, hinner, rfl⟩ := h
  exact ⟨ho, inner ++ ts, hinner.append hts, by simp⟩

/-- **The innermost open scope is the only one of its kind.** -/
theorem unique (h : Innermost front before o) (h' : Innermost front before' o') :
    before' = before ∧ o' = o := by
  obtain ⟨ho, inner, hinner, rfl⟩ := h
  obtain ⟨ho', inner', hinner', heq⟩ := h'
  -- the longer stretch would hold the opening bracket of the shorter one
  rcases List.append_eq_append_iff.1 heq with ⟨a, rfl, ha⟩ | ⟨a, rfl, ha⟩
  · cases a with
    | nil =>
      obtain ⟨rfl, -⟩ := List.cons.inj ha
      exact ⟨List.append_nil before, rfl⟩
    | cons x a =>
      obtain ⟨-, rfl⟩ := List.cons.inj ha
      exact absurd ⟨ho', inner', hinner', rfl⟩ hinner.not_innermost
  · cases a with
    | nil =>
      obtain ⟨rfl, -⟩ := List.cons.inj ha
      exact ⟨(List.append_nil before').symm, rfl⟩
    | cons x a =>
      obtain ⟨-, rfl⟩ := List.cons.inj ha
      exact absurd ⟨ho, inner, hinner, rfl⟩ hinner'.not_innermost

end Innermost

/-! ## Stacks -/

/-- What a token does to a stack: an opening bracket puts its mark on it, and a closing one takes
the first mark away. -/
def restack {α : Type} (mark : α) (marks : List α) (t : Token) : List α :=
  match t.kind with
  | .startOfScope => mark :: marks
  | .endOfScope => marks.tail
  | _ => marks

theorem map_restack {α β : Type} (f : α → β) (mark : α) (marks : List α) (t : Token) :
    (restack mark marks t).map f = restack (f mark) (marks.map f) t := by
  unfold restack
  split <;> simp

/-- A stack holds a mark for each bracket that some tokens leave open, innermost first.  The mark of
a bracket is told by the bracket and by what stands before it. -/
inductive Leaves {α : Type} (mark : List Token → Token → α) : List Token → List α → Prop
  /-- No bracket is open. -/
  | closed {front : List Token} (h : Balanced front) : Leaves mark front []
  /-- One bracket more is open than before it. -/
  | opened {before inner : List Token} {o : Token} {marks : List α} (ho : o.kind = .startOfScope)
      (h : Leaves mark before marks) (hinner : Balanced inner) :
      Leaves mark (before ++ o :: inner) (mark before o :: marks)

namespace Leaves

variable {α : Type} {mark : List Token → Token → α} {front before : List Token} {marks : List α}
  {m : α} {o t : Token}

theorem append (h : Leaves mark front marks) {ts : List Token} (hts : Balanced ts) :
    Leaves mark (front ++ ts) marks := by
  cases h with
  | closed h => exact .closed (h.append hts)
  | opened ho h hinner =>
    rw [List.append_assoc, List.cons_append]
    exact .opened ho h (hinner.append hts)

theorem balanced (h : Leaves mark front []) : Balanced front := by
  cases h with
  | closed h => exact h

/-- The first mark is that of the innermost open bracket. -/
theorem exists_innermost (h : Leaves mark front (m :: marks)) :
    ∃ before o, Innermost front before o ∧ mark before o = m := by
  cases h with
  | opened ho _ hinner => exact ⟨_, _, ⟨ho, _, hinner, rfl⟩, rfl⟩

/-- A closing bracket takes the innermost open one away. -/
theorem close (h : Leaves mark front marks) (ho : Innermost front before o) (hpair : Pair o t) :
    Leaves mark (front ++ [t]) marks.tail := by
  cases h with
  | closed h => exact absurd ho h.not_innermost
  | @opened before' inner o' marks ho' h hinner =>
    obtain ⟨rfl, rfl⟩ := Innermost.unique ⟨ho', inner, hinner, rfl⟩ ho
    rw [List.append_assoc, List.cons_append]
    exact h.append (.scope hpair hinner .nil)

/-- **One token more.** -/
theorem concat (h : Leaves mark front marks)
    (hclose : t.kind = .endOfScope → ∃ before o, Innermost front before o ∧ Pair o t) :
    Leaves mark (front ++ [t]) (restack (mark front t) marks t) := by
  unfold restack
  split
  · rename_i hkind
    exact .opened hkind h .nil
  · rename_i hkind
    obtain ⟨before, o, ho, hpair⟩ := hclose hkind
    exact h.close ho hpair
  · rename_i hopen hclose
    have ht : t.isBracket = false := by
      simp only [isBracket, Bool.or_eq_false_iff, beq_eq_false_iff_ne]
      exact ⟨hopen, hclose⟩
    exact h.append (.plain ht .nil)

end Leaves

/-! ## The stack of the lexer -/

/-- An opening bracket, as a token. -/
def bracket (c : Char) : Token := ⟨.startOfScope, String.ofList [c]⟩

/-- The lexer holds the brackets that are open after some tokens. -/
def Holds (front : List Token) (scopes : List Char) : Prop :=
  Leaves (fun _ o => o) front (scopes.map bracket)

/-- A closing bracket and the one that it has to close. -/
theorem pair_opener {c : Char} (h : c = ')' ∨ c = ']' ∨ c = '}') :
    Pair (bracket (opener c)) ⟨.endOfScope, String.ofList [c]⟩ := by
  rcases h with rfl | rfl | rfl
  · exact .round
  · exact .square
  · exact .brace

/-- A token of the kind of a closing bracket is read only if it closes the innermost open one. -/
theorem eq_cons_of_scopesAfter? {c : Char} {scopes inner : List Char}
    (h : scopesAfter? .endOfScope c scopes = some inner) : scopes = opener c :: inner := by
  unfold scopesAfter? at h
  dsimp only at h
  split at h
  · split at h
    · rename_i heq
      rw [heq, Option.some.inj h]
    · exact absurd h (by simp)
  · exact absurd h (by simp)

namespace Holds

variable {front : List Token} {scopes inner : List Char} {kind : Kind} {c : Char} {rest : List Char}
  {n : Nat}

theorem nil : Holds [] [] := .closed .nil

/-- What a closing bracket closes. -/
theorem exists_innermost (h : Holds front scopes) (hform : Form c rest .endOfScope n)
    (hscopes : scopesAfter? .endOfScope c scopes = some inner) :
    ∃ before o, Innermost front before o ∧
      Pair o ⟨.endOfScope, String.ofList (c :: rest.take n)⟩ := by
  rw [Holds, eq_cons_of_scopesAfter? hscopes, List.map_cons] at h
  obtain ⟨before, o, ho, rfl⟩ := h.exists_innermost
  refine ⟨before, _, ho, ?_⟩
  cases hform with
  | name _ hkind => exact absurd hkind (by simp)
  | closing hc => exact pair_opener hc

/-- **One token more**: what is open after it is what the lexer takes to be open. -/
theorem concat (h : Holds front scopes) (hform : Form c rest kind n)
    (hscopes : scopesAfter? kind c scopes = some inner) :
    Holds (front ++ [⟨kind, String.ofList (c :: rest.take n)⟩]) inner := by
  have hnext := Leaves.concat (t := ⟨kind, String.ofList (c :: rest.take n)⟩) h fun hkind => by
    obtain rfl : kind = .endOfScope := hkind
    exact h.exists_innermost hform hscopes
  unfold restack at hnext
  unfold Holds
  split at hnext
  · rename_i hkind
    obtain rfl : kind = .startOfScope := hkind
    obtain rfl := Option.some.inj hscopes
    cases hform with
    | name _ hkind => exact absurd hkind (by simp)
    | opening => exact hnext
  · rename_i hkind
    obtain rfl : kind = .endOfScope := hkind
    rw [eq_cons_of_scopesAfter? hscopes] at hnext
    exact hnext
  · rename_i hopen hclose
    have hplain : scopesAfter? kind c scopes = some scopes := by
      unfold scopesAfter?
      split
      · exact absurd rfl hopen
      · exact absurd rfl hclose
      · rfl
    obtain rfl := Option.some.inj (hplain.symm.trans hscopes)
    exact hnext

end Holds

/-- **Wherever one stops in a text, the lexer holds the brackets that are open there.**  It goes on
with them, unless only the error of an unfinished token is left. -/
theorem exists_holds {scopes cs : List Char} {done front rest : List Token}
    (hdone : Holds done scopes) (h : scanFrom scopes cs = front ++ rest)
    (hfront : ∀ t ∈ front, t.isError = false) :
    ∃ inner, Holds (done ++ front) inner ∧
      (rest = [⟨.error, ""⟩] ∨ ∃ cs, scanFrom inner cs = rest) := by
  induction front generalizing done scopes cs with
  | nil =>
    exact ⟨scopes, by rwa [List.append_nil], Or.inr ⟨cs, h⟩⟩
  | cons t front ih =>
    -- only the error follows on an unfinished token, and it is not in front
    have hlast : t.isBracket = false → [⟨.error, ""⟩] = front ++ rest →
        ∃ inner, Holds (done ++ t :: front) inner ∧
          (rest = [⟨.error, ""⟩] ∨ ∃ cs, scanFrom inner cs = rest) := by
      intro ht heq
      cases front with
      | nil => exact ⟨scopes, hdone.append (.plain ht .nil), Or.inl heq.symm⟩
      | cons u front =>
        have hu := hfront u (by simp)
        rw [← (List.cons.inj heq).1] at hu
        exact absurd hu (by simp [isError])
    rw [List.cons_append] at h
    have hstep := step_of_scanFrom h
    generalize htail : front ++ rest = tail at hstep hlast
    cases hstep with
    | complete hform hscopes =>
      have hnext := ih (hdone.concat hform hscopes) htail.symm
        fun u hu => hfront u (List.mem_cons_of_mem _ hu)
      simpa using hnext
    | openComment | openString => exact hlast rfl rfl
    | error => exact absurd (hfront _ List.mem_cons_self) (by simp [isError])

/-! ## The scopes of a text -/

variable {s : String}

/-- **Every closing bracket of a text closes the innermost open scope**, and belongs to the bracket
that opened it. -/
theorem exists_innermost_of_scan {before after : List Token} {c : Token}
    (h : scan s = before ++ c :: after) (hc : c.kind = .endOfScope) :
    ∃ front o, Innermost before front o ∧ Pair o c := by
  obtain ⟨scopes, hholds, hrest⟩ := exists_holds .nil h
    fun u hu => isError_of_mem_before h hu
  rw [List.nil_append] at hholds
  rcases hrest with hrest | ⟨cs, hrest⟩
  · rw [(List.cons.inj hrest).1] at hc
    exact absurd hc (by simp)
  · cases step_of_scanFrom hrest with
    | complete hform hscopes =>
      obtain rfl : _ = Kind.endOfScope := hc
      exact hholds.exists_innermost hform hscopes
    | openComment | openString | error => exact absurd hc (by simp)

/-- **In a text that can be read to its end, every scope is closed.** -/
theorem balanced_scan (hs : ∀ t ∈ scan s, t.isError = false) : Balanced (scan s) := by
  have hall : scanFrom [] s.toList = scan s ++ [] := (List.append_nil _).symm
  obtain ⟨scopes, hholds, hrest⟩ := exists_holds .nil hall hs
  cases scopes with
  | nil => exact hholds.balanced
  | cons c scopes =>
    obtain hrest | ⟨cs, hcs⟩ := hrest
    · exact absurd hrest (by simp)
    · -- nothing is left to read, and a bracket is open
      obtain rfl : cs = [] := by rw [← chars_scanFrom (c :: scopes) cs, hcs, chars_nil]
      exact absurd hcs (by simp [scanFrom])

end Token
end Restyle
