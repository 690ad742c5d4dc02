import Restyle.Proofs.Loops.Basic
import Restyle.Proofs.Stability.Spaces

/-!
# The rules on spaces, carried out in place

Three sorts of loops work on spaces.  Some put spaces in: they look at the tokens on both sides of
their position, and come to the spaces that they have put in.  Some take tokens out where they
stand, and stay at the position for what comes next.  One merges runs of spaces, and takes out a
whole run before it goes on.

The first two sorts are treated once for all, by what a turn does.

* `yields_inserts`: a loop that `PutsSpaces`.  The rules on operators and on braces are two.
* `yields_removes`: a loop that takes out what a rule `Removes`.  The rules on spaces at the end of
  a line and on semicolons are two.
* `yields_consecutive`: the loop on runs of spaces.
-/

namespace Restyle

open Token
open Spacing (thereIs thereIs_some isLineEdge)

/-! ## The spaces behind a position -/

namespace Token

theorem source_cons (t : Token) (ts : List Token) : source (t :: ts) = t.text ++ source ts :=
  String.join_cons

end Token

namespace Buffer

variable {front rest : List Token} {t : Token} {e : Bool}

/-- Takes out the spaces behind a position, and puts their texts behind a text. -/
def mergeSpaces (b : Buffer) (i : Nat) (text : String) : Option (Buffer × String) :=
  match b.token? (i + 1) with
  | some t => if t.isSpace then do
      let b ← b.remove? (i + 1)
      b |>.mergeSpaces i (text ++ t.text)
    else some (b, text)
  | none => some (b, text)
partial_fixpoint

theorem mergeSpaces_length {spaces : List Token} (hspaces : ∀ s ∈ spaces, s.isSpace = true)
    (hrest : ∀ u ∈ rest.head?, u.isSpace = false) (text : String) :
    mergeSpaces ⟨front ++ t :: (spaces ++ rest), e⟩ front.length text =
      some (⟨front ++ t :: rest, e || !spaces.isEmpty⟩, text ++ source spaces) := by
  induction spaces generalizing e text with
  | nil =>
    rw [mergeSpaces, List.nil_append, token?_length_succ]
    cases hhead : rest.head? with
    | none => simp
    | some u => simp [hrest u hhead]
  | cons s spaces ih =>
    have hs := hspaces s List.mem_cons_self
    rw [mergeSpaces, List.cons_append, token?_length_succ, List.head?_cons]
    dsimp only
    rw [if_pos hs, remove?_length_succ]
    refine (ih (fun u hu => hspaces u (List.mem_cons_of_mem _ hu)) _).trans ?_
    simp [source_cons, String.append_assoc]

end Buffer

namespace Loops

variable {turn : Turn} {front rest : List Token} {t : Token} {e : Bool}

/-! ## Spaces that are put in -/

section Inserts

variable {rule : Option Token → List Token → List Token} {before : Option Token → Token → Bool}
  {after : Token → Option Token → Bool}

/-- Spaces are put in, and nothing is taken out. -/
theorem length_le_of_inserts (h : Page.Inserts rule before after) (q : Option Token)
    (ts : List Token) : ts.length ≤ (rule q ts).length := by
  induction ts generalizing q with
  | nil => exact Nat.zero_le _
  | cons t rest ih =>
    rw [h.cons, List.length_append, List.length_cons, List.length_cons]
    have hspace := ih (some oneSpace)
    have hsame := ih (some t)
    cases after t rest.head? <;> simp only [if_true, Bool.false_eq_true, if_false,
      List.length_cons] <;> omega

theorem length_lt_of_inserts (h : Page.Inserts rule before after) {q : Option Token}
    (hput : (before q t || after t rest.head?) = true) :
    (t :: rest).length < (rule q (t :: rest)).length := by
  rw [h.cons, List.length_append, List.length_cons, List.length_cons]
  have hspace := length_le_of_inserts h (some oneSpace) rest
  have hsame := length_le_of_inserts h (some t) rest
  cases hbefore : before q t <;> cases hafter : after t rest.head? <;>
    simp [hbefore, hafter] at hput ⊢ <;> omega

/-- A turn that puts a space before the token at its position if `before` says so, one behind it if
`after` says so, and goes on to what stands behind the token then. -/
def PutsSpaces (turn : Turn) (before : Option Token → Token → Bool)
    (after : Token → Option Token → Bool) : Prop :=
  ∀ (front : List Token) (t : Token) (rest : List Token) (e : Bool),
    turn ⟨front ++ t :: rest, e⟩ front.length =
      some (⟨front ++ (if before front.getLast? t then [oneSpace] else []) ++ [t] ++
          ((if after t rest.head? then [oneSpace] else []) ++ rest),
        e || (before front.getLast? t || after t rest.head?)⟩,
        (front ++ (if before front.getLast? t then [oneSpace] else []) ++ [t]).length)

/-- **A loop that puts spaces in is the rule that does.**  It comes to the spaces that it has put
behind a token, and passes them by. -/
theorem yields_inserts (h : Page.Inserts rule before after) (hturn : PutsSpaces turn before after)
    (front rest : List Token) : Yields turn front rest (front ++ rule front.getLast? rest) := by
  induction rest generalizing front with
  | nil =>
    rw [h.nil, List.append_nil]
    exact .nil
  | cons t rest ih =>
    have hlast : ∀ (us : List Token) (v : Token), Yields turn (us ++ [v]) rest
        (us ++ v :: rule (some v) rest) := by
      intro us v
      have hv := ih (us ++ [v])
      rwa [List.getLast?_append, List.append_assoc] at hv
    have hbehind : ∀ us : List Token, Yields turn (us ++ [t])
        ((if after t rest.head? then [oneSpace] else []) ++ rest)
        (us ++ t :: Page.Inserts.walk rule after (some t) rest) := by
      intro us
      rw [Page.Inserts.walk]
      split
      · have hspace := (hlast (us ++ [t]) oneSpace).keep fun e => by
          rw [hturn, h.before_eq_false (Or.inl rfl), h.after_eq_false (Or.inl rfl)]
          simp
        rwa [List.append_assoc] at hspace
      · exact hlast us t
    have hrule : rule front.getLast? (t :: rest) =
        (if before front.getLast? t then [oneSpace] else []) ++
          t :: Page.Inserts.walk rule after (some t) rest := h.cons _ _ _
    have hnext := hbehind (front ++ if before front.getLast? t then [oneSpace] else [])
    rw [List.append_assoc front _ (t :: Page.Inserts.walk rule after (some t) rest), ← hrule]
      at hnext
    refine hnext.step _ (hturn front t rest) (fun hnone => ?_) fun hput heq => ?_
    · rw [Bool.or_eq_false_iff] at hnone
      simp [hnone]
    · have hlt := length_lt_of_inserts h hput
      rw [List.append_cancel_left heq] at hlt
      exact absurd hlt (Nat.lt_irrefl _)

end Inserts

/-- Puts a space in front of a position, if one is wanted there. -/
def spaceIf? (wanted : Bool) (b : Buffer) (i : Nat) : Option Buffer :=
  if wanted then b.insert? i oneSpace else some b

@[simp] theorem spaceIf?_length (wanted : Bool) :
    spaceIf? wanted ⟨front ++ rest, e⟩ front.length =
      some ⟨front ++ ((if wanted then [oneSpace] else []) ++ rest), e || wanted⟩ := by
  cases wanted <;> simp [spaceIf?]

@[simp] theorem spaceIf?_length_succ (wanted : Bool) :
    spaceIf? wanted ⟨front ++ t :: rest, e⟩ (front.length + 1) =
      some ⟨front ++ t :: ((if wanted then [oneSpace] else []) ++ rest), e || wanted⟩ := by
  cases wanted <;> simp [spaceIf?]

/-- Whether an operator needs a space before it.  The token there is looked at a second time only
if it is code. -/
def operatorNeedsSpace? (b : Buffer) (i : Nat) : Option Bool := do
  if ← before? b i isCode then (back? b i 1 (·.kind == .startOfScope)).map (!·) else some false

@[simp] theorem operatorNeedsSpace?_length :
    operatorNeedsSpace? ⟨front ++ rest, e⟩ front.length =
      some (Spacing.needsSpaceBefore front.getLast?) := by
  rw [operatorNeedsSpace?, before?_length]
  rcases List.eq_nil_or_concat' front with rfl | ⟨init, last, rfl⟩
  · rfl
  · rw [back?_one (by simp), List.getLast?_append]
    cases hcode : last.isCode <;> simp [thereIs, Spacing.needsSpaceBefore, hcode, bne]

/-- Operators: a space behind one that needs it, then a space before one that needs it. -/
def operatorsTurn : Turn := fun b i =>
  if thereIs Spacing.isSpacedOperator (b.token? i) then do
    let b ← spaceIf? (Spacing.needsSpaceAfter (b.token? (i + 1))) b (i + 1)
    let needsBefore ← operatorNeedsSpace? b i
    let b ← spaceIf? needsBefore b i
    some (b, if needsBefore then i + 1 + 1 else i + 1)
  else some (b, i + 1)

theorem putsSpaces_operators :
    PutsSpaces operatorsTurn Page.spaceBeforeOperator Page.spaceAfterOperator := by
  intro front t rest e
  unfold operatorsTurn Page.spaceBeforeOperator Page.spaceAfterOperator
  cases hop : Spacing.isSpacedOperator t with
  | false => simp [hop]
  | true =>
    cases hbefore : Spacing.needsSpaceBefore front.getLast? <;>
      simp [hop, hbefore, Bool.or_comm]

theorem operators_run (style : Style) (b : Buffer) :
    operatorsTurn.sweep b 0 = some (Rule.spaceAroundOperators.apply style b) :=
  Yields.sweep_eq (yields_inserts Page.inserts_aroundOperators putsSpaces_operators []) b

/-- Braces: a space before an opening one that follows a block's head, and a space behind a closing
one that a word follows. -/
def bracesTurn : Turn := fun b i =>
  if thereIs (opens openBrace) (b.token? i) then do
    let follows ← before? b i endsBlockHead
    let b ← spaceIf? follows b i
    some (b, if follows then i + 1 + 1 else i + 1)
  else if thereIs (closes closeBrace) (b.token? i) then do
    let b ← spaceIf? (thereIs Spacing.isWord (b.token? (i + 1))) b (i + 1)
    some (b, i + 1)
  else some (b, i + 1)

theorem putsSpaces_braces :
    PutsSpaces bracesTurn Page.spaceBeforeBrace Page.spaceAfterBrace := by
  intro front t rest e
  unfold bracesTurn Page.spaceBeforeBrace Page.spaceAfterBrace
  cases hopens : t.opens openBrace with
  | true =>
    have hcloses : t.closes closeBrace = false := by simp [closes, Page.kind_of_opens hopens]
    cases hhead : thereIs endsBlockHead front.getLast? <;> simp [hopens, hcloses, hhead]
  | false => cases hcloses : t.closes closeBrace <;> simp [hopens, hcloses]

theorem bracesSpace_run (style : Style) (b : Buffer) :
    bracesTurn.sweep b 0 = some (Rule.spaceAroundBraces.apply style b) :=
  Yields.sweep_eq (yields_inserts Page.inserts_aroundBraces putsSpaces_braces []) b

/-! ## Tokens that are taken out where the loop stands -/

section Removes

variable {rule : Option Token → List Token → List Token}
  {drops : Option Token → Token → List Token → Bool}

/-- The rule takes tokens out, each by what stands around it. -/
structure Removes (rule : Option Token → List Token → List Token)
    (drops : Option Token → Token → List Token → Bool) : Prop where
  /-- There is nothing to do at the end. -/
  nil : ∀ q, rule q [] = []
  /-- A token that goes: what follows sees the token before it. -/
  drop : ∀ q t rest, drops q t rest = true → rule q (t :: rest) = rule q rest
  /-- A token that stays. -/
  keep : ∀ q t rest, drops q t rest = false → rule q (t :: rest) = t :: rule (some t) rest

theorem length_le_of_removes (h : Removes rule drops) (q : Option Token) (ts : List Token) :
    (rule q ts).length ≤ ts.length := by
  induction ts generalizing q with
  | nil => rw [h.nil]
  | cons t rest ih =>
    cases hdrops : drops q t rest with
    | true =>
      rw [h.drop q t rest hdrops]
      exact Nat.le_succ_of_le (ih q)
    | false =>
      rw [h.keep q t rest hdrops]
      exact Nat.succ_le_succ (ih (some t))

/-- **A loop that takes tokens out is the rule that does.** -/
theorem yields_removes (h : Removes rule drops)
    (hturn : ∀ front t rest e, turn ⟨front ++ t :: rest, e⟩ front.length =
      if drops front.getLast? t rest then some (⟨front ++ rest, true⟩, front.length)
      else some (⟨front ++ t :: rest, e⟩, front.length + 1))
    (front rest : List Token) : Yields turn front rest (front ++ rule front.getLast? rest) := by
  induction rest generalizing front with
  | nil =>
    rw [h.nil, List.append_nil]
    exact .nil
  | cons t rest ih =>
    cases hdrops : drops front.getLast? t rest with
    | true =>
      rw [h.drop _ t rest hdrops]
      refine (ih front).edit (fun e => by rw [hturn, if_pos hdrops]) fun heq => ?_
      have hle := length_le_of_removes h front.getLast? rest
      rw [List.append_cancel_left heq] at hle
      exact absurd hle (Nat.not_succ_le_self _)
    | false =>
      have hnext := ih (front ++ [t])
      rw [List.getLast?_append, List.append_assoc] at hnext
      rw [h.keep _ t rest hdrops]
      exact hnext.keep fun e => by rw [hturn, if_neg (by simp [hdrops])]

end Removes

/-- Spaces at the end of a line. -/
def trailingTurn (keepBlank : Bool) : Turn := fun b i =>
  if thereIs isSpace (b.token? i) && isLineEdge (b.token? (i + 1)) then do
    let blankLine ← startsLine? b i
    if keepBlank && blankLine then some (b, i + 1)
    else do
      let b ← b.remove? i
      some (b, i)
  else some (b, i + 1)

theorem removes_trimLines (keepBlank : Bool) : Removes (Spacing.trimLines keepBlank)
    (fun q t rest => t.isSpace && isLineEdge rest.head? && !(keepBlank && isLineEdge q)) where
  nil := fun q => rfl
  drop := fun q t rest h => by
    rw [Spacing.trimLines, if_pos h]
    -- the next token is no space, if there is one
    refine (Page.edits_trimLines keepBlank).rule_congr (fun u hu => ?_) _ _
    rw [Bool.and_eq_true, Bool.and_eq_true, hu] at h
    exact Relaid.isSpace_of_isLinebreak h.1.2
  keep := fun q t rest h => by rw [Spacing.trimLines, if_neg (Bool.eq_false_iff.1 h)]

theorem trailing_run (style : Style) (b : Buffer) :
    (trailingTurn (style.trim == .nonblankLines)).sweep b 0 =
      some (Rule.trailingSpace.apply style b) := by
  refine Yields.sweep_eq (yields_removes (removes_trimLines (style.trim == .nonblankLines))
    (fun front t rest e => ?_) []) b
  generalize (style.trim == .nonblankLines) = keepBlank
  simp only [trailingTurn, Buffer.token?_length, Buffer.token?_length_succ, List.head?_cons,
    thereIs_some, startsLine?_length, Buffer.remove?_length]
  cases t.isSpace <;> cases isLineEdge rest.head? <;> cases keepBlank <;>
    cases isLineEdge front.getLast? <;> rfl

/-- Whether nothing but spaces is left behind a position on its line. -/
def endsLine (b : Buffer) (i : Nat) : Bool :=
  match b.next? i (!·.isSpace) with
  | some j => thereIs isLinebreak (b.token? j)
  | none => true

theorem endsLine_length :
    endsLine ⟨front ++ t :: rest, e⟩ front.length = Semicolons.endsLine rest := by
  unfold endsLine Semicolons.endsLine
  rcases all_or_first isSpace rest with hall | ⟨us, u, vs, rfl, hus, hu⟩
  · rw [Buffer.next?_of_forall (by simpa using hall), List.dropWhile_eq_nil_iff.2 hall]
  · rw [Buffer.next?_append_cons (by simpa using hus) (by simp [hu]),
      List.dropWhile_append_of_pos hus, List.dropWhile_cons_of_neg (by simp [hu])]
    dsimp only
    rw [Buffer.token?_behind, thereIs_some]

/-- Semicolons at the end of a line. -/
def semicolonsTurn : Turn := fun b i =>
  if thereIs Semicolons.isSemicolon (b.token? i) && endsLine b i then do
    let b ← b.remove? i
    some (b, i)
  else some (b, i + 1)

theorem removes_dropTrailing : Removes (fun _ => Semicolons.dropTrailing)
    (fun _ t rest => Semicolons.isSemicolon t && Semicolons.endsLine rest) where
  nil := fun q => rfl
  drop := fun q t rest h => by rw [Semicolons.dropTrailing, if_pos h]
  keep := fun q t rest h => by rw [Semicolons.dropTrailing, if_neg (Bool.eq_false_iff.1 h)]

theorem semicolons_run (style : Style) (b : Buffer) :
    semicolonsTurn.sweep b 0 = some (Rule.semicolons.apply style b) := by
  refine Yields.sweep_eq (yields_removes removes_dropTrailing (fun front t rest e => ?_) []) b
  simp only [semicolonsTurn, Buffer.token?_length, List.head?_cons, thereIs_some, endsLine_length,
    Buffer.remove?_length]
  cases Semicolons.isSemicolon t <;> cases Semicolons.endsLine rest <;> rfl

/-! ## Runs of spaces -/

theorem length_le_of_edits {rule : Option Token → List Token → List Token}
    {edit : Option Token → String → Option Token → Option String} (h : Page.Edits rule edit)
    (q : Option Token) (ts : List Token) : (rule q ts).length ≤ ts.length := by
  induction ts generalizing q with
  | nil => rw [h.nil]
  | cons t rest ih =>
    cases ht : t.isSpace with
    | false =>
      rw [h.keep q t rest ht]
      exact Nat.succ_le_succ (ih (some t))
    | true =>
      obtain ⟨text, rfl⟩ := exists_eq_space ht
      have hrest := ih (some ⟨.space, text⟩)
      rw [h.space, List.length_append, List.length_cons]
      cases edit q text rest.head? with
      | none =>
        rw [Gap.space_none, List.length_nil]
        omega
      | some s =>
        rw [Gap.space_some, List.length_singleton]
        omega

/-- Runs of spaces: the first one takes the others in, and becomes a single space unless it is at
the start or at the end of its line. -/
def consecutiveTurn : Turn := fun b i =>
  match b.token? i with
  | some t => if t.isSpace then do
      let (b, text) ← b.mergeSpaces i t.text
      let leading ← startsLine? b i
      let trailing := isLineEdge (b.token? (i + 1))
      let b ← b.replace? i ⟨.space, if !leading && !trailing then " " else text⟩
      some (b, i + 1)
    else some (b, i + 1)
  | none => some (b, i + 1)

theorem joinSpaces_of_not_isSpace (ht : t.isSpace = false) (rest : List Token) :
    Spacing.joinSpaces (t :: rest) = t :: Spacing.joinSpaces rest :=
  Relaid.consJoined_of_not_isSpace ht _

theorem joinSpaces_append {spaces : List Token} (ht : t.isSpace = true)
    (hspaces : ∀ s ∈ spaces, s.isSpace = true) (hrest : ∀ u ∈ rest.head?, u.isSpace = false) :
    Spacing.joinSpaces (t :: (spaces ++ rest)) =
      ⟨.space, t.text ++ source spaces⟩ :: Spacing.joinSpaces rest := by
  induction spaces generalizing t with
  | nil =>
    obtain ⟨text, rfl⟩ := exists_eq_space ht
    rw [List.nil_append, source_nil, String.append_empty, Spacing.joinSpaces]
    cases rest with
    | nil => rfl
    | cons u rest =>
      have hu := hrest u rfl
      rw [joinSpaces_of_not_isSpace hu, Relaid.consJoined_cons_of_not_isSpace hu]
  | cons s spaces ih =>
    have hs := hspaces s List.mem_cons_self
    have hrun : isSpace ⟨.space, s.text ++ source spaces⟩ = true := rfl
    have hmore : ∀ u ∈ spaces, u.isSpace = true := fun u hu =>
      hspaces u (List.mem_cons_of_mem _ hu)
    rw [List.cons_append, Spacing.joinSpaces, ih hs hmore, Spacing.consJoined, ht, hrun,
      Bool.and_true, if_pos rfl, source_cons]

theorem head?_joinSpaces (hrest : ∀ u ∈ rest.head?, u.isSpace = false) :
    (Spacing.joinSpaces rest).head? = rest.head? := by
  cases rest with
  | nil => rfl
  | cons u rest => rw [joinSpaces_of_not_isSpace (hrest u rfl), List.head?_cons, List.head?_cons]

theorem length_joinSpaces_le (ts : List Token) : (Spacing.joinSpaces ts).length ≤ ts.length := by
  induction ts with
  | nil => exact Nat.le_refl _
  | cons t rest ih =>
    rw [Spacing.joinSpaces, List.length_cons]
    cases hjoined : Spacing.joinSpaces rest with
    | nil => exact Nat.succ_le_succ (Nat.zero_le _)
    | cons u more =>
      rw [hjoined, List.length_cons] at ih
      rw [Spacing.consJoined]
      split <;> simp only [List.length_cons] <;> omega

/-- What a run of spaces becomes between two tokens. -/
def runOf (q : Option Token) (text : String) (u : Option Token) : Token :=
  ⟨.space, if !isLineEdge q && !isLineEdge u then " " else text⟩

theorem singleSpaces_space (hrest : ∀ u ∈ rest.head?, u.isSpace = false) (q : Option Token)
    (text : String) : Spacing.singleSpaces q (⟨.space, text⟩ :: rest) =
      runOf q text rest.head? ::
        Spacing.singleSpaces (some (runOf q text rest.head?)) rest := by
  rw [Page.edits_singleSpaces.space,
    Page.edits_singleSpaces.rule_congr hrest _ (some (runOf q text rest.head?))]
  rfl

theorem consecutiveTurn_of_isSpace {spaces : List Token} (ht : t.isSpace = true)
    (hspaces : ∀ s ∈ spaces, s.isSpace = true) (hrest : ∀ u ∈ rest.head?, u.isSpace = false) :
    consecutiveTurn ⟨front ++ t :: (spaces ++ rest), e⟩ front.length =
      some (⟨front ++ runOf front.getLast? (t.text ++ source spaces) rest.head? :: rest,
        e || (!spaces.isEmpty || runOf front.getLast? (t.text ++ source spaces) rest.head? != t)⟩,
        front.length + 1) := by
  rw [consecutiveTurn, Buffer.token?_length, List.head?_cons]
  dsimp only
  rw [if_pos ht, Buffer.mergeSpaces_length hspaces hrest]
  simp [runOf, Bool.or_assoc]

theorem consecutiveTurn_of_not_isSpace (ht : t.isSpace = false) :
    consecutiveTurn ⟨front ++ t :: rest, e⟩ front.length =
      some (⟨front ++ t :: rest, e⟩, front.length + 1) := by
  simp [consecutiveTurn, ht]

/-- A list of tokens starts with a run of spaces, which may be empty. -/
theorem exists_spaces_append (ts : List Token) : ∃ spaces rest, ts = spaces ++ rest ∧
    (∀ s ∈ spaces, s.isSpace = true) ∧ ∀ u ∈ rest.head?, u.isSpace = false := by
  rcases all_or_first isSpace ts with hall | ⟨us, u, vs, rfl, hus, hu⟩
  · exact ⟨ts, [], by simp, hall, by simp⟩
  · exact ⟨us, u :: vs, rfl, hus, by simpa using hu⟩

/-- A turn at the start of a run of spaces.  The flag is raised if there is more than one, or if the
one there is changes. -/
theorem yields_run {spaces : List Token} {v : Token} (ht : t.isSpace = true)
    (hspaces : ∀ s ∈ spaces, s.isSpace = true) (hrest : ∀ u ∈ rest.head?, u.isSpace = false)
    (hv : v = runOf front.getLast? (t.text ++ source spaces) rest.head?)
    (h : Yields consecutiveTurn (front ++ [v]) rest
      (front ++ v :: Spacing.singleSpaces (some v) (Spacing.joinSpaces rest))) :
    Yields consecutiveTurn front (t :: (spaces ++ rest))
      (front ++ v :: Spacing.singleSpaces (some v) (Spacing.joinSpaces rest)) := by
  refine h.step (!spaces.isEmpty || v != t) (fun e => ?_) (fun hnone => ?_) fun hedits heq => ?_
  · rw [consecutiveTurn_of_isSpace ht hspaces hrest, ← hv, List.append_assoc, List.length_append]
    rfl
  · rw [Bool.or_eq_false_iff] at hnone
    obtain rfl : spaces = [] := by simpa using hnone.1
    obtain rfl : v = t := by simpa using hnone.2
    rw [List.append_assoc]
    rfl
  · obtain ⟨rfl, hrun⟩ := List.cons.inj (List.append_cancel_left heq)
    have hsingle := length_le_of_edits Page.edits_singleSpaces (some v) (Spacing.joinSpaces rest)
    have hjoined := length_joinSpaces_le rest
    rw [hrun, List.length_append] at hsingle
    obtain rfl : spaces = [] := List.length_eq_zero_iff.1 (by omega)
    exact absurd hedits (by simp)

/-- **The loop on runs of spaces is the rule**, which joins them before it looks at them. -/
theorem yields_consecutive (front rest : List Token) : Yields consecutiveTurn front rest
    (front ++ Spacing.singleSpaces front.getLast? (Spacing.joinSpaces rest)) := by
  -- on the number of tokens ahead, since a turn takes a whole run of spaces
  induction hlength : rest.length using Nat.strong_induction_on generalizing front rest with
  | _ length ih =>
    have hlast : ∀ (v : Token) (more : List Token), more.length < length →
        Yields consecutiveTurn (front ++ [v]) more
          (front ++ v :: Spacing.singleSpaces (some v) (Spacing.joinSpaces more)) := by
      intro v more hmore
      have hnext := ih more.length hmore (front ++ [v]) more rfl
      rwa [List.getLast?_append, List.append_assoc] at hnext
    cases rest with
    | nil =>
      rw [Spacing.joinSpaces, Spacing.singleSpaces, List.append_nil]
      exact .nil
    | cons t rest =>
      cases ht : t.isSpace with
      | false =>
        rw [joinSpaces_of_not_isSpace ht, Page.edits_singleSpaces.keep _ t _ ht]
        exact (hlast t rest (by simp [← hlength])).keep fun e => consecutiveTurn_of_not_isSpace ht
      | true =>
        obtain ⟨spaces, rest, rfl, hspaces, hrest⟩ := exists_spaces_append rest
        have hjoined := head?_joinSpaces hrest
        rw [joinSpaces_append ht hspaces hrest, singleSpaces_space (by rwa [hjoined]), hjoined]
        refine yields_run ht hspaces hrest rfl (hlast _ rest ?_)
        rw [← hlength, List.length_cons, List.length_append]
        omega

theorem consecutive_run (style : Style) (b : Buffer) :
    consecutiveTurn.sweep b 0 = some (Rule.consecutiveSpaces.apply style b) :=
  Yields.sweep_eq (yields_consecutive []) b

end Loops
end Restyle
