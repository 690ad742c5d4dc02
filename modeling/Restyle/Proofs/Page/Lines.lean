import Restyle.Proofs.Page.Spacing

/-!
# The rules on lines, gap by gap

The rules on braces, on blank lines and on the end of the text change the gaps of
a page, each by itself, as the rules on spaces do.  The rule on indentation is the
one that remembers more than the last code token: it carries the levels of the
open scopes from line to line.

* `join_tokens`, `wrap_tokens`: the gap between a head and its brace.
* `trimBlockStarts_tokens`, `trimBlockEnds_tokens`, `limitBlankLines_tokens`: a gap
  loses lines until it is short enough.
* `endWithLinebreak_tokens`: the last gap is a single linebreak.
* `indentLines_tokens`: the blanks that a line starts with (`Page.indent`).
-/

namespace Restyle

open Token

namespace Gap

/-- Whether a line ends in the gap. -/
def breaks (g : Gap) : Bool := !g.ended.isEmpty

/-- The gap of one linebreak. -/
def line : Gap := ⟨[none], none⟩

/-- A gap in which at most `n` lines end. -/
def cap (n : Nat) (g : Gap) : Gap := ⟨g.ended.take n, g.last⟩

@[simp] theorem breaks_mk_nil (s : Option String) : breaks ⟨[], s⟩ = false := rfl

@[simp] theorem breaks_mk_cons (a : Option String) (ended : List (Option String))
    (s : Option String) : breaks ⟨a :: ended, s⟩ = true := rfl

@[simp] theorem breaks_empty : empty.breaks = false := rfl

@[simp] theorem breaks_single : single.breaks = false := rfl

@[simp] theorem breaks_line : line.breaks = true := rfl

@[simp] theorem tokens_line (eol : String) : line.tokens eol = [⟨.linebreak, eol⟩] := rfl

/-- A space is skipped, if there is one. -/
theorem dropWhile_space (s : Option String) {ts : List Token}
    (h : ∀ t ∈ ts.head?, t.isSpace = false) : (space s ++ ts).dropWhile isSpace = ts := by
  have hts : ts.dropWhile isSpace = ts := by
    cases ts with
    | nil => rfl
    | cons t ts => exact List.dropWhile_cons_of_neg (by simp [h t rfl])
  cases s with
  | none => exact hts
  | some s => rw [space_some, List.singleton_append, List.dropWhile_cons_of_pos rfl, hts]

theorem any_isLinebreak_tokens (eol : String) (g : Gap) :
    (g.tokens eol).any isLinebreak = g.breaks := by
  obtain ⟨ended, s⟩ := g
  cases ended with
  | nil => cases s <;> rfl
  | cons a ended => simp [isLinebreak]

end Gap

namespace Page

variable {eol : String}

theorem isLayout_of_isCode {t : Token} (h : t.isCode = true) : t.isLayout = false := by
  simpa [Token.isCode] using h

/-! ## Braces -/

/-- Whether the gap lies between a head and the brace of its block. -/
def atBrace (t : Option Token) (cells : List Cell) : Bool :=
  Spacing.thereIs endsBlockHead t && Spacing.thereIs (opens openBrace) (next cells)

/-- Whether the next code token is the last one of its line. -/
def breaksNext : List Cell → Bool
  | [] => false
  | c :: _ => c.gap.breaks

/-- The rule puts `mark` between a head and its brace, if `moves` says so, and does
nothing else.  It is told whether a line ends between the two, and whether one
ends right after the brace. -/
structure MovesBraces (rule : List Token → List Token) (mark : Token)
    (moves : Bool → Bool → Bool) : Prop where
  /-- There is nothing to do at the end. -/
  nil : rule [] = []
  /-- What happens after one token. -/
  cons : ∀ t rest, rule (t :: rest) = t ::
    match Braces.brace? rest with
    | none => rule rest
    | some (gap, brace, after) =>
      if t.endsBlockHead && moves (gap.any isLinebreak) (Braces.endsLine after) then
        mark :: brace :: rule after
      else rule rest

theorem brace?_gap (g : Gap) : Braces.brace? (g.tokens eol) = none := by
  have hnil : (g.tokens eol).dropWhile isLayout = [] :=
    List.dropWhile_eq_nil_iff.2 fun b => Gap.isLayout_of_mem_tokens
  rw [Braces.brace?, hnil]

theorem brace?_append_cons {gap : List Token} {t : Token} (hgap : ∀ b ∈ gap, b.isLayout = true)
    (ht : t.isLayout = false) (rest : List Token) :
    Braces.brace? (gap ++ t :: rest) =
      if t.opens openBrace then some (gap, t, rest) else none := by
  rw [Braces.brace?, List.dropWhile_append_of_pos hgap, List.takeWhile_append_of_pos hgap,
    List.dropWhile_cons_of_neg (by simp [ht]), List.takeWhile_cons_of_neg (by simp [ht]),
    List.append_nil]

theorem brace?_gap_append (g : Gap) (c : Cell) (rest : List Token) :
    Braces.brace? (g.tokens eol ++ c.code :: rest) =
      if c.code.opens openBrace then some (g.tokens eol, c.code, rest) else none :=
  brace?_append_cons (fun _ => Gap.isLayout_of_mem_tokens) (isLayout_of_isCode c.isCode) rest

theorem weave_mk_cons (a : Option String) (ended : List (Option String)) (s : Option String)
    (cells : List Cell) :
    weave eol ⟨a :: ended, s⟩ cells =
      Gap.space a ++ ⟨.linebreak, eol⟩ :: weave eol ⟨ended, s⟩ cells := by
  cases cells <;> simp

theorem weave_mk_nil (s : Option String) (cells : List Cell) :
    weave eol ⟨[], s⟩ cells = Gap.space s ++ weave eol .empty cells := by
  cases cells <;> simp

/-- No space stands at the start of an empty gap. -/
theorem isSpace_head_weave_empty (cells : List Cell) :
    ∀ t ∈ (weave eol .empty cells).head?, t.isSpace = false := by
  cases cells with
  | nil => simp
  | cons c cells => simpa using isSpace_of_isCode c.isCode

theorem dropWhile_isSpace_weave_nil (s : Option String) (cells : List Cell) :
    (weave eol ⟨[], s⟩ cells).dropWhile isSpace = weave eol .empty cells := by
  rw [weave_mk_nil, Gap.dropWhile_space s (isSpace_head_weave_empty cells)]

theorem dropWhile_isSpace_weave_cons (a : Option String) (ended : List (Option String))
    (s : Option String) (cells : List Cell) :
    (weave eol ⟨a :: ended, s⟩ cells).dropWhile isSpace =
      ⟨.linebreak, eol⟩ :: weave eol ⟨ended, s⟩ cells := by
  rw [weave_mk_cons, Gap.dropWhile_space a (by simp)]

theorem endsLine_weave (g : Gap) (cells : List Cell) :
    Braces.endsLine (weave eol g cells) = g.breaks := by
  obtain ⟨ended, s⟩ := g
  unfold Braces.endsLine
  cases ended with
  | nil =>
    rw [dropWhile_isSpace_weave_nil]
    cases cells with
    | nil => rfl
    | cons c cells => exact isLinebreak_of_isCode c.isCode
  | cons a ended =>
    rw [dropWhile_isSpace_weave_cons]
    rfl

namespace MovesBraces

variable {rule : List Token → List Token} {mark : Token} {moves : Bool → Bool → Bool}

theorem cons_of_not_head (h : MovesBraces rule mark moves) {t : Token}
    (ht : t.endsBlockHead = false) (rest : List Token) : rule (t :: rest) = t :: rule rest := by
  rw [h.cons, ht]
  cases Braces.brace? rest <;> rfl

theorem layout_append (h : MovesBraces rule mark moves) {bs : List Token}
    (hbs : ∀ b ∈ bs, b.isLayout = true) (rest : List Token) :
    rule (bs ++ rest) = bs ++ rule rest := by
  induction bs with
  | nil => rfl
  | cons b bs ih =>
    have hb : b.endsBlockHead = false := by
      by_contra hhead
      have hcode := isCode_of_endsBlockHead (t := b) (by simpa using hhead)
      exact absurd (hbs b List.mem_cons_self) (by simp [isLayout_of_isCode hcode])
    rw [List.cons_append, h.cons_of_not_head hb, ih fun d hd => hbs d (List.mem_cons_of_mem _ hd),
      List.cons_append]

/-- The rule on the text after a code token, which may be a head. -/
def walk (rule : List Token → List Token) (t : Option Token) (ts : List Token) : List Token :=
  t.elim (rule ts) fun t => (rule (t :: ts)).tail

theorem cons_eq_walk (h : MovesBraces rule mark moves) (t : Token) (ts : List Token) :
    rule (t :: ts) = t :: walk rule (some t) ts := by
  show _ = t :: (rule (t :: ts)).tail
  rw [h.cons, List.tail_cons]

/-- **A rule that moves braces changes the gap between a head and its brace.** -/
theorem tokens (h : MovesBraces rule mark moves) {moved : Gap} (hmark : moved.tokens eol = [mark])
    (p : Page) :
    rule (p.tokens eol) =
      (p.regap fun t g cells =>
        if atBrace t cells && moves g.breaks (breaksNext cells) then moved else g).tokens eol := by
  have happend : ∀ (g : Gap) (rest : List Token),
      rule (g.tokens eol ++ rest) = g.tokens eol ++ rule rest :=
    fun g => h.layout_append fun b => Gap.isLayout_of_mem_tokens
  refine walk_tokens (walk rule) (fun t g ht => ?_) (fun t g c cells ht => ?_) p
  · have hgap : rule (g.tokens eol) = g.tokens eol := by
      have happend := happend g []
      rwa [List.append_nil, h.nil, List.append_nil] at happend
    cases t with
    | none => exact hgap
    | some t =>
      show (rule _).tail = _
      rw [h.cons, brace?_gap, List.tail_cons, hgap]
      simp [atBrace, Spacing.thereIs]
  · have hgap : rule (g.tokens eol ++ c.code :: weave eol c.gap cells) =
        g.tokens eol ++ c.code :: walk rule (some c.code) (weave eol c.gap cells) := by
      rw [happend, h.cons_eq_walk]
    cases t with
    | none => exact hgap
    | some t =>
      show (rule _).tail = _
      rw [h.cons, brace?_gap_append, List.tail_cons]
      cases hopens : c.code.opens openBrace with
      | false => simpa [atBrace, Spacing.thereIs, hopens] using hgap
      | true =>
        have hnext : walk rule (some c.code) (weave eol c.gap cells) =
            rule (weave eol c.gap cells) := by
          have hhead : c.code.endsBlockHead = false := by
            simp [endsBlockHead, kind_of_opens hopens]
          have hcons := h.cons_of_not_head hhead (weave eol c.gap cells)
          rw [h.cons_eq_walk] at hcons
          exact (List.cons.inj hcons).2
        cases hmoves : t.endsBlockHead && moves g.breaks c.gap.breaks with
        | false =>
          simpa [atBrace, Spacing.thereIs, hopens, breaksNext, hmoves, endsLine_weave,
            Gap.any_isLinebreak_tokens] using hgap
        | true =>
          simp [atBrace, Spacing.thereIs, hopens, breaksNext, hmoves, endsLine_weave,
            Gap.any_isLinebreak_tokens, hmark, hnext]

end MovesBraces

/-- The change of gaps that puts braces on the lines of their heads. -/
def joinGap (t : Option Token) (g : Gap) (cells : List Cell) : Gap :=
  if atBrace t cells && g.breaks then .single else g

theorem movesBraces_join : MovesBraces Braces.join oneSpace (fun broken _ => broken) where
  nil := by rw [Braces.join]
  cons := fun t rest => by
    rw [Braces.join]
    cases Braces.brace? rest with
    | none => rfl
    | some found => dsimp only; split <;> rfl

/-- The brace of a block stands on the line of its head. -/
theorem join_tokens (p : Page) :
    Braces.join (p.tokens eol) = (p.regap joinGap).tokens eol :=
  movesBraces_join.tokens (Gap.tokens_single eol) p

/-- The change of gaps that puts braces on lines of their own. -/
def wrapGap (t : Option Token) (g : Gap) (cells : List Cell) : Gap :=
  if atBrace t cells && (!g.breaks && breaksNext cells) then .line else g

theorem movesBraces_wrap (eol : String) : MovesBraces (Braces.wrap ⟨.linebreak, eol⟩)
    ⟨.linebreak, eol⟩ (fun broken ends => !broken && ends) where
  nil := by rw [Braces.wrap]
  cons := fun t rest => by
    rw [Braces.wrap]
    cases Braces.brace? rest with
    | none => rfl
    | some found =>
      dsimp only
      rw [Bool.and_assoc]
      split <;> rfl

/-- The brace of a block stands on a line of its own, if nothing follows it on its
line. -/
theorem wrap_tokens (p : Page) :
    Braces.wrap ⟨.linebreak, eol⟩ (p.tokens eol) = (p.regap wrapGap).tokens eol :=
  (movesBraces_wrap eol).tokens (Gap.tokens_line eol) p

/-! ## Blank lines -/

/-- What a walk makes of the cells after a gap. -/
def onward (eol : String) (walk : Option Token → List Token → List Token) : List Cell → List Token
  | [] => []
  | c :: cells => c.code :: walk (some c.code) (weave eol c.gap cells)

/-- A walk that changes gaps, with both ends of a gap treated alike. -/
theorem walk_tokens_of_onward (walk : Option Token → List Token → List Token)
    {f : Option Token → Gap → List Cell → Gap}
    (h : ∀ t g cells, walk t (weave eol g cells) =
      (f t g cells).tokens eol ++ onward eol walk cells) (p : Page) :
    walk none (p.tokens eol) = (p.regap f).tokens eol :=
  walk_tokens walk (fun t g _ => (h t g []).trans (List.append_nil _))
    (fun t g c cells _ => h t g (c :: cells)) p

theorem dropBlankLines_weave (g : Gap) (cells : List Cell) :
    Linebreaks.dropBlankLines (weave eol g cells) = weave eol ⟨[], g.last⟩ cells := by
  obtain ⟨ended, s⟩ := g
  induction ended with
  | nil =>
    have hnone : Linebreaks.afterBlankLine? (weave eol ⟨[], s⟩ cells) = none := by
      rw [Linebreaks.afterBlankLine?, dropWhile_isSpace_weave_nil]
      cases cells with
      | nil => rfl
      | cons c cells => simp [isLinebreak_of_isCode c.isCode]
    rw [Linebreaks.dropBlankLines]
    split
    · rename_i hsome
      exact absurd (hnone.symm.trans hsome) (by simp)
    · rfl
  | cons a ended ih =>
    have hsome : Linebreaks.afterBlankLine? (weave eol ⟨a :: ended, s⟩ cells) =
        some (weave eol ⟨ended, s⟩ cells) := by
      rw [Linebreaks.afterBlankLine?, dropWhile_isSpace_weave_cons]
      rfl
    rw [Linebreaks.dropBlankLines]
    split
    · rename_i rest hrest
      obtain rfl := Option.some.inj (hsome.symm.trans hrest)
      exact ih
    · rename_i hnone
      exact absurd (hsome.symm.trans hnone) (by simp)

/-- The walk that removes the blank lines after an opening brace. -/
def startsWalk (t : Option Token) (ts : List Token) : List Token :=
  Linebreaks.trimBlockStarts (Spacing.thereIs (opens openBrace) t) ts

theorem trimBlockStarts_space (opened : Bool) (s : Option String) (ts : List Token) :
    Linebreaks.trimBlockStarts opened (Gap.space s ++ ts) =
      Gap.space s ++ Linebreaks.trimBlockStarts opened ts := by
  cases s with
  | none => rfl
  | some s => simp [Linebreaks.trimBlockStarts]

theorem trimBlockStarts_weave_nil (opened : Bool) (s : Option String) (cells : List Cell) :
    Linebreaks.trimBlockStarts opened (weave eol ⟨[], s⟩ cells) =
      Gap.space s ++ onward eol startsWalk cells := by
  rw [weave_mk_nil, trimBlockStarts_space]
  cases cells with
  | nil => simp [Linebreaks.trimBlockStarts, onward]
  | cons c cells =>
    simp [Linebreaks.trimBlockStarts, onward, startsWalk, Spacing.thereIs,
      isSpace_of_isCode c.isCode, isLinebreak_of_isCode c.isCode]

theorem trimBlockStarts_false (g : Gap) (cells : List Cell) :
    Linebreaks.trimBlockStarts false (weave eol g cells) =
      g.tokens eol ++ onward eol startsWalk cells := by
  obtain ⟨ended, s⟩ := g
  induction ended with
  | nil => exact trimBlockStarts_weave_nil false s cells
  | cons a ended ih =>
    have hopens : opens openBrace ⟨.linebreak, eol⟩ = false := rfl
    rw [weave_mk_cons, trimBlockStarts_space, Linebreaks.trimBlockStarts, if_neg (by simp),
      if_neg (by simp), hopens, ih]
    simp

/-- No blank line after an opening brace. -/
theorem trimBlockStarts_tokens (p : Page) :
    Linebreaks.trimBlockStarts false (p.tokens eol) =
      (p.touch fun t g _ =>
        if Spacing.thereIs (opens openBrace) t then g.cap 1 else g).tokens eol := by
  refine walk_tokens_of_onward startsWalk (fun t g cells => ?_) p
  beta_reduce
  rw [startsWalk]
  cases hopens : Spacing.thereIs (opens openBrace) t with
  | false => exact trimBlockStarts_false g cells
  | true =>
    obtain ⟨ended, s⟩ := g
    cases ended with
    | nil => exact trimBlockStarts_weave_nil true s cells
    | cons a ended =>
      rw [weave_mk_cons, trimBlockStarts_space, Linebreaks.trimBlockStarts, if_neg (by simp),
        if_pos (by simp), dropBlankLines_weave, trimBlockStarts_weave_nil]
      simp [Gap.cap]

theorem closesBlock_weave_nil (s : Option String) (cells : List Cell) :
    Linebreaks.closesBlock (weave eol ⟨[], s⟩ cells) =
      Spacing.thereIs (closes closeBrace) (next cells) := by
  rw [Linebreaks.closesBlock, dropWhile_isSpace_weave_nil]
  cases cells <;> rfl

theorem trimBlockEnds_cons {t : Token} (h : t.isLinebreak = false) (ts : List Token) :
    Linebreaks.trimBlockEnds (t :: ts) = t :: Linebreaks.trimBlockEnds ts := by
  rw [Linebreaks.trimBlockEnds, h, Bool.false_and, if_neg (by decide)]

theorem trimBlockEnds_space (s : Option String) (ts : List Token) :
    Linebreaks.trimBlockEnds (Gap.space s ++ ts) =
      Gap.space s ++ Linebreaks.trimBlockEnds ts := by
  cases s with
  | none => rfl
  | some s => exact trimBlockEnds_cons rfl ts

theorem trimBlockEnds_weave_nil (s : Option String) (cells : List Cell) :
    Linebreaks.trimBlockEnds (weave eol ⟨[], s⟩ cells) =
      Gap.space s ++ onward eol (fun _ => Linebreaks.trimBlockEnds) cells := by
  rw [weave_mk_nil, trimBlockEnds_space]
  cases cells with
  | nil => simp [Linebreaks.trimBlockEnds, onward]
  | cons c cells =>
    rw [weave_cons, Gap.tokens_empty, List.nil_append,
      trimBlockEnds_cons (isLinebreak_of_isCode c.isCode)]
    rfl

/-- No blank line before a closing brace. -/
theorem trimBlockEnds_tokens (p : Page) :
    Linebreaks.trimBlockEnds (p.tokens eol) =
      (p.touch fun _ g u =>
        if Spacing.thereIs (closes closeBrace) u then g.cap 1 else g).tokens eol := by
  refine walk_tokens_of_onward (fun _ => Linebreaks.trimBlockEnds) (fun t g cells => ?_) p
  beta_reduce
  obtain ⟨ended, s⟩ := g
  induction ended with
  | nil =>
    rw [trimBlockEnds_weave_nil]
    split <;> rfl
  | cons a ended ih =>
    rw [weave_mk_cons, trimBlockEnds_space, Linebreaks.trimBlockEnds, dropBlankLines_weave,
      closesBlock_weave_nil, isLinebreak_linebreak, Bool.true_and]
    cases hcloses : Spacing.thereIs (closes closeBrace) (next cells) with
    | true => simp [trimBlockEnds_weave_nil, Gap.cap]
    | false =>
      rw [hcloses] at ih
      simp only [Bool.false_eq_true, if_false] at ih ⊢
      rw [ih]
      simp

/-! ## Runs of blank lines -/

/-- The walk that limits blank lines, in the middle of a line that is not blank. -/
def limitRest (most : Nat) : List Token → List Token
  | [] => []
  | t :: ts =>
    if t.isLinebreak then t :: Linebreaks.limitBlankLines most 0 ts else t :: limitRest most ts

theorem limitRest_eq (most : Nat) (ts : List Token) :
    limitRest most ts =
      match ts.dropWhile (!·.isLinebreak) with
      | [] => ts
      | lb :: rest =>
        ts.takeWhile (!·.isLinebreak) ++ lb :: Linebreaks.limitBlankLines most 0 rest := by
  induction ts with
  | nil => rfl
  | cons t ts ih =>
    rw [limitRest]
    cases ht : t.isLinebreak with
    | true => simp [ht]
    | false =>
      simp only [Bool.false_eq_true, if_false, List.dropWhile_cons, List.takeWhile_cons, ht,
        Bool.not_false, if_true]
      rw [ih]
      cases ts.dropWhile (!·.isLinebreak) <;> rfl

/-- The walk that limits blank lines. -/
def limitWalk (most : Nat) : Option Token → List Token → List Token
  | none, ts => Linebreaks.limitBlankLines most 0 ts
  | some _, ts => limitRest most ts

theorem limitBlankLines_eq (most before : Nat) (ts : List Token) :
    Linebreaks.limitBlankLines most before ts =
      match ts.dropWhile (!·.isLinebreak) with
      | [] => ts
      | lb :: rest =>
        if (ts.takeWhile (!·.isLinebreak)).all isSpace then
          if before < most then
            ts.takeWhile (!·.isLinebreak) ++ lb ::
              Linebreaks.limitBlankLines most (before + 1) rest
          else Linebreaks.limitBlankLines most (before + 1) rest
        else ts.takeWhile (!·.isLinebreak) ++ lb :: Linebreaks.limitBlankLines most 0 rest := by
  rw [Linebreaks.limitBlankLines]
  split <;> rename_i h <;> rw [h]

theorem limitRest_cons {t : Token} (h : t.isLinebreak = false) (most : Nat) (ts : List Token) :
    limitRest most (t :: ts) = t :: limitRest most ts := by
  rw [limitRest, h, if_neg (by decide)]

theorem limitRest_space (most : Nat) (s : Option String) (ts : List Token) :
    limitRest most (Gap.space s ++ ts) = Gap.space s ++ limitRest most ts := by
  cases s with
  | none => rfl
  | some s => exact limitRest_cons rfl most ts

theorem dropWhile_line {t : Token} (h : t.isCode = true) (s : Option String) (ts : List Token) :
    (Gap.space s ++ t :: ts).dropWhile (!·.isLinebreak) = ts.dropWhile (!·.isLinebreak) := by
  cases s <;> simp [isLinebreak_of_isCode h]

theorem takeWhile_line {t : Token} (h : t.isCode = true) (s : Option String) (ts : List Token) :
    (Gap.space s ++ t :: ts).takeWhile (!·.isLinebreak) =
      Gap.space s ++ t :: ts.takeWhile (!·.isLinebreak) := by
  cases s <;> simp [isLinebreak_of_isCode h]

/-- A line with code on it is not blank. -/
theorem limitBlankLines_code {t : Token} (h : t.isCode = true) (most before : Nat)
    (s : Option String) (ts : List Token) :
    Linebreaks.limitBlankLines most before (Gap.space s ++ t :: ts) =
      Gap.space s ++ t :: limitRest most ts := by
  rw [limitBlankLines_eq, dropWhile_line h, takeWhile_line h, limitRest_eq]
  cases ts.dropWhile (!·.isLinebreak) with
  | nil => rfl
  | cons lb rest => simp [isSpace_of_isCode h]

theorem limitBlankLines_weave_nil (most before : Nat) (s : Option String) (cells : List Cell) :
    Linebreaks.limitBlankLines most before (weave eol ⟨[], s⟩ cells) =
      Gap.space s ++ onward eol (limitWalk most) cells := by
  cases cells with
  | nil => cases s <;> simp [limitBlankLines_eq, onward]
  | cons c cells =>
    rw [weave_cons, Gap.tokens_nil, limitBlankLines_code c.isCode]
    rfl

theorem limitBlankLines_weave_cons (most before : Nat) (a : Option String)
    (ended : List (Option String)) (s : Option String) (cells : List Cell) :
    Linebreaks.limitBlankLines most before (weave eol ⟨a :: ended, s⟩ cells) =
      if before < most then
        Gap.space a ++ ⟨.linebreak, eol⟩ ::
          Linebreaks.limitBlankLines most (before + 1) (weave eol ⟨ended, s⟩ cells)
      else Linebreaks.limitBlankLines most (before + 1) (weave eol ⟨ended, s⟩ cells) := by
  rw [weave_mk_cons, limitBlankLines_eq]
  cases a <;> simp

/-- Blank lines at the start of a line are kept while there are few of them. -/
theorem limitBlankLines_weave (most before : Nat) (g : Gap) (cells : List Cell) :
    Linebreaks.limitBlankLines most before (weave eol g cells) =
      (g.cap (most - before)).tokens eol ++ onward eol (limitWalk most) cells := by
  obtain ⟨ended, s⟩ := g
  induction ended generalizing before with
  | nil => simpa [Gap.cap] using limitBlankLines_weave_nil most before s cells
  | cons a ended ih =>
    rw [limitBlankLines_weave_cons, ih]
    split
    · rename_i hlt
      obtain ⟨n, hn⟩ : ∃ n, most - before = n + 1 := ⟨most - before - 1, by omega⟩
      rw [hn, show most - (before + 1) = n by omega]
      simp [Gap.cap]
    · rename_i hge
      rw [show most - before = 0 by omega, show most - (before + 1) = 0 by omega]
      simp [Gap.cap]

/-- No more blank lines in a row than allowed. -/
theorem limitBlankLines_tokens (most : Nat) (p : Page) :
    Linebreaks.limitBlankLines most 0 (p.tokens eol) =
      (p.touch fun t g _ => g.cap (if t.isSome then most + 1 else most)).tokens eol := by
  refine walk_tokens_of_onward (limitWalk most) (fun t g cells => ?_) p
  cases t with
  | none => exact limitBlankLines_weave most 0 g cells
  | some t =>
    show limitRest most (weave eol g cells) = _
    obtain ⟨ended, s⟩ := g
    cases ended with
    | nil =>
      rw [weave_mk_nil, limitRest_space]
      cases cells with
      | nil => simp [limitRest, onward, Gap.cap]
      | cons c cells =>
        rw [weave_cons, Gap.tokens_empty, List.nil_append,
          limitRest_cons (isLinebreak_of_isCode c.isCode)]
        rfl
    | cons a ended =>
      -- the line of the code token ends, and blank lines are counted from here
      rw [weave_mk_cons, limitRest_space, limitRest, if_pos (by simp), limitBlankLines_weave]
      simp [Gap.cap]

/-! ## The end of the text -/

/-- The text ends with one linebreak, if there is code in it. -/
theorem endWithLinebreak_tokens (p : Page) :
    Linebreaks.endWithLinebreak ⟨.linebreak, eol⟩ (p.tokens eol) =
      (p.touch fun t g u => if t.isSome && u.isNone then .line else g).tokens eol := by
  have hgap : ∀ (g : Gap), ∀ b ∈ g.tokens eol, b.isLayout = true :=
    fun g b => Gap.isLayout_of_mem_tokens
  -- everything before the last gap is passed by
  have hweave : ∀ (cells : List Cell) (init : List Token) (t : Token) (g : Gap), t.isCode = true →
      Linebreaks.endWithLinebreak ⟨.linebreak, eol⟩ (init ++ t :: weave eol g cells) =
        init ++ t :: weave eol (if (next cells).isNone then .line else g)
          (regapCells (fun t g cells => if t.isSome && (next cells).isNone then .line else g)
            cells) := by
    intro cells
    induction cells with
    | nil =>
      intro init t g ht
      rw [weave_nil, Relaid.endWithLinebreak_append _ _ ht (hgap g)]
      rfl
    | cons c cells ih =>
      intro init t g ht
      have h := ih (init ++ t :: g.tokens eol) c.code c.gap c.isCode
      simpa using h
  obtain ⟨lead, cells⟩ := p
  cases cells with
  | nil => exact Relaid.endWithLinebreak_of_isLayout _ (hgap lead)
  | cons c cells =>
    have h := hweave cells (lead.tokens eol) c.code c.gap c.isCode
    simpa [tokens, touch, regap] using h

/-! ## Indentation -/

/-- The blanks of a line at some level, if there are any. -/
def margin (i : Indent) (level : Nat) : Option String :=
  if (i.levels level).isEmpty then none else some (i.levels level)

/-- Whether a line starts at the end of the gap. -/
def startsLine (t : Option Token) (g : Gap) : Bool := t.isNone || g.breaks

/-- A gap and the cells after it, with every line indented.  The line of the code
token `t` before the gap is at `level`, and `scopes` holds the levels of the
scopes that are open after it. -/
def indentFrom (i : Indent) (level : Nat) (scopes : List Nat) (t : Option Token) (g : Gap) :
    List Cell → Page
  | [] => ⟨g, []⟩
  | c :: cells =>
    let level := if startsLine t g then Indentation.levelOf scopes c.code else level
    let rest := indentFrom i level (Indentation.scopesAfter level scopes [c.code]) (some c.code)
      c.gap cells
    ⟨if startsLine t g then ⟨g.ended, margin i level⟩ else g,
      ⟨c.code, rest.lead, c.isCode⟩ :: rest.cells⟩

/-- The page with every line indented that has code on it. -/
def indent (i : Indent) (p : Page) : Page := indentFrom i 0 [] none p.lead p.cells

theorem scopesAfter_cons (level : Nat) (scopes : List Nat) (t : Token) (ts : List Token) :
    Indentation.scopesAfter level scopes (t :: ts) =
      Indentation.scopesAfter level (Indentation.scopesAfter level scopes [t]) ts := by
  rw [Indentation.scopesAfter.eq_def, Indentation.scopesAfter.eq_def level scopes [t]]
  dsimp only
  split <;> rfl

theorem scopesAfter_space (level : Nat) (scopes : List Nat) (s : Option String) (ts : List Token) :
    Indentation.scopesAfter level scopes (Gap.space s ++ ts) =
      Indentation.scopesAfter level scopes ts := by
  cases s <;> rfl

/-- The walk that indents lines, in the middle of a line. -/
def indentRest (i : Indent) (level : Nat) (scopes : List Nat) : List Token → List Token
  | [] => []
  | t :: ts =>
    if t.isLinebreak then t :: Indentation.indentLines i scopes ts
    else t :: indentRest i level (Indentation.scopesAfter level scopes [t]) ts

theorem indentRest_eq (i : Indent) (level : Nat) (scopes : List Nat) (ts : List Token) :
    indentRest i level scopes ts =
      match ts.dropWhile (!·.isLinebreak) with
      | [] => ts
      | lb :: rest =>
        ts.takeWhile (!·.isLinebreak) ++ lb ::
          Indentation.indentLines i
            (Indentation.scopesAfter level scopes (ts.takeWhile (!·.isLinebreak))) rest := by
  induction ts generalizing scopes with
  | nil => rfl
  | cons t ts ih =>
    rw [indentRest]
    cases ht : t.isLinebreak with
    | true => simp [ht, Indentation.scopesAfter]
    | false =>
      simp only [Bool.false_eq_true, if_false, List.dropWhile_cons, List.takeWhile_cons, ht,
        Bool.not_false, if_true]
      rw [ih, scopesAfter_cons level scopes t (List.takeWhile _ ts)]
      cases ts.dropWhile (!·.isLinebreak) <;> rfl

theorem indentLines_eq (i : Indent) (scopes : List Nat) (ts : List Token) :
    Indentation.indentLines i scopes ts =
      match (ts.takeWhile (!·.isLinebreak)).find? (!·.isSpace), ts.dropWhile (!·.isLinebreak) with
      | none, [] => ts.takeWhile (!·.isLinebreak)
      | none, lb :: rest =>
        ts.takeWhile (!·.isLinebreak) ++ lb :: Indentation.indentLines i scopes rest
      | some first, [] =>
        Indentation.withIndent (i.levels (Indentation.levelOf scopes first))
          (ts.takeWhile (!·.isLinebreak))
      | some first, lb :: rest =>
        Indentation.withIndent (i.levels (Indentation.levelOf scopes first))
            (ts.takeWhile (!·.isLinebreak)) ++
          lb :: Indentation.indentLines i
            (Indentation.scopesAfter (Indentation.levelOf scopes first) scopes
              (ts.takeWhile (!·.isLinebreak))) rest := by
  rw [Indentation.indentLines]
  cases hfirst : (ts.takeWhile (!·.isLinebreak)).find? (!·.isSpace) with
  | none =>
    dsimp only
    split <;> rename_i h <;> rw [h]
  | some first =>
    dsimp only
    split <;> rename_i h <;> rw [h]

/-- A line that starts with a single space at most gets the margin of its level. -/
theorem withIndent_space_append (i : Indent) (level : Nat) (s : Option String) {body : List Token}
    (hbody : ∀ t ∈ body.head?, t.isSpace = false) :
    Indentation.withIndent (i.levels level) (Gap.space s ++ body) =
      Gap.space (margin i level) ++ body := by
  unfold Indentation.withIndent margin
  cases s with
  | some text => cases (i.levels level).isEmpty <;> simp
  | none =>
    cases body with
    | nil => cases (i.levels level).isEmpty <;> simp
    | cons t rest => cases (i.levels level).isEmpty <;> simp [hbody t rfl]

theorem withIndent_code {t : Token} (h : t.isCode = true) (i : Indent) (level : Nat)
    (s : Option String) (ts : List Token) :
    Indentation.withIndent (i.levels level) (Gap.space s ++ t :: ts) =
      Gap.space (margin i level) ++ t :: ts :=
  withIndent_space_append i level s (by simpa using isSpace_of_isCode h)

/-- A line with code on it gets the margin of its level. -/
theorem indentLines_code {t : Token} (h : t.isCode = true) (i : Indent) (scopes : List Nat)
    (s : Option String) (ts : List Token) :
    Indentation.indentLines i scopes (Gap.space s ++ t :: ts) =
      Gap.space (margin i (Indentation.levelOf scopes t)) ++
        t :: indentRest i (Indentation.levelOf scopes t)
          (Indentation.scopesAfter (Indentation.levelOf scopes t) scopes [t]) ts := by
  have hfind : (Gap.space s ++ t :: ts.takeWhile (!·.isLinebreak)).find? (!·.isSpace) = some t := by
    cases s <;> simp [isSpace_of_isCode h]
  rw [indentLines_eq, takeWhile_line h, dropWhile_line h, hfind, indentRest_eq]
  cases hrest : ts.dropWhile (!·.isLinebreak) with
  | nil =>
    have hts : ts.takeWhile (!·.isLinebreak) = ts := by
      have := List.takeWhile_append_dropWhile (p := fun t : Token => !t.isLinebreak) (l := ts)
      rwa [hrest, List.append_nil] at this
    simp only
    rw [withIndent_code h, hts]
  | cons lb rest =>
    simp only
    rw [withIndent_code h, scopesAfter_space,
      scopesAfter_cons _ scopes t (List.takeWhile _ ts), List.append_assoc, List.cons_append]

/-- Blank lines stay as they are. -/
theorem indentLines_blank (i : Indent) (scopes : List Nat) (s : Option String) (ts : List Token) :
    Indentation.indentLines i scopes (Gap.space s ++ ⟨.linebreak, eol⟩ :: ts) =
      Gap.space s ++ ⟨.linebreak, eol⟩ :: Indentation.indentLines i scopes ts := by
  rw [indentLines_eq]
  cases s <;> simp

theorem indentLines_gap (i : Indent) (scopes : List Nat) (g : Gap) :
    Indentation.indentLines i scopes (g.tokens eol) = g.tokens eol := by
  obtain ⟨ended, s⟩ := g
  induction ended with
  | nil =>
    rw [indentLines_eq]
    cases s <;> simp
  | cons a ended ih => rw [Gap.tokens_cons, indentLines_blank, ih]

/-- A gap at whose end a line starts. -/
theorem indentLines_gap_append (i : Indent) (scopes : List Nat) (g : Gap) (c : Cell)
    (cells : List Cell) :
    Indentation.indentLines i scopes (weave eol g (c :: cells)) =
      Gap.tokens eol ⟨g.ended, margin i (Indentation.levelOf scopes c.code)⟩ ++
        c.code :: indentRest i (Indentation.levelOf scopes c.code)
          (Indentation.scopesAfter (Indentation.levelOf scopes c.code) scopes [c.code])
          (weave eol c.gap cells) := by
  obtain ⟨ended, s⟩ := g
  induction ended with
  | nil => exact indentLines_code c.isCode i scopes s _
  | cons a ended ih =>
    rw [weave_mk_cons, indentLines_blank, ih]
    simp

theorem indentRest_cons {t : Token} (h : t.isLinebreak = false) (i : Indent) (level : Nat)
    (scopes : List Nat) (ts : List Token) :
    indentRest i level scopes (t :: ts) =
      t :: indentRest i level (Indentation.scopesAfter level scopes [t]) ts := by
  rw [indentRest, h, if_neg (by decide)]

theorem indentRest_space (i : Indent) (level : Nat) (scopes : List Nat) (s : Option String)
    (ts : List Token) :
    indentRest i level scopes (Gap.space s ++ ts) =
      Gap.space s ++ indentRest i level scopes ts := by
  cases s with
  | none => rfl
  | some s => exact indentRest_cons rfl i level scopes ts

/-- From the middle of a line on. -/
theorem indentRest_weave (i : Indent) (level : Nat) (scopes : List Nat) (t : Token) (g : Gap)
    (cells : List Cell) :
    indentRest i level scopes (weave eol g cells) =
      (indentFrom i level scopes (some t) g cells).tokens eol := by
  induction cells generalizing level scopes t g with
  | nil =>
    obtain ⟨ended, s⟩ := g
    cases ended with
    | nil => cases s <;> simp [indentFrom, tokens, indentRest]
    | cons a ended =>
      rw [weave_nil, Gap.tokens_cons, indentRest_space, indentRest, if_pos (by simp),
        indentLines_gap]
      simp [indentFrom, tokens]
  | cons c cells ih =>
    obtain ⟨ended, s⟩ := g
    cases ended with
    | nil =>
      rw [weave_cons, Gap.tokens_nil, indentRest_space,
        indentRest_cons (isLinebreak_of_isCode c.isCode), ih _ _ c.code]
      simp [indentFrom, tokens, startsLine]
    | cons a ended =>
      rw [weave_mk_cons, indentRest_space, indentRest, if_pos (by simp), indentLines_gap_append,
        ih _ _ c.code]
      simp [indentFrom, tokens, startsLine]

/-- Every line with code on it is indented. -/
theorem indentLines_tokens (i : Indent) (p : Page) :
    Indentation.indentLines i [] (p.tokens eol) = (p.indent i).tokens eol := by
  obtain ⟨lead, cells⟩ := p
  cases cells with
  | nil => exact indentLines_gap i [] lead
  | cons c cells =>
    rw [tokens, indentLines_gap_append, indentRest_weave _ _ _ c.code]
    simp [indent, indentFrom, tokens, startsLine]

end Page
end Restyle
