import Mathlib.Data.List.Basic
import Restyle.Proofs.Layout.Rules

/-!
# Pages: code tokens and the gaps between them

Between two code tokens there is a gap, which holds spaces and linebreaks only.
Nearly everything that the rules do is local to a gap: what becomes of it depends
on its contents and on the code tokens at its two ends.  A page is a list of
tokens cut up accordingly.

The linebreaks of a page are all alike, and no two spaces of it stand side by
side.  A gap is then given by the lines that end in it, each with the space before
its linebreak, and by the space after the last linebreak.  If no line ends in it,
the gap lies within a line and is one space or nothing.

* `Page.tokens` writes a page down; `Page.read` reads a list of tokens as a page.
* `tokens_read`: what is read is the list with its linebreaks made alike and its
  spaces joined.  `read_tokens`: nothing is lost the other way round.
* `Page.regap` changes the gaps of a page, each by itself, and `walk_tokens` turns
  a statement about one gap into one about a whole page.  `Page.touch` is the case
  in which the change is told by the code tokens at the two ends of a gap.
-/

namespace Restyle

open Token

/-! ## Gaps -/

/-- The blanks between two code tokens. -/
structure Gap where
  /-- The space before each linebreak. -/
  ended : List (Option String)
  /-- The space after the last linebreak. -/
  last : Option String
deriving Repr, DecidableEq

namespace Gap

/-- A space, if there is one. -/
def space : Option String → List Token
  | none => []
  | some text => [⟨.space, text⟩]

@[simp] theorem space_none : space none = [] := rfl

@[simp] theorem space_some (text : String) : space (some text) = [⟨.space, text⟩] := rfl

/-- The tokens of a gap, with `eol` for the text of a linebreak. -/
def tokens (eol : String) (g : Gap) : List Token :=
  g.ended.flatMap (fun s => space s ++ [⟨.linebreak, eol⟩]) ++ space g.last

@[simp] theorem tokens_nil (eol : String) (s : Option String) :
    tokens eol ⟨[], s⟩ = space s := rfl

@[simp] theorem tokens_cons (eol : String) (a : Option String) (ended : List (Option String))
    (s : Option String) :
    tokens eol ⟨a :: ended, s⟩ = space a ++ ⟨.linebreak, eol⟩ :: tokens eol ⟨ended, s⟩ := by
  simp [tokens]

/-- The gap without any blank. -/
def empty : Gap := ⟨[], none⟩

/-- The gap of one single space. -/
def single : Gap := ⟨[], some " "⟩

@[simp] theorem tokens_empty (eol : String) : empty.tokens eol = [] := rfl

@[simp] theorem tokens_single (eol : String) : single.tokens eol = [oneSpace] := rfl

/-- Two spaces that stand side by side. -/
def joinSpace : Option String → Option String → Option String
  | none, t => t
  | some s, none => some s
  | some s, some t => some (s ++ t)

@[simp] theorem joinSpace_none_left (t : Option String) : joinSpace none t = t := rfl

@[simp] theorem joinSpace_none_right (s : Option String) : joinSpace s none = s := by
  cases s <;> rfl

theorem joinSpace_assoc (r s t : Option String) :
    joinSpace (joinSpace r s) t = joinSpace r (joinSpace s t) := by
  cases r <;> cases s <;> cases t <;> simp [joinSpace, String.append_assoc]

/-- Two gaps with nothing in between. -/
def append : Gap → Gap → Gap
  | g, ⟨[], t⟩ => ⟨g.ended, joinSpace g.last t⟩
  | g, ⟨a :: rest, t⟩ => ⟨g.ended ++ joinSpace g.last a :: rest, t⟩

@[simp] theorem append_empty (g : Gap) : g.append empty = g := by simp [append, empty]

@[simp] theorem empty_append (g : Gap) : empty.append g = g := by
  obtain ⟨ended, s⟩ := g
  cases ended <;> simp [append, empty]

theorem append_assoc (g h k : Gap) : (g.append h).append k = g.append (h.append k) := by
  obtain ⟨he, hl⟩ := h
  obtain ⟨ke, kl⟩ := k
  cases he <;> cases ke <;> simp [append, joinSpace_assoc]

end Gap

/-! ## Pages -/

/-- A code token and the gap after it. -/
structure Cell where
  /-- The code token. -/
  code : Token
  /-- The gap after it. -/
  gap : Gap
  /-- It is code. -/
  isCode : code.isCode = true

/-- A list of tokens, cut into code tokens and gaps. -/
structure Page where
  /-- The gap before the first code token. -/
  lead : Gap
  /-- The code tokens, each with the gap after it. -/
  cells : List Cell

namespace Page

/-- A gap and the cells after it, written down. -/
def weave (eol : String) (g : Gap) : List Cell → List Token
  | [] => g.tokens eol
  | c :: cells => g.tokens eol ++ c.code :: weave eol c.gap cells

@[simp] theorem weave_nil (eol : String) (g : Gap) : weave eol g [] = g.tokens eol := rfl

@[simp] theorem weave_cons (eol : String) (g : Gap) (c : Cell) (cells : List Cell) :
    weave eol g (c :: cells) = g.tokens eol ++ c.code :: weave eol c.gap cells := rfl

/-- The tokens of a page, with `eol` for the text of a linebreak. -/
def tokens (eol : String) (p : Page) : List Token := weave eol p.lead p.cells

/-- The page with one token more in front. -/
def cons (t : Token) (p : Page) : Page :=
  if h : t.isCode = true then ⟨.empty, ⟨t, p.lead, h⟩ :: p.cells⟩
  else if t.isSpace then ⟨Gap.append ⟨[], some t.text⟩ p.lead, p.cells⟩
  else ⟨Gap.append ⟨[none], none⟩ p.lead, p.cells⟩

/-- A list of tokens as a page.  Spaces that stand side by side are joined, and
the texts of linebreaks are forgotten. -/
def read : List Token → Page
  | [] => ⟨.empty, []⟩
  | t :: rest => cons t (read rest)

theorem cons_of_isCode {t : Token} (h : t.isCode = true) (p : Page) :
    cons t p = ⟨.empty, ⟨t, p.lead, h⟩ :: p.cells⟩ := dif_pos h

theorem cons_of_isSpace {t : Token} (h : t.isSpace = true) (p : Page) :
    cons t p = ⟨Gap.append ⟨[], some t.text⟩ p.lead, p.cells⟩ := by
  unfold cons
  rw [dif_neg (by simp [Token.isCode, isLayout, h]), if_pos h]

theorem cons_of_isLinebreak {t : Token} (h : t.isLinebreak = true) (p : Page) :
    cons t p = ⟨Gap.append ⟨[none], none⟩ p.lead, p.cells⟩ := by
  unfold cons
  rw [dif_neg (by simp [Token.isCode, isLayout, h]),
    if_neg (by rw [Relaid.isSpace_of_isLinebreak h]; decide)]

/-- The three sorts of tokens. -/
theorem sort (t : Token) :
    t.isCode = true ∨ t = ⟨.space, t.text⟩ ∨ t = ⟨.linebreak, t.text⟩ := by
  obtain ⟨kind, text⟩ := t
  cases kind <;> simp [Token.isCode, isLayout, isSpace, isLinebreak]

@[simp] theorem isSpace_space (text : String) : isSpace ⟨.space, text⟩ = true := rfl

@[simp] theorem isSpace_linebreak (text : String) : isSpace ⟨.linebreak, text⟩ = false := rfl

@[simp] theorem isLinebreak_space (text : String) : isLinebreak ⟨.space, text⟩ = false := rfl

@[simp] theorem isLinebreak_linebreak (text : String) : isLinebreak ⟨.linebreak, text⟩ = true := rfl

/-- A code token is neither a space nor a linebreak. -/
theorem isSpace_of_isCode {t : Token} (h : t.isCode = true) : t.isSpace = false := by
  simp only [Token.isCode, isLayout, Bool.not_eq_true', Bool.or_eq_false_iff] at h
  exact h.1

theorem isLinebreak_of_isCode {t : Token} (h : t.isCode = true) : t.isLinebreak = false := by
  simp only [Token.isCode, isLayout, Bool.not_eq_true', Bool.or_eq_false_iff] at h
  exact h.2

/-! ## Writing and reading -/

/-- A linebreak in front ends one more line. -/
theorem append_linebreak (g : Gap) : Gap.append ⟨[none], none⟩ g = ⟨none :: g.ended, g.last⟩ := by
  obtain ⟨ended, s⟩ := g
  cases ended <;> simp [Gap.append]

/-- A space in front is joined to the first token, if that is a space too. -/
theorem weave_append_space (eol text : String) (g : Gap) (cells : List Cell) :
    weave eol (Gap.append ⟨[], some text⟩ g) cells =
      Spacing.consJoined ⟨.space, text⟩ (weave eol g cells) := by
  obtain ⟨ended, s⟩ := g
  cases ended with
  | nil =>
    cases cells with
    | nil => cases s <;> simp [Gap.append, Gap.joinSpace, Spacing.consJoined, isSpace]
    | cons c cells =>
      have hc := isSpace_of_isCode c.isCode
      cases s with
      | none => simp [Gap.append, Relaid.consJoined_cons_of_not_isSpace hc]
      | some s => simp [Gap.append, Gap.joinSpace, Spacing.consJoined, isSpace]
  | cons a ended =>
    cases cells <;> cases a <;>
      simp [Gap.append, Gap.joinSpace, Spacing.consJoined, isSpace]

/-- **What a page keeps of a list of tokens**: everything but the texts of
linebreaks and the seams between spaces. -/
theorem tokens_read (eol : String) (ts : List Token) :
    (read ts).tokens eol = Spacing.joinSpaces (Linebreaks.unify eol ts) := by
  induction ts with
  | nil => rfl
  | cons t ts ih =>
    have hjoin : Spacing.joinSpaces (Linebreaks.unify eol (t :: ts)) =
        Spacing.consJoined (if t.isLinebreak then ⟨.linebreak, eol⟩ else t)
          ((read ts).tokens eol) := by
      rw [ih]
      rfl
    rw [hjoin, read]
    rcases sort t with hcode | hspace | hbreak
    · rw [cons_of_isCode hcode, isLinebreak_of_isCode hcode, if_neg (by decide),
        Relaid.consJoined_of_not_isSpace (isSpace_of_isCode hcode)]
      simp [tokens]
    · rw [hspace, cons_of_isSpace rfl, if_neg (by simp [isLinebreak])]
      exact weave_append_space eol t.text _ _
    · rw [hbreak, cons_of_isLinebreak rfl, if_pos (by rfl), append_linebreak,
        Relaid.consJoined_of_not_isSpace rfl]
      cases hcells : (read ts).cells <;> simp [tokens, hcells]

/-- A gap in front is read into the first gap. -/
theorem read_gap (eol : String) (g : Gap) (ts : List Token) :
    read (g.tokens eol ++ ts) = ⟨g.append (read ts).lead, (read ts).cells⟩ := by
  obtain ⟨ended, s⟩ := g
  have hspace : ∀ (s : Option String) (us : List Token),
      read (Gap.space s ++ us) = ⟨Gap.append ⟨[], s⟩ (read us).lead, (read us).cells⟩ := by
    intro s us
    cases s with
    | none => exact congrArg (Page.mk · (read us).cells) (Gap.empty_append _).symm
    | some s => exact cons_of_isSpace rfl _
  induction ended with
  | nil => exact hspace s ts
  | cons a ended ih =>
    rw [Gap.tokens_cons, List.append_assoc, hspace, List.cons_append, read,
      cons_of_isLinebreak rfl, ih, ← Gap.append_assoc, ← Gap.append_assoc]
    congr 2
    cases ended <;> simp [Gap.append]

theorem read_weave (eol : String) (g : Gap) (cells : List Cell) :
    read (weave eol g cells) = ⟨g, cells⟩ := by
  induction cells generalizing g with
  | nil =>
    have h := read_gap eol g []
    rw [List.append_nil] at h
    rw [weave_nil, h, read, Gap.append_empty]
  | cons c cells ih =>
    rw [weave_cons, read_gap, read, cons_of_isCode c.isCode, ih, Gap.append_empty]

/-- **A page is read back from its tokens.** -/
theorem read_tokens (eol : String) (p : Page) : read (p.tokens eol) = p :=
  read_weave eol p.lead p.cells

/-- All linebreaks of a page are alike. -/
theorem eq_of_mem_tokens {eol : String} {p : Page} {t : Token} (ht : t ∈ p.tokens eol)
    (hbreak : t.isLinebreak = true) : t = ⟨.linebreak, eol⟩ := by
  have hgap : ∀ g : Gap, t ∈ g.tokens eol → t = ⟨.linebreak, eol⟩ := by
    rintro ⟨ended, s⟩ h
    have hspace : ∀ s : Option String, t ∉ Gap.space s := by
      rintro (_ | s) hs
      · simp at hs
      · rw [List.mem_singleton.1 hs] at hbreak
        exact absurd hbreak (by simp [isLinebreak])
    induction ended with
    | nil => exact absurd h (hspace s)
    | cons a ended ih =>
      rw [Gap.tokens_cons, List.mem_append, List.mem_cons] at h
      rcases h with h | rfl | h
      · exact absurd h (hspace a)
      · rfl
      · exact ih h
  obtain ⟨g, cells⟩ := p
  unfold tokens at ht
  induction cells generalizing g with
  | nil => exact hgap g ht
  | cons c cells ih =>
    rw [weave_cons, List.mem_append, List.mem_cons] at ht
    rcases ht with ht | rfl | ht
    · exact hgap g ht
    · exact absurd hbreak (by simp [isLinebreak_of_isCode c.isCode])
    · exact ih c.gap ht

theorem unify_eq_self {eol : String} {ts : List Token}
    (h : ∀ t ∈ ts, t.isLinebreak = true → t = ⟨.linebreak, eol⟩) :
    Linebreaks.unify eol ts = ts := by
  unfold Linebreaks.unify
  refine (List.map_congr_left fun t ht => ?_).trans (List.map_id _)
  split
  · rename_i hbreak
    exact (h t ht hbreak).symm
  · rfl

theorem unify_unify (eol : String) (ts : List Token) :
    Linebreaks.unify eol (Linebreaks.unify eol ts) = Linebreaks.unify eol ts := by
  refine unify_eq_self fun t ht hbreak => ?_
  obtain ⟨u, -, rfl⟩ := List.mem_map.1 ht
  split
  · rfl
  · rename_i hu
    rw [if_neg hu] at hbreak
    exact absurd hbreak hu

theorem unify_tokens (eol : String) (p : Page) :
    Linebreaks.unify eol (p.tokens eol) = p.tokens eol :=
  unify_eq_self fun _ => eq_of_mem_tokens

theorem joinSpaces_tokens (eol : String) (p : Page) :
    Spacing.joinSpaces (p.tokens eol) = p.tokens eol := by
  have h := tokens_read eol (p.tokens eol)
  rw [read_tokens, unify_tokens] at h
  exact h.symm

/-- Joining leaves no two spaces side by side. -/
theorem isChain_joinSpaces (ts : List Token) :
    (Spacing.joinSpaces ts).IsChain fun t u => ¬(t.isSpace = true ∧ u.isSpace = true) := by
  induction ts with
  | nil => exact .nil
  | cons t ts ih =>
    rw [Spacing.joinSpaces]
    cases hjoined : Spacing.joinSpaces ts with
    | nil => exact .singleton t
    | cons u us =>
      rw [hjoined] at ih
      rw [Spacing.consJoined]
      split
      · rename_i hspaces
        rw [Bool.and_eq_true] at hspaces
        refine ih.imp_head fun {v} huv htv => huv ⟨hspaces.2, htv.2⟩
      · rename_i hspaces
        exact .cons_cons (by simpa using hspaces) ih

/-- **The blanks of a page can be told apart** when its tokens are read again. -/
theorem tidy_tokens (eol : String) (p : Page) : Tidy (p.tokens eol) := by
  have hchain := isChain_joinSpaces (p.tokens eol)
  rw [joinSpaces_tokens] at hchain
  refine hchain.imp_of_mem_imp fun t u ht hu hspaces => ⟨hspaces, ?_⟩
  rintro ⟨rfl, rfl⟩
  have hcr := eq_of_mem_tokens ht rfl
  have hlf := eq_of_mem_tokens hu rfl
  exact absurd (hcr.trans hlf.symm) (by decide)

/-! ## Changing gaps -/

/-- The code token that comes next. -/
def next : List Cell → Option Token
  | [] => none
  | c :: _ => some c.code

@[simp] theorem next_nil : next [] = none := rfl

@[simp] theorem next_cons (c : Cell) (cells : List Cell) : next (c :: cells) = some c.code := rfl

/-- The cells with their gaps changed by `f`, which is told the code token before
a gap and the cells after it. -/
def regapCells (f : Option Token → Gap → List Cell → Gap) : List Cell → List Cell
  | [] => []
  | c :: cells => ⟨c.code, f (some c.code) c.gap cells, c.isCode⟩ :: regapCells f cells

@[simp] theorem regapCells_nil (f : Option Token → Gap → List Cell → Gap) :
    regapCells f [] = [] := rfl

@[simp] theorem regapCells_cons (f : Option Token → Gap → List Cell → Gap) (c : Cell)
    (cells : List Cell) :
    regapCells f (c :: cells) =
      ⟨c.code, f (some c.code) c.gap cells, c.isCode⟩ :: regapCells f cells := rfl

@[simp] theorem next_regapCells (f : Option Token → Gap → List Cell → Gap) (cells : List Cell) :
    next (regapCells f cells) = next cells := by
  cases cells <;> rfl

/-- The page with its gaps changed by `f`. -/
def regap (f : Option Token → Gap → List Cell → Gap) (p : Page) : Page :=
  ⟨f none p.lead p.cells, regapCells f p.cells⟩

/-- The page with its gaps changed by `f`, which is told the code tokens at the two
ends of a gap. -/
def touch (f : Option Token → Gap → Option Token → Gap) (p : Page) : Page :=
  p.regap fun t g cells => f t g (next cells)

/-- Two changes of gaps, one after the other. -/
theorem touch_touch (f h : Option Token → Gap → Option Token → Gap) (p : Page) :
    (p.touch f).touch h = p.touch fun t g u => h t (f t g u) u := by
  have hcells : ∀ cells : List Cell,
      regapCells (fun t g cells => h t g (next cells))
          (regapCells (fun t g cells => f t g (next cells)) cells) =
        regapCells (fun t g cells => h t (f t g (next cells)) (next cells)) cells := by
    intro cells
    induction cells with
    | nil => rfl
    | cons c cells ih => rw [regapCells_cons, regapCells_cons, ih, next_regapCells, regapCells_cons]
  simp only [touch, regap, hcells, next_regapCells]

/-- **A walk over tokens that is a walk over gaps.**  If a function that keeps the
last code token in mind treats a gap as `f` does, and then goes on after the next
code token, it treats the whole page as `f` does. -/
theorem walk_tokens {eol : String} (walk : Option Token → List Token → List Token)
    {f : Option Token → Gap → List Cell → Gap}
    (hlast : ∀ t g, (∀ d ∈ t, d.isCode = true) → walk t (g.tokens eol) = (f t g []).tokens eol)
    (hcode : ∀ t g c cells, (∀ d ∈ t, d.isCode = true) →
      walk t (g.tokens eol ++ c.code :: weave eol c.gap cells) =
        (f t g (c :: cells)).tokens eol ++ c.code :: walk (some c.code) (weave eol c.gap cells))
    (p : Page) : walk none (p.tokens eol) = (p.regap f).tokens eol := by
  have hweave : ∀ (cells : List Cell) (t : Option Token) (g : Gap), (∀ d ∈ t, d.isCode = true) →
      walk t (weave eol g cells) = weave eol (f t g cells) (regapCells f cells) := by
    intro cells
    induction cells with
    | nil => exact fun t g ht => hlast t g ht
    | cons c cells ih =>
      intro t g ht
      rw [weave_cons, hcode t g c cells ht, regapCells_cons, weave_cons,
        ih (some c.code) c.gap (by simpa using c.isCode)]
  exact hweave p.cells none p.lead (by simp)

/-! ## Statements about every gap -/

/-- Every gap from `g` on satisfies `P`, together with the code tokens at its two
ends.  The code token before `g` is `t`. -/
def EachFrom (P : Option Token → Gap → Option Token → Prop) (t : Option Token) (g : Gap) :
    List Cell → Prop
  | [] => P t g none
  | c :: cells => P t g (some c.code) ∧ EachFrom P (some c.code) c.gap cells

/-- Every gap of a page satisfies `P`, together with the code tokens at its two
ends. -/
def Each (P : Option Token → Gap → Option Token → Prop) (p : Page) : Prop :=
  EachFrom P none p.lead p.cells

section Each

variable {P Q : Option Token → Gap → Option Token → Prop}
  {f : Option Token → Gap → Option Token → Gap}

/-- A change of gaps that brings `Q` about at every gap where `P` holds. -/
theorem Each.touch {p : Page} (hp : p.Each P) (h : ∀ t g u, P t g u → Q t (f t g u) u) :
    (p.touch f).Each Q := by
  have hfrom : ∀ (cells : List Cell) (t : Option Token) (g : Gap), EachFrom P t g cells →
      EachFrom Q t (f t g (next cells))
        (regapCells (fun t g cells => f t g (next cells)) cells) := by
    intro cells
    induction cells with
    | nil => exact fun t g hg => h t g none hg
    | cons c cells ih => exact fun t g hg => ⟨h t g (some c.code) hg.1, ih _ _ hg.2⟩
  exact hfrom p.cells none p.lead hp

/-- A change of gaps that brings `Q` about everywhere. -/
theorem each_touch (h : ∀ t g u, Q t (f t g u) u) (p : Page) : (p.touch f).Each Q := by
  have hfrom : ∀ (cells : List Cell) (t : Option Token) (g : Gap),
      EachFrom (fun _ _ _ => True) t g cells := by
    intro cells
    induction cells with
    | nil => exact fun t g => trivial
    | cons c cells ih => exact fun t g => ⟨trivial, ih _ _⟩
  exact Each.touch (hfrom p.cells none p.lead) fun t g u _ => h t g u

/-- A change of gaps that leaves every gap alone leaves the page alone. -/
theorem touch_eq_self {p : Page} (hp : p.Each P) (h : ∀ t g u, P t g u → f t g u = g) :
    p.touch f = p := by
  have hfrom : ∀ (cells : List Cell) (t : Option Token) (g : Gap), EachFrom P t g cells →
      f t g (next cells) = g ∧
        regapCells (fun t g cells => f t g (next cells)) cells = cells := by
    intro cells
    induction cells with
    | nil => exact fun t g hg => ⟨h t g none hg, rfl⟩
    | cons c cells ih =>
      intro t g hg
      obtain ⟨hgap, hcells⟩ := ih _ _ hg.2
      exact ⟨h t g (some c.code) hg.1, by rw [regapCells_cons, hgap, hcells]⟩
  obtain ⟨hgap, hcells⟩ := hfrom p.cells none p.lead hp
  exact congrArg₂ Page.mk hgap hcells

end Each

end Page
end Restyle
