import Restyle.Proofs.Page.Basic

/-!
# The rules on spaces, gap by gap

The rules on spaces within a line are of two sorts.  Some put a single space
between two code tokens that have nothing in between; the others go from space to
space and change or remove it.  Either way the effect on a page is a change of its
gaps, and it is told by the code tokens at the two ends of a gap.

* `Inserts.tokens` and `Edits.tokens` say this once for each sort.
* `inserts_aroundBraces`, `inserts_aroundOperators` and `inserts_afterCommas` are the
  rules of the first sort.
* `beforeCommas_tokens`, `insideBrackets_tokens`, `singleSpaces_tokens` and
  `trimLines_tokens` say what the rules of the second sort do to a gap.
-/

namespace Restyle

open Token

namespace Gap

/-- A gap without any blank, filled with a single space if one is wanted. -/
def fill (wanted : Bool) (g : Gap) : Gap := if wanted && g = empty then single else g

/-- A gap within a line, emptied if no space is wanted. -/
def clear (unwanted : Bool) (g : Gap) : Gap := if unwanted && g.ended.isEmpty then empty else g

/-- A gap within a line between two code tokens, narrowed to a single space. -/
def narrow (inner : Bool) (g : Gap) : Gap :=
  if inner && g.ended.isEmpty then ⟨[], g.last.map fun _ => " "⟩ else g

/-- A gap without the spaces at the ends of lines.  With `keep`, a space that is
all there is on its line stays. -/
def trim (keep : Bool) (t : Option Token) (g : Gap) (u : Option Token) : Gap :=
  match g with
  | ⟨[], s⟩ => ⟨[], if u.isNone && !(keep && t.isNone) then none else s⟩
  | ⟨a :: more, s⟩ =>
    ⟨(if keep && t.isNone then a else none) :: more.map (fun b => if keep then b else none),
      if u.isNone && !keep then none else s⟩

/-- The tokens of a gap are blanks. -/
theorem isLayout_of_mem_tokens {eol : String} {g : Gap} {b : Token} (h : b ∈ g.tokens eol) :
    b.isLayout = true := by
  obtain ⟨ended, s⟩ := g
  have hspace : ∀ s : Option String, b ∈ space s → b.isLayout = true := by
    rintro (_ | s) hs
    · simp at hs
    · rw [List.mem_singleton.1 hs]
      rfl
  induction ended with
  | nil => exact hspace s h
  | cons a ended ih =>
    rw [tokens_cons, List.mem_append, List.mem_cons] at h
    rcases h with h | rfl | h
    · exact hspace a h
    · rfl
    · exact ih h

theorem eq_empty_of_tokens {eol : String} {g : Gap} (h : g.tokens eol = []) : g = empty := by
  obtain ⟨ended, s⟩ := g
  cases ended with
  | nil =>
    cases s with
    | none => rfl
    | some s => simp at h
  | cons a ended => simp at h

theorem fill_eq_self {g : Gap} (h : g ≠ empty) (wanted : Bool) : g.fill wanted = g := by
  simp [fill, h]

end Gap

namespace Page

variable {eol : String}

/-! ## Rules that put spaces in -/

/-- The rule puts single spaces between code tokens, and does nothing else: one
before a token if `before` says so, which is told the last token written, and one
after a token if `after` says so, which is told the next token. -/
structure Inserts (rule : Option Token → List Token → List Token)
    (before : Option Token → Token → Bool) (after : Token → Option Token → Bool) : Prop where
  /-- There is nothing to do at the end. -/
  nil : ∀ q, rule q [] = []
  /-- What happens to one token. -/
  cons : ∀ q t rest, rule q (t :: rest) =
    (if before q t then [oneSpace] else []) ++
      t :: (if after t rest.head? then oneSpace :: rule (some oneSpace) rest
        else rule (some t) rest)
  /-- A space is put before a code token that follows on a code token. -/
  of_before : ∀ q t, before q t = true → t.isCode = true ∧ ∃ v, q = some v ∧ v.isCode = true
  /-- A space is put after a code token that a code token follows on. -/
  of_after : ∀ t u, after t u = true → t.isCode = true ∧ ∃ v, u = some v ∧ v.isCode = true

namespace Inserts

variable {rule : Option Token → List Token → List Token} {before : Option Token → Token → Bool}
  {after : Token → Option Token → Bool}

/-- Whether a single space is put between two code tokens, before the second or
after the first. -/
def apart (before : Option Token → Token → Bool) (after : Token → Option Token → Bool) :
    Option Token → Option Token → Bool
  | some t, some u => before (some t) u || after t (some u)
  | _, _ => false

/-- The rule from a code token on, with the space that is put after it. -/
def walk (rule : Option Token → List Token → List Token) (after : Token → Option Token → Bool) :
    Option Token → List Token → List Token
  | none, ts => rule none ts
  | some t, ts =>
    if after t ts.head? then oneSpace :: rule (some oneSpace) ts else rule (some t) ts

theorem before_eq_false (h : Inserts rule before after) {q : Option Token} {t : Token}
    (hblank : t.isLayout = true ∨ ∀ v ∈ q, v.isLayout = true) : before q t = false := by
  by_contra hbefore
  obtain ⟨ht, v, rfl, hv⟩ := h.of_before q t (by simpa using hbefore)
  rcases hblank with hblank | hblank
  · simp [Token.isCode, hblank] at ht
  · simp [Token.isCode, hblank v rfl] at hv

theorem after_eq_false (h : Inserts rule before after) {t : Token} {u : Option Token}
    (hblank : t.isLayout = true ∨ ∀ v ∈ u, v.isLayout = true) : after t u = false := by
  by_contra hafter
  obtain ⟨ht, v, rfl, hv⟩ := h.of_after t u (by simpa using hafter)
  rcases hblank with hblank | hblank
  · simp [Token.isCode, hblank] at ht
  · simp [Token.isCode, hblank v rfl] at hv

theorem cons_of_isLayout (h : Inserts rule before after) {b : Token} (hb : b.isLayout = true)
    (q : Option Token) (rest : List Token) : rule q (b :: rest) = b :: rule (some b) rest := by
  rw [h.cons, h.before_eq_false (Or.inl hb), h.after_eq_false (Or.inl hb)]
  rfl

/-- Blanks are passed by. -/
theorem through_end (h : Inserts rule before after) {bs : List Token}
    (hbs : ∀ b ∈ bs, b.isLayout = true) (q : Option Token) : rule q bs = bs := by
  induction bs generalizing q with
  | nil => exact h.nil q
  | cons b bs ih =>
    rw [h.cons_of_isLayout (hbs b List.mem_cons_self),
      ih fun d hd => hbs d (List.mem_cons_of_mem _ hd)]

/-- Blanks are passed by, and no space is put before a token that follows on a
blank. -/
theorem through (h : Inserts rule before after) {bs : List Token}
    (hbs : ∀ b ∈ bs, b.isLayout = true) {q : Option Token} (hq : ∀ v ∈ q, v.isLayout = true)
    (t : Token) (rest : List Token) :
    rule q (bs ++ t :: rest) = bs ++ t :: walk rule after (some t) rest := by
  induction bs generalizing q with
  | nil =>
    rw [List.nil_append, h.cons, h.before_eq_false (Or.inr hq)]
    rfl
  | cons b bs ih =>
    have hb := hbs b List.mem_cons_self
    rw [List.cons_append, h.cons_of_isLayout hb,
      ih (fun d hd => hbs d (List.mem_cons_of_mem _ hd)) (by simpa using hb), List.cons_append]

/-- **A rule that puts single spaces between code tokens fills gaps.** -/
theorem tokens (h : Inserts rule before after) (p : Page) :
    rule none (p.tokens eol) =
      (p.touch fun t g u => g.fill (apart before after t u)).tokens eol := by
  refine walk_tokens (walk rule after) (fun t g ht => ?_) (fun t g c cells ht => ?_) p
  · have hblank : ∀ b ∈ g.tokens eol, b.isLayout = true := fun b => Gap.isLayout_of_mem_tokens
    have hfill : g.fill (apart before after t (next [])) = g := by cases t <;> rfl
    beta_reduce
    rw [hfill]
    cases t with
    | none => exact h.through_end hblank none
    | some t =>
      rw [walk, h.after_eq_false (Or.inr fun v hv => hblank v (List.mem_of_mem_head? hv)),
        if_neg (by decide), h.through_end hblank]
  · have hblank : ∀ b ∈ g.tokens eol, b.isLayout = true := fun b => Gap.isLayout_of_mem_tokens
    cases t with
    | none => exact h.through hblank (by simp) _ _
    | some t =>
      rw [walk]
      cases htokens : g.tokens eol with
      | nil =>
        obtain rfl := Gap.eq_empty_of_tokens htokens
        rw [List.nil_append, List.head?_cons, h.cons, h.cons, h.before_eq_false (q := some oneSpace)
          (Or.inr (by simp [oneSpace, isLayout, isSpace]))]
        cases hb : before (some t) c.code <;> cases ha : after t (some c.code) <;>
          simp [Gap.fill, apart, hb, ha, walk]
      | cons b bs =>
        rw [htokens] at hblank
        have hb := hblank b List.mem_cons_self
        have hg : g ≠ .empty := by
          rintro rfl
          simp at htokens
        beta_reduce
        rw [List.cons_append, List.head?_cons, h.after_eq_false (Or.inr (by simpa using hb)),
          if_neg (by decide), h.cons_of_isLayout hb,
          h.through (fun d hd => hblank d (List.mem_cons_of_mem _ hd)) (by simpa using hb),
          Gap.fill_eq_self hg, htokens, List.cons_append]

end Inserts

theorem isCode_of_kind {t : Token} (hs : t.kind ≠ .space) (hl : t.kind ≠ .linebreak) :
    t.isCode = true := by
  simp [Token.isCode, isLayout, isSpace, isLinebreak, hs, hl]

theorem kind_of_opens {bracket : String} {t : Token} (h : t.opens bracket = true) :
    t.kind = .startOfScope := by
  simp only [opens, Bool.and_eq_true, beq_iff_eq] at h
  exact h.1

theorem kind_of_closes {bracket : String} {t : Token} (h : t.closes bracket = true) :
    t.kind = .endOfScope := by
  simp only [closes, Bool.and_eq_true, beq_iff_eq] at h
  exact h.1

theorem isCode_of_endsBlockHead {t : Token} (h : t.endsBlockHead = true) : t.isCode = true := by
  refine isCode_of_kind ?_ ?_ <;>
  · intro hk
    simp [endsBlockHead, hk] at h

/-- Whether the rule on braces wants a space before a token. -/
def spaceBeforeBrace (q : Option Token) (t : Token) : Bool :=
  t.opens openBrace && Spacing.thereIs endsBlockHead q

/-- Whether the rule on braces wants a space after a token. -/
def spaceAfterBrace (t : Token) (u : Option Token) : Bool :=
  t.closes closeBrace && Spacing.thereIs Spacing.isWord u

theorem inserts_aroundBraces : Inserts Spacing.aroundBraces spaceBeforeBrace spaceAfterBrace where
  nil := fun q => by simp [Spacing.aroundBraces]
  cons := fun q t rest => by
    rw [Spacing.aroundBraces]
    cases hopens : t.opens openBrace with
    | true =>
      have hcloses : t.closes closeBrace = false := by simp [closes, kind_of_opens hopens]
      cases hhead : Spacing.thereIs endsBlockHead q <;>
        simp [spaceBeforeBrace, spaceAfterBrace, hopens, hcloses, hhead]
    | false =>
      cases hafter : t.closes closeBrace && Spacing.thereIs Spacing.isWord rest.head? <;>
        simp [spaceBeforeBrace, spaceAfterBrace, hopens, hafter]
  of_before := fun q t h => by
    rw [spaceBeforeBrace, Bool.and_eq_true] at h
    obtain ⟨v, rfl, hv⟩ := Relaid.exists_of_thereIs h.2
    exact ⟨isCode_of_kind (by simp [kind_of_opens h.1]) (by simp [kind_of_opens h.1]), v, rfl,
      isCode_of_endsBlockHead hv⟩
  of_after := fun t u h => by
    rw [spaceAfterBrace, Bool.and_eq_true] at h
    obtain ⟨v, rfl, hv⟩ := Relaid.exists_of_thereIs h.2
    refine ⟨isCode_of_kind (by simp [kind_of_closes h.1]) (by simp [kind_of_closes h.1]),
      v, rfl, ?_⟩
    rw [Spacing.isWord, Bool.or_eq_true, beq_iff_eq, beq_iff_eq] at hv
    rcases hv with hv | hv <;> exact isCode_of_kind (by simp [hv]) (by simp [hv])

/-- Whether the rule on operators wants a space before a token. -/
def spaceBeforeOperator (q : Option Token) (t : Token) : Bool :=
  Spacing.isSpacedOperator t && Spacing.needsSpaceBefore q

/-- Whether the rule on operators wants a space after a token. -/
def spaceAfterOperator (t : Token) (u : Option Token) : Bool :=
  Spacing.isSpacedOperator t && Spacing.needsSpaceAfter u

theorem inserts_aroundOperators :
    Inserts Spacing.aroundOperators spaceBeforeOperator spaceAfterOperator where
  nil := fun q => by simp [Spacing.aroundOperators]
  cons := fun q t rest => by
    rw [Spacing.aroundOperators]
    cases hop : Spacing.isSpacedOperator t with
    | false => simp [spaceBeforeOperator, spaceAfterOperator, hop]
    | true =>
      cases hafter : Spacing.needsSpaceAfter rest.head? <;>
        simp [spaceBeforeOperator, spaceAfterOperator, hop, hafter]
  of_before := fun q t h => by
    rw [spaceBeforeOperator, Bool.and_eq_true] at h
    obtain ⟨v, rfl, hv⟩ := Relaid.exists_of_thereIs h.2
    have hkind := Relaid.kind_of_isSpacedOperator h.1
    rw [Bool.and_eq_true] at hv
    exact ⟨isCode_of_kind (by simp [hkind]) (by simp [hkind]), v, rfl, hv.1⟩
  of_after := fun t u h => by
    rw [spaceAfterOperator, Bool.and_eq_true] at h
    obtain ⟨v, rfl, hv⟩ := Relaid.exists_of_thereIs h.2
    have hkind := Relaid.kind_of_isSpacedOperator h.1
    rw [Bool.and_eq_true, Bool.and_eq_true] at hv
    exact ⟨isCode_of_kind (by simp [hkind]) (by simp [hkind]), v, rfl, hv.1.1⟩

/-- Whether the rule on commas wants a space after a token. -/
def spaceAfterComma (t : Token) (u : Option Token) : Bool :=
  Spacing.isComma t && Spacing.needsSpaceAfterComma u

theorem inserts_afterCommas :
    Inserts (fun _ => Spacing.afterCommas) (fun _ _ => false) spaceAfterComma where
  nil := fun q => rfl
  cons := fun q t rest => by
    rw [Spacing.afterCommas]
    cases hafter : Spacing.isComma t && Spacing.needsSpaceAfterComma rest.head? <;>
      simp [spaceAfterComma, hafter]
  of_before := fun q t h => absurd h (by simp)
  of_after := fun t u h => by
    rw [spaceAfterComma, Bool.and_eq_true] at h
    obtain ⟨v, rfl, hv⟩ := Relaid.exists_of_thereIs h.2
    have hkind := kind_of_isDelimiter h.1
    rw [Bool.and_eq_true] at hv
    exact ⟨isCode_of_kind (by simp [hkind]) (by simp [hkind]), v, rfl, hv.1⟩

/-! ## Rules that go from space to space -/

/-- A gap whose spaces are changed or removed by `edit`, which is told the tokens
around a space.  The tokens around the gap are `q` and `u`. -/
def respace (edit : Option Token → String → Option Token → Option String) (eol : String)
    (q : Option Token) (s : Option String) (u : Option Token) : List (Option String) → Gap
  | [] => ⟨[], s.bind (edit q · u)⟩
  | a :: ended =>
    let rest := respace edit eol (some ⟨.linebreak, eol⟩) s u ended
    ⟨a.bind (edit q · (some ⟨.linebreak, eol⟩)) :: rest.ended, rest.last⟩

/-- The rule changes or removes spaces, as `edit` says, and does nothing else. -/
structure Edits (rule : Option Token → List Token → List Token)
    (edit : Option Token → String → Option Token → Option String) : Prop where
  /-- There is nothing to do at the end. -/
  nil : ∀ q, rule q [] = []
  /-- What is not a space stays. -/
  keep : ∀ q t rest, t.isSpace = false → rule q (t :: rest) = t :: rule (some t) rest
  /-- What happens to a space. -/
  space : ∀ q s rest, rule q (⟨.space, s⟩ :: rest) =
    Gap.space (edit q s rest.head?) ++ rule (some ⟨.space, s⟩) rest

namespace Edits

variable {rule : Option Token → List Token → List Token}
  {edit : Option Token → String → Option Token → Option String}

/-- A space, if there is one, before tokens that are not looked at. -/
theorem space_append (h : Edits rule edit) {ts us : List Token} (hts : ∀ q, rule q ts = us)
    (q : Option Token) (s : Option String) :
    rule q (Gap.space s ++ ts) = Gap.space (s.bind (edit q · ts.head?)) ++ us := by
  cases s with
  | none => exact hts q
  | some s => exact (h.space q s ts).trans (by rw [hts]; rfl)

/-- A gap before tokens that are not looked at. -/
theorem gap_append (h : Edits rule edit) {ts us : List Token} (hts : ∀ q, rule q ts = us)
    (q : Option Token) (g : Gap) :
    rule q (g.tokens eol ++ ts) =
      (respace edit eol q g.last ts.head? g.ended).tokens eol ++ us := by
  obtain ⟨ended, s⟩ := g
  induction ended generalizing q with
  | nil => exact h.space_append hts q s
  | cons a ended ih =>
    have hbreak : ∀ q, rule q (⟨.linebreak, eol⟩ :: (Gap.tokens eol ⟨ended, s⟩ ++ ts)) =
        ⟨.linebreak, eol⟩ ::
          ((respace edit eol (some ⟨.linebreak, eol⟩) s ts.head? ended).tokens eol ++ us) :=
      fun q => by rw [h.keep q _ _ rfl, ih]
    rw [Gap.tokens_cons, List.append_assoc, List.cons_append, h.space_append hbreak]
    simp [respace]

/-- **A rule that goes from space to space changes gaps.** -/
theorem tokens (h : Edits rule edit) {f : Option Token → Gap → Option Token → Gap}
    (hf : ∀ t g u, (∀ d ∈ t, d.isCode = true) → (∀ d ∈ u, d.isCode = true) →
      respace edit eol t g.last u g.ended = f t g u) (p : Page) :
    rule none (p.tokens eol) = (p.touch f).tokens eol := by
  refine walk_tokens rule (fun t g ht => ?_) (fun t g c cells ht => ?_) p
  · have hgap : rule t (g.tokens eol ++ []) =
        (respace edit eol t g.last none g.ended).tokens eol ++ [] := h.gap_append h.nil t g
    rw [List.append_nil, List.append_nil, hf t g none ht (by simp)] at hgap
    exact hgap
  · have hcode : ∀ q, rule q (c.code :: weave eol c.gap cells) =
        c.code :: rule (some c.code) (weave eol c.gap cells) :=
      fun q => h.keep q _ _ (isSpace_of_isCode c.isCode)
    rw [h.gap_append hcode, List.head?_cons, hf t g (some c.code) ht (by simpa using c.isCode)]
    rfl

end Edits

/-- If the edit does nothing next to a linebreak, it concerns gaps within a line
only. -/
theorem respace_of_inner {edit : Option Token → String → Option Token → Option String}
    (hleft : ∀ s u, edit (some ⟨.linebreak, eol⟩) s u = some s)
    (hright : ∀ q s, edit q s (some ⟨.linebreak, eol⟩) = some s) (q : Option Token) (g : Gap)
    (u : Option Token) :
    respace edit eol q g.last u g.ended =
      if g.ended.isEmpty then ⟨[], g.last.bind (edit q · u)⟩ else g := by
  obtain ⟨ended, s⟩ := g
  have hid : ∀ a : Option String, a.bind some = a := fun a => by cases a <;> rfl
  have hfrom : ∀ ended, respace edit eol (some ⟨.linebreak, eol⟩) s u ended = ⟨ended, s⟩ := by
    intro ended
    induction ended with
    | nil => simp only [respace, hleft, hid]
    | cons a ended ih => simp only [respace, ih, hleft, hid]
  cases ended with
  | nil => rfl
  | cons a ended => simp only [respace, hfrom, hright, hid]; rfl

/-- An edit that removes spaces between certain tokens, and none next to a
linebreak. -/
theorem respace_eq_clear {unwanted : Option Token → Option Token → Bool}
    (hleft : ∀ u, unwanted (some ⟨.linebreak, eol⟩) u = false)
    (hright : ∀ q, unwanted q (some ⟨.linebreak, eol⟩) = false) (q : Option Token) (g : Gap)
    (u : Option Token) :
    respace (fun q s u => if unwanted q u then none else some s) eol q g.last u g.ended =
      g.clear (unwanted q u) := by
  rw [respace_of_inner (by simp [hleft]) (by simp [hright])]
  obtain ⟨ended, s⟩ := g
  cases ended <;> cases s <;> cases hw : unwanted q u <;> simp [Gap.clear, Gap.empty]

/-- Whether the rule on commas removes a space. -/
def noSpaceBeforeComma (q u : Option Token) : Bool :=
  Spacing.thereIs Spacing.isComma u && Spacing.thereIs (!·.isLinebreak) q

theorem edits_beforeCommas : Edits Spacing.beforeCommas
    (fun q s u => if noSpaceBeforeComma q u then none else some s) where
  nil := fun q => rfl
  keep := fun q t rest ht => Relaid.beforeCommas_cons_of_not_isSpace ht q rest
  space := fun q s rest => by
    have hspace : isSpace ⟨.space, s⟩ = true := rfl
    rw [Spacing.beforeCommas, hspace, Bool.true_and, ← noSpaceBeforeComma]
    split <;> rfl

/-- No space before a comma. -/
theorem beforeCommas_tokens (p : Page) :
    Spacing.beforeCommas none (p.tokens eol) =
      (p.touch fun t g u => g.clear (noSpaceBeforeComma t u)).tokens eol := by
  refine edits_beforeCommas.tokens (fun t g u _ _ => respace_eq_clear (fun u => ?_) (fun q => ?_)
    t g u) p
  · simp [noSpaceBeforeComma, Spacing.thereIs, isLinebreak]
  · simp [noSpaceBeforeComma, Spacing.thereIs, Spacing.isComma, isDelimiter]

/-- Whether the rule on brackets removes a space. -/
def noSpaceInside (q u : Option Token) : Bool :=
  (Spacing.thereIs Spacing.isOpeningBracket q && Spacing.isPlain u) ||
    (Spacing.thereIs Spacing.isClosingBracket u && Spacing.isPlain q)

theorem edits_insideBrackets : Edits Spacing.insideBrackets
    (fun q s u => if noSpaceInside q u then none else some s) where
  nil := fun q => rfl
  keep := fun q t rest ht => Relaid.insideBrackets_cons_of_not_isSpace ht q rest
  space := fun q s rest => by
    have hspace : isSpace ⟨.space, s⟩ = true := rfl
    rw [Spacing.insideBrackets, hspace, Bool.true_and, ← noSpaceInside]
    split <;> rfl

/-- No space just inside brackets. -/
theorem insideBrackets_tokens (p : Page) :
    Spacing.insideBrackets none (p.tokens eol) =
      (p.touch fun t g u => g.clear (noSpaceInside t u)).tokens eol := by
  refine edits_insideBrackets.tokens (fun t g u _ _ => respace_eq_clear (fun u => ?_) (fun q => ?_)
    t g u) p
  · simp [noSpaceInside, Spacing.thereIs, Spacing.isOpeningBracket, opens, Spacing.isPlain,
      isLinebreak]
  · simp [noSpaceInside, Spacing.thereIs, Spacing.isClosingBracket, closes, Spacing.isPlain,
      isLinebreak]

theorem isLineEdge_of_isCode {t : Option Token} (ht : ∀ d ∈ t, d.isCode = true) :
    Spacing.isLineEdge t = t.isNone := by
  cases t with
  | none => rfl
  | some t => exact isLinebreak_of_isCode (ht t rfl)

theorem edits_singleSpaces : Edits Spacing.singleSpaces
    (fun q s u => some (if !Spacing.isLineEdge q && !Spacing.isLineEdge u then " " else s)) where
  nil := fun q => rfl
  keep := fun q t rest ht => by simp [Spacing.singleSpaces, ht]
  space := fun q s rest => by
    have hspace : isSpace ⟨.space, s⟩ = true := rfl
    rw [Spacing.singleSpaces, hspace, Bool.true_and]
    split <;> rfl

/-- Between two code tokens of a line there is a single space at most. -/
theorem singleSpaces_tokens (p : Page) :
    Spacing.singleSpaces none (p.tokens eol) =
      (p.touch fun t g u => g.narrow (t.isSome && u.isSome)).tokens eol := by
  refine edits_singleSpaces.tokens (f := fun t g u => g.narrow (t.isSome && u.isSome))
    (fun t g u ht hu => ?_) p
  rw [respace_of_inner (by simp [Spacing.isLineEdge, isLinebreak])
    (by simp [Spacing.isLineEdge, isLinebreak]), isLineEdge_of_isCode ht, isLineEdge_of_isCode hu]
  obtain ⟨ended, s⟩ := g
  cases ended <;> cases s <;> cases t <;> cases u <;> simp [Gap.narrow]

theorem edits_trimLines (keep : Bool) : Edits (Spacing.trimLines keep)
    (fun q s u => if Spacing.isLineEdge u && !(keep && Spacing.isLineEdge q) then none
      else some s) where
  nil := fun q => rfl
  keep := fun q t rest ht => Relaid.trimLines_cons_of_not_isSpace ht keep q rest
  space := fun q s rest => by
    have hspace : isSpace ⟨.space, s⟩ = true := rfl
    rw [Spacing.trimLines, hspace, Bool.true_and]
    split <;> rfl

/-- No space at the end of a line. -/
theorem trimLines_tokens (keep : Bool) (p : Page) :
    Spacing.trimLines keep none (p.tokens eol) =
      (p.touch fun t g u => g.trim keep t u).tokens eol := by
  refine (edits_trimLines keep).tokens (f := fun t g u => g.trim keep t u) (fun t g u ht hu => ?_) p
  obtain ⟨ended, s⟩ := g
  have hbreak : Spacing.isLineEdge (some ⟨.linebreak, eol⟩) = true := rfl
  have hif : ∀ (b : Bool) (a : Option String),
      (a.bind fun s => if b then none else some s) = if b then none else a := by
    intro b a
    cases a <;> cases b <;> rfl
  have hfrom : ∀ ended, respace (fun q s u =>
      if Spacing.isLineEdge u && !(keep && Spacing.isLineEdge q) then none else some s) eol
        (some ⟨.linebreak, eol⟩) s u ended =
      ⟨ended.map (fun b => if keep then b else none), if u.isNone && !keep then none else s⟩ := by
    intro ended
    induction ended with
    | nil => simp only [respace, hif, hbreak, isLineEdge_of_isCode hu, Bool.and_true, List.map_nil]
    | cons a ended ih =>
      simp only [respace, ih, hif, hbreak, Bool.and_true, Bool.true_and, List.map_cons]
      cases keep <;> rfl
  cases ended with
  | nil => simp only [respace, hif, isLineEdge_of_isCode hu, isLineEdge_of_isCode ht, Gap.trim]
  | cons a ended =>
    simp only [respace, hfrom, hif, hbreak, isLineEdge_of_isCode ht, Bool.true_and, Gap.trim]
    cases keep <;> cases t <;> rfl

end Page
end Restyle
