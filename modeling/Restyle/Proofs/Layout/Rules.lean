import Mathlib.Data.List.TakeWhile
import Restyle.Proofs.Layout.Relaid
import Restyle.Rule.Catalog

/-!
# Every rule lays a text out anew

One walk for each rule.  A walk that carries the previous token along is compared
with `Relaid`, which carries the last token *written*; where the two differ, the
statement says how they are related.

Two rules need to know more about their input.  Joining spaces glues their texts
together, so these have to be blanks to begin with.  Ending the text with a
linebreak puts something after the last token, so this must not be an error.
-/

namespace Restyle
namespace Token
namespace Relaid

variable {semis : Bool} {p : Option Token} {xs ys : List Token}

/-! ## Walking over several tokens -/

theorem keep_append {t : Token} (line : List Token) (h : Relaid semis (some t) xs ys) :
    Relaid semis p (line ++ t :: xs) (line ++ t :: ys) := by
  induction line generalizing p with
  | nil => exact .keep h
  | cons u line ih => exact .keep ih

/-- The same, where it does not matter what was written last. -/
theorem keep_line (line : List Token) (h : ∀ q : Option Token, Relaid semis q xs ys) :
    Relaid semis p (line ++ xs) (line ++ ys) := by
  induction line generalizing p with
  | nil => exact h p
  | cons u line ih => exact .keep ih

theorem drop_append {gap : List Token} (hgap : ∀ b ∈ gap, b.isLayout = true)
    (hp : ∀ q ∈ p, q.isLayout = true) (h : Relaid semis p xs ys) :
    Relaid semis p (gap ++ xs) ys := by
  induction gap with
  | nil => exact h
  | cons b gap ih =>
    refine .drop (hgap b List.mem_cons_self) ?_
      (ih fun c hc => hgap c (List.mem_cons_of_mem _ hc))
    cases p with
    | none => exact .start
    | some q => exact .blank (hp q rfl)

theorem mayDrop_of_soft {b : Token} (hb : b.isSpace = true)
    (h : ∀ t ∈ ys.head?, isSoft t = true) : MayDrop b p ys := by
  cases p with
  | none => exact .start
  | some q => exact .soft hb h

theorem isLayout_of_isSpace {t : Token} (h : t.isSpace = true) : t.isLayout = true := by
  simp [isLayout, h]

theorem isLayout_of_isLinebreak {t : Token} (h : t.isLinebreak = true) : t.isLayout = true := by
  simp [isLayout, h]

theorem isBlank_linebreak (lb : Linebreak) : IsBlank ⟨.linebreak, lb.text⟩ := by
  cases lb <;> exact .linebreak (by decide)

/-! ## Linebreaks -/

theorem unify (lb : Linebreak) (tokens : List Token) :
    Relaid semis p tokens (Linebreaks.unify lb.text tokens) := by
  induction tokens generalizing p with
  | nil => exact .nil
  | cons t rest ih =>
    simp only [Linebreaks.unify, List.map_cons] at ih ⊢
    split
    · rename_i ht
      rw [isLinebreak, beq_iff_eq] at ht
      exact .swap ht.symm (isBlank_linebreak lb) ih
    · exact .keep ih

/-! ## Braces -/

/-- A brace with the blanks before it and the tokens after it. -/
theorem eq_of_brace? {tokens gap after : List Token} {brace : Token}
    (h : Braces.brace? tokens = some (gap, brace, after)) :
    tokens = gap ++ brace :: after ∧ (∀ b ∈ gap, b.isLayout = true) ∧
      brace.opens openBrace = true := by
  unfold Braces.brace? at h
  split at h
  · simp at h
  · rename_i t rest heq
    split at h
    · rename_i hopens
      simp only [Option.some.injEq, Prod.mk.injEq] at h
      obtain ⟨rfl, rfl, rfl⟩ := h
      refine ⟨?_, fun b hb => List.all_eq_true.1 List.all_takeWhile b hb, hopens⟩
      rw [← heq, List.takeWhile_append_dropWhile]
    · simp at h

theorem endsAtBlank_of_endsBlockHead {t : Token} (h : t.endsBlockHead = true) :
    endsAtBlank t.kind = true := by
  unfold endsBlockHead at h
  split at h
  all_goals rename_i hkind
  · rw [hkind]; rfl
  · rw [hkind]; rfl
  · rw [hkind]; rfl
  · exact absurd h (by decide)

/-- A blank in place of the gap between a head and a brace. -/
theorem replace_gap {t b brace : Token} {gap : List Token} (hb : IsBlank b)
    (ht : t.endsBlockHead = true) (hgap : ∀ c ∈ gap, c.isLayout = true)
    (h : Relaid semis (some brace) xs ys) :
    Relaid semis p (t :: (gap ++ brace :: xs)) (t :: b :: brace :: ys) := by
  refine .keep (.insert hb (.after (endsAtBlank_of_endsBlockHead ht)) ?_)
  refine drop_append hgap ?_ (.keep h)
  intro q hq
  obtain rfl := Option.mem_some_iff.1 hq
  exact hb.isLayout

theorem join (tokens : List Token) : Relaid semis p tokens (Braces.join tokens) := by
  fun_induction Braces.join tokens generalizing p with
  | case1 => exact .nil
  | case2 t rest hbrace ih => exact .keep ih
  | case3 t rest gap brace after hbrace hcond ih =>
    obtain ⟨rfl, hgap, -⟩ := eq_of_brace? hbrace
    rw [Bool.and_eq_true] at hcond
    exact replace_gap isBlank_oneSpace hcond.1 hgap ih
  | case4 t rest gap brace after hbrace hcond ih => exact .keep ih

theorem wrap (lb : Linebreak) (tokens : List Token) :
    Relaid semis p tokens (Braces.wrap ⟨.linebreak, lb.text⟩ tokens) := by
  fun_induction Braces.wrap ⟨.linebreak, lb.text⟩ tokens generalizing p with
  | case1 => exact .nil
  | case2 t rest hbrace ih => exact .keep ih
  | case3 t rest gap brace after hbrace hcond ih =>
    obtain ⟨rfl, hgap, -⟩ := eq_of_brace? hbrace
    rw [Bool.and_eq_true, Bool.and_eq_true] at hcond
    exact replace_gap (isBlank_linebreak lb) hcond.1.1 hgap ih
  | case4 t rest gap brace after hbrace hcond ih => exact .keep ih

/-! ## Spaces within a line -/

theorem exists_of_thereIs {q : Token → Bool} {t : Option Token} (h : Spacing.thereIs q t = true) :
    ∃ u, t = some u ∧ q u = true := by
  cases t with
  | none => simp [Spacing.thereIs] at h
  | some u => exact ⟨u, rfl, h⟩

theorem aroundBraces (tokens : List Token) :
    Relaid semis p tokens (Spacing.aroundBraces p tokens) := by
  induction tokens generalizing p with
  | nil => exact .nil
  | cons t rest ih =>
    unfold Spacing.aroundBraces
    split
    · split
      · rename_i hhead
        obtain ⟨q, rfl, hq⟩ := exists_of_thereIs hhead
        exact .insert isBlank_oneSpace (.after (endsAtBlank_of_endsBlockHead hq)) (.keep ih)
      · exact .keep ih
    · split
      · rename_i hcloses
        have hkind : t.kind = .endOfScope := by
          simp only [closes, Bool.and_eq_true, beq_iff_eq] at hcloses
          exact hcloses.1.1
        exact .keep (.insert isBlank_oneSpace (.after (by rw [hkind]; rfl)) ih)
      · exact .keep ih

theorem kind_of_isSpacedOperator {t : Token} (h : Spacing.isSpacedOperator t = true) :
    t.kind = .operator := by
  simp only [Spacing.isSpacedOperator, Bool.and_eq_true, beq_iff_eq] at h
  exact h.1

theorem aroundOperators (tokens : List Token) :
    Relaid semis p tokens (Spacing.aroundOperators p tokens) := by
  induction tokens generalizing p with
  | nil => exact .nil
  | cons t rest ih =>
    unfold Spacing.aroundOperators
    split
    · rename_i hop
      have hkind := kind_of_isSpacedOperator hop
      -- the space before the operator, whatever comes after it
      have hbefore : ∀ {ys : List Token}, (∀ {q}, Relaid semis q (t :: rest) (t :: ys)) →
          Relaid semis p (t :: rest)
            ((if Spacing.needsSpaceBefore p then [oneSpace] else []) ++ t :: ys) := by
        intro ys h
        split
        · rename_i hneeds
          obtain ⟨q, rfl, -⟩ := exists_of_thereIs hneeds
          exact .insert isBlank_oneSpace (.before hkind) h
        · exact h
      simp only
      split
      · refine hbefore (.keep (.insert isBlank_oneSpace (.after ?_) ih))
        rw [hkind]
        rfl
      · exact hbefore (.keep ih)
    · exact .keep ih

theorem afterCommas (tokens : List Token) : Relaid semis p tokens (Spacing.afterCommas tokens) := by
  induction tokens generalizing p with
  | nil => exact .nil
  | cons t rest ih =>
    unfold Spacing.afterCommas
    split
    · rename_i hcomma
      have hkind : t.kind = .delimiter := by
        simp only [Spacing.isComma, isDelimiter, Bool.and_eq_true, beq_iff_eq] at hcomma
        exact hcomma.1.1
      exact .keep (.insert isBlank_oneSpace (.after (by rw [hkind]; rfl)) ih)
    · exact .keep ih

/-- A token that is not a space stays where it is. -/
theorem beforeCommas_cons_of_not_isSpace {t : Token} (ht : t.isSpace = false) (prev : Option Token)
    (rest : List Token) :
    Spacing.beforeCommas prev (t :: rest) = t :: Spacing.beforeCommas (some t) rest := by
  simp [Spacing.beforeCommas, ht]

theorem insideBrackets_cons_of_not_isSpace {t : Token} (ht : t.isSpace = false)
    (prev : Option Token) (rest : List Token) :
    Spacing.insideBrackets prev (t :: rest) = t :: Spacing.insideBrackets (some t) rest := by
  simp [Spacing.insideBrackets, ht]

theorem isSpace_of_isComma {t : Token} (h : Spacing.isComma t = true) : t.isSpace = false := by
  simp only [Spacing.isComma, isDelimiter, Bool.and_eq_true, beq_iff_eq] at h
  simp [isSpace, h.1]

theorem isSpace_of_isClosingBracket {t : Token} (h : Spacing.isClosingBracket t = true) :
    t.isSpace = false := by
  simp only [Spacing.isClosingBracket, closes, Bool.or_eq_true, Bool.and_eq_true, beq_iff_eq] at h
  rcases h with h | h <;> simp [isSpace, h.1]

/-- The head of a list that is known to start with some token. -/
theorem exists_cons_of_thereIs {q : Token → Bool} {rest : List Token}
    (h : Spacing.thereIs q rest.head? = true) : ∃ u more, rest = u :: more ∧ q u = true := by
  cases rest with
  | nil => simp [Spacing.thereIs] at h
  | cons u more => exact ⟨u, more, rfl, h⟩

theorem beforeCommas (prev : Option Token) (tokens : List Token) :
    Relaid semis p tokens (Spacing.beforeCommas prev tokens) := by
  induction tokens generalizing p prev with
  | nil => exact .nil
  | cons t rest ih =>
    unfold Spacing.beforeCommas
    split
    · rename_i hcond
      simp only [Bool.and_eq_true] at hcond
      obtain ⟨⟨hspace, hcomma⟩, -⟩ := hcond
      refine .drop (isLayout_of_isSpace hspace) (mayDrop_of_soft hspace ?_) (ih _)
      obtain ⟨u, more, rfl, hu⟩ := exists_cons_of_thereIs hcomma
      rw [beforeCommas_cons_of_not_isSpace (isSpace_of_isComma hu)]
      simp [isSoft, hu]
    · exact .keep (ih _)

/-- A code token before a space is the last token written, even if the space
itself is removed. -/
theorem insideBrackets (prev : Option Token) (tokens : List Token)
    (hprev : ∀ q ∈ prev, q.isCode = true → p = some q) :
    Relaid semis p tokens (Spacing.insideBrackets prev tokens) := by
  induction tokens generalizing p prev with
  | nil => exact .nil
  | cons t rest ih =>
    unfold Spacing.insideBrackets
    split
    · rename_i hcond
      rw [Bool.and_eq_true, Bool.or_eq_true, Bool.and_eq_true, Bool.and_eq_true] at hcond
      obtain ⟨hspace, hcond⟩ := hcond
      have hlayout := isLayout_of_isSpace hspace
      have hrest := ih (p := p) (some t) (by
        intro q hq hcode
        obtain rfl := Option.mem_some_iff.1 hq
        rw [isCode, hlayout] at hcode
        exact absurd hcode (by decide))
      rcases hcond with ⟨hopen, -⟩ | ⟨hclose, -⟩
      · obtain ⟨q, rfl, hq⟩ := exists_of_thereIs hopen
        have hkind : q.kind = .startOfScope := by
          simp only [Spacing.isOpeningBracket, opens, Bool.or_eq_true, Bool.and_eq_true,
            beq_iff_eq] at hq
          rcases hq with hq | hq <;> exact hq.1
        obtain rfl := hprev q rfl (by simp [isCode, isLayout, isSpace, isLinebreak, hkind])
        exact .drop hlayout (.opened hkind) hrest
      · refine .drop hlayout (mayDrop_of_soft hspace ?_) hrest
        obtain ⟨u, more, rfl, hu⟩ := exists_cons_of_thereIs hclose
        rw [insideBrackets_cons_of_not_isSpace (isSpace_of_isClosingBracket hu)]
        simp [isSoft, hu]
    · refine .keep (ih _ ?_)
      rintro q hq -
      exact hq

/-! ## Runs of spaces -/

theorem isBlank_join {t u : Token} (ht : IsBlank t) (hu : IsBlank u) (hts : t.isSpace = true)
    (hus : u.isSpace = true) : IsBlank ⟨.space, t.text ++ u.text⟩ := by
  cases ht with
  | @space c more hc =>
    cases hu with
    | @space d more' hd =>
      have hjoin : String.ofList (c :: more) ++ String.ofList (d :: more') =
          String.ofList (c :: (more ++ d :: more')) := by
        rw [← String.ofList_append, List.cons_append]
      rw [hjoin]
      refine .space fun x hx => ?_
      rw [← List.cons_append, List.mem_append] at hx
      rcases hx with hx | hx
      · exact hc x hx
      · exact hd x hx
    | linebreak => simp [isSpace] at hus
  | linebreak => simp [isSpace] at hts

theorem consJoined_of_not_isSpace {t : Token} (h : t.isSpace = false) (rest : List Token) :
    Spacing.consJoined t rest = t :: rest := by
  cases rest <;> simp [Spacing.consJoined, h]

theorem consJoined_cons_of_not_isSpace {u : Token} (h : u.isSpace = false) (t : Token)
    (rest : List Token) : Spacing.consJoined t (u :: rest) = t :: u :: rest := by
  simp [Spacing.consJoined, h]

/-- Two spaces in front are joined at once or one after the other. -/
theorem consJoined_consJoined {t u : Token} (ht : t.isSpace = true) (hu : u.isSpace = true)
    (rest : List Token) :
    Spacing.consJoined t (Spacing.consJoined u rest) =
      Spacing.consJoined ⟨.space, t.text ++ u.text⟩ rest := by
  cases rest with
  | nil => simp [Spacing.consJoined, ht, hu]
  | cons v rest =>
    cases hv : v.isSpace with
    | false => simp [Spacing.consJoined, ht, hu, hv]
    | true =>
      have hspace : ∀ text, (⟨.space, text⟩ : Token).isSpace = true := fun _ => rfl
      simp [Spacing.consJoined, ht, hu, hv, hspace, String.append_assoc]

/-- Joining spaces, with a space in front that is still to be joined: the result
starts with a space, and behind it the spaces that went into it are missing. -/
theorem joinSpaces_aux (tokens : List Token)
    (hblank : ∀ b ∈ tokens, b.isLayout = true → IsBlank b) :
    (∀ q : Option Token, Relaid semis q tokens (Spacing.joinSpaces tokens)) ∧
      ∀ t : Token, IsBlank t → t.isSpace = true →
        ∃ b more, Spacing.consJoined t (Spacing.joinSpaces tokens) = b :: more ∧
          b.kind = .space ∧ IsBlank b ∧ Relaid semis (some b) tokens more := by
  induction tokens with
  | nil =>
    refine ⟨fun q => .nil, fun t ht hts => ⟨t, [], rfl, ?_, ht, .nil⟩⟩
    rwa [isSpace, beq_iff_eq] at hts
  | cons u rest ih =>
    obtain ⟨hwalk, hjoin⟩ := ih fun b hb => hblank b (List.mem_cons_of_mem _ hb)
    simp only [Spacing.joinSpaces]
    cases hus : u.isSpace with
    | false =>
      rw [consJoined_of_not_isSpace hus]
      refine ⟨fun q => .keep (hwalk _), fun t ht hts => ?_⟩
      rw [consJoined_cons_of_not_isSpace hus]
      refine ⟨t, _, rfl, ?_, ht, .keep (hwalk _)⟩
      rwa [isSpace, beq_iff_eq] at hts
    | true =>
      have hu := hblank u List.mem_cons_self (isLayout_of_isSpace hus)
      constructor
      · intro q
        obtain ⟨b, more, heq, hkind, hb, hmore⟩ := hjoin u hu hus
        rw [heq]
        rw [isSpace, beq_iff_eq] at hus
        exact .swap (by rw [hkind, hus]) hb hmore
      · intro t ht hts
        obtain ⟨b, more, heq, hkind, hb, hmore⟩ := hjoin _ (isBlank_join ht hu hts hus) rfl
        rw [consJoined_consJoined hts hus, heq]
        refine ⟨b, more, rfl, hkind, hb, .drop (isLayout_of_isSpace hus) ?_ hmore⟩
        exact .blank hb.isLayout

theorem joinSpaces (tokens : List Token)
    (hblank : ∀ b ∈ tokens, b.isLayout = true → IsBlank b) :
    Relaid semis p tokens (Spacing.joinSpaces tokens) := (joinSpaces_aux tokens hblank).1 p

theorem singleSpaces (prev : Option Token) (tokens : List Token) :
    Relaid semis p tokens (Spacing.singleSpaces prev tokens) := by
  induction tokens generalizing p prev with
  | nil => exact .nil
  | cons t rest ih =>
    unfold Spacing.singleSpaces
    split
    · rename_i hcond
      simp only [Bool.and_eq_true] at hcond
      have hkind : t.kind = .space := by simpa [isSpace] using hcond.1.1
      exact .swap hkind.symm isBlank_oneSpace (ih _)
    · exact .keep (ih _)

/-- A token that is not a space stays where it is. -/
theorem trimLines_cons_of_not_isSpace {t : Token} (ht : t.isSpace = false) (keep : Bool)
    (prev : Option Token) (rest : List Token) :
    Spacing.trimLines keep prev (t :: rest) = t :: Spacing.trimLines keep (some t) rest := by
  simp [Spacing.trimLines, ht]

theorem isSpace_of_isLinebreak {t : Token} (h : t.isLinebreak = true) : t.isSpace = false := by
  rw [isLinebreak, beq_iff_eq] at h
  simp [isSpace, h]

theorem trimLines (keep : Bool) (prev : Option Token) (tokens : List Token) :
    Relaid semis p tokens (Spacing.trimLines keep prev tokens) := by
  induction tokens generalizing p prev with
  | nil => exact .nil
  | cons t rest ih =>
    unfold Spacing.trimLines
    split
    · rename_i hcond
      simp only [Bool.and_eq_true] at hcond
      obtain ⟨⟨hspace, hedge⟩, -⟩ := hcond
      refine .drop (isLayout_of_isSpace hspace) (mayDrop_of_soft hspace ?_) (ih _)
      cases rest with
      | nil => simp [Spacing.trimLines]
      | cons u more =>
        have hu : u.isLinebreak = true := hedge
        rw [trimLines_cons_of_not_isSpace (isSpace_of_isLinebreak hu)]
        simp [isSoft, isLayout, hu]
    · exact .keep (ih _)

/-! ## Semicolons -/

theorem dropTrailing_cons_of_isLayout {t : Token} (h : t.isLayout = true) (rest : List Token) :
    Semicolons.dropTrailing (t :: rest) = t :: Semicolons.dropTrailing rest := by
  have hsemi : Semicolons.isSemicolon t = false := by
    cases hs : Semicolons.isSemicolon t with
    | false => rfl
    | true =>
      have := isCode_of_isSemicolon hs
      rw [isCode, h] at this
      exact absurd this (by decide)
  simp [Semicolons.dropTrailing, hsemi]

/-- What ends a line starts with a blank, or is empty. -/
theorem isLayout_head_of_endsLine {rest : List Token} (h : Semicolons.endsLine rest = true) :
    ∀ u ∈ rest.head?, u.isLayout = true := by
  intro u hu
  cases rest with
  | nil => simp at hu
  | cons v rest =>
    obtain rfl : v = u := by simpa using hu
    cases hv : v.isSpace with
    | true => exact isLayout_of_isSpace hv
    | false =>
      simp only [Semicolons.endsLine, List.dropWhile_cons, hv] at h
      exact isLayout_of_isLinebreak h

theorem dropTrailing (tokens : List Token) :
    Relaid true p tokens (Semicolons.dropTrailing tokens) := by
  induction tokens generalizing p with
  | nil => exact .nil
  | cons t rest ih =>
    unfold Semicolons.dropTrailing
    split
    · rename_i hcond
      rw [Bool.and_eq_true] at hcond
      refine .unterminate rfl hcond.1 ?_ ih
      have hhead := isLayout_head_of_endsLine hcond.2
      cases rest with
      | nil => simp [Semicolons.dropTrailing]
      | cons u rest =>
        have hu := hhead u rfl
        rw [dropTrailing_cons_of_isLayout hu]
        simpa using hu
    · exact .keep ih

/-! ## Blank lines -/

/-- A blank line is spaces and a linebreak. -/
theorem exists_of_afterBlankLine? {tokens rest : List Token}
    (h : Linebreaks.afterBlankLine? tokens = some rest) :
    ∃ spaces lb, tokens = spaces ++ lb :: rest ∧ (∀ s ∈ spaces, s.isSpace = true) ∧
      lb.isLinebreak = true := by
  unfold Linebreaks.afterBlankLine? at h
  split at h
  · rename_i t more heq
    split at h
    · rename_i hlb
      obtain rfl := Option.some.inj h
      refine ⟨tokens.takeWhile isSpace, t, ?_, fun s hs => ?_, hlb⟩
      · rw [← heq, List.takeWhile_append_dropWhile]
      · exact List.all_eq_true.1 List.all_takeWhile s hs
    · simp at h
  · simp at h

/-- Blank lines at the start of a line can go. -/
theorem dropBlankLines {q : Token} (hq : q.isLayout = true) {tokens : List Token}
    (h : Relaid semis (some q) (Linebreaks.dropBlankLines tokens) ys) :
    Relaid semis (some q) tokens ys := by
  fun_induction Linebreaks.dropBlankLines tokens with
  | case1 tokens rest hafter ih =>
    obtain ⟨spaces, lb, rfl, hspaces, hlb⟩ := exists_of_afterBlankLine? hafter
    have hq' : ∀ r ∈ some q, r.isLayout = true := fun r hr => by
      obtain rfl := Option.mem_some_iff.1 hr
      exact hq
    refine drop_append (fun s hs => isLayout_of_isSpace (hspaces s hs)) hq' ?_
    exact .drop (isLayout_of_isLinebreak hlb) (.blank hq) (ih h)
  | case2 tokens hafter => exact h

theorem trimBlockStarts (opened : Bool) (tokens : List Token) :
    Relaid semis p tokens (Linebreaks.trimBlockStarts opened tokens) := by
  fun_induction Linebreaks.trimBlockStarts opened tokens generalizing p with
  | case1 => exact .nil
  | case2 opened t rest hspace ih => exact .keep ih
  | case3 opened t rest hspace hcond ih =>
    rw [Bool.and_eq_true] at hcond
    exact .keep (dropBlankLines (isLayout_of_isLinebreak hcond.1) ih)
  | case4 opened t rest hspace hcond ih => exact .keep ih

theorem trimBlockEnds (tokens : List Token) :
    Relaid semis p tokens (Linebreaks.trimBlockEnds tokens) := by
  fun_induction Linebreaks.trimBlockEnds tokens generalizing p with
  | case1 => exact .nil
  | case2 t rest hcond ih =>
    rw [Bool.and_eq_true] at hcond
    exact .keep (dropBlankLines (isLayout_of_isLinebreak hcond.1) ih)
  | case3 t rest hcond ih => exact .keep ih

/-- A line and what follows it, if a linebreak ends it. -/
theorem eq_of_dropWhile_linebreak {tokens rest : List Token} {lb : Token}
    (h : tokens.dropWhile (!·.isLinebreak) = lb :: rest) :
    tokens = tokens.takeWhile (!·.isLinebreak) ++ lb :: rest ∧ lb.isLinebreak = true := by
  refine ⟨by rw [← h, List.takeWhile_append_dropWhile], ?_⟩
  have := List.head?_dropWhile_not (fun t : Token => !t.isLinebreak) tokens
  rw [h] at this
  simpa using this

theorem isLayout_of_mem_some {t : Token} (ht : t.isLayout = true) :
    ∀ q ∈ some t, q.isLayout = true := by
  intro q hq
  obtain rfl := Option.mem_some_iff.1 hq
  exact ht

theorem limitBlankLines (most before : Nat) (tokens : List Token)
    (hp : ∀ q ∈ p, q.isLayout = true) :
    Relaid semis p tokens (Linebreaks.limitBlankLines most before tokens) := by
  fun_induction Linebreaks.limitBlankLines most before tokens generalizing p with
  | case1 before tokens hdrop => exact .refl _ _ _
  | case2 before tokens lb rest hdrop line hblank hlt =>
    rename_i ih
    obtain ⟨heq, hlb⟩ := eq_of_dropWhile_linebreak hdrop
    have h := keep_append (p := p) (tokens.takeWhile (!·.isLinebreak))
      (ih (isLayout_of_mem_some (isLayout_of_isLinebreak hlb)))
    rwa [← heq] at h
  | case3 before tokens lb rest hdrop line hblank hlt =>
    rename_i ih
    obtain ⟨heq, hlb⟩ := eq_of_dropWhile_linebreak hdrop
    -- the line starts after a linebreak or at the start of the text, so it can go
    have hline : ∀ b ∈ tokens.takeWhile (!·.isLinebreak) ++ [lb], b.isLayout = true := by
      intro b hb
      rcases List.mem_append.1 hb with hb | hb
      · exact isLayout_of_isSpace (List.all_eq_true.1 hblank b hb)
      · obtain rfl := List.mem_singleton.1 hb
        exact isLayout_of_isLinebreak hlb
    have h := drop_append hline hp (ih hp)
    rwa [List.append_assoc, List.singleton_append, ← heq] at h
  | case4 before tokens lb rest hdrop line hblank =>
    rename_i ih
    obtain ⟨heq, hlb⟩ := eq_of_dropWhile_linebreak hdrop
    have h := keep_append (p := p) (tokens.takeWhile (!·.isLinebreak))
      (ih (isLayout_of_mem_some (isLayout_of_isLinebreak hlb)))
    rwa [← heq] at h

/-! ## Indentation -/

/-- The text of several levels is made of blanks. -/
theorem isSpaceChar_of_mem_levels (i : Indent) (n : Nat) :
    ∀ c ∈ (i.levels n).toList, isSpaceChar c = true := by
  have hunit : ∀ c ∈ i.unit.toList, isSpaceChar c = true := by
    intro c hc
    cases i with
    | spaces width =>
      rw [Indent.unit, String.toList_ofList] at hc
      rw [List.eq_of_mem_replicate hc]
      rfl
    | tab =>
      obtain rfl : c = '\t' := by simpa [Indent.unit] using hc
      rfl
  induction n with
  | zero => simp [Indent.levels]
  | succ n ih =>
    intro c hc
    rw [Indent.levels, List.replicate_succ, String.join_cons, String.toList_append,
      List.mem_append] at hc
    rcases hc with hc | hc
    · exact hunit c hc
    · exact ih c hc

theorem isBlank_levels {i : Indent} {n : Nat} (h : (i.levels n).isEmpty = false) :
    IsBlank ⟨.space, i.levels n⟩ := by
  have hchars := isSpaceChar_of_mem_levels i n
  cases hlist : (i.levels n).toList with
  | nil =>
    rw [String.toList_eq_nil_iff] at hlist
    rw [hlist] at h
    exact absurd h (by decide)
  | cons c more =>
    rw [hlist] at hchars
    rw [← String.ofList_toList (s := i.levels n), hlist]
    exact .space hchars

/-- A line is indented by changing, removing or inserting its first space. -/
theorem withIndent_append (i : Indent) (level : Nat) (line : List Token)
    (hp : ∀ q ∈ p, q.isLayout = true) (h : ∀ q : Option Token, Relaid semis q xs ys) :
    Relaid semis p (line ++ xs) (Indentation.withIndent (i.levels level) line ++ ys) := by
  have hdrop : ∀ {b : Token} {zs : List Token}, MayDrop b p zs := by
    intro b zs
    cases p with
    | none => exact .start
    | some q => exact .blank (hp q rfl)
  have hinsert : ∀ {b : Token} {zs : List Token}, MayInsert b p zs := by
    intro b zs
    cases p with
    | none => exact .start
    | some q => exact .blank (hp q rfl)
  unfold Indentation.withIndent
  cases hempty : (i.levels level).isEmpty with
  | true =>
    cases line with
    | nil => exact h p
    | cons t rest =>
      cases ht : t.isSpace with
      | true => simpa [ht] using Relaid.drop (isLayout_of_isSpace ht) hdrop (keep_line rest h)
      | false => simpa [ht] using keep_line (p := p) (t :: rest) h
  | false =>
    have hblank := isBlank_levels hempty
    cases line with
    | nil => exact .insert hblank hinsert (h _)
    | cons t rest =>
      cases ht : t.isSpace with
      | true =>
        have hkind : t.kind = .space := by simpa [isSpace] using ht
        simpa [ht] using Relaid.swap (p := p) (b := t) hkind.symm hblank (keep_line rest h)
      | false => simpa [ht] using Relaid.insert hblank hinsert (keep_line (t :: rest) h)

/-- The first line of a text after indenting, given what follows it. -/
theorem indentLine (i : Indent) (scopes : List Nat) (line : List Token)
    (hp : ∀ q ∈ p, q.isLayout = true) (h : ∀ q : Option Token, Relaid semis q xs ys)
    {line' : List Token} {scopes' : List Nat}
    (heq : (match line.find? (!·.isSpace) with
      | none => (line, scopes)
      | some first =>
        let level := Indentation.levelOf scopes first
        (Indentation.withIndent (i.levels level) line,
          Indentation.scopesAfter level scopes line)) = (line', scopes')) :
    Relaid semis p (line ++ xs) (line' ++ ys) := by
  split at heq
  · obtain ⟨rfl, -⟩ := Prod.mk.inj heq
    exact keep_line line h
  · obtain ⟨rfl, -⟩ := Prod.mk.inj heq
    exact withIndent_append i _ line hp h

theorem indentLines (i : Indent) (scopes : List Nat) (tokens : List Token)
    (hp : ∀ q ∈ p, q.isLayout = true) :
    Relaid semis p tokens (Indentation.indentLines i scopes tokens) := by
  fun_induction Indentation.indentLines i scopes tokens generalizing p with
  | case1 scopes tokens line line' scopes' heq =>
    rename_i hdrop
    have h : Relaid semis p (line ++ []) (line' ++ []) :=
      indentLine i scopes line hp (fun q => .nil) heq
    have hline : line = tokens := by
      have := List.takeWhile_append_dropWhile (p := fun t : Token => !t.isLinebreak) (l := tokens)
      rwa [hdrop, List.append_nil] at this
    rwa [List.append_nil, List.append_nil, hline] at h
  | case2 scopes tokens line line' scopes' heq lb rest =>
    rename_i hdrop ih
    obtain ⟨htokens, hlb⟩ := eq_of_dropWhile_linebreak hdrop
    have h := indentLine i scopes line hp
      (fun q => .keep (ih (isLayout_of_mem_some (isLayout_of_isLinebreak hlb)))) heq
    rwa [← htokens] at h

/-! ## The end of the text -/

/-- A text is layout only, or has a last code token. -/
theorem layout_or_last_code (tokens : List Token) :
    (∀ t ∈ tokens, t.isLayout = true) ∨
      ∃ init t gap, tokens = init ++ t :: gap ∧ t.isCode = true ∧ ∀ b ∈ gap, b.isLayout = true := by
  induction tokens with
  | nil => exact Or.inl (by simp)
  | cons u rest ih =>
    rcases ih with hall | ⟨init, t, gap, rfl, ht, hgap⟩
    · cases hu : u.isLayout with
      | true => exact Or.inl (by simpa [hu] using hall)
      | false => exact Or.inr ⟨[], u, rest, rfl, by simp [isCode, hu], hall⟩
    · exact Or.inr ⟨u :: init, t, gap, rfl, ht, hgap⟩

theorem endWithLinebreak_of_isLayout {tokens : List Token} (lb : Token)
    (h : ∀ t ∈ tokens, t.isLayout = true) : Linebreaks.endWithLinebreak lb tokens = tokens := by
  unfold Linebreaks.endWithLinebreak
  have hnil : tokens.reverse.dropWhile isLayout = [] :=
    List.dropWhile_eq_nil_iff.2 fun t ht => h t (List.mem_reverse.1 ht)
  rw [hnil]

theorem endWithLinebreak_append {t : Token} {gap : List Token} (lb : Token) (init : List Token)
    (ht : t.isCode = true) (hgap : ∀ b ∈ gap, b.isLayout = true) :
    Linebreaks.endWithLinebreak lb (init ++ t :: gap) = init ++ [t, lb] := by
  unfold Linebreaks.endWithLinebreak
  have hback : (init ++ t :: gap).reverse.dropWhile isLayout = t :: init.reverse := by
    have hgap' : ∀ b ∈ gap.reverse, b.isLayout = true := fun b hb => hgap b (List.mem_reverse.1 hb)
    have ht' : t.isLayout = false := by simpa [isCode] using ht
    rw [List.reverse_append, List.reverse_cons, List.append_assoc,
      List.dropWhile_append_of_pos hgap']
    simp [ht']
  rw [hback]
  simp

/-- A text with code in it is cut after its last code token. -/
theorem endWithLinebreak (lb : Linebreak) (tokens : List Token)
    (herror : ∀ t ∈ tokens, t.isError = false) :
    Relaid semis p tokens (Linebreaks.endWithLinebreak ⟨.linebreak, lb.text⟩ tokens) := by
  rcases layout_or_last_code tokens with hall | ⟨init, t, gap, rfl, ht, hgap⟩
  · rw [endWithLinebreak_of_isLayout _ hall]
    exact .refl _ _ _
  · rw [endWithLinebreak_append _ _ ht hgap]
    refine keep_append init (.insert (isBlank_linebreak lb) (.final rfl ?_ hgap) ?_)
    · exact herror t (by simp)
    · have h : Relaid semis (some ⟨.linebreak, lb.text⟩) (gap ++ []) [] :=
        drop_append hgap (isLayout_of_mem_some (isBlank_linebreak lb).isLayout) .nil
      rwa [List.append_nil] at h

end Relaid
end Token
end Restyle
