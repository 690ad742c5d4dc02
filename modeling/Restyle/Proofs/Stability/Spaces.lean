import Restyle.Proofs.Formatting.Iterates
import Restyle.Proofs.Page.Spacing

/-!
# Rules on spaces, applied twice

A rule that is applied to its own result finds nothing to do.  For the rules on spaces this is a
matter of neighbours: what becomes of a space depends on the tokens beside it, and these are the
same the second time.  It holds of any list of tokens in which no two spaces stand side by side, and
fails without this, since a space that is removed makes neighbours of other tokens.

* `Inserts.rule_rule`: a rule that puts spaces in.
* `Edits.rule_rule`: a rule that goes from space to space, if it makes the same of a space that it
  has already dealt with.
* `commas_commas`: the rule on commas is of both sorts.  It puts a space between two commas and
  takes it out again, and does so every time; what is left is the same.
* `singleSpaces_joinSpaces`: the rule on runs of spaces.
-/

namespace Restyle

open Token

namespace Token

/-- No two spaces stand side by side. -/
def SpacesApart (ts : List Token) : Prop :=
  ts.IsChain fun t u => ¬(t.isSpace = true ∧ u.isSpace = true)

namespace SpacesApart

variable {t : Token} {rest : List Token}

theorem tail (h : SpacesApart (t :: rest)) : SpacesApart rest :=
  (List.isChain_cons.1 h).2

theorem isSpace_head (h : SpacesApart (t :: rest)) (ht : t.isSpace = true) :
    ∀ u ∈ rest.head?, u.isSpace = false := by
  intro u hu
  have hspaces := (List.isChain_cons.1 h).1 u hu
  simpa [ht] using hspaces

theorem cons (hrest : SpacesApart rest)
    (hhead : t.isSpace = true → ∀ u ∈ rest.head?, u.isSpace = false) : SpacesApart (t :: rest) := by
  refine List.isChain_cons.2 ⟨fun u hu => ?_, hrest⟩
  rintro ⟨ht, hspace⟩
  exact absurd hspace (by simp [hhead ht u hu])

end SpacesApart

theorem exists_eq_space {t : Token} (h : t.isSpace = true) : ∃ text, t = ⟨.space, text⟩ := by
  obtain ⟨kind, text⟩ := t
  obtain rfl : kind = .space := by simpa [isSpace] using h
  exact ⟨text, rfl⟩

end Token

namespace Page

/-! ## Rules that put spaces in -/

namespace Inserts

variable {rule : Option Token → List Token → List Token} {before : Option Token → Token → Bool}
  {after : Token → Option Token → Bool}

/-- The first token stays in front, unless a space is put before it. -/
theorem head?_rule (h : Inserts rule before after) (q : Option Token) (ts : List Token) :
    (rule q ts).head? = ts.head? ∨ (rule q ts).head? = some oneSpace := by
  cases ts with
  | nil => exact Or.inl (by rw [h.nil])
  | cons t rest =>
    rw [h.cons]
    cases before q t with
    | true => exact Or.inr rfl
    | false => exact Or.inl rfl

/-- No space is wanted after a token where the rule has been. -/
theorem after_rule (h : Inserts rule before after) {t : Token} {rest : List Token}
    (hafter : after t rest.head? = false) (q : Option Token) :
    after t (rule q rest).head? = false := by
  rcases h.head?_rule q rest with hhead | hhead
  · rwa [hhead]
  · rw [hhead]
    exact h.after_eq_false (Or.inr (by simp [oneSpace, isLayout, isSpace]))

/-- After a code token, with the space that may have been put there. -/
theorem walk_walk (h : Inserts rule before after) {t : Token} {rest : List Token}
    (hrest : ∀ q, rule q (rule q rest) = rule q rest) :
    after t (walk rule after (some t) rest).head? = false ∧
      rule (some t) (walk rule after (some t) rest) = walk rule after (some t) rest := by
  cases hafter : after t rest.head? with
  | true =>
    have hwalk : walk rule after (some t) rest = oneSpace :: rule (some oneSpace) rest :=
      if_pos hafter
    rw [hwalk, h.cons_of_isLayout rfl, hrest]
    exact ⟨h.after_eq_false (Or.inr (by simp [oneSpace, isLayout, isSpace])), rfl⟩
  | false =>
    have hwalk : walk rule after (some t) rest = rule (some t) rest := if_neg (by simp [hafter])
    rw [hwalk]
    exact ⟨h.after_rule hafter (some t), hrest (some t)⟩

/-- **A rule that puts spaces in finds every space in place the second time.** -/
theorem rule_rule (h : Inserts rule before after) (q : Option Token) (ts : List Token) :
    rule q (rule q ts) = rule q ts := by
  induction ts generalizing q with
  | nil => rw [h.nil, h.nil]
  | cons t rest ih =>
    obtain ⟨hafter, hwalk⟩ := h.walk_walk (t := t) ih
    have hcons : ∀ q, rule q (t :: rest) =
        (if before q t then [oneSpace] else []) ++ t :: walk rule after (some t) rest :=
      fun q => h.cons q t rest
    have hagain : ∀ q, before q t = false →
        rule q (t :: walk rule after (some t) rest) = t :: walk rule after (some t) rest := by
      intro q hbefore
      rw [h.cons, hbefore, hafter, hwalk]
      rfl
    rw [hcons]
    cases hbefore : before q t with
    | true =>
      have hspace : before (some oneSpace) t = false :=
        h.before_eq_false (Or.inr (by simp [oneSpace, isLayout, isSpace]))
      rw [if_pos rfl, List.singleton_append, h.cons_of_isLayout rfl, hagain _ hspace]
    | false => rw [if_neg (by decide), List.nil_append, hagain q hbefore]

end Inserts

/-! ## Rules that go from space to space -/

namespace Edits

variable {rule : Option Token → List Token → List Token}
  {edit : Option Token → String → Option Token → Option String} {ts : List Token}

/-- What stands before tokens that do not start with a space does not matter. -/
theorem rule_congr (h : Edits rule edit) (hts : ∀ t ∈ ts.head?, t.isSpace = false)
    (q q' : Option Token) : rule q ts = rule q' ts := by
  cases ts with
  | nil => rw [h.nil, h.nil]
  | cons t rest =>
    have ht := hts t rfl
    rw [h.keep q t rest ht, h.keep q' t rest ht]

theorem head?_rule (h : Edits rule edit) (hts : ∀ t ∈ ts.head?, t.isSpace = false)
    (q : Option Token) : (rule q ts).head? = ts.head? := by
  cases ts with
  | nil => rw [h.nil]
  | cons t rest =>
    rw [h.keep q t rest (hts t rfl)]
    rfl

theorem spacesApart (h : Edits rule edit) (hts : SpacesApart ts) (q : Option Token) :
    SpacesApart (rule q ts) := by
  induction ts generalizing q with
  | nil =>
    rw [h.nil]
    exact hts
  | cons t rest ih =>
    cases ht : t.isSpace with
    | false =>
      rw [h.keep q t rest ht]
      exact (ih hts.tail _).cons fun hspace => absurd hspace (by simp [ht])
    | true =>
      have hhead := hts.isSpace_head ht
      obtain ⟨text, rfl⟩ := exists_eq_space ht
      rw [h.space]
      cases edit q text rest.head? with
      | none => exact ih hts.tail _
      | some s =>
        refine (ih hts.tail _).cons fun _ u hu => ?_
        rw [h.head?_rule hhead] at hu
        exact hhead u hu

/-- **A rule that goes from space to space leaves its own spaces alone**, if the edit does and no
two spaces stand side by side. -/
theorem rule_rule (h : Edits rule edit)
    (hedit : ∀ q s s' u, edit q s u = some s' → edit q s' u = some s') (hts : SpacesApart ts)
    (q : Option Token) : rule q (rule q ts) = rule q ts := by
  induction ts generalizing q with
  | nil => rw [h.nil, h.nil]
  | cons t rest ih =>
    cases ht : t.isSpace with
    | false => rw [h.keep q t rest ht, h.keep q t _ ht, ih hts.tail]
    | true =>
      have hhead := hts.isSpace_head ht
      obtain ⟨text, rfl⟩ := exists_eq_space ht
      rw [h.space]
      cases hspace : edit q text rest.head? with
      | none =>
        -- the space goes, and what follows sees what stood before it
        rw [Gap.space_none, List.nil_append, h.rule_congr hhead _ q, ih hts.tail]
      | some s =>
        rw [Gap.space_some, List.singleton_append, h.space, h.head?_rule hhead,
          hedit q _ s _ hspace, Gap.space_some, List.singleton_append,
          h.rule_congr hhead _ (some ⟨.space, s⟩), ih hts.tail]

/-- A rule that takes spaces out and changes none. -/
theorem rule_rule_of_removes {unwanted : Option Token → Option Token → Bool}
    (h : Edits rule fun q s u => if unwanted q u then none else some s) (hts : SpacesApart ts)
    (q : Option Token) : rule q (rule q ts) = rule q ts := by
  refine h.rule_rule (fun q s s' u hspace => ?_) hts q
  split at hspace
  · exact absurd hspace (by simp)
  · exact if_neg ‹_›

end Edits

/-! ## The rule on commas -/

theorem afterCommas_cons (t : Token) (rest : List Token) :
    Spacing.afterCommas (t :: rest) =
      t :: if spaceAfterComma t rest.head? then oneSpace :: Spacing.afterCommas rest
        else Spacing.afterCommas rest :=
  inserts_afterCommas.cons none t rest

theorem head?_afterCommas (ts : List Token) : (Spacing.afterCommas ts).head? = ts.head? := by
  cases ts with
  | nil => rfl
  | cons t rest =>
    rw [afterCommas_cons]
    rfl

/-- Spaces that are put after commas do not meet other spaces. -/
theorem spacesApart_afterCommas {ts : List Token} (hts : SpacesApart ts) :
    SpacesApart (Spacing.afterCommas ts) := by
  induction ts with
  | nil => exact hts
  | cons t rest ih =>
    rw [afterCommas_cons]
    cases hafter : spaceAfterComma t rest.head? with
    | false =>
      refine (ih hts.tail).cons fun ht u hu => ?_
      rw [head?_afterCommas] at hu
      exact hts.isSpace_head ht u hu
    | true =>
      -- the space stands between two code tokens
      obtain ⟨ht, v, hv, hcode⟩ := inserts_afterCommas.of_after t _ hafter
      have hrest : SpacesApart (oneSpace :: Spacing.afterCommas rest) := by
        refine (ih hts.tail).cons fun _ u hu => ?_
        rw [head?_afterCommas, hv, Option.mem_some_iff] at hu
        exact hu ▸ isSpace_of_isCode hcode
      exact hrest.cons fun hspace => absurd hspace (by simp [isSpace_of_isCode ht])

/-- Where every comma has the space after it that it needs. -/
theorem of_afterCommas_eq {t : Token} {rest : List Token}
    (h : Spacing.afterCommas (t :: rest) = t :: rest) :
    spaceAfterComma t rest.head? = false ∧ Spacing.afterCommas rest = rest := by
  rw [afterCommas_cons] at h
  have htail := (List.cons.inj h).2
  cases hafter : spaceAfterComma t rest.head? with
  | false => exact ⟨rfl, by simpa [hafter] using htail⟩
  | true =>
    rw [hafter, if_pos rfl] at htail
    rw [← htail] at hafter
    exact absurd hafter (by simp [spaceAfterComma, Spacing.needsSpaceAfterComma, Spacing.thereIs,
      Token.isCode, isLayout, isSpace, oneSpace])

/-- A comma lacks the space after it only where the space before another comma was taken out. -/
theorem isComma_of_spaceAfterComma {t : Token} {rest : List Token}
    (hafter : spaceAfterComma t rest.head? = false) (hrest : SpacesApart rest)
    (h : spaceAfterComma t (Spacing.beforeCommas (some t) rest).head? = true) :
    Spacing.thereIs Spacing.isComma (Spacing.beforeCommas (some t) rest).head? = true := by
  have hspace : ∀ text, spaceAfterComma t (some ⟨.space, text⟩) = false := by
    simp [spaceAfterComma, Spacing.needsSpaceAfterComma, Spacing.thereIs, Token.isCode, isLayout]
  cases rest with
  | nil => exact absurd h (by simp [spaceAfterComma, Spacing.needsSpaceAfterComma,
      Spacing.thereIs, Spacing.beforeCommas])
  | cons v rest =>
    cases hv : v.isSpace with
    | false =>
      rw [edits_beforeCommas.keep _ v rest hv, List.head?_cons] at h
      exact absurd (hafter.symm.trans h) (by decide)
    | true =>
      have hhead := hrest.isSpace_head hv
      obtain ⟨text, rfl⟩ := exists_eq_space hv
      rw [edits_beforeCommas.space] at h ⊢
      cases hcomma : noSpaceBeforeComma (some t) rest.head? with
      | false =>
        rw [hcomma] at h
        exact absurd h (by simp [hspace])
      | true =>
        rw [if_pos rfl, Gap.space_none, List.nil_append, edits_beforeCommas.head?_rule hhead]
        rw [noSpaceBeforeComma, Bool.and_eq_true] at hcomma
        exact hcomma.1

/-- A space before a comma is taken out. -/
theorem beforeCommas_oneSpace {t : Token} {ts : List Token} (ht : t.isLinebreak = false)
    (hcomma : Spacing.thereIs Spacing.isComma ts.head? = true) :
    Spacing.beforeCommas (some t) (oneSpace :: ts) = Spacing.beforeCommas (some t) ts := by
  obtain ⟨u, more, rfl, hu⟩ := Relaid.exists_cons_of_thereIs hcomma
  have hremove : noSpaceBeforeComma (some t) (some u) = true := by
    simp [noSpaceBeforeComma, Spacing.thereIs, hu, ht]
  rw [oneSpace, edits_beforeCommas.space, List.head?_cons, hremove, if_pos rfl, Gap.space_none,
    List.nil_append, edits_beforeCommas.rule_congr (by simpa using Relaid.isSpace_of_isComma hu)]

/-- **The rule on commas, the second time**: it puts spaces between commas, and takes them out
again. -/
theorem beforeCommas_afterCommas {ts : List Token} (hts : SpacesApart ts)
    (hafter : Spacing.afterCommas ts = ts) (q : Option Token) :
    Spacing.beforeCommas q (Spacing.afterCommas (Spacing.beforeCommas q ts)) =
      Spacing.beforeCommas q ts := by
  have hedits := edits_beforeCommas
  induction ts generalizing q with
  | nil => rfl
  | cons t rest ih =>
    obtain ⟨hneeds, hrest⟩ := of_afterCommas_eq hafter
    have ih := ih hts.tail hrest
    cases ht : t.isSpace with
    | false =>
      rw [hedits.keep q t rest ht, afterCommas_cons, hedits.keep q t _ ht]
      cases hagain : spaceAfterComma t (Spacing.beforeCommas (some t) rest).head? with
      | false => rw [if_neg (by decide), ih]
      | true =>
        have hcode := (inserts_afterCommas.of_after t _ hagain).1
        have hcomma := isComma_of_spaceAfterComma hneeds hts.tail hagain
        rw [← head?_afterCommas] at hcomma
        rw [if_pos rfl, beforeCommas_oneSpace (isLinebreak_of_isCode hcode) hcomma, ih]
    | true =>
      have hhead := hts.isSpace_head ht
      obtain ⟨text, rfl⟩ := exists_eq_space ht
      rw [hedits.space]
      cases hcomma : noSpaceBeforeComma q rest.head? with
      | true =>
        rw [if_pos rfl, Gap.space_none, List.nil_append, hedits.rule_congr hhead _ q, ih]
      | false =>
        have hblank : ∀ u, spaceAfterComma ⟨.space, text⟩ u = false := fun u => rfl
        rw [if_neg (by decide), Gap.space_some, List.singleton_append, afterCommas_cons, hblank,
          if_neg (by decide), hedits.space, head?_afterCommas, hedits.head?_rule hhead, hcomma,
          if_neg (by decide), Gap.space_some, List.singleton_append, ih]

/-- **The rule on commas is stable.** -/
theorem commas_commas {ts : List Token} (hts : SpacesApart ts) (q : Option Token) :
    Spacing.beforeCommas q (Spacing.afterCommas
      (Spacing.beforeCommas q (Spacing.afterCommas ts))) =
      Spacing.beforeCommas q (Spacing.afterCommas ts) :=
  beforeCommas_afterCommas (spacesApart_afterCommas hts) (inserts_afterCommas.rule_rule none ts) q

/-! ## Runs of spaces -/

/-- **The rule on runs of spaces is stable**, whatever the spaces. -/
theorem singleSpaces_joinSpaces (ts : List Token) (q : Option Token) :
    Spacing.singleSpaces q (Spacing.joinSpaces (Spacing.singleSpaces q (Spacing.joinSpaces ts))) =
      Spacing.singleSpaces q (Spacing.joinSpaces ts) := by
  have hjoined : SpacesApart (Spacing.joinSpaces ts) := isChain_joinSpaces ts
  rw [joinSpaces_eq_self (edits_singleSpaces.spacesApart hjoined q)]
  refine edits_singleSpaces.rule_rule (fun q s s' u h => ?_) hjoined q
  obtain rfl := Option.some.inj h
  split <;> rfl

end Page
end Restyle
