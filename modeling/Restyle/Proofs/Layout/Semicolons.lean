import Mathlib.Data.List.Infix
import Restyle.Proofs.Formatting.Passes
import Restyle.Proofs.Layout.Rules
import Restyle.Proofs.Lexing.Scopes

/-!
# Semicolons in headers

The semicolons of a `for(;;)` header separate its parts and end no statement.  The rule that drops
semicolons does not see the header: it looks at what follows a semicolon on its line, and whether a
bracket is open depends on everything before it.  So a separator is lost where the header is broken
behind it, and only there; in a header that stands on one line all of them stay.

* `dropTrailing_eq_filterMap`: each token is judged by what follows it, and what is left is read off
  one token after the other.
* `InHeader before`: a round or square bracket is open after `before`.
* `InHeader.exists_not_isSpace`: a bracket that is open has to be closed, so the text goes on.
* `run_semicolons_in_headers`: which semicolons of a header are lost.  `run_semicolons_broken_for`:
  a header that loses one.
-/

namespace Restyle

open Token

namespace Semicolons

/-! ## What is left of a token -/

/-- The token at the front of a list, unless it is a semicolon that ends its line. -/
def survivor? : List Token → Option Token
  | [] => none
  | t :: rest => if isSemicolon t && endsLine rest then none else some t

/-- **Each token is judged by what follows it in the whole list**, not by what is left of that. -/
theorem dropTrailing_eq_filterMap (ts : List Token) :
    dropTrailing ts = ts.tails.filterMap survivor? := by
  induction ts with
  | nil => rfl
  | cons t rest ih =>
    rw [List.tails_cons, List.filterMap_cons, dropTrailing, ih]
    by_cases hdrop : (isSemicolon t && endsLine rest) = true
    · simp [survivor?, hdrop]
    · simp [survivor?, hdrop]

/-- A line ends behind some spaces. -/
def BreaksLine (ts : List Token) : Prop :=
  ∃ spaces lb rest, ts = spaces ++ lb :: rest ∧ (∀ u ∈ spaces, u.isSpace = true) ∧
    lb.isLinebreak = true

/-- Nothing is left on a line if it is broken, or if the text is at its end. -/
theorem endsLine_iff {ts : List Token} :
    endsLine ts = true ↔ BreaksLine ts ∨ ∀ u ∈ ts, u.isSpace = true := by
  have hsplit := List.takeWhile_append_dropWhile (p := Token.isSpace) (l := ts)
  unfold endsLine
  constructor
  · intro h
    split at h
    · rename_i lb rest hdrop
      rw [hdrop] at hsplit
      exact Or.inl ⟨_, lb, rest, hsplit.symm, fun u => List.mem_takeWhile_imp, h⟩
    · rename_i hdrop
      exact Or.inr (List.dropWhile_eq_nil_iff.1 hdrop)
  · rintro (⟨spaces, lb, rest, rfl, hspaces, hlb⟩ | hall)
    · have hspace : lb.isSpace = false := Relaid.isSpace_of_isLinebreak hlb
      rw [List.dropWhile_append_of_pos hspaces, List.dropWhile_cons_of_neg (by simp [hspace])]
      exact hlb
    · rw [List.dropWhile_eq_nil_iff.2 hall]

/-- A line that goes on up to a closing bracket is not broken before it. -/
theorem not_breaksLine_of_closed {inner rest : List Token} {c : Token}
    (hinner : ∀ u ∈ inner, u.isLinebreak = false) (hc : c.kind = .endOfScope) :
    ¬ BreaksLine (inner ++ c :: rest) := by
  rintro ⟨spaces, lb, rest', hts, hspaces, hlb⟩
  have hspace : c.isSpace = false := by simp [isSpace, hc]
  have hbreak : c.isLinebreak = false := by simp [isLinebreak, hc]
  -- the linebreak would stand among the first tokens, or the bracket among the spaces
  rcases List.append_eq_append_iff.1 hts with ⟨a, rfl, ha⟩ | ⟨a, rfl, ha⟩
  · cases a with
    | nil =>
      obtain ⟨rfl, -⟩ := List.cons.inj ha
      exact absurd hlb (by simp [hbreak])
    | cons v a =>
      obtain ⟨rfl, -⟩ := List.cons.inj ha
      exact absurd (hspaces c (by simp)) (by simp [hspace])
  · cases a with
    | nil =>
      obtain ⟨rfl, -⟩ := List.cons.inj ha
      exact absurd hlb (by simp [hbreak])
    | cons v a =>
      obtain ⟨rfl, -⟩ := List.cons.inj ha
      exact absurd hlb (by simp [hinner lb (by simp)])

theorem survivor?_eq_none_iff {t : Token} {rest : List Token} (ht : isSemicolon t = true) :
    survivor? (t :: rest) = none ↔ endsLine rest = true := by
  cases hends : endsLine rest <;> simp [survivor?, ht, hends]

theorem survivor?_eq_some_iff {t : Token} {rest : List Token} (ht : isSemicolon t = true) :
    survivor? (t :: rest) = some t ↔ endsLine rest = false := by
  cases hends : endsLine rest <;> simp [survivor?, ht, hends]

end Semicolons

/-! ## Headers -/

namespace Token

/-- As many scopes are open as there are marks on the stack. -/
theorem Leaves.depth_eq {α : Type} {mark : List Token → Token → α} {front : List Token}
    {marks : List α} (h : Leaves mark front marks) : depth front = marks.length := by
  induction h with
  | closed h => exact h.depth_eq
  | opened ho _ hinner ih =>
    rw [depth_append, depth_cons, rise_of_opens ho, hinner.depth_eq, ih, List.length_cons]
    omega

theorem depth_eq_zero_of_isSpace {ts : List Token} (h : ∀ t ∈ ts, t.isSpace = true) :
    depth ts = 0 :=
  (Balanced.of_not_isBracket fun t ht =>
    isBracket_of_isLayout (Relaid.isLayout_of_isSpace (h t ht))).depth_eq

/-- One of the brackets that some tokens leave open is round or square. -/
def InHeader (before : List Token) : Prop :=
  ∃ marks, Leaves (fun _ o => o) before marks ∧ ∃ o ∈ marks, o.opens "(" = true ∨ o.opens "[" = true

/-- **In a header, more than spaces is to come**, for a bracket has to be closed. -/
theorem InHeader.exists_not_isSpace {before after : List Token} {t : Token} (h : InHeader before)
    (hall : Balanced (before ++ t :: after)) (ht : t.isBracket = false) :
    ∃ u ∈ after, u.isSpace = false := by
  obtain ⟨marks, hmarks, o, ho, -⟩ := h
  by_contra hnone
  have hspaces : ∀ u ∈ after, u.isSpace = true := by simpa using hnone
  have hdepth := hall.depth_eq
  rw [depth_append, depth_cons, rise_of_not_isBracket ht, depth_eq_zero_of_isSpace hspaces,
    hmarks.depth_eq] at hdepth
  have hpos := List.length_pos_of_mem ho
  omega

end Token

open Semicolons

/-- **Which semicolons of a header are lost.**  In a text that can be read to its end, the rule
drops a semicolon in round or square brackets exactly if the line is broken behind it; all those
that have a closing bracket behind them on their line stay. -/
theorem run_semicolons_in_headers {s : String} (hs : ∀ t ∈ scan s, t.isError = false)
    (style : Style) :
    Rule.semicolons.run style (scan s) = (scan s).tails.filterMap survivor? ∧
      ∀ before t after, scan s = before ++ t :: after → isSemicolon t = true → InHeader before →
        (survivor? (t :: after) = none ↔ BreaksLine after) ∧
        ∀ inner c rest, after = inner ++ c :: rest → (∀ u ∈ inner, u.isLinebreak = false) →
          c.kind = .endOfScope → survivor? (t :: after) = some t := by
  have hrun : Rule.semicolons.run style (scan s) = dropTrailing (scan s) :=
    Buffer.transform_tokens dropTrailing ⟨scan s, false⟩
  refine ⟨hrun.trans (dropTrailing_eq_filterMap (scan s)), ?_⟩
  intro before t after hscan ht hheader
  have hbalanced := balanced_scan hs
  rw [hscan] at hbalanced
  obtain ⟨u, hu, hspace⟩ := hheader.exists_not_isSpace hbalanced
    (by simp [isBracket, kind_of_isDelimiter ht])
  have hends : endsLine after = true ↔ BreaksLine after := by
    rw [endsLine_iff]
    exact or_iff_left fun hall => absurd (hall u hu) (by simp [hspace])
  refine ⟨(survivor?_eq_none_iff ht).trans hends, ?_⟩
  rintro inner c rest rfl hinner hc
  rw [survivor?_eq_some_iff ht, ← Bool.not_eq_true, hends]
  exact not_breaksLine_of_closed hinner hc

/-- The header of a loop, up to its first separator. -/
theorem inHeader_for :
    InHeader [⟨.keyword, "for"⟩, ⟨.startOfScope, "("⟩, ⟨.identifier, "a"⟩] := by
  have hopened : Leaves (fun _ o => o)
      ([⟨.keyword, "for"⟩] ++ ⟨.startOfScope, "("⟩ :: [⟨.identifier, "a"⟩])
      [⟨.startOfScope, "("⟩] :=
    .opened rfl (.closed (.plain rfl .nil)) (.plain rfl .nil)
  exact ⟨_, hopened, _, List.mem_singleton_self _, Or.inl rfl⟩

/-- The first separator of a header that stands on one line. -/
theorem run_semicolons_in_headers_for :
    (∀ t ∈ scan "for(a;b;c)", t.isError = false) ∧
      survivor? ((scan "for(a;b;c)").drop 3) = some ⟨.delimiter, ";"⟩ := by
  have hs : ∀ t ∈ scan "for(a;b;c)", t.isError = false := by decide +kernel
  have hscan : scan "for(a;b;c)" =
      [⟨.keyword, "for"⟩, ⟨.startOfScope, "("⟩, ⟨.identifier, "a"⟩] ++ ⟨.delimiter, ";"⟩ ::
        ([⟨.identifier, "b"⟩, ⟨.delimiter, ";"⟩, ⟨.identifier, "c"⟩] ++
          ⟨.endOfScope, ")"⟩ :: []) := by
    decide +kernel
  refine ⟨hs, ?_⟩
  rw [hscan]
  exact ((run_semicolons_in_headers hs {}).2 _ _ _ hscan rfl inHeader_for).2 _ _ _ rfl
    (by decide) rfl

/-- **A broken header loses a separator**: the text has no error, the semicolon stands in round
brackets, and the rule drops it. -/
theorem run_semicolons_broken_for :
    (∀ t ∈ scan "for(a;\nb;c)\x7b\x7d\n", t.isError = false) ∧
      (∃ before t after, scan "for(a;\nb;c)\x7b\x7d\n" = before ++ t :: after ∧
        isSemicolon t = true ∧ InHeader before ∧ survivor? (t :: after) = none) ∧
      source (Rule.semicolons.run {} (scan "for(a;\nb;c)\x7b\x7d\n")) =
        "for(a\nb;c)\x7b\x7d\n" := by
  have hscan : scan "for(a;\nb;c)\x7b\x7d\n" =
      [⟨.keyword, "for"⟩, ⟨.startOfScope, "("⟩, ⟨.identifier, "a"⟩] ++ ⟨.delimiter, ";"⟩ ::
        (scan "for(a;\nb;c)\x7b\x7d\n").drop 4 := by
    decide +kernel
  exact ⟨by decide +kernel, ⟨_, _, _, hscan, rfl, inHeader_for, by decide +kernel⟩,
    by decide +kernel⟩

end Restyle
