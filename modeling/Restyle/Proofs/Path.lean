import Mathlib.Data.List.Induction
import Restyle.Path

/-!
# Paths below a path

A path that a text spells is `Proper`: it has a segment, its segments hold no slash,
and if it is relative it starts with an empty segment only if it is empty.

The paths that matter to a walk are made of a root and of names: `root.below names` is
the root followed by the names, one after the other.  Its segments are those of the
root, less an empty one at the end, and the names; so it can be taken apart again.

* `below_concat`, `below_eq_join`: one more name, and all names at once.
* `relativeTo?_below`: what is left of it below the root are the names.
* `parent?_of_not_isIdle`: what stands above a path, by its segments.
* `startsAs_of_mem_ancestors`: a path above another starts as that one does.
-/

namespace Restyle
namespace Path

variable {p q : Path} {s : String} {names : List String}

/-! ## Paths that texts spell -/

/-- A path as a text spells it. -/
structure Proper (p : Path) : Prop where
  /-- There is a segment. -/
  nonempty : p.segments ≠ []
  /-- No segment holds a slash. -/
  slashFree : ∀ s ∈ p.segments, '/' ∉ s.toList
  /-- Of the relative paths, only the empty one starts with an empty segment. -/
  head : p.rooted = false → p.segments.head? = some "" → p.segments = [""]

theorem splitSlashes_ne_nil (cs : List Char) : splitSlashes cs ≠ [] := by
  fun_cases splitSlashes cs <;> simp

theorem slash_notMem_of_mem_splitSlashes {cs piece : List Char} (h : piece ∈ splitSlashes cs) :
    '/' ∉ piece := by
  induction cs generalizing piece with
  | nil =>
    obtain rfl : piece = [] := by simpa [splitSlashes] using h
    simp
  | cons c rest ih =>
    rw [splitSlashes] at h
    split_ifs at h with hc
    · rcases List.mem_cons.1 h with rfl | h
      · simp
      · exact ih h
    · split at h
      · obtain rfl : piece = [c] := by simpa using h
        simpa [eq_comm] using hc
      · rename_i first more hsplit
        rcases List.mem_cons.1 h with rfl | h
        · have hfirst : '/' ∉ first := ih (by rw [hsplit]; exact List.mem_cons_self)
          simpa [eq_comm, hfirst] using hc
        · exact ih (by rw [hsplit]; exact List.mem_cons_of_mem _ h)

theorem slashFree_ofText (text : String) :
    ∀ s ∈ (ofText text).segments, '/' ∉ s.toList := by
  intro s hs
  have hpieces : ∃ cs, s ∈ (splitSlashes cs).map String.ofList := by
    unfold ofText at hs
    split at hs
    · exact ⟨_, hs⟩
    · exact ⟨_, hs⟩
  obtain ⟨cs, hcs⟩ := hpieces
  obtain ⟨piece, hpiece, rfl⟩ := List.mem_map.1 hcs
  rw [String.toList_ofList]
  exact slash_notMem_of_mem_splitSlashes hpiece

/-- **What a text spells is proper.** -/
theorem proper_ofText (text : String) : (ofText text).Proper := by
  refine ⟨?_, slashFree_ofText text, ?_⟩
  · unfold ofText
    split <;> simpa using splitSlashes_ne_nil _
  · intro hrooted hhead
    unfold ofText at hrooted hhead ⊢
    split at hrooted
    · simp at hrooted
    · rename_i hslash
      simp only at hhead ⊢
      cases hcs : text.toList with
      | nil => rfl
      | cons c rest =>
        have hc : c ≠ '/' := by
          rintro rfl
          exact hslash rest hcs
        rw [hcs, splitSlashes, if_neg hc] at hhead
        split at hhead
        · simpa using congrArg (Option.map String.toList) hhead
        · simpa using congrArg (Option.map String.toList) hhead

/-! ## Idle segments -/

@[simp] theorem component?_eq_none_iff : component? s = none ↔ isIdle s = true := by
  unfold component?
  split_ifs <;> simp_all

/-- The component of a segment is two dots or a name. -/
theorem ne_of_component? {c : Component} (h : component? s = some c) : c ≠ .root ∧ c ≠ .here := by
  unfold component? at h
  split_ifs at h <;> obtain rfl := Option.some.inj h <;> simp

theorem isIdle_empty : isIdle "" = true := rfl

theorem ne_empty_of_not_isIdle (h : isIdle s = false) : s ≠ "" := by
  rintro rfl
  exact absurd h (by decide)

/-! ## Names below a path -/

/-- The segments of a path in front of what is joined to it. -/
def stem (p : Path) : List String :=
  if p.segments.getLast? == some "" then p.segments.dropLast else p.segments

theorem join_eq (hq : q.rooted = false) : p.join q = ⟨p.rooted, p.stem ++ q.segments⟩ := by
  simp only [join, hq, Bool.false_eq_true, if_false, stem]
  split_ifs <;> rfl

theorem child_eq (p : Path) (s : String) : p.child s = ⟨p.rooted, p.stem ++ [s]⟩ :=
  join_eq rfl

/-- The path that some names lead to from a path. -/
def below (p : Path) (names : List String) : Path := names.foldl child p

@[simp] theorem below_nil (p : Path) : p.below [] = p := rfl

theorem below_concat (p : Path) (names : List String) (s : String) :
    p.below (names ++ [s]) = (p.below names).child s := by
  simp [below]

theorem stem_concat (hs : s ≠ "") (rooted : Bool) (segments : List String) :
    stem ⟨rooted, segments ++ [s]⟩ = segments ++ [s] := by
  simp [stem, hs]

theorem below_eq (hnames : ∀ s ∈ names, s ≠ "") (hne : names ≠ []) (p : Path) :
    p.below names = ⟨p.rooted, p.stem ++ names⟩ := by
  induction names using List.reverseRecOn with
  | nil => exact absurd rfl hne
  | append_singleton names s ih =>
    rw [below_concat, child_eq]
    by_cases hnil : names = []
    · simp [hnil]
    · rw [ih (fun x hx => hnames x (List.mem_append_left _ hx)) hnil]
      obtain ⟨front, last, rfl⟩ := (List.eq_nil_or_concat names).resolve_left hnil
      rw [List.concat_eq_append] at hnames ⊢
      have hlast : last ≠ "" := hnames last (by simp)
      rw [← List.append_assoc, stem_concat hlast]
      simp

theorem below_eq_join (hnames : ∀ s ∈ names, s ≠ "") (hne : names ≠ []) (p : Path) :
    p.below names = p.join ⟨false, names⟩ := by
  rw [below_eq hnames hne, join_eq rfl]

/-! ## Components -/

/-- The component that a path starts with whatever its segments are: the root, or a
dot in front. -/
def lead (p : Path) : List Component :=
  if p.rooted then [.root] else if p.segments.head? = some "." then [.here] else []

theorem components_eq (p : Path) : p.components = p.lead ++ p.segments.filterMap component? := by
  unfold components lead
  split_ifs with hrooted hdot
  · rfl
  · obtain ⟨rest, hrest⟩ := List.head?_eq_some_iff.1 hdot
    rw [hrest, List.filterMap_cons, show component? "." = none from rfl]
    rfl
  · split
    · rename_i rest hrest
      exact absurd (by rw [hrest]; rfl) hdot
    · rfl

theorem filterMap_component?_stem (p : Path) :
    p.stem.filterMap component? = p.segments.filterMap component? := by
  unfold stem
  split_ifs with h
  · obtain ⟨front, hfront⟩ : ∃ front, p.segments = front ++ [""] :=
      List.getLast?_eq_some_iff.1 (by simpa using h)
    rw [hfront, List.dropLast_concat, List.filterMap_append]
    simp [component?, isIdle_empty]
  · rfl

/-- A segment that is neither idle nor two dots is a name. -/
def IsPlain (s : String) : Prop := isIdle s = false ∧ s ≠ ".."

instance (s : String) : Decidable (IsPlain s) := inferInstanceAs (Decidable (_ ∧ _))

theorem component?_of_isPlain (h : IsPlain s) : component? s = some (.name s) := by
  simp [component?, h.1, h.2]

theorem filterMap_component?_of_isPlain (h : ∀ s ∈ names, IsPlain s) :
    names.filterMap component? = names.map Component.name := by
  induction names with
  | nil => rfl
  | cons s rest ih =>
    rw [List.filterMap_cons, component?_of_isPlain (h s List.mem_cons_self)]
    simpa using ih fun x hx => h x (List.mem_cons_of_mem _ hx)

/-- A dot in front stays in front, and none comes. -/
theorem head?_stem_append (h : ∀ s ∈ names, IsPlain s) :
    (p.stem ++ names).head? = some "." ↔ p.segments.head? = some "." := by
  have hnames : names.head? ≠ some "." := by
    intro hdot
    exact absurd (h "." (List.mem_of_head? hdot)).1 (by decide)
  have hstem : p.stem.head? = some "." ↔ p.segments.head? = some "." := by
    unfold stem
    split_ifs with hlast
    · obtain ⟨front, hfront⟩ : ∃ front, p.segments = front ++ [""] :=
        List.getLast?_eq_some_iff.1 (by simpa using hlast)
      rw [hfront, List.dropLast_concat]
      cases front <;> simp
    · rfl
  cases hs : p.stem with
  | nil =>
    rw [hs] at hstem
    simp [← hstem, hnames]
  | cons x rest =>
    rw [← hstem, hs]
    rfl

/-- The components of a path that stands below another. -/
theorem components_below (h : ∀ s ∈ names, IsPlain s) (p : Path) :
    (p.below names).components = p.components ++ names.map Component.name := by
  by_cases hne : names = []
  · simp [hne]
  have hlead : (p.below names).lead = p.lead := by
    rw [below_eq (fun s hs => ne_empty_of_not_isIdle (h s hs).1) hne]
    simp only [lead, head?_stem_append h]
  rw [components_eq, components_eq, hlead,
    below_eq (fun s hs => ne_empty_of_not_isIdle (h s hs).1) hne, List.filterMap_append,
    filterMap_component?_stem, filterMap_component?_of_isPlain h, List.append_assoc]

/-- The segments that count tell the components, and the other way round. -/
theorem filter_eq_of_filterMap_component? {xs ys : List String}
    (h : xs.filterMap component? = ys.filterMap component?) :
    xs.filter (!isIdle ·) = ys.filter (!isIdle ·) := by
  have hmap : ∀ xs : List String, xs.filterMap component? = (xs.filter (!isIdle ·)).map
      fun s => if s == ".." then Component.up else .name s := by
    intro xs
    induction xs with
    | nil => rfl
    | cons s rest ih =>
      unfold component? at ih ⊢
      rw [List.filterMap_cons, ih]
      by_cases hs : isIdle s = true
      · simp [hs]
      · by_cases hup : s = ".."
        · subst hup
          rfl
        · simp [hs, hup]
  rw [hmap, hmap] at h
  refine (List.map_inj_right fun a b hab => ?_).1 h
  by_cases ha : a = ".." <;> by_cases hb : b = ".." <;> simp_all

/-- **Paths with the same components have the same segments that count.** -/
theorem plainSegments_of_same (h : p.same q = true) :
    p.rooted = q.rooted ∧ p.plainSegments = q.plainSegments := by
  have hcomponents : p.lead ++ p.segments.filterMap component? =
      q.lead ++ q.segments.filterMap component? := by
    rw [← components_eq, ← components_eq]
    simpa [same] using h
  -- no segment is taken for the root or for a dot in front
  have hhead : ∀ {xs : List String} {c : Component} {more : List Component},
      xs.filterMap component? = c :: more → c ≠ .root ∧ c ≠ .here := by
    intro xs c more hxs
    obtain ⟨s, -, hs⟩ := List.mem_filterMap.1 (hxs ▸ List.mem_cons_self :
      c ∈ xs.filterMap component?)
    exact ne_of_component? hs
  have hlead : p.rooted = q.rooted ∧
      p.segments.filterMap component? = q.segments.filterMap component? := by
    unfold lead at hcomponents
    split_ifs at hcomponents <;> simp_all <;> first
      | exact absurd rfl (hhead hcomponents).1
      | exact absurd rfl (hhead hcomponents).2
      | exact absurd rfl (hhead hcomponents.symm).1
      | exact absurd rfl (hhead hcomponents.symm).2
  exact ⟨hlead.1, filter_eq_of_filterMap_component? hlead.2⟩

/-! ## What is left below a path -/

theorem dropWhile_dropComponents (segments rest : List String) :
    (dropComponents (segments.filterMap component?).length (segments ++ rest)).dropWhile isIdle =
      rest.dropWhile isIdle := by
  induction segments with
  | nil => cases rest <;> rfl
  | cons s segments ih =>
    cases hs : isIdle s with
    | true =>
      have hnone : component? s = none := component?_eq_none_iff.2 hs
      rw [List.filterMap_cons, hnone, List.cons_append]
      cases hcount : (segments.filterMap component?).length with
      | zero =>
        rw [hcount] at ih
        have hzero : ∀ l, dropComponents 0 l = l := fun l => by cases l <;> rfl
        rw [hzero] at ih ⊢
        rw [List.dropWhile_cons, if_pos hs, ih]
      | succ n =>
        rw [hcount] at ih
        rw [dropComponents, if_pos hs, ih]
    | false =>
      obtain ⟨c, hc⟩ := Option.ne_none_iff_exists'.1 (fun hnone => by
        rw [component?_eq_none_iff, hs] at hnone
        exact absurd hnone (by simp) : component? s ≠ none)
      rw [List.filterMap_cons, hc, List.cons_append, List.length_cons, dropComponents,
        if_neg (by simp [hs]), ih]

theorem trimEnd_of_isPlain (h : ∀ s ∈ names, IsPlain s) : trimEnd names = names := by
  induction names using List.reverseRecOn with
  | nil => rfl
  | append_singleton names s =>
    have hs := (h s (by simp)).1
    simp [trimEnd, hs]

theorem dropWhile_isIdle_of_isPlain (h : ∀ s ∈ names, IsPlain s) :
    names.dropWhile isIdle = names := by
  cases names with
  | nil => rfl
  | cons s rest => rw [List.dropWhile_cons, if_neg (by simp [(h s List.mem_cons_self).1])]

theorem ofSegments_of_ne_nil {segments : List String} (h : segments ≠ []) (rooted : Bool) :
    ofSegments rooted segments = ⟨rooted, segments⟩ := by
  cases segments with
  | nil => exact absurd rfl h
  | cons s rest => rfl

/-- **What is left of a path below its root are the names.** -/
theorem relativeTo?_below (h : ∀ s ∈ names, IsPlain s) (hne : names ≠ []) {root : Path}
    (hroot : root.components ≠ []) : (root.below names).relativeTo? root = some ⟨false, names⟩ := by
  have hstarts : (root.below names).startsWith root = true := by
    rw [startsWith, components_below h, List.isPrefixOf_iff_prefix]
    exact List.prefix_append _ _
  have hends : ∀ segments : List String,
      ofSegments false (trimEnd ((dropComponents (segments.filterMap component?).length
        (segments ++ names)).dropWhile isIdle)) = ⟨false, names⟩ := by
    intro segments
    rw [dropWhile_dropComponents, dropWhile_isIdle_of_isPlain h, trimEnd_of_isPlain h,
      ofSegments_of_ne_nil hne]
  have hbelow := below_eq (fun s hs => ne_empty_of_not_isIdle (h s hs).1) hne root
  have hstem := filterMap_component?_stem root
  unfold relativeTo?
  rw [hstarts]
  simp only [Bool.not_true, Bool.false_eq_true, if_false]
  rw [hbelow]
  rw [components_eq, ← hstem] at hroot ⊢
  -- what the path starts with tells how many segments go
  unfold lead at hroot ⊢
  split_ifs with hrooted hdot
  · simp only [List.cons_append, List.nil_append, hends]
  · obtain ⟨tail, htail⟩ := List.head?_eq_some_iff.1
      ((@head?_stem_append root [] (by simp)).2 hdot)
    rw [List.append_nil] at htail
    rw [htail, List.filterMap_cons, show component? "." = none from rfl]
    simp only [List.cons_append, List.nil_append, List.drop_succ_cons, List.drop_zero, hends]
  · rw [if_neg hrooted, if_neg hdot, List.nil_append] at hroot
    have hcount := hends root.stem
    rw [List.nil_append]
    cases hfirst : root.stem.filterMap component? with
    | nil => exact absurd hfirst hroot
    | cons first more =>
      rw [hfirst, List.length_cons] at hcount
      obtain ⟨s, -, hs⟩ := List.mem_filterMap.1 (hfirst ▸ List.mem_cons_self :
        first ∈ root.stem.filterMap component?)
      cases first with
      | root => exact absurd rfl (ne_of_component? hs).1
      | here => exact absurd rfl (ne_of_component? hs).2
      | up => simp only [hcount]
      | name x => simp only [hcount]

/-! ## What stands above a path -/

/-- A list is what is left when it is cut at its end, and what was cut. -/
theorem exists_append_of_dropWhile_reverse (f : String → Bool) (segments : List String) :
    ∃ cut, (∀ s ∈ cut, f s = true) ∧
      segments = (segments.reverse.dropWhile f).reverse ++ cut := by
  refine ⟨(segments.reverse.takeWhile f).reverse, fun s hs => ?_, ?_⟩
  · exact List.all_eq_true.1 List.all_takeWhile s (List.mem_reverse.1 hs)
  · rw [← List.reverse_append, List.takeWhile_append_dropWhile, List.reverse_reverse]

/-- A path is another without some idle segments at its end.  If none are left, there is
an empty one. -/
def Trims (p q : Path) : Prop :=
  q.rooted = p.rooted ∧ ∃ idles, (∀ s ∈ idles, isIdle s = true) ∧
    (p.segments = q.segments ++ idles ∨ q.segments = [""] ∧ p.segments = idles)

theorem trims_ofSegments {segments idles : List String} {rooted : Bool}
    (hidles : ∀ s ∈ idles, isIdle s = true) :
    Trims ⟨rooted, segments ++ idles⟩ (ofSegments rooted segments) := by
  cases segments with
  | nil => exact ⟨rfl, idles, hidles, .inr ⟨rfl, rfl⟩⟩
  | cons s rest => exact ⟨rfl, idles, hidles, .inl rfl⟩

theorem trims_trimmed (p : Path) : Trims p p.trimmed := by
  have hcut : ∀ (rooted : Bool) (segments : List String),
      Trims ⟨rooted, segments⟩ (ofSegments rooted (trimEnd segments)) := by
    intro rooted segments
    obtain ⟨idles, hidles, hsegments⟩ := exists_append_of_dropWhile_reverse isIdle segments
    have htrims := @trims_ofSegments (trimEnd segments) idles rooted hidles
    rwa [trimEnd, ← hsegments] at htrims
  obtain ⟨rooted, segments⟩ := p
  unfold trimmed
  cases rooted with
  | true => exact hcut true segments
  | false =>
    simp only [Bool.false_eq_true, if_false]
    split
    · rename_i rest
      obtain ⟨idles, hidles, hrest⟩ := exists_append_of_dropWhile_reverse isIdle rest
      refine ⟨rfl, idles, hidles, .inl ?_⟩
      show "." :: rest = "." :: (trimEnd rest ++ idles)
      rw [trimEnd, ← hrest]
    · exact hcut false segments

theorem trims_withoutSlash (p : Path) : Trims p p.withoutSlash := by
  obtain ⟨cut, hcut, hsegments⟩ := exists_append_of_dropWhile_reverse (· == "") p.segments
  have hidles : ∀ s ∈ cut, isIdle s = true := by
    intro s hs
    rw [show s = "" by simpa using hcut s hs]
    rfl
  unfold withoutSlash
  split
  · rename_i hnil
    rw [hnil, List.nil_append] at hsegments
    exact ⟨rfl, cut, hidles, .inr ⟨rfl, hsegments⟩⟩
  · exact ⟨rfl, cut, hidles, .inl hsegments⟩

/-- A path without slashes at its end is empty only if it has no component. -/
theorem isEmpty_withoutSlash (h : p.components ≠ []) : p.withoutSlash.isEmpty = false := by
  rw [Bool.eq_false_iff]
  intro hempty
  simp only [isEmpty, Bool.and_eq_true, Bool.not_eq_true', beq_iff_eq] at hempty
  obtain ⟨cut, hcut, hsegments⟩ := exists_append_of_dropWhile_reverse (· == "") p.segments
  have hall : ∀ s ∈ p.segments, s = "" := by
    intro s hs
    have hleft : ∀ s ∈ (p.segments.reverse.dropWhile (· == "")).reverse, s = "" := by
      intro s hs
      have hkept := hempty.2
      unfold withoutSlash at hkept
      split at hkept
      · rename_i hnil
        rw [hnil] at hs
        simp at hs
      · simp only at hkept
        rw [hkept] at hs
        simpa using hs
    rw [hsegments] at hs
    rcases List.mem_append.1 hs with hs | hs
    · exact hleft s hs
    · simpa using hcut s hs
  have hrooted : p.rooted = false := (trims_withoutSlash p).1 ▸ hempty.1
  have hhead : p.segments.head? ≠ some "." := fun hdot =>
    absurd (hall "." (List.mem_of_head? hdot)) (by decide)
  have hnone : p.segments.filterMap component? = [] := by
    rw [List.filterMap_eq_nil_iff]
    intro s hs
    rw [hall s hs]
    rfl
  exact h (by rw [components_eq, lead, hrooted, hnone, if_neg (by simp), if_neg hhead]; rfl)

theorem withoutSlash_of_ne_empty {front : List String} (hsegments : p.segments = front ++ [s])
    (hs : s ≠ "") : p.withoutSlash = p ∧ p.endsWithSlash = false := by
  obtain ⟨rooted, segments⟩ := p
  subst hsegments
  constructor
  · unfold withoutSlash
    simp only [List.reverse_append, List.reverse_cons, List.reverse_nil, List.nil_append,
      List.singleton_append, List.dropWhile_cons, beq_iff_eq, hs, if_false, List.reverse_reverse]
    split
    · rename_i hnil
      simp at hnil
    · rfl
  · simp [endsWithSlash, hs]

/-- A path without a slash at its end has none to leave out. -/
theorem withoutSlash_of_not_endsWithSlash (hp : p.Proper) (h : p.endsWithSlash = false) :
    p.withoutSlash = p := by
  obtain ⟨front, last, hsegments⟩ := (List.eq_nil_or_concat p.segments).resolve_left hp.nonempty
  rw [List.concat_eq_append] at hsegments
  by_cases hlast : last = ""
  · -- only the empty path ends like this
    have hempty : p.isEmpty = true := by
      by_contra hempty
      exact absurd h (by simp [endsWithSlash, hempty, hsegments, hlast])
    obtain ⟨rooted, segments⟩ := p
    simp only [isEmpty, Bool.and_eq_true, Bool.not_eq_true', beq_iff_eq] at hempty
    obtain ⟨rfl, rfl⟩ := hempty
    rfl
  · exact (withoutSlash_of_ne_empty hsegments hlast).1

theorem trimmed_of_not_isIdle {rooted : Bool} {front : List String} (hs : isIdle s = false) :
    trimmed ⟨rooted, front ++ [s]⟩ = ⟨rooted, front ++ [s]⟩ := by
  have htrim : ∀ front, trimEnd (front ++ [s]) = front ++ [s] := by simp [trimEnd, hs]
  have hofSegments : ∀ rooted, ofSegments rooted (front ++ [s]) = ⟨rooted, front ++ [s]⟩ :=
    ofSegments_of_ne_nil (by simp)
  unfold trimmed
  cases rooted with
  | true => simp only [if_true, htrim, hofSegments]
  | false =>
    simp only [Bool.false_eq_true, if_false]
    split
    · rename_i rest hrest
      cases front with
      | nil =>
        obtain rfl : s = "." := (List.cons.inj hrest).1
        exact absurd hs (by decide)
      | cons first front =>
        obtain ⟨rfl, hfront⟩ := List.cons.inj hrest
        rw [← hfront]
        exact congrArg (fun rest => ofSegments false ("." :: rest)) (htrim front)
    · rw [htrim, hofSegments]

/-- **What stands above a path whose last segment counts** is what stands before that
segment. -/
theorem parent?_of_not_isIdle {front : List String} (hsegments : p.segments = front ++ [s])
    (hs : isIdle s = false) :
    ∃ q, p.parent? = some q ∧ Trims ⟨p.rooted, front⟩ q := by
  obtain ⟨rooted, segments⟩ := p
  subst hsegments
  refine ⟨(ofSegments rooted front).trimmed, ?_, ?_⟩
  · have hlast : (front ++ [s] == [""]) = false := by
      rw [beq_eq_false_iff_ne]
      intro h
      exact ne_empty_of_not_isIdle hs (by simpa using congrArg List.getLast? h)
    simp [parent?, trimmed_of_not_isIdle hs, hlast]
  · cases front with
    | nil => cases rooted <;> exact ⟨rfl, [], by simp, .inr ⟨rfl, rfl⟩⟩
    | cons first front => exact trims_trimmed _

/-- A path starts as another does, or it has no segment that counts. -/
def StartsAs (p q : Path) : Prop :=
  q.rooted = p.rooted ∧ (q.segments <+: [""] ∨ q.segments <+: p.segments)

namespace StartsAs

variable {r : Path}

theorem refl (p : Path) : StartsAs p p := ⟨rfl, .inr (List.prefix_refl _)⟩

theorem trans (h : StartsAs p q) (h' : StartsAs q r) : StartsAs p r := by
  refine ⟨h'.1.trans h.1, ?_⟩
  rcases h'.2 with hempty | hstart
  · exact .inl hempty
  · exact h.2.imp hstart.trans hstart.trans

theorem of_trims (h : Trims p q) : StartsAs p q := by
  obtain ⟨hrooted, idles, -, hsegments | ⟨hsegments, -⟩⟩ := h
  · exact ⟨hrooted, .inr ⟨idles, hsegments.symm⟩⟩
  · exact ⟨hrooted, .inl (hsegments ▸ List.prefix_refl _)⟩

theorem of_parent? (h : p.parent? = some q) : StartsAs p q := by
  simp only [parent?] at h
  split_ifs at h
  obtain rfl := Option.some.inj h
  refine (of_trims (trims_trimmed p)).trans (StartsAs.trans ?_ (of_trims (trims_trimmed _)))
  have hdrop := List.dropLast_prefix p.trimmed.segments
  cases hfront : p.trimmed.segments.dropLast with
  | nil => exact ⟨rfl, .inl (List.prefix_refl _)⟩
  | cons first front =>
    rw [hfront] at hdrop
    exact ⟨rfl, .inr hdrop⟩

theorem slashFree (h : StartsAs p q) (hp : ∀ s ∈ p.segments, '/' ∉ s.toList) :
    ∀ s ∈ q.segments, '/' ∉ s.toList := by
  intro s hs
  rcases h.2 with hempty | hbegin
  · rw [List.mem_singleton.1 (hempty.subset hs)]
    simp
  · exact hp s (hbegin.subset hs)

end StartsAs

theorem exists_upward_eq_cons (n : Nat) (p : Path) : ∃ above, upward n p = p :: above := by
  cases n with
  | zero => exact ⟨[], rfl⟩
  | succ n =>
    unfold upward
    split
    · exact ⟨_, rfl⟩
    · exact ⟨_, rfl⟩

/-- What holds of a path, and of the path above each path that it holds of, holds all the way
up. -/
theorem upward_induction {J : Path → Prop} (hstep : ∀ {q q'}, J q → q.parent? = some q' → J q')
    {n : Nat} (hp : J p) (h : q ∈ upward n p) : J q := by
  induction n generalizing p with
  | zero =>
    obtain rfl : q = p := by simpa [upward] using h
    exact hp
  | succ n ih =>
    rw [upward] at h
    split at h
    · rename_i above habove
      rcases List.mem_cons.1 h with rfl | h
      · exact hp
      · exact ih (hstep hp habove) h
    · obtain rfl : q = p := by simpa using h
      exact hp

theorem startsAs_of_mem_upward {n : Nat} (h : q ∈ upward n p) : StartsAs p q :=
  upward_induction (fun hq hparent => hq.trans (.of_parent? hparent)) (.refl p) h

/-- **A path above another starts as that one does.** -/
theorem startsAs_of_mem_ancestors (h : q ∈ p.ancestors) : StartsAs p q :=
  startsAs_of_mem_upward h

end Path
end Restyle
