import Restyle.Cache
import Restyle.Proofs.FileTree.Shape

/-!
# Files have keys of their own

A file goes by the text of its path below the directory of the cache file, or by the text
of its whole path if it is not below that directory.  A text tells the segments of its
path (`text_inj`), and what is left below a directory tells the components of the whole
path (`components_of_relativeTo?`).

So the files below one root have different keys, unless the directory of the cache file is
itself below the root: then a file in that directory may go by the text of a path that
leads to another one.
-/

namespace Restyle
namespace Path

variable {p q base r : Path} {names : List String}

/-- **Two paths with one text are one path**, if both are rooted or both are relative. -/
theorem text_inj (hrooted : p.rooted = q.rooted) (hp : ∀ s ∈ p.segments, '/' ∉ s.toList)
    (hq : ∀ s ∈ q.segments, '/' ∉ s.toList) (hp' : p.segments ≠ []) (hq' : q.segments ≠ [])
    (h : p.text = q.text) : p = q := by
  have hchars : ['/'].intercalate (p.segments.map String.toList) =
      ['/'].intercalate (q.segments.map String.toList) := by
    unfold text at h
    rw [hrooted, String.append_right_inj] at h
    have hlist := congrArg String.toList h
    rwa [String.toList_intercalate, String.toList_intercalate] at hlist
  have hsplit := congrArg (List.splitOn '/') hchars
  rw [List.splitOn_intercalate _ (by simpa using hp) (by simpa using hp'),
    List.splitOn_intercalate _ (by simpa using hq) (by simpa using hq')] at hsplit
  have hsegments : p.segments = q.segments :=
    List.map_injective_iff.2 (fun _ _ => String.toList_inj.1) hsplit
  cases p
  cases q
  simp_all

theorem filterMap_dropComponents (n : Nat) (segments : List String) :
    (dropComponents n segments).filterMap component? =
      (segments.filterMap component?).drop n := by
  induction segments generalizing n with
  | nil => cases n <;> rfl
  | cons s rest ih =>
    cases n with
    | zero => rfl
    | succ n =>
      rw [dropComponents]
      cases hs : isIdle s with
      | true => rw [if_pos rfl, ih, List.filterMap_cons, component?_eq_none_iff.2 hs]
      | false =>
        obtain ⟨c, hc⟩ := Option.ne_none_iff_exists'.1 (fun hnone => by
          rw [component?_eq_none_iff, hs] at hnone
          exact absurd hnone (by simp) : component? s ≠ none)
        rw [if_neg (by simp), ih, List.filterMap_cons, hc, List.drop_succ_cons]

/-- Idle segments at both ends do not count. -/
theorem filterMap_trimEnd_dropWhile (segments : List String) :
    (trimEnd (segments.dropWhile isIdle)).filterMap component? =
      segments.filterMap component? := by
  have hidles : ∀ {idles : List String}, (∀ s ∈ idles, isIdle s = true) →
      idles.filterMap component? = [] := by
    intro idles hidles
    exact List.filterMap_eq_nil_iff.2 fun s hs => component?_eq_none_iff.2 (hidles s hs)
  obtain ⟨cut, hcut, hdropped⟩ :=
    exists_append_of_dropWhile_reverse isIdle (segments.dropWhile isIdle)
  have htaken : ∀ s ∈ segments.takeWhile isIdle, isIdle s = true :=
    List.all_eq_true.1 List.all_takeWhile
  calc
    _ = (trimEnd (segments.dropWhile isIdle) ++ cut).filterMap component? := by
      rw [List.filterMap_append, hidles hcut, List.append_nil]
    _ = (segments.takeWhile isIdle ++ segments.dropWhile isIdle).filterMap component? := by
      rw [trimEnd, ← hdropped, List.filterMap_append, hidles htaken, List.nil_append]
    _ = _ := by rw [List.takeWhile_append_dropWhile]

theorem filterMap_ofSegments (rooted : Bool) (segments : List String) :
    (ofSegments rooted segments).segments.filterMap component? =
      segments.filterMap component? := by
  cases segments <;> rfl

/-- **What is left of a path below another tells its components.** -/
theorem components_of_relativeTo? (hbase : base.components ≠ [])
    (h : p.relativeTo? base = some r) :
    p.components = base.components ++ r.segments.filterMap component? := by
  unfold relativeTo? at h
  split_ifs at h with hstarts
  obtain ⟨tail, htail⟩ : base.components <+: p.components := by
    simpa [startsWith, List.isPrefixOf_iff_prefix] using hstarts
  obtain ⟨first, more, hfirst⟩ := List.exists_cons_of_ne_nil hbase
  have hdrop : ∀ {skipped : List Component} {segments : List String},
      segments.filterMap component? = skipped ++ tail →
      (ofSegments false (trimEnd ((dropComponents skipped.length segments).dropWhile
        isIdle))).segments.filterMap component? = tail := by
    intro skipped segments hsegments
    rw [filterMap_ofSegments, filterMap_trimEnd_dropWhile, filterMap_dropComponents, hsegments]
    simp
  rw [hfirst] at h htail ⊢
  rw [← htail]
  refine congrArg _ ?_
  -- the first component tells from where the segments of the path are counted
  rw [components_eq, lead] at htail
  split_ifs at htail with hrooted hdot <;>
    simp only [List.cons_append, List.nil_append] at htail
  · obtain ⟨rfl, hrest⟩ := List.cons.inj htail
    obtain rfl := Option.some.inj h
    exact (hdrop hrest.symm).symm
  · obtain ⟨rfl, hrest⟩ := List.cons.inj htail
    obtain rfl := Option.some.inj h
    obtain ⟨after, hafter⟩ := List.head?_eq_some_iff.1 hdot
    rw [hafter, List.filterMap_cons, show component? "." = none from rfl] at hrest
    simp only [hafter, List.drop_succ_cons, List.drop_zero]
    exact (hdrop hrest.symm).symm
  · obtain ⟨s, -, hs⟩ := List.mem_filterMap.1
      (htail ▸ List.mem_cons_self : first ∈ p.segments.filterMap component?)
    have hcount := @hdrop (first :: more) p.segments htail.symm
    rw [List.length_cons] at hcount
    cases first with
    | root => exact absurd rfl (ne_of_component? hs).1
    | here => exact absurd rfl (ne_of_component? hs).2
    | up =>
      obtain rfl := Option.some.inj h
      exact hcount.symm
    | name x =>
      obtain rfl := Option.some.inj h
      exact hcount.symm

theorem dropComponents_suffix (n : Nat) (segments : List String) :
    dropComponents n segments <:+ segments := by
  fun_induction dropComponents n segments with
  | case1 => exact List.suffix_refl _
  | case2 => exact List.suffix_refl _
  | case3 n s rest _ ih => exact ih.trans (List.suffix_cons s rest)
  | case4 n s rest _ ih => exact ih.trans (List.suffix_cons s rest)

theorem exists_relativeTo? (h : p.startsWith base = true) :
    ∃ r, p.relativeTo? base = some r := by
  rw [relativeTo?, if_neg (by simp [h])]
  split <;> exact ⟨_, rfl⟩

/-- What is left of a path below another is the end of its segments, without the idle ones
around it. -/
theorem exists_suffix_of_relativeTo? (hbase : base.components ≠ [])
    (h : p.relativeTo? base = some r) :
    ∃ rest, rest <:+ p.segments ∧ r = ofSegments false (trimEnd (rest.dropWhile isIdle)) := by
  unfold relativeTo? at h
  split_ifs at h
  split at h
  · exact absurd ‹_› hbase
  · refine ⟨_, ?_, (Option.some.inj h).symm⟩
    split
    · exact dropComponents_suffix _ _
    · exact (dropComponents_suffix _ _).trans (List.drop_suffix _ _)
    · exact dropComponents_suffix _ _

/-- What is left of a path below another is relative and spelled with segments of it. -/
theorem spelled_of_relativeTo? (hbase : base.components ≠ []) (h : p.relativeTo? base = some r)
    (hp : ∀ s ∈ p.segments, '/' ∉ s.toList) :
    r.rooted = false ∧ r.segments ≠ [] ∧ ∀ s ∈ r.segments, '/' ∉ s.toList := by
  obtain ⟨rest, hrest, rfl⟩ := exists_suffix_of_relativeTo? hbase h
  by_cases hnil : trimEnd (rest.dropWhile isIdle) = []
  · rw [hnil]
    simp [ofSegments]
  · rw [ofSegments_of_ne_nil hnil]
    refine ⟨rfl, hnil, fun s hs => hp s (hrest.subset ?_)⟩
    refine (List.dropWhile_suffix isIdle).subset (List.mem_reverse.1 ?_)
    exact (List.dropWhile_suffix isIdle).subset (List.mem_reverse.1 hs)

end Path

namespace Cache

open FileTree (IsName)

variable {c : Cache} {root : Path} {names names' : List String}

section Below

variable (hnames : ∀ s ∈ names, IsName s) (hne : names ≠ [])
include hnames hne

theorem below_eq_of_isName : root.below names = ⟨root.rooted, root.stem ++ names⟩ :=
  Path.below_eq (fun s hs => Path.ne_empty_of_not_isIdle (hnames s hs).1.1) hne root

theorem slashFree_below (hroot : root.Proper) :
    ∀ s ∈ (root.below names).segments, '/' ∉ s.toList := by
  rw [below_eq_of_isName hnames hne]
  intro s hs
  rcases List.mem_append.1 hs with hs | hs
  · refine hroot.slashFree s ?_
    unfold Path.stem at hs
    split_ifs at hs
    · exact List.dropLast_subset _ hs
    · exact hs
  · exact (hnames s hs).2

theorem trimmed_below : (root.below names).trimmed = root.below names := by
  obtain ⟨front, last, rfl⟩ := (List.eq_nil_or_concat names).resolve_left hne
  rw [List.concat_eq_append] at hnames ⊢
  rw [below_eq_of_isName hnames (by simp), ← List.append_assoc]
  exact Path.trimmed_of_not_isIdle (hnames last (by simp)).1.1

omit hne in
theorem startsWith_below_iff (hdirectory : ∀ front, front ≠ [] → front <+: names →
      c.directory.components ≠ root.components ++ front.map Component.name) :
    (root.below names).startsWith c.directory = true ↔
      c.directory.components <+: root.components := by
  rw [Path.startsWith, Path.components_below fun s hs => (hnames s hs).1,
    List.isPrefixOf_iff_prefix]
  refine ⟨fun h => ?_, fun h => h.trans (List.prefix_append _ _)⟩
  rcases List.prefix_or_prefix_of_prefix h (List.prefix_append _ _) with h' | ⟨more, hmore⟩
  · exact h'
  · -- a longer directory would have names of files for its last components
    rw [← hmore, List.prefix_append_right_inj] at h
    obtain ⟨front, hbegin, rfl⟩ : ∃ front, front <+: names ∧ front.map Component.name = more := by
      rw [List.prefix_iff_eq_take.1 h, ← List.map_take]
      exact ⟨_, List.take_prefix _ _, rfl⟩
    by_cases hfront : front = []
    · rw [← hmore, hfront]
      simp
    · exact absurd hmore.symm (hdirectory front hfront hbegin)

end Below

/-- **The files below one root have different keys**, unless the directory of the cache file
is on the way from the root to one of them. -/
theorem key_below_inj (hroot : root.Proper) (hnames : ∀ s ∈ names, IsName s)
    (hnames' : ∀ s ∈ names', IsName s) (hne : names ≠ []) (hne' : names' ≠ [])
    (hdirectory : ∀ front, front ≠ [] → front <+: names →
      c.directory.components ≠ root.components ++ front.map Component.name)
    (hdirectory' : ∀ front, front ≠ [] → front <+: names' →
      c.directory.components ≠ root.components ++ front.map Component.name)
    (h : c.key (root.below names) = c.key (root.below names')) : names = names' := by
  -- without anything to strip, the key is the whole path
  have hwhole : (root.below names).text = (root.below names').text → names = names' := by
    intro htext
    have hrooted : (root.below names).rooted = (root.below names').rooted := by
      rw [below_eq_of_isName hnames hne, below_eq_of_isName hnames' hne']
    have heq := Path.text_inj hrooted (slashFree_below hnames hne hroot)
      (slashFree_below hnames' hne' hroot) (by simp [below_eq_of_isName hnames hne, hne])
      (by simp [below_eq_of_isName hnames' hne', hne']) htext
    rw [below_eq_of_isName hnames hne, below_eq_of_isName hnames' hne'] at heq
    exact List.append_cancel_left (Path.mk.inj heq).2
  unfold key at h
  by_cases hstarts : c.directory.components <+: root.components
  · have hstarts₁ := (startsWith_below_iff hnames hdirectory).2 hstarts
    have hstarts₂ := (startsWith_below_iff hnames' hdirectory').2 hstarts
    by_cases hnil : c.directory.components = []
    · simp only [Path.relativeTo?, hstarts₁, hstarts₂, hnil, Bool.not_true, Bool.false_eq_true,
        if_false, Option.getD_some, trimmed_below hnames hne, trimmed_below hnames' hne'] at h
      exact hwhole h
    · obtain ⟨r, hr⟩ := Path.exists_relativeTo? hstarts₁
      obtain ⟨r', hr'⟩ := Path.exists_relativeTo? hstarts₂
      obtain ⟨hrooted, hsegments, hslash⟩ :=
        Path.spelled_of_relativeTo? hnil hr (slashFree_below hnames hne hroot)
      obtain ⟨hrooted', hsegments', hslash'⟩ :=
        Path.spelled_of_relativeTo? hnil hr' (slashFree_below hnames' hne' hroot)
      rw [hr, hr', Option.getD_some, Option.getD_some] at h
      obtain rfl :=
        Path.text_inj (hrooted.trans hrooted'.symm) hslash hslash' hsegments hsegments' h
      have hcomponents := (Path.components_of_relativeTo? hnil hr).trans
        (Path.components_of_relativeTo? hnil hr').symm
      rw [Path.components_below fun s hs => (hnames s hs).1,
        Path.components_below fun s hs => (hnames' s hs).1] at hcomponents
      exact List.map_injective_iff.2 (fun _ _ => Component.name.inj)
        (List.append_cancel_left hcomponents)
  · have hnone : ∀ {p : Path}, (p.startsWith c.directory = true →
        c.directory.components <+: root.components) → p.relativeTo? c.directory = none := by
      intro p hp
      rw [Path.relativeTo?, if_pos]
      simpa using mt hp hstarts
    rw [hnone (startsWith_below_iff hnames hdirectory).1,
      hnone (startsWith_below_iff hnames' hdirectory').1] at h
    exact hwhole h

end Cache
end Restyle
