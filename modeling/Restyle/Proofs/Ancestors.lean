import Mathlib.Data.List.Infix
import Restyle.Proofs.FileTree.Clearing

/-!
# The paths above a path, by their components

Going up from a path takes away its last component, however the path is spelled: idle segments
at its end are left out first.  It stops when nothing is left, or only the root.  So the
components of the paths above a path are the first components of that path, from none of them,
or only the root, to all.

In a tree without links the location of a path is read off its components.  Therefore the paths
above `p` lead to the directories on the way from where `p` starts to where it leads, outermost
last, each of them once; only where `p` starts may be met twice, since a relative path can start
with a dot.

* `components_of_parent?`: what going up does to the components.
* `map_components_ancestors`: the components of all paths above a path.
* `pairwise_spelled_ancestors`, `exists_ancestor_iff`: where the paths above a path lead.
* `same_of_spelled_eq`: no two of them lead to the same place, where the path starts apart.
-/

namespace Restyle

/-- The segment that stands for a component. -/
def Component.segment? : Component → Option String
  | .name s => some s
  | .up => some ".."
  | _ => none

namespace Path

variable {p q : Path} {s : String}

/-! ## Segments that count -/

theorem segment?_component? (s : String) :
    (component? s).bind Component.segment? = if isIdle s then none else some s := by
  unfold component?
  split_ifs with hidle hup
  · rfl
  · simpa [Component.segment?] using (beq_iff_eq.1 hup).symm
  · rfl

/-- **The segments that count are in the components.** -/
theorem plainSegments_eq (p : Path) :
    p.plainSegments = p.components.filterMap Component.segment? := by
  have hlead : p.lead.filterMap Component.segment? = [] := by
    unfold lead
    split_ifs <;> rfl
  rw [components_eq, List.filterMap_append, hlead, List.nil_append, List.filterMap_filterMap,
    plainSegments]
  simp only [segment?_component?]
  induction p.segments with
  | nil => rfl
  | cons s rest ih => cases hs : isIdle s <;> simp [hs, ih]

theorem mem_plainSegments_iff : ".." ∈ p.plainSegments ↔ ".." ∈ p.segments := by
  rw [plainSegments, List.mem_filter]
  exact and_iff_left (by decide)

/-- Behind the first component there are only names and two dots. -/
theorem eq_nil_of_segment?_eq_none {front back : List Component} {c : Component}
    (h : p.components = front ++ c :: back) (hc : c.segment? = none) : front = [] := by
  cases front with
  | nil => rfl
  | cons first front =>
    exfalso
    have hmem : c ∈ p.components.tail := by simp [h]
    have hbehind : c ∈ p.segments.filterMap component? := by
      rw [components_eq, lead] at hmem
      split_ifs at hmem
      · exact hmem
      · exact hmem
      · exact List.mem_of_mem_tail hmem
    obtain ⟨s, -, hs⟩ := List.mem_filterMap.1 hbehind
    obtain ⟨hroot, hhere⟩ := ne_of_component? hs
    cases c <;> simp_all [Component.segment?]

/-- The components of a rooted path without two dots are the root and its segments that
count. -/
theorem components_of_rooted (hrooted : p.rooted = true) (hup : ".." ∉ p.segments) :
    p.components = .root :: p.plainSegments.map .name := by
  have hnames : p.segments.filterMap component? = p.plainSegments.map .name := by
    rw [← filterMap_component?_of_isPlain fun s hs => ?_]
    · rw [plainSegments, List.filterMap_filter]
      refine List.filterMap_congr fun s _ => ?_
      cases hs : isIdle s <;> simp [component?, hs]
    · obtain ⟨hmem, hidle⟩ := List.mem_filter.1 hs
      exact ⟨by simpa using hidle, fun heq => hup (heq ▸ hmem)⟩
  rw [components_eq, lead, if_pos hrooted, hnames]
  rfl

/-! ## Going up -/

theorem filterMap_component?_trimEnd (segments : List String) :
    (trimEnd segments).filterMap component? = segments.filterMap component? := by
  obtain ⟨idles, hidles, hsegments⟩ := exists_append_of_dropWhile_reverse isIdle segments
  have hnone : idles.filterMap component? = [] :=
    List.filterMap_eq_nil_iff.2 fun s hs => component?_eq_none_iff.2 (hidles s hs)
  conv_rhs => rw [hsegments, List.filterMap_append, hnone, List.append_nil]
  rfl

theorem trimEnd_prefix_self (segments : List String) : trimEnd segments <+: segments := by
  obtain ⟨idles, -, hsegments⟩ := exists_append_of_dropWhile_reverse isIdle segments
  exact ⟨idles, hsegments.symm⟩

theorem components_ofSegments (rooted : Bool) (segments : List String) :
    (ofSegments rooted segments).components = components ⟨rooted, segments⟩ := by
  cases segments <;> cases rooted <;> rfl

theorem components_trimmed (p : Path) : p.trimmed.components = p.components := by
  obtain ⟨rooted, segments⟩ := p
  unfold trimmed
  cases rooted with
  | true =>
    simp only [if_true, components_ofSegments]
    simp only [components, if_true, filterMap_component?_trimEnd]
  | false =>
    simp only [Bool.false_eq_true, if_false]
    split
    · rename_i rest
      rw [components_ofSegments]
      simp only [components, Bool.false_eq_true, if_false, filterMap_component?_trimEnd]
    · rename_i hdot
      rw [components_ofSegments, components_eq, components_eq, filterMap_component?_trimEnd]
      -- no dot comes to the front
      have hhead : ∀ segments' : List String, segments' <+: segments →
          segments'.head? ≠ some "." := by
        rintro (_ | ⟨s, rest⟩) hbegin hhead
        · cases hhead
        · obtain rfl : s = "." := by simpa using hhead
          obtain ⟨more, hmore⟩ := hbegin
          exact hdot (rest ++ more) hmore.symm
      rw [lead, lead, if_neg Bool.false_ne_true, if_neg Bool.false_ne_true,
        if_neg (hhead _ (trimEnd_prefix_self segments)), if_neg (hhead _ (List.prefix_refl _))]

/-- **Going up takes away the last component.** -/
theorem components_of_parent? (h : p.parent? = some q) :
    ∃ c, p.components = q.components ++ [c] := by
  simp only [parent?] at h
  split_ifs at h with hsegments
  obtain rfl := Option.some.inj h
  rw [components_trimmed, components_ofSegments, ← components_trimmed p]
  rcases trimmed_cases p with hempty | ⟨hrooted, hdot⟩ | ⟨front, s, hconcat, hs⟩
  · exact absurd (beq_iff_eq.2 hempty) hsegments
  · have hrooted : p.trimmed.rooted = false := (trims_trimmed p).1.trans hrooted
    refine ⟨.here, ?_⟩
    rw [components, components, hrooted, hdot]
    rfl
  · obtain ⟨c, hc⟩ := Option.ne_none_iff_exists'.1
      (mt component?_eq_none_iff.1 (Bool.eq_false_iff.1 hs))
    refine ⟨c, ?_⟩
    have hlead : p.trimmed.lead = lead ⟨p.trimmed.rooted, front⟩ := by
      have hhead : (front ++ [s]).head? = some "." ↔ front.head? = some "." := by
        cases front with
        | nil =>
          have hne : s ≠ "." := by
            rintro rfl
            exact absurd hs (by decide)
          simp [hne]
        | cons first front => simp
      simp only [lead, hconcat, hhead]
    rw [components_eq, components_eq, hlead, hconcat, List.dropLast_concat, List.filterMap_append,
      List.filterMap_cons_some hc, List.append_assoc]
    rfl

/-- There is nothing above a path without components, or with only the root. -/
theorem components_of_parent?_eq_none (h : p.parent? = none) :
    p.components = if p.rooted then [.root] else [] := by
  simp only [parent?] at h
  split_ifs at h with hsegments
  rw [← components_trimmed, components_eq, beq_iff_eq.1 hsegments, lead, (trims_trimmed p).1,
    beq_iff_eq.1 hsegments]
  split_ifs with hrooted hdot
  · rfl
  · exact absurd hdot (by decide)
  · rfl

/-! ## All paths above a path -/

/-- The components that paths above a path may have: the first ones, and the root among them if
there is one. -/
def beginnings (p : Path) : List (List Component) :=
  if p.rooted then p.components.inits.tail else p.components.inits

theorem mem_beginnings_iff {cs : List Component} :
    cs ∈ p.beginnings ↔ cs <+: p.components ∧ (p.rooted = true → cs ≠ []) := by
  unfold beginnings
  split_ifs with hrooted
  · have htail : p.components.inits = [] :: p.components.inits.tail := by
      cases p.components <;> simp
    have hnil : [] ∉ p.components.inits.tail := by
      cases p.components <;> simp
    constructor
    · intro h
      exact ⟨(List.mem_inits _ _).1 (List.mem_of_mem_tail h), fun _ hcs => hnil (hcs ▸ h)⟩
    · rintro ⟨hbegin, hne⟩
      have hmem := (List.mem_inits _ _).2 hbegin
      rw [htail] at hmem
      exact (List.mem_cons.1 hmem).resolve_left (hne hrooted)
  · rw [List.mem_inits]
    exact (and_iff_left fun h => absurd h hrooted).symm

theorem beginnings_of_parent?_eq_none (h : p.parent? = none) : p.beginnings = [p.components] := by
  rw [beginnings, components_of_parent?_eq_none h]
  split_ifs <;> rfl

theorem beginnings_of_parent? (h : p.parent? = some q) :
    p.beginnings = q.beginnings ++ [p.components] := by
  obtain ⟨c, hc⟩ := components_of_parent? h
  have hinits : p.components.inits = q.components.inits ++ [p.components] := by
    rw [hc, List.inits_append]
    simp
  have hne : q.components.inits ≠ [] := by
    cases q.components <;> simp
  rw [beginnings, beginnings, hinits, (StartsAs.of_parent? h).1, List.tail_append_of_ne_nil hne]
  split_ifs <;> rfl

theorem map_components_upward {n : Nat} (h : p.components.length ≤ n) :
    ((upward n p).map components).reverse = p.beginnings := by
  induction n generalizing p with
  | zero =>
    have hnil : p.components = [] := List.length_eq_zero_iff.1 (Nat.le_zero.1 h)
    cases habove : p.parent? with
    | none => exact (beginnings_of_parent?_eq_none habove).symm
    | some q =>
      obtain ⟨c, hc⟩ := components_of_parent? habove
      simp [hnil] at hc
  | succ n ih =>
    rw [upward]
    cases habove : p.parent? with
    | none => exact (beginnings_of_parent?_eq_none habove).symm
    | some q =>
      obtain ⟨c, hc⟩ := components_of_parent? habove
      have hlength : q.components.length ≤ n := by
        rw [hc, List.length_append, List.length_singleton] at h
        omega
      rw [List.map_cons, List.reverse_cons, ih hlength, beginnings_of_parent? habove]

/-- **The components of the paths above a path** are its first components, all of them first. -/
theorem map_components_ancestors (p : Path) :
    (p.ancestors.map components).reverse = p.beginnings := by
  refine map_components_upward ?_
  rw [components_eq, List.length_append]
  have hlead : p.lead.length ≤ 1 := by
    unfold lead
    split_ifs <;> simp
  have hrest := List.length_filterMap_le component? p.segments
  omega

theorem components_mem_beginnings (h : q ∈ p.ancestors) : q.components ∈ p.beginnings := by
  rw [← map_components_ancestors, List.mem_reverse]
  exact List.mem_map_of_mem h

theorem rooted_of_mem_ancestors (h : q ∈ p.ancestors) : q.rooted = p.rooted :=
  (startsAs_of_mem_ancestors h).1

theorem pairwise_inits {α : Type} (l : List α) :
    l.inits.Pairwise fun a b => a <+: b ∧ a ≠ b := by
  induction l with
  | nil => simp
  | cons x rest ih =>
    rw [List.inits_cons, List.pairwise_cons, List.pairwise_map]
    refine ⟨fun b hb => ?_, ih.imp fun {a b} h => ?_⟩
    · obtain ⟨b, -, rfl⟩ := List.mem_map.1 hb
      exact ⟨List.nil_prefix, by simp⟩
    · exact ⟨(List.prefix_cons_inj x).2 h.1, fun heq => h.2 (List.cons.inj heq).2⟩

theorem pairwise_beginnings (p : Path) :
    p.beginnings.Pairwise fun a b => a <+: b ∧ a ≠ b := by
  unfold beginnings
  split_ifs
  · exact (pairwise_inits _).sublist (List.tail_sublist _)
  · exact pairwise_inits _

/-- Outermost first, the paths above a path begin each other and are all different. -/
theorem pairwise_ancestors (p : Path) :
    p.ancestors.reverse.Pairwise fun a b =>
      a.components <+: b.components ∧ a.components ≠ b.components := by
  have h := pairwise_beginnings p
  rw [← map_components_ancestors, ← List.map_reverse, List.pairwise_map] at h
  exact h

end Path

namespace FileTree

open Restyle.Path

variable {t : FileTree} {p a b : Path} {l : Location}

/-! ## Where they lead -/

theorem spelled_eq (hup : ".." ∉ p.segments) : t.spelled p = t.start p ++ p.plainSegments :=
  foldl_spellStep hup _

theorem start_prefix_spelled (t : FileTree) (hup : ".." ∉ p.segments) :
    t.start p <+: t.spelled p := by
  rw [spelled_eq hup]
  exact List.prefix_append _ _

theorem plainSegments_prefix_of_mem_ancestors (h : a ∈ p.ancestors) :
    a.plainSegments <+: p.plainSegments := by
  rw [plainSegments_eq, plainSegments_eq]
  exact (mem_beginnings_iff.1 (components_mem_beginnings h)).1.filterMap _

theorem up_notMem_of_mem_ancestors (hup : ".." ∉ p.segments) (h : a ∈ p.ancestors) :
    ".." ∉ a.segments := by
  rw [← mem_plainSegments_iff] at hup ⊢
  exact fun hmem => hup ((plainSegments_prefix_of_mem_ancestors h).subset hmem)

theorem spelled_of_mem_ancestors (hup : ".." ∉ p.segments) (h : a ∈ p.ancestors) :
    t.spelled a = t.start p ++ a.plainSegments := by
  rw [spelled_eq (up_notMem_of_mem_ancestors hup h), start_eq (rooted_of_mem_ancestors h)]

/-- **Outermost first, the paths above a path lead to directories one below the other.** -/
theorem pairwise_spelled_ancestors (t : FileTree) (hup : ".." ∉ p.segments) :
    p.ancestors.reverse.Pairwise fun a b => t.spelled a <+: t.spelled b := by
  refine (pairwise_ancestors p).imp_of_mem fun {a b} ha hb h => ?_
  rw [spelled_of_mem_ancestors hup (List.mem_reverse.1 ha),
    spelled_of_mem_ancestors hup (List.mem_reverse.1 hb), List.prefix_append_right_inj,
    plainSegments_eq, plainSegments_eq]
  exact h.1.filterMap _

/-- **The paths above a path lead to all that stands on the way from where it starts.** -/
theorem exists_ancestor_iff (hup : ".." ∉ p.segments) :
    (∃ a ∈ p.ancestors, t.spelled a = l) ↔ t.start p <+: l ∧ l <+: t.spelled p := by
  rw [spelled_eq hup]
  constructor
  · rintro ⟨a, ha, rfl⟩
    rw [spelled_of_mem_ancestors hup ha]
    exact ⟨List.prefix_append _ _,
      (List.prefix_append_right_inj _).2 (plainSegments_prefix_of_mem_ancestors ha)⟩
  · rintro ⟨⟨names, rfl⟩, hnames⟩
    rw [List.prefix_append_right_inj, plainSegments_eq, List.prefix_filterMap_iff] at hnames
    obtain ⟨cs, hcs, rfl⟩ := hnames
    -- a rooted path keeps its root
    obtain ⟨cs', hcs', hnames⟩ : ∃ cs' ∈ p.beginnings,
        cs'.filterMap Component.segment? = cs.filterMap Component.segment? := by
      by_cases hroot : p.rooted = true ∧ cs = []
      · obtain ⟨hrooted, rfl⟩ := hroot
        refine ⟨[.root], mem_beginnings_iff.2 ⟨?_, by simp⟩, rfl⟩
        rw [components_eq, lead, if_pos hrooted]
        exact List.prefix_append _ _
      · exact ⟨cs, mem_beginnings_iff.2 ⟨hcs, fun hrooted hnil => hroot ⟨hrooted, hnil⟩⟩, rfl⟩
    rw [← map_components_ancestors, List.mem_reverse, List.mem_map] at hcs'
    obtain ⟨a, ha, rfl⟩ := hcs'
    refine ⟨a, ha, ?_⟩
    rw [spelled_of_mem_ancestors hup ha, plainSegments_eq, hnames]

/-- Paths above a path that lead to the same place have the same components, unless that place is
where the path starts. -/
theorem same_of_spelled_eq (hup : ".." ∉ p.segments) (ha : a ∈ p.ancestors) (hb : b ∈ p.ancestors)
    (heq : t.spelled a = t.spelled b) (hne : t.spelled a ≠ t.start p) : a.same b = true := by
  rw [spelled_of_mem_ancestors hup ha] at heq hne
  rw [spelled_of_mem_ancestors hup hb, List.append_cancel_left_eq, plainSegments_eq,
    plainSegments_eq] at heq
  rw [plainSegments_eq] at hne
  have hbegin : ∀ {c : Path}, c ∈ p.ancestors → c.components <+: p.components := fun hc =>
    (mem_beginnings_iff.1 (components_mem_beginnings hc)).1
  -- what one path has more than the other are no names, so it would be in front of all names
  have hlonger : ∀ {c d : List Component}, c <+: d → d <+: p.components →
      c.filterMap Component.segment? = d.filterMap Component.segment? →
      t.start p ++ c.filterMap Component.segment? ≠ t.start p → c = d := by
    rintro c d ⟨more, rfl⟩ ⟨back, hback⟩ hnames hstart
    cases more with
    | nil => simp
    | cons x more =>
      exfalso
      rw [List.filterMap_append, List.self_eq_append_right, List.filterMap_eq_nil_iff] at hnames
      have hfront : p.components = c ++ x :: (more ++ back) := by
        rw [← hback]
        simp
      obtain rfl := eq_nil_of_segment?_eq_none hfront (hnames x List.mem_cons_self)
      simp at hstart
  rw [same, beq_iff_eq]
  rcases List.prefix_or_prefix_of_prefix (hbegin ha) (hbegin hb) with hab | hba
  · exact hlonger hab (hbegin hb) heq hne
  · exact (hlonger hba (hbegin ha) heq.symm (heq ▸ hne)).symm

end FileTree
end Restyle
