import Restyle.Proofs.Settings.Places

/-!
# Settings and the spelling of a path

The directories of a search are those that a path spells, so how a path is spelled makes a
difference to what is found.  An absolute path is searched from the root.  A relative one is
searched from the working directory: the settings files above that are not seen.

There is a second difference.  The settings file of the home directory is found first and gives
way to all others, and it is left out where the search comes past it again, but only if the two
paths have the same components.  With an absolute home directory this works for absolute paths
alone; a relative path finds the file a second time, in its place, and there it overrides the
files above it.

Without settings files where this matters (`SpellingFree`), the settings for a path are those for
the same path made absolute.

* `extends_of_absolute?`, `locate_of_absolute?`: what the absolute form of a path is made of, and
  where it leads.
* `home_mem_way_iff`: when the file of the home directory is found again in its place.
* `TwoForms.discovered_eq`: without settings files where the spelling matters, it does not matter.
* `discovered_of_absolute`: **which files count for either form, and when the settings are the
  same**.
-/

namespace Restyle

namespace Path

open FileTree

variable {p q : Path}

/-! ## The absolute form of a path -/

theorem stem_ofNames {names : List String} (h : ∀ s ∈ names, IsPlain s) :
    (ofNames names).stem = names := by
  rcases List.eq_nil_or_concat names with rfl | ⟨front, s, rfl⟩
  · rfl
  · rw [List.concat_eq_append] at h ⊢
    rw [ofNames, ofSegments_of_ne_nil (by simp),
      stem_concat (ne_empty_of_not_isIdle (h s (by simp)).1)]

/-- The slash at the end of a path: an empty segment if there is one. -/
def closing (p : Path) : List String := if p.segments.getLast? == some "" then [""] else []

theorem closing_eq_nil_or (p : Path) :
    p.closing = [] ∨ p.closing = [""] ∧ p.segments.getLast? = some "" := by
  unfold closing
  split_ifs with hlast
  · exact .inr ⟨rfl, by simpa using hlast⟩
  · exact .inl rfl

/-- A path has some names in front, then the segments of another path that count, and may end
with a slash if that path does. -/
def Extends (names : List String) (p q : Path) : Prop :=
  ∃ front back, q.segments = front ++ p.plainSegments ++ back ∧ plain front = names ∧
    (back = [] ∨ back = p.closing)

/-- The absolute form of a rooted path: exactly two slashes in front stay. -/
theorem extends_of_rooted {d : Path} (hrooted : p.rooted = true) (h : p.absolute? d = some q) :
    q.rooted = true ∧ Extends [] p q := by
  unfold absolute? at h
  rw [← closing, ← plainSegments] at h
  simp only [hrooted, if_true] at h
  split_ifs at h with hempty hslashes hnone <;> obtain rfl := Option.some.inj h
  · by_cases hall : p.plainSegments ++ p.closing = []
    · obtain ⟨hnil, -⟩ := List.append_eq_nil_iff.1 hall
      exact ⟨rfl, ["", ""], [], by rw [hall, hnil]; rfl, rfl, .inl rfl⟩
    · exact ⟨rfl, [""], p.closing, by rw [ofSegments_of_ne_nil hall]; rfl, rfl, .inr rfl⟩
  · exact ⟨rfl, [""], [], by rw [List.isEmpty_iff.1 hnone]; rfl, rfl, .inl rfl⟩
  · have hne : p.plainSegments ++ p.closing ≠ [] := fun hall =>
      hnone (List.isEmpty_iff.2 (List.append_eq_nil_iff.1 hall).1)
    rw [ofSegments_of_ne_nil hne]
    exact ⟨rfl, [], p.closing, rfl, rfl, .inr rfl⟩

/-- The absolute form of a relative path stands in the directory. -/
theorem extends_of_relative {names : List String} (hnames : ∀ s ∈ names, IsPlain s)
    (hrelative : p.rooted = false) (h : p.absolute? (ofNames names) = some q) :
    q.rooted = true ∧ Extends names p q := by
  have hroot : (ofNames names).rooted = true := by cases names <;> rfl
  have hplain := plain_of_isPlain hnames
  have hslashes : p.startsWithTwoSlashes = false := by
    rw [startsWithTwoSlashes, hrelative, Bool.false_and]
  unfold absolute? at h
  rw [← closing, ← plainSegments] at h
  simp only [hrelative, hslashes, Bool.false_eq_true, if_false] at h
  split_ifs at h with hempty hnone hclosed <;> obtain rfl := Option.some.inj h
  · -- the directory itself
    refine ⟨hroot, (ofNames names).segments, [], ?_, ?_, .inl rfl⟩
    · rw [List.isEmpty_iff.1 hnone, List.append_nil, List.append_nil]
    · cases names with
      | nil => rfl
      | cons s rest => exact hplain
  · -- the directory with a slash behind it
    have hclosing := (p.closing_eq_nil_or.resolve_left fun hnil =>
      hclosed (List.isEmpty_iff.2 hnil)).1
    rw [join_eq rfl, stem_ofNames hnames]
    refine ⟨hroot, names, p.closing, ?_, hplain, .inr rfl⟩
    rw [List.isEmpty_iff.1 hnone, hclosing, List.append_nil]
    rfl
  · have hne : p.plainSegments ++ p.closing ≠ [] := fun hall =>
      hnone (List.isEmpty_iff.2 (List.append_eq_nil_iff.1 hall).1)
    rw [ofSegments_of_ne_nil hne, join_eq rfl, stem_ofNames hnames]
    exact ⟨hroot, names, p.closing, (List.append_assoc _ _ _).symm, hplain, .inr rfl⟩

/-- **What the absolute form of a path is made of**: the directory if the path is relative, and the
path. -/
theorem extends_of_absolute? {names : List String} (hnames : ∀ s ∈ names, IsPlain s)
    (h : p.absolute? (ofNames names) = some q) :
    q.rooted = true ∧ Extends (if p.rooted then [] else names) p q := by
  cases hrooted : p.rooted with
  | true => exact extends_of_rooted hrooted h
  | false => exact extends_of_relative hnames hrooted h

namespace Extends

variable {names : List String}

theorem plainSegments_eq (h : Extends names p q) :
    q.plainSegments = names ++ p.plainSegments := by
  obtain ⟨front, back, hsegments, hfront, hback⟩ := h
  have hidle : plain back = [] := by
    rcases hback with rfl | rfl
    · rfl
    · rcases p.closing_eq_nil_or with hclosing | ⟨hclosing, -⟩ <;> rw [hclosing] <;> rfl
  have hall : q.plainSegments = plain front ++ plain p.plainSegments ++ plain back := by
    rw [← plain_append, ← plain_append, ← hsegments]
    rfl
  rw [hall, hfront, hidle, List.append_nil, plain, plainSegments, List.filter_filter]
  simp only [Bool.and_self]

/-- A path that ends with a name still does. -/
theorem exists_concat (h : Extends names p q) {front : List String} {s : String}
    (hp : p.segments = front ++ [s]) (hs : IsPlain s) :
    ∃ front', q.segments = front' ++ [s] := by
  obtain ⟨before, back, hsegments, -, hback⟩ := h
  have hnil : p.closing = [] := by
    refine p.closing_eq_nil_or.resolve_right fun hslash => ?_
    have hlast := hslash.2
    rw [hp, List.getLast?_concat, Option.some.injEq] at hlast
    exact ne_empty_of_not_isIdle hs.1 hlast
  obtain rfl : back = [] := hback.elim id (·.trans hnil)
  have hname : p.plainSegments = plain front ++ [s] := by
    rw [plainSegments, hp]
    exact (plain_append front [s]).trans (by rw [plain_cons_of_isPlain hs, plain_nil])
  exact ⟨before ++ plain front, by rw [hsegments, hname, List.append_nil, List.append_assoc]⟩

end Extends

end Path

namespace FileTree

open Restyle.Path

variable {t : FileTree} {p q : Path} {l : Location}

/-- In a tree without links, a path without two dots leads to the location that it spells. -/
theorem spelled_of_locate (hlinks : t.LinkFree) (hp : t.locate true p = .ok l) :
    t.spelled p = l :=
  ((LeadsTo.of_locate hp).eq_spelled hlinks).symm

/-- **The absolute form of a path leads to the same place.** -/
theorem locate_of_absolute? (ht : t.WellFormed) (hlinks : t.LinkFree) (hup : ".." ∉ p.segments)
    (hp : t.locate true p = .ok l)
    (hq : p.absolute? (.ofNames t.workingDirectory) = some q) :
    q.rooted = true ∧ ".." ∉ q.segments ∧ t.locate true q = .ok l := by
  have hworking : ∀ s ∈ t.workingDirectory, IsPlain s := fun s hs =>
    (ht.isName ht.workingDirectory s hs).1
  obtain ⟨hrooted, hextends⟩ := extends_of_absolute? hworking hq
  have hplain := hextends.plainSegments_eq
  have hup' : ".." ∉ q.segments := by
    rw [← mem_plainSegments_iff, hplain, List.mem_append, not_or, mem_plainSegments_iff]
    refine ⟨fun hmem => ?_, hup⟩
    split_ifs at hmem
    · cases hmem
    · exact (hworking _ hmem).2 rfl
  have hl : t.start q ++ plain q.segments = l := by
    rw [← spelled_of_locate hlinks hp, spelled_eq hup, start, if_pos hrooted, start]
    exact (List.nil_append _).trans hplain
  refine ⟨hrooted, hup', ?_⟩
  obtain ⟨e, he, -⟩ := ht.lookup_of_locate hp
  cases e with
  | directory =>
    refine locate_eq_ok_iff.2 ⟨by simp [isEmpty, hrooted], ?_⟩
    rw [← hl] at he ⊢
    exact reaches_of_directory ht hup' he
  | link target => exact absurd he (hlinks l target)
  | file content =>
    -- the path ends with the name of the file, and so does its absolute form
    obtain ⟨front, s, -, hfront, hs, -⟩ := exists_name_of_file ht hp he
    obtain ⟨front', hfront'⟩ := hextends.exists_concat hfront hs
    have hends : t.EndsIn q (t.start q ++ plain front') s := by
      refine ⟨⟨front', hfront', [], front', _, rfl, .here, fun hmem => hup' ?_,
        hlinks.straight _ _, rfl⟩, hs⟩
      rw [hfront']
      exact List.mem_append_left _ hmem
    rw [hfront', plain_append, plain_cons_of_isPlain hs, plain_nil, ← List.append_assoc] at hl
    subst hl
    have hne : t.lookup (t.start q ++ plain front' ++ [s]) ≠ none := by
      rw [he]
      exact Option.some_ne_none _
    rw [locate, hends.resolve_of_directory ht hlinks (ht.directory_of_prefix (by simp) he),
      if_neg hne]

end FileTree

namespace Settings

open FileTree Restyle.Path

variable {t : FileTree} {env : Environment} {d d' p q start : Path} {l home : Location}

/-! ## Where the search starts -/

/-- **The directory in which the search for a path that is there starts**: the path itself, or the
one above it if it leads to a file. -/
theorem startDirectory?_eq (ht : t.WellFormed) (hlinks : t.LinkFree) (hup : ".." ∉ p.segments)
    (hp : t.locate true p = .ok l) :
    ∃ d, startDirectory? t p = some d ∧ ".." ∉ d.segments ∧ d.rooted = p.rooted ∧
      t.spelled d = if t.lookup l = some .directory then l else l.dropLast := by
  obtain ⟨e, he, -⟩ := ht.lookup_of_locate hp
  cases e with
  | directory =>
    have hfile : ¬t.isFile p = true := by
      rw [isFile_iff]
      rintro ⟨l', content, hl', hcontent⟩
      obtain rfl : l = l' := Except.ok.inj (hp.symm.trans hl')
      simp [he] at hcontent
    refine ⟨p, ?_, hup, rfl, ?_⟩
    · rw [startDirectory?, if_neg hfile, if_pos (isDirectory_iff.2 ⟨l, hp, he⟩)]
    · rw [if_pos he, spelled_of_locate hlinks hp]
  | link target => exact absurd he (hlinks l target)
  | file content =>
    obtain ⟨front, s, -, hsegments, hs, -⟩ := exists_name_of_file ht hp he
    obtain ⟨d, hd, htrims⟩ := parent?_of_not_isIdle hsegments hs.1
    have hupfront : ".." ∉ front := fun hmem => hup (by simp [hsegments, hmem])
    refine ⟨d, ?_, ?_, htrims.1, ?_⟩
    · rw [startDirectory?, if_pos (isFile_iff.2 ⟨l, content, hp, he⟩), hd]
    · obtain ⟨-, idles, -, hcut | ⟨hcut, -⟩⟩ := htrims
      · exact fun hmem => hupfront ((congrArg (".." ∈ ·) hcut).mpr (List.mem_append_left _ hmem))
      · simp [hcut]
    · rw [if_neg (by simp [he]), spelled_of_trims htrims, ← spelled_of_locate hlinks hp,
        spelled, spelled, hsegments, List.foldl_append, List.foldl_cons, List.foldl_nil,
        spellStep_of_isPlain hs, List.dropLast_concat]
      rfl

/-! ## The home directory on the way -/

/-- The search for a path comes past the home directory by its own components. -/
def MeetsHome (t : FileTree) (env : Environment) (start : Path) : Prop :=
  ∃ h d, env.homeDirectory? = some h ∧ startDirectory? t start = some d ∧
    ∃ a ∈ d.ancestors, h.same a = true

theorem meetsHome_iff (hd : startDirectory? t start = some d) :
    MeetsHome t env start ↔ ∃ h, env.homeDirectory? = some h ∧ h.components ∈ d.beginnings := by
  rw [← map_components_ancestors]
  simp only [List.mem_reverse, List.mem_map]
  constructor
  · rintro ⟨h, d', hh, hd', a, ha, hsame⟩
    obtain rfl : d = d' := Option.some.inj (hd.symm.trans hd')
    exact ⟨h, hh, a, ha, (beq_iff_eq.1 hsame).symm⟩
  · rintro ⟨h, hh, a, ha, hcomponents⟩
    exact ⟨h, d, hh, hd, a, ha, beq_iff_eq.2 hcomponents.symm⟩

/-- **The file of the home directory is found again in its place** unless the search comes past
that by the components of the home directory. -/
theorem home_mem_way_iff (ht : t.WellFormed) (hlinks : t.LinkFree)
    (hd : startDirectory? t start = some d) (hup : ".." ∉ d.segments)
    (hhome : IsHome t env home) (hfile : HasSettings t home) (hstart : t.start d <+: home)
    (hbelow : home <+: t.spelled d) (hne : home ≠ t.start d) :
    home ∈ (way t env d).map t.spelled ↔ ¬MeetsHome t env start := by
  obtain ⟨h, hh, hlocate⟩ := hhome
  rw [mem_way_iff ht hlinks hup]
  constructor
  · rintro ⟨-, a, ha, rfl, hdifferent⟩ ⟨h', d', hh', hd', b, hb, hsame⟩
    obtain rfl : h = h' := Option.some.inj (hh.symm.trans hh')
    obtain rfl : d = d' := Option.some.inj (hd.symm.trans hd')
    -- the two directories are the same, and so their paths have the same components
    have hupb := up_notMem_of_mem_ancestors hup hb
    have hplace : t.spelled a = t.spelled b := by
      obtain ⟨hrooted, hplain⟩ := plainSegments_of_same hsame
      have huph : ".." ∉ h.segments := by
        rw [← mem_plainSegments_iff, hplain, mem_plainSegments_iff]
        exact hupb
      have hleads := ((endsIn_child hlinks huph).leadsTo hlinks).eq_of_locate hlocate
      rw [List.append_cancel_right hleads, spelled_eq huph, spelled_eq hupb, hplain,
        start_eq hrooted]
    have hab := same_of_spelled_eq hup ha hb hplace hne
    have hsame' : h.same a = true :=
      beq_iff_eq.2 ((beq_iff_eq.1 hsame).trans (beq_iff_eq.1 hab).symm)
    simp [hdifferent h hh] at hsame'
  · intro hmeets
    obtain ⟨a, ha, rfl⟩ := (exists_ancestor_iff hup).2 ⟨hstart, hbelow⟩
    refine ⟨hfile, a, ha, rfl, fun h' hh' => Bool.eq_false_iff.2 fun hsame => hmeets ?_⟩
    exact ⟨h', d, hh', hd, a, ha, hsame⟩

/-! ## When the spelling makes no difference -/

/-- There are no settings files where the spelling of a path makes a difference. -/
structure SpellingFree (t : FileTree) (env : Environment) (p q : Path) : Prop where
  /-- Above the directory where the path starts, only the home directory may have one. -/
  above : ∀ l, l <+: t.start p → l ≠ t.start p → HasSettings t l → IsHome t env l
  /-- If the home directory has one and is below where the path starts, either form of the path
  meets it or neither does, or none is on the way to it. -/
  home : ∀ home, IsHome t env home → HasSettings t home → t.start p <+: home →
    (MeetsHome t env p ↔ MeetsHome t env q) ∨
      ∀ l, t.start p <+: l → l <+: home → l ≠ home → ¬HasSettings t l

/-- Two forms of a path are searched from the same place, the second one as a rooted path. -/
structure TwoForms (t : FileTree) (p q d d' : Path) : Prop where
  /-- The tree stands for a disk. -/
  wellFormed : t.WellFormed
  /-- There is no link in it. -/
  linkFree : t.LinkFree
  /-- Where the search for the first form starts. -/
  start : startDirectory? t p = some d
  /-- Where the search for the second form starts. -/
  start' : startDirectory? t q = some d'
  /-- The first search goes up by the text of its path. -/
  straight : ".." ∉ d.segments
  /-- So does the second one. -/
  straight' : ".." ∉ d'.segments
  /-- The first search goes up to where the first form starts. -/
  up_to : t.start d = t.start p
  /-- The second one goes up to the root. -/
  up_to' : t.start d' = []
  /-- Both start at the same place. -/
  place : t.spelled d' = t.spelled d

namespace TwoForms

variable (h : TwoForms t p q d d') (hfree : SpellingFree t env p q)
include h

/-- What either search comes past is on the way to the place where both start. -/
theorem below_of_mem_way
    (hl : l ∈ (way t env d).map t.spelled ∨ l ∈ (way t env d').map t.spelled) :
    HasSettings t l ∧ l <+: t.spelled d := by
  rcases hl with hl | hl
  · exact (on_way_of_mem h.wellFormed h.linkFree h.straight hl).imp_right And.right
  · exact h.place ▸ (on_way_of_mem h.wellFormed h.linkFree h.straight' hl).imp_right And.right

/-- Where the first form starts is on the way. -/
theorem start_prefix_place : t.start p <+: t.spelled d :=
  h.up_to ▸ start_prefix_spelled t h.straight

section Mixed

variable (hhome : IsHome t env home) (hfile : HasSettings t home)
  (hmixed : ¬(home ∈ (way t env d).map t.spelled ↔ home ∈ (way t env d').map t.spelled))
include hmixed

/-- If only one of the searches finds the file of the home directory again in its place, that is
on the way. -/
theorem home_below_of_mixed : home <+: t.spelled d := by
  by_contra hnot
  exact hmixed (iff_of_false (fun hl => hnot (h.below_of_mem_way (.inl hl)).2)
    fun hl => hnot (h.below_of_mem_way (.inr hl)).2)

include hfree hhome hfile

/-- Then there is no settings file between where the first form starts and the home directory. -/
theorem not_hasSettings_between_of_mixed (hpl : t.start p <+: l) (hl : l <+: home)
    (hne : l ≠ home) : ¬HasSettings t l := by
  have hbelow := h.home_below_of_mixed hmixed
  have hcase : t.start p <+: home := hpl.trans hl
  rcases hfree.home home hhome hfile hcase with hmeets | hnone
  · -- the home directory is below where either form starts, so both meet it or neither does
    have hlength : (t.start p).length < home.length :=
      hpl.length_le.trans_lt (lt_of_le_of_ne hl.length_le fun heq => hne (hl.eq_of_length heq))
    have hstart : home ≠ t.start d := by
      rw [h.up_to]
      rintro rfl
      exact lt_irrefl _ hlength
    have hstart' : home ≠ t.start d' := by
      rw [h.up_to']
      rintro rfl
      exact absurd hlength (Nat.not_lt_zero _)
    refine absurd ?_ hmixed
    rw [home_mem_way_iff h.wellFormed h.linkFree h.start h.straight hhome hfile
      (h.up_to ▸ hcase) hbelow hstart, home_mem_way_iff h.wellFormed h.linkFree h.start'
      h.straight' hhome hfile (h.up_to' ▸ List.nil_prefix) (h.place ▸ hbelow) hstart', hmeets]
  · exact hnone l hpl hl hne

/-- Nor is there any above the home directory. -/
theorem not_hasSettings_above_of_mixed (hl : l <+: home) (hne : l ≠ home) :
    ¬HasSettings t l := by
  have hbetween : t.start p <+: l → ¬HasSettings t l := fun hpl =>
    h.not_hasSettings_between_of_mixed hfree hhome hfile hmixed hpl hl hne
  rcases List.prefix_or_prefix_of_prefix h.start_prefix_place
    (hl.trans (h.home_below_of_mixed hmixed)) with hpl | hlp
  · exact hbetween hpl
  · by_cases heq : l = t.start p
    · exact hbetween (heq ▸ List.prefix_refl _)
    · -- above the place where the path starts, only the home directory may have one
      exact fun hsettings => hne ((hfree.above l hlp heq hsettings).eq hhome)

/-- So the home directory is above all that either search comes past. -/
theorem home_prefix_of_mixed
    (hl : l ∈ (way t env d).map t.spelled ∨ l ∈ (way t env d').map t.spelled) : home <+: l := by
  obtain ⟨hsettings, hbelow⟩ := h.below_of_mem_way hl
  rcases List.prefix_or_prefix_of_prefix (h.home_below_of_mixed hmixed) hbelow with hhl | hlh
  · exact hhl
  · by_cases heq : l = home
    · exact heq ▸ List.prefix_refl _
    · exact absurd hsettings
        (h.not_hasSettings_above_of_mixed hfree hhome hfile hmixed hlh heq)

end Mixed

include hfree

/-- But for the home directory, both searches come past the same settings files. -/
theorem mem_way_iff_mem_way (l : Location) (hhome : ¬(IsHome t env l ∧ HasSettings t l)) :
    l ∈ (way t env d).map t.spelled ↔ l ∈ (way t env d').map t.spelled := by
  rw [mem_way_of_not_isHome h.wellFormed h.linkFree h.straight hhome,
    mem_way_of_not_isHome h.wellFormed h.linkFree h.straight' hhome, h.up_to, h.up_to', h.place]
  refine and_congr_right fun hfile => and_congr_left fun hbelow => ?_
  refine iff_of_true ?_ List.nil_prefix
  rcases List.prefix_or_prefix_of_prefix h.start_prefix_place hbelow with hpl | hlp
  · exact hpl
  · by_cases heq : l = t.start p
    · exact heq ▸ List.prefix_refl _
    · exact absurd ⟨hfree.above l hlp heq hfile, hfile⟩ hhome

/-- **Without settings files where the spelling matters, it does not matter.** -/
theorem discovered_eq : discovered t env p = discovered t env q := by
  obtain ⟨homes, hlength, hhomes, hdiscovered⟩ :=
    discovered_eq_fillFrom h.wellFormed h.linkFree env
  have hways := h.mem_way_iff_mem_way hfree
  have hsorted := pairwise_way t env h.straight
  have hsorted' := pairwise_way t env h.straight'
  rw [hdiscovered p d h.start h.straight, hdiscovered q d' h.start' h.straight']
  rcases homes with _ | ⟨home, _ | ⟨other, more⟩⟩
  · exact fillFrom_congr hsorted hsorted' (fun l => hways l (mt (hhomes l).2 (by simp))) _
  · obtain ⟨hhome, hfile⟩ := (hhomes home).1 List.mem_cons_self
    have hothers : ∀ l, l ≠ home → (l ∈ (way t env d).map t.spelled ↔
        l ∈ (way t env d').map t.spelled) := fun l hl =>
      hways l (mt (hhomes l).2 (by simpa using hl))
    by_cases hboth : home ∈ (way t env d).map t.spelled ↔ home ∈ (way t env d').map t.spelled
    · -- the home directory comes first, and then the same directories
      rw [fillFrom_append, fillFrom_append]
      refine fillFrom_congr hsorted hsorted' (fun l => ?_) _
      by_cases hl : l = home
      · exact hl ▸ hboth
      · exact hothers l hl
    · -- the home directory is above all others, so it may be met again or not
      have hfirst : ∀ l, l ∈ (way t env d).map t.spelled ∨ l ∈ (way t env d').map t.spelled →
          home <+: l := fun l => h.home_prefix_of_mixed hfree hhome hfile hboth
      refine fillFrom_congr (List.pairwise_cons.2 ⟨fun l hl => hfirst l (.inl hl), hsorted⟩)
        (List.pairwise_cons.2 ⟨fun l hl => hfirst l (.inr hl), hsorted'⟩) (fun l => ?_) _
      rw [List.mem_cons, List.mem_cons]
      by_cases hl : l = home
      · simp [hl]
      · rw [hothers l hl]
  · simp at hlength

omit hfree

/-- A rooted path and its absolute form are searched in the same way. -/
theorem spellingFree_of_rooted (hrooted : d.rooted = true) (hrooted' : d'.rooted = true) :
    SpellingFree t env p q := by
  have hplain : d'.plainSegments = d.plainSegments := by
    have hplace := h.place
    rwa [spelled_eq h.straight, spelled_eq h.straight', FileTree.start, FileTree.start,
      if_pos hrooted, if_pos hrooted', List.nil_append, List.nil_append] at hplace
  have hbeginnings : d'.beginnings = d.beginnings := by
    rw [beginnings, beginnings, hrooted, hrooted', components_of_rooted hrooted h.straight,
      components_of_rooted hrooted' h.straight', hplain]
  have hroot : t.start p = [] := by rw [← h.up_to, FileTree.start, if_pos hrooted]
  refine ⟨fun l hl hne _ => ?_, fun home _ _ _ => .inl ?_⟩
  · rw [hroot] at hl hne
    exact absurd (List.prefix_nil.1 hl) hne
  · rw [meetsHome_iff h.start, meetsHome_iff h.start', hbeginnings]

end TwoForms

/-- **The settings for a path and for its absolute form.**  The path is there and has no two
dots, the tree has no links, and the search starts in the directory `dir`.  For the path count the
settings files of the home directory and of the directories from where the path starts, which is
the root or the working directory, down to `dir`.  For the absolute form count those from the root
down, also if the path is relative.  The settings are the same if the path is rooted, or if there
are no settings files where the spelling makes a difference. -/
theorem discovered_of_absolute (ht : t.WellFormed) (hlinks : t.LinkFree) (hup : ".." ∉ p.segments)
    (hp : t.locate true p = .ok l)
    (hq : p.absolute? (.ofNames t.workingDirectory) = some q) (env : Environment) :
    let dir := if t.lookup l = some .directory then l else l.dropLast
    (∀ x, Counts t env p x ↔
        HasSettings t x ∧ (IsHome t env x ∨ t.start p <+: x ∧ x <+: dir)) ∧
      (∀ x, Counts t env q x ↔ HasSettings t x ∧ (IsHome t env x ∨ x <+: dir)) ∧
      (p.rooted = true ∨ SpellingFree t env p q → discovered t env p = discovered t env q) := by
  intro dir
  obtain ⟨hqrooted, hqup, hqlocate⟩ := locate_of_absolute? ht hlinks hup hp hq
  obtain ⟨d, hd, hupd, hrooted, hspelled⟩ := startDirectory?_eq ht hlinks hup hp
  obtain ⟨d', hd', hupd', hrooted', hspelled'⟩ := startDirectory?_eq ht hlinks hqup hqlocate
  have hforms : TwoForms t p q d d' := ⟨ht, hlinks, hd, hd', hupd, hupd', start_eq hrooted,
    by rw [start, if_pos (hrooted'.trans hqrooted)], hspelled'.trans hspelled.symm⟩
  refine ⟨fun x => ?_, fun x => ?_, fun h => ?_⟩
  · rw [counts_iff ht hlinks hd hupd, hspelled, hforms.up_to]
  · rw [counts_iff ht hlinks hd' hupd', hspelled', hforms.up_to', and_iff_right List.nil_prefix]
  · refine hforms.discovered_eq (h.elim (fun hprooted => ?_) id)
    exact hforms.spellingFree_of_rooted (hrooted.trans hprooted) (hrooted'.trans hqrooted)

/-- A disk with a settings file in `/r` and another one in `/r/h`, seen from a directory. -/
def nestedSettings (workingDirectory : Location) : FileTree where
  entries := [(["r"], .directory),
    (["r", fileName], .file "[options]\nindent = 2\n".toUTF8),
    (["r", "h"], .directory),
    (["r", "h", fileName], .file "[options]\nindent = 8\n".toUTF8),
    (["r", "h", "src"], .directory),
    (["r", "h", "src", "a.swift"], .file "f \x7b\na\n\x7d\n".toUTF8)]
  workingDirectory := workingDirectory

theorem linkFree_nestedSettings (workingDirectory : Location) :
    (nestedSettings workingDirectory).LinkFree :=
  linkFree_of_entries (show ∀ e ∈ (nestedSettings []).entries, e.2.isLink = false by decide +kernel)

/-- Seen from `/r/h`, only the settings file of the home directory `/r` is out of sight, and it
counts nevertheless. -/
theorem discovered_of_absolute_nested :
    (nestedSettings ["r", "h"]).WellFormed ∧
    SpellingFree (nestedSettings ["r", "h"]) { home := some "/r" } (.ofText "src/a.swift")
      (.ofText "/r/h/src/a.swift") ∧
    discovered (nestedSettings ["r", "h"]) { home := some "/r" } (.ofText "src/a.swift") =
      discovered (nestedSettings ["r", "h"]) { home := some "/r" }
        (.ofText "/r/h/src/a.swift") := by
  have hwell : (nestedSettings ["r", "h"]).WellFormed := by decide +kernel
  have hhome : IsHome (nestedSettings ["r", "h"]) { home := some "/r" } ["r"] :=
    ⟨.ofText "/r", rfl, by decide +kernel⟩
  have hfree : SpellingFree (nestedSettings ["r", "h"]) { home := some "/r" }
      (.ofText "src/a.swift") (.ofText "/r/h/src/a.swift") := by
    refine ⟨fun l hl hne hsettings => ?_, fun home hhome' _ hbelow => ?_⟩
    · have hbegin : l ∈ [[], ["r"], ["r", "h"]] := (List.mem_inits _ _).2 hl
      simp only [List.mem_cons, List.not_mem_nil, or_false] at hbegin
      rcases hbegin with rfl | rfl | rfl
      · obtain ⟨content, hcontent⟩ := hsettings
        have hnone : (nestedSettings ["r", "h"]).lookup ([] ++ [fileName]) = none := by
          decide +kernel
        rw [hnone] at hcontent
        cases hcontent
      · exact hhome
      · exact absurd rfl hne
    · obtain rfl := hhome.eq hhome'
      exact absurd hbelow (by decide +kernel)
  exact ⟨hwell, hfree, (discovered_of_absolute (p := .ofText "src/a.swift")
    (l := ["r", "h", "src", "a.swift"]) hwell (linkFree_nestedSettings _) (by decide +kernel)
    (by decide +kernel) (by decide +kernel) _).2.2 (.inr hfree)⟩

/-- **A relative path and its absolute form have different settings**: seen from `/r` with `/r/h`
as the home directory, where the file of the home directory overrides the one above it for the
relative path only, and seen from `/r/h/src`, where a relative path finds no settings file at
all. -/
theorem discovered_of_relative :
    ((nestedSettings ["r"]).WellFormed ∧
      (Path.ofText "h/src").absolute? (.ofNames ["r"]) = some (.ofText "/r/h/src") ∧
      (discovered (nestedSettings ["r"]) { home := some "/r/h" }
        (.ofText "h/src")).style.indent = .spaces 8 ∧
      (discovered (nestedSettings ["r"]) { home := some "/r/h" }
        (.ofText "/r/h/src")).style.indent = .spaces 2) ∧
    (nestedSettings ["r", "h", "src"]).WellFormed ∧
      (Path.ofText "a.swift").absolute? (.ofNames ["r", "h", "src"]) =
        some (.ofText "/r/h/src/a.swift") ∧
      (discovered (nestedSettings ["r", "h", "src"]) {} (.ofText "a.swift")).style.indent =
        .spaces 4 ∧
      (discovered (nestedSettings ["r", "h", "src"]) {}
        (.ofText "/r/h/src/a.swift")).style.indent = .spaces 8 := by
  decide +kernel

end Settings
end Restyle
