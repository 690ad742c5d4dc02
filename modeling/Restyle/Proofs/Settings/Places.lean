import Mathlib.Data.List.Dedup
import Restyle.Proofs.Ancestors
import Restyle.Proofs.Settings.Merging

/-!
# The places of settings files

A settings file is found by the path of a directory and the name that all settings files have.
What it says depends only on the location of that directory, so in a tree without links the
settings that are found for a path can be told from locations: from the one of the home
directory, and from those that the search comes past (`discovered_eq_fillFrom`).

The search comes past the directories on the way from where a path starts to where it leads.  It
leaves out those with the components of the home directory, whose file has been found already.
A directory may be met twice, under different paths, and so may the home directory; then only
the last time counts (`fillFrom_dedup`).  As the directories of a search lie one below the other,
it is enough to know which of them are met (`fillFrom_congr`).

* `discover_eq`: the files that are found, without the look back at earlier ones.
* `counts_iff`: which settings files count for a path.
* `fillFrom_congr`: **directories one below the other give the same settings if they are the
  same directories**.
-/

namespace Restyle
namespace Settings

open FileTree Restyle.Path

variable {t : FileTree} {env : Environment} {a b d h p start : Path} {l : Location}

/-! ## Files in directories -/

/-- There is a settings file in the directory at a location. -/
def HasSettings (t : FileTree) (l : Location) : Prop :=
  ∃ content, t.lookup (l ++ [fileName]) = some (.file content)

/-- The path of the home directory leads to the settings file in the directory at a location. -/
def IsHome (t : FileTree) (env : Environment) (l : Location) : Prop :=
  ∃ h, env.homeDirectory? = some h ∧ t.locate true (h.child fileName) = .ok (l ++ [fileName])

/-- The settings file in the directory at a location counts for a path. -/
def Counts (t : FileTree) (env : Environment) (start : Path) (l : Location) : Prop :=
  ∃ f ∈ discover t env start, t.locate true f = .ok (l ++ [fileName])

theorem isPlain_fileName : IsPlain fileName := by decide

theorem IsHome.eq {l l' : Location} (hl : IsHome t env l) (hl' : IsHome t env l') : l = l' := by
  obtain ⟨h, hh, hlocate⟩ := hl
  obtain ⟨h', hh', hlocate'⟩ := hl'
  obtain rfl : h = h' := Option.some.inj (hh.symm.trans hh')
  exact List.append_cancel_right (Except.ok.inj (hlocate.symm.trans hlocate'))

/-- A settings file below a path without two dots stands where the path says. -/
theorem endsIn_child (hlinks : t.LinkFree) (hup : ".." ∉ a.segments) :
    t.EndsIn (a.child fileName) (t.spelled a) fileName := by
  have hstem : ".." ∉ a.stem ∧ plain a.stem = plain a.segments := by
    unfold Path.stem
    split_ifs with hlast
    · obtain ⟨front, hfront⟩ : ∃ front, a.segments = front ++ [""] :=
        List.getLast?_eq_some_iff.1 (by simpa using hlast)
      have hidle : plain [""] = [] := plain_of_idle (by simp [isIdle_empty])
      rw [hfront] at hup ⊢
      rw [List.dropLast_concat, plain_append, hidle, List.append_nil]
      exact ⟨fun hmem => hup (List.mem_append_left _ hmem), rfl⟩
    · exact ⟨hup, rfl⟩
  refine ⟨⟨a.stem, by rw [child_eq], [], a.stem, _, rfl, .here, hstem.1, hlinks.straight _ _, ?_⟩,
    isPlain_fileName⟩
  rw [hstem.2, spelled, foldl_spellStep hup, child_eq]
  rfl

/-- A settings file is found by the path of its directory. -/
theorem locate_child_fileName (ht : t.WellFormed) (hlinks : t.LinkFree)
    (hup : ".." ∉ a.segments) (hfile : HasSettings t (t.spelled a)) :
    t.locate true (a.child fileName) = .ok (t.spelled a ++ [fileName]) := by
  obtain ⟨content, hcontent⟩ := hfile
  have hdir := ht.directory_of_prefix (by simp) hcontent
  rw [locate, (endsIn_child hlinks hup).resolve_of_directory ht hlinks hdir,
    if_neg (by simp [hcontent])]

theorem isFile_of_locate (hlocate : t.locate true p = .ok (l ++ [fileName]))
    (hfile : HasSettings t l) : t.isFile p = true := by
  obtain ⟨content, hcontent⟩ := hfile
  exact isFile_iff.2 ⟨_, content, hlocate, hcontent⟩

theorem isFile_child_iff (ht : t.WellFormed) (hlinks : t.LinkFree) (hup : ".." ∉ a.segments) :
    t.isFile (a.child fileName) = true ↔ HasSettings t (t.spelled a) := by
  constructor
  · intro hfile
    obtain ⟨l, content, hl, hcontent⟩ := isFile_iff.1 hfile
    obtain rfl := ((endsIn_child hlinks hup).leadsTo hlinks).eq_of_locate hl
    exact ⟨content, hcontent⟩
  · exact fun hfile => isFile_of_locate (locate_child_fileName ht hlinks hup hfile) hfile

/-- A settings file that is found stands in a directory under its name. -/
theorem exists_place (ht : t.WellFormed) (hlinks : t.LinkFree)
    (hfile : t.isFile (h.child fileName) = true) :
    ∃ l, t.locate true (h.child fileName) = .ok (l ++ [fileName]) ∧ HasSettings t l := by
  obtain ⟨loc, content, hloc, hcontent⟩ := isFile_iff.1 hfile
  obtain ⟨front, s, above, hsegments, hs, habove, -⟩ := exists_name_of_file ht hloc hcontent
  obtain rfl : fileName = s := by
    rw [child_eq] at hsegments
    exact (List.append_inj' hsegments rfl).2 |> List.singleton_inj.1
  have hends : t.EndsIn (h.child fileName) above fileName :=
    ⟨⟨front, hsegments, .of_reaches habove⟩, hs⟩
  obtain rfl := (hends.leadsTo hlinks).eq_of_locate hloc
  exact ⟨above, hloc, content, hcontent⟩

theorem same_child (a b : Path) : (a.child fileName).same (b.child fileName) = a.same b := by
  have hcomponents : ∀ p : Path, (p.child fileName).components =
      p.components ++ [.name fileName] := fun p =>
    @components_below [fileName] (by simpa using isPlain_fileName) p
  rw [Bool.eq_iff_iff, same, same, beq_iff_eq, beq_iff_eq, hcomponents, hcomponents,
    List.append_left_inj]

/-- A home directory with the components of a path is where that path leads. -/
theorem locate_home_of_same (ht : t.WellFormed) (hlinks : t.LinkFree) (hup : ".." ∉ a.segments)
    (hsame : h.same a = true) (hfile : HasSettings t (t.spelled a)) :
    t.locate true (h.child fileName) = .ok (t.spelled a ++ [fileName]) := by
  obtain ⟨hrooted, hplain⟩ := plainSegments_of_same hsame
  have hup' : ".." ∉ h.segments := by
    rw [← mem_plainSegments_iff, hplain, mem_plainSegments_iff]
    exact hup
  have hspelled : t.spelled h = t.spelled a := by
    rw [spelled_eq hup', spelled_eq hup, hplain, start_eq hrooted]
  rw [← hspelled] at hfile ⊢
  exact locate_child_fileName ht hlinks hup' hfile

/-! ## The files that are found -/

/-- Paths with different components are all distinct; of those that have the components of
earlier ones, none is taken. -/
theorem foldl_distinct {paths kept : List Path}
    (h : paths.Pairwise fun p q => p.same q = false) :
    paths.foldl (fun kept p => if kept.any (·.same p) then kept else p :: kept) kept =
      (paths.filter fun p => !kept.any (·.same p)).reverse ++ kept := by
  induction paths generalizing kept with
  | nil => rfl
  | cons p rest ih =>
    obtain ⟨hp, hrest⟩ := List.pairwise_cons.1 h
    rw [List.foldl_cons]
    cases hany : kept.any (·.same p) with
    | true => rw [if_pos rfl, ih hrest, List.filter_cons_of_neg (by simp [hany])]
    | false =>
      have hfilter : (rest.filter fun q => !(p :: kept).any (·.same q)) =
          rest.filter fun q => !kept.any (·.same q) :=
        List.filter_congr fun q hq => by rw [List.any_cons, hp q hq, Bool.false_or]
      rw [if_neg Bool.false_ne_true, ih hrest, hfilter, List.filter_cons_of_pos (by simp [hany]),
        List.reverse_cons, List.append_assoc]
      rfl

/-- Of paths with different components behind others like that, those with the components of one
of the others are left out. -/
theorem distinct_append {first later : List Path}
    (hfirst : first.Pairwise fun p q => p.same q = false)
    (hlater : later.Pairwise fun p q => p.same q = false) :
    distinct (first ++ later) = first ++ later.filter fun p => !first.any (·.same p) := by
  rw [distinct, List.foldl_append, foldl_distinct hfirst, foldl_distinct hlater]
  simp only [List.any_nil, Bool.not_false, List.filter_true, List.append_nil, List.any_reverse,
    List.reverse_append, List.reverse_reverse]

/-- The settings file of the home directory, if there is one. -/
def homeFiles (t : FileTree) (env : Environment) : List Path :=
  (env.homeDirectory?.toList.map (·.child fileName)).filter t.isFile

/-- The directories with settings files that the search comes past, outermost first, without
those that have the components of the home directory. -/
def way (t : FileTree) (env : Environment) (d : Path) : List Path :=
  d.ancestors.reverse.filter fun a =>
    t.isFile (a.child fileName) && !env.homeDirectory?.any (·.same a)

theorem pairwise_homeFiles (t : FileTree) (env : Environment) :
    (homeFiles t env).Pairwise fun p q => p.same q = false := by
  refine List.Pairwise.filter _ ?_
  cases env.homeDirectory? <;> simp

/-- A file in a directory with the components of the home directory has been found before: it is
the file of the home directory. -/
theorem any_homeFiles (ht : t.WellFormed) (hlinks : t.LinkFree) (hup : ".." ∉ a.segments)
    (hfile : HasSettings t (t.spelled a)) :
    (homeFiles t env).any (·.same (a.child fileName)) = env.homeDirectory?.any (·.same a) := by
  rw [homeFiles]
  cases env.homeDirectory? with
  | none => rfl
  | some h =>
    rw [Option.toList_some, List.map_singleton, Option.any_some]
    cases hthere : t.isFile (h.child fileName) with
    | true =>
      rw [List.filter_cons_of_pos hthere, List.filter_nil, List.any_cons, List.any_nil,
        Bool.or_false, same_child]
    | false =>
      rw [List.filter_cons_of_neg (by simp [hthere]), List.filter_nil, List.any_nil, eq_comm,
        Bool.eq_false_iff]
      intro hsame
      rw [isFile_of_locate (locate_home_of_same ht hlinks hup hsame hfile) hfile] at hthere
      cases hthere

/-- **The files that are found for a path.** -/
theorem discover_eq (ht : t.WellFormed) (hlinks : t.LinkFree)
    (hd : startDirectory? t start = some d) (hup : ".." ∉ d.segments) :
    discover t env start = homeFiles t env ++ (way t env d).map (·.child fileName) := by
  have hpairwise : ((d.ancestors.reverse.map (·.child fileName)).filter t.isFile).Pairwise
      fun p q => p.same q = false := by
    refine (List.pairwise_map.2 ((pairwise_ancestors d).imp fun {a b} h => ?_)).filter _
    rw [same_child, same, beq_eq_false_iff_ne]
    exact h.2
  rw [discover, candidates, hd, Option.map_some, Option.getD_some, List.map_append,
    List.filter_append, ← homeFiles, distinct_append (pairwise_homeFiles t env) hpairwise, way,
    List.filter_filter, List.filter_map]
  refine congrArg (fun dirs : List Path => homeFiles t env ++ dirs.map (·.child fileName))
    (List.filter_congr fun a ha => ?_)
  have hupa := up_notMem_of_mem_ancestors hup (List.mem_reverse.1 ha)
  rw [Function.comp_apply, Bool.and_comm]
  cases hfile : t.isFile (a.child fileName) with
  | false => rfl
  | true => rw [any_homeFiles ht hlinks hupa ((isFile_child_iff ht hlinks hupa).1 hfile)]

theorem mem_way_iff (ht : t.WellFormed) (hlinks : t.LinkFree) (hup : ".." ∉ d.segments) :
    l ∈ (way t env d).map t.spelled ↔ HasSettings t l ∧
      ∃ a ∈ d.ancestors, t.spelled a = l ∧ ∀ h, env.homeDirectory? = some h → h.same a = false := by
  rw [List.mem_map]
  constructor
  · rintro ⟨a, ha, rfl⟩
    obtain ⟨ha, hkeep⟩ := List.mem_filter.1 ha
    rw [List.mem_reverse] at ha
    rw [Bool.and_eq_true, isFile_child_iff ht hlinks (up_notMem_of_mem_ancestors hup ha)] at hkeep
    refine ⟨hkeep.1, a, ha, rfl, fun h hh => ?_⟩
    simpa [hh] using hkeep.2
  · rintro ⟨hfile, a, ha, rfl, hhome⟩
    refine ⟨a, List.mem_filter.2 ⟨List.mem_reverse.2 ha, ?_⟩, rfl⟩
    rw [Bool.and_eq_true, isFile_child_iff ht hlinks (up_notMem_of_mem_ancestors hup ha)]
    refine ⟨hfile, ?_⟩
    cases hh : env.homeDirectory? with
    | none => rfl
    | some h => simp [hhome h hh]

/-- Every settings file on the way is found there, but for that of the home directory. -/
theorem mem_way_of_not_isHome (ht : t.WellFormed) (hlinks : t.LinkFree) (hup : ".." ∉ d.segments)
    (hhome : ¬(IsHome t env l ∧ HasSettings t l)) :
    l ∈ (way t env d).map t.spelled ↔
      HasSettings t l ∧ t.start d <+: l ∧ l <+: t.spelled d := by
  rw [mem_way_iff ht hlinks hup, ← exists_ancestor_iff hup]
  refine and_congr_right fun hfile => exists_congr fun a => and_congr_right fun ha => ?_
  refine and_iff_left_of_imp fun hl h hh => Bool.eq_false_iff.2 fun hsame => hhome ⟨?_, hfile⟩
  subst hl
  exact ⟨h, hh, locate_home_of_same ht hlinks (up_notMem_of_mem_ancestors hup ha) hsame hfile⟩

/-- The search comes past directories on the way from where it starts. -/
theorem on_way_of_mem (ht : t.WellFormed) (hlinks : t.LinkFree) (hup : ".." ∉ d.segments)
    (hl : l ∈ (way t env d).map t.spelled) :
    HasSettings t l ∧ t.start d <+: l ∧ l <+: t.spelled d := by
  obtain ⟨hfile, a, ha, hplace, -⟩ := (mem_way_iff ht hlinks hup).1 hl
  exact ⟨hfile, (exists_ancestor_iff hup).1 ⟨a, ha, hplace⟩⟩

/-- The directories of a search lie one below the other. -/
theorem pairwise_way (t : FileTree) (env : Environment) (hup : ".." ∉ d.segments) :
    ((way t env d).map t.spelled).Pairwise (· <+: ·) :=
  List.pairwise_map.2 ((pairwise_spelled_ancestors t hup).filter _)

theorem mem_homeFiles_iff {f : Path} : f ∈ homeFiles t env ↔
    ∃ h, env.homeDirectory? = some h ∧ f = h.child fileName ∧ t.isFile f = true := by
  simp only [homeFiles, List.mem_filter, List.mem_map, Option.mem_toList, eq_comm (a := f)]
  constructor
  · rintro ⟨⟨h, hh, rfl⟩, hfile⟩
    exact ⟨h, hh, rfl, hfile⟩
  · rintro ⟨h, hh, rfl, hfile⟩
    exact ⟨⟨h, hh, rfl⟩, hfile⟩

/-- The file of the home directory is found where that is. -/
theorem exists_mem_homeFiles_iff (ht : t.WellFormed) (hlinks : t.LinkFree) :
    (∃ f ∈ homeFiles t env, t.locate true f = .ok (l ++ [fileName])) ↔
      IsHome t env l ∧ HasSettings t l := by
  constructor
  · rintro ⟨f, hf, hlocate⟩
    obtain ⟨h, hh, rfl, hfile⟩ := mem_homeFiles_iff.1 hf
    obtain ⟨l', hl', hsettings⟩ := exists_place ht hlinks hfile
    obtain rfl : l' = l := List.append_cancel_right (Except.ok.inj (hl'.symm.trans hlocate))
    exact ⟨⟨h, hh, hlocate⟩, hsettings⟩
  · rintro ⟨⟨h, hh, hlocate⟩, hsettings⟩
    exact ⟨_, mem_homeFiles_iff.2 ⟨h, hh, rfl, isFile_of_locate hlocate hsettings⟩, hlocate⟩

/-- The file of a directory that the search comes past is found where that is. -/
theorem locate_child_of_mem_way (ht : t.WellFormed) (hlinks : t.LinkFree) (hup : ".." ∉ d.segments)
    (ha : a ∈ way t env d) :
    t.locate true (a.child fileName) = .ok (t.spelled a ++ [fileName]) :=
  locate_child_fileName ht hlinks
    (up_notMem_of_mem_ancestors hup (List.mem_reverse.1 (List.mem_filter.1 ha).1))
    (on_way_of_mem ht hlinks hup (List.mem_map_of_mem ha)).1

theorem exists_mem_way_iff (ht : t.WellFormed) (hlinks : t.LinkFree) (hup : ".." ∉ d.segments) :
    (∃ f ∈ (way t env d).map (·.child fileName), t.locate true f = .ok (l ++ [fileName])) ↔
      l ∈ (way t env d).map t.spelled := by
  simp only [List.mem_map, exists_exists_and_eq_and]
  refine exists_congr fun a => and_congr_right fun ha => ?_
  rw [locate_child_of_mem_way ht hlinks hup ha, Except.ok.injEq, List.append_left_inj]

/-- **Which settings files count for a path**: the one of the home directory, and those on the way
from where the path starts to where the search does. -/
theorem counts_iff (ht : t.WellFormed) (hlinks : t.LinkFree)
    (hd : startDirectory? t start = some d) (hup : ".." ∉ d.segments) :
    Counts t env start l ↔
      HasSettings t l ∧ (IsHome t env l ∨ t.start d <+: l ∧ l <+: t.spelled d) := by
  rw [Counts, discover_eq ht hlinks hd hup]
  simp only [List.mem_append, or_and_right, exists_or]
  rw [exists_mem_homeFiles_iff ht hlinks, exists_mem_way_iff ht hlinks hup]
  by_cases hhome : IsHome t env l ∧ HasSettings t l
  · simp [hhome]
  · rw [mem_way_of_not_isHome ht hlinks hup hhome, or_iff_right hhome]
    refine and_congr_right fun hsettings => (or_iff_right fun h => ?_).symm
    exact hhome ⟨h, hsettings⟩

/-! ## The settings at locations -/

/-- What the settings file in the directory at a location says, if there is one and it is
clean. -/
def cleanAt? (t : FileTree) (l : Location) : Option Changes :=
  match t.lookup (l ++ [fileName]) with
  | some (.file content) =>
    (String.fromUTF8? content).bind fun text => (Changes.read? text).filter Changes.fits
  | _ => none

theorem clean?_eq_cleanAt? (hlocate : t.locate true p = .ok (l ++ [fileName])) :
    clean? t p = cleanAt? t l := by
  rw [clean?, readText_eq, entryAt, hlocate, cleanAt?]
  dsimp only
  generalize t.lookup (l ++ [fileName]) = entry
  rcases entry with _ | content | _ | target
  · rfl
  · dsimp only
    generalize String.fromUTF8? content = text
    cases text <;> rfl
  · rfl
  · rfl

theorem sound_of_cleanAt? {c : Changes} (hc : cleanAt? t l = some c) :
    (c.options.map Prod.fst).Nodup ∧ c.fits = true := by
  unfold cleanAt? at hc
  split at hc
  · obtain ⟨text, -, hread⟩ := Option.bind_eq_some_iff.1 hc
    obtain ⟨hread, hfits⟩ := Option.filter_eq_some_iff.1 hread
    exact ⟨nodup_options hread, hfits⟩
  · cases hc

/-- The settings after the clean ones of the settings files at locations. -/
def fillFrom (t : FileTree) (s : Settings) (places : List Location) : Settings :=
  s.fillAll (places.filterMap (cleanAt? t))

theorem fillFrom_append (t : FileTree) (s : Settings) (places places' : List Location) :
    fillFrom t s (places ++ places') = fillFrom t (fillFrom t s places) places' := by
  rw [fillFrom, fillFrom, fillFrom, List.filterMap_append, fillAll, List.foldl_append]
  rfl

theorem fillFrom_cons (t : FileTree) (s : Settings) (l : Location) (places : List Location) :
    fillFrom t s (l :: places) = fillFrom t (fillFrom t s [l]) places :=
  fillFrom_append t s [l] places

/-- **A file that comes again later need not be applied before.** -/
theorem fillFrom_cons_of_mem {places : List Location} (hl : l ∈ places) (s : Settings) :
    fillFrom t s (l :: places) = fillFrom t s places := by
  rw [fillFrom, fillFrom]
  cases hc : cleanAt? t l with
  | none => rw [List.filterMap_cons_none hc]
  | some c =>
    rw [List.filterMap_cons_some hc]
    refine fillAll_cons_of_mem (List.mem_filterMap.2 ⟨l, hl, hc⟩) (fun c' hc' => ?_) s
    obtain ⟨l', -, hl'⟩ := List.mem_filterMap.1 hc'
    exact sound_of_cleanAt? hl'

theorem fillFrom_dedup (t : FileTree) (s : Settings) (places : List Location) :
    fillFrom t s places.dedup = fillFrom t s places := by
  induction places generalizing s with
  | nil => rfl
  | cons l places ih =>
    by_cases hl : l ∈ places
    · rw [List.dedup_cons_of_mem hl, ih, fillFrom_cons_of_mem hl]
    · rw [List.dedup_cons_of_notMem hl, fillFrom_cons, ih, ← fillFrom_cons]

/-- **Directories one below the other give the same settings if they are the same
directories**, however often each of them is met. -/
theorem fillFrom_congr {places places' : List Location} (hplaces : places.Pairwise (· <+: ·))
    (hplaces' : places'.Pairwise (· <+: ·)) (hmem : ∀ l, l ∈ places ↔ l ∈ places')
    (s : Settings) : fillFrom t s places = fillFrom t s places' := by
  have hperm : places.dedup.Perm places'.dedup := by
    rw [List.perm_ext_iff_of_nodup (List.nodup_dedup _) (List.nodup_dedup _)]
    simpa using hmem
  have hdedup : places.dedup = places'.dedup :=
    hperm.eq_of_pairwise (fun a b _ _ hab hba => hab.eq_of_length_le hba.length_le)
      (hplaces.sublist (List.dedup_sublist _)) (hplaces'.sublist (List.dedup_sublist _))
  rw [← fillFrom_dedup, hdedup, fillFrom_dedup]

/-- The file of the home directory counts by where that is. -/
theorem exists_fillFrom_eq_homeFiles (ht : t.WellFormed) (hlinks : t.LinkFree)
    (env : Environment) : ∃ homes : List Location, homes.length ≤ 1 ∧
      (∀ l, l ∈ homes ↔ IsHome t env l ∧ HasSettings t l) ∧
      fillAll {} ((homeFiles t env).filterMap (clean? t)) = fillFrom t {} homes := by
  by_cases hhome : ∃ l, IsHome t env l ∧ HasSettings t l
  · obtain ⟨l, ⟨h, hh, hlocate⟩, hsettings⟩ := hhome
    have hfiles : homeFiles t env = [h.child fileName] := by
      rw [homeFiles, hh, Option.toList_some, List.map_singleton,
        List.filter_cons_of_pos (isFile_of_locate hlocate hsettings), List.filter_nil]
    refine ⟨[l], le_rfl, fun l' => ?_, ?_⟩
    · rw [List.mem_singleton]
      constructor
      · rintro rfl
        exact ⟨⟨h, hh, hlocate⟩, hsettings⟩
      · exact fun hl' => hl'.1.eq ⟨h, hh, hlocate⟩
    · simp only [hfiles, fillFrom, List.filterMap_cons, List.filterMap_nil,
        clean?_eq_cleanAt? hlocate]
  · have hfiles : homeFiles t env = [] := by
      refine List.eq_nil_iff_forall_not_mem.2 fun f hf => hhome ?_
      obtain ⟨h, hh, rfl, hfile⟩ := mem_homeFiles_iff.1 hf
      obtain ⟨l, hlocate, hsettings⟩ := exists_place ht hlinks hfile
      exact ⟨l, ⟨h, hh, hlocate⟩, hsettings⟩
    refine ⟨[], Nat.zero_le _, fun l => iff_of_false (by simp) fun hl => hhome ⟨l, hl⟩, ?_⟩
    rw [hfiles]
    rfl

/-- **The settings that are found for a path**, told from locations. -/
theorem discovered_eq_fillFrom (ht : t.WellFormed) (hlinks : t.LinkFree) (env : Environment) :
    ∃ homes : List Location, homes.length ≤ 1 ∧
      (∀ l, l ∈ homes ↔ IsHome t env l ∧ HasSettings t l) ∧
      ∀ start d, startDirectory? t start = some d → ".." ∉ d.segments →
        discovered t env start = fillFrom t {} (homes ++ (way t env d).map t.spelled) := by
  obtain ⟨homes, hlength, hmem, hhomes⟩ := exists_fillFrom_eq_homeFiles ht hlinks env
  refine ⟨homes, hlength, hmem, fun start d hd hup => ?_⟩
  rw [discovered, applyFiles_eq_foldl_tryFile, foldl_tryFile, discover_eq ht hlinks hd hup,
    fillFrom_append, ← hhomes, List.filterMap_append, List.filterMap_map, fillFrom,
    List.filterMap_map, fillAll, fillAll, fillAll, List.foldl_append]
  refine congrArg _ (List.filterMap_congr fun a ha => ?_)
  exact clean?_eq_cleanAt? (locate_child_of_mem_way ht hlinks hup ha)

end Settings
end Restyle
