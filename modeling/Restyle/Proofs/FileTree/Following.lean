import Restyle.Proofs.FileTree.Shape

/-!
# Where a path leads

Following a path goes from location to location, and jumps where there is a link.
`follow_induction` is the induction over these steps.

* `follow_shape`: where a path leads depends on the shape of the tree only.
* `Reaches`: segments lead to an entry, as a relation; `Reaches.grows` says that they
  still do in every tree that keeps what there is, and `Reaches.append` that a path can
  be followed in two stages.
* `follow_vacant`: where nothing stands yet, an entry that is put there is found.
-/

namespace Restyle
namespace FileTree

variable {t u : FileTree} {followLast : Bool} {links : Nat} {loc l : Location}
  {segment : String} {rest segments : List String} {e : Entry}

/-! ## The steps -/

/-- Where a link leads to from its directory: to the root, or to the directory. -/
def linkBase (loc : Location) (target : String) : Location :=
  if (Path.ofText target).rooted then [] else loc

@[simp] theorem follow_nil : t.follow followLast links loc [] = .ok (.taken loc) := by
  cases links <;> rfl

theorem follow_cons : t.follow followLast links loc (segment :: rest) =
    if t.lookup loc != some .directory then .error .notDirectory
    else if Path.isIdle segment then t.follow followLast links loc rest
    else if segment == ".." then t.follow followLast links loc.dropLast rest
    else
      match t.lookup (loc ++ [segment]) with
      | none =>
        if rest.isEmpty then .ok (.vacant (loc ++ [segment]))
        else if rest.all (· == "") then .ok (.reserved (loc ++ [segment]))
        else .error .notFound
      | some (.link target) =>
        if rest.isEmpty && !followLast then .ok (.taken (loc ++ [segment]))
        else match links with
          | 0 => .error .tooManyLinks
          | links + 1 =>
            t.follow followLast links (linkBase loc target) ((Path.ofText target).segments ++ rest)
      | some _ => t.follow followLast links (loc ++ [segment]) rest := by
  cases links <;> rfl

theorem follow_stuck (h : t.lookup loc ≠ some .directory) :
    t.follow followLast links loc (segment :: rest) = .error .notDirectory := by
  rw [follow_cons, if_pos (by simpa using h)]

theorem follow_idle (hdir : t.lookup loc = some .directory) (hidle : Path.isIdle segment = true) :
    t.follow followLast links loc (segment :: rest) = t.follow followLast links loc rest := by
  rw [follow_cons, if_neg (by simp [hdir]), if_pos hidle]

theorem follow_up (hdir : t.lookup loc = some .directory) :
    t.follow followLast links loc (".." :: rest) = t.follow followLast links loc.dropLast rest := by
  rw [follow_cons, if_neg (by simp [hdir]), if_neg (by decide), if_pos (by decide)]

theorem follow_name (hdir : t.lookup loc = some .directory) (hplain : Path.IsPlain segment) :
    t.follow followLast links loc (segment :: rest) =
      match t.lookup (loc ++ [segment]) with
      | none =>
        if rest.isEmpty then .ok (.vacant (loc ++ [segment]))
        else if rest.all (· == "") then .ok (.reserved (loc ++ [segment]))
        else .error .notFound
      | some (.link target) =>
        if rest.isEmpty && !followLast then .ok (.taken (loc ++ [segment]))
        else match links with
          | 0 => .error .tooManyLinks
          | links + 1 =>
            t.follow followLast links (linkBase loc target) ((Path.ofText target).segments ++ rest)
      | some _ => t.follow followLast links (loc ++ [segment]) rest := by
  rw [follow_cons, if_neg (by simp [hdir]), if_neg (by simp [hplain.1]),
    if_neg (by simp [hplain.2])]

theorem follow_entry (hdir : t.lookup loc = some .directory) (hplain : Path.IsPlain segment)
    (he : t.lookup (loc ++ [segment]) = some e) (hlink : e.isLink = false) :
    t.follow followLast links loc (segment :: rest) =
      t.follow followLast links (loc ++ [segment]) rest := by
  rw [follow_name hdir hplain, he]
  cases e with
  | link target => simp [Entry.isLink] at hlink
  | file content => rfl
  | directory => rfl

theorem follow_missing (hdir : t.lookup loc = some .directory) (hplain : Path.IsPlain segment)
    (hnone : t.lookup (loc ++ [segment]) = none) :
    t.follow followLast links loc (segment :: rest) =
      if rest.isEmpty then .ok (.vacant (loc ++ [segment]))
      else if rest.all (· == "") then .ok (.reserved (loc ++ [segment]))
      else .error .notFound := by
  rw [follow_name hdir hplain, hnone]

/-- Behind a name that nothing has yet there can be idle segments, and nothing at all where a
file can be made. -/
theorem follow_missing_eq_ok {spot : Spot} (hdir : t.lookup loc = some .directory)
    (hplain : Path.IsPlain segment) (hnone : t.lookup (loc ++ [segment]) = none)
    (h : t.follow followLast links loc (segment :: rest) = .ok spot) :
    spot.loc = loc ++ [segment] ∧ (∀ s ∈ rest, Path.isIdle s = true) ∧
      ((∃ l, spot = .vacant l) → rest = []) := by
  rw [follow_missing hdir hplain hnone] at h
  split_ifs at h with hempty hslashes
  · obtain rfl := Except.ok.inj h
    obtain rfl := List.isEmpty_iff.1 hempty
    exact ⟨rfl, by simp, fun _ => rfl⟩
  · obtain rfl := Except.ok.inj h
    refine ⟨rfl, fun s hs => ?_, by simp⟩
    rw [show s = "" by simpa using List.all_eq_true.1 hslashes s hs]
    rfl

theorem follow_link {target : String} (hdir : t.lookup loc = some .directory)
    (hplain : Path.IsPlain segment) (hlink : t.lookup (loc ++ [segment]) = some (.link target)) :
    t.follow followLast links loc (segment :: rest) =
      if rest.isEmpty && !followLast then .ok (.taken (loc ++ [segment]))
      else match links with
        | 0 => .error .tooManyLinks
        | links + 1 =>
          t.follow followLast links (linkBase loc target)
            ((Path.ofText target).segments ++ rest) := by
  rw [follow_name hdir hplain, hlink]

/-- **Induction along a path.**  A step stays where it is, goes up, goes down to an
entry, stops where there is nothing, or jumps with one link less. -/
theorem follow_induction (t : FileTree) {motive : Nat → Location → List String → Prop}
    (nil : ∀ links loc, motive links loc [])
    (stuck : ∀ links loc segment rest, t.lookup loc ≠ some .directory →
      motive links loc (segment :: rest))
    (idle : ∀ links loc segment rest, t.lookup loc = some .directory →
      Path.isIdle segment = true → motive links loc rest → motive links loc (segment :: rest))
    (up : ∀ links loc rest, t.lookup loc = some .directory → motive links loc.dropLast rest →
      motive links loc (".." :: rest))
    (missing : ∀ links loc segment rest, t.lookup loc = some .directory →
      Path.IsPlain segment → t.lookup (loc ++ [segment]) = none →
      motive links loc (segment :: rest))
    (link : ∀ links loc segment rest target, t.lookup loc = some .directory →
      Path.IsPlain segment → t.lookup (loc ++ [segment]) = some (.link target) →
      (∀ fewer, links = fewer + 1 →
        motive fewer (linkBase loc target) ((Path.ofText target).segments ++ rest)) →
      motive links loc (segment :: rest))
    (entry : ∀ links loc segment rest e, t.lookup loc = some .directory →
      Path.IsPlain segment → t.lookup (loc ++ [segment]) = some e → e.isLink = false →
      motive links (loc ++ [segment]) rest → motive links loc (segment :: rest))
    (links : Nat) (loc : Location) (segments : List String) : motive links loc segments := by
  -- the links that are left go down at a jump; between two jumps the segments do
  have hinner : ∀ links, (∀ fewer, links = fewer + 1 → ∀ loc segments, motive fewer loc segments) →
      ∀ segments loc, motive links loc segments := by
    intro links hfewer segments
    induction segments with
    | nil => exact nil links
    | cons segment rest ih =>
      intro loc
      by_cases hdir : t.lookup loc = some .directory
      · by_cases hidle : Path.isIdle segment = true
        · exact idle links loc segment rest hdir hidle (ih loc)
        · by_cases hup : segment = ".."
          · subst hup
            exact up links loc rest hdir (ih loc.dropLast)
          · have hplain : Path.IsPlain segment := ⟨by simpa using hidle, hup⟩
            cases he : t.lookup (loc ++ [segment]) with
            | none => exact missing links loc segment rest hdir hplain he
            | some e =>
              cases e with
              | link target =>
                exact link links loc segment rest target hdir hplain he
                  fun fewer hlinks => hfewer fewer hlinks _ _
              | file content =>
                exact entry links loc segment rest _ hdir hplain he rfl (ih _)
              | directory =>
                exact entry links loc segment rest _ hdir hplain he rfl (ih _)
      · exact stuck links loc segment rest hdir
  induction links generalizing loc segments with
  | zero => exact hinner 0 (fun fewer h => absurd h (by omega)) segments loc
  | succ links ih =>
    refine hinner (links + 1) (fun fewer h => ?_) segments loc
    obtain rfl : links = fewer := by omega
    exact ih

/-- **Where a path leads depends on the shape of the tree only.** -/
theorem follow_shape (h : ∀ loc, (u.lookup loc).map Entry.shape = (t.lookup loc).map Entry.shape) :
    u.follow followLast links loc segments = t.follow followLast links loc segments := by
  have hdirectory : ∀ loc, u.lookup loc = some .directory ↔ t.lookup loc = some .directory := by
    intro loc
    rw [← map_shape_eq_directory, h loc, map_shape_eq_directory]
  induction links, loc, segments using t.follow_induction with
  | nil links loc => simp
  | stuck links loc segment rest hdir =>
    rw [follow_stuck hdir, follow_stuck (mt (hdirectory loc).1 hdir)]
  | idle links loc segment rest hdir hidle ih =>
    rw [follow_idle hdir hidle, follow_idle ((hdirectory loc).2 hdir) hidle, ih]
  | up links loc rest hdir ih =>
    rw [follow_up hdir, follow_up ((hdirectory loc).2 hdir), ih]
  | missing links loc segment rest hdir hplain hnone =>
    have hnone' : u.lookup (loc ++ [segment]) = none := by
      simpa [hnone] using h (loc ++ [segment])
    rw [follow_missing hdir hplain hnone,
      follow_missing ((hdirectory loc).2 hdir) hplain hnone']
  | link links loc segment rest target hdir hplain hlink ih =>
    have hlink' : u.lookup (loc ++ [segment]) = some (.link target) := by
      simpa [hlink] using h (loc ++ [segment])
    rw [follow_link hdir hplain hlink, follow_link ((hdirectory loc).2 hdir) hplain hlink']
    cases links with
    | zero => rfl
    | succ links => simp only [ih links rfl]
  | entry links loc segment rest e hdir hplain he hnot ih =>
    have hshape := h (loc ++ [segment])
    rw [he, Option.map_some, Option.map_eq_some_iff] at hshape
    obtain ⟨e', he', hshape⟩ := hshape
    rw [follow_entry hdir hplain he hnot, follow_entry ((hdirectory loc).2 hdir) hplain he'
      ((Entry.isLink_eq_of_shape hshape).trans hnot), ih]

/-! ## Paths that lead to an entry -/

/-- Segments lead from a location to another, through at most so many links. -/
inductive Reaches (t : FileTree) (followLast : Bool) :
    Nat → Location → List String → Location → Prop
  /-- There is nothing to follow. -/
  | here {links : Nat} {loc : Location} : Reaches t followLast links loc [] loc
  /-- An idle segment. -/
  | idle {links : Nat} {loc l : Location} {segment : String} {rest : List String}
      (hdir : t.lookup loc = some .directory) (hidle : Path.isIdle segment = true)
      (h : Reaches t followLast links loc rest l) :
      Reaches t followLast links loc (segment :: rest) l
  /-- Up to the directory above. -/
  | up {links : Nat} {loc l : Location} {rest : List String}
      (hdir : t.lookup loc = some .directory)
      (h : Reaches t followLast links loc.dropLast rest l) :
      Reaches t followLast links loc (".." :: rest) l
  /-- Down to an entry. -/
  | entry {links : Nat} {loc l : Location} {segment : String} {rest : List String} {e : Entry}
      (hdir : t.lookup loc = some .directory) (hplain : Path.IsPlain segment)
      (he : t.lookup (loc ++ [segment]) = some e) (hnot : e.isLink = false)
      (h : Reaches t followLast links (loc ++ [segment]) rest l) :
      Reaches t followLast links loc (segment :: rest) l
  /-- To a link at the end that is not followed. -/
  | stop {links : Nat} {loc : Location} {segment target : String}
      (hdir : t.lookup loc = some .directory) (hplain : Path.IsPlain segment)
      (hlink : t.lookup (loc ++ [segment]) = some (.link target)) (hlast : followLast = false) :
      Reaches t followLast links loc [segment] (loc ++ [segment])
  /-- Through a link. -/
  | jump {links : Nat} {loc l : Location} {segment target : String} {rest : List String}
      (hdir : t.lookup loc = some .directory) (hplain : Path.IsPlain segment)
      (hlink : t.lookup (loc ++ [segment]) = some (.link target))
      (hlast : rest ≠ [] ∨ followLast = true)
      (h : Reaches t followLast links (linkBase loc target)
        ((Path.ofText target).segments ++ rest) l) :
      Reaches t followLast (links + 1) loc (segment :: rest) l

theorem follow_eq_taken_iff :
    t.follow followLast links loc segments = .ok (.taken l) ↔
      t.Reaches followLast links loc segments l := by
  constructor
  · intro hl
    induction links, loc, segments using t.follow_induction with
    | nil links loc =>
      obtain rfl : loc = l := by simpa using hl
      exact .here
    | stuck links loc segment rest hdir => simp [follow_stuck hdir] at hl
    | idle links loc segment rest hdir hidle ih =>
      rw [follow_idle hdir hidle] at hl
      exact .idle hdir hidle (ih hl)
    | up links loc rest hdir ih =>
      rw [follow_up hdir] at hl
      exact .up hdir (ih hl)
    | missing links loc segment rest hdir hplain hnone =>
      rw [follow_missing hdir hplain hnone] at hl
      split_ifs at hl <;> simp at hl
    | link links loc segment rest target hdir hplain hlink ih =>
      rw [follow_link hdir hplain hlink] at hl
      split_ifs at hl with hlast
      · obtain rfl : loc ++ [segment] = l := by simpa using hl
        rw [Bool.and_eq_true, List.isEmpty_iff, Bool.not_eq_true'] at hlast
        rw [hlast.1]
        exact .stop hdir hplain hlink hlast.2
      · cases links with
        | zero => simp at hl
        | succ links =>
          refine .jump hdir hplain hlink ?_ (ih links rfl hl)
          simpa [imp_iff_not_or] using hlast
    | entry links loc segment rest e hdir hplain he hnot ih =>
      rw [follow_entry hdir hplain he hnot] at hl
      exact .entry hdir hplain he hnot (ih hl)
  · intro hl
    induction hl with
    | here => exact follow_nil
    | idle hdir hidle _ ih => rw [follow_idle hdir hidle, ih]
    | up hdir _ ih => rw [follow_up hdir, ih]
    | entry hdir hplain he hnot _ ih => rw [follow_entry hdir hplain he hnot, ih]
    | stop hdir hplain hlink hlast => rw [follow_link hdir hplain hlink, if_pos (by simp [hlast])]
    | jump hdir hplain hlink hlast _ ih =>
      rw [follow_link hdir hplain hlink, if_neg (by simpa [imp_iff_not_or] using hlast)]
      exact ih

namespace Reaches

/-- **What a path leads to, it leads to in every tree that keeps what there is.** -/
theorem grows (h : t.Reaches followLast links loc segments l) (hu : Grows t u) :
    u.Reaches followLast links loc segments l := by
  induction h with
  | here => exact .here
  | idle hdir hidle _ ih => exact .idle (hu.directory hdir) hidle ih
  | up hdir _ ih => exact .up (hu.directory hdir) ih
  | entry hdir hplain he hnot _ ih =>
    obtain ⟨e', he', hshape⟩ := Option.map_eq_some_iff.1 (hu.lookup he)
    exact .entry (hu.directory hdir) hplain he' ((Entry.isLink_eq_of_shape hshape).trans hnot) ih
  | stop hdir hplain hlink hlast => exact .stop (hu.directory hdir) hplain (hu.link hlink) hlast
  | jump hdir hplain hlink hlast _ ih =>
    exact .jump (hu.directory hdir) hplain (hu.link hlink) hlast ih

/-- **A path can be followed in two stages**, if there is something to follow in the
second one. -/
theorem append (h : t.Reaches true links loc segments l) :
    ∃ left, ∀ {followLast : Bool} {rest : List String}, rest ≠ [] →
      t.follow followLast links loc (segments ++ rest) = t.follow followLast left l rest := by
  induction h with
  | here => exact ⟨_, fun _ => rfl⟩
  | idle hdir hidle _ ih =>
    obtain ⟨left, hleft⟩ := ih
    refine ⟨left, fun hrest => ?_⟩
    rw [List.cons_append, follow_idle hdir hidle, hleft hrest]
  | up hdir _ ih =>
    obtain ⟨left, hleft⟩ := ih
    refine ⟨left, fun hrest => ?_⟩
    rw [List.cons_append, follow_up hdir, hleft hrest]
  | entry hdir hplain he hnot _ ih =>
    obtain ⟨left, hleft⟩ := ih
    refine ⟨left, fun hrest => ?_⟩
    rw [List.cons_append, follow_entry hdir hplain he hnot, hleft hrest]
  | stop _ _ _ hlast => exact absurd hlast (by simp)
  | jump hdir hplain hlink _ _ ih =>
    obtain ⟨left, hleft⟩ := ih
    refine ⟨left, fun hrest => ?_⟩
    rw [List.cons_append, follow_link hdir hplain hlink, if_neg (by simp [hrest])]
    simp only
    rw [← List.append_assoc, hleft hrest]

/-- What leads to an entry in two stages leads to a directory in the first. -/
theorem of_append (h : t.Reaches followLast links loc (segments ++ rest) l) (hrest : rest ≠ []) :
    ∃ l', t.Reaches true links loc segments l' ∧ t.lookup l' = some .directory := by
  generalize hall : segments ++ rest = all at h
  induction h generalizing segments with
  | here => simp [hrest] at hall
  | @idle links loc l segment more hdir hidle _ ih =>
    cases segments with
    | nil => exact ⟨_, .here, hdir⟩
    | cons s segments =>
      obtain ⟨rfl, hmore⟩ := List.cons.inj hall
      obtain ⟨l', hl', hthere⟩ := ih hmore
      exact ⟨l', .idle hdir hidle hl', hthere⟩
  | up hdir _ ih =>
    cases segments with
    | nil => exact ⟨_, .here, hdir⟩
    | cons s segments =>
      obtain ⟨rfl, hmore⟩ := List.cons.inj hall
      obtain ⟨l', hl', hthere⟩ := ih hmore
      exact ⟨l', .up hdir hl', hthere⟩
  | entry hdir hplain he hnot _ ih =>
    cases segments with
    | nil => exact ⟨_, .here, hdir⟩
    | cons s segments =>
      obtain ⟨rfl, hmore⟩ := List.cons.inj hall
      obtain ⟨l', hl', hthere⟩ := ih hmore
      exact ⟨l', .entry hdir hplain he hnot hl', hthere⟩
  | stop hdir =>
    cases segments with
    | nil => exact ⟨_, .here, hdir⟩
    | cons s segments => simp [hrest] at hall
  | jump hdir hplain hlink _ _ ih =>
    cases segments with
    | nil => exact ⟨_, .here, hdir⟩
    | cons s segments =>
      rw [List.cons_append] at hall
      obtain ⟨rfl, rfl⟩ := List.cons.inj hall
      obtain ⟨l', hl', hthere⟩ := ih (List.append_assoc _ segments rest)
      exact ⟨l', .jump hdir hplain hlink (.inr rfl) hl', hthere⟩

/-- What is no link is found whether a link at the end is followed or not. -/
theorem of_not_link (h : t.Reaches false links loc segments l)
    (hnot : ∀ target, t.lookup l ≠ some (.link target)) :
    t.Reaches true links loc segments l := by
  induction h with
  | here => exact .here
  | idle hdir hidle _ ih => exact .idle hdir hidle (ih hnot)
  | up hdir _ ih => exact .up hdir (ih hnot)
  | entry hdir hplain he hnot' _ ih => exact .entry hdir hplain he hnot' (ih hnot)
  | stop _ _ hlink _ => exact absurd hlink (hnot _)
  | jump hdir hplain hlink _ _ ih => exact .jump hdir hplain hlink (.inr rfl) (ih hnot)

/-- What is found through a link at the end is found without following it. -/
theorem without_last (h : t.Reaches true links loc segments l) :
    ∃ l', t.Reaches false links loc segments l' := by
  induction h with
  | here => exact ⟨_, .here⟩
  | idle hdir hidle _ ih =>
    obtain ⟨l', hl'⟩ := ih
    exact ⟨l', .idle hdir hidle hl'⟩
  | up hdir _ ih =>
    obtain ⟨l', hl'⟩ := ih
    exact ⟨l', .up hdir hl'⟩
  | entry hdir hplain he hnot _ ih =>
    obtain ⟨l', hl'⟩ := ih
    exact ⟨l', .entry hdir hplain he hnot hl'⟩
  | stop _ _ _ hlast => exact absurd hlast (by simp)
  | @jump links loc l segment target rest hdir hplain hlink _ _ ih =>
    by_cases hrest : rest = []
    · rw [hrest]
      exact ⟨_, .stop hdir hplain hlink rfl⟩
    · obtain ⟨l', hl'⟩ := ih
      exact ⟨l', .jump hdir hplain hlink (.inl hrest) hl'⟩

/-- From a directory idle segments lead to itself. -/
theorem of_idle {idles : List String} (hidles : ∀ s ∈ idles, Path.isIdle s = true)
    (hdir : t.lookup loc = some .directory) : t.Reaches followLast links loc idles loc := by
  induction idles with
  | nil => exact .here
  | cons s idles ih =>
    exact .idle hdir (hidles s List.mem_cons_self)
      (ih fun x hx => hidles x (List.mem_cons_of_mem _ hx))

/-- They can be followed from nothing else, and lead nowhere else. -/
theorem eq_of_idle {idles : List String} (hidles : ∀ s ∈ idles, Path.isIdle s = true)
    (hne : idles ≠ []) (h : t.Reaches true links loc idles l) :
    l = loc ∧ t.lookup loc = some .directory := by
  induction idles with
  | nil => exact absurd rfl hne
  | cons s idles ih =>
    have hs := hidles s List.mem_cons_self
    cases h with
    | idle hdir _ hrest =>
      cases idles with
      | nil =>
        cases hrest
        exact ⟨rfl, hdir⟩
      | cons s' idles =>
        exact ih (fun x hx => hidles x (List.mem_cons_of_mem _ hx)) (by simp) hrest
    | up => exact absurd hs (by decide)
    | entry _ hplain => exact absurd hs (by simp [hplain.1])
    | stop _ _ _ hlast => exact absurd hlast (by simp)
    | jump _ hplain => exact absurd hs (by simp [hplain.1])

/-- Idle segments at the end lead nowhere else. -/
theorem of_append_idle {idles : List String} (hidles : ∀ s ∈ idles, Path.isIdle s = true)
    (h : t.Reaches true links loc (segments ++ idles) l) :
    t.Reaches true links loc segments l ∧ (idles ≠ [] → t.lookup l = some .directory) := by
  by_cases hnil : idles = []
  · simpa [hnil] using h
  obtain ⟨l', hl', -⟩ := h.of_append hnil
  obtain ⟨left, hleft⟩ := hl'.append
  have hl := follow_eq_taken_iff.1 ((hleft hnil).symm.trans (follow_eq_taken_iff.2 h))
  obtain ⟨rfl, hdir⟩ := eq_of_idle hidles hnil hl
  exact ⟨hl', fun _ => hdir⟩

/-- What a path leads to is there, and it is no link if links at the end are
followed. -/
theorem lookup (h : t.Reaches followLast links loc segments l) (ht : t.WellFormed)
    (hloc : ∃ e, t.lookup loc = some e ∧ e.isLink = false) :
    ∃ e, t.lookup l = some e ∧ (followLast = true → e.isLink = false) := by
  induction h with
  | here =>
    obtain ⟨e, he, hnot⟩ := hloc
    exact ⟨e, he, fun _ => hnot⟩
  | idle _ _ _ ih => exact ih hloc
  | @up links loc l rest hdir _ ih =>
    refine ih ⟨.directory, ?_, rfl⟩
    by_cases hne : loc = []
    · simp [hne]
    · exact ht.parent hdir hne
  | entry _ _ he hnot _ ih => exact ih ⟨_, he, hnot⟩
  | stop _ _ hlink hlast => exact ⟨_, hlink, fun h => absurd (h.symm.trans hlast) (by simp)⟩
  | jump hdir _ _ _ _ ih =>
    refine ih ⟨.directory, ?_, rfl⟩
    unfold linkBase
    split_ifs
    · exact lookup_nil t
    · exact hdir

/-- A file that is not what a path leads to makes no difference to where it leads. -/
theorem without_file (h : u.Reaches followLast links loc segments l) {lc : Location}
    (hother : ∀ l, l ≠ lc → (u.lookup l).map Entry.shape = (t.lookup l).map Entry.shape)
    {content : ByteArray} (hfile : u.lookup lc = some (.file content)) (hl : l ≠ lc) :
    t.Reaches followLast links loc segments l := by
  have hdirectory : ∀ {l : Location}, u.lookup l = some .directory →
      t.lookup l = some .directory := by
    intro l hdir
    rw [← map_shape_eq_directory, ← hother l (by rintro rfl; simp [hfile] at hdir), hdir]
    rfl
  have hlinks : ∀ {l : Location} {target : String}, u.lookup l = some (.link target) →
      t.lookup l = some (.link target) := by
    intro l target hlink
    have hshape := hother l (by rintro rfl; simp [hfile] at hlink)
    rw [hlink] at hshape
    simpa using hshape.symm
  induction h with
  | here => exact .here
  | idle hdir hidle _ ih => exact .idle (hdirectory hdir) hidle (ih hl)
  | up hdir _ ih => exact .up (hdirectory hdir) (ih hl)
  | @entry links loc l segment rest e hdir hplain he hnot h ih =>
    have hne : loc ++ [segment] ≠ lc := by
      -- nothing can be followed from a file
      rintro rfl
      cases h with
      | here => exact hl rfl
      | idle hdir => simp [hfile] at hdir
      | up hdir => simp [hfile] at hdir
      | entry hdir => simp [hfile] at hdir
      | stop hdir => simp [hfile] at hdir
      | jump hdir => simp [hfile] at hdir
    have hshape := hother _ hne
    rw [he, Option.map_some, eq_comm, Option.map_eq_some_iff] at hshape
    obtain ⟨e', he', hshape⟩ := hshape
    exact .entry (hdirectory hdir) hplain he' ((Entry.isLink_eq_of_shape hshape).trans hnot)
      (ih hl)
  | stop hdir hplain hlink hlast => exact .stop (hdirectory hdir) hplain (hlinks hlink) hlast
  | jump hdir hplain hlink hlast _ ih =>
    exact .jump (hdirectory hdir) hplain (hlinks hlink) hlast (ih hl)

end Reaches

/-! ## Paths that lead to a vacant place -/

/-- **Where nothing stands yet, the place is in a directory and has a name**, and what
is put there is found. -/
theorem follow_vacant {spot : Spot}
    (h : t.follow followLast links loc segments = .ok spot) (hspot : ∀ l, spot ≠ .taken l) :
    ∃ above name, spot.loc = above ++ [name] ∧ t.lookup above = some .directory ∧
      Path.IsPlain name ∧ t.lookup (above ++ [name]) = none ∧
      ((∀ s ∈ segments, '/' ∉ s.toList) → '/' ∉ name.toList) ∧
      ∀ {u : FileTree}, Grows t u → (u.lookup (above ++ [name]) = some .directory ∨
        (∃ l, spot = .vacant l) ∧ ∃ content, u.lookup (above ++ [name]) = some (.file content)) →
        u.Reaches followLast links loc segments (above ++ [name]) := by
  induction links, loc, segments using t.follow_induction with
  | nil links loc =>
    rw [follow_nil] at h
    exact absurd (Except.ok.inj h).symm (hspot _)
  | stuck links loc segment rest hdir => simp [follow_stuck hdir] at h
  | idle links loc segment rest hdir hidle ih =>
    rw [follow_idle hdir hidle] at h
    obtain ⟨above, name, hloc, habove, hplain, hnone, hslash, hfound⟩ := ih h
    exact ⟨above, name, hloc, habove, hplain, hnone,
      fun hs => hslash fun s hs' => hs s (List.mem_cons_of_mem _ hs'),
      fun hu hput => .idle (hu.directory hdir) hidle (hfound hu hput)⟩
  | up links loc rest hdir ih =>
    rw [follow_up hdir] at h
    obtain ⟨above, name, hloc, habove, hplain, hnone, hslash, hfound⟩ := ih h
    exact ⟨above, name, hloc, habove, hplain, hnone,
      fun hs => hslash fun s hs' => hs s (List.mem_cons_of_mem _ hs'),
      fun hu hput => .up (hu.directory hdir) (hfound hu hput)⟩
  | missing links loc segment rest hdir hplain hnone =>
    obtain ⟨hloc, hidle, hlast⟩ := follow_missing_eq_ok hdir hplain hnone h
    refine ⟨loc, segment, hloc, hdir, hplain, hnone, fun hs => hs segment List.mem_cons_self,
      fun {u} hu hput => ?_⟩
    rcases hput with hput | ⟨hvacant, content, hput⟩
    · exact .entry (hu.directory hdir) hplain hput rfl (.of_idle hidle hput)
    · rw [hlast hvacant]
      exact .entry (hu.directory hdir) hplain hput rfl .here
  | link links loc segment rest target hdir hplain hlink ih =>
    rw [follow_link hdir hplain hlink] at h
    split_ifs at h with hlast
    · exact absurd (Except.ok.inj h).symm (hspot _)
    · cases links with
      | zero => simp at h
      | succ links =>
        obtain ⟨above, name, hloc, habove, hplain', hnone, hslash, hfound⟩ := ih links rfl h
        refine ⟨above, name, hloc, habove, hplain', hnone, fun hs => hslash fun s hs' => ?_,
          fun hu hput => .jump (hu.directory hdir) hplain (hu.link hlink)
            (by simpa [imp_iff_not_or] using hlast) (hfound hu hput)⟩
        rcases List.mem_append.1 hs' with hs' | hs'
        · exact Path.slashFree_ofText target s hs'
        · exact hs s (List.mem_cons_of_mem _ hs')
  | entry links loc segment rest e hdir hplain he hnot ih =>
    rw [follow_entry hdir hplain he hnot] at h
    obtain ⟨above, name, hloc, habove, hplain', hnone, hslash, hfound⟩ := ih h
    refine ⟨above, name, hloc, habove, hplain', hnone,
      fun hs => hslash fun s hs' => hs s (List.mem_cons_of_mem _ hs'), fun hu hput => ?_⟩
    obtain ⟨e', he', hshape⟩ := Option.map_eq_some_iff.1 (hu.lookup he)
    exact .entry (hu.directory hdir) hplain he' ((Entry.isLink_eq_of_shape hshape).trans hnot)
      (hfound hu hput)

end FileTree
end Restyle
