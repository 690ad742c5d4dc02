import Restyle.Proofs.FileTree.Access

/-!
# Making what a path leads to

A path need not lead to anything yet: where a first part of it leads to an entry and the
rest are names, directories can be made for the rest.  `LeadsTo` says where the path leads
then.  Two dots in the rest are left out, since they would lead up from directories that
are still to be made; so are links on the way.

* `LeadsTo.spot_loc`: what is made or written by such a path stands where the path leads.
* `LeadsTo.eq_of_same`: paths with the same components lead to the same location.
* `Adds`: what making directories and writing files below a location does to a tree.
  `Adds.makeDirectory` and `Adds.writeText` are its steps, and `makeDirectories_induction`
  carries the first over to all directories above a file.
-/

namespace Restyle
namespace FileTree

open Restyle.Path (IsPlain StartsAs)

variable {t u u' : FileTree} {followLast : Bool} {links : Nat} {p q : Path}
  {loc l lo : Location} {segments rest : List String} {spot : Spot}

/-! ## Segments without two dots -/

/-- The segments that count. -/
def plain (segments : List String) : List String := segments.filter (!Path.isIdle ·)

@[simp] theorem plain_nil : plain [] = [] := rfl

theorem plain_append (segments rest : List String) :
    plain (segments ++ rest) = plain segments ++ plain rest := List.filter_append _ _

theorem plain_cons_of_idle {s : String} (h : Path.isIdle s = true) (rest : List String) :
    plain (s :: rest) = plain rest := by simp [plain, h]

theorem plain_cons_of_isPlain {s : String} (h : IsPlain s) (rest : List String) :
    plain (s :: rest) = s :: plain rest := by simp [plain, h.1]

theorem plain_of_isPlain {names : List String} (h : ∀ s ∈ names, IsPlain s) :
    plain names = names :=
  List.filter_eq_self.2 fun s hs => by simp [(h s hs).1]

theorem plain_of_idle {idles : List String} (h : ∀ s ∈ idles, Path.isIdle s = true) :
    plain idles = [] :=
  List.filter_eq_nil_iff.2 fun s hs => by simp [h s hs]

/-- No link stands on the way that names lead from a location. -/
def Straight (t : FileTree) (loc : Location) (names : List String) : Prop :=
  ∀ way target, way ≠ [] → way <+: names → t.lookup (loc ++ way) ≠ some (.link target)

/-- **Segments without two dots, and without links on the way, lead where they say.** -/
theorem loc_of_follow (hup : ".." ∉ segments) (hway : t.Straight loc (plain segments))
    (h : t.follow followLast links loc segments = .ok spot) :
    spot.loc = loc ++ plain segments := by
  induction segments generalizing loc with
  | nil =>
    rw [follow_nil] at h
    obtain rfl := Except.ok.inj h
    simp [Spot.loc]
  | cons s rest ih =>
    have hup' : ".." ∉ rest := fun hrest => hup (List.mem_cons_of_mem _ hrest)
    by_cases hdir : t.lookup loc = some .directory
    swap
    · simp [follow_stuck hdir] at h
    by_cases hidle : Path.isIdle s = true
    · rw [follow_idle hdir hidle] at h
      rw [plain_cons_of_idle hidle] at hway ⊢
      exact ih hup' hway h
    · have hs : IsPlain s := ⟨by simpa using hidle, fun heq => hup (by simp [heq])⟩
      rw [plain_cons_of_isPlain hs] at hway ⊢
      cases he : t.lookup (loc ++ [s]) with
      | none =>
        obtain ⟨hloc, hidles, -⟩ := follow_missing_eq_ok hdir hs he h
        rw [plain_of_idle hidles, hloc]
      | some e =>
        have hnot : e.isLink = false := by
          cases e with
          | link target => exact absurd he (hway [s] target (by simp) (by simp))
          | file content => rfl
          | directory => rfl
        rw [follow_entry hdir hs he hnot] at h
        rw [ih hup' (fun way target hne hbegin => ?_) h, List.append_assoc, List.singleton_append]
        rw [List.append_assoc]
        exact hway (s :: way) target (by simp) (by simpa using hbegin)

/-! ## Segments that do not count -/

/-- Some segments without some idle ones among them. -/
inductive Thins : List String → List String → Prop
  /-- Nothing. -/
  | nil : Thins [] []
  /-- A segment stays. -/
  | keep {s : String} {xs ys : List String} (h : Thins xs ys) : Thins (s :: xs) (s :: ys)
  /-- An idle segment goes. -/
  | drop {s : String} {xs ys : List String} (hs : Path.isIdle s = true) (h : Thins xs ys) :
      Thins (s :: xs) ys

theorem Thins.append_left {xs ys : List String} (h : Thins xs ys) (front : List String) :
    Thins (front ++ xs) (front ++ ys) := by
  induction front with
  | nil => exact h
  | cons s front ih => exact .keep ih

theorem thins_plain (xs : List String) : Thins xs (plain xs) := by
  induction xs with
  | nil => exact .nil
  | cons s rest ih =>
    unfold plain at ih ⊢
    by_cases hs : Path.isIdle s = true
    · rw [List.filter_cons_of_neg (by simp [hs])]
      exact .drop hs ih
    · rw [List.filter_cons_of_pos (by simpa using hs)]
      exact .keep ih

/-- Idle segments can be left out of what leads to an entry. -/
theorem Reaches.thins (h : t.Reaches true links loc segments l) {ys : List String}
    (hys : Thins segments ys) : t.Reaches true links loc ys l := by
  induction h generalizing ys with
  | here =>
    cases hys
    exact .here
  | idle hdir hidle _ ih =>
    cases hys with
    | keep hys => exact .idle hdir hidle (ih hys)
    | drop _ hys => exact ih hys
  | up hdir _ ih =>
    cases hys with
    | keep hys => exact .up hdir (ih hys)
    | drop hs _ => exact absurd hs (by decide)
  | entry hdir hplain he hnot _ ih =>
    cases hys with
    | keep hys => exact .entry hdir hplain he hnot (ih hys)
    | drop hs _ => exact absurd hs (by simp [hplain.1])
  | stop _ _ _ hlast => exact absurd hlast (by simp)
  | jump hdir hplain hlink _ _ ih =>
    cases hys with
    | keep hys => exact .jump hdir hplain hlink (.inr rfl) (ih (hys.append_left _))
    | drop hs _ => exact absurd hs (by simp [hplain.1])

/-! ## Where a path leads, or will lead -/

/-- A path leads to a location, where something stands or can be made: a first part of the
path leads to an entry, and the rest leads on from there by names. -/
def LeadsTo (t : FileTree) (p : Path) (l : Location) : Prop :=
  ∃ there rest base, p.segments = there ++ rest ∧
    t.Reaches true linkLimit (t.start p) there base ∧ ".." ∉ rest ∧
    t.Straight base (plain rest) ∧ l = base ++ plain rest

theorem straight_nil (t : FileTree) (loc : Location) : t.Straight loc [] := by
  intro way target hne hbegin
  exact absurd (List.prefix_nil.1 hbegin) hne

theorem start_eq (h : q.rooted = p.rooted) : t.start q = t.start p := by
  rw [start, start, h]

namespace LeadsTo

theorem of_locate (h : t.locate true p = .ok l) : t.LeadsTo p l :=
  ⟨p.segments, [], l, by simp, (locate_eq_ok_iff.1 h).2, by simp, straight_nil t l, by simp⟩

/-- Where a path leads, it leads in a tree with more in it, but without more links. -/
theorem grows (h : t.LeadsTo p l) (hu : Grows t u)
    (hlinks : ∀ {l target}, u.lookup l = some (.link target) → t.lookup l = some (.link target)) :
    u.LeadsTo p l := by
  obtain ⟨there, rest, base, hsegments, hreach, hup, hway, hl⟩ := h
  have hstart : u.start p = t.start p := by rw [start, start, hu.workingDirectory]
  exact ⟨there, rest, base, hsegments, hstart ▸ hreach.grows hu, hup,
    fun way target hne hbegin hlink => hway way target hne hbegin (hlinks hlink), hl⟩

/-- **What is found or made by a path stands where the path leads.** -/
theorem spot_loc (h : t.LeadsTo p l) (hspot : t.resolve followLast p = .ok spot)
    (hlast : followLast = true ∨ ∀ l, spot ≠ .taken l) : spot.loc = l := by
  obtain ⟨there, rest, base, hsegments, hreach, hup, hway, rfl⟩ := h
  rw [resolve_eq (isEmpty_of_resolve hspot), hsegments] at hspot
  by_cases hrest : rest = []
  · subst hrest
    rw [List.append_nil] at hspot
    rcases hlast with rfl | hlast
    · rw [follow_eq_taken_iff.2 hreach] at hspot
      obtain rfl := Except.ok.inj hspot
      simp [Spot.loc]
    · cases followLast with
      | true =>
        rw [follow_eq_taken_iff.2 hreach] at hspot
        exact absurd (Except.ok.inj hspot).symm (hlast _)
      | false =>
        obtain ⟨l', hl'⟩ := hreach.without_last
        rw [follow_eq_taken_iff.2 hl'] at hspot
        exact absurd (Except.ok.inj hspot).symm (hlast _)
  · obtain ⟨left, hleft⟩ := hreach.append
    rw [hleft hrest] at hspot
    exact loc_of_follow hup hway hspot

/-- What stands there already stands where the path leads. -/
theorem eq_of_locate (h : t.LeadsTo p l) {l' : Location} (hl' : t.locate true p = .ok l') :
    l' = l := by
  obtain ⟨hempty, hreach⟩ := locate_eq_ok_iff.1 hl'
  have hresolve : t.resolve true p = .ok (.taken l') := by
    rw [resolve_eq hempty]
    exact follow_eq_taken_iff.2 hreach
  exact h.spot_loc hresolve (.inl rfl)

/-- Names below a path lead below its location. -/
theorem below (h : t.LeadsTo p l) {names : List String} (hnames : ∀ s ∈ names, IsPlain s)
    (hway : t.Straight l names) (hrooted : q.rooted = p.rooted)
    (hsegments : q.segments = p.stem ++ names) : t.LeadsTo q (l ++ names) := by
  -- a slash at the end of the path does not count
  obtain ⟨there, rest, base, hstem, hreach, hup, hrest, rfl⟩ : ∃ there rest base,
      p.stem = there ++ rest ∧ t.Reaches true linkLimit (t.start p) there base ∧ ".." ∉ rest ∧
        t.Straight base (plain rest) ∧ l = base ++ plain rest := by
    obtain ⟨there, rest, base, hall, hreach, hup, hrest, rfl⟩ := h
    unfold Path.stem
    split_ifs with hlast
    swap
    · exact ⟨there, rest, base, hall, hreach, hup, hrest, rfl⟩
    obtain ⟨front, hfront⟩ : ∃ front, p.segments = front ++ [""] :=
      List.getLast?_eq_some_iff.1 (by simpa using hlast)
    rw [hfront, List.dropLast_concat]
    rcases List.eq_nil_or_concat rest with rfl | ⟨rest, last, rfl⟩
    · rw [List.append_nil] at hall
      rw [← hall, hfront] at hreach
      exact ⟨front, [], base, by simp, (hreach.of_append_idle (by simp [Path.isIdle_empty])).1,
        by simp, straight_nil t base, rfl⟩
    · rw [List.concat_eq_append] at hall hup hrest ⊢
      rw [hfront, ← List.append_assoc] at hall
      obtain ⟨rfl, hlast⟩ := List.append_inj' hall rfl
      obtain rfl : "" = last := by simpa using hlast
      have hplain : plain (rest ++ [""]) = plain rest := by
        rw [plain_append, show plain [""] = [] from rfl, List.append_nil]
      rw [hplain] at hrest ⊢
      exact ⟨there, rest, base, rfl, hreach, fun hmem => hup (by simp [hmem]), hrest, rfl⟩
  have hplain : plain (rest ++ names) = plain rest ++ names := by
    rw [plain_append, plain_of_isPlain hnames]
  refine ⟨there, rest ++ names, base, by rw [hsegments, hstem, List.append_assoc],
    start_eq hrooted ▸ hreach, ?_, ?_, by rw [hplain, List.append_assoc]⟩
  · rw [List.mem_append]
    rintro (hmem | hmem)
    · exact hup hmem
    · exact (hnames _ hmem).2 rfl
  · rw [hplain]
    intro way target hne hbegin
    rcases List.prefix_or_prefix_of_prefix hbegin (List.prefix_append _ _) with
      hbefore | ⟨more, rfl⟩
    · exact hrest way target hne hbefore
    · rw [List.prefix_append_right_inj] at hbegin
      by_cases hmore : more = []
      · subst hmore
        rw [List.append_nil] at hne ⊢
        exact hrest _ target hne (List.prefix_refl _)
      · rw [← List.append_assoc]
        exact hway more target hmore hbegin

/-- **A path that starts as another leads to an entry, or on the way that the other leads.** -/
theorem of_startsAs (h : t.LeadsTo p l) (ht : t.WellFormed) (hq : StartsAs p q) :
    (∃ l', t.Reaches true linkLimit (t.start q) q.segments l') ∨
      ∃ l', t.LeadsTo q l' ∧ l' <+: l := by
  obtain ⟨there, rest, base, hall, hreach, hup, hway, rfl⟩ := h
  obtain ⟨hrooted, hempty | hbegin⟩ := hq
  · -- nothing is left to follow
    refine .inl ⟨t.start q, ?_⟩
    rcases List.prefix_cons_iff.1 hempty with hnil | ⟨more, hmore, hnil⟩
    · rw [hnil]
      exact .here
    · rw [hmore, List.prefix_nil.1 hnil]
      exact .idle (ht.lookup_start q) rfl .here
  rw [hall] at hbegin
  rcases List.prefix_or_prefix_of_prefix hbegin (List.prefix_append _ _) with
    ⟨more, hmore⟩ | ⟨more, hmore⟩
  · rw [← hmore, ← start_eq hrooted] at hreach
    refine .inl ?_
    by_cases hnil : more = []
    · rw [hnil, List.append_nil] at hreach
      exact ⟨base, hreach⟩
    · obtain ⟨l', hl', -⟩ := hreach.of_append hnil
      exact ⟨l', hl'⟩
  · rw [← hmore, List.prefix_append_right_inj] at hbegin
    obtain ⟨after, rfl⟩ := hbegin
    rw [plain_append] at hway ⊢
    refine .inr ⟨base ++ plain more, ⟨there, more, base, hmore.symm, start_eq hrooted ▸ hreach,
      fun hmem => hup (List.mem_append_left _ hmem), ?_, rfl⟩, ?_⟩
    · intro way target hne hbegin
      exact hway way target hne (hbegin.trans (List.prefix_append _ _))
    · rw [← List.append_assoc]
      exact List.prefix_append _ _

/-- **Paths with the same components lead to the same location.** -/
theorem eq_of_same (h : t.LeadsTo p l) {l' : Location} (hq : t.locate true q = .ok l')
    (hsame : p.same q = true) : l = l' := by
  obtain ⟨there, rest, base, hall, hreach, hup, hway, rfl⟩ := h
  obtain ⟨hrooted, hplain⟩ := Path.plainSegments_of_same hsame
  have hboth : plain q.segments = plain there ++ plain rest := by
    rw [← plain_append, ← hall]
    exact hplain.symm
  have hq' := (locate_eq_ok_iff.1 hq).2.thins (thins_plain _)
  have hreach' := hreach.thins (thins_plain _)
  rw [hboth, ← start_eq hrooted] at hq'
  by_cases hnil : plain rest = []
  · rw [hnil, List.append_nil] at hq' ⊢
    have htaken := (follow_eq_taken_iff.2 hreach').symm.trans (follow_eq_taken_iff.2 hq')
    simpa using htaken
  · obtain ⟨left, hleft⟩ := hreach'.append
    have htaken := (hleft hnil).symm.trans (follow_eq_taken_iff.2 hq')
    have hidem : plain (plain rest) = plain rest := by simp [plain]
    have hup' : ".." ∉ plain rest := fun hmem => hup (List.mem_of_mem_filter hmem)
    have hloc := loc_of_follow hup' (hidem.symm ▸ hway) htaken
    rw [hidem] at hloc
    exact hloc.symm

end LeadsTo

/-! ## Making a directory -/

/-- **A directory is made in a directory, where nothing was.** -/
theorem makeDirectory_eq_ok (ht : t.WellFormed) (hslash : ∀ s ∈ p.segments, '/' ∉ s.toList)
    (h : t.makeDirectory p = .ok u) :
    ∃ spot, t.resolve false p.withoutSlash = .ok spot ∧ (∀ l, spot ≠ .taken l) ∧
      spot.loc ≠ [] ∧ t.lookup spot.loc.dropLast = some .directory ∧ t.lookup spot.loc = none ∧
      (∀ s ∈ spot.loc, IsName s) ∧ u = t.put spot.loc .directory := by
  obtain ⟨spot, hspot, hvacant, hu⟩ : ∃ spot, t.resolve false p.withoutSlash = .ok spot ∧
      (∀ l, spot ≠ .taken l) ∧ u = t.put spot.loc .directory := by
    unfold makeDirectory at h
    cases hresolve : t.resolve false p.withoutSlash with
    | error e => simp [hresolve] at h
    | ok spot =>
      cases spot with
      | taken l => simp [hresolve] at h
      | vacant l => exact ⟨_, rfl, by simp, by simpa [hresolve] using h.symm⟩
      | reserved l => exact ⟨_, rfl, by simp, by simpa [hresolve] using h.symm⟩
  have hfollow := hspot
  rw [resolve_eq (isEmpty_of_resolve hspot)] at hfollow
  obtain ⟨above, name, hloc, habove, hplain, hnone, hname, -⟩ := follow_vacant hfollow hvacant
  refine ⟨spot, hspot, hvacant, by simp [hloc], by simpa [hloc] using habove,
    by rwa [hloc], ?_, hu⟩
  rw [hloc]
  intro s hs
  rcases List.mem_append.1 hs with hs | hs
  · exact ht.isName habove s hs
  · obtain rfl : s = name := by simpa using hs
    exact ⟨hplain, hname ((StartsAs.of_trims (Path.trims_withoutSlash p)).slashFree hslash)⟩

theorem WellFormed.makeDirectory (ht : t.WellFormed)
    (hslash : ∀ s ∈ p.segments, '/' ∉ s.toList) (h : t.makeDirectory p = .ok u) :
    u.WellFormed ∧ Grows t u := by
  obtain ⟨spot, -, -, hne, hdir, hnone, hnames, rfl⟩ := makeDirectory_eq_ok ht hslash h
  exact ⟨ht.put hne hdir hnames (by simp [hnone]) _, .put (.inl hnone)⟩

/-! ## Trees with more in them -/

/-- A tree has what another has, up to the bytes of files, and more below a location; above
it, it may have more directories. -/
structure Adds (lo : Location) (t u : FileTree) : Prop where
  /-- The tree is well formed. -/
  wellFormed : u.WellFormed
  /-- Everything stays where it is and what it is. -/
  grows : Grows t u
  /-- There are no more links. -/
  links : ∀ {l target}, u.lookup l = some (.link target) → t.lookup l = some (.link target)
  /-- Elsewhere nothing changes but for directories above the location. -/
  elsewhere : ∀ {l}, ¬lo <+: l → u.lookup l = t.lookup l ∨
    t.lookup l = none ∧ u.lookup l = some .directory ∧ l <+: lo

namespace Adds

theorem refl (ht : t.WellFormed) (lo : Location) : Adds lo t t :=
  ⟨ht, .refl t, id, fun _ => .inl rfl⟩

theorem leadsTo (h : Adds lo t u) (hp : t.LeadsTo p l) : u.LeadsTo p l :=
  hp.grows h.grows h.links

/-- What stands elsewhere stays as it is. -/
theorem lookup_eq (h : Adds lo t u) (hl : ¬lo <+: l) {e : Entry} (he : t.lookup l = some e) :
    u.lookup l = some e := by
  rcases h.elsewhere hl with hsame | ⟨hnone, -⟩
  · rw [hsame, he]
  · simp [hnone] at he

/-- Something is put below the location, or a directory above it. -/
theorem put (h : Adds lo t u) (hne : l ≠ []) (hdir : u.lookup l.dropLast = some .directory)
    (hnames : ∀ s ∈ l, IsName s) {e : Entry} (hlink : e.isLink = false)
    (hold : u.lookup l = none ∨
      ∃ content, u.lookup l = some (.file content) ∧ e.shape = .file .empty)
    (hl : lo <+: l ∨ l <+: lo ∧ u.lookup l = none ∧ e = .directory) : Adds lo t (u.put l e) := by
  have hnot : u.lookup l ≠ some .directory := by
    rcases hold with hnone | ⟨content, hfile, -⟩
    · simp [hnone]
    · simp [hfile]
  refine ⟨h.wellFormed.put hne hdir hnames hnot e, h.grows.trans (.put hold), ?_, ?_⟩
  · intro l' target hlink'
    by_cases heq : l' = l
    · subst heq
      rw [lookup_put u e hne] at hlink'
      rw [Option.some.inj hlink'] at hlink
      simp [Entry.isLink] at hlink
    · rw [lookup_put_of_ne u e heq] at hlink'
      exact h.links hlink'
  · intro l' hl'
    by_cases heq : l' = l
    · subst heq
      obtain ⟨habove, hnone, rfl⟩ := hl.resolve_left hl'
      refine .inr ⟨?_, lookup_put u _ hne, habove⟩
      rcases h.elsewhere hl' with hsame | ⟨hnone', -⟩
      · rw [← hsame, hnone]
      · exact hnone'
    · rw [lookup_put_of_ne u e heq]
      exact h.elsewhere hl'

section Steps

variable (h : Adds lo t u) (hp : t.LeadsTo p l) (hlo : lo <+: l) (hproper : p.Proper)
include h hp hlo hproper

/-- **Making one of the directories above a file** adds a directory where nothing was. -/
theorem makeDirectory (hq : StartsAs p q) (hmade : u.makeDirectory q = .ok u') :
    Adds lo t u' ∧ ∃ ld, u.lookup ld = none ∧ u' = u.put ld .directory := by
  obtain ⟨spot, hspot, hvacant, hne, hdir, hnone, hnames, rfl⟩ :=
    makeDirectory_eq_ok h.wellFormed (hq.slashFree hproper.slashFree) hmade
  -- what is made stands on the way to the file
  have hon : spot.loc <+: l := by
    have hstarts : StartsAs p q.withoutSlash := hq.trans (.of_trims (Path.trims_withoutSlash q))
    rcases (h.leadsTo hp).of_startsAs h.wellFormed hstarts with
      ⟨l', hreach⟩ | ⟨l', hleads, hbegin⟩
    · obtain ⟨l'', hreach'⟩ := hreach.without_last
      rw [resolve_eq (isEmpty_of_resolve hspot), follow_eq_taken_iff.2 hreach'] at hspot
      exact absurd (Except.ok.inj hspot).symm (hvacant _)
    · rw [hleads.spot_loc hspot (.inr hvacant)]
      exact hbegin
  refine ⟨h.put hne hdir hnames rfl (.inl hnone) ?_, spot.loc, hnone, rfl⟩
  rcases List.prefix_or_prefix_of_prefix hlo hon with hbelow | habove
  · exact .inl hbelow
  · exact .inr ⟨habove, hnone, rfl⟩

/-- **Writing a file** puts it where its path leads. -/
theorem writeText {text : String} (hwrite : u.writeText p text = .ok u') :
    Adds lo t u' ∧ u' = u.put l (.file text.toUTF8) ∧ u'.locate true p = .ok l ∧
      u'.lookup l = some (.file text.toUTF8) := by
  obtain ⟨l', rfl, hlocate, hfile, hwell, hgrows, -⟩ :=
    writeText_eq_ok h.wellFormed hproper hwrite
  have hlinks : ∀ {l'' target}, (u.put l' (.file text.toUTF8)).lookup l'' = some (.link target) →
      u.lookup l'' = some (.link target) := by
    intro l'' target hlink
    by_cases heq : l'' = l'
    · subst heq
      rw [hfile] at hlink
      simp at hlink
    · rwa [lookup_put_of_ne u _ heq] at hlink
  obtain rfl : l' = l := ((h.leadsTo hp).grows hgrows hlinks).eq_of_locate hlocate
  refine ⟨⟨hwell, h.grows.trans hgrows, fun hlink => h.links (hlinks hlink), fun {l''} hl'' => ?_⟩,
    rfl, hlocate, hfile⟩
  rw [lookup_put_of_ne u _ (by rintro rfl; exact hl'' hlo)]
  exact h.elsewhere hl''

end Steps

end Adds

/-! ## All directories above a file -/

/-- **What making a directory preserves, making the missing ones preserves**, as far as they may be
made. -/
theorem makeDirectories_induction {r : Refusals} {J : FileTree → Prop} {paths : List Path}
    (hstep : ∀ q ∈ paths, ∀ {u u'}, J u → u.makeDirectory q = .ok u' → J u') (ht : J t) :
    J (t.makeDirectories paths r).1 := by
  induction paths with
  | nil => exact ht
  | cons q above ih =>
    have habove := ih fun q' hq' => hstep q' (List.mem_cons_of_mem _ hq')
    have hmade := fun {u u'} => @hstep q List.mem_cons_self u u'
    rw [makeDirectories]
    cases q.components.isEmpty with
    | true => exact ht
    | false =>
      rw [if_neg (by simp)]
      cases hfirst : t.makeDirectory q r with
      | ok u => exact hmade ht (makeDirectory_of_refusals hfirst)
      | error e =>
        cases e with
        | notFound =>
          simp only
          cases habove' : t.makeDirectories above r with
          | mk u error =>
            rw [habove'] at habove
            cases error with
            | some e => exact habove
            | none =>
              simp only
              cases hsecond : u.makeDirectory q r with
              | ok u' => exact hmade habove (makeDirectory_of_refusals hsecond)
              | error e => exact habove
        | _ => exact ht

/-- **Directories that are made leave a tree well formed**, and take nothing away. -/
theorem WellFormed.createDirectories {r : Refusals} (ht : t.WellFormed)
    (hslash : ∀ s ∈ p.segments, '/' ∉ s.toList) :
    (t.createDirectories p r).1.WellFormed ∧ Grows t (t.createDirectories p r).1 := by
  refine makeDirectories_induction (J := fun u => u.WellFormed ∧ Grows t u) ?_ ⟨ht, .refl t⟩
  rintro q hq u u' ⟨hu, hgrows⟩ hmade
  have hstarts := Path.startsAs_of_mem_ancestors hq
  exact (hu.makeDirectory (hstarts.slashFree hslash) hmade).imp_right hgrows.trans

end FileTree
end Restyle
