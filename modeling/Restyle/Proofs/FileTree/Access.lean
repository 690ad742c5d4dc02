import Restyle.Proofs.FileTree.Following

/-!
# What a path gives access to

A path is followed from the root or from the working directory.  Where it leads to an
entry, the entry can be read, and a file that can be read can be written.

* `locate_eq_ok_iff`: what a path leads to, by its segments.
* `locate_child`, `locate_below`: what the names in a directory lead to.
* `readText_eq_ok_iff`: reading gives the text of the file that the path leads to, and
  `readText_eq_ok_iff_of_refusals`: unless it may not be read.
* `writeText_of_file`: writing to a path that leads to a file replaces that file.
* `writeText_eq_ok`: what is written is put where the path leads then, and found there.
* `createDirectories_of_isDirectory`: nothing is made where a directory is.
-/

namespace Restyle
namespace FileTree

open Restyle.Path (IsPlain)

variable {t u : FileTree} {followLast : Bool} {links : Nat} {p q : Path} {loc l : Location}
  {r : Refusals}
  {s : String} {e : Entry}

/-! ## Where a path leads -/

/-- Where a path is followed from. -/
def start (t : FileTree) (p : Path) : Location := if p.rooted then [] else t.workingDirectory

theorem WellFormed.lookup_start (ht : t.WellFormed) (p : Path) :
    t.lookup (t.start p) = some .directory := by
  unfold start
  split_ifs
  · exact lookup_nil t
  · exact ht.workingDirectory

theorem resolve_eq (h : p.isEmpty = false) :
    t.resolve followLast p = t.follow followLast linkLimit (t.start p) p.segments := by
  rw [resolve, if_neg (by simp [h])]
  rfl

theorem isEmpty_of_resolve {spot : Spot} (h : t.resolve followLast p = .ok spot) :
    p.isEmpty = false := by
  rw [Bool.eq_false_iff]
  intro hempty
  simp [resolve, hempty] at h

theorem locate_eq_ok_iff : t.locate followLast p = .ok l ↔
    p.isEmpty = false ∧ t.Reaches followLast linkLimit (t.start p) p.segments l := by
  cases hempty : p.isEmpty with
  | true => simp [locate, resolve, hempty]
  | false =>
    rw [locate, resolve_eq hempty, ← follow_eq_taken_iff]
    constructor
    · intro h
      split at h
      · rename_i heq
        rw [heq, Except.ok.inj h]
        exact ⟨rfl, rfl⟩
      all_goals simp at h
    · rintro ⟨-, h⟩
      rw [h]

theorem locate_of_grows (hu : Grows t u) (h : t.locate followLast p = .ok l) :
    u.locate followLast p = .ok l := by
  obtain ⟨hempty, hreach⟩ := locate_eq_ok_iff.1 h
  have hstart : u.start p = t.start p := by rw [start, start, hu.workingDirectory]
  exact locate_eq_ok_iff.2 ⟨hempty, hstart ▸ hreach.grows hu⟩

/-- **Where a path leads does not depend on the bytes of files.** -/
theorem SameShape.resolve (hu : SameShape t u) :
    u.resolve followLast p = t.resolve followLast p := by
  unfold FileTree.resolve
  rw [hu.workingDirectory]
  simp only [follow_shape hu.lookup]

theorem SameShape.locate (hu : SameShape t u) :
    u.locate followLast p = t.locate followLast p := by
  unfold FileTree.locate
  rw [hu.resolve]

/-- What a path leads to is there, and it is no link if links at the end are followed. -/
theorem WellFormed.lookup_of_locate (ht : t.WellFormed) (h : t.locate followLast p = .ok l) :
    ∃ e, t.lookup l = some e ∧ (followLast = true → e.isLink = false) :=
  (locate_eq_ok_iff.1 h).2.lookup ht ⟨.directory, ht.lookup_start p, rfl⟩

/-- What is no link is found whether links at the end are followed or not. -/
theorem locate_true_of_not_link (h : t.locate false p = .ok l)
    (hnot : ∀ target, t.lookup l ≠ some (.link target)) : t.locate true p = .ok l := by
  obtain ⟨hempty, hreach⟩ := locate_eq_ok_iff.1 h
  exact locate_eq_ok_iff.2 ⟨hempty, hreach.of_not_link hnot⟩

theorem entryAt_eq_ok_iff : t.entryAt followLast p = .ok e ↔
    ∃ l, t.locate followLast p = .ok l ∧ t.lookup l = some e := by
  unfold entryAt
  cases hlocate : t.locate followLast p with
  | error e => simp
  | ok l => cases hl : t.lookup l <;> simp [hl]

/-- A path that leads somewhere leads there without idle segments at its end. -/
theorem locate_of_trims (hreach : t.Reaches true linkLimit (t.start p) p.segments l)
    (hq : Path.Trims p q) (hempty : q.isEmpty = false) : t.locate true q = .ok l := by
  obtain ⟨hrooted, idles, hidles, hsegments | ⟨hsegments, hall⟩⟩ := hq
  · rw [hsegments] at hreach
    refine locate_eq_ok_iff.2 ⟨hempty, ?_⟩
    rw [start, hrooted]
    exact (hreach.of_append_idle hidles).1
  · -- nothing but the root is left
    have hroot : q.rooted = true := by simpa [Path.isEmpty, hsegments] using hempty
    have hstart : t.start p = [] := by simp [start, ← hrooted, hroot]
    rw [hall, hstart, ← List.nil_append idles] at hreach
    obtain rfl : [] = l := by
      cases (hreach.of_append_idle hidles).1
      rfl
    refine locate_eq_ok_iff.2 ⟨hempty, ?_⟩
    rw [start, if_pos hroot, hsegments]
    exact .idle (lookup_nil t) rfl .here

/-! ## Names in a directory -/

section Directory

variable (hp : t.locate true p = .ok loc) (hdir : t.lookup loc = some .directory)
include hp

theorem reaches_stem : t.Reaches true linkLimit (t.start p) p.stem loc := by
  obtain ⟨-, hreach⟩ := locate_eq_ok_iff.1 hp
  unfold Path.stem
  split_ifs with hlast
  · obtain ⟨front, hfront⟩ : ∃ front, p.segments = front ++ [""] :=
      List.getLast?_eq_some_iff.1 (by simpa using hlast)
    rw [hfront] at hreach
    rw [hfront, List.dropLast_concat]
    exact (hreach.of_append_idle (by simp [Path.isIdle_empty])).1
  · exact hreach

/-- A path with a name behind it is followed by following the name. -/
theorem resolve_child (hs : s ≠ "") :
    ∃ left, ∀ followLast, t.resolve followLast (p.child s) = t.follow followLast left loc [s] := by
  obtain ⟨left, hleft⟩ := (reaches_stem hp).append
  refine ⟨left, fun followLast => ?_⟩
  have hempty : (p.child s).isEmpty = false := by
    rw [Path.child_eq, Path.isEmpty, Bool.and_eq_false_iff, beq_eq_false_iff_ne]
    exact .inr fun h => hs (by simpa using congrArg List.getLast? h)
  rw [resolve_eq hempty, Path.child_eq]
  exact hleft (by simp)

include hdir

theorem entryAt_child (hs : IsPlain s) :
    t.entryAt false (p.child s) = match t.lookup (loc ++ [s]) with
      | some e => .ok e
      | none => .error .notFound := by
  obtain ⟨left, hleft⟩ := resolve_child hp (Path.ne_empty_of_not_isIdle hs.1)
  rw [entryAt, locate, hleft, follow_name hdir hs]
  cases he : t.lookup (loc ++ [s]) with
  | none => simp
  | some e => cases e <;> simp [he]

/-- **A name in a directory leads to what stands there**, unless that is a link to be
followed. -/
theorem locate_child (hs : IsPlain s) (he : t.lookup (loc ++ [s]) = some e)
    (hlink : e.isLink = false ∨ followLast = false) :
    t.locate followLast (p.child s) = .ok (loc ++ [s]) := by
  obtain ⟨left, hleft⟩ := resolve_child hp (Path.ne_empty_of_not_isIdle hs.1)
  rw [locate, hleft, follow_name hdir hs, he]
  cases e with
  | link target =>
    have hlast : followLast = false := hlink.resolve_left (by simp [Entry.isLink])
    simp [hlast]
  | file content => simp
  | directory => simp

end Directory

/-- **Names below a directory lead to what stands there.** -/
theorem locate_below (ht : t.WellFormed) (hp : t.locate true p = .ok loc) {names : List String}
    (he : t.lookup (loc ++ names) = some e) (hlink : e.isLink = false) :
    t.locate true (p.below names) = .ok (loc ++ names) := by
  induction names using List.reverseRecOn generalizing e with
  | nil => simpa using hp
  | append_singleton names s ih =>
    rw [← List.append_assoc] at he
    have hdir := ht.directory_of_prefix (by simp) he
    rw [Path.below_concat, ← List.append_assoc]
    exact locate_child (ih hdir rfl) hdir (ht.isName he s (by simp)).1 he (.inl hlink)

/-! ## Reading -/

theorem fromUTF8?_toUTF8 (s : String) : String.fromUTF8? s.toUTF8 = some s := by
  simp only [String.fromUTF8?, String.toUTF8_eq_toByteArray, dif_pos s.isValidUTF8]
  rfl

theorem toUTF8_of_fromUTF8? {content : ByteArray} (h : String.fromUTF8? content = some s) :
    s.toUTF8 = content := by
  unfold String.fromUTF8? at h
  split at h
  · obtain rfl := Option.some.inj h
    rfl
  · simp at h

theorem readText_eq (t : FileTree) (p : Path) :
    t.readText p = match t.entryAt true p with
      | .ok (.file content) => match String.fromUTF8? content with
        | some s => .ok s
        | none => .error .notText
      | .ok _ => .error .isDirectory
      | .error e => .error e := by
  cases hentry : t.entryAt true p with
  | error e => simp [readText, hentry]
  | ok e =>
    cases e with
    | file content =>
      cases htext : String.fromUTF8? content <;> simp [readText, hentry, htext]
    | directory => simp [readText, hentry]
    | link target => simp [readText, hentry]

/-- **Reading gives the text of the file that the path leads to.** -/
theorem readText_eq_ok_iff : t.readText p = .ok s ↔
    ∃ l, t.locate true p = .ok l ∧ t.lookup l = some (.file s.toUTF8) := by
  rw [readText_eq]
  constructor
  · intro h
    split at h
    · rename_i content hentry
      obtain ⟨l, hl, hfile⟩ := entryAt_eq_ok_iff.1 hentry
      split at h
      · rename_i s' hs'
        obtain rfl := Except.ok.inj h
        rw [toUTF8_of_fromUTF8? hs']
        exact ⟨l, hl, hfile⟩
      · simp at h
    all_goals simp at h
  · rintro ⟨l, hl, hfile⟩
    rw [entryAt_eq_ok_iff.2 ⟨l, hl, hfile⟩]
    simp only [fromUTF8?_toUTF8]

theorem readText_congr (ht : t.locate true p = .ok l) (hu : u.locate true p = .ok l)
    (hl : u.lookup l = t.lookup l) : u.readText p r = t.readText p r := by
  unfold readText readingRefusal? entryAt
  rw [ht, hu]
  simp only [hl]

/-- What can be read is what the path leads to, unless it may not be read. -/
theorem readText_eq_ok_iff_of_refusals : t.readText p r = .ok s ↔
    t.readingRefusal? p r = none ∧ t.readText p = .ok s := by
  rw [readText, readText, readingRefusal?_none]
  cases t.readingRefusal? p r <;> simp

theorem isDirectory_iff : t.isDirectory p = true ↔
    ∃ l, t.locate true p = .ok l ∧ t.lookup l = some .directory := by
  rw [isDirectory, holds]
  constructor
  · intro h
    split at h
    · rename_i e he
      cases e with
      | directory => exact entryAt_eq_ok_iff.1 he
      | file content => simp [Entry.isDirectory] at h
      | link target => simp [Entry.isDirectory] at h
    · simp at h
  · intro h
    rw [entryAt_eq_ok_iff.2 h]
    rfl

theorem isFile_iff : t.isFile p = true ↔
    ∃ l content, t.locate true p = .ok l ∧ t.lookup l = some (.file content) := by
  rw [isFile, holds]
  constructor
  · intro h
    split at h
    · rename_i e he
      cases e with
      | file content =>
        obtain ⟨l, hl, hfile⟩ := entryAt_eq_ok_iff.1 he
        exact ⟨l, content, hl, hfile⟩
      | directory => simp [Entry.isFile] at h
      | link target => simp [Entry.isFile] at h
    · simp at h
  · rintro ⟨l, content, hl, hfile⟩
    rw [entryAt_eq_ok_iff.2 ⟨l, hl, hfile⟩]
    rfl

theorem isDirectory_of_grows (hu : Grows t u) (h : t.isDirectory p = true) :
    u.isDirectory p = true := by
  obtain ⟨l, hl, hdir⟩ := isDirectory_iff.1 h
  exact isDirectory_iff.2 ⟨l, locate_of_grows hu hl, hu.directory hdir⟩

theorem isFile_of_grows (hu : Grows t u) (h : t.isFile p = true) : u.isFile p = true := by
  obtain ⟨l, content, hl, hfile⟩ := isFile_iff.1 h
  obtain ⟨content', hfile'⟩ := hu.file hfile
  exact isFile_iff.2 ⟨l, content', locate_of_grows hu hl, hfile'⟩

/-! ## Writing to a file that is there -/

/-- A path that leads to a file ends with a name. -/
theorem exists_name_of_file (ht : t.WellFormed) (hp : t.locate true p = .ok loc)
    {content : ByteArray} (hfile : t.lookup loc = some (.file content)) :
    ∃ front s above, p.segments = front ++ [s] ∧ IsPlain s ∧
      t.Reaches true linkLimit (t.start p) front above ∧ t.lookup above = some .directory := by
  obtain ⟨-, hreach⟩ := locate_eq_ok_iff.1 hp
  rcases List.eq_nil_or_concat p.segments with hnil | ⟨front, s, hsegments⟩
  · rw [hnil] at hreach
    cases hreach
    rw [ht.lookup_start p] at hfile
    simp at hfile
  rw [List.concat_eq_append] at hsegments
  rw [hsegments] at hreach
  obtain ⟨above, habove, hdir⟩ := hreach.of_append (by simp)
  obtain ⟨left, hleft⟩ := habove.append
  have hlast := (@hleft true [s] (by simp)).symm.trans (follow_eq_taken_iff.2 hreach)
  refine ⟨front, s, above, hsegments, ⟨?_, ?_⟩, habove, hdir⟩
  · -- an idle segment would have led to the directory
    rw [Bool.eq_false_iff]
    intro hidle
    rw [follow_idle hdir hidle, follow_nil] at hlast
    obtain rfl : above = loc := by simpa using hlast
    rw [hdir] at hfile
    simp at hfile
  · rintro rfl
    rw [follow_up hdir, follow_nil] at hlast
    obtain rfl : above.dropLast = loc := by simpa using hlast
    by_cases hne : above = []
    · simp [hne] at hfile
    · rw [ht.parent hdir hne] at hfile
      simp at hfile

/-- The path above one that leads to a file leads to a directory, and the file, or a link to
it, stands there. -/
theorem exists_parent_of_file (ht : t.WellFormed) (hp : t.locate true p = .ok loc)
    {content : ByteArray} (hfile : t.lookup loc = some (.file content)) :
    ∃ q s above, p.parent? = some q ∧ (q.isEmpty = false → t.locate true q = .ok above) ∧
      t.locate false p = .ok (above ++ [s]) := by
  obtain ⟨front, s, above, hsegments, hs, habove, hdir⟩ := exists_name_of_file ht hp hfile
  obtain ⟨q, hq, htrims⟩ := Path.parent?_of_not_isIdle hsegments hs.1
  refine ⟨q, s, above, hq, locate_of_trims habove htrims, ?_⟩
  obtain ⟨hempty, hreach⟩ := locate_eq_ok_iff.1 hp
  obtain ⟨left, hleft⟩ := habove.append
  rw [hsegments] at hreach
  have htrue := (@hleft true [s] (by simp)).symm.trans (follow_eq_taken_iff.2 hreach)
  rw [locate, resolve_eq hempty, hsegments, hleft (by simp)]
  cases he : t.lookup (above ++ [s]) with
  | none =>
    rw [follow_missing hdir hs he] at htrue
    simp at htrue
  | some e =>
    cases e with
    | link target => rw [follow_link hdir hs he, if_pos (by simp)]
    | file content => rw [follow_entry hdir hs he rfl, follow_nil]
    | directory => rw [follow_entry hdir hs he rfl, follow_nil]

/-- **Writing to a path that leads to a file replaces that file**, unless it is refused. -/
theorem writeText_of_file_of_refusals (ht : t.WellFormed) (hp : t.locate true p = .ok loc)
    {content : ByteArray} (hfile : t.lookup loc = some (.file content)) (text : String)
    (r : Refusals) :
    t.writeText p text r = unlessRefused (r.writing loc) (t.put loc (.file text.toUTF8)) := by
  obtain ⟨front, s, above, hsegments, hs, -⟩ := exists_name_of_file ht hp hfile
  obtain ⟨hsame, hslash⟩ :=
    Path.withoutSlash_of_ne_empty hsegments (Path.ne_empty_of_not_isIdle hs.1)
  obtain ⟨hempty, hreach⟩ := locate_eq_ok_iff.1 hp
  have hresolve : t.resolve true p = .ok (.taken loc) := by
    rw [resolve_eq hempty]
    exact follow_eq_taken_iff.2 hreach
  simp [writeText, hsame, hslash, hresolve, Spot.loc, hfile]

theorem writeText_of_file (ht : t.WellFormed) (hp : t.locate true p = .ok loc)
    {content : ByteArray} (hfile : t.lookup loc = some (.file content)) (text : String) :
    t.writeText p text = .ok (t.put loc (.file text.toUTF8)) :=
  writeText_of_file_of_refusals ht hp hfile text .none

/-! ## Writing to any path -/

/-- A text that can be written could be written if nothing were refused. -/
theorem writeText_of_refusals {text : String} (h : t.writeText p text r = .ok u) :
    t.writeText p text = .ok u := by
  unfold writeText at h ⊢
  split at h
  · exact h
  · exact h
  · split_ifs at h ⊢
    exact congrArg Except.ok (unlessRefused_eq_ok_iff.1 h).2

/-- A directory that can be made could be made if nothing were refused. -/
theorem makeDirectory_of_refusals (h : t.makeDirectory p r = .ok u) :
    t.makeDirectory p = .ok u := by
  unfold makeDirectory at h ⊢
  split at h
  · exact h
  · exact congrArg Except.ok (unlessRefused_eq_ok_iff.1 h).2
  · exact h

theorem endsWithSlash_of_writeText {text : String} (h : t.writeText p text = .ok u) :
    p.endsWithSlash = false := by
  by_contra hslash
  rw [Bool.not_eq_false] at hslash
  unfold writeText at h
  split at h <;> simp [hslash] at h

/-- A text is written where the path leads: to a free place, or over what is there if this is no
directory. -/
theorem resolve_of_writeText (hp : p.Proper) {text : String} (h : t.writeText p text = .ok u) :
    ∃ loc, (t.resolve true p = .ok (.vacant loc) ∨
        t.resolve true p = .ok (.taken loc) ∧ t.lookup loc ≠ some .directory) ∧
      u = t.put loc (.file text.toUTF8) := by
  have hslash := endsWithSlash_of_writeText h
  unfold writeText at h
  rw [Path.withoutSlash_of_not_endsWithSlash hp hslash, hslash] at h
  cases hspot : t.resolve true p with
  | error e => simp [hspot] at h
  | ok spot =>
    cases spot with
    | reserved loc => simp [hspot] at h
    | taken loc =>
      simp only [Bool.not_false, hspot, Spot.loc, Bool.false_or, beq_iff_eq] at h
      split_ifs at h with hdir
      exact ⟨loc, .inr ⟨rfl, hdir⟩, (Except.ok.inj h).symm⟩
    | vacant loc =>
      simp only [Bool.not_false, hspot, Spot.loc, Bool.false_or, beq_iff_eq] at h
      split_ifs at h
      exact ⟨loc, .inl rfl, (Except.ok.inj h).symm⟩

/-- What a path leads to through all links is a file, if it is no directory. -/
theorem WellFormed.file_of_taken (ht : t.WellFormed) (h : t.resolve true p = .ok (.taken loc))
    (hdir : t.lookup loc ≠ some .directory) :
    ∃ content, t.locate true p = .ok loc ∧ t.lookup loc = some (.file content) := by
  have hlocate : t.locate true p = .ok loc := by rw [locate, h]
  obtain ⟨e, he, hlink⟩ := ht.lookup_of_locate hlocate
  cases e with
  | file content => exact ⟨content, hlocate, he⟩
  | directory => exact absurd he hdir
  | link target => exact absurd (hlink rfl) (by simp [Entry.isLink])

/-- **A file that is put at a free place is found there.** -/
theorem WellFormed.put_vacant (ht : t.WellFormed) (hp : p.Proper)
    (h : t.resolve true p = .ok (.vacant loc)) (content : ByteArray) :
    t.lookup loc = none ∧ (t.put loc (.file content)).WellFormed ∧
      (t.put loc (.file content)).locate true p = .ok loc ∧
      (t.put loc (.file content)).lookup loc = some (.file content) := by
  have hempty := isEmpty_of_resolve h
  obtain ⟨above, name, hloc, habove, hplain, hnone, hname, hfound⟩ :=
    follow_vacant ((resolve_eq hempty).symm.trans h) (by simp)
  obtain rfl : loc = above ++ [name] := hloc
  have hput := lookup_put t (.file content) (show above ++ [name] ≠ [] by simp)
  refine ⟨hnone, ?_, locate_eq_ok_iff.2 ⟨hempty, ?_⟩, hput⟩
  · refine ht.put (by simp) (by simpa using habove) (fun x hx => ?_) (by simp [hnone]) _
    rcases List.mem_append.1 hx with hx | hx
    · exact ht.isName habove x hx
    · obtain rfl : x = name := by simpa using hx
      exact ⟨hplain, hname hp.slashFree⟩
  · exact hfound (.put (.inl hnone)) (.inr ⟨⟨_, rfl⟩, _, hput⟩)

/-- **What is written is put where the path leads then**, in place of a file or of
nothing. -/
theorem writeText_eq_ok (ht : t.WellFormed) (hp : p.Proper) {text : String}
    (h : t.writeText p text r = .ok u) :
    ∃ loc, u = t.put loc (.file text.toUTF8) ∧ u.locate true p = .ok loc ∧
      u.lookup loc = some (.file text.toUTF8) ∧ u.WellFormed ∧ Grows t u ∧
      (t.lookup loc = none ∨ ∃ content, t.lookup loc = some (.file content)) := by
  rcases resolve_of_writeText hp (writeText_of_refusals h) with
    ⟨loc, hvacant | ⟨htaken, hdir⟩, rfl⟩
  · obtain ⟨hnone, hwell, hlocate, hput⟩ := ht.put_vacant hp hvacant text.toUTF8
    exact ⟨loc, rfl, hlocate, hput, hwell, .put (.inl hnone), .inl hnone⟩
  · obtain ⟨content, hlocate, hfile⟩ := ht.file_of_taken htaken hdir
    have hgrows : Grows t (t.put loc (.file text.toUTF8)) := .put (.inr ⟨content, hfile, rfl⟩)
    have hne : loc ≠ [] := by
      rintro rfl
      simp at hfile
    exact ⟨loc, rfl, locate_of_grows hgrows hlocate, lookup_put t _ hne, ht.put_file hfile _,
      hgrows, .inr ⟨content, hfile⟩⟩

/-! ## Making directories that are there -/

/-- **Nothing is made where a directory is.** -/
theorem makeDirectories_of_isDirectory (hp : t.isDirectory p = true) (above : List Path) :
    t.makeDirectories (p :: above) r = (t, none) := by
  obtain ⟨l, hl, -⟩ := isDirectory_iff.1 hp
  rw [makeDirectories]
  split_ifs with hcomponents
  · rfl
  -- a slash at the end aside, the path leads to something
  have hempty := Path.isEmpty_withoutSlash (by simpa using hcomponents)
  obtain ⟨-, hreach⟩ := locate_eq_ok_iff.1
    (locate_of_trims (locate_eq_ok_iff.1 hl).2 (Path.trims_withoutSlash p) hempty)
  obtain ⟨l', hl'⟩ := hreach.without_last
  have hmake : t.makeDirectory p r = .error .alreadyThere := by
    rw [makeDirectory, resolve_eq hempty, follow_eq_taken_iff.2 hl']
  simp [hmake]

theorem createDirectories_of_isDirectory (hp : t.isDirectory p = true) :
    t.createDirectories p r = (t, none) := by
  obtain ⟨above, habove⟩ := Path.exists_upward_eq_cons (p.segments.length + 1) p
  rw [createDirectories, Path.ancestors, habove]
  exact makeDirectories_of_isDirectory hp above

end FileTree
end Restyle
