import Restyle.Proofs.FileTree.Making

/-!
# Making directories where nothing is in the way

In a tree without links a path leads where its text says.  Whether the directories of such a
path can be made is then a matter of what stands at the locations on the way: if each of them
is a directory or not there, all that are missing are made; and if a file stands on the way,
nothing is made, and the error is the same whatever else there is in the tree.

* `LeadsTo.eq_spelled`: without links, a path leads to the location that it spells.
* `Clear`: nothing is in the way of a directory.
* `createDirectories_of_clear`: then it is made, with what is missing above it.
* `createDirectories_of_file`: otherwise nothing is made.
* `EndsIn`: a path that ends with a name, in a directory that may still have to be made.
-/

namespace Restyle

namespace Path

variable {p q : Path}

/-- A path without idle segments at its end, if it has any other. -/
def Trimmed (p : Path) : Prop :=
  p.segments = [""] ∨ p.segments = ["."] ∨
    ∃ front s, p.segments = front ++ [s] ∧ isIdle s = false

/-- What is left when a list is cut at its end does not end with what was cut. -/
theorem trimEnd_eq_nil_or_concat (segments : List String) :
    trimEnd segments = [] ∨ ∃ front s, trimEnd segments = front ++ [s] ∧ isIdle s = false := by
  rcases List.eq_nil_or_concat (trimEnd segments) with hnil | ⟨front, s, hconcat⟩
  · exact .inl hnil
  · rw [List.concat_eq_append] at hconcat
    refine .inr ⟨front, s, hconcat, ?_⟩
    have hhead : (segments.reverse.dropWhile isIdle).head? = some s := by
      have hreverse := congrArg List.reverse hconcat
      rw [trimEnd, List.reverse_reverse, List.reverse_append] at hreverse
      rw [hreverse]
      rfl
    have hnot := List.head?_dropWhile_not isIdle segments.reverse
    rw [hhead] at hnot
    simpa using hnot

/-- A path without idle segments at its end is empty or the root, or it is the dot, or it ends
with a component. -/
theorem trimmed_cases (p : Path) :
    p.trimmed.segments = [""] ∨ p.rooted = false ∧ p.trimmed.segments = ["."] ∨
      ∃ front s, p.trimmed.segments = front ++ [s] ∧ isIdle s = false := by
  have hcut : ∀ (rooted : Bool) (segments : List String),
      (ofSegments rooted (trimEnd segments)).segments = [""] ∨
        ∃ front s, (ofSegments rooted (trimEnd segments)).segments = front ++ [s] ∧
          isIdle s = false := by
    intro rooted segments
    rcases trimEnd_eq_nil_or_concat segments with hnil | ⟨front, s, hconcat, hs⟩
    · exact .inl (by rw [hnil]; rfl)
    · rw [hconcat, ofSegments_of_ne_nil (by simp)]
      exact .inr ⟨front, s, rfl, hs⟩
  obtain ⟨rooted, segments⟩ := p
  unfold trimmed
  cases rooted with
  | true => exact (hcut true segments).imp_right .inr
  | false =>
    simp only [Bool.false_eq_true, if_false]
    split
    · rename_i rest
      rcases trimEnd_eq_nil_or_concat rest with hnil | ⟨front, s, hconcat, hs⟩
      · exact .inr (.inl ⟨trivial, by rw [hnil]; rfl⟩)
      · exact .inr (.inr ⟨"." :: front, s, by rw [hconcat]; rfl, hs⟩)
    · exact (hcut false segments).imp_right .inr

theorem trimmed_trimmed (p : Path) : p.trimmed.Trimmed :=
  (trimmed_cases p).imp_right (Or.imp_left And.right)

theorem Trimmed.of_parent? (h : p.parent? = some q) : q.Trimmed := by
  simp only [parent?] at h
  split_ifs at h
  obtain rfl := Option.some.inj h
  exact trimmed_trimmed _

/-- A trimmed path does not end with a slash that could be left out. -/
theorem Trimmed.withoutSlash_eq (h : p.Trimmed) : p.withoutSlash = p := by
  obtain ⟨rooted, segments⟩ := p
  rcases h with rfl | rfl | ⟨front, s, hsegments, hs⟩
  · rfl
  · rfl
  · exact (withoutSlash_of_ne_empty hsegments (ne_empty_of_not_isIdle hs)).1

/-- A trimmed path that is not empty has a component. -/
theorem Trimmed.components_ne_nil (h : p.Trimmed) (hempty : p.isEmpty = false) :
    p.components ≠ [] := by
  obtain ⟨rooted, segments⟩ := p
  rw [components_eq]
  rcases h with rfl | rfl | ⟨front, s, rfl, hs⟩
  · obtain rfl : rooted = true := by simpa [isEmpty] using hempty
    simp [lead]
  · simp [lead]
    split_ifs <;> simp
  · simp [hs]

end Path

namespace FileTree

open Restyle.Path (IsPlain StartsAs Trims)

variable {t u : FileTree} {followLast : Bool} {links : Nat} {p q d : Path}
  {loc l x : Location} {segments rest : List String}

/-! ## Trees without links -/

/-- No entry is a link. -/
def LinkFree (t : FileTree) : Prop := ∀ l target, t.lookup l ≠ some (.link target)

theorem linkFree_of_entries (h : ∀ e ∈ t.entries, e.2.isLink = false) : t.LinkFree := by
  intro l target hlink
  have hne : l ≠ [] := by
    rintro rfl
    simp at hlink
  exact absurd (h _ (mem_entries_of_lookup hlink hne)) (by simp [Entry.isLink])

theorem LinkFree.straight (h : t.LinkFree) (loc : Location) (names : List String) :
    t.Straight loc names :=
  fun way target _ _ => h (loc ++ way) target

theorem LinkFree.isLink (h : t.LinkFree) {e : Entry} (he : t.lookup l = some e) :
    e.isLink = false := by
  cases e with
  | link target => exact absurd he (h l target)
  | file content => rfl
  | directory => rfl

/-- Putting what is no link adds no link. -/
theorem LinkFree.put (h : t.LinkFree) {e : Entry} (he : e.isLink = false) (l : Location) :
    (t.put l e).LinkFree := by
  intro l' target hlink
  by_cases heq : l' = l
  · subst heq
    by_cases hne : l' = []
    · simp [hne] at hlink
    · rw [lookup_put t e hne] at hlink
      rw [Option.some.inj hlink] at he
      simp [Entry.isLink] at he
  · rw [lookup_put_of_ne t e heq] at hlink
    exact h l' target hlink

theorem LinkFree.makeDirectory (h : t.LinkFree) (hmade : t.makeDirectory p = .ok u) :
    u.LinkFree := by
  unfold FileTree.makeDirectory at hmade
  split at hmade
  · simp at hmade
  · obtain rfl := Except.ok.inj hmade
    exact h.put rfl _
  · simp at hmade

theorem LinkFree.createDirectories (h : t.LinkFree) (p : Path) :
    (t.createDirectories p).1.LinkFree :=
  makeDirectories_induction (fun _ _ _ _ hu hmade => hu.makeDirectory hmade) h

theorem LinkFree.writeText (h : t.LinkFree) {text : String} (hwrite : t.writeText p text = .ok u) :
    u.LinkFree := by
  unfold FileTree.writeText at hwrite
  split at hwrite
  · simp at hwrite
  · simp at hwrite
  · split_ifs at hwrite
    obtain rfl := Except.ok.inj hwrite
    exact h.put rfl _

/-- One segment, by its text alone. -/
def spellStep (loc : Location) (segment : String) : Location :=
  if Path.isIdle segment then loc
  else if segment = ".." then loc.dropLast
  else loc ++ [segment]

theorem spellStep_of_idle {s : String} (h : Path.isIdle s = true) (loc : Location) :
    spellStep loc s = loc := by simp [spellStep, h]

theorem spellStep_of_isPlain {s : String} (h : IsPlain s) (loc : Location) :
    spellStep loc s = loc ++ [s] := by simp [spellStep, h.1, h.2]

/-- The location that a path spells. -/
def spelled (t : FileTree) (p : Path) : Location := p.segments.foldl spellStep (t.start p)

theorem foldl_spellStep_of_idle {idles : List String} (h : ∀ s ∈ idles, Path.isIdle s = true)
    (loc : Location) : idles.foldl spellStep loc = loc := by
  induction idles with
  | nil => rfl
  | cons s rest ih =>
    rw [List.foldl_cons, spellStep_of_idle (h s List.mem_cons_self)]
    exact ih fun x hx => h x (List.mem_cons_of_mem _ hx)

theorem foldl_spellStep (hup : ".." ∉ segments) (loc : Location) :
    segments.foldl spellStep loc = loc ++ plain segments := by
  induction segments generalizing loc with
  | nil => simp
  | cons s rest ih =>
    have hup' : ".." ∉ rest := fun hrest => hup (List.mem_cons_of_mem _ hrest)
    by_cases hidle : Path.isIdle s = true
    · rw [List.foldl_cons, spellStep_of_idle hidle, plain_cons_of_idle hidle, ih hup']
    · have hs : IsPlain s := ⟨by simpa using hidle, fun heq => hup (by simp [heq])⟩
      rw [List.foldl_cons, spellStep_of_isPlain hs, plain_cons_of_isPlain hs, ih hup',
        List.append_assoc, List.singleton_append]

/-- What stands above a path by its text is spelled as the text says. -/
theorem spelled_of_trims (h : Trims p q) : t.spelled q = t.spelled p := by
  obtain ⟨hrooted, idles, hidles, hsegments | ⟨hempty, hsegments⟩⟩ := h
  · rw [spelled, spelled, start_eq hrooted, hsegments, List.foldl_append,
      foldl_spellStep_of_idle hidles]
  · rw [spelled, spelled, start_eq hrooted, hempty, hsegments, foldl_spellStep_of_idle hidles,
      foldl_spellStep_of_idle (by simp [Path.isIdle_empty])]

theorem Reaches.eq_spelled (hlinks : t.LinkFree)
    (h : t.Reaches followLast links loc segments l) : l = segments.foldl spellStep loc := by
  induction h with
  | here => rfl
  | idle _ hidle _ ih => rw [ih, List.foldl_cons, spellStep_of_idle hidle]
  | up _ _ ih => rw [ih]; rfl
  | entry _ hplain _ _ _ ih => rw [ih, List.foldl_cons, spellStep_of_isPlain hplain]
  | stop _ _ hlink => exact absurd hlink (hlinks _ _)
  | jump _ _ hlink => exact absurd hlink (hlinks _ _)

/-- Without links, it makes no difference whether one at the end is followed. -/
theorem Reaches.last (h : t.Reaches true links loc segments l) (hlinks : t.LinkFree) :
    t.Reaches followLast links loc segments l := by
  induction h with
  | here => exact .here
  | idle hdir hidle _ ih => exact .idle hdir hidle ih
  | up hdir _ ih => exact .up hdir ih
  | entry hdir hplain he hnot _ ih => exact .entry hdir hplain he hnot ih
  | stop _ _ hlink => exact absurd hlink (hlinks _ _)
  | jump _ _ hlink => exact absurd hlink (hlinks _ _)

namespace LeadsTo

/-- **Without links, a path leads to the location that it spells.** -/
theorem eq_spelled (h : t.LeadsTo p l) (hlinks : t.LinkFree) : l = t.spelled p := by
  obtain ⟨there, rest, base, hsegments, hreach, hup, -, rfl⟩ := h
  rw [spelled, hsegments, List.foldl_append, ← hreach.eq_spelled hlinks, foldl_spellStep hup]

theorem of_reaches (h : t.Reaches true linkLimit (t.start p) p.segments l) : t.LeadsTo p l :=
  ⟨p.segments, [], l, by simp, h, by simp, straight_nil t l, by simp⟩

theorem of_trims (h : t.LeadsTo p l) (ht : t.WellFormed) (hlinks : t.LinkFree)
    (hq : Trims p q) : t.LeadsTo q l := by
  obtain ⟨l', hleads⟩ : ∃ l', t.LeadsTo q l' := by
    rcases h.of_startsAs ht (.of_trims hq) with ⟨l', hreach⟩ | ⟨l', hleads, -⟩
    · exact ⟨l', of_reaches hreach⟩
    · exact ⟨l', hleads⟩
  rwa [hleads.eq_spelled hlinks, spelled_of_trims hq, ← h.eq_spelled hlinks] at hleads

/-- A name more leads to a place in the directory. -/
theorem concat (h : t.LeadsTo p l) (hlinks : t.LinkFree) {s : String} (hs : IsPlain s)
    (hrooted : q.rooted = p.rooted) (hsegments : q.segments = p.segments ++ [s]) :
    t.LeadsTo q (l ++ [s]) := by
  obtain ⟨there, rest, base, hall, hreach, hup, -, rfl⟩ := h
  refine ⟨there, rest ++ [s], base, by rw [hsegments, hall, List.append_assoc],
    start_eq hrooted ▸ hreach, ?_, hlinks.straight _ _, ?_⟩
  · intro hmem
    rcases List.mem_append.1 hmem with hmem | hmem
    · exact hup hmem
    · exact hs.2 (List.mem_singleton.1 hmem).symm
  · rw [plain_append, plain_cons_of_isPlain hs, plain_nil, List.append_assoc]

end LeadsTo

/-! ## Nothing in the way -/

/-- Nothing but directories stands on the way to a location, and at it. -/
def Clear (t : FileTree) (l : Location) : Prop :=
  ∀ x, x <+: l → t.lookup x = none ∨ t.lookup x = some .directory

theorem Clear.of_prefix (h : t.Clear l) (hx : x <+: l) : t.Clear x :=
  fun y hy => h y (hy.trans hx)

/-- If something is in the way, it is a file. -/
theorem clear_or_exists_file (hlinks : t.LinkFree) (l : Location) :
    t.Clear l ∨ ∃ x content, x <+: l ∧ t.lookup x = some (.file content) := by
  by_cases hclear : t.Clear l
  · exact .inl hclear
  · obtain ⟨x, hx, hnone, hdir⟩ : ∃ x, x <+: l ∧ t.lookup x ≠ none ∧
        t.lookup x ≠ some .directory := by
      simpa [Clear] using hclear
    obtain ⟨e, he⟩ := Option.ne_none_iff_exists'.1 hnone
    cases e with
    | file content => exact .inr ⟨x, content, hx, he⟩
    | directory => exact absurd he hdir
    | link target => exact absurd he (hlinks x target)

theorem WellFormed.directory_above (ht : t.WellFormed) (h : t.lookup l = some .directory)
    (hx : x <+: l) : t.lookup x = some .directory := by
  obtain ⟨more, rfl⟩ := hx
  by_cases hmore : more = []
  · simpa [hmore] using h
  · exact ht.directory_of_prefix hmore h

/-- Segments without two dots lead to the directory that they name. -/
theorem reaches_of_directory (ht : t.WellFormed) (hup : ".." ∉ segments)
    (hdir : t.lookup (loc ++ plain segments) = some .directory) :
    t.Reaches followLast links loc segments (loc ++ plain segments) := by
  induction segments generalizing loc with
  | nil =>
    rw [plain_nil, List.append_nil]
    exact .here
  | cons s rest ih =>
    have hup' : ".." ∉ rest := fun hrest => hup (List.mem_cons_of_mem _ hrest)
    have hloc := ht.directory_above hdir (List.prefix_append _ _)
    by_cases hidle : Path.isIdle s = true
    · rw [plain_cons_of_idle hidle] at hdir ⊢
      exact .idle hloc hidle (ih hup' hdir)
    · have hs : IsPlain s := ⟨by simpa using hidle, fun heq => hup (by simp [heq])⟩
      rw [plain_cons_of_isPlain hs, List.append_cons] at hdir ⊢
      exact .entry hloc hs (ht.directory_above hdir (List.prefix_append _ _)) rfl (ih hup' hdir)

/-- **Where a path leads to a directory, it is found.** -/
theorem LeadsTo.reaches (h : t.LeadsTo p l) (ht : t.WellFormed)
    (hdir : t.lookup l = some .directory) :
    t.Reaches true linkLimit (t.start p) p.segments l := by
  obtain ⟨there, rest, base, hsegments, hreach, hup, -, rfl⟩ := h
  rw [hsegments]
  by_cases hrest : rest = []
  · simpa [hrest] using hreach
  · obtain ⟨left, hleft⟩ := hreach.append
    rw [← follow_eq_taken_iff, hleft hrest, follow_eq_taken_iff]
    exact reaches_of_directory ht hup hdir

theorem LeadsTo.isDirectory (h : t.LeadsTo p l) (ht : t.WellFormed)
    (hdir : t.lookup l = some .directory) (hempty : p.isEmpty = false) :
    t.isDirectory p = true :=
  isDirectory_iff.2 ⟨l, locate_eq_ok_iff.2 ⟨hempty, h.reaches ht hdir⟩, hdir⟩

/-! ## A file in the way -/

/-- Segments that lead to a file, or into it, do so whatever else there is in the tree. -/
theorem follow_of_file (hup : ".." ∉ segments) (hloc : loc <+: x)
    (hx : x <+: loc ++ plain segments) :
    ∃ result : Except DiskError Spot, (result = .ok (.taken x) ∨ result = .error .notDirectory) ∧
      ∀ (u : FileTree) (followLast : Bool) (links : Nat) (content : ByteArray), u.WellFormed →
        u.lookup x = some (.file content) →
        u.follow followLast links loc segments = result := by
  induction segments generalizing loc with
  | nil =>
    rw [plain_nil, List.append_nil] at hx
    obtain rfl := hloc.eq_of_length (Nat.le_antisymm hloc.length_le hx.length_le)
    exact ⟨_, .inl rfl, fun _ _ _ _ _ _ => follow_nil⟩
  | cons s rest ih =>
    have hup' : ".." ∉ rest := fun hrest => hup (List.mem_cons_of_mem _ hrest)
    by_cases heq : loc = x
    · -- nothing can be followed from a file
      subst heq
      exact ⟨_, .inr rfl, fun u followLast links content _ hfile => follow_stuck (by simp [hfile])⟩
    obtain ⟨more, rfl⟩ := hloc
    have hmore : more ≠ [] := by
      rintro rfl
      simp at heq
    by_cases hidle : Path.isIdle s = true
    · rw [plain_cons_of_idle hidle] at hx
      obtain ⟨result, hresult, hfollow⟩ := ih hup' (List.prefix_append _ _) hx
      refine ⟨result, hresult, fun u followLast links content hu hfile => ?_⟩
      rw [follow_idle (hu.directory_of_prefix hmore hfile) hidle]
      exact hfollow u followLast links content hu hfile
    · have hs : IsPlain s := ⟨by simpa using hidle, fun heq => hup (by simp [heq])⟩
      rw [plain_cons_of_isPlain hs, List.prefix_append_right_inj] at hx
      obtain ⟨first, after, rfl⟩ := List.exists_cons_of_ne_nil hmore
      obtain ⟨rfl, hafter⟩ : first = s ∧ after <+: plain rest := List.cons_prefix_cons.1 hx
      rw [List.append_cons] at ih ⊢
      obtain ⟨result, hresult, hfollow⟩ := @ih (loc ++ [first]) hup' (List.prefix_append _ _)
        ((List.prefix_append_right_inj _).2 hafter)
      refine ⟨result, hresult, fun u followLast links content hu hfile => ?_⟩
      have hnext : ∃ e, u.lookup (loc ++ [first]) = some e ∧ e.isLink = false := by
        by_cases hnil : after = []
        · rw [hnil, List.append_nil] at hfile
          exact ⟨_, hfile, rfl⟩
        · exact ⟨_, hu.directory_of_prefix hnil hfile, rfl⟩
      obtain ⟨e, he, hnot⟩ := hnext
      rw [follow_entry (hu.directory_of_prefix (by simp) he) hs he hnot]
      exact hfollow u followLast links content hu hfile

/-- A path to a file, or into a file, leads there whatever else there is in the tree. -/
theorem LeadsTo.resolve_of_file (h : t.LeadsTo p l) (ht : t.WellFormed)
    (hempty : p.isEmpty = false) (hx : x <+: l) {content : ByteArray}
    (hfile : t.lookup x = some (.file content)) :
    ∃ result : Except DiskError Spot, (result = .ok (.taken x) ∨ result = .error .notDirectory) ∧
      ∀ (u : FileTree) (followLast : Bool), Grows t u → u.WellFormed → u.LinkFree →
        u.resolve followLast p = result := by
  obtain ⟨there, rest, base, hsegments, hreach, hup, -, rfl⟩ := h
  -- the file is not on the way to what is there already
  have hbase : base <+: x := by
    rcases List.prefix_or_prefix_of_prefix hx (List.prefix_append base (plain rest)) with
      ⟨more, rfl⟩ | hbase
    · by_cases hmore : more = []
      · simp [hmore]
      · obtain ⟨e, he, -⟩ := hreach.lookup ht ⟨.directory, ht.lookup_start p, rfl⟩
        rw [ht.directory_of_prefix hmore he] at hfile
        simp at hfile
    · exact hbase
  obtain ⟨result, hresult, hfollow⟩ := follow_of_file hup hbase hx
  refine ⟨result, hresult, fun u followLast hgrows hu hlinks => ?_⟩
  obtain ⟨content', hfile'⟩ := hgrows.file hfile
  have hreach' := hreach.grows hgrows
  have hstart : u.start p = t.start p := by rw [start, start, hgrows.workingDirectory]
  rw [resolve_eq hempty, hsegments, hstart, ← hfollow u followLast linkLimit content' hu hfile']
  by_cases hrest : rest = []
  · rw [hrest, List.append_nil, follow_nil, follow_eq_taken_iff]
    exact hreach'.last hlinks
  · obtain ⟨left, hleft⟩ := hreach'.append
    rw [hleft hrest, hfollow u followLast left content' hu hfile',
      hfollow u followLast linkLimit content' hu hfile']

/-- **If a file is in the way, no directory is made**, and the error is the same whatever else
there is in the tree. -/
theorem createDirectories_of_file (hd : d.Trimmed) (hempty : d.isEmpty = false)
    (h : t.LeadsTo d l) (ht : t.WellFormed) (hx : x <+: l) {content : ByteArray}
    (hfile : t.lookup x = some (.file content)) :
    ∃ e, ∀ u : FileTree, Grows t u → u.WellFormed → u.LinkFree →
      u.createDirectories d = (u, some e) := by
  obtain ⟨result, hresult, hresolve⟩ := h.resolve_of_file ht hempty hx hfile
  have hcomponents : d.components.isEmpty = false := by
    simpa using hd.components_ne_nil hempty
  obtain ⟨above, habove⟩ := Path.exists_upward_eq_cons (d.segments.length + 1) d
  have hunfold : ∀ {u : FileTree} {e : DiskError}, u.makeDirectory d = .error e →
      e ≠ .notFound → u.isDirectory d = false → u.createDirectories d = (u, some e) := by
    intro u e hmake hne hdirectory
    rw [createDirectories, Path.ancestors, habove, makeDirectories, hcomponents,
      if_neg (by simp), hmake]
    cases e <;> simp_all
  rcases hresult with rfl | rfl
  · refine ⟨.alreadyThere, fun u hgrows hu hlinks => hunfold ?_ (by simp) ?_⟩
    · rw [makeDirectory, hd.withoutSlash_eq, hresolve u false hgrows hu hlinks]
    · obtain ⟨content', hfile'⟩ := hgrows.file hfile
      simp [isDirectory, holds, entryAt, locate, hresolve u true hgrows hu hlinks, hfile',
        Entry.isDirectory]
  · refine ⟨.notDirectory, fun u hgrows hu hlinks => hunfold ?_ (by simp) ?_⟩
    · rw [makeDirectory, hd.withoutSlash_eq, hresolve u false hgrows hu hlinks]
    · simp [isDirectory, holds, entryAt, locate, hresolve u true hgrows hu hlinks]

/-! ## A name in a directory that may still have to be made -/

/-- A path ends with a name, and what stands before it leads to a location. -/
structure EndsIn (t : FileTree) (p : Path) (above : Location) (s : String) : Prop where
  /-- What stands before the name leads there. -/
  exists_front : ∃ front, p.segments = front ++ [s] ∧ t.LeadsTo ⟨p.rooted, front⟩ above
  /-- The last segment is a name. -/
  isPlain : IsPlain s

/-- Segments that lead past a location where nothing stands lead nowhere. -/
theorem follow_of_missing {s : String} (hs : IsPlain s) (hup : ".." ∉ segments)
    (hclear : t.Clear (loc ++ plain segments)) (hloc : t.lookup loc = some .directory)
    (hnone : t.lookup (loc ++ plain segments) = none) :
    t.follow followLast links loc (segments ++ [s]) = .error .notFound := by
  induction segments generalizing loc with
  | nil => simp [hloc] at hnone
  | cons first rest ih =>
    have hup' : ".." ∉ rest := fun hrest => hup (List.mem_cons_of_mem _ hrest)
    rw [List.cons_append]
    by_cases hidle : Path.isIdle first = true
    · rw [plain_cons_of_idle hidle] at hclear hnone
      rw [follow_idle hloc hidle, ih hup' hclear hloc hnone]
    · have hfirst : IsPlain first := ⟨by simpa using hidle, fun heq => hup (by simp [heq])⟩
      rw [plain_cons_of_isPlain hfirst, List.append_cons] at hclear hnone
      rcases hclear (loc ++ [first]) (List.prefix_append _ _) with hmissing | hdir
      · rw [follow_missing hloc hfirst hmissing, if_neg (by simp), if_neg]
        have hne := Path.ne_empty_of_not_isIdle hs.1
        simp [hne]
      · rw [follow_entry hloc hfirst hdir rfl, ih hup' hclear hdir hnone]

namespace EndsIn

variable {above : Location} {s : String}

theorem isEmpty (h : t.EndsIn p above s) : p.isEmpty = false := by
  obtain ⟨⟨front, hsegments, -⟩, hs⟩ := h
  rw [Path.isEmpty, hsegments, Bool.and_eq_false_iff, beq_eq_false_iff_ne]
  exact .inr fun heq =>
    Path.ne_empty_of_not_isIdle hs.1 (by simpa using congrArg List.getLast? heq)

theorem leadsTo (h : t.EndsIn p above s) (hlinks : t.LinkFree) : t.LeadsTo p (above ++ [s]) := by
  obtain ⟨⟨front, hsegments, hfront⟩, hs⟩ := h
  exact hfront.concat hlinks hs rfl hsegments

theorem grows (h : t.EndsIn p above s) (hu : Grows t u) (hlinks : u.LinkFree) :
    u.EndsIn p above s := by
  obtain ⟨⟨front, hsegments, hfront⟩, hs⟩ := h
  exact ⟨⟨front, hsegments, hfront.grows hu fun hlink => absurd hlink (hlinks _ _)⟩, hs⟩

/-- **A path into a directory leads to what stands under its last name**, or to a vacant
place. -/
theorem resolve_of_directory (h : t.EndsIn p above s) (ht : t.WellFormed) (hlinks : t.LinkFree)
    (hdir : t.lookup above = some .directory) :
    t.resolve followLast p = .ok (if t.lookup (above ++ [s]) = none then .vacant (above ++ [s])
      else .taken (above ++ [s])) := by
  have hempty := h.isEmpty
  obtain ⟨⟨front, hsegments, hfront⟩, hs⟩ := h
  obtain ⟨left, hleft⟩ := (hfront.reaches ht hdir).append
  rw [resolve_eq hempty, hsegments]
  refine (hleft (by simp)).trans ?_
  cases he : t.lookup (above ++ [s]) with
  | none => rw [follow_missing hdir hs he, if_pos (by simp), if_pos rfl]
  | some e => rw [follow_entry hdir hs he (hlinks.isLink he), follow_nil, if_neg (by simp)]

/-- A path into a directory that is not there leads nowhere. -/
theorem resolve_of_missing (h : t.EndsIn p above s) (ht : t.WellFormed)
    (hclear : t.Clear above) (hnone : t.lookup above = none) :
    t.resolve followLast p = .error .notFound := by
  have hempty := h.isEmpty
  obtain ⟨⟨front, hsegments, there, rest, base, hfront, hreach, hup, -, rfl⟩, hs⟩ := h
  obtain ⟨left, hleft⟩ := hreach.append
  obtain ⟨e, he, -⟩ := hreach.lookup ht ⟨.directory, ht.lookup_start _, rfl⟩
  have hbase : t.lookup base = some .directory :=
    (hclear base (List.prefix_append _ _)).resolve_left (by simp [he])
  have hfront : front = there ++ rest := hfront
  rw [resolve_eq hempty, hsegments, hfront, List.append_assoc]
  exact (hleft (by simp)).trans (follow_of_missing hs hup hclear hbase hnone)

end EndsIn

/-- A trimmed path that leads where nothing stands ends with a name. -/
theorem LeadsTo.exists_endsIn (h : t.LeadsTo d l) (ht : t.WellFormed) (hlinks : t.LinkFree)
    (hd : d.Trimmed) (hnone : t.lookup l = none) :
    ∃ above s, t.EndsIn d above s ∧ l = above ++ [s] := by
  have hspelled := h.eq_spelled hlinks
  have hstart : (∀ s ∈ d.segments, Path.isIdle s = true) → False := by
    intro hidles
    rw [hspelled, spelled, foldl_spellStep_of_idle hidles, ht.lookup_start] at hnone
    simp at hnone
  rcases hd with hd | hd | ⟨front, s, hd, hs⟩
  · exact (hstart (by simp [hd, Path.isIdle_empty])).elim
  · exact (hstart (by simp [hd]; rfl)).elim
  obtain ⟨there, rest, base, hsegments, hreach, hup, -, rfl⟩ := h
  rcases List.eq_nil_or_concat rest with rfl | ⟨rest, last, rfl⟩
  · obtain ⟨e, he, -⟩ := hreach.lookup ht ⟨.directory, ht.lookup_start d, rfl⟩
    simp [he] at hnone
  rw [List.concat_eq_append] at hup hsegments ⊢
  rw [hd, ← List.append_assoc] at hsegments
  obtain ⟨rfl, hlast⟩ := List.append_inj' hsegments rfl
  obtain rfl : s = last := by simpa using hlast
  have hplain : IsPlain s := ⟨hs, by rintro rfl; simp at hup⟩
  refine ⟨base ++ plain rest, s, ⟨⟨_, hd, there, rest, base, rfl, hreach, ?_, ?_, rfl⟩, hplain⟩, ?_⟩
  · exact fun hmem => hup (List.mem_append_left _ hmem)
  · exact hlinks.straight _ _
  · rw [plain_append, plain_cons_of_isPlain hplain, plain_nil, List.append_assoc]

/-! ## Making what is missing -/

theorem not_concat_prefix_self (l : Location) (s : String) : ¬l ++ [s] <+: l := by
  intro h
  have hlength := h.length_le
  rw [List.length_append, List.length_singleton] at hlength
  omega

/-- A tree with all directories down to a location, and otherwise as it was. -/
structure Opens (t : FileTree) (l : Location) (u : FileTree) : Prop where
  /-- The tree stands for a disk. -/
  wellFormed : u.WellFormed
  /-- There is no link in it. -/
  linkFree : u.LinkFree
  /-- The working directory is the same. -/
  workingDirectory : u.workingDirectory = t.workingDirectory
  /-- The directories are there. -/
  above : ∀ x, x <+: l → u.lookup x = some .directory
  /-- Nothing else changes. -/
  elsewhere : ∀ x, ¬x <+: l → u.lookup x = t.lookup x

namespace Opens

theorem refl (ht : t.WellFormed) (hlinks : t.LinkFree) (hdir : t.lookup l = some .directory) :
    Opens t l t :=
  ⟨ht, hlinks, rfl, fun _ hx => ht.directory_above hdir hx, fun _ _ => rfl⟩

theorem trans {v : FileTree} (h : Opens t x u) (h' : Opens u l v) (hx : x <+: l) :
    Opens t l v :=
  ⟨h'.wellFormed, h'.linkFree, h'.workingDirectory.trans h.workingDirectory, h'.above,
    fun y hy => (h'.elsewhere y hy).trans (h.elsewhere y fun hyx => hy (hyx.trans hx))⟩

/-- Where nothing was in the way, everything stays. -/
theorem grows (h : Opens t l u) (hclear : t.Clear l) : Grows t u := by
  refine ⟨h.workingDirectory, fun {x e} he => ?_⟩
  by_cases hx : x <+: l
  · obtain rfl : e = .directory := by
      rcases hclear x hx with hnone | hdir
      · simp [hnone] at he
      · exact Option.some.inj (he.symm.trans hdir)
    rw [h.above x hx]
    rfl
  · rw [h.elsewhere x hx, he]
    rfl

/-- A directory is made in one that is there. -/
theorem put {s : String} (ht : t.WellFormed) (hlinks : t.LinkFree)
    (hdir : t.lookup l = some .directory) (hname : IsName s)
    (hnone : t.lookup (l ++ [s]) = none) : Opens t (l ++ [s]) (t.put (l ++ [s]) .directory) := by
  refine ⟨ht.put (by simp) (by simpa using hdir) ?_ (by simp [hnone]) _, hlinks.put rfl _, rfl,
    fun x hx => ?_, fun x hx => ?_⟩
  · intro x hx
    rcases List.mem_append.1 hx with hx | hx
    · exact ht.isName hdir x hx
    · exact List.mem_singleton.1 hx ▸ hname
  · rcases List.prefix_concat_iff.1 hx with rfl | hx
    · exact lookup_put t _ (by simp)
    · rw [lookup_put_of_ne, ht.directory_above hdir hx]
      rintro rfl
      exact not_concat_prefix_self _ _ hx
  · exact lookup_put_of_ne t _ fun heq => hx (heq ▸ List.prefix_refl _)

end Opens

/-- A directory is made in one that is there. -/
theorem makeDirectory_of_vacant {above : Location} {s : String} (hd : d.Trimmed)
    (hslash : ∀ s ∈ d.segments, '/' ∉ s.toList) (h : t.EndsIn d above s) (ht : t.WellFormed)
    (hlinks : t.LinkFree) (hdir : t.lookup above = some .directory)
    (hnone : t.lookup (above ++ [s]) = none) :
    ∃ u, t.makeDirectory d = .ok u ∧ Opens t (above ++ [s]) u := by
  have hresolve := @EndsIn.resolve_of_directory t false _ _ _ h ht hlinks hdir
  rw [if_pos hnone] at hresolve
  refine ⟨t.put (above ++ [s]) .directory, ?_, .put ht hlinks hdir ⟨h.isPlain, ?_⟩ hnone⟩
  · rw [makeDirectory, hd.withoutSlash_eq, hresolve]
    rfl
  · obtain ⟨front, hsegments, -⟩ := h.exists_front
    exact hslash s (by simp [hsegments])

/-- Where a path leads to a directory, nothing is made. -/
theorem LeadsTo.makeDirectories (h : t.LeadsTo d l) (ht : t.WellFormed)
    (hdir : t.lookup l = some .directory) (above : List Path) :
    t.makeDirectories (d :: above) = (t, none) := by
  by_cases hempty : d.isEmpty = true
  · obtain ⟨hrooted, hsegments⟩ : d.rooted = false ∧ d.segments = [""] := by
      simpa [Path.isEmpty] using hempty
    have hnone : d.components = [] := by
      simp [Path.components, hrooted, hsegments, Path.component?, Path.isIdle_empty]
    rw [FileTree.makeDirectories, hnone]
    rfl
  · exact makeDirectories_of_isDirectory (h.isDirectory ht hdir (by simpa using hempty)) above

/-- What is missing on the way to a directory is made, if there are as many paths above it in
the list as names are missing. -/
theorem makeDirectories_of_clear {n : Nat} (hd : d.Trimmed)
    (hslash : ∀ s ∈ d.segments, '/' ∉ s.toList) (h : t.LeadsTo d l) (ht : t.WellFormed)
    (hlinks : t.LinkFree) (hclear : t.Clear l)
    (hway : ∃ way, way <+: l ∧ t.lookup way = some .directory ∧ l.length ≤ way.length + n) :
    ∃ u, t.makeDirectories (Path.upward n d) = (u, none) ∧ Opens t l u := by
  induction n generalizing d l with
  | zero =>
    obtain ⟨way, hway, hdir, hlength⟩ := hway
    obtain rfl := hway.eq_of_length (Nat.le_antisymm hway.length_le (by omega))
    exact ⟨t, h.makeDirectories ht hdir [], .refl ht hlinks hdir⟩
  | succ n ih =>
    obtain ⟨way, hway, hwayDir, hlength⟩ := hway
    rcases hclear l (List.prefix_refl l) with hnone | hdir
    swap
    · obtain ⟨above, habove⟩ := Path.exists_upward_eq_cons (n + 1) d
      exact ⟨t, habove ▸ h.makeDirectories ht hdir above, .refl ht hlinks hdir⟩
    obtain ⟨l', s, hends, rfl⟩ := h.exists_endsIn ht hlinks hd hnone
    have hl' : l' <+: l' ++ [s] := List.prefix_append _ _
    rw [List.length_append, List.length_singleton] at hlength
    obtain ⟨front, hsegments, hfront⟩ := hends.exists_front
    obtain ⟨q, hq, htrims⟩ := Path.parent?_of_not_isIdle hsegments hends.isPlain.1
    have hupward : Path.upward (n + 1) d = d :: Path.upward n q := by rw [Path.upward, hq]
    have hcomponents : d.components.isEmpty = false := by
      simpa using hd.components_ne_nil hends.isEmpty
    rw [hupward, FileTree.makeDirectories, hcomponents, if_neg (by simp)]
    rcases hclear l' hl' with hnone' | hdir'
    · -- the directory above is missing as well, and is made first
      have hmissing := @EndsIn.resolve_of_missing t false _ _ _ hends ht (hclear.of_prefix hl')
        hnone'
      have hmake : t.makeDirectory d = .error .notFound := by
        rw [makeDirectory, hd.withoutSlash_eq, hmissing]
      have hway' : way <+: l' := by
        rcases List.prefix_concat_iff.1 hway with rfl | hway
        · simp [hnone] at hwayDir
        · exact hway
      obtain ⟨u, hu, hopens⟩ := ih (.of_parent? hq) ((Path.StartsAs.of_parent? hq).slashFree hslash)
        (hfront.of_trims ht hlinks htrims) (hclear.of_prefix hl')
        ⟨way, hway', hwayDir, by omega⟩
      have hgrows := hopens.grows (hclear.of_prefix hl')
      have hnone'' : u.lookup (l' ++ [s]) = none := by
        rw [hopens.elsewhere _ (not_concat_prefix_self l' s), hnone]
      obtain ⟨v, hv, hopens'⟩ := makeDirectory_of_vacant hd hslash
        (hends.grows hgrows hopens.linkFree) hopens.wellFormed hopens.linkFree
        (hopens.above l' (List.prefix_refl _)) hnone''
      refine ⟨v, ?_, hopens.trans hopens' hl'⟩
      rw [hmake]
      simp only [hu, hv]
    · obtain ⟨u, hu, hopens⟩ := makeDirectory_of_vacant hd hslash hends ht hlinks hdir' hnone
      exact ⟨u, by rw [hu], hopens⟩

/-- **If nothing is in the way, a directory is made with what is missing above it.** -/
theorem createDirectories_of_clear (hd : d.Trimmed)
    (hslash : ∀ s ∈ d.segments, '/' ∉ s.toList) (h : t.LeadsTo d l) (ht : t.WellFormed)
    (hlinks : t.LinkFree) (hclear : t.Clear l) :
    ∃ u, t.createDirectories d = (u, none) ∧ Opens t l u := by
  refine makeDirectories_of_clear hd hslash h ht hlinks hclear ?_
  -- a first part of the path leads to a directory already
  obtain ⟨there, rest, base, hsegments, hreach, -, -, rfl⟩ := h
  obtain ⟨e, he, -⟩ := hreach.lookup ht ⟨.directory, ht.lookup_start d, rfl⟩
  refine ⟨base, List.prefix_append _ _,
    (hclear base (List.prefix_append _ _)).resolve_left (by simp [he]), ?_⟩
  have hlength : (plain rest).length ≤ rest.length := List.length_filter_le _ _
  rw [hsegments, List.length_append, List.length_append]
  omega

/-! ## A file in such a directory -/

namespace EndsIn

variable {above : Location} {s : String}

theorem writeText (h : t.EndsIn p above s) (ht : t.WellFormed) (hlinks : t.LinkFree)
    (hdir : t.lookup above = some .directory) (text : String) :
    t.writeText p text =
      if t.lookup (above ++ [s]) = some .directory then .error .isDirectory
      else .ok (t.put (above ++ [s]) (.file text.toUTF8)) := by
  obtain ⟨front, hsegments, -⟩ := h.exists_front
  obtain ⟨hsame, hslash⟩ :=
    Path.withoutSlash_of_ne_empty hsegments (Path.ne_empty_of_not_isIdle h.isPlain.1)
  have hresolve := @resolve_of_directory t true _ _ _ h ht hlinks hdir
  rw [FileTree.writeText, hsame, hslash, Bool.not_false, hresolve]
  cases he : t.lookup (above ++ [s]) with
  | none => simp [Spot.loc, he]
  | some e => simp [Spot.loc, he]

/-- **A path with a name at its end gives the text of the file that stands there.** -/
theorem readText_eq_ok_iff (h : t.EndsIn p above s) (ht : t.WellFormed) (hlinks : t.LinkFree)
    {text : String} :
    t.readText p = .ok text ↔ t.lookup (above ++ [s]) = some (.file text.toUTF8) := by
  rw [FileTree.readText_eq_ok_iff]
  constructor
  · rintro ⟨l, hl, hfile⟩
    rwa [← (h.leadsTo hlinks).eq_of_locate hl]
  · intro hfile
    have hdir := ht.directory_of_prefix (by simp) hfile
    refine ⟨above ++ [s], ?_, hfile⟩
    rw [locate, @resolve_of_directory t true _ _ _ h ht hlinks hdir, if_neg (by simp [hfile])]

end EndsIn

end FileTree
end Restyle
