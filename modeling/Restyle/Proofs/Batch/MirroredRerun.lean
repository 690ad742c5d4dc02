import Restyle.Proofs.Batch.Mirrored

/-!
# Running a batch under an output root again

After a first run the cache remembers the lengths of the results, and the second run
compares them with the lengths of the files that it reads.  A file that has the length of
its formatted text, without being it, is taken for formatted: the second run writes the
file as it is over its result.  Where there is no such file, the second run does nothing.

* `retaken`: what the second run takes for the formatted text of a file.
* `visit_again`: what a visit of the second run does.  `lookup_visitAll_again`: so for all
  its visits.
* `goes_again`: the second run as a sequence of visits.
* `run_mirrored_again`: what the second run leaves, and when it does nothing.
-/

namespace Restyle
namespace Batch

open FileTree (Adds Grows SameShape WellFormed)

variable {b : Batch} {t u left : FileTree} {root output c : Path} {l lr lo : Location}
  {names : List String} {pair : Path × Path} {order : List (Path × Path)}
  {source result : String}

theorem stamp_inj {style : Style} {m n : Nat} (h : stamp style m = stamp style n) : m = n := by
  unfold stamp at h
  rw [String.append_right_inj] at h
  have hdigits : Nat.toDigits 10 m = Nat.toDigits 10 n := by
    rw [← Nat.toList_repr, ← Nat.toList_repr]
    exact congrArg String.toList h
  rw [← @Nat.ofDigitChars_toDigits 10 m (by decide) (by decide), hdigits,
    Nat.ofDigitChars_toDigits (by decide) (by decide)]

/-- What a second run takes for the formatted text of a file: the file itself, if it has the
length of its formatted text. -/
def retaken (source result : String) : String :=
  if source.utf8ByteSize = result.utf8ByteSize then source else result

/-- The length tells whether a file is formatted: if it has the length of its formatted text,
it is this text. -/
def LengthTells (b : Batch) (t : FileTree) (p : Path) : Prop :=
  ∀ source result, t.readText p = .ok source →
    Formatting.format b.style b.rules source = .ok result →
    source.utf8ByteSize = result.utf8ByteSize → source = result

theorem lengthTells_iff {p : Path} (hsource : t.readText p = .ok source)
    (hresult : Formatting.format b.style b.rules source = .ok result) :
    LengthTells b t p ↔ retaken source result = result := by
  constructor
  · intro h
    unfold retaken
    split_ifs with hlength
    · exact h source result hsource hresult hlength
    · rfl
  · intro h source' result' hsource' hresult' hlength
    obtain rfl := Except.ok.inj (hsource.symm.trans hsource')
    obtain rfl := Except.ok.inj (hresult.symm.trans hresult')
    rwa [retaken, if_pos hlength] at h

/-- A tree differs from another one in the bytes of files below a location. -/
structure Rewrites (lo : Location) (t u : FileTree) : Prop where
  /-- Only bytes differ. -/
  shape : SameShape t u
  /-- The tree stands for a disk. -/
  wellFormed : u.WellFormed
  /-- Nothing differs elsewhere. -/
  elsewhere : ∀ {l : Location}, ¬lo <+: l → u.lookup l = t.lookup l

theorem Rewrites.put (h : Rewrites lo t u) (hl : lo <+: l) {content : ByteArray}
    (hfile : u.lookup l = some (.file content)) (new : ByteArray) :
    Rewrites lo t (u.put l (.file new)) := by
  refine ⟨h.shape.trans (.put h.wellFormed hfile), h.wellFormed.put_file hfile new,
    fun {l'} hl' => ?_⟩
  have hne : l' ≠ l := by
    rintro rfl
    exact hl' hl
  rw [FileTree.lookup_put_of_ne _ _ hne, h.elsewhere hl']

namespace FirstRun

variable {schedule schedule' : Schedule Books}
  (h : FirstRun b t root output c schedule lr lo left)
include h

/-! ## What the second run visits -/

/-- The root is no link. -/
theorem locate_root : t.locate false root = .ok lr := by
  obtain ⟨hempty, hreach⟩ := FileTree.locate_eq_ok_iff.1 h.apart.reads
  obtain ⟨l, hl⟩ := hreach.without_last
  have hlocate : t.locate false root = .ok l := FileTree.locate_eq_ok_iff.2 ⟨hempty, hl⟩
  have hnot : ∀ target, t.lookup l ≠ some (.link target) := by
    intro target hlink
    have haccepted := h.accepted
    rw [rejection?, FileTree.entryAt_eq_ok_iff.2 ⟨l, hlocate, hlink⟩] at haccepted
    simp [Entry.isLink, h.links] at haccepted
  have htrue := FileTree.locate_true_of_not_link hlocate hnot
  rw [hlocate, Except.ok.inj (h.apart.reads.symm.trans htrue)]

/-- Results belong to the same paths as before. -/
theorem target_left (heligible : Walk.Eligible t b.selection root lr [] names) :
    Walk.target left root output names = Walk.target t root output names := by
  by_cases hnil : names = []
  swap
  · rw [Walk.target, Walk.target, if_neg hnil, if_neg hnil]
  have hsingle : ∀ u : FileTree, u.isDirectory output = false →
      Walk.target u root output names = output := by
    intro u hdir
    rw [Walk.target, if_pos hnil, Walk.singleTarget, hdir]
    cases root.fileName? <;> simp
  cases hdir : t.isDirectory output with
  | true =>
    have hdir' := FileTree.isDirectory_of_grows h.alike_left.grows hdir
    simp only [Walk.target, if_pos hnil, Walk.singleTarget, hdir, hdir']
  | false =>
    -- the output root is the result, and a result is no directory
    have hpair : (root.below names, output) ∈
        Walk.files (Walk.finds t b.selection root output) :=
      (Walk.mem_files_finds h.apart.wellFormed h.links h.apart.properRoot).2
        ⟨lr, names, h.locate_root, heligible, rfl, (hsingle t hdir).symm⟩
    obtain ⟨-, result, -, -, hread⟩ := h.holds_left hpair
    obtain ⟨l, hl, hfile⟩ := FileTree.readText_eq_ok_iff.1 hread
    have hdir' : left.isDirectory output = false := by
      rw [Bool.eq_false_iff]
      intro hdir'
      obtain ⟨l', hl', hlookup⟩ := FileTree.isDirectory_iff.1 hdir'
      obtain rfl := Except.ok.inj (hl.symm.trans hl')
      rw [hfile] at hlookup
      simp at hlookup
    rw [hsingle t hdir, hsingle left hdir']

/-- The second run finds the same files. -/
theorem mem_files_left : pair ∈ Walk.files (Walk.finds left b.selection root output) ↔
    pair ∈ Walk.files (Walk.finds t b.selection root output) :=
  Walk.mem_files_of_alike h.apart.wellFormed h.links h.apart.properRoot h.locate_root
    h.alike_left fun _ => h.target_left

theorem mem_order_again (hfair : schedule'.IsFair) :
    pair ∈ b.orderOf left (some output) (root, schedule') ↔
      pair ∈ Walk.files (Walk.finds t b.selection root output) := by
  have halike := h.alike_left
  obtain ⟨e, he, -⟩ := h.apart.wellFormed.lookup_of_locate h.locate_root
  obtain ⟨e', he', hshape⟩ : ∃ e', left.lookup lr = some e' ∧ e'.shape = e.shape := by
    simpa [he] using halike.shape (List.prefix_refl lr)
  have haccepted : b.rejection? left root = none := by
    rw [rejection?_of_shape h.links (FileTree.entryAt_eq_ok_iff.2 ⟨lr, h.locate_root, he⟩)
      (FileTree.entryAt_eq_ok_iff.2
        ⟨lr, FileTree.locate_of_grows halike.grows h.locate_root, he'⟩) hshape, h.accepted]
  rw [mem_orderOf hfair, Option.getD_some, h.mem_files_left]
  exact and_iff_right haccepted

/-! ## What the second run does -/

section Visit

variable (hpair : pair ∈ Walk.files (Walk.finds t b.selection root output))
  (hplaced : Placed t b.selection root output lr lo pair names l)
  (hsource : t.readText pair.1 = .ok source)
  (hresult : Formatting.format b.style b.rules source = .ok result)
  (hu : Rewrites lo left u)
include hpair hplaced hsource hresult hu

/-- **What a visit of the second run does**: it puts what it takes for the formatted text at
the place of the result, unless it is there already. -/
theorem visit_again :
    (u.lookup l = some (.file (retaken source result).toUTF8) ∧
      b.visit (b.snapshot left) u pair.1 pair.2 =
        (u, ⟨.upToDate, b.entryFor (b.snapshot left) pair.1 (retaken source result)⟩)) ∨
    (u.lookup l ≠ some (.file (retaken source result).toUTF8) ∧ Rewrites lo left
        (u.put l (.file (retaken source result).toUTF8)) ∧
      b.visit (b.snapshot left) u pair.1 pair.2 =
        (u.put l (.file (retaken source result).toUTF8),
          ⟨.written, b.entryFor (b.snapshot left) pair.1 (retaken source result)⟩)) := by
  have hread : u.readText pair.1 = .ok source := by
    have hlocate := FileTree.locate_of_grows h.alike_left.grows (hplaced.locate_input h.apart)
    rw [← hsource, ← h.readText_left hplaced]
    exact FileTree.readText_congr hlocate (by rw [hu.shape.locate, hlocate])
      (hu.elsewhere (h.apart.not_prefix (List.prefix_append lr names)))
  have hformatted : b.formatted (remembered (b.snapshot left) pair.1) pair.1 source =
      .ok (retaken source result) := by
    rw [h.remembered_left hpair hsource hresult, formatted, retaken]
    by_cases hlength : source.utf8ByteSize = result.utf8ByteSize
    · rw [hlength, if_pos rfl, if_pos rfl]
    · have hstamp : some (stamp b.style result.utf8ByteSize) ≠
          some (stamp b.style source.utf8ByteSize) :=
        fun heq => hlength (stamp_inj (Option.some.inj heq)).symm
      rw [if_neg hstamp, hresult, if_neg hlength]
  obtain ⟨_, _, -, -, hl, hfile⟩ := h.place_left hpair hplaced
  obtain ⟨content, hfile'⟩ := hu.shape.grows.file hfile
  have hl' : u.locate true pair.2 = .ok l := by rw [hu.shape.locate, hl]
  have hthere : isUpToDate u pair.1 pair.2 source (retaken source result) = true ↔
      u.lookup l = some (.file (retaken source result).toUTF8) := by
    rw [isUpToDate, hplaced.same_eq_false h.apart]
    simp only [Bool.false_eq_true, if_false]
    constructor
    · intro hthere
      split at hthere
      · rename_i existing hexisting
        obtain ⟨l', hl'', hfile''⟩ := FileTree.readText_eq_ok_iff.1 hexisting
        obtain rfl := Except.ok.inj (hl'.symm.trans hl'')
        rw [hfile'', show existing = retaken source result by simpa using hthere]
      · simp at hthere
    · intro hthere
      rw [FileTree.readText_eq_ok_iff.2 ⟨l, hl', hthere⟩]
      exact beq_self_eq_true _
  simp only [visit, hread, hformatted]
  by_cases hcontent : u.lookup l = some (.file (retaken source result).toUTF8)
  · exact .inl ⟨hcontent, by rw [if_pos (hthere.2 hcontent)]⟩
  · refine .inr ⟨hcontent, hu.put hplaced.below hfile' _, ?_⟩
    rw [if_neg (mt hthere.1 hcontent), h.dry, writeOutput_of_file hu.wellFormed hl' hfile']
    rfl

/-- What is where after a visit of the second run. -/
theorem lookup_visit_again :
    Rewrites lo left (b.visit (b.snapshot left) u pair.1 pair.2).1 ∧
      (b.visit (b.snapshot left) u pair.1 pair.2).1.lookup l =
        some (.file (retaken source result).toUTF8) ∧
      ∀ l', l' ≠ l → (b.visit (b.snapshot left) u pair.1 pair.2).1.lookup l' = u.lookup l' := by
  rcases h.visit_again hpair hplaced hsource hresult hu with
    ⟨hcontent, hvisit⟩ | ⟨-, hput, hvisit⟩
  · rw [hvisit]
    exact ⟨hu, hcontent, fun _ _ => rfl⟩
  · rw [hvisit]
    obtain ⟨_, _, -, -, -, hfile⟩ := h.place_left hpair hplaced
    have hne : l ≠ [] := by
      rintro rfl
      simp at hfile
    exact ⟨hput, FileTree.lookup_put _ _ hne, fun l' hl' => FileTree.lookup_put_of_ne _ _ hl'⟩

end Visit

/-- **What the visits of the second run do**: what a visit takes for the formatted text is at
the place of the result in the end, and nothing else changes. -/
theorem lookup_visitAll_again
    (horder : ∀ x ∈ order, x ∈ Walk.files (Walk.finds t b.selection root output))
    (hu : Rewrites lo left u) :
    Rewrites lo left (b.visitAll (b.snapshot left) u order).1 ∧
    (∀ pair ∈ order, ∀ names l, Placed t b.selection root output lr lo pair names l →
      ∀ source result, t.readText pair.1 = .ok source →
        Formatting.format b.style b.rules source = .ok result →
        (b.visitAll (b.snapshot left) u order).1.lookup l =
          some (.file (retaken source result).toUTF8)) ∧
    ∀ l, (∀ pair ∈ order, left.locate true pair.2 ≠ .ok l) →
      (b.visitAll (b.snapshot left) u order).1.lookup l = u.lookup l := by
  induction order generalizing u with
  | nil => exact ⟨hu, by simp, fun _ _ => rfl⟩
  | cons first rest ih =>
    have hfirst := horder first List.mem_cons_self
    obtain ⟨names, l, hplaced⟩ := exists_placed h.apart h.links hfirst
    obtain ⟨source, result, hsource, hresult, hl, -⟩ := h.place_left hfirst hplaced
    obtain ⟨hu', htaken, hkept⟩ := h.lookup_visit_again hfirst hplaced hsource hresult hu
    obtain ⟨hrewrites, hplaces, hothers⟩ :=
      ih (fun x hx => horder x (List.mem_cons_of_mem _ hx)) hu'
    rw [visitAll_cons]
    refine ⟨hrewrites, ?_, fun l' hl' => ?_⟩
    · intro pair hpair names' l' hplaced' source' result' hsource' hresult'
      by_cases hrest : pair ∈ rest
      · exact hplaces pair hrest names' l' hplaced' source' result' hsource' hresult'
      · -- no later visit goes to the place
        obtain rfl : pair = first := (List.mem_cons.1 hpair).resolve_right hrest
        obtain ⟨_, _, -, -, hl', -⟩ := h.place_left hfirst hplaced'
        obtain rfl := Except.ok.inj (hl.symm.trans hl')
        obtain rfl := Except.ok.inj (hsource.symm.trans hsource')
        obtain rfl := Except.ok.inj (hresult.symm.trans hresult')
        rw [hothers l, htaken]
        intro other hother hlocate
        obtain ⟨names'', l'', hplaced''⟩ := exists_placed h.apart h.links
          (horder other (List.mem_cons_of_mem _ hother))
        obtain ⟨_, _, -, -, hl'', -⟩ := h.place_left
          (horder other (List.mem_cons_of_mem _ hother)) hplaced''
        obtain rfl := Except.ok.inj (hlocate.symm.trans hl'')
        exact hrest (hplaced.inj h.apart hplaced'' ▸ hother)
    · rw [hothers l' fun x hx => hl' x (List.mem_cons_of_mem _ hx), hkept l']
      rintro rfl
      exact hl' first List.mem_cons_self hl

theorem rewrites_left : Rewrites lo left left :=
  ⟨.refl left, h.alike_left.wellFormed, fun _ => rfl⟩

/-- **The second run is a sequence of visits** to the same files. -/
theorem goes_again (hfair : schedule'.IsFair) :
    Goes b (b.snapshot left) (b.orderOf left (some output) (root, schedule'))
      ⟨left, { cache := b.snapshot left }, []⟩
      (b.reached left [(root, schedule')] (some output)) := by
  refine @goes_runRoot b (b.snapshot left) .none (some output) (root, schedule') hfair
    ⟨left, { cache := b.snapshot left }, []⟩ (Rewrites lo left) [] h.alike_left.wellFormed
    (fun u hu => Walk.alike_of_sameShape hu.wellFormed hu.shape) (.inl h.links)
    (fun _ => List.nil_prefix) ?_ h.rewrites_left
  intro pair hpair u hu
  replace hpair := h.mem_files_left.1 hpair
  obtain ⟨names, l, hplaced⟩ := exists_placed h.apart h.links hpair
  obtain ⟨source, result, hsource, hresult, -⟩ := h.place_left hpair hplaced
  exact (h.lookup_visit_again hpair hplaced hsource hresult hu).1

/-- **The second run writes nothing iff lengths tell which files are formatted.** -/
theorem written_again (hfair : schedule'.IsFair) :
    (b.runScheduled left [(root, schedule')] (some output)).1.written = 0 ↔
      ∀ pair ∈ Walk.files (Walk.finds t b.selection root output), LengthTells b t pair.1 := by
  have hvisit : ∀ pair ∈ Walk.files (Walk.finds t b.selection root output),
      ((b.visit (b.snapshot left) left pair.1 pair.2).2.outcome.writes = false ↔
        LengthTells b t pair.1) ∧
      ((b.visit (b.snapshot left) left pair.1 pair.2).2.outcome.writes = false →
        (b.visit (b.snapshot left) left pair.1 pair.2).1 = left) := by
    intro pair hpair
    obtain ⟨names, l, hplaced⟩ := exists_placed h.apart h.links hpair
    obtain ⟨source, result, hsource, hresult, -, hfile⟩ := h.place_left hpair hplaced
    have hbytes : left.lookup l = some (.file (retaken source result).toUTF8) ↔
        retaken source result = result := by
      rw [hfile, Option.some_inj, Entry.file.injEq]
      exact String.toByteArray_inj.trans eq_comm
    rw [lengthTells_iff hsource hresult, ← hbytes]
    rcases h.visit_again hpair hplaced hsource hresult h.rewrites_left with
      ⟨hcontent, hvisit⟩ | ⟨hcontent, -, hvisit⟩
    · exact ⟨by simpa [hvisit, Outcome.writes] using hcontent, fun _ => by rw [hvisit]⟩
    · exact ⟨by simpa [hvisit, Outcome.writes] using hcontent,
        fun hwrites => by simp [hvisit, Outcome.writes] at hwrites⟩
  have hgoes := h.goes_again hfair
  obtain ⟨entered, hperm, hbooks⟩ := hgoes.books
  rw [runScheduled_eq, hbooks, written_enterAll, Nat.zero_add, List.countP_eq_zero]
  constructor
  · intro hwrites pair hpair
    refine (hvisit pair hpair).1.1 ?_
    refine writes_eq_false_of_visitAll (fun x hx => (hvisit x ((h.mem_order_again hfair).1 hx)).2)
      (fun r hr => ?_) pair ((h.mem_order_again hfair).2 hpair)
    simpa using hwrites r (hperm.mem_iff.2 hr)
  · intro htells r hr
    have hcalm := @visitAll_of_calm b (b.snapshot left) left
      (b.orderOf left (some output) (root, schedule')) .none fun x hx => by
        have hx' := hvisit x ((h.mem_order_again hfair).1 hx)
        have hwrites := hx'.1.2 (htells x ((h.mem_order_again hfair).1 hx))
        exact ⟨hx'.2 hwrites, hwrites⟩
    simp [hcalm.2 r (hperm.mem_iff.1 hr)]

theorem rewrites_again (hfair : schedule'.IsFair) :
    Rewrites lo left (b.reached left [(root, schedule')] (some output)).tree := by
  rw [(h.goes_again hfair).tree]
  exact (h.lookup_visitAll_again (fun x hx => (h.mem_order_again hfair).1 hx) h.rewrites_left).1

theorem grows_again (hfair : schedule'.IsFair) :
    Grows left (b.runScheduled left [(root, schedule')] (some output)).2 := by
  have hrewrites := h.rewrites_again hfair
  rw [runScheduled_eq]
  exact hrewrites.shape.grows.trans
    (wellFormed_finish h.properCache _ hrewrites.wellFormed).2

/-- A file other than the cache file stays as it is when the second run ends. -/
theorem lookup_again {content : ByteArray} (hfair : schedule'.IsFair)
    (hl : left.locate true c ≠ .ok l)
    (hfile : (b.visitAll (b.snapshot left) left
      (b.orderOf left (some output) (root, schedule'))).1.lookup l = some (.file content)) :
    (b.runScheduled left [(root, schedule')] (some output)).2.lookup l =
      some (.file content) := by
  have hrewrites := h.rewrites_again hfair
  have htree := (h.goes_again hfair).tree
  rw [← htree] at hfile
  rw [runScheduled_eq]
  refine lookup_finish_of_unchanged h.properCache _ hrewrites.wellFormed hfile fun path hpath => ?_
  obtain rfl := Option.some.inj (h.cache.symm.trans hpath)
  rwa [hrewrites.shape.locate]


end FirstRun

/-- **Running a batch under an output root again.**  After a first run, without a fault and
with a cache that held nothing, every result is at its place.  The second run takes a file
that has the length of its formatted text for formatted:

* it puts such a file over its result, as it is, and leaves the other results alone;
* every other file but the cache file keeps its bytes;
* it writes nothing iff a file that has the length of its formatted text is this text. -/
theorem run_mirrored_again {schedule schedule' : Schedule Books}
    (h : FirstRun b t root output c schedule lr lo left) (hfair : schedule'.IsFair) :
    (∀ pair ∈ Walk.files (Walk.finds t b.selection root output),
      ∃ source result, t.readText pair.1 = .ok source ∧
        Formatting.format b.style b.rules source = .ok result ∧
        left.readText pair.2 = .ok result ∧
        (b.runScheduled left [(root, schedule')] (some output)).2.readText pair.2 =
          .ok (retaken source result)) ∧
    (∀ l content, left.lookup l = some (.file content) → left.locate true c ≠ .ok l →
      (∀ pair ∈ Walk.files (Walk.finds t b.selection root output),
        left.locate true pair.2 ≠ .ok l) →
      (b.runScheduled left [(root, schedule')] (some output)).2.lookup l =
        some (.file content)) ∧
    ((b.runScheduled left [(root, schedule')] (some output)).1.written = 0 ↔
      ∀ pair ∈ Walk.files (Walk.finds t b.selection root output), LengthTells b t pair.1) := by
  obtain ⟨-, hplaces, hothers⟩ := h.lookup_visitAll_again
    (fun x hx => (h.mem_order_again hfair).1 hx) h.rewrites_left
  refine ⟨fun pair hpair => ?_, fun l content hfile hl hplace => ?_, h.written_again hfair⟩
  · obtain ⟨names, l, hplaced⟩ := exists_placed h.apart h.links hpair
    obtain ⟨source, result, hsource, hresult, hl, hfile⟩ := h.place_left hpair hplaced
    refine ⟨source, result, hsource, hresult, FileTree.readText_eq_ok_iff.2 ⟨l, hl, hfile⟩, ?_⟩
    have hnot : left.locate true c ≠ .ok l := fun heq => (h.outside true l heq).2 hplaced.below
    have htaken := h.lookup_again hfair hnot (hplaces pair ((h.mem_order_again hfair).2 hpair)
      names l hplaced source result hsource hresult)
    exact FileTree.readText_eq_ok_iff.2
      ⟨l, FileTree.locate_of_grows (h.grows_again hfair) hl, htaken⟩
  · refine h.lookup_again hfair hl ?_
    rw [hothers l fun x hx => hplace x ((h.mem_order_again hfair).1 hx), hfile]

/-- A run over `src` with results in `out`. -/
def mirror (t : FileTree) : Report × FileTree :=
  (standard "cache.json").run t [Path.ofText "src"] (some (Path.ofText "out"))

/-- Over a tree with one file, that is a first run. -/
theorem firstRun_mirror {text : String} (ht : (oneFile text).WellFormed)
    (hfaults : (mirror (oneFile text)).1.faults = [])
    (hcache : ∀ followLast, (mirror (oneFile text)).2.locate followLast
      (Path.ofText "cache.json") = .ok ["cache.json"]) :
    FirstRun (standard "cache.json") (oneFile text) (Path.ofText "src") (Path.ofText "out")
      (Path.ofText "cache.json") {} ["src"] ["out"] (mirror (oneFile text)).2 := by
  have hlinks : ∀ l target, (oneFile text).lookup l ≠ some (.link target) := by
    intro l target hlink
    have hne : l ≠ [] := by
      rintro rfl
      simp at hlink
    simpa [oneFile] using FileTree.mem_entries_of_lookup hlink hne
  have hapart : Apart (oneFile text) (Path.ofText "src") (Path.ofText "out") ["src"] ["out"] := by
    refine ⟨ht, Path.proper_ofText _, Path.proper_ofText _, rfl, ?_, by decide, by decide,
      fun l target _ => hlinks l target⟩
    exact ⟨[], ["out"], [], rfl, .here, by decide, fun way target _ _ => hlinks _ target, rfl⟩
  refine ⟨hapart, rfl, rfl, rfl, rfl, Path.proper_ofText _, rfl,
    ⟨fun _ => .refl _, fun _ => .refl _⟩, rfl, hfaults, fun followLast lc hlc => ?_⟩
  obtain rfl := Except.ok.inj ((hcache followLast).symm.trans hlc)
  exact ⟨by decide, by decide⟩

set_option maxRecDepth 10000 in
/-- A file that gets shorter: the second run leaves its result alone. -/
theorem run_mirrored_again_shorter :
    FirstRun (standard "cache.json") (oneFile "a   b") (Path.ofText "src") (Path.ofText "out")
      (Path.ofText "cache.json") {} ["src"] ["out"] (mirror (oneFile "a   b")).2 ∧
    (mirror (oneFile "a   b")).1.written = 1 ∧
    (mirror (mirror (oneFile "a   b")).2).1.written = 0 := by
  have h := @firstRun_mirror "a   b" (by decide +kernel) (by decide +kernel) (by
    intro followLast
    cases followLast <;> decide +kernel)
  refine ⟨h, by decide +kernel, ?_⟩
  refine (@run_mirrored_again _ _ _ _ _ _ _ _ {} {} h
    ⟨fun _ => .refl _, fun _ => .refl _⟩).2.2.2 ?_
  have hfiles : Walk.files (Walk.finds (oneFile "a   b") (standard "cache.json").selection
      (Path.ofText "src") (Path.ofText "out")) =
        [(Path.ofText "src/a.swift", Path.ofText "out/a.swift")] := by decide +kernel
  rw [hfiles]
  intro pair hpair
  obtain rfl := List.mem_singleton.1 hpair
  refine (@lengthTells_iff _ _ "a   b" "a b\n" _ ?_ ?_).2 (by decide +kernel)
  · decide +kernel
  · decide +kernel

set_option maxRecDepth 10000 in
/-- **A file that keeps its length**: the second run writes it over its result as it is. -/
theorem run_mirrored_again_sameLength :
    FirstRun (standard "cache.json") (oneFile "a  b") (Path.ofText "src") (Path.ofText "out")
      (Path.ofText "cache.json") {} ["src"] ["out"] (mirror (oneFile "a  b")).2 ∧
    (mirror (oneFile "a  b")).2.readText (Path.ofText "out/a.swift") = .ok "a b\n" ∧
    (mirror (mirror (oneFile "a  b")).2).1.written = 1 ∧
    (mirror (mirror (oneFile "a  b")).2).2.readText (Path.ofText "out/a.swift") = .ok "a  b" := by
  refine ⟨firstRun_mirror (by decide +kernel) (by decide +kernel) ?_, by decide +kernel⟩
  intro followLast
  cases followLast <;> decide +kernel

end Batch
end Restyle
