import Restyle.Proofs.Batch.Visits
import Restyle.Proofs.FileTree.Agreement
import Restyle.Proofs.FileTree.Clearing

/-!
# Visits that do not touch each other

In a tree without links a visit reads one file and writes to one place, with the directories
above it.  What comes of it depends on the file, on what stands at the place, and on whether
a file is in the way of the directories.  Two visits that neither read nor write each other's
places nor each other's files can be made in any order: both leave the same records, and the
trees agree in the end.

* `writeOutput_of_open`, `writeOutput_of_blocked`: what writing a result does.
* `visit_beside`: what a visit does, in every tree that is the same for it.
* `visit_comm`: two independent visits commute.
* `visitAll_perm`: so do all visits of an order, if any two of them are independent.
-/

namespace Restyle
namespace Batch

open FileTree (Agrees Grows IsName Opens not_concat_prefix_self)

variable {b : Batch} {snapshot : Option Cache} {t u v : FileTree} {o : Path}
  {l source above source' above' : Location} {s s' text : String}
  {pair first second : Path × Path} {order order' : List (Path × Path)}

/-! ## Trees that agree -/

section Agreement

variable (h : Agrees t u)
include h

theorem writeOutput_agrees (o : Path) (text : String) :
    Agrees (writeOutput t o text).1 (writeOutput u o text).1 ∧
      (writeOutput u o text).2 = (writeOutput t o text).2 := by
  unfold writeOutput
  cases o.parent?.filter (!·.isEmpty) with
  | none =>
    have hwrite := @Agrees.writeText t u o h text
    simp only
    generalize t.writeText o text = result at hwrite ⊢
    generalize u.writeText o text = result' at hwrite ⊢
    cases hwrite with
    | error e => exact ⟨h, rfl⟩
    | ok h' => exact ⟨h', rfl⟩
  | some directory =>
    obtain ⟨hmade, herror⟩ := @Agrees.createDirectories t u directory h
    simp only
    generalize t.createDirectories directory = made at hmade herror ⊢
    generalize u.createDirectories directory = made' at hmade herror ⊢
    obtain ⟨t', error⟩ := made
    obtain ⟨u', error'⟩ := made'
    simp only at hmade herror
    subst herror
    cases error' with
    | some e => exact ⟨hmade, rfl⟩
    | none =>
      have hwrite := @Agrees.writeText t' u' o hmade text
      simp only [Option.map_none]
      generalize t'.writeText o text = result at hwrite ⊢
      generalize u'.writeText o text = result' at hwrite ⊢
      cases hwrite with
      | error e => exact ⟨hmade, rfl⟩
      | ok h' => exact ⟨h', rfl⟩

/-- **A visit does the same to trees that agree.** -/
theorem visit_agrees (pair : Path × Path) :
    Agrees (b.visit snapshot t pair.1 pair.2).1 (b.visit snapshot u pair.1 pair.2).1 ∧
      (b.visit snapshot u pair.1 pair.2).2 = (b.visit snapshot t pair.1 pair.2).2 := by
  have hupToDate : ∀ source result,
      isUpToDate u pair.1 pair.2 source result = isUpToDate t pair.1 pair.2 source result := by
    intro source result
    simp only [isUpToDate, @Agrees.readText t u pair.2 h]
  unfold visit
  rw [@Agrees.readText t u pair.1 h]
  cases t.readText pair.1 with
  | error e => exact ⟨h, rfl⟩
  | ok source =>
    simp only
    cases b.formatted (remembered snapshot pair.1) pair.1 source with
    | error f => exact ⟨h, rfl⟩
    | ok result =>
      simp only [hupToDate]
      split_ifs
      · exact ⟨h, rfl⟩
      · exact ⟨h, rfl⟩
      · obtain ⟨hwritten, hfault⟩ := writeOutput_agrees h pair.2 result
        generalize writeOutput t pair.2 result = written at hwritten hfault ⊢
        generalize writeOutput u pair.2 result = written' at hwritten hfault ⊢
        obtain ⟨t', fault⟩ := written
        obtain ⟨u', fault'⟩ := written'
        simp only at hwritten hfault
        subst hfault
        cases fault' with
        | none => exact ⟨hwritten, rfl⟩
        | some f => exact ⟨hwritten, rfl⟩

end Agreement

theorem visitAll_agrees (h : Agrees t u) (order : List (Path × Path)) :
    Agrees (b.visitAll snapshot t order).1 (b.visitAll snapshot u order).1 ∧
      (b.visitAll snapshot u order).2 = (b.visitAll snapshot t order).2 := by
  induction order generalizing t u with
  | nil => exact ⟨h, rfl⟩
  | cons pair rest ih =>
    obtain ⟨htree, hrecord⟩ := @visit_agrees b snapshot t u h pair
    obtain ⟨htrees, hrecords⟩ := ih htree
    rw [visitAll_cons, visitAll_cons]
    exact ⟨htrees, by rw [hrecord, hrecords]⟩

/-! ## Writing a result -/

/-- A file stands at a location, with directories above it, and otherwise the tree is as it
was. -/
structure Lands (t : FileTree) (l : Location) (content : ByteArray) (u : FileTree) : Prop where
  /-- The tree stands for a disk. -/
  wellFormed : u.WellFormed
  /-- There is no link in it. -/
  linkFree : u.LinkFree
  /-- The working directory is the same. -/
  workingDirectory : u.workingDirectory = t.workingDirectory
  /-- The file is there. -/
  there : u.lookup l = some (.file content)
  /-- The directories are there. -/
  above : ∀ x, x <+: l → x ≠ l → u.lookup x = some .directory
  /-- Nothing else changes. -/
  elsewhere : ∀ x, ¬x <+: l → u.lookup x = t.lookup x

/-- A result can be written to a name below a location: no file is in the way, and no
directory stands at the place. -/
structure Open (t : FileTree) (above : Location) (s : String) : Prop where
  /-- No file is in the way. -/
  clear : t.Clear above
  /-- No directory stands at the place. -/
  place : t.lookup (above ++ [s]) ≠ some .directory

theorem Lands.grows {content : ByteArray} (h : Lands t (above ++ [s]) content u)
    (hlinks : t.LinkFree) (hopen : Open t above s) : Grows t u := by
  refine ⟨h.workingDirectory, fun {x e} he => ?_⟩
  by_cases hx : x <+: above ++ [s]
  · rcases List.prefix_concat_iff.1 hx with rfl | hx'
    · cases e with
      | file old => rw [h.there]; rfl
      | directory => exact absurd he hopen.place
      | link target => exact absurd he (hlinks _ _)
    · obtain rfl : e = .directory := by
        rcases hopen.clear x hx' with hnone | hdir
        · simp [hnone] at he
        · exact Option.some.inj (he.symm.trans hdir)
      rw [h.above x hx (by rintro rfl; exact not_concat_prefix_self _ _ hx')]
      rfl
  · rw [h.elsewhere x hx, he]
    rfl

/-- A file is put in a directory that has been opened. -/
theorem Lands.put (h : Opens t above u) (hname : IsName s)
    (hplace : t.lookup (above ++ [s]) ≠ some .directory) (content : ByteArray) :
    Lands t (above ++ [s]) content (u.put (above ++ [s]) (.file content)) := by
  have hdir := h.above above (List.prefix_refl _)
  have hold := h.elsewhere _ (not_concat_prefix_self above s)
  refine ⟨h.wellFormed.put (by simp) (by simpa using hdir) ?_ (by rwa [hold]) _,
    h.linkFree.put rfl _, h.workingDirectory, FileTree.lookup_put u _ (by simp), ?_, ?_⟩
  · intro x hx
    rcases List.mem_append.1 hx with hx | hx
    · exact h.wellFormed.isName hdir x hx
    · exact List.mem_singleton.1 hx ▸ hname
  · intro x hx hne
    rw [FileTree.lookup_put_of_ne u _ hne]
    exact h.above x ((List.prefix_concat_iff.1 hx).resolve_left hne)
  · intro x hx
    rw [FileTree.lookup_put_of_ne u _ (by rintro rfl; exact hx (List.prefix_refl _))]
    exact h.elsewhere x fun hx' => hx (hx'.trans (List.prefix_append _ _))

section Writing

variable (h : t.EndsIn o above s) (ht : t.WellFormed) (hlinks : t.LinkFree)
include h ht hlinks

/-- The path above a result is a trimmed path to the directory, or it is empty and the
directory is there. -/
theorem exists_parent : ∃ q, o.parent? = some q ∧ q.Trimmed ∧ t.LeadsTo q above ∧
    (q.isEmpty = true → t.lookup above = some .directory) := by
  obtain ⟨front, hsegments, hfront⟩ := h.exists_front
  obtain ⟨q, hq, htrims⟩ := Path.parent?_of_not_isIdle hsegments h.isPlain.1
  have hleads := hfront.of_trims ht hlinks htrims
  refine ⟨q, hq, .of_parent? hq, hleads, fun hempty => ?_⟩
  have hidle : ∀ s ∈ q.segments, Path.isIdle s = true := by
    obtain ⟨-, hsegments⟩ : q.rooted = false ∧ q.segments = [""] := by
      simpa [Path.isEmpty] using hempty
    simp [hsegments, Path.isIdle_empty]
  rw [hleads.eq_spelled hlinks, FileTree.spelled, FileTree.foldl_spellStep_of_idle hidle]
  exact ht.lookup_start q

theorem makeAbove_of_clear (hslash : ∀ s ∈ o.segments, '/' ∉ s.toList)
    (hclear : t.Clear above) :
    ∃ made, makeAbove t o = (made, none) ∧ Opens t above made := by
  obtain ⟨q, hq, htrimmed, hleads, hempty⟩ := exists_parent h ht hlinks
  unfold makeAbove
  rw [hq]
  cases hq' : q.isEmpty with
  | true => exact ⟨t, by simp [Option.filter, hq'], .refl ht hlinks (hempty hq')⟩
  | false =>
    obtain ⟨made, hmade, hopens⟩ := FileTree.createDirectories_of_clear htrimmed
      ((Path.StartsAs.of_parent? hq).slashFree hslash) hleads ht hlinks hclear
    exact ⟨made, by simp [Option.filter, hq', hmade], hopens⟩

/-- **A result that can be written is at its place then.** -/
theorem writeOutput_of_open (hslash : ∀ s ∈ o.segments, '/' ∉ s.toList)
    (hopen : Open t above s) (text : String) :
    ∃ u, writeOutput t o text = (u, none) ∧ Lands t (above ++ [s]) text.toUTF8 u := by
  obtain ⟨made, hmade, hopens⟩ := makeAbove_of_clear h ht hlinks hslash hopen.clear
  have hgrows := hopens.grows hopen.clear
  have hwrite := (h.grows hgrows hopens.linkFree).writeText hopens.wellFormed hopens.linkFree
    (hopens.above above (List.prefix_refl _)) text
  rw [hopens.elsewhere _ (not_concat_prefix_self above s), if_neg hopen.place] at hwrite
  have hname : IsName s := by
    obtain ⟨front, hsegments, -⟩ := h.exists_front
    exact ⟨h.isPlain, hslash s (by simp [hsegments])⟩
  exact ⟨_, writeOutput_eq_of_ok hmade hwrite, .put hopens hname hopen.place text.toUTF8⟩

/-- **A result that cannot be written leaves everything as it is**, and the fault is the same
whatever else there is in the tree. -/
theorem writeOutput_of_blocked (hblocked : ¬Open t above s) (text : String) :
    ∃ f, ∀ u, Grows t u → u.WellFormed → u.LinkFree → writeOutput u o text = (u, some f) := by
  obtain ⟨q, hq, htrimmed, hleads, hempty⟩ := exists_parent h ht hlinks
  rcases FileTree.clear_or_exists_file hlinks above with hclear | ⟨x, content, hx, hfile⟩
  · -- a directory stands at the place, so there is one above it
    have hplace : t.lookup (above ++ [s]) = some .directory := by
      by_contra hplace
      exact hblocked ⟨hclear, hplace⟩
    have hdir := ht.directory_of_prefix (by simp) hplace
    refine ⟨⟨.writing, s!"Failed to write file {o.text}: {DiskError.isDirectory.message}"⟩,
      fun u hgrows hu hlinks' => ?_⟩
    have hwrite := (h.grows hgrows hlinks').writeText hu hlinks' (hgrows.directory hdir) text
    rw [if_pos (hgrows.directory hplace)] at hwrite
    unfold writeOutput
    rw [hq]
    cases hq' : q.isEmpty with
    | true => simp [Option.filter, hq', hwrite]
    | false =>
      have hthere := (hleads.grows hgrows fun hlink => absurd hlink (hlinks' _ _)).isDirectory hu
        (hgrows.directory hdir) hq'
      simp [Option.filter, hq', FileTree.createDirectories_of_isDirectory hthere, hwrite]
  · have hq' : q.isEmpty = false := by
      rw [Bool.eq_false_iff]
      intro hq'
      rw [ht.directory_above (hempty hq') hx] at hfile
      simp at hfile
    obtain ⟨e, he⟩ := FileTree.createDirectories_of_file htrimmed hq' hleads ht hx hfile
    refine ⟨⟨.writing, s!"Failed to create directory at {q.text}: {e.message}"⟩,
      fun u hgrows hu hlinks' => ?_⟩
    unfold writeOutput
    rw [hq]
    simp [Option.filter, hq', he u hgrows hu hlinks']

end Writing

/-! ## One visit -/

/-- What a visit has to do with: the file that it reads, and the place that it writes to. -/
structure Site (t : FileTree) (pair : Path × Path) (source above : Location) (s : String) :
    Prop where
  /-- The path of the file leads to it. -/
  reads : t.locate true pair.1 = .ok source
  /-- The file is there. -/
  file : ∃ content, t.lookup source = some (.file content)
  /-- The path of the result ends with a name below a location. -/
  writes : t.EndsIn pair.2 above s
  /-- No segment of it holds a slash. -/
  slashFree : ∀ s ∈ pair.2.segments, '/' ∉ s.toList

theorem Site.grows (h : Site t pair source above s) (hu : Grows t u) (hlinks : u.LinkFree) :
    Site u pair source above s := by
  obtain ⟨content, hfile⟩ := h.file
  exact ⟨FileTree.locate_of_grows hu h.reads, hu.file hfile, h.writes.grows hu hlinks,
    h.slashFree⟩

/-- A tree is the same as another for a visit: the file and the place are as they were, and
no file came in the way. -/
structure Beside (t : FileTree) (source above : Location) (s : String) (u : FileTree) : Prop where
  /-- The tree stands for a disk. -/
  wellFormed : u.WellFormed
  /-- There is no link in it. -/
  linkFree : u.LinkFree
  /-- What there is stays. -/
  grows : Grows t u
  /-- The file is as it was. -/
  source : u.lookup source = t.lookup source
  /-- The place is as it was. -/
  place : u.lookup (above ++ [s]) = t.lookup (above ++ [s])
  /-- No file came in the way. -/
  clear : t.Clear above → u.Clear above

theorem Beside.refl (ht : t.WellFormed) (hlinks : t.LinkFree) : Beside t source above s t :=
  ⟨ht, hlinks, .refl t, rfl, rfl, id⟩

section Visit

variable (h : Site t pair source above s) (ht : t.WellFormed) (hlinks : t.LinkFree)
include h

theorem Beside.readText (hu : Beside t source above s u) :
    u.readText pair.1 = t.readText pair.1 :=
  FileTree.readText_congr h.reads (FileTree.locate_of_grows hu.grows h.reads) hu.source

include ht hlinks

theorem Beside.isUpToDate (hu : Beside t source above s u) (text result : String) :
    isUpToDate u pair.1 pair.2 text result = isUpToDate t pair.1 pair.2 text result := by
  have hread : ∀ existing, u.readText pair.2 = .ok existing ↔ t.readText pair.2 = .ok existing := by
    intro existing
    rw [(h.writes.grows hu.grows hu.linkFree).readText_eq_ok_iff hu.wellFormed hu.linkFree,
      h.writes.readText_eq_ok_iff ht hlinks, hu.place]
  unfold Batch.isUpToDate
  split_ifs
  · rfl
  · cases htext : t.readText pair.2 with
    | ok existing => rw [(hread existing).2 htext]
    | error e =>
      cases htext' : u.readText pair.2 with
      | ok existing =>
        rw [(hread existing).1 htext'] at htext
        simp at htext
      | error e' => rfl

/-- **What a visit does**, in every tree that is the same for it: it leaves the tree as it is,
or its result lands at its place.  The record is the same. -/
theorem visit_beside :
    (∃ r, ∀ u, Beside t source above s u → b.visit snapshot u pair.1 pair.2 = (u, r)) ∨
    ∃ r content, Open t above s ∧ ∀ u, Beside t source above s u →
      ∃ u', b.visit snapshot u pair.1 pair.2 = (u', r) ∧ Lands u (above ++ [s]) content u' := by
  cases hread : t.readText pair.1 with
  | error e =>
    exact .inl ⟨_, fun u hu => by rw [visit, hu.readText h, hread]⟩
  | ok text =>
    cases hformatted : b.formatted (remembered snapshot pair.1) pair.1 text with
    | error f =>
      exact .inl ⟨_, fun u hu => by simp only [visit, hu.readText h, hread, hformatted]; rfl⟩
    | ok result =>
      have hvisit : ∀ u, Beside t source above s u → b.visit snapshot u pair.1 pair.2 =
          if Batch.isUpToDate t pair.1 pair.2 text result then
            (u, ⟨.upToDate, b.entryFor snapshot pair.1 result⟩)
          else if b.dryRun then (u, ⟨.wouldWrite, b.entryFor snapshot pair.1 result⟩)
          else ((writeOutput u pair.2 result).1,
            ⟨(writeOutput u pair.2 result).2.elim .written .unwritten,
              b.entryFor snapshot pair.1 result⟩) := by
        intro u hu
        simp only [visit, hu.readText h, hread, hformatted, hu.isUpToDate h ht hlinks]
        split_ifs
        · rfl
        · rfl
        · cases writeOutput u pair.2 result with
          | mk u' fault => cases fault <;> rfl
      by_cases hsame : Batch.isUpToDate t pair.1 pair.2 text result = true
      · exact .inl ⟨_, fun u hu => by rw [hvisit u hu, if_pos hsame]⟩
      by_cases hdry : b.dryRun = true
      · exact .inl ⟨_, fun u hu => by rw [hvisit u hu, if_neg hsame, if_pos hdry]⟩
      by_cases hopen : Open t above s
      · refine .inr ⟨⟨.written, b.entryFor snapshot pair.1 result⟩, result.toUTF8, hopen,
          fun u hu => ?_⟩
        obtain ⟨u', hu', hlands⟩ := writeOutput_of_open (h.writes.grows hu.grows hu.linkFree)
          hu.wellFormed hu.linkFree h.slashFree ⟨hu.clear hopen.clear, hu.place ▸ hopen.place⟩
          result
        exact ⟨u', by rw [hvisit u hu, if_neg hsame, if_neg hdry, hu']; rfl, hlands⟩
      · obtain ⟨f, hf⟩ := writeOutput_of_blocked h.writes ht hlinks hopen result
        refine .inl ⟨⟨.unwritten f, b.entryFor snapshot pair.1 result⟩, fun u hu => ?_⟩
        rw [hvisit u hu, if_neg hsame, if_neg hdry, hf u hu.grows hu.wellFormed hu.linkFree]
        rfl

end Visit

/-! ## Two visits -/

/-- Two visits have nothing to do with each other: neither writes to the file that the other
reads, and neither place is on the way to the other. -/
def Independent (t : FileTree) (first second : Path × Path) : Prop :=
  ∃ source above s source' above' s', Site t first source above s ∧
    Site t second source' above' s' ∧ source' ≠ above ++ [s] ∧ source ≠ above' ++ [s'] ∧
    ¬above ++ [s] <+: above' ++ [s'] ∧ ¬above' ++ [s'] <+: above ++ [s]

theorem Independent.grows (h : Independent t first second) (hu : Grows t u)
    (hlinks : u.LinkFree) : Independent u first second := by
  obtain ⟨source, above, s, source', above', s', hsite, hsite', hapart⟩ := h
  exact ⟨source, above, s, source', above', s', hsite.grows hu hlinks, hsite'.grows hu hlinks,
    hapart⟩

/-- A result that lands makes no difference to a visit that has nothing to do with it. -/
theorem Lands.beside {content : ByteArray} (h : Lands t (above ++ [s]) content u)
    (hlinks : t.LinkFree) (hopen : Open t above s) (hsite : Site t second source' above' s')
    (hsource : source' ≠ above ++ [s]) (hnot : ¬above ++ [s] <+: above' ++ [s'])
    (hnot' : ¬above' ++ [s'] <+: above ++ [s]) : Beside t source' above' s' u := by
  refine ⟨h.wellFormed, h.linkFree, h.grows hlinks hopen, ?_, h.elsewhere _ hnot', ?_⟩
  · -- a file is not on the way to the place
    obtain ⟨old, hold⟩ := hsite.file
    refine h.elsewhere _ fun hbefore => ?_
    rcases hopen.clear source' ((List.prefix_concat_iff.1 hbefore).resolve_left hsource) with
      hnone | hdir
    · simp [hnone] at hold
    · simp [hdir] at hold
  · intro hclear x hx
    by_cases hbefore : x <+: above ++ [s]
    · refine .inr (h.above x hbefore ?_)
      rintro rfl
      exact hnot (hx.trans (List.prefix_append _ _))
    · rw [h.elsewhere x hbefore]
      exact hclear x hx

/-- Results that land at places apart can land in any order. -/
theorem Lands.agrees {place place' : Location} {content content' : ByteArray}
    {first second first' second' : FileTree}
    (h₁ : Lands t place content first) (h₂ : Lands first place' content' second)
    (h₁' : Lands t place' content' first') (h₂' : Lands first' place content second')
    (hnot : ¬place <+: place') (hnot' : ¬place' <+: place) : Agrees second second' := by
  refine ⟨?_, fun x => ?_⟩
  · rw [h₂'.workingDirectory, h₁'.workingDirectory, h₂.workingDirectory, h₁.workingDirectory]
  by_cases hx : x <+: place <;> by_cases hx' : x <+: place'
  · have hne : x ≠ place := by rintro rfl; exact hnot hx'
    have hne' : x ≠ place' := by rintro rfl; exact hnot' hx
    rw [h₂'.above x hx hne, h₂.above x hx' hne']
  · rw [h₂.elsewhere x hx']
    by_cases heq : x = place
    · rw [heq, h₁.there, h₂'.there]
    · rw [h₁.above x hx heq, h₂'.above x hx heq]
  · rw [h₂'.elsewhere x hx]
    by_cases heq : x = place'
    · rw [heq, h₂.there, h₁'.there]
    · rw [h₂.above x hx' heq, h₁'.above x hx' heq]
  · rw [h₂'.elsewhere x hx, h₁'.elsewhere x hx', h₂.elsewhere x hx', h₁.elsewhere x hx]

/-- **Two independent visits commute**: each leaves the record that it leaves alone, and the
trees agree. -/
theorem visit_comm (h : Independent t first second) (ht : t.WellFormed) (hlinks : t.LinkFree)
    (hu : u = (b.visit snapshot t first.1 first.2).1)
    (hv : v = (b.visit snapshot t second.1 second.2).1) :
    (b.visit snapshot u second.1 second.2).2 = (b.visit snapshot t second.1 second.2).2 ∧
      (b.visit snapshot v first.1 first.2).2 = (b.visit snapshot t first.1 first.2).2 ∧
      Agrees (b.visit snapshot u second.1 second.2).1 (b.visit snapshot v first.1 first.2).1 := by
  obtain ⟨source, above, s, source', above', s', hsite, hsite', hsource, hsource', hnot, hnot'⟩ := h
  have hrefl := @Beside.refl t source above s ht hlinks
  have hrefl' := @Beside.refl t source' above' s' ht hlinks
  rcases @visit_beside b snapshot t _ _ _ _ hsite ht hlinks with
    ⟨r, hquiet⟩ | ⟨r, content, hopen, hlands⟩
  · -- the first visit changes nothing
    rw [hquiet t hrefl] at hu ⊢
    rw [hu]
    rcases @visit_beside b snapshot t _ _ _ _ hsite' ht hlinks with
      ⟨r', hquiet'⟩ | ⟨r', content', hopen', hlands'⟩
    · rw [hquiet' t hrefl'] at hv ⊢
      rw [hv, hquiet t hrefl]
      exact ⟨rfl, rfl, .refl t⟩
    · obtain ⟨w, hw, hland⟩ := hlands' t hrefl'
      rw [hw] at hv ⊢
      rw [hv, hquiet w (hland.beside hlinks hopen' hsite hsource' hnot' hnot)]
      exact ⟨rfl, rfl, .refl w⟩
  · obtain ⟨w, hw, hland⟩ := hlands t hrefl
    have hbeside := hland.beside hlinks hopen hsite' hsource hnot hnot'
    rw [hw] at hu ⊢
    subst hu
    rcases @visit_beside b snapshot t _ _ _ _ hsite' ht hlinks with
      ⟨r', hquiet'⟩ | ⟨r', content', hopen', hlands'⟩
    · rw [hquiet' t hrefl'] at hv ⊢
      rw [hv, hquiet' _ hbeside, hw]
      exact ⟨rfl, rfl, .refl _⟩
    · obtain ⟨w', hw', hland'⟩ := hlands' t hrefl'
      have hbeside' := hland'.beside hlinks hopen' hsite hsource' hnot' hnot
      rw [hw'] at hv ⊢
      subst hv
      obtain ⟨x, hx, hlandx⟩ := hlands' _ hbeside
      obtain ⟨x', hx', hlandx'⟩ := hlands _ hbeside'
      rw [hx, hx']
      exact ⟨rfl, rfl, hland.agrees hlandx hland' hlandx' hnot hnot'⟩

/-! ## All visits -/

/-- **Visits that are independent of each other can be made in any order**: they leave the
same records, and the trees agree. -/
theorem visitAll_perm {J : FileTree → Prop}
    (hJ : ∀ u, J u → u.WellFormed ∧ u.LinkFree ∧ Grows t u) (hperm : order.Perm order')
    (hstep : ∀ pair ∈ order, ∀ u, J u → J (b.visit snapshot u pair.1 pair.2).1)
    (happart : ∀ first ∈ order, ∀ second ∈ order, first ≠ second → Independent t first second)
    (hu : J u) :
    Agrees (b.visitAll snapshot u order).1 (b.visitAll snapshot u order').1 ∧
      (b.visitAll snapshot u order').2.Perm (b.visitAll snapshot u order).2 := by
  induction hperm generalizing u with
  | nil => exact ⟨.refl _, .refl _⟩
  | cons pair _ ih =>
    obtain ⟨htrees, hrecords⟩ := ih (fun x hx => hstep x (List.mem_cons_of_mem _ hx))
      (fun x hx y hy => happart x (List.mem_cons_of_mem _ hx) y (List.mem_cons_of_mem _ hy))
      (hstep pair List.mem_cons_self u hu)
    rw [visitAll_cons, visitAll_cons]
    exact ⟨htrees, hrecords.cons _⟩
  | swap second first rest =>
    by_cases heq : first = second
    · rw [heq]
      exact ⟨.refl _, .refl _⟩
    · obtain ⟨hwell, hlinks, hgrows⟩ := hJ u hu
      have hapart := (happart first (by simp) second (by simp) heq).grows hgrows hlinks
      obtain ⟨hrecord, hrecord', htree⟩ :=
        @visit_comm b snapshot u _ _ first second hapart hwell hlinks rfl rfl
      obtain ⟨htrees, hrecords⟩ := @visitAll_agrees b snapshot _ _ htree rest
      simp only [visitAll_cons, hrecord, hrecord', hrecords]
      exact ⟨htrees, .swap _ _ _⟩
  | trans hfirst _ ih ih' =>
    obtain ⟨htrees, hrecords⟩ := ih hstep happart hu
    obtain ⟨htrees', hrecords'⟩ := ih' (fun x hx => hstep x (hfirst.mem_iff.2 hx))
      (fun x hx y hy => happart x (hfirst.mem_iff.2 hx) y (hfirst.mem_iff.2 hy)) hu
    exact ⟨htrees.trans htrees', hrecords'.trans hrecords⟩

end Batch
end Restyle
