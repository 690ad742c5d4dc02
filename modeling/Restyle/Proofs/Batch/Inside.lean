import Restyle.Proofs.Batch.Concurrency
import Restyle.Proofs.Batch.Turns

/-!
# Output roots inside the root that is walked

If the output root is a directory inside the root, then results are written where the walk goes.
A batch that works on files at once has found all of them before the first result is written.  A
batch that works on them in turn lists a directory when it comes to it, so it comes across
results that it has written itself, and takes them for files to be formatted.

So both work on the files that there were at the start, and what else the second works on is one
of its own results.  They agree if no result is where the walk looks.

* `Inside.visit_file`: a visit adds no file but its result.
* `Traced`, `traced_visited`: what a walk that works in turn has come to.
* `Inside.origin`: a file that it visits was there, or is the result of one visited before.
* `Unseen`, `perm_visited`: when it visits the files that there were, and no others.
* `run_inside`: at once and in turn.
* `run_inside_visible`: a directory that is listed after the first result.
-/

namespace Restyle
namespace Batch

open FileTree (Agrees Grows IsName LeadsTo)

variable {b : Batch} {snapshot : Option Cache} {sel : Selection} {t u : FileTree} {root o : Path}
  {lr inner l : Location} {names : List String} {content : ByteArray} {p : Progress Books}
  {schedule : Schedule Books} {order order' : List (Path × Path)} {x : Path × Path}

/-! ## One visit -/

/-- The output root is a directory inside the root that is walked, in a tree without links.
`inner` are the names that lead from the one to the other. -/
structure Inside (t : FileTree) (root o : Path) (lr inner : Location) : Prop where
  /-- The tree stands for a disk. -/
  wellFormed : t.WellFormed
  /-- There are no links in it. -/
  linkFree : t.LinkFree
  /-- The root is a path that a text spells. -/
  properRoot : root.Proper
  /-- So is the output root. -/
  properOutput : o.Proper
  /-- Where the root leads. -/
  reads : t.locate true root = .ok lr
  /-- Where the output root leads. -/
  writes : t.locate true o = .ok (lr ++ inner)
  /-- A directory stands there. -/
  directory : t.lookup (lr ++ inner) = some .directory

/-- A file below the root, by the names that lead to it, with the path of its result. -/
def mirrored (root o : Path) (names : List String) : Path × Path :=
  (root.below names, o.join ⟨false, names⟩)

namespace Inside

theorem grows (h : Inside t root o lr inner) (hu : Grows t u) (hwell : u.WellFormed)
    (hlinks : u.LinkFree) : Inside u root o lr inner :=
  ⟨hwell, hlinks, h.properRoot, h.properOutput, FileTree.locate_of_grows hu h.reads,
    FileTree.locate_of_grows hu h.writes, hu.directory h.directory⟩

variable (h : Inside t root o lr inner)
include h

theorem lookup_root : t.lookup lr = some .directory :=
  h.wellFormed.directory_above h.directory (List.prefix_append _ _)

theorem locate_root : t.locate false root = .ok lr := by
  obtain ⟨hempty, hreach⟩ := FileTree.locate_eq_ok_iff.1 h.reads
  obtain ⟨l, hl⟩ := hreach.without_last
  have hlocate := FileTree.locate_eq_ok_iff.2 ⟨hempty, hl⟩
  have hlocate' := FileTree.locate_true_of_not_link hlocate fun target => h.linkFree l target
  rwa [Except.ok.inj (h.reads.symm.trans hlocate')]

variable (hfile : t.lookup (lr ++ names) = some (.file content))
include hfile

theorem names_ne_nil : names ≠ [] := by
  rintro rfl
  rw [List.append_nil, h.lookup_root] at hfile
  simp at hfile

theorem isName : ∀ s ∈ names, IsName s :=
  fun s hs => h.wellFormed.isName hfile s (List.mem_append_right _ hs)

theorem proper : (mirrored root o names).2.Proper := by
  rw [mirrored, Path.join_eq rfl]
  exact proper_of_names h.properOutput (h.isName hfile) (h.names_ne_nil hfile)

theorem locate_input : t.locate true (mirrored root o names).1 = .ok (lr ++ names) :=
  FileTree.locate_below h.wellFormed h.reads hfile rfl

/-- The place of the result has the same names below the output root. -/
theorem exists_site : ∃ above s, Site t (mirrored root o names) (lr ++ names) above s ∧
    lr ++ inner ++ names = above ++ [s] := by
  have hnames := h.isName hfile
  have hslash := (h.proper hfile).slashFree
  have hreads := h.locate_input hfile
  obtain ⟨front, s, rfl⟩ := (List.eq_nil_or_concat names).resolve_left (h.names_ne_nil hfile)
  rw [List.concat_eq_append] at hfile hnames hslash hreads ⊢
  have hfront : ∀ x ∈ front, Path.IsPlain x := fun x hx => (hnames x (by simp [hx])).1
  have houtput : (mirrored root o (front ++ [s])).2 = ⟨o.rooted, o.stem ++ (front ++ [s])⟩ := by
    rw [mirrored, Path.join_eq rfl]
  refine ⟨lr ++ inner ++ front, s, ⟨hreads, ⟨content, hfile⟩, ?_, hslash⟩,
    (List.append_assoc _ _ _).symm⟩
  refine ⟨⟨o.stem ++ front, by rw [houtput, List.append_assoc], ?_⟩, (hnames s (by simp)).1⟩
  rw [houtput]
  exact (LeadsTo.of_locate h.writes).below hfront (h.linkFree.straight _ _) rfl rfl

/-- What a visit leaves. -/
theorem visit : Inside (b.visit snapshot t (mirrored root o names).1 (mirrored root o names).2).1
      root o lr inner ∧
    Grows t (b.visit snapshot t (mirrored root o names).1 (mirrored root o names).2).1 := by
  obtain ⟨hwell, hgrows⟩ := @wellFormed_visit b snapshot t _ h.wellFormed (h.proper hfile)
    (mirrored root o names).1
  exact ⟨h.grows hgrows hwell (linkFree_visit h.linkFree _ _), hgrows⟩

/-- **A visit adds no file but its result.** -/
theorem visit_file {new : ByteArray}
    (hl : (b.visit snapshot t (mirrored root o names).1 (mirrored root o names).2).1.lookup l =
      some (.file new)) :
    (∃ old, t.lookup l = some (.file old)) ∨ l = lr ++ inner ++ names := by
  obtain ⟨above, s, hsite, hplace⟩ := h.exists_site hfile
  have hrefl := @Beside.refl t (lr ++ names) above s h.wellFormed h.linkFree
  rcases @visit_beside b snapshot t _ _ _ _ hsite h.wellFormed h.linkFree with
    ⟨r, hquiet⟩ | ⟨r, result, -, hlands⟩
  · rw [hquiet t hrefl] at hl
    exact .inl ⟨new, hl⟩
  · obtain ⟨v, hv, hland⟩ := hlands t hrefl
    rw [hv] at hl
    by_cases hbefore : l <+: above ++ [s]
    · -- a file that is on the way to the place is at the place
      by_cases heq : l = above ++ [s]
      · exact .inr (heq.trans hplace.symm)
      · simp [hland.above l hbefore heq] at hl
    · rw [hland.elsewhere l hbefore] at hl
      exact .inl ⟨new, hl⟩

end Inside

/-! ## Working in turn -/

/-- What a walk that works in turn has come to.  The tree is that of the start with results in
it, and each file that was visited was there at the start or is the result of one that was
visited before. -/
structure Traced (b : Batch) (snapshot : Option Cache) (sel : Selection) (p : Progress Books)
    (root o : Path) (lr inner : Location) (u : Progress Books × List (Path × Path)) : Prop where
  /-- The output root is still inside. -/
  inside : Inside u.1.tree root o lr inner
  /-- What there was is still there. -/
  grows : Grows p.tree u.1.tree
  /-- The files were visited, and nothing else went wrong. -/
  accounts : Accounts b snapshot u.2.reverse [] p u.1
  /-- A file was there at the start, or is a result. -/
  files : ∀ {l content}, u.1.tree.lookup l = some (.file content) →
    (∃ old, p.tree.lookup l = some (.file old)) ∨
      ∃ names, mirrored root o names ∈ u.2 ∧ l = lr ++ inner ++ names
  /-- So is each file that was visited. -/
  origin : ∀ {x rest}, x :: rest <:+ u.2 → ∃ names, x = mirrored root o names ∧
    Walk.Eligible u.1.tree sel root lr [] names ∧
    (Walk.Eligible p.tree sel root lr [] names ∨
      ∃ names', mirrored root o names' ∈ rest ∧ names = inner ++ names')

theorem Traced.start (h : Inside p.tree root o lr inner) :
    Traced b snapshot sel p root o lr inner (p, []) where
  inside := h
  grows := .refl _
  accounts := .refl p
  files := fun {l content} hl => .inl ⟨content, hl⟩
  origin := fun hsuffix => by simp at hsuffix

/-- **One more file is visited.** -/
theorem Traced.visit {u : Progress Books × List (Path × Path)}
    (h : Traced b snapshot sel p root o lr inner u)
    (hnames : Walk.Eligible u.1.tree sel root lr [] names) :
    Traced b snapshot sel p root o lr inner
        ((b.visitor snapshot).file (mirrored root o names).1 (mirrored root o names).2 u.1,
          mirrored root o names :: u.2) ∧
      Grows u.1.tree ((b.visitor snapshot).file (mirrored root o names).1
        (mirrored root o names).2 u.1).tree := by
  obtain ⟨content, hfile⟩ := hnames.file
  rw [List.nil_append] at hfile
  have htree := @tree_visitor_file b snapshot (mirrored root o names).1
    (mirrored root o names).2 u.1
  obtain ⟨hinside, hgrows⟩ := @Inside.visit b snapshot _ _ _ _ _ _ _ h.inside hfile
  rw [← htree] at hinside hgrows
  refine ⟨⟨hinside, h.grows.trans hgrows, ?_, fun {l new} hl => ?_, fun {x rest} hsuffix => ?_⟩,
    hgrows⟩
  · have hnext := h.accounts.trans
      (accounts_advance b snapshot (mirrored root o names).1 (mirrored root o names).2 u.1)
    rw [← List.reverse_cons] at hnext
    exact hnext
  · rw [htree] at hl
    rcases h.inside.visit_file hfile hl with ⟨old, hold⟩ | hplace
    · refine (h.files hold).imp_right ?_
      rintro ⟨names', hmem, hl'⟩
      exact ⟨names', List.mem_cons_of_mem _ hmem, hl'⟩
    · exact .inr ⟨names, List.mem_cons_self, hplace⟩
  · rcases List.suffix_cons_iff.1 hsuffix with heq | hsuffix
    · obtain ⟨rfl, rfl⟩ := List.cons.inj heq
      refine ⟨names, rfl, hnames.grows hgrows, ?_⟩
      rcases h.files hfile with ⟨old, hold⟩ | ⟨names', hmem, hplace⟩
      · refine .inl (hnames.of_shape ?_)
        rw [List.nil_append, hold, hfile]
        rfl
      · rw [List.append_assoc] at hplace
        exact .inr ⟨names', hmem, List.append_cancel_left hplace⟩
    · obtain ⟨names', hx, heligible, horigin⟩ := h.origin hsuffix
      exact ⟨names', hx, heligible.grows hgrows, horigin⟩

/-- The walk passes over some names below the root. -/
def PassedOver (sel : Selection) (root : Path) (names : List String) : Prop :=
  ∃ before s, before ++ [s] <+: names ∧
    Walk.isPruned sel root (root.below (before ++ [s])) s = true

theorem PassedOver.not_eligible (h : PassedOver sel root names) :
    ¬Walk.Eligible t sel root lr [] names := by
  obtain ⟨before, s, hbefore, hpruned⟩ := h
  intro hnames
  have hkept := hnames.kept hbefore
  rw [List.nil_append, hpruned] at hkept
  simp at hkept

/-- No result is where the walk looks: nothing is to be written, or the walk passes over the
places of all results. -/
def Unseen (b : Batch) (snapshot : Option Cache) (sel : Selection) (t : FileTree) (root o : Path)
    (inner : Location) : Prop :=
  (∀ x ∈ Walk.files (Walk.finds t sel root o), (b.visit snapshot t x.1 x.2).1 = t) ∨
    ∀ names, mirrored root o names ∈ Walk.files (Walk.finds t sel root o) →
      PassedOver sel root (inner ++ names)

section Walk

variable (hfollow : sel.followLinks = false)
include hfollow

/-- The files that there are to find are those below the root that are not passed over. -/
theorem Inside.mem_files_iff (h : Inside t root o lr inner) :
    x ∈ Walk.files (Walk.finds t sel root o) ↔
      ∃ names, Walk.Eligible t sel root lr [] names ∧ x = mirrored root o names := by
  have htarget : ∀ {names}, Walk.Eligible t sel root lr [] names →
      Walk.target t root o names = o.join ⟨false, names⟩ := by
    intro names hnames
    obtain ⟨content, hfile⟩ := hnames.file
    exact if_neg (h.names_ne_nil hfile)
  obtain ⟨input, output⟩ := x
  rw [Walk.mem_files_finds h.wellFormed hfollow h.properRoot]
  constructor
  · rintro ⟨lr', names, hlr', hnames, hinput, houtput⟩
    obtain rfl := Except.ok.inj (h.locate_root.symm.trans hlr')
    exact ⟨names, hnames, Prod.ext hinput (houtput.trans (htarget hnames))⟩
  · rintro ⟨names, hnames, hx⟩
    obtain ⟨rfl, rfl⟩ := Prod.mk.inj hx
    exact ⟨lr, names, h.locate_root, hnames, rfl, (htarget hnames).symm⟩

variable (h : Inside p.tree root o lr inner)
include h

theorem traced_visited : Traced b snapshot sel p root o lr inner
    (Walk.run (b.visitor snapshot) sel root o p,
      (Walk.visited (b.visitor snapshot) sel root o p).reverse) :=
  Walk.visited_induction (fun _ => rfl) h.properRoot h.locate_root h.lookup_root hfollow
    (fun _ hu => hu.inside.wellFormed) (fun _ _ hu _ hnames => hu.visit hnames) (.start h)

/-- **Every file that was there at the start is visited.** -/
theorem Inside.mem_visited (hx : x ∈ Walk.files (Walk.finds p.tree sel root o)) :
    x ∈ Walk.visited (b.visitor snapshot) sel root o p := by
  obtain ⟨names, hnames, rfl⟩ := (h.mem_files_iff hfollow).1 hx
  obtain ⟨content, hfile⟩ := hnames.file
  exact Walk.mem_visited (I := fun q : Progress Books => q.tree.WellFormed) (fun _ => rfl)
    h.properRoot h.locate_root h.lookup_root hfollow (fun _ hq => hq)
    (fun _ _ hq hne hnames => wellFormed_visitor h.properOutput hq hne hnames) h.wellFormed
    (h.names_ne_nil hfile) hnames

/-- **A file that is visited was there at the start, or it is the result of one that was visited
before.** -/
theorem Inside.origin {before after : List (Path × Path)}
    (hsplit : Walk.visited (b.visitor snapshot) sel root o p = before ++ x :: after) :
    x ∈ Walk.files (Walk.finds p.tree sel root o) ∨
      p.tree.isFile x.1 = false ∧ ∃ y ∈ before, ∃ l,
        (Walk.run (b.visitor snapshot) sel root o p).tree.locate true x.1 = .ok l ∧
        (Walk.run (b.visitor snapshot) sel root o p).tree.locate true y.2 = .ok l := by
  have htraced := @traced_visited b snapshot _ _ _ _ _ _ hfollow h
  have hsuffix : x :: before.reverse <:+
      (Walk.visited (b.visitor snapshot) sel root o p).reverse :=
    ⟨after.reverse, by simp [hsplit]⟩
  obtain ⟨names, rfl, hnames, horigin⟩ := htraced.origin hsuffix
  obtain ⟨content, hfile⟩ := hnames.file
  rw [List.nil_append] at hfile
  have hlocate := htraced.inside.locate_input hfile
  by_cases hstart : Walk.Eligible p.tree sel root lr [] names
  · exact .inl ((h.mem_files_iff hfollow).2 ⟨names, hstart, rfl⟩)
  refine .inr ⟨?_, ?_⟩
  · rw [Bool.eq_false_iff]
    intro hisFile
    obtain ⟨l, old, hl, hold⟩ := FileTree.isFile_iff.1 hisFile
    obtain rfl := Except.ok.inj
      ((FileTree.locate_of_grows htraced.grows hl).symm.trans hlocate)
    refine hstart (hnames.of_shape ?_)
    rw [List.nil_append, hold, hfile]
    rfl
  · obtain ⟨names', hmem, rfl⟩ := horigin.resolve_left hstart
    refine ⟨mirrored root o names', List.mem_reverse.1 hmem, _, hlocate, ?_⟩
    rw [← List.append_assoc] at hfile ⊢
    have hne : names' ≠ [] := by
      rintro rfl
      rw [List.append_nil, htraced.inside.directory] at hfile
      simp at hfile
    have hempty : ∀ s ∈ names', s ≠ "" := fun s hs => Path.ne_empty_of_not_isIdle
      (htraced.inside.wellFormed.isName hfile s (List.mem_append_right _ hs)).1.1
    rw [mirrored, ← Path.below_eq_join hempty hne]
    exact FileTree.locate_below htraced.inside.wellFormed htraced.inside.writes hfile rfl

variable (hunseen : Unseen b snapshot sel p.tree root o inner)
include hunseen

/-- **If no result is where the walk looks, no result is visited.** -/
theorem Unseen.mem_files (hx : x ∈ Walk.visited (b.visitor snapshot) sel root o p) :
    x ∈ Walk.files (Walk.finds p.tree sel root o) := by
  rcases hunseen with hquiet | hpassed
  · -- the tree stays as it is
    have hkept := @Walk.visited_induction _ (b.visitor snapshot) sel lr root o p (fun _ => rfl)
      h.properRoot h.locate_root h.lookup_root hfollow
      (fun u => u.1.tree = p.tree ∧ ∀ x ∈ u.2, x ∈ Walk.files (Walk.finds p.tree sel root o))
      ?_ ?_ ⟨rfl, by simp⟩
    · exact hkept.2 x (List.mem_reverse.2 hx)
    · rintro u ⟨hu, -⟩
      rw [tree_visitor, hu]
      exact h.wellFormed
    · rintro names u ⟨hu, hall⟩ - hnames
      rw [tree_visitor, hu] at hnames
      have hmem := (h.mem_files_iff hfollow).2 ⟨names, hnames, rfl⟩
      have htree : ((b.visitor snapshot).file (mirrored root o names).1 (mirrored root o names).2
          u.1).tree = p.tree := by
        rw [tree_visitor_file, hu]
        exact hquiet _ hmem
      refine ⟨⟨htree, fun x hx => ?_⟩, ?_⟩
      · rcases List.mem_cons.1 hx with rfl | hx
        · exact hmem
        · exact hall x hx
      · rw [tree_visitor, tree_visitor, hu]
        exact htree ▸ .refl p.tree
  · have htraced := @traced_visited b snapshot _ _ _ _ _ _ hfollow h
    -- by induction on what was visited before
    have hall : ∀ rest, rest <:+ (Walk.visited (b.visitor snapshot) sel root o p).reverse →
        ∀ x ∈ rest, x ∈ Walk.files (Walk.finds p.tree sel root o) := by
      intro rest
      induction rest with
      | nil => simp
      | cons first rest ih =>
        intro hsuffix x hx
        have hrest := ih ((List.suffix_cons first rest).trans hsuffix)
        rcases List.mem_cons.1 hx with rfl | hx
        · obtain ⟨names, rfl, hnames, hstart | ⟨names', hmem, rfl⟩⟩ := htraced.origin hsuffix
          · exact (h.mem_files_iff hfollow).2 ⟨names, hstart, rfl⟩
          · exact absurd hnames (hpassed names' (hrest _ hmem)).not_eligible
        · exact hrest x hx
    exact hall _ (List.suffix_refl _) x (List.mem_reverse.2 hx)

/-- **If no result is where the walk looks, the files that were there are visited**, and no
others. -/
theorem Unseen.perm_visited :
    (Walk.visited (b.visitor snapshot) sel root o p).Perm
      (Walk.files (Walk.finds p.tree sel root o)) := by
  have hnodup := @Walk.nodup_visited _ (b.visitor snapshot) sel lr root o p (fun _ => rfl)
    h.properRoot h.locate_root h.lookup_root hfollow (fun q => q.tree.WellFormed) (fun _ hq => hq)
    (fun _ _ hq hne hnames => wellFormed_visitor h.properOutput hq hne hnames) h.wellFormed
  rw [List.perm_ext_iff_of_nodup hnodup
    (Walk.nodup_files_finds h.wellFormed hfollow h.properRoot)]
  exact fun x => ⟨hunseen.mem_files hfollow h, h.mem_visited hfollow⟩

end Walk

/-! ## Visits in any order -/

/-- Visits that leave the tree as it is leave the records that each leaves alone. -/
theorem visitAll_of_quiet (h : ∀ x ∈ order, (b.visit snapshot t x.1 x.2).1 = t) :
    b.visitAll snapshot t order = (t, order.map fun x => (b.visit snapshot t x.1 x.2).2) := by
  induction order with
  | nil => rfl
  | cons x rest ih =>
    rw [visitAll_cons, h x List.mem_cons_self, ih fun y hy => h y (List.mem_cons_of_mem _ hy),
      List.map_cons]

section Order

variable (hfollow : sel.followLinks = false) (h : Inside t root o lr inner)
include hfollow h

/-- Files whose results are passed over have nothing to do with each other. -/
theorem Inside.independent (hpassed : ∀ names,
      mirrored root o names ∈ Walk.files (Walk.finds t sel root o) →
      PassedOver sel root (inner ++ names)) :
    ∀ first ∈ Walk.files (Walk.finds t sel root o),
      ∀ second ∈ Walk.files (Walk.finds t sel root o), first ≠ second →
        Independent t first second := by
  intro first hfirst second hsecond hne
  obtain ⟨names, hnames, rfl⟩ := (h.mem_files_iff hfollow).1 hfirst
  obtain ⟨names', hnames', rfl⟩ := (h.mem_files_iff hfollow).1 hsecond
  obtain ⟨content, hfile⟩ := hnames.file
  obtain ⟨content', hfile'⟩ := hnames'.file
  rw [List.nil_append] at hfile hfile'
  obtain ⟨above, s, hsite, hplace⟩ := h.exists_site hfile
  obtain ⟨above', s', hsite', hplace'⟩ := h.exists_site hfile'
  have hsources : lr ++ names ≠ lr ++ names' := fun heq =>
    hne (congrArg (mirrored root o) (List.append_cancel_left heq))
  -- no file stands where a result goes
  have hplaces : ∀ {names names' : List String},
      mirrored root o names ∈ Walk.files (Walk.finds t sel root o) →
      Walk.Eligible t sel root lr [] names' → lr ++ names' ≠ lr ++ inner ++ names := by
    intro names names' hmem hnames' heq
    rw [List.append_assoc] at heq
    rw [List.append_cancel_left heq] at hnames'
    exact (hpassed names hmem).not_eligible hnames'
  refine ⟨_, above, s, _, above', s', hsite, hsite', ?_, ?_, ?_, ?_⟩
  · exact hplace ▸ hplaces hfirst hnames'
  · exact hplace' ▸ hplaces hsecond hnames
  · rw [← hplace, ← hplace', List.prefix_append_right_inj, ← List.prefix_append_right_inj lr]
    exact not_prefix_of_files h.wellFormed hfile hfile' hsources
  · rw [← hplace, ← hplace', List.prefix_append_right_inj, ← List.prefix_append_right_inj lr]
    exact not_prefix_of_files h.wellFormed hfile' hfile hsources.symm

/-- **If no result is where the walk looks, files can be visited in any order.** -/
theorem Unseen.visitAll_perm (hunseen : Unseen b snapshot sel t root o inner)
    (horder : order.Perm (Walk.files (Walk.finds t sel root o)))
    (horder' : order'.Perm (Walk.files (Walk.finds t sel root o))) :
    Agrees (b.visitAll snapshot t order).1 (b.visitAll snapshot t order').1 ∧
      (b.visitAll snapshot t order').2.Perm (b.visitAll snapshot t order).2 := by
  have hperm := horder.trans horder'.symm
  rcases hunseen with hquiet | hpassed
  · rw [visitAll_of_quiet fun x hx => hquiet x (horder.mem_iff.1 hx),
      visitAll_of_quiet fun x hx => hquiet x (horder'.mem_iff.1 hx)]
    exact ⟨.refl t, hperm.symm.map _⟩
  · refine @Batch.visitAll_perm b snapshot t t _ _ (fun u => Inside u root o lr inner ∧ Grows t u)
      (fun u hu => ⟨hu.1.wellFormed, hu.1.linkFree, hu.2⟩) hperm ?_
      (fun x hx y hy => h.independent hfollow hpassed x (horder.mem_iff.1 hx) y
        (horder.mem_iff.1 hy)) ⟨h, .refl t⟩
    rintro x hx u ⟨hu, hgrows⟩
    obtain ⟨names, hnames, rfl⟩ := (h.mem_files_iff hfollow).1 (horder.mem_iff.1 hx)
    obtain ⟨content, hfile⟩ := (hnames.grows hgrows).file
    rw [List.nil_append] at hfile
    exact (hu.visit hfile).imp_right hgrows.trans

end Order

/-! ## At once, and in turn -/

section Paced

variable (h : Inside p.tree root o lr inner)
include h

theorem Inside.not_rejected : b.rejection? p.tree root = none := by
  have hentry : p.tree.entryAt false root = .ok .directory :=
    FileTree.entryAt_eq_ok_iff.2 ⟨lr, h.locate_root, h.lookup_root⟩
  simp [rejection?, hentry, Entry.isLink, Entry.isDirectory]

theorem Inside.finds_passing (c : Bool) :
    Walk.finds p.tree (b.paced c).selection root o =
      Walk.finds p.tree b.passing.selection root o := by
  have hsel : Walk.SameFiles b.passing.selection (b.paced c).selection := ⟨rfl, rfl⟩
  exact Walk.finds_of_linkFree hsel h.linkFree root o

/-- At once, the files that there are to find are worked on. -/
theorem Inside.worked_at_once :
    (b.paced true).worked snapshot (some o) p (root, schedule) =
      schedule.works (Walk.files (Walk.finds p.tree b.passing.selection root o)) := by
  unfold worked
  rw [h.not_rejected, Option.getD_some, h.finds_passing]
  rfl

theorem Inside.accounts_at_once (hfair : schedule.IsFair) :
    Accounts b snapshot ((b.paced true).worked snapshot (some o) p (root, schedule)) [] p
      ((b.paced true).runRoot snapshot (some o) p root schedule) := by
  have haccounts := @accounts_atOnce b snapshot .none _ hfair (b.paced true).selection root o p
  rw [h.finds_passing, Walk.faults_finds h.wellFormed h.properRoot h.locate_root h.lookup_root rfl]
    at haccounts
  rw [h.worked_at_once, runRoot, h.not_rejected]
  exact haccounts

theorem Inside.run_logged_passing :
    Walk.run (b.visitor snapshot).logged (b.paced false).selection root o (p, []) =
      Walk.run (b.visitor snapshot).logged b.passing.selection root o (p, []) := by
  have hsel : Walk.SameFiles b.passing.selection (b.paced false).selection := ⟨rfl, rfl⟩
  refine @Walk.run_of_linkFree _ (b.visitor snapshot).logged _ _ _ _ hsel
    (fun u => u.1.tree.LinkFree) (fun _ hu => hu) (fun input output u hu => ?_) (fun _ _ hu => hu)
    (p, []) h.linkFree
  have htree := @tree_visitor_file b snapshot input output u.1
  exact htree ▸ linkFree_visit hu input output

/-- In turn, the files that the walk visits are worked on. -/
theorem Inside.worked_in_turn :
    (b.paced false).worked snapshot (some o) p (root, schedule) =
      Walk.visited (b.visitor snapshot) b.passing.selection root o p := by
  unfold worked Walk.visited
  rw [h.not_rejected, ← h.run_logged_passing]
  rfl

theorem Inside.runRoot_in_turn :
    (b.paced false).runRoot snapshot (some o) p root schedule =
      Walk.run (b.visitor snapshot) b.passing.selection root o p := by
  unfold runRoot
  rw [h.not_rejected, ← @Walk.run_logged _ (b.visitor snapshot) _ _ _ p [],
    ← h.run_logged_passing, Walk.run_logged]
  rfl

theorem Inside.accounts_in_turn :
    Accounts b snapshot ((b.paced false).worked snapshot (some o) p (root, schedule)) [] p
      ((b.paced false).runRoot snapshot (some o) p root schedule) := by
  have haccounts :=
    (@traced_visited b snapshot b.passing.selection _ _ _ _ _ rfl h).accounts
  rw [List.reverse_reverse] at haccounts
  rwa [h.worked_in_turn, h.runRoot_in_turn]

end Paced

theorem Unseen.passing (hunseen : Unseen b snapshot b.selection t root o inner)
    (hlinks : t.LinkFree) : Unseen b snapshot b.passing.selection t root o inner := by
  have hsel : Walk.SameFiles b.selection b.passing.selection := ⟨rfl, rfl⟩
  unfold Unseen
  rw [Walk.finds_of_linkFree hsel hlinks]
  exact hunseen

section Unseen

variable (hunseen : Unseen b snapshot b.selection p.tree root o inner)
  (h : Inside p.tree root o lr inner) (hfair : schedule.IsFair)
include hunseen h hfair

/-- If no result is where the walk looks, the same visits are made at once and in turn. -/
theorem Unseen.visits :
    ((b.paced true).worked snapshot (some o) p (root, schedule)).Perm
        ((b.paced false).worked snapshot (some o) p (root, {})) ∧
      Agrees (b.visitAll snapshot p.tree
          ((b.paced true).worked snapshot (some o) p (root, schedule))).1
        (b.visitAll snapshot p.tree
          ((b.paced false).worked snapshot (some o) p (root, {}))).1 ∧
      (b.visitAll snapshot p.tree ((b.paced false).worked snapshot (some o) p (root, {}))).2.Perm
        (b.visitAll snapshot p.tree
          ((b.paced true).worked snapshot (some o) p (root, schedule))).2 := by
  have hpassing := hunseen.passing h.linkFree
  have hfound := hfair.1 (Walk.files (Walk.finds p.tree b.passing.selection root o))
  have hvisited := hpassing.perm_visited rfl h
  rw [h.worked_at_once, h.worked_in_turn]
  exact ⟨hfound.trans hvisited.symm, hpassing.visitAll_perm rfl h hfound hvisited⟩

/-- **If no result is where the walk looks, at once and in turn lead to the same.** -/
theorem Unseen.matches (hkeys : b.dryRun = false → b.OwnKeys snapshot p.tree root o) :
    Matches b ((b.paced true).runRoot snapshot (some o) p root schedule)
      ((b.paced false).runRoot snapshot (some o) p root {}) := by
  obtain ⟨-, htrees, hrecords⟩ := hunseen.visits h hfair
  have hrefl : Matches b p p := ⟨.refl _, rfl, rfl, fun _ => rfl, .refl _⟩
  refine hrefl.accounts (h.accounts_at_once hfair) h.accounts_in_turn htrees hrecords
    fun hdry => nodup_keys_learned fun cache hcache => ?_
  refine (hkeys hdry).nodup hcache h.wellFormed h.linkFree h.properRoot ?_
  have hsel : Walk.SameFiles b.selection b.passing.selection := ⟨rfl, rfl⟩
  rw [h.worked_at_once, Walk.finds_of_linkFree hsel h.linkFree]
  exact hfair.1 _

end Unseen

/-- The files that a run with one root works on, each with the path of its result. -/
def workedOn (b : Batch) (t : FileTree) (root o : Path) (schedule : Schedule Books) :
    List (Path × Path) :=
  b.worked (b.snapshot t) (some o) ⟨t, { cache := b.snapshot t }, []⟩ (root, schedule)

/-- **An output root inside the root**, in a tree without links.  A batch that works in turn
works on every file that a batch works on at once.  What it works on besides was not there at the
start: it is the result of a file that it has worked on before.

If no result is where the walk looks, both work on the same files and leave the same tree, but
for the cache file.  They leave the same cache file, write and look at as many files and report
the same faults, each as often, if no two files go by one key for the cache. -/
theorem run_inside (h : Inside t root o lr inner) (hfair : schedule.IsFair) :
    (∀ x ∈ (b.paced true).workedOn t root o schedule,
      x ∈ (b.paced false).workedOn t root o {}) ∧
    (∀ before x after, (b.paced false).workedOn t root o {} = before ++ x :: after →
      x ∈ (b.paced true).workedOn t root o schedule ∨
      t.isFile x.1 = false ∧ ∃ y ∈ before, ∃ l,
        ((b.paced false).reached t [(root, {})] (some o)).tree.locate true x.1 = .ok l ∧
        ((b.paced false).reached t [(root, {})] (some o)).tree.locate true y.2 = .ok l) ∧
    (b.Unseen (b.snapshot t) b.selection t root o inner →
      ((b.paced true).workedOn t root o schedule).Perm ((b.paced false).workedOn t root o {}) ∧
      Agrees ((b.paced true).reached t [(root, schedule)] (some o)).tree
        ((b.paced false).reached t [(root, {})] (some o)).tree ∧
      ((b.dryRun = false → b.OwnKeys (b.snapshot t) t root o) →
        Agrees ((b.paced true).runScheduled t [(root, schedule)] (some o)).2
            ((b.paced false).run t [root] (some o)).2 ∧
          ((b.paced false).run t [root] (some o)).1.written =
            ((b.paced true).runScheduled t [(root, schedule)] (some o)).1.written ∧
          ((b.paced false).run t [root] (some o)).1.checked =
            ((b.paced true).runScheduled t [(root, schedule)] (some o)).1.checked ∧
          ((b.paced false).run t [root] (some o)).1.faults.Perm
            ((b.paced true).runScheduled t [(root, schedule)] (some o)).1.faults)) := by
  have hstart : Inside (⟨t, { cache := b.snapshot t }, []⟩ : Progress Books).tree root o lr inner :=
    h
  have hworked : ∀ c schedule, (b.paced c).workedOn t root o schedule =
      (b.paced c).worked (b.snapshot t) (some o) ⟨t, { cache := b.snapshot t }, []⟩
        (root, schedule) := fun _ _ => rfl
  have hreached : ∀ c schedule, (b.paced c).reached t [(root, schedule)] (some o) =
      (b.paced c).runRoot (b.snapshot t) (some o) ⟨t, { cache := b.snapshot t }, []⟩ root
        schedule := fun _ _ => rfl
  have hmem : ∀ x, x ∈ (b.paced true).workedOn t root o schedule ↔
      x ∈ Walk.files (Walk.finds t b.passing.selection root o) := by
    intro x
    rw [hworked, hstart.worked_at_once]
    exact (hfair.1 _).mem_iff
  have hfinish : ∀ c p, (b.paced c).finish [root] p = b.finish [root] p := fun _ _ => rfl
  refine ⟨fun x hx => ?_, fun before x after hsplit => ?_, fun hunseen => ?_⟩
  · rw [hworked, hstart.worked_in_turn]
    exact hstart.mem_visited rfl ((hmem x).1 hx)
  · rw [hworked, hstart.worked_in_turn] at hsplit
    rw [hmem, hreached, hstart.runRoot_in_turn]
    exact hstart.origin rfl hsplit
  · have hunseen : Unseen b (b.snapshot t) b.selection
        (⟨t, { cache := b.snapshot t }, []⟩ : Progress Books).tree root o inner := hunseen
    obtain ⟨hperm, htrees, -⟩ := hunseen.visits hstart hfair
    rw [Batch.run, runScheduled_eq, runScheduled_eq, List.map_singleton, List.map_singleton,
      List.map_singleton, hfinish, hfinish]
    simp only [hworked, hreached]
    refine ⟨hperm, ?_, fun hkeys => ?_⟩
    · rwa [(hstart.accounts_at_once hfair).tree, hstart.accounts_in_turn.tree]
    · have hmatches := hunseen.matches hstart hfair hkeys
      obtain ⟨htree, hfaults⟩ := hmatches.finish [root]
      refine ⟨htree, hmatches.written, hmatches.checked, ?_⟩
      exact (List.reverse_perm _).trans (hfaults.trans (List.reverse_perm _).symm)

/-! ## An output root that is passed over, and one that is not -/

/-- A tree with a file in `src`, and a directory beside it for results. -/
def withOutput (name : String) : FileTree where
  entries := [(["src"], .directory), (["src", "a.swift"], .file "a\n".toUTF8),
    (["src", name], .directory)]
  workingDirectory := []

theorem inside_hidden : Inside (withOutput ".out") (Path.ofText "src") (Path.ofText "src/.out")
    ["src"] [".out"] :=
  ⟨by decide +kernel, FileTree.linkFree_of_entries (by decide +kernel), Path.proper_ofText _,
    Path.proper_ofText _, rfl, rfl, rfl⟩

theorem inside_visible : Inside (withOutput "out") (Path.ofText "src") (Path.ofText "src/out")
    ["src"] ["out"] :=
  ⟨by decide +kernel, FileTree.linkFree_of_entries (by decide +kernel), Path.proper_ofText _,
    Path.proper_ofText _, rfl, rfl, rfl⟩

/-- The walk does not go into a directory with a dot in front of its name. -/
theorem run_inside_hidden :
    Inside (withOutput ".out") (Path.ofText "src") (Path.ofText "src/.out") ["src"] [".out"] ∧
    backwards.IsFair ∧
    Unseen uncached none {} (withOutput ".out") (Path.ofText "src") (Path.ofText "src/.out")
      [".out"] ∧
    Agrees
      ((uncached.paced true).runScheduled (withOutput ".out") [(Path.ofText "src", backwards)]
        (some (Path.ofText "src/.out"))).2
      ((uncached.paced false).run (withOutput ".out") [Path.ofText "src"]
        (some (Path.ofText "src/.out"))).2 := by
  have hunseen : Unseen uncached none {} (withOutput ".out") (Path.ofText "src")
      (Path.ofText "src/.out") [".out"] :=
    .inr fun names _ => ⟨[], ".out", List.prefix_append _ _, by decide +kernel⟩
  have hkeys : uncached.OwnKeys none (withOutput ".out") (Path.ofText "src")
      (Path.ofText "src/.out") := fun cache hcache => by simp at hcache
  refine ⟨inside_hidden, isFair_backwards, hunseen, ?_⟩
  exact ((run_inside inside_hidden isFair_backwards).2.2 hunseen |>.2.2 fun _ => hkeys).1

section Visible

variable {σ : Type} {v : Walk.Visitor σ} {s : σ}

/-- The file comes before the directory. -/
theorem run_visible (hopen : v.refusals = .none) (hs : v.tree s = withOutput "out") :
    Walk.run v sel (Path.ofText "src") (Path.ofText "src/out") s =
      ["a.swift", "out"].foldl
        (Walk.enter v sel (Path.ofText "src") (Path.ofText "src/out")
          [⟨Path.ofText "src", ["src"]⟩]
          (fun p => Walk.descend v sel (Path.ofText "src") (Path.ofText "src/out") 24 p
            [⟨Path.ofText "src", ["src"]⟩]) (Path.ofText "src")) s := by
  have hnames : (withOutput "out").names ["src"] = ["a.swift", "out"] := by
    unfold FileTree.names
    rw [List.mergeSort_of_pairwise (by decide +kernel)]
    rfl
  have hdepth : Walk.depthBound (withOutput "out") = 24 + 1 := rfl
  have hlocate : (v.tree s).locate true (Path.ofText "src") = .ok ["src"] := hs ▸ rfl
  rw [@Walk.run_of_directory _ v sel ["src"] _ _ s (hs ▸ rfl) (hs ▸ rfl), hs, hdepth,
    Path.below_nil, Walk.descend_succ hlocate (by rw [hopen]; rfl), hs, hnames]

end Visible

/-- In turn, the result is worked on as well. -/
theorem workedOn_visible :
    (uncached.paced true).workedOn (withOutput "out") (Path.ofText "src")
        (Path.ofText "src/out") {} =
      [(Path.ofText "src/a.swift", Path.ofText "src/out/a.swift")] ∧
    (uncached.paced false).workedOn (withOutput "out") (Path.ofText "src")
        (Path.ofText "src/out") {} =
      [(Path.ofText "src/a.swift", Path.ofText "src/out/a.swift"),
        (Path.ofText "src/out/a.swift", Path.ofText "src/out/out/a.swift")] := by
  have hstart : Inside (⟨withOutput "out", { cache := none }, []⟩ : Progress Books).tree
      (Path.ofText "src") (Path.ofText "src/out") ["src"] ["out"] := inside_visible
  have honce : (uncached.paced true).workedOn (withOutput "out") (Path.ofText "src")
      (Path.ofText "src/out") {} = _ := hstart.worked_at_once
  have hturn : (uncached.paced false).workedOn (withOutput "out") (Path.ofText "src")
      (Path.ofText "src/out") {} = _ := hstart.worked_in_turn
  rw [honce, hturn, Walk.finds, Walk.visited, run_visible rfl rfl, run_visible rfl rfl]
  constructor
  · decide +kernel
  · decide +kernel

/-- Without a cache file, a run leaves what its visits leave. -/
theorem run_uncached (c : Bool) :
    ((uncached.paced c).run (withOutput "out") [Path.ofText "src"]
        (some (Path.ofText "src/out"))).2 =
      (uncached.visitAll none (withOutput "out") ((uncached.paced c).workedOn (withOutput "out")
        (Path.ofText "src") (Path.ofText "src/out") {})).1 := by
  have hstart : Inside (⟨withOutput "out", { cache := none }, []⟩ : Progress Books).tree
      (Path.ofText "src") (Path.ofText "src/out") ["src"] ["out"] := inside_visible
  have hfinish : ∀ roots p, ((uncached.paced c).finish roots p).tree = p.tree := by
    intro roots p
    unfold finish
    split_ifs <;> rfl
  rw [Batch.run, runScheduled_eq, hfinish]
  cases c with
  | true => exact (hstart.accounts_at_once ⟨fun _ => .refl _, fun _ => .refl _⟩).tree
  | false => exact hstart.accounts_in_turn.tree

/-- **A directory that is listed after the first result**: in turn, the result is worked on, and
its own result goes one directory further. -/
theorem run_inside_visible :
    Inside (withOutput "out") (Path.ofText "src") (Path.ofText "src/out") ["src"] ["out"] ∧
    (¬∀ x,
      x ∈ (uncached.paced true).workedOn (withOutput "out") (Path.ofText "src")
        (Path.ofText "src/out") {} ↔
      x ∈ (uncached.paced false).workedOn (withOutput "out") (Path.ofText "src")
        (Path.ofText "src/out") {}) ∧
    ¬Agrees
      ((uncached.paced true).run (withOutput "out") [Path.ofText "src"]
        (some (Path.ofText "src/out"))).2
      ((uncached.paced false).run (withOutput "out") [Path.ofText "src"]
        (some (Path.ofText "src/out"))).2 := by
  refine ⟨inside_visible, fun hall => ?_, fun hagrees => ?_⟩
  · rw [workedOn_visible.1, workedOn_visible.2] at hall
    exact absurd ((hall (Path.ofText "src/out/a.swift", Path.ofText "src/out/out/a.swift")).2
      (by simp)) (by decide +kernel)
  · have hread := @Agrees.readText _ _ (Path.ofText "src/out/out/a.swift") hagrees
    rw [run_uncached, run_uncached, workedOn_visible.1, workedOn_visible.2] at hread
    exact absurd hread (by decide +kernel)

end Batch
end Restyle
