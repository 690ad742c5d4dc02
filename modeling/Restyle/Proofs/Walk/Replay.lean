import Restyle.Proofs.FileTree.Access
import Restyle.Walk

/-!
# Walks that can be replayed

A walk asks the tree of its visitor at every step, and a visitor may change the tree.
As long as the changes are `Alike` for the walk, it comes across the same things in the
same order as in the tree it started from: the walk is then a fold over what there was
to find.

What two trees must have in common for that depends on how far a walk looks.  One that
does not follow links looks at nothing outside its root, so the trees may differ there;
one that follows links may look anywhere.

* `descent`: what there is to find below a directory, as a list.
* `descend_eq_foldl`: the walk below a directory meets this list, one after the other.
* `run_eq_foldl`: so does the walk from a root.
* `finds_of_sameShape`: what there is to find does not depend on the bytes of files.
-/

namespace Restyle
namespace Walk

open FileTree (Grows SameShape WellFormed)

variable {σ : Type} {v : Visitor σ} {t u : FileTree} {sel : Selection} {base loc : Location}
  {root output p directory : Path} {name : String} {above : List Level} {r : Refusals}

/-! ## What there is to find -/

/-- What a visitor does at a find. -/
def Visitor.meet (v : Visitor σ) (s : σ) : Find → σ
  | .file input output => v.file input output s
  | .fault f => v.fault f s

/-- What there is to find at a name in a directory, given what there is below it. -/
def findsAt (t : FileTree) (sel : Selection) (root output : Path) (above : List Level)
    (deeper : Path → List Find) (p : Path) (name : String) : List Find :=
  match inspect t sel above p with
  | .error fault => [.fault fault]
  | .ok none => []
  | .ok (some e) =>
    if isPruned sel root p name then []
    else match e with
      | .directory => deeper p
      | .file _ =>
        if !sel.supports p then []
        else match p.relativeTo? root with
          | some below => [.file p (output.join below)]
          | none => []
      | .link _ => []

/-- What there is to find below a directory. -/
def descent (t : FileTree) (sel : Selection) (root output : Path) (fuel : Nat)
    (directory : Path) (above : List Level) (r : Refusals := .none) : List Find :=
  match fuel with
  | 0 => []
  | fuel + 1 =>
    match t.locate true directory with
    | .error _ => []
    | .ok loc =>
      match r.reading loc with
      | some e => [.fault (closed directory e)]
      | none =>
        (t.names loc).flatMap fun name =>
          findsAt t sel root output (⟨directory, loc⟩ :: above)
            (fun p => descent t sel root output fuel p (⟨directory, loc⟩ :: above) r)
            (directory.child name) name

/-! ## Trees that are alike for a walk -/

/-- A tree that keeps what another has, and that has nothing else at a location or below
it. -/
structure Alike (base : Location) (t u : FileTree) : Prop where
  /-- The tree stands for a disk. -/
  wellFormed : u.WellFormed
  /-- What there is stays. -/
  grows : Grows t u
  /-- Nothing comes below the location. -/
  shape : ∀ {loc : Location}, base <+: loc →
    (u.lookup loc).map Entry.shape = (t.lookup loc).map Entry.shape

theorem Alike.refl (ht : t.WellFormed) (base : Location) : Alike base t t :=
  ⟨ht, .refl t, fun _ => rfl⟩

theorem alike_of_sameShape (hu : u.WellFormed) (h : SameShape t u) : Alike base t u :=
  ⟨hu, h.grows, fun {loc} _ => h.lookup loc⟩

/-- If nothing came anywhere, every path leads where it led. -/
theorem Alike.locate (h : Alike [] t u) {followLast : Bool} :
    u.locate followLast p = t.locate followLast p := by
  unfold FileTree.locate FileTree.resolve
  rw [h.grows.workingDirectory]
  simp only [FileTree.follow_shape fun _ => h.shape List.nil_prefix]

theorem Alike.names (h : Alike base t u) (ht : t.WellFormed) (hloc : base <+: loc) :
    u.names loc = t.names loc := by
  refine ht.names_eq h.wellFormed fun s => ?_
  simpa using congrArg Option.isSome (h.shape (hloc.trans (List.prefix_append loc [s])))

/-! ## One name -/

/-- A directory on the way down: the path leads there, and it stands at the base of the
walk or below it. -/
structure Reached (base : Location) (t : FileTree) (directory : Path) (loc : Location) : Prop where
  /-- The path leads to the location. -/
  locate : t.locate true directory = .ok loc
  /-- A directory stands there. -/
  lookup : t.lookup loc = some .directory
  /-- It is not outside the base. -/
  below : base <+: loc

theorem Reached.alike (hd : Reached base t directory loc) (h : Alike base t u) :
    Reached base u directory loc :=
  ⟨FileTree.locate_of_grows h.grows hd.locate, h.grows.directory hd.lookup, hd.below⟩

/-- **What a walk makes of an entry depends on the shape of the tree only.** -/
theorem inspect_alike (h : Alike base t u) (ht : t.WellFormed)
    (hlinks : sel.followLinks = false ∨ base = []) (hd : Reached base t directory loc)
    (hname : name ∈ t.names loc) :
    (inspect u sel above (directory.child name)).map (Option.map Entry.shape) =
      (inspect t sel above (directory.child name)).map (Option.map Entry.shape) := by
  obtain ⟨e, he⟩ := Option.isSome_iff_exists.1 (FileTree.mem_names.1 hname)
  have hplain := (ht.isName he name (by simp)).1
  obtain ⟨e', he', hshape⟩ := Option.map_eq_some_iff.1 (h.grows.lookup he)
  have hd' := hd.alike h
  unfold inspect
  rw [FileTree.entryAt_child hd.locate hd.lookup hplain,
    FileTree.entryAt_child hd'.locate hd'.lookup hplain, he, he']
  simp only [Entry.isLink_eq_of_shape hshape]
  split_ifs with hfollow
  · simp [Except.map, hshape]
  · -- a link is followed, so the trees are the same everywhere up to bytes
    obtain rfl : base = [] := hlinks.resolve_left (by simp_all)
    rw [h.locate]
    cases t.locate true (directory.child name) with
    | error e => rfl
    | ok l =>
      simp only
      rcases Entry.cases_of_map_shape (h.shape (@List.nil_prefix _ l)) with
        ⟨hul, htl⟩ | ⟨hul, htl⟩ | ⟨target, hul, htl⟩ | ⟨content, content', hul, htl⟩
      all_goals rw [hul, htl]
      simp [Except.map]

/-- A directory that a walk goes down to is reached by the path. -/
theorem reached_of_inspect (ht : t.WellFormed) (hlinks : sel.followLinks = false ∨ base = [])
    (hd : Reached base t directory loc) (hname : name ∈ t.names loc)
    (hinspect : inspect t sel above (directory.child name) = .ok (some .directory)) :
    ∃ l, Reached base t (directory.child name) l := by
  obtain ⟨e, he⟩ := Option.isSome_iff_exists.1 (FileTree.mem_names.1 hname)
  have hplain := (ht.isName he name (by simp)).1
  rw [inspect, FileTree.entryAt_child hd.locate hd.lookup hplain, he] at hinspect
  simp only at hinspect
  split_ifs at hinspect with hfollow
  · obtain rfl : e = .directory := by simpa using hinspect
    exact ⟨loc ++ [name], FileTree.locate_child hd.locate hd.lookup hplain he (.inl rfl), he,
      hd.below.trans (List.prefix_append _ _)⟩
  · obtain rfl : base = [] := hlinks.resolve_left (by simp_all)
    split at hinspect
    · simp at hinspect
    · rename_i l hl
      refine ⟨l, hl, ?_, List.nil_prefix⟩
      split at hinspect
      · assumption
      · simpa using hinspect

/-- One name is met by meeting what there is to find at it, if that holds of a directory
with this name. -/
theorem meet_findsAt {above : List Level} {deeper : Path → List Find} {s : σ} {down : σ}
    (halike : (inspect u sel above p).map (Option.map Entry.shape) =
      (inspect t sel above p).map (Option.map Entry.shape))
    (hdown : inspect t sel above p = .ok (some .directory) → isPruned sel root p name = false →
      down = (deeper p).foldl v.meet s) :
    (match inspect u sel above p with
      | .error fault => v.fault fault s
      | .ok none => s
      | .ok (some e) =>
        if isPruned sel root p name then s
        else match e with
          | .directory => down
          | .file _ =>
            if !sel.supports p then s
            else match p.relativeTo? root with
              | some below => v.file p (output.join below) s
              | none => s
          | .link _ => s) =
      (findsAt t sel root output above deeper p name).foldl v.meet s := by
  unfold findsAt
  rcases FileTree.cases_of_except_map halike with ⟨fault, hu, ht⟩ | ⟨o, o', hu, ht, hshape⟩
  · rw [hu, ht]
    rfl
  rw [hu, ht]
  rcases Entry.cases_of_map_shape hshape with
    ⟨rfl, rfl⟩ | ⟨rfl, rfl⟩ | ⟨target, rfl, rfl⟩ | ⟨content, content', rfl, rfl⟩
  · rfl
  · cases hpruned : isPruned sel root p name with
    | true => simp
    | false => simpa using hdown ht hpruned
  · cases isPruned sel root p name <;> simp
  · cases isPruned sel root p name with
    | true => simp
    | false =>
      cases sel.supports p with
      | false => simp
      | true => cases p.relativeTo? root <;> simp [Visitor.meet]

/-! ## The way down -/

theorem foldl_eq_foldl_flatMap {α β : Type} {I : σ → Prop} {step : σ → α → σ} {meet : σ → β → σ}
    {finds : α → List β} {l : List α}
    (hstep : ∀ a ∈ l, ∀ s, I s → step s a = (finds a).foldl meet s)
    (hI : ∀ a ∈ l, ∀ find ∈ finds a, ∀ s, I s → I (meet s find)) {s : σ} (hs : I s) :
    l.foldl step s = (l.flatMap finds).foldl meet s := by
  induction l generalizing s with
  | nil => rfl
  | cons a rest ih =>
    rw [List.foldl_cons, List.flatMap_cons, List.foldl_append, hstep a List.mem_cons_self s hs]
    refine ih (fun b hb => hstep b (List.mem_cons_of_mem _ hb))
      (fun b hb => hI b (List.mem_cons_of_mem _ hb)) ?_
    exact List.foldlRecOn _ _ hs fun s hs find hfind => hI a List.mem_cons_self find hfind s hs

/-- **The walk below a directory meets what there was to find there**, one after the
other, if what the visitor does on the way keeps the tree alike. -/
theorem descend_eq_foldl {I : σ → Prop} (hI : ∀ s, I s → Alike base t (v.tree s))
    (ht : t.WellFormed) (hlinks : sel.followLinks = false ∨ base = []) {fuel : Nat} {s : σ}
    (hd : Reached base t directory loc)
    (hstep : ∀ find ∈ descent t sel root output fuel directory above v.refusals,
      ∀ s, I s → I (v.meet s find))
    (hs : I s) :
    descend v sel root output fuel directory above s =
      (descent t sel root output fuel directory above v.refusals).foldl v.meet s := by
  induction fuel generalizing directory loc above s with
  | zero => rfl
  | succ fuel ih =>
    rw [descent, hd.locate] at hstep ⊢
    rw [descend, (hd.alike (hI s hs)).locate]
    simp only [(hI s hs).names ht hd.below]
    cases hrefused : v.refusals.reading loc with
    | some e => rfl
    | none =>
      simp only [hrefused] at hstep ⊢
      have hfinds := fun name hname find hfind =>
        hstep find (List.mem_flatMap.2 ⟨name, hname, hfind⟩)
      refine foldl_eq_foldl_flatMap (fun name hname s hs => ?_) hfinds hs
      refine meet_findsAt (inspect_alike (hI s hs) ht hlinks hd hname) fun hinspect hpruned => ?_
      obtain ⟨l, hl⟩ := reached_of_inspect ht hlinks hd hname hinspect
      refine ih hl (fun find hfind => hfinds name hname find ?_) hs
      simpa [findsAt, hinspect, hpruned] using hfind

/-! ## The whole walk -/

theorem foldl_meet_recorder (l acc : List Find) :
    l.foldl (recorder t r).meet acc = l.reverse ++ acc := by
  induction l generalizing acc with
  | nil => rfl
  | cons find rest ih =>
    rw [List.foldl_cons, ih]
    cases find <;> simp [Visitor.meet, recorder]

/-- What there is to find below a directory is what a walk below it finds. -/
theorem reverse_descend_recorder (h : Alike base t u) (ht : t.WellFormed)
    (hlinks : sel.followLinks = false ∨ base = []) (hd : Reached base t directory loc)
    (fuel : Nat) :
    (descend (recorder u r) sel root output fuel directory above []).reverse =
      descent t sel root output fuel directory above r := by
  have hreplay := @descend_eq_foldl _ (recorder u r) t sel base loc root output directory above
    (fun _ => True) (fun _ _ => h) ht hlinks fuel [] hd (fun _ _ _ _ => trivial) trivial
  rw [hreplay, foldl_meet_recorder, List.append_nil, List.reverse_reverse]
  rfl

/-- A root that is a directory is reached by its path. -/
theorem reached_of_inspectRoot (h : inspectRoot t sel root = .ok (some .directory)) :
    ∃ lr, t.locate true root = .ok lr ∧ t.lookup lr = some .directory := by
  unfold inspectRoot at h
  cases hroot : t.entryAt false root with
  | error e => cases e <;> simp [hroot] at h
  | ok e =>
    rw [hroot] at h
    cases e with
    | file content => simp at h
    | directory =>
      obtain ⟨lr, hlr, hdir⟩ := FileTree.entryAt_eq_ok_iff.1 hroot
      exact ⟨lr, FileTree.locate_true_of_not_link hlr (by simp [hdir]), hdir⟩
    | link target =>
      simp only at h
      split_ifs at h
      · simp at h
      · cases htarget : t.entryAt true root with
        | error e => simp [htarget] at h
        | ok e =>
          rw [htarget] at h
          obtain rfl : e = .directory := Option.some.inj (Except.ok.inj h)
          exact FileTree.entryAt_eq_ok_iff.1 htarget

/-- What there is to find from a root. -/
theorem finds_eq (ht : t.WellFormed) (sel : Selection) (root output : Path) :
    finds t sel root output r = match inspectRoot t sel root with
      | .error fault => [.fault fault]
      | .ok (some (.file _)) =>
        if sel.supports root then [.file root (singleTarget t root output)] else []
      | .ok (some .directory) => descent t sel root output (depthBound t) root [] r
      | .ok _ => [] := by
  have hdescent : inspectRoot t sel root = .ok (some .directory) →
      (descend (recorder t r) sel root output (depthBound t) root [] []).reverse =
        descent t sel root output (depthBound t) root [] r := by
    intro hroot
    obtain ⟨lr, hlr, hdir⟩ := reached_of_inspectRoot hroot
    exact reverse_descend_recorder (.refl ht []) ht (.inr rfl) ⟨hlr, hdir, List.nil_prefix⟩ _
  unfold finds run
  show List.reverse (match inspectRoot t sel root with
    | .error fault => _ | .ok (some (.file _)) => _ | .ok (some .directory) => _ | .ok _ => _) = _
  cases hroot : inspectRoot t sel root with
  | error fault => rfl
  | ok o =>
    cases o with
    | none => rfl
    | some e =>
      cases e with
      | file content => cases sel.supports root <;> simp [recorder]
      | directory => exact hdescent hroot
      | link target => rfl

/-- **The walk from a root meets what there was to find**, one after the other, if what
the visitor does on the way keeps the tree alike. -/
theorem run_eq_foldl {I : σ → Prop} {s : σ} (ht : (v.tree s).WellFormed)
    (hI : ∀ s', I s' → Alike base (v.tree s) (v.tree s'))
    (hlinks : sel.followLinks = false ∨ base = [])
    (hbase : ∀ {lr}, (v.tree s).locate true root = .ok lr → base <+: lr)
    (hstep : ∀ find ∈ finds (v.tree s) sel root output v.refusals, ∀ s, I s → I (v.meet s find))
    (hs : I s) :
    run v sel root output s =
      (finds (v.tree s) sel root output v.refusals).foldl v.meet s := by
  rw [finds_eq ht] at hstep ⊢
  simp only [run]
  cases hroot : inspectRoot (v.tree s) sel root with
  | error fault => rfl
  | ok o =>
    cases o with
    | none => rfl
    | some e =>
      cases e with
      | file content => cases sel.supports root <;> simp [Visitor.meet]
      | link target => rfl
      | directory =>
        obtain ⟨lr, hlr, hdir⟩ := reached_of_inspectRoot hroot
        rw [hroot] at hstep
        exact descend_eq_foldl hI ht hlinks ⟨hlr, hdir, hbase hlr⟩ hstep hs

/-! ## The bytes of files make no difference -/

section SameShape

variable (h : SameShape t u)
include h

theorem entryAt_shape {followLast : Bool} :
    (u.entryAt followLast p).map Entry.shape = (t.entryAt followLast p).map Entry.shape := by
  unfold FileTree.entryAt
  rw [h.locate]
  cases t.locate followLast p with
  | error e => rfl
  | ok l =>
    simp only
    rcases Entry.cases_of_map_shape (h.lookup l) with
      ⟨hul, htl⟩ | ⟨hul, htl⟩ | ⟨target, hul, htl⟩ | ⟨content, content', hul, htl⟩
    all_goals rw [hul, htl]
    simp [Except.map]

theorem isDirectory_of_sameShape : u.isDirectory p = t.isDirectory p := by
  unfold FileTree.isDirectory FileTree.holds
  rcases FileTree.cases_of_except_map (@entryAt_shape t u p h true) with
    ⟨e, hu, ht⟩ | ⟨e, e', hu, ht, hshape⟩
  · rw [hu, ht]
  · rw [hu, ht]
    cases e <;> cases e' <;> simp_all [Entry.isDirectory]

theorem inspectRoot_shape :
    (inspectRoot u sel root).map (Option.map Entry.shape) =
      (inspectRoot t sel root).map (Option.map Entry.shape) := by
  unfold inspectRoot
  rcases FileTree.cases_of_except_map (@entryAt_shape t u root h false) with
    ⟨e, hu, ht⟩ | ⟨e, e', hu, ht, hshape⟩
  · rw [hu, ht]
    cases e <;> rfl
  rw [hu, ht]
  cases e with
  | directory =>
    obtain rfl := Entry.shape_eq_directory.1 hshape
    rfl
  | file content =>
    obtain ⟨content', rfl⟩ := Entry.shape_eq_file.1 hshape
    rfl
  | link target =>
    obtain rfl := Entry.shape_eq_link.1 hshape
    simp only
    split_ifs
    · rfl
    · rcases FileTree.cases_of_except_map (@entryAt_shape t u root h true) with
        ⟨e, hu, ht⟩ | ⟨e, e', hu, ht, hshape⟩
      · simp [hu, ht]
      · simp [hu, ht, Except.map, hshape]

/-- **What there is to find does not depend on the bytes of files.** -/
theorem finds_of_sameShape (ht : t.WellFormed) (hu : u.WellFormed) :
    finds u sel root output r = finds t sel root output r := by
  have hshape := @inspectRoot_shape t u sel root h
  have hbound : depthBound u = depthBound t := by rw [depthBound, depthBound, h.length]
  have htarget : singleTarget u root output = singleTarget t root output := by
    unfold singleTarget
    rw [isDirectory_of_sameShape h]
  rw [finds_eq hu, finds_eq ht, hbound, htarget]
  rcases FileTree.cases_of_except_map hshape with ⟨fault, hur, htr⟩ | ⟨o, o', hur, htr, ho⟩
  · rw [hur, htr]
  rw [hur, htr]
  rcases Entry.cases_of_map_shape ho with
    ⟨rfl, rfl⟩ | ⟨rfl, rfl⟩ | ⟨target, rfl, rfl⟩ | ⟨content, content', rfl, rfl⟩
  · rfl
  · obtain ⟨lr, hlr, hdir⟩ := reached_of_inspectRoot htr
    have hreached : Reached [] t root lr := ⟨hlr, hdir, List.nil_prefix⟩
    have halike : Alike [] t u := alike_of_sameShape hu h
    simp only
    rw [← reverse_descend_recorder halike ht (.inr rfl) hreached,
      ← reverse_descend_recorder (.refl hu []) hu (.inr rfl) (hreached.alike halike)]
  · rfl
  · rfl

end SameShape

end Walk
end Restyle
