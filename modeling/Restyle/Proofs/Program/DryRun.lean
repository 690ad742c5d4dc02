import Restyle.Program
import Restyle.Proofs.Batch.Accounting
import Restyle.Proofs.FileTree.Clearing

/-!
# What a dry run of the program leaves behind

A batch with nothing to be written changes nothing, but the program is more than its batch.  Before
the batch begins, it looks for the cache, and at the usual place it makes the directory of the cache
file with all that is missing above it.  It does so in a dry run as well, which does not save a
cache.

* `gained_createDirectories`: what making a directory adds to a tree.
* `isDirectory_of_createDirectories`: a directory that was made without an error is there.
* `tree_chooseCache`: what looking for the cache does to the disk.
* `after_formatFiles`: the rest of a dry run over files does nothing to it.
* `tree_run_dryRun`: what a dry run leaves behind, and when this is the disk as it was.
-/

namespace Restyle

/-! ## Directories that are made -/

namespace Path

variable {p q : Path}

theorem Trimmed.of_mem_upward (hp : p.Trimmed) {n : Nat} (h : q ∈ upward n p) : q.Trimmed :=
  upward_induction (fun _ hparent => .of_parent? hparent) hp h

/-- What stands above a name below a path that ends with a name is this path. -/
theorem parent?_child_child (p : Path) {s s' : String} (hs : isIdle s = false)
    (hs' : isIdle s' = false) : ((p.child s).child s').parent? = some (p.child s) := by
  have hstem : (p.child s).stem = p.stem ++ [s] := by
    simp [stem, child_eq, ne_empty_of_not_isIdle hs]
  have htrimmed : ((p.child s).child s').trimmed = ⟨p.rooted, p.stem ++ [s] ++ [s']⟩ := by
    rw [child_eq (p.child s), hstem, child_eq, trimmed_of_not_isIdle hs']
  have hlast : (p.stem ++ [s] ++ [s'] == [""]) = false := by
    rw [beq_eq_false_iff_ne]
    intro h
    simpa using congrArg List.length h
  unfold parent?
  simp only [htrimmed, hlast, Bool.false_eq_true, if_false]
  rw [List.dropLast_concat, ofSegments_of_ne_nil (by simp), trimmed_of_not_isIdle hs, child_eq]

theorem slashFree_child (hp : ∀ s ∈ p.segments, '/' ∉ s.toList) {name : String}
    (hname : '/' ∉ name.toList) : ∀ s ∈ (p.child name).segments, '/' ∉ s.toList := by
  intro s hs
  rw [child_eq] at hs
  rcases List.mem_append.1 hs with hs | hs
  · refine hp s ?_
    unfold stem at hs
    split_ifs at hs
    · exact List.dropLast_subset _ hs
    · exact hs
  · rwa [List.mem_singleton.1 hs]

end Path

namespace FileTree

variable {t u : FileTree} {p q d : Path}

/-- **A directory that was made is where its path leads**, and nothing was there. -/
theorem locate_of_makeDirectory (ht : t.WellFormed) (hp : p.Trimmed)
    (hslash : ∀ s ∈ p.segments, '/' ∉ s.toList) (h : t.makeDirectory p = .ok u) :
    ∃ l, u = t.put l .directory ∧ t.lookup l = none ∧ u.locate true p = .ok l ∧
      u.lookup l = some .directory := by
  obtain ⟨spot, hspot, hvacant, hne, -, hnone, -, rfl⟩ := makeDirectory_eq_ok ht hslash h
  rw [hp.withoutSlash_eq] at hspot
  have hempty := isEmpty_of_resolve hspot
  rw [resolve_eq hempty] at hspot
  obtain ⟨front, name, hloc, -, -, -, -, hfound⟩ := follow_vacant hspot hvacant
  rw [← hloc] at hfound
  have hput := lookup_put t .directory hne
  refine ⟨spot.loc, rfl, hnone, ?_, hput⟩
  have hreach := hfound (.put (.inl hnone)) (.inl hput)
  exact locate_true_of_not_link (locate_eq_ok_iff.2 ⟨hempty, hreach⟩) (by simp [hput])

/-- What is new in a tree are directories, and one of some paths leads to each. -/
structure Gained (paths : List Path) (t u : FileTree) : Prop where
  /-- The tree is well formed. -/
  wellFormed : u.WellFormed
  /-- Everything stays where it is. -/
  grows : Grows t u
  /-- Everything stays what it is. -/
  lookup : ∀ {l e}, t.lookup l = some e → u.lookup l = some e
  /-- What is new is a directory, and one of the paths leads there. -/
  new : ∀ {l e}, t.lookup l = none → u.lookup l = some e →
    e = .directory ∧ ∃ q ∈ paths, u.locate true q = .ok l

theorem Gained.refl (ht : t.WellFormed) (paths : List Path) : Gained paths t t :=
  ⟨ht, .refl t, id, fun hnone he => by simp [hnone] at he⟩

theorem Gained.makeDirectory {paths : List Path} {u' : FileTree} (h : Gained paths t u)
    (hq : q ∈ paths) (htrimmed : q.Trimmed) (hslash : ∀ s ∈ q.segments, '/' ∉ s.toList)
    (hmade : u.makeDirectory q = .ok u') : Gained paths t u' := by
  obtain ⟨hwell, hgrows⟩ := h.wellFormed.makeDirectory hslash hmade
  obtain ⟨l, rfl, hnone, hlocate, hdir⟩ :=
    locate_of_makeDirectory h.wellFormed htrimmed hslash hmade
  refine ⟨hwell, h.grows.trans hgrows, fun {l' e} he => ?_, fun {l' e} hnone' he => ?_⟩
  · have hne : l' ≠ l := by
      rintro rfl
      simp [h.lookup he] at hnone
    rw [lookup_put_of_ne u _ hne]
    exact h.lookup he
  · by_cases heq : l' = l
    · subst heq
      exact ⟨Option.some.inj (he.symm.trans hdir), q, hq, hlocate⟩
    · rw [lookup_put_of_ne u _ heq] at he
      obtain ⟨rfl, q', hq', hl'⟩ := h.new hnone' he
      exact ⟨rfl, q', hq', locate_of_grows hgrows hl'⟩

section Made

variable (ht : t.WellFormed) (hd : d.Trimmed) (hslash : ∀ s ∈ d.segments, '/' ∉ s.toList)
include ht hd hslash

theorem gained_makeDirectories {paths : List Path} (hpaths : ∀ q ∈ paths, q ∈ d.ancestors) :
    Gained d.ancestors t (t.makeDirectories paths).1 :=
  makeDirectories_induction (J := Gained d.ancestors t)
    (fun q hq _ _ h hmade => h.makeDirectory (hpaths q hq) (hd.of_mem_upward (hpaths q hq))
      ((Path.startsAs_of_mem_ancestors (hpaths q hq)).slashFree hslash) hmade) (.refl ht _)

/-- **Making a directory adds this directory and those above it.** -/
theorem gained_createDirectories : Gained d.ancestors t (t.createDirectories d).1 :=
  gained_makeDirectories ht hd hslash fun _ hq => hq

/-- **A directory that was made without an error is there.** -/
theorem isDirectory_of_createDirectories (hempty : d.isEmpty = false)
    (h : t.createDirectories d = (u, none)) : u.isDirectory d = true := by
  have hmade : ∀ {v w : FileTree}, v.WellFormed → v.makeDirectory d = .ok w →
      w.isDirectory d = true := by
    intro v w hv hmade
    obtain ⟨l, -, -, hl, hdir⟩ := locate_of_makeDirectory hv hd hslash hmade
    exact isDirectory_iff.2 ⟨l, hl, hdir⟩
  obtain ⟨above, habove⟩ := Path.exists_upward_eq_cons (d.segments.length + 1) d
  have hwell : (t.makeDirectories above).1.WellFormed := by
    refine (gained_makeDirectories ht hd hslash fun q hq => ?_).wellFormed
    rw [Path.ancestors, habove]
    exact List.mem_cons_of_mem _ hq
  rw [createDirectories, Path.ancestors, habove, makeDirectories,
    if_neg (by simpa using hd.components_ne_nil hempty)] at h
  split at h
  · rename_i v hfirst
    obtain rfl : v = u := congrArg Prod.fst h
    exact hmade ht hfirst
  · -- the directories above come first
    split at h
    · simp at h
    · rename_i v habove
      rw [habove] at hwell
      split at h
      · rename_i w hsecond
        obtain rfl : w = u := congrArg Prod.fst h
        exact hmade hwell hsecond
      · split_ifs at h with hthere
        · obtain rfl : v = u := congrArg Prod.fst h
          exact hthere
        · simp at h
  · split_ifs at h with hthere
    · obtain rfl : t = u := congrArg Prod.fst h
      exact hthere
    · simp at h

end Made

end FileTree

namespace Program

open FileTree (Gained)

variable {a : Arguments} {g : Given} {d : Path}

/-! ## The directory of the cache -/

/-- The directory of the usual cache, if the command line asks for this one. -/
def cacheDirectory? (mode : Option String) (env : Environment) : Option Path :=
  if mode = none ∨ mode = some "clear" then (Cache.defaultPath? env).bind Path.parent? else none

/-- A tree with the directory of the usual cache made in it. -/
def withCacheDirectory (t : FileTree) (mode : Option String) (env : Environment) : FileTree :=
  match cacheDirectory? mode env with
  | some d => (t.createDirectories d).1
  | none => t

/-- The directory of the usual cache ends with a name. -/
theorem trimmed_of_cacheDirectory? {mode : Option String} {env : Environment}
    (hd : cacheDirectory? mode env = some d) :
    d.Trimmed ∧ d.isEmpty = false ∧ ∀ s ∈ d.segments, '/' ∉ s.toList := by
  unfold cacheDirectory? at hd
  split_ifs at hd
  obtain ⟨p, hp, hparent⟩ := Option.bind_eq_some_iff.1 hd
  obtain ⟨base, hbase, rfl⟩ := Option.map_eq_some_iff.1 hp
  rw [Path.parent?_child_child base (by decide) (by decide)] at hparent
  obtain rfl := Option.some.inj hparent
  -- the place of all caches is a text of the environment, or below one
  have hslash : ∀ s ∈ base.segments, '/' ∉ s.toList := by
    rcases Option.or_eq_some_iff.1 (Option.orElse_eq_or ▸ hbase) with hbase | ⟨-, hbase⟩
    · obtain ⟨text, -, rfl⟩ := Option.map_eq_some_iff.1 hbase
      exact Path.slashFree_ofText text
    · obtain ⟨home, hhome, rfl⟩ := Option.map_eq_some_iff.1 hbase
      obtain ⟨text, -, rfl⟩ := Option.map_eq_some_iff.1 hhome
      exact Path.slashFree_child (Path.slashFree_ofText text) (by decide)
  refine ⟨.inr (.inr ⟨base.stem, "rulefmt", by rw [Path.child_eq], by decide⟩), ?_,
    Path.slashFree_child hslash (by decide)⟩
  have hne : base.stem ++ ["rulefmt"] ≠ [""] := fun h => by
    simpa using congrArg List.getLast? h
  simp [Path.isEmpty, Path.child_eq, hne]

/-- Looking for the cache makes the directory of the usual one. -/
theorem tree_chooseCache (t : FileTree) (env : Environment) (mode : Option String) :
    (chooseCache t env mode).1 = withCacheDirectory t mode env := by
  have husual : ∀ clear, (usualCache t env clear).1 =
      match (Cache.defaultPath? env).bind Path.parent? with
      | some d => (t.createDirectories d).1
      | none => t := by
    intro clear
    unfold usualCache
    cases Cache.defaultPath? env with
    | none => rfl
    | some p =>
      simp only [Option.bind_some]
      cases p.parent? with
      | none => rfl
      | some d =>
        simp only
        rcases t.createDirectories d with ⟨u, _ | e⟩ <;> rfl
  unfold chooseCache withCacheDirectory cacheDirectory?
  split
  · exact husual false
  · rfl
  · exact husual true
  · rename_i hclear
    rw [if_neg (by simpa using hclear)]

/-! ## What a dry run does -/

/-- A run comes to formatting files. -/
structure FormatsFiles (a : Arguments) (g : Given) : Prop where
  /-- Settings, rules, selection and inputs are in order. -/
  ready : ∃ s rules sel inputs, prepare a g = .ok (s, rules) ∧
    s.selection (isConcurrent a) = .ok sel ∧ a.inputs.mapM (absolute g.tree) = .ok inputs
  /-- The run is about files. -/
  files : readsInput a.inputs = false
  /-- They are formatted, and not only read. -/
  formats : a.inferOptions = false

/-- The disk after a run over files. -/
def after : FileTree × Except Complaint Result → FileTree
  | (_, .ok r) => r.tree
  | (t, .error _) => t

theorem after_map {α : Type} {job : Except Complaint α} {f : α → Result} {u : FileTree}
    (h : ∀ x, (f x).tree = u) : after (u, job.map f) = u := by
  cases job with
  | error c => rfl
  | ok x => exact h x

/-- **A dry run over files** does to the disk what looking for the cache does. -/
theorem after_formatFiles (hdry : a.dryRun = true) {s : Settings} {rules : List Rule}
    {sel : Selection} {inputs : List Path} {env : Environment} {t : FileTree}
    (ht : (chooseCache t env a.cache).1.WellFormed) :
    after (formatFiles a s rules sel inputs env t) = (chooseCache t env a.cache).1 := by
  unfold formatFiles
  rcases hchoice : chooseCache t env a.cache with ⟨u, choice⟩
  rw [hchoice] at ht
  refine after_map fun x => Batch.tree_runScheduled_dry ht hdry fun job hjob => ?_
  obtain ⟨root, -, rfl⟩ := List.mem_map.1 hjob
  exact ⟨fun _ => .refl _, fun _ => .refl _⟩

/-- A run that comes to formatting files does to the disk what this does. -/
theorem tree_carryOut (h : FormatsFiles a g) :
    ∃ s rules sel inputs,
      (carryOut a g).tree = after (formatFiles a s rules sel inputs g.environment g.tree) := by
  obtain ⟨s, rules, sel, inputs, hprepare, hsel, hinputs⟩ := h.ready
  refine ⟨s, rules, sel, inputs, ?_⟩
  have hready : (do let sel ← s.selection (isConcurrent a)
                    let inputs ← a.inputs.mapM (absolute g.tree)
                    return (sel, inputs) : Except Complaint (Selection × List Path)) =
      .ok (sel, inputs) := by
    rw [hsel, hinputs]
    rfl
  simp only [carryOut, hprepare, h.files, h.formats, hready, Bool.false_eq_true, if_false]
  rcases formatFiles a s rules sel inputs g.environment g.tree with ⟨u, c | r⟩ <;> rfl

theorem tree_formatInput {rules : List Rule} {style : Style} {r : Result}
    (h : formatInput rules style g = .ok r) : r.tree = g.tree := by
  unfold formatInput at h
  split at h
  · simp at h
  · split at h
    · exact congrArg Result.tree (Except.ok.inj h).symm
    · exact congrArg Result.tree (Except.ok.inj h).symm

/-- A run that does not come to formatting files leaves the disk as it is. -/
theorem tree_carryOut_of_not (h : ¬FormatsFiles a g) : (carryOut a g).tree = g.tree := by
  unfold carryOut
  cases hprepare : prepare a g with
  | error c => rfl
  | ok prepared =>
    obtain ⟨s, rules⟩ := prepared
    simp only
    cases hfiles : readsInput a.inputs with
    | true =>
      cases hinput : formatInput rules s.style g with
      | error c => rfl
      | ok r => exact tree_formatInput hinput
    | false =>
      cases hsel : s.selection (isConcurrent a) with
      | error c => rfl
      | ok sel =>
        cases hinputs : a.inputs.mapM (absolute g.tree) with
        | error c => rfl
        | ok inputs =>
          cases hinfer : a.inferOptions with
          | true => rfl
          | false =>
            exact absurd ⟨⟨s, rules, sel, inputs, hprepare, hsel, hinputs⟩, hfiles, hinfer⟩ h

/-- **What a dry run leaves behind.**  Everything that is there stays as it is.  What is new are
directories: the one of the usual cache, if the run comes to formatting files and no other cache is
asked for, and those above it.  So nothing changes at all exactly if this directory is not needed,
is there already, or cannot be made. -/
theorem tree_run_dryRun (ht : g.tree.WellFormed) (hread : Arguments.read g.args = .ok a)
    (hdry : a.dryRun = true) :
    ((run g).tree = g.tree ↔ (FormatsFiles a g → ∀ d,
      cacheDirectory? a.cache g.environment = some d →
        g.tree.isDirectory d = true ∨ ∃ e, g.tree.createDirectories d = (g.tree, some e))) ∧
    (∀ l e, g.tree.lookup l = some e → (run g).tree.lookup l = some e) ∧
    ∀ l e, g.tree.lookup l = none → (run g).tree.lookup l = some e →
      e = .directory ∧ FormatsFiles a g ∧ ∃ d q,
        cacheDirectory? a.cache g.environment = some d ∧ q ∈ d.ancestors ∧
          (run g).tree.locate true q = .ok l := by
  have hrun : run g = carryOut a g := by
    rw [run, hread]
  rw [hrun]
  by_cases hformats : FormatsFiles a g
  swap
  · rw [tree_carryOut_of_not hformats]
    exact ⟨by simp [hformats], fun _ _ he => he, fun l e hnone he => by simp [hnone] at he⟩
  obtain ⟨s, rules, sel, inputs, hafter⟩ := tree_carryOut hformats
  cases hd : cacheDirectory? a.cache g.environment with
  | none =>
    have hsame : withCacheDirectory g.tree a.cache g.environment = g.tree := by
      rw [withCacheDirectory, hd]
    rw [← tree_chooseCache] at hsame
    rw [hafter, after_formatFiles hdry (by rwa [hsame]), hsame]
    exact ⟨by simp, fun _ _ he => he, fun l e hnone he => by simp [hnone] at he⟩
  | some d =>
    obtain ⟨htrimmed, hempty, hslash⟩ := trimmed_of_cacheDirectory? hd
    have hgained := FileTree.gained_createDirectories ht htrimmed hslash
    have hmade : withCacheDirectory g.tree a.cache g.environment =
        (g.tree.createDirectories d).1 := by
      rw [withCacheDirectory, hd]
    rw [← tree_chooseCache] at hmade
    rw [hafter, after_formatFiles hdry (by rw [hmade]; exact hgained.wellFormed), hmade]
    refine ⟨⟨fun hsame _ d' hd' => ?_, fun h => ?_⟩, fun _ _ => hgained.lookup,
      fun l e hnone he => ?_⟩
    · obtain rfl := Option.some.inj hd'
      rcases hcreate : g.tree.createDirectories d with ⟨u, _ | e⟩
      · obtain rfl : u = g.tree := by rwa [hcreate] at hsame
        exact .inl (FileTree.isDirectory_of_createDirectories ht htrimmed hslash hempty hcreate)
      · obtain rfl : u = g.tree := by rwa [hcreate] at hsame
        exact .inr ⟨e, rfl⟩
    · rcases h hformats d rfl with hthere | ⟨e, hfails⟩
      · rw [FileTree.createDirectories_of_isDirectory hthere]
      · rw [hfails]
    · obtain ⟨hdirectory, q, hq, hlocate⟩ := hgained.new hnone he
      exact ⟨hdirectory, hformats, d, q, rfl, hq, hlocate⟩

/-- A command line for one file that is formatted already, on a disk without a cache. -/
def freshHome (args : List String) : Given where
  args := args
  environment := { home := some "/home" }
  tree := Batch.oneFile "a\n"

/-- A dry run that is told to ignore the cache leaves this disk as it is. -/
theorem tree_run_dryRun_ignore :
    (run (freshHome ["--dry-run", "--cache", "ignore", "src"])).tree = Batch.oneFile "a\n" := by
  refine ((tree_run_dryRun (g := freshHome ["--dry-run", "--cache", "ignore", "src"])
    (a := { inputs := [Path.ofText "src"], cache := some "ignore", dryRun := true })
    (by decide +kernel) (by decide +kernel) rfl).1).2 fun _ d hd => ?_
  exact absurd hd (by simp [cacheDirectory?])

/-- **A dry run writes**: it makes the directory of a cache that it will not save, and those above
it. -/
theorem tree_run_dryRun_freshHome :
    (freshHome ["--dry-run", "src"]).tree.WellFormed ∧
    (Arguments.read ["--dry-run", "src"]).map Arguments.dryRun = .ok true ∧
    (freshHome ["--dry-run", "src"]).tree.lookup ["home"] = none ∧
    (run (freshHome ["--dry-run", "src"])).exitCode = 0 ∧
    (run (freshHome ["--dry-run", "src"])).tree.lookup ["home"] = some .directory ∧
    (run (freshHome ["--dry-run", "src"])).tree.lookup ["home", ".cache"] = some .directory ∧
    (run (freshHome ["--dry-run", "src"])).tree.lookup ["home", ".cache", "rulefmt"] =
      some .directory := by
  decide +kernel

end Program
end Restyle
