import Restyle.Proofs.Batch.Rerun

/-!
# A cache from a run with other rules

What the cache remembers of a file is the style and the length of the formatted text, and
not the rules.  So a second run with other rules and the cache of the first run skips what
the first run has formatted: the file already has the length that is remembered.  It works
on the others as it does without a cache.

* `reviseAll_of_forgotten`: without anything remembered, it only matters how often a file
  is visited.
* `perm_inPlaceOrder`: how often that is does not depend on the schedules.
* `lookup_run_with_other_rules`: what the second run makes of a file.
-/

namespace Restyle
namespace Batch

open FileTree (Grows SameShape WellFormed)

variable {b : Batch} {snapshot : Option Cache} {t left cached plain : FileTree} {path : Path}
  {l : Location} {order : List (Path × Path)} {result : String}
  {jobs jobs' jobs₁ jobs₂ jobs₃ : List (Path × Schedule Books)} {R : List Rule} {rf : Refusals}

/-! ## Visits without a cache -/

/-- The schedule of a root settles in which order its files are visited, and nothing else. -/
theorem perm_orderOf {job job' : Path × Schedule Books} (hfair : job.2.IsFair)
    (hfair' : job'.2.IsFair) (hroot : job'.1 = job.1) :
    (b.orderOf t none job' rf).Perm (b.orderOf t none job rf) := by
  unfold orderOf
  rw [hroot]
  simp only [Option.getD_none]
  split_ifs
  · exact .refl _
  · exact (hfair'.1 _).trans (hfair.1 _).symm
  · exact .refl _

theorem perm_inPlaceOrder (hjobs : Sound jobs) (hjobs' : Sound jobs')
    (hroots : jobs'.map Prod.fst = jobs.map Prod.fst) :
    (b.inPlaceOrder t jobs' rf).Perm (b.inPlaceOrder t jobs rf) := by
  induction jobs generalizing jobs' with
  | nil =>
    obtain rfl : jobs' = [] := by simpa using hroots
    exact .refl _
  | cons job rest ih =>
    obtain ⟨job', rest', rfl, hroot, hrest⟩ := List.map_eq_cons_iff.1 hroots
    refine List.Perm.append ?_ ?_
    · exact perm_orderOf (hjobs job List.mem_cons_self).2 (hjobs' job' List.mem_cons_self).2 hroot
    · exact ih (fun x hx => hjobs x (List.mem_cons_of_mem _ hx))
        (fun x hx => hjobs' x (List.mem_cons_of_mem _ hx)) hrest

/-- **Without anything remembered, it only matters how often a file is visited.** -/
theorem reviseAll_of_forgotten {paths : List Path}
    (h : ∀ p ∈ paths, remembered snapshot p = none) (e : Option Entry) :
    b.reviseAll snapshot paths e = (Option.map (b.revised none))^[paths.length] e := by
  induction paths generalizing e with
  | nil => rfl
  | cons p rest ih =>
    rw [reviseAll_cons, h p List.mem_cons_self, List.length_cons, Function.iterate_succ_apply]
    exact ih (fun q hq => h q (List.mem_cons_of_mem _ hq)) _

/-! ## A first run without anything remembered -/

/-- The batch formats what stands at a place, which is a text then. -/
def Formats (b : Batch) (e : Option Entry) (result : String) : Prop :=
  ∃ source, e = some (.file source.toUTF8) ∧
    Formatting.format b.style b.rules source = .ok result

theorem revised_of_formats {e : Option Entry} (h : b.Formats e result) :
    e.map (b.revised none) = some (.file result.toUTF8) := by
  obtain ⟨source, rfl, hformat⟩ := h
  rw [Option.map_some, revised_text, revise, if_neg (by simp), hformat]
  rfl

/-- What is not formatted is left alone. -/
theorem revised_of_not_formats {e : Option Entry} (h : ∀ result, ¬b.Formats e result) :
    e.map (b.revised none) = e := by
  rcases text_or_unrevised b e with ⟨source, rfl⟩ | hsame
  · cases hformat : Formatting.format b.style b.rules source with
    | ok result => exact absurd ⟨source, rfl, hformat⟩ (h result)
    | error failure => rw [Option.map_some, revised_text, settled_of_failure hformat]
  · exact hsame none

section Fresh

variable (hfresh : ∀ p, remembered snapshot p = none)
include hfresh

theorem reviseAll_of_formats {paths : List Path} {e : Option Entry} (h : b.Formats e result)
    (hne : paths ≠ []) (honce : paths.length ≤ 1 ∨
      Formatting.format b.style b.rules result = .ok result) :
    b.reviseAll snapshot paths e = some (.file result.toUTF8) := by
  rw [reviseAll_of_forgotten fun p _ => hfresh p]
  obtain ⟨p, rest, rfl⟩ := List.exists_cons_of_ne_nil hne
  rw [List.length_cons, Function.iterate_succ_apply, revised_of_formats h]
  rcases honce with hlength | hagain
  · obtain rfl : rest = [] := by simpa using hlength
    rfl
  · exact Function.iterate_fixed (revised_of_formats ⟨result, rfl, hagain⟩) _

/-- **A file that is formatted yields its result at every visit**, if it is visited once or
if the result is its own formatted form. -/
theorem yields_of_formats (h : b.Formats (t.lookup l) result)
    (honce : (leadingTo t order l).length ≤ 1 ∨
      Formatting.format b.style b.rules result = .ok result) :
    Yields b snapshot t order l result := by
  intro before pair after horder hl
  rw [hfresh]
  by_cases hbefore : leadingTo t before l = []
  · rw [hbefore]
    obtain ⟨source, hsource, hformat⟩ := h
    exact ⟨source, hsource, (formatted_none _ _).2 hformat⟩
  · have hagain : Formatting.format b.style b.rules result = .ok result := by
      refine honce.resolve_left fun hlength => hbefore ?_
      have hmore : leadingTo t order l =
          leadingTo t before l ++ pair.1 :: leadingTo t after l := by
        simp [leadingTo, horder, hl]
      rw [hmore, List.length_append, List.length_cons] at hlength
      exact List.length_eq_zero_iff.1 (by omega)
    exact ⟨result, reviseAll_of_formats hfresh h hbefore (.inr hagain),
      (formatted_none _ _).2 hagain⟩

theorem fails_of_not_formats (h : ∀ result, ¬b.Formats (t.lookup l) result) :
    Fails b snapshot t order l := by
  intro before pair after horder hl source hsource result hresult
  rw [hfresh, formatted_none] at hresult
  rw [reviseAll_of_forgotten (fun p _ => hfresh p),
    Function.iterate_fixed (revised_of_not_formats h)] at hsource
  exact h result ⟨source, hsource, hresult⟩

end Fresh

/-! ## The second run -/

/-- **A second run with other rules skips what the first run has formatted.**  The first run
goes over a tree in place, with a cache file that holds nothing yet.  The second run has
other rules and the same cache file.  Consider a file other than the cache file, whose
visited paths go by keys of their own.

* If the first run has formatted the file and the cache file is there and counts, the
  second run leaves the file as the first one left it, whatever its rules.
* Otherwise the second run makes of it what it would have made of it without a cache. -/
theorem lookup_run_with_other_rules (ht : t.WellFormed) (hdry : b.dryRun = false)
    (hcache : b.cachePath = some path) (hpath : path.Proper)
    (hfresh : Cache.load t path = Cache.empty path)
    (hjobs₁ : Sound jobs₁) (hjobs₂ : Sound jobs₂) (hjobs₃ : Sound jobs₃)
    (hroots₂ : jobs₂.map Prod.fst = jobs₁.map Prod.fst)
    (hroots₃ : jobs₃.map Prod.fst = jobs₂.map Prod.fst)
    (hleft : left = (b.runScheduled t jobs₁ none).2)
    (hcached : cached = ({ b with rules := R }.runScheduled left jobs₂ none).2)
    (hplain : plain = ({ b with rules := R, cachePath := none }.runScheduled left jobs₃ none).2)
    {content : ByteArray} (hfile : t.lookup l = some (.file content))
    (hl : left.locate true path ≠ .ok l)
    (hkeys : OwnsKeys path t (b.inPlaceOrder t jobs₁) l) :
    (∀ result, b.Formats (t.lookup l) result →
      (leadingTo t (b.inPlaceOrder t jobs₁) l).length ≤ 1 ∨
        Formatting.format b.style b.rules result = .ok result →
      b.clearCache = false → left.isFile path = true → cached.lookup l = left.lookup l) ∧
    (b.clearCache = true ∨ left.isFile path = false ∨
      (∀ result, ¬b.Formats (t.lookup l) result) → cached.lookup l = plain.lookup l) := by
  have hproper : b.ProperCache := by
    intro path' hpath'
    rwa [← Option.some.inj (hcache.symm.trans hpath')]
  have hremembered : ∀ p, remembered (b.snapshot t) p = none :=
    remembered_of_load_eq_empty hcache fun _ => hfresh
  obtain ⟨hwell, hgrows, hlookup₁⟩ := lookup_runScheduled ht hdry hjobs₁ hproper hleft
  obtain ⟨-, -, hlookup₂⟩ := @lookup_runScheduled { b with rules := R } left jobs₂ hwell hdry
    hjobs₂ hproper cached hcached
  obtain ⟨-, -, hlookup₃⟩ := @lookup_runScheduled { b with rules := R, cachePath := none } left
    jobs₃ hwell hdry hjobs₃ (by simp [ProperCache]) plain hplain
  have hl₁ : ∀ path', b.cachePath = some path' → left.locate true path' ≠ .ok l := by
    intro path' hpath'
    rwa [← Option.some.inj (hcache.symm.trans hpath')]
  have hl₂ : ∀ path', b.cachePath = some path' → cached.locate true path' ≠ .ok l := by
    intro path' hpath' heq
    -- the second run makes no cache file where a file is already
    rcases @shape_runScheduled { b with rules := R } left jobs₂ hwell hdry hjobs₂ hproper cached
      hcached with hshape | ⟨path'', lc, -, hpath'', hlc, hnone, -⟩
    · exact hl₁ path' hpath' (hshape.locate ▸ heq)
    · obtain rfl : path' = path'' := Option.some.inj (hpath'.symm.trans hpath'')
      obtain rfl : lc = l := Except.ok.inj (hlc.symm.trans heq)
      obtain ⟨content', hfile'⟩ := hgrows.file hfile
      simp [hnone] at hfile'
  replace hlookup₁ := hlookup₁ l hl₁
  replace hlookup₂ := hlookup₂ l hl₂
  replace hlookup₃ := hlookup₃ l (by simp)
  -- the second run comes to the location by paths of the first one
  have hpaths : ∀ p ∈ leadingTo left (b.inPlaceOrder left jobs₂) l,
      p ∈ leadingTo t (b.inPlaceOrder t jobs₁) l := by
    intro p hp
    obtain ⟨⟨pair, hpair, rfl⟩, hpl⟩ := mem_leadingTo.1 hp
    refine mem_leadingTo.2 ⟨⟨pair, ?_, rfl⟩, locate_of_run ht hdry hjobs₁ hproper hleft hl₁ hpl⟩
    refine mem_inPlaceOrder_again ht hdry hjobs₁ hproper hleft hjobs₂ hroots₂ hpair ?_
    intro path' hpath' heq
    exact hl₁ path' hpath' (heq.symm.trans hpl)
  constructor
  · intro result hformats honce hclear hsaved
    have hyields := yields_of_formats hremembered hformats honce
    rw [hlookup₂]
    refine reviseAll_of_fixed fun p hp => ?_
    have hp₁ := hpaths p hp
    have hagain := @remembered_again b { b with rules := R } t left p path l jobs₁ ht hdry hjobs₁
      hcache hp₁ hproper hleft hcache hclear hsaved
    rw [get?_reached ht hdry hjobs₁ hcache hkeys hp₁ hyields] at hagain
    have hresult : left.lookup l = some (.file result.toUTF8) := by
      rw [hlookup₁]
      exact reviseAll_of_formats hremembered hformats (List.ne_nil_of_mem hp₁) honce
    rw [hresult, Option.map_some, revised_text, revise, if_pos hagain]
  · intro huntrusted
    have hforgotten : ∀ p ∈ leadingTo left (b.inPlaceOrder left jobs₂) l,
        remembered (b.snapshot left) p = none := by
      intro p hp
      cases hclear : b.clearCache with
      | true => exact remembered_of_load_eq_empty hcache (by simp [hclear]) p
      | false =>
        cases hsaved : left.isFile path with
        | false =>
          exact remembered_of_load_eq_empty hcache (fun _ => load_eq_empty_of_not_isFile hsaved) p
        | true =>
          have hfails : Fails b (b.snapshot t) t (b.inPlaceOrder t jobs₁) l :=
            fails_of_not_formats hremembered (by simpa [hclear, hsaved] using huntrusted)
          rw [remembered_again ht hdry hjobs₁ hcache (hpaths p hp) hproper hleft hcache hclear
            hsaved, get?_reached_of_fails ht hdry hjobs₁ hcache hkeys (hpaths p hp) hfails]
          have hsnapshot : b.snapshot t = some (Cache.load t path) := by
            simp [Batch.snapshot, hcache, hclear]
          rw [hsnapshot, hfresh]
          rfl
    have hperm : (leadingTo left (b.inPlaceOrder left jobs₃) l).Perm
        (leadingTo left (b.inPlaceOrder left jobs₂) l) :=
      ((perm_inPlaceOrder hjobs₂ hjobs₃ hroots₃).map Prod.fst).filter _
    rw [hlookup₂, hlookup₃]
    calc
      _ = (Option.map ({ b with rules := R }.revised none))^[
            (leadingTo left (b.inPlaceOrder left jobs₂) l).length] (left.lookup l) :=
        reviseAll_of_forgotten hforgotten _
      _ = (Option.map ({ b with rules := R }.revised none))^[
            (leadingTo left (b.inPlaceOrder left jobs₃) l).length] (left.lookup l) := by
        rw [hperm.length_eq]
      _ = _ := (@reviseAll_of_forgotten { b with rules := R, cachePath := none } none _
        (fun _ _ => rfl) _).symm

/-- What a run without any rules leaves of a file that the default rules change. -/
def ruleless : FileTree :=
  ({ standard "cache.json" with rules := [] }.run (oneFile "a  b") [Path.ofText "src"] none).2

/-- Without any rules the first run takes the file as it is, and the second run does not
look at it any more. -/
theorem lookup_run_with_other_rules_ruleless :
    ((standard "cache.json").run ruleless [Path.ofText "src"] none).2.lookup ["src", "a.swift"] =
      ruleless.lookup ["src", "a.swift"] := by
  have hjobs := sound_of_texts ["src"]
  refine (@lookup_run_with_other_rules { standard "cache.json" with rules := [] } (oneFile "a  b")
    ruleless _ _ (Path.ofText "cache.json") ["src", "a.swift"] _ _ _ (Rule.defaults {})
    (by decide +kernel) rfl rfl (Path.proper_ofText _)
    (load_eq_empty_of_not_isFile (by decide +kernel)) hjobs hjobs hjobs
    rfl rfl rfl rfl rfl _ rfl (by decide +kernel) ?_).1 "a  b" ?_ ?_ rfl ?_
  · unfold OwnsKeys
    decide +kernel
  · exact ⟨"a  b", rfl, by decide +kernel⟩
  · exact .inl (by decide +kernel)
  · decide +kernel

/-- **The cache is not transparent to a change of rules**: a second run with the default
rules leaves a file alone that it formats without the cache. -/
theorem skipped_by_other_rules :
    Rule.select (some []) [] {} = .ok [] ∧ Rule.select none [] {} = .ok (Rule.defaults {}) ∧
    Cache.load (oneFile "a  b") (Path.ofText "cache.json") =
      Cache.empty (Path.ofText "cache.json") ∧
    ((standard "cache.json").run ruleless [Path.ofText "src"] none).2.readText
      (Path.ofText "src/a.swift") = .ok "a  b" ∧
    ({ standard "cache.json" with cachePath := none }.run ruleless [Path.ofText "src"]
      none).2.readText (Path.ofText "src/a.swift") = .ok "a b\n" := by
  refine ⟨rfl, rfl, load_eq_empty_of_not_isFile (by decide +kernel), ?_, ?_⟩
  · decide +kernel
  · decide +kernel

end Batch
end Restyle
