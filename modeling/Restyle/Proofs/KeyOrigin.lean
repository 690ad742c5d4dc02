import Restyle.Proofs.Ancestors
import Restyle.Proofs.Cache
import Restyle.Proofs.Keys

/-!
# A key tells the file that goes by it

A key is the text of a whole path, or of what is left of one below the directory of the cache file,
and there is no mark in it that says which.  For absolute paths the first character does: the text
of the whole path starts with a slash; what is left below a directory does not, since the slashes
and dots after the directory are left out with it.  Only a cache file without a directory in its
path takes nothing away, and then a key is a whole path too, less what stands idle at its end.

So there is a way back from keys to components, `origin`, and absolute paths with different
components have different keys.  Relative paths do not: what is left of one path below the
directory may be the whole of another.

* `Path.ofText_text`: a path is spelled by its text.
* `Path.head_of_relativeTo?`: how the rest of a path below another starts.
* `origin_key`: reading a key back.
* `entries_apart`: what this says about the entries of a cache.
-/

namespace Restyle
namespace Path

variable {p base r : Path}

/-! ## Texts and paths -/

theorem intercalate_splitSlashes (cs : List Char) : ['/'].intercalate (splitSlashes cs) = cs := by
  induction cs with
  | nil => rfl
  | cons c rest ih =>
    obtain ⟨piece, pieces, hpieces⟩ := List.exists_cons_of_ne_nil (splitSlashes_ne_nil rest)
    rw [hpieces] at ih
    rw [splitSlashes, hpieces]
    split_ifs with hc
    · rw [List.intercalate_cons_cons, ih, hc]
      rfl
    · cases pieces with
      | nil => simpa using ih
      | cons next more =>
        rw [List.intercalate_cons_cons] at ih
        simpa [List.intercalate_cons_cons] using ih

/-- **A text is that of the path it spells.** -/
theorem text_ofText (s : String) : (ofText s).text = s := by
  have hpieces : ∀ cs, ("/".intercalate ((splitSlashes cs).map String.ofList)).toList = cs := by
    intro cs
    rw [String.toList_intercalate, List.map_map]
    simpa [Function.comp_def] using intercalate_splitSlashes cs
  rw [← String.toList_inj, text, String.toList_append]
  unfold ofText
  split
  · rename_i rest hslash
    simpa [hpieces] using hslash.symm
  · simpa using hpieces s.toList

/-- The path that a text spells starts with a slash if the text does. -/
theorem rooted_ofText (s : String) : (ofText s).rooted = true ↔ s.toList.head? = some '/' := by
  unfold ofText
  split
  · rename_i rest hslash
    simp [hslash]
  · rename_i hslash
    refine ⟨fun h => absurd h (by simp), fun h => ?_⟩
    obtain ⟨rest, hrest⟩ := List.head?_eq_some_iff.1 h
    exact absurd hrest (hslash rest)

/-- The text of a path starts with a slash if the path does. -/
theorem head?_text (hp : p.Proper) : p.text.toList.head? = some '/' ↔ p.rooted = true := by
  cases hrooted : p.rooted with
  | true => simp [text, hrooted]
  | false =>
    refine ⟨fun h => ?_, fun h => absurd h (by simp)⟩
    obtain ⟨s, rest, hsegments⟩ := List.exists_cons_of_ne_nil hp.nonempty
    rw [text, hrooted, hsegments, if_neg (by simp), String.toList_append,
      String.toList_intercalate, List.map_cons] at h
    -- what the text starts with is what the first segment starts with
    cases hchars : s.toList with
    | nil =>
      obtain rfl : s = "" := String.toList_eq_nil_iff.1 hchars
      have hempty := hp.head hrooted (by rw [hsegments]; rfl)
      obtain rfl : rest = [] := by simpa [hsegments] using hempty
      exact absurd h (by simp)
    | cons c cs =>
      have hc : c = '/' := by
        cases rest with
        | nil => simpa [hchars] using h
        | cons next more => simpa [hchars, List.intercalate_cons_cons] using h
      exact absurd (hp.slashFree s (by simp [hsegments])) (by simp [hchars, hc])

/-- **A path is spelled by its text.** -/
theorem ofText_text (hp : p.Proper) : ofText p.text = p := by
  have hrooted : (ofText p.text).rooted = p.rooted := by
    rw [Bool.eq_iff_iff, rooted_ofText, head?_text hp]
  exact text_inj hrooted (slashFree_ofText _) hp.slashFree (proper_ofText _).nonempty hp.nonempty
    (text_ofText _)

/-! ## What is left below a directory -/

theorem segments_ofSegments_ne_nil (rooted : Bool) (segments : List String) :
    (ofSegments rooted segments).segments ≠ [] := by
  cases segments <;> simp [ofSegments]

/-- A rooted path is as well spelled without idle segments at its end. -/
theorem proper_trimmed (hp : p.Proper) (hrooted : p.rooted = true) : p.trimmed.Proper where
  nonempty := by
    rw [trimmed, if_pos hrooted]
    exact segments_ofSegments_ne_nil _ _
  slashFree := (StartsAs.of_trims (trims_trimmed p)).slashFree hp.slashFree
  head h := by
    rw [(trims_trimmed p).1, hrooted] at h
    exact absurd h (by decide)

/-- Without idle segments at both ends a list is empty or starts with one that counts. -/
theorem eq_nil_or_head_trimEnd_dropWhile (segments : List String) :
    trimEnd (segments.dropWhile isIdle) = [] ∨
      ∃ s rest, trimEnd (segments.dropWhile isIdle) = s :: rest ∧ isIdle s = false := by
  cases hleft : trimEnd (segments.dropWhile isIdle) with
  | nil => exact .inl rfl
  | cons s rest =>
    refine .inr ⟨s, rest, rfl, ?_⟩
    obtain ⟨more, hmore⟩ := trimEnd_prefix_self (segments.dropWhile isIdle)
    have hnot := List.head?_dropWhile_not isIdle segments
    rw [← hmore, hleft] at hnot
    simpa using hnot

/-- What is left of a path below another is empty or starts with a segment that counts. -/
theorem head_of_relativeTo? (hbase : base.components ≠ []) (h : p.relativeTo? base = some r) :
    r.segments = [""] ∨ ∃ s rest, r.segments = s :: rest ∧ isIdle s = false := by
  obtain ⟨segments, -, rfl⟩ := exists_suffix_of_relativeTo? hbase h
  rcases eq_nil_or_head_trimEnd_dropWhile segments with hnil | ⟨s, rest, hcons, hs⟩
  · exact .inl (by rw [hnil]; rfl)
  · exact .inr ⟨s, rest, by rw [hcons]; rfl, hs⟩

/-- **What is left of a path below another is a path of its own**, and its components are the last
ones of the whole path. -/
theorem proper_of_relativeTo? (hp : p.Proper) (hbase : base.components ≠ [])
    (h : p.relativeTo? base = some r) :
    r.Proper ∧ r.rooted = false ∧ p.components = base.components ++ r.components := by
  obtain ⟨hrooted, hnonempty, hslash⟩ := spelled_of_relativeTo? hbase h hp.slashFree
  have hhead := head_of_relativeTo? hbase h
  refine ⟨⟨hnonempty, hslash, fun _ hempty => ?_⟩, hrooted, ?_⟩
  · rcases hhead with hnil | ⟨s, rest, hcons, hs⟩
    · exact hnil
    · obtain rfl : s = "" := by simpa [hcons] using hempty
      exact absurd hs (by decide)
  · have hlead : r.lead = [] := by
      rw [lead, hrooted, if_neg (by simp), if_neg]
      rcases hhead with hnil | ⟨s, rest, hcons, hs⟩
      · simp [hnil]
      · rw [hcons, List.head?_cons, Option.some.injEq]
        rintro rfl
        exact absurd hs (by decide)
    rw [components_of_relativeTo? hbase h, components_eq r, hlead, List.nil_append]

end Path

namespace Cache

variable {c : Cache} {p : Path}

/-- The components that a path has if it goes by a key: those that the key spells, and before them
those of the directory of the cache file, unless the key is a whole path. -/
def origin (c : Cache) (key : String) : List Component :=
  if (Path.ofText key).rooted then (Path.ofText key).components
  else c.directory.components ++ (Path.ofText key).components

/-- A key that is the text of a rooted path has the components of that path. -/
theorem origin_text (hp : p.Proper) (hrooted : p.rooted = true) :
    c.origin p.text = p.components := by
  rw [origin, Path.ofText_text hp, if_pos hrooted]

/-- **A key of an absolute path is read back.** -/
theorem origin_key (c : Cache) (hp : p.Proper) (hrooted : p.rooted = true) :
    c.origin (c.key p) = p.components := by
  unfold key
  cases hrelative : p.relativeTo? c.directory with
  | none => exact origin_text hp hrooted
  | some r =>
    rw [Option.getD_some]
    by_cases hdirectory : c.directory.components = []
    · -- a cache file without a directory takes nothing away
      obtain rfl : p.trimmed = r := by
        unfold Path.relativeTo? at hrelative
        split_ifs at hrelative
        rw [hdirectory] at hrelative
        exact Option.some.inj hrelative
      rw [origin_text (Path.proper_trimmed hp hrooted) ((Path.trims_trimmed p).1.trans hrooted),
        Path.components_trimmed]
    · obtain ⟨hr, hrelative', hcomponents⟩ := Path.proper_of_relativeTo? hp hdirectory hrelative
      rw [origin, Path.ofText_text hr, hrelative', if_neg (by simp), hcomponents]

/-- **No two files share an entry.**  This is for the cache of any cache file and for any two texts
that spell absolute paths with different components, be they below the directory of the cache file
or not: the keys are different, and what is inserted for one path changes nothing for the other. -/
theorem entries_apart (c : Cache) {s s' : String} (hs : s.toList.head? = some '/')
    (hs' : s'.toList.head? = some '/')
    (hne : (Path.ofText s).components ≠ (Path.ofText s').components) :
    c.key (Path.ofText s) ≠ c.key (Path.ofText s') ∧
    ∀ value, (c.insert (c.key (Path.ofText s)) value).get? (c.key (Path.ofText s')) =
      c.get? (c.key (Path.ofText s')) := by
  have hkey : c.key (Path.ofText s) ≠ c.key (Path.ofText s') := by
    intro heq
    refine hne ?_
    calc (Path.ofText s).components = c.origin (c.key (Path.ofText s)) :=
          (origin_key c (Path.proper_ofText s) ((Path.rooted_ofText s).2 hs)).symm
      _ = c.origin (c.key (Path.ofText s')) := by rw [heq]
      _ = (Path.ofText s').components :=
          origin_key c (Path.proper_ofText s') ((Path.rooted_ofText s').2 hs')
  exact ⟨hkey, fun value => (StringMap.get?_insert _ _ _ _).trans (if_neg hkey.symm)⟩

/-- Two files whose keys would be the same if the whole path were spelled without its root: one is
below the directory of the cache file and the other is not. -/
theorem entries_apart_belowAndNot :
    (empty (Path.ofText "/w/cache.json")).key (Path.ofText "/w/a/f.swift") = "a/f.swift" ∧
    (empty (Path.ofText "/w/cache.json")).key (Path.ofText "/a/f.swift") = "/a/f.swift" ∧
    ((empty (Path.ofText "/w/cache.json")).insert "a/f.swift" "1").get? "/a/f.swift" = none := by
  have hbelow : (empty (Path.ofText "/w/cache.json")).key (Path.ofText "/w/a/f.swift") =
      "a/f.swift" := by decide +kernel
  have hwhole : (empty (Path.ofText "/w/cache.json")).key (Path.ofText "/a/f.swift") =
      "/a/f.swift" := by decide +kernel
  have hapart := (@entries_apart (empty (Path.ofText "/w/cache.json")) "/w/a/f.swift"
    "/a/f.swift" (by decide +kernel) (by decide +kernel) (by decide +kernel)).2 "1"
  rw [hbelow, hwhole] at hapart
  exact ⟨hbelow, hwhole, hapart⟩

end Cache
end Restyle
