import Restyle.Cache
import Restyle.Proofs.FileTree.Access

/-!
# The cache file keeps what is remembered

A map that is written as JSON is read back as the same map, whatever its texts hold:
`ofJson?_toJson`.  So a cache that was saved is what the next run loads: `load_of_save`.

A map is told by its answers, `ext_get?`, so the order in which entries are inserted makes no
difference: `insert_comm`.

Reading inserts the entries one by one.  Since they come in the order of their keys,
each goes to the end, and the entries come out as they went in.
-/

namespace Restyle
namespace StringMap

variable {m : StringMap} {key k v : String}

/-! ## Looking up -/

theorem lookup_cons_eq (k v key : String) (l : List (String × String)) :
    ((k, v) :: l).lookup key = if key = k then some v else l.lookup key := by
  rw [List.lookup_cons]
  by_cases h : key = k
  · simp [h]
  · have hb : (key == k) = false := by simpa using h
    simp [h, hb]

theorem lookup_insertEntry (l : List (String × String)) :
    (insertEntry k v l).lookup key = if key = k then some v else l.lookup key := by
  induction l with
  | nil => rw [insertEntry, lookup_cons_eq]
  | cons e rest ih =>
    obtain ⟨k', v'⟩ := e
    rw [insertEntry]
    split_ifs with hlt heq hkey hkey <;> simp only [lookup_cons_eq, ih] <;> split_ifs <;> simp_all

/-- **What was inserted is found**, and nothing else changes. -/
theorem get?_insert (m : StringMap) (k v key : String) :
    (m.insert k v).get? key = if key = k then some v else m.get? key :=
  lookup_insertEntry m.entries

theorem get?_eq_some_of_mem (h : (k, v) ∈ m.entries) : m.get? k = some v := by
  obtain ⟨before, after, hentries⟩ := List.append_of_mem h
  refine List.lookup_eq_some_iff.2 ⟨before, after, by simpa using hentries, fun e he => ?_⟩
  have hordered := m.ordered
  rw [hentries, List.pairwise_append] at hordered
  have hlt := hordered.2.2 e he (k, v) List.mem_cons_self
  simp only [bne_iff_ne, ne_eq]
  rintro rfl
  exact String.lt_irrefl _ hlt

/-- **Maps that give the same answers are the same.** -/
theorem ext_get? {n : StringMap} (h : ∀ key, m.get? key = n.get? key) : m = n := by
  have hmem : ∀ {m n : StringMap}, (∀ key, m.get? key = n.get? key) →
      ∀ e ∈ m.entries, e ∈ n.entries := by
    rintro m n h ⟨k, v⟩ he
    have hget := (h k).symm.trans (get?_eq_some_of_mem he)
    obtain ⟨before, after, hentries, -⟩ := List.lookup_eq_some_iff.1 hget
    rw [hentries]
    exact List.mem_append_right _ List.mem_cons_self
  have hnodup : ∀ m : StringMap, m.entries.Nodup := by
    intro m
    refine m.ordered.imp fun {a c} hlt => ?_
    rintro rfl
    exact String.lt_irrefl _ hlt
  have hperm := (List.perm_ext_iff_of_nodup (hnodup m) (hnodup n)).2 fun e =>
    ⟨hmem h e, hmem (fun key => (h key).symm) e⟩
  refine ext (hperm.eq_of_pairwise (fun a c _ _ hac hca => ?_) m.ordered n.ordered)
  exact absurd (String.lt_trans hac hca) (String.lt_irrefl _)

/-- What is inserted under different keys can be inserted in any order. -/
theorem insert_comm {k' v' : String} (m : StringMap) (hne : k ≠ k') :
    (m.insert k v).insert k' v' = (m.insert k' v').insert k v := by
  refine ext_get? fun key => ?_
  simp only [get?_insert]
  split_ifs with hk' hk
  · exact absurd (hk.symm.trans hk') hne
  · rfl
  · rfl
  · rfl

/-! ## Entries that come in order -/

theorem insertEntry_of_greatest {l : List (String × String)} (h : ∀ e ∈ l, e.1 < k) :
    insertEntry k v l = l ++ [(k, v)] := by
  induction l with
  | nil => rfl
  | cons e rest ih =>
    have he := h e List.mem_cons_self
    have hne : k ≠ e.1 := by
      rintro rfl
      exact String.lt_irrefl _ he
    rw [insertEntry, if_neg (String.lt_asymm he), if_neg hne,
      ih fun x hx => h x (List.mem_cons_of_mem _ hx)]
    rfl

theorem entries_insertAll {l : List (String × String)}
    (h : (m.entries ++ l).Pairwise fun a b => a.1 < b.1) :
    (m.insertAll l).entries = m.entries ++ l := by
  induction l generalizing m with
  | nil => simp [insertAll]
  | cons e rest ih =>
    have hfirst : (m.insert e.1 e.2).entries = m.entries ++ [e] :=
      insertEntry_of_greatest fun x hx =>
        (List.pairwise_append.1 h).2.2 x hx e List.mem_cons_self
    have hrest := @ih (m.insert e.1 e.2) (by rw [hfirst]; simpa using h)
    rw [hfirst] at hrest
    simpa [insertAll] using hrest

theorem insertAll_entries (m : StringMap) : empty.insertAll m.entries = m :=
  ext (entries_insertAll m.ordered)

/-! ## Texts -/

/-- A backslash and what follows it are read as one character. -/
theorem textTail?_backslash {c : Char} {escaped rest : List Char}
    (h : escape? (escaped ++ rest) = some (c, escaped.length)) :
    textTail? ('\\' :: (escaped ++ rest)) =
      (textTail? rest).map fun (text, after) => (c :: text, after) := by
  rw [textTail?, if_neg (by decide), if_pos rfl, h]
  simp

/-- A control character is read off the code that it is written as. -/
theorem escape?_code {c : Char} (hc : c < ' ') (rest : List Char) :
    escape? ('u' :: '0' :: '0' :: Nat.digitChar (c.toNat / 16) ::
      Nat.digitChar (c.toNat % 16) :: rest) = some (c, 5) := by
  have hsmall : c.toNat < 32 := hc
  have hcode : ∀ n < 32,
      hexWord? '0' '0' (Nat.digitChar (n / 16)) (Nat.digitChar (n % 16)) = some n := by decide
  have hlow : isLowHalf c.toNat = false := by
    simp only [isLowHalf, Bool.and_eq_false_iff, decide_eq_false_iff_not]
    omega
  have hhigh : isHighHalf c.toNat = false := by
    simp only [isHighHalf, Bool.and_eq_false_iff, decide_eq_false_iff_not]
    omega
  simp [escape?, hcode c.toNat hsmall, codeChar?, hlow, hhigh]

/-- A character is read as it was written. -/
theorem textTail?_escapeChar (c : Char) (rest : List Char) :
    textTail? (escapeChar c ++ rest) =
      (textTail? rest).map fun (text, after) => (c :: text, after) := by
  unfold escapeChar
  split_ifs with hquote hbackslash hb hf hn hr ht hcontrol
  · exact hquote ▸ @textTail?_backslash _ ['"'] rest rfl
  · exact hbackslash ▸ @textTail?_backslash _ ['\\'] rest rfl
  · exact hb ▸ @textTail?_backslash _ ['b'] rest rfl
  · exact hf ▸ @textTail?_backslash _ ['f'] rest rfl
  · exact hn ▸ @textTail?_backslash _ ['n'] rest rfl
  · exact hr ▸ @textTail?_backslash _ ['r'] rest rfl
  · exact ht ▸ @textTail?_backslash _ ['t'] rest rfl
  · exact textTail?_backslash (escape?_code hcontrol rest)
  · rw [List.cons_append, textTail?, if_neg hquote, if_neg hbackslash, if_neg hcontrol]
    rfl

/-- **A text is read as it was written.** -/
theorem text?_quote (s : String) (rest : List Char) : text? (quote s ++ rest) = some (s, rest) := by
  have htail : ∀ cs : List Char,
      textTail? (cs.flatMap escapeChar ++ '"' :: rest) = some (cs, rest) := by
    intro cs
    induction cs with
    | nil => rw [List.flatMap_nil, List.nil_append, textTail?, if_pos rfl]
    | cons c cs ih => simp [textTail?_escapeChar, ih]
  simp [quote, text?, htail]

/-! ## Entries -/

/-- An entry is read up to what stands behind its value. -/
theorem entries?_entryLine (fuel : Nat) (e : String × String) {rest after : List Char} :
    (skipBlanks rest = '}' :: after →
      entries? (fuel + 1) ('\n' :: (entryLine e ++ rest)) = some ([e], after)) ∧
    (skipBlanks rest = ',' :: after →
      entries? (fuel + 1) ('\n' :: (entryLine e ++ rest)) =
        (entries? fuel after).map fun (others, rest) => (e :: others, rest)) := by
  have hkey : skipBlanks ('\n' :: (entryLine e ++ rest)) =
      quote e.1 ++ (':' :: ' ' :: (quote e.2 ++ rest)) := by
    simp [entryLine, skipBlanks, quote]
  have hcolon : after? ':' (':' :: ' ' :: (quote e.2 ++ rest)) =
      some (' ' :: (quote e.2 ++ rest)) := rfl
  have hvalue : skipBlanks (' ' :: (quote e.2 ++ rest)) = quote e.2 ++ rest := by
    simp [skipBlanks, quote]
  rw [entries?]
  simp only [hkey, text?_quote, hcolon, hvalue, Option.bind_eq_bind, Option.bind_some]
  constructor
  · intro h
    rw [h]
    rfl
  · intro h
    rw [h]
    simp only
    cases entries? fuel after <;> rfl

theorem entries?_entryLines {entries : List (String × String)} (hne : entries ≠ []) {fuel : Nat}
    (hfuel : entries.length ≤ fuel) :
    entries? fuel (entryLines entries ++ ['\n', '}']) = some (entries, []) := by
  induction entries generalizing fuel with
  | nil => exact absurd rfl hne
  | cons e rest ih =>
    obtain ⟨fuel, rfl⟩ : ∃ n, fuel = n + 1 := Nat.exists_eq_add_one.2 (by simp at hfuel; omega)
    cases rest with
    | nil => exact (entries?_entryLine fuel e).1 rfl
    | cons e' rest =>
      have hrest := ih (by simp) (by simpa using hfuel)
      have hmore := (@entries?_entryLine fuel e
        (',' :: (entryLines (e' :: rest) ++ ['\n', '}'])) _).2 rfl
      rw [hrest] at hmore
      simpa [entryLines] using hmore

theorem length_le_entryLines (entries : List (String × String)) :
    entries.length ≤ (entryLines entries).length := by
  fun_induction entryLines entries with
  | case1 => simp
  | case2 e => simp
  | case3 e rest _ ih => simp; omega

theorem skipBlanks_skipBlanks (cs : List Char) : skipBlanks (skipBlanks cs) = skipBlanks cs := by
  unfold skipBlanks
  induction cs with
  | nil => rfl
  | cons c cs ih =>
    rw [List.dropWhile_cons]
    split_ifs with hc
    · exact ih
    · rw [List.dropWhile_cons, if_neg hc]

theorem entries?_skipBlanks (fuel : Nat) (cs : List Char) :
    entries? fuel (skipBlanks cs) = entries? fuel cs := by
  cases fuel with
  | zero => rfl
  | succ fuel => rw [entries?, entries?, skipBlanks_skipBlanks]

/-- **A map is read back as it was written.** -/
theorem ofJson?_toJson (m : StringMap) : ofJson? m.toJson = some m := by
  cases hentries : m.entries with
  | nil =>
    obtain rfl : m = empty := ext hentries
    rfl
  | cons e rest =>
    have hchars : m.toJson.toList = '{' :: (entryLines m.entries ++ ['\n', '}']) := by
      simp [toJson, hentries]
    have hbrace : after? '{' ('{' :: (entryLines m.entries ++ ['\n', '}'])) =
        some (entryLines m.entries ++ ['\n', '}']) := rfl
    -- three blanks stand before the first quote
    obtain ⟨more, hmore⟩ : ∃ more, entryLines m.entries ++ ['\n', '}'] =
        '\n' :: ' ' :: ' ' :: '"' :: more := by
      rw [hentries]
      cases rest <;> exact ⟨_, rfl⟩
    have hblanks : skipBlanks (entryLines m.entries ++ ['\n', '}']) = '"' :: more := by
      rw [hmore]
      rfl
    have hread : entries? (('"' :: more).length + 1) ('"' :: more) = some (m.entries, []) := by
      rw [← hblanks, entries?_skipBlanks]
      refine entries?_entryLines (by simp [hentries]) ?_
      have hcount := length_le_entryLines m.entries
      have hlength := congrArg List.length hmore
      rw [hblanks]
      simp only [List.length_append, List.length_cons, List.length_nil] at hlength ⊢
      omega
    rw [ofJson?, hchars, hbrace]
    simp only [Option.bind_eq_bind, Option.bind_some, hblanks]
    show (entries? (('"' :: more).length + 1) ('"' :: more)).bind _ = some m
    rw [hread, Option.bind_some]
    exact congrArg some (insertAll_entries m)

end StringMap

namespace Cache

variable {t u : FileTree} {c : Cache} {p : Path}

/-- **What was saved is loaded.** -/
theorem load_of_save (ht : t.WellFormed) (hp : p.Proper) (h : c.save t p = .ok u) :
    load u p = { empty p with entries := c.entries } := by
  unfold save at h
  split at h
  · rename_i hwrite
    obtain rfl := Except.ok.inj h
    obtain ⟨loc, -, hloc, hfile, -⟩ := FileTree.writeText_eq_ok ht hp hwrite
    rw [load, FileTree.readText_eq_ok_iff.2 ⟨loc, hloc, hfile⟩]
    simp [StringMap.ofJson?_toJson]
  · simp at h

end Cache
end Restyle
