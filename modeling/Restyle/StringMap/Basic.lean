/-!
# Maps from texts to texts

A map is a list of entries in the strict order of their keys, so equal maps are
equal lists, and how a map came about leaves no trace in it.
-/

namespace Restyle

/-- A map from texts to texts. -/
structure StringMap where
  /-- The entries, in the order of their keys. -/
  entries : List (String × String)
  /-- Every key is greater than the one before it. -/
  ordered : entries.Pairwise fun a b => a.1 < b.1

namespace StringMap

/-- The map with no entries. -/
def empty : StringMap := ⟨[], .nil⟩

/-- How many entries there are. -/
def size (m : StringMap) : Nat := m.entries.length

/-- Whether there are no entries. -/
def isEmpty (m : StringMap) : Bool := m.entries.isEmpty

/-- The value under a key. -/
def get? (m : StringMap) (key : String) : Option String := m.entries.lookup key

/-- Puts a value under a key, in place of what was there. -/
def insertEntry (key value : String) : List (String × String) → List (String × String)
  | [] => [(key, value)]
  | (k, v) :: rest =>
    if key < k then (key, value) :: (k, v) :: rest
    else if key = k then (key, value) :: rest
    else (k, v) :: insertEntry key value rest

/-- An entry of the result is the new one or an old one. -/
theorem mem_insertEntry {key value : String} {e : String × String} :
    ∀ {l : List (String × String)}, e ∈ insertEntry key value l → e = (key, value) ∨ e ∈ l
  | [], h => by simpa [insertEntry] using h
  | (k, v) :: rest, h => by
    rw [insertEntry] at h
    split at h
    · simpa using h
    · split at h
      · rcases List.mem_cons.1 h with h | h
        · exact .inl h
        · exact .inr (List.mem_cons_of_mem _ h)
      · rcases List.mem_cons.1 h with h | h
        · exact .inr (h ▸ List.mem_cons_self)
        · rcases mem_insertEntry h with h | h
          · exact .inl h
          · exact .inr (List.mem_cons_of_mem _ h)

/-- Inserting keeps the order. -/
theorem ordered_insertEntry (key value : String) :
    ∀ {l : List (String × String)}, l.Pairwise (fun a b => a.1 < b.1) →
      (insertEntry key value l).Pairwise fun a b => a.1 < b.1
  | [], _ => by simp [insertEntry]
  | (k, v) :: rest, h => by
    have hrest := (List.pairwise_cons.1 h).2
    have hk := (List.pairwise_cons.1 h).1
    rw [insertEntry]
    split
    · rename_i hlt
      refine List.pairwise_cons.2 ⟨fun e he => ?_, h⟩
      rcases List.mem_cons.1 he with rfl | he
      · exact hlt
      · exact String.lt_trans hlt (hk e he)
    · rename_i hnlt
      split
      · rename_i heq
        exact List.pairwise_cons.2 ⟨fun e he => heq ▸ hk e he, hrest⟩
      · rename_i hne
        have hlt : k < key :=
          String.not_le.1 fun hle => hne (String.le_antisymm hle (String.not_lt.1 hnlt))
        refine List.pairwise_cons.2 ⟨fun e he => ?_, ordered_insertEntry key value hrest⟩
        rcases mem_insertEntry he with rfl | he
        · exact hlt
        · exact hk e he

/-- The map with a value under a key. -/
def insert (m : StringMap) (key value : String) : StringMap :=
  ⟨insertEntry key value m.entries, ordered_insertEntry key value m.ordered⟩

/-- The map with several entries inserted, one after the other. -/
def insertAll (m : StringMap) (entries : List (String × String)) : StringMap :=
  entries.foldl (fun m (key, value) => m.insert key value) m

/-- Maps with the same entries are the same. -/
theorem ext {m n : StringMap} (h : m.entries = n.entries) : m = n := by
  cases m
  cases n
  cases h
  rfl

end StringMap
end Restyle
