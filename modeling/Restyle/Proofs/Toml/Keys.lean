import Mathlib.Data.List.Nodup
import Mathlib.Data.List.Perm.Basic
import Restyle.Toml.Document

/-!
# A document names nothing twice

Every table in a document, at whatever depth, has its keys in order, none of them twice.  While a
document is read its tables are kept in the order in which they came; what holds then is that no
table under construction has a key twice (`Fields.Sound`).  All additions go through `Fields.put`,
which looks for the key first, and they are made at the end of a path of keys by `Fields.within?`.

* `Fields.Sound.within?`: a change at the end of a path keeps the tables sound, if it does so
  where it is made.
* `ordered_of_nestedValue?`: a value that is read has its keys in order.
* `ordered_of_read?`: so has a document.
-/

namespace Restyle
namespace Toml

variable {key : String} {v : Value} {node : Node} {fields fields' : Fields}
  {cs rest : List Char}

/-! ## Values with their keys in order -/

/-- Whether a value is neither a list nor a table. -/
def Value.isSimple : Value → Bool
  | .array _ | .table _ => false
  | _ => true

/-- All tables in a value have their keys in order, none of them twice. -/
inductive Value.Ordered : Value → Prop
  /-- There is no table in it. -/
  | simple {v : Value} (h : v.isSimple = true) : v.Ordered
  /-- A list of such values. -/
  | array {items : List Value} (h : ∀ v ∈ items, v.Ordered) : (Value.array items).Ordered
  /-- A table of such values with its own keys in order. -/
  | table {entries : List (String × Value)} (keys : (entries.map Prod.fst).Pairwise (· < ·))
      (values : ∀ e ∈ entries, e.2.Ordered) : (Value.table entries).Ordered

/-- Under construction, no table has a key twice. -/
inductive Node.Sound : Node → Prop
  /-- A value has its keys in order. -/
  | leaf {v : Value} (h : v.Ordered) : (Node.leaf v).Sound
  /-- A table. -/
  | table {implicit dotted : Bool} {fields : List (String × Node)}
      (keys : (fields.map Prod.fst).Nodup) (nodes : ∀ f ∈ fields, f.2.Sound) :
      (Node.table implicit dotted fields).Sound
  /-- A list of tables. -/
  | tables {all : List (List (String × Node))}
      (keys : ∀ fields ∈ all, (fields.map Prod.fst).Nodup)
      (nodes : ∀ fields ∈ all, ∀ f ∈ fields, f.2.Sound) : (Node.tables all).Sound

/-- Fields under construction, none of them twice. -/
structure Fields.Sound (fields : Fields) : Prop where
  /-- No key is there twice. -/
  keys : (fields.map Prod.fst).Nodup
  /-- Nor is one further down. -/
  nodes : ∀ f ∈ fields, f.2.Sound

theorem Fields.sound_nil : Fields.Sound [] := ⟨List.nodup_nil, by simp⟩

/-! ## Finished tables -/

theorem perm_insertEntry (key : String) (v : Value) (entries : List (String × Value)) :
    (insertEntry key v entries).Perm ((key, v) :: entries) := by
  induction entries with
  | nil => exact .refl _
  | cons e rest ih =>
    obtain ⟨k, w⟩ := e
    rw [insertEntry]
    split_ifs
    · exact .refl _
    · exact (ih.cons (k, w)).trans (.swap (key, v) (k, w) rest)

/-- A new entry goes where its key belongs. -/
theorem pairwise_insertEntry {entries : List (String × Value)}
    (h : (entries.map Prod.fst).Pairwise (· < ·)) (hkey : key ∉ entries.map Prod.fst) :
    ((insertEntry key v entries).map Prod.fst).Pairwise (· < ·) := by
  induction entries with
  | nil => simp [insertEntry]
  | cons e rest ih =>
    obtain ⟨k, w⟩ := e
    obtain ⟨hk, hrest⟩ := List.pairwise_cons.1 h
    rw [insertEntry]
    split_ifs with hlt
    · refine List.pairwise_cons.2 ⟨fun x hx => ?_, h⟩
      rcases List.mem_cons.1 hx with rfl | hx
      · exact hlt
      · exact String.lt_trans hlt (hk x hx)
    · have hne : key ≠ k := fun heq => hkey (by simp [heq])
      have hgreater : k < key :=
        String.not_le.1 fun hle => hne (String.le_antisymm (String.not_lt.1 hlt) hle).symm
      refine List.pairwise_cons.2 ⟨fun x hx => ?_, ih hrest fun hmem => hkey (by simp [hmem])⟩
      rw [((perm_insertEntry key v rest).map Prod.fst).mem_iff] at hx
      rcases List.mem_cons.1 hx with rfl | hx
      · exact hgreater
      · exact hk x hx

theorem perm_entriesOf (fields : Fields) :
    (entriesOf fields).Perm (fields.map fun f => (f.1, f.2.value)) := by
  induction fields with
  | nil => exact .refl _
  | cons f rest ih =>
    obtain ⟨k, n⟩ := f
    rw [entriesOf]
    exact (perm_insertEntry k n.value _).trans (ih.cons _)

theorem keys_entriesOf_perm (fields : Fields) :
    ((entriesOf fields).map Prod.fst).Perm (fields.map Prod.fst) := by
  have hkeys := (perm_entriesOf fields).map Prod.fst
  rwa [List.map_map, show (Prod.fst ∘ fun f : String × Node => (f.1, f.2.value)) = Prod.fst from
    rfl] at hkeys

/-- The keys of a finished table are in order. -/
theorem pairwise_entriesOf (h : (fields.map Prod.fst).Nodup) :
    ((entriesOf fields).map Prod.fst).Pairwise (· < ·) := by
  induction fields with
  | nil => exact .nil
  | cons f rest ih =>
    obtain ⟨k, n⟩ := f
    obtain ⟨hk, hrest⟩ := List.nodup_cons.1 h
    rw [entriesOf]
    exact pairwise_insertEntry (ih hrest) (mt (keys_entriesOf_perm rest).mem_iff.1 hk)

theorem tablesOf_eq (all : List (List (String × Node))) :
    tablesOf all = all.map fun fields => .table (entriesOf fields) := by
  induction all with
  | nil => rfl
  | cons fields rest ih => rw [tablesOf, ih, List.map_cons]

theorem ordered_entriesOf (hkeys : (fields.map Prod.fst).Nodup)
    (hvalues : ∀ f ∈ fields, f.2.value.Ordered) : (Value.table (entriesOf fields)).Ordered := by
  refine .table (pairwise_entriesOf hkeys) fun e he => ?_
  rw [(perm_entriesOf fields).mem_iff, List.mem_map] at he
  obtain ⟨f, hf, rfl⟩ := he
  exact hvalues f hf

/-- **What is finished has its keys in order.** -/
theorem Node.Sound.ordered (h : node.Sound) : node.value.Ordered := by
  induction h with
  | leaf h => exact h
  | table keys _ ih => exact ordered_entriesOf keys ih
  | tables keys _ ih =>
    rw [Node.value, tablesOf_eq]
    refine .array fun v hv => ?_
    obtain ⟨fields, hfields, rfl⟩ := List.mem_map.1 hv
    exact ordered_entriesOf (keys fields hfields) (ih fields hfields)

theorem Fields.Sound.ordered (h : fields.Sound) : (Value.table (entriesOf fields)).Ordered :=
  ordered_entriesOf h.keys fun f hf => (h.nodes f hf).ordered

/-! ## Additions -/

namespace Fields

theorem mem_put {f : String × Node} (h : f ∈ put key node fields) :
    f = (key, node) ∨ f ∈ fields := by
  induction fields with
  | nil => exact .inl (by simpa [put] using h)
  | cons e rest ih =>
    obtain ⟨k, n⟩ := e
    rw [put] at h
    split_ifs at h
    · exact (List.mem_cons.1 h).imp_right (List.mem_cons_of_mem _)
    · rcases List.mem_cons.1 h with rfl | h
      · exact .inr List.mem_cons_self
      · exact (ih h).imp_right (List.mem_cons_of_mem _)

theorem nodup_put (h : (fields.map Prod.fst).Nodup) :
    ((put key node fields).map Prod.fst).Nodup := by
  induction fields with
  | nil => simp [put]
  | cons e rest ih =>
    obtain ⟨k, n⟩ := e
    obtain ⟨hk, hrest⟩ := List.nodup_cons.1 h
    rw [put]
    split_ifs with hkey
    · exact List.nodup_cons.2 ⟨hkey ▸ hk, hrest⟩
    · refine List.nodup_cons.2 ⟨fun hmem => ?_, ih hrest⟩
      obtain ⟨f, hf, hfk⟩ := List.mem_map.1 hmem
      rcases mem_put hf with rfl | hf
      · exact hkey hfk.symm
      · exact hk (List.mem_map.2 ⟨f, hf, hfk⟩)

theorem mem_of_lookup (h : fields.lookup key = some node) : (key, node) ∈ fields := by
  obtain ⟨before, after, hfields, -⟩ := List.lookup_eq_some_iff.1 h
  rw [hfields]
  exact List.mem_append_right _ List.mem_cons_self

namespace Sound

/-- What is put under a key takes the place of what was there. -/
theorem put (h : fields.Sound) (hnode : node.Sound) : (fields.put key node).Sound := by
  refine ⟨nodup_put h.keys, fun f hf => ?_⟩
  rcases mem_put hf with rfl | hf
  · exact hnode
  · exact h.nodes f hf

theorem lookup (h : fields.Sound) (hlookup : fields.lookup key = some node) : node.Sound :=
  h.nodes _ (mem_of_lookup hlookup)

theorem toNode (h : fields.Sound) (implicit dotted : Bool) :
    (Node.table implicit dotted fields).Sound := .table h.keys h.nodes

theorem toTables {all : List Fields} (h : ∀ fields ∈ all, fields.Sound) :
    (Node.tables all).Sound :=
  .tables (fun fields hfields => (h fields hfields).keys)
    fun fields hfields => (h fields hfields).nodes

theorem of_table {implicit dotted : Bool} (h : (Node.table implicit dotted fields).Sound) :
    fields.Sound := by
  cases h with
  | table keys nodes => exact ⟨keys, nodes⟩

theorem of_tables {all : List Fields} (h : (Node.tables all).Sound) (hfields : fields ∈ all) :
    fields.Sound := by
  cases h with
  | tables keys nodes => exact ⟨keys fields hfields, nodes fields hfields⟩

/-- **A change at the end of a path of keys** keeps the tables sound if it does so there. -/
theorem within? {change : Bool → Fields → Option Fields} {dotted isDotted : Bool}
    {path : List String}
    (hchange : ∀ {isDotted : Bool} {fields fields' : Fields}, fields.Sound →
      change isDotted fields = some fields' → fields'.Sound)
    (hfields : fields.Sound)
    (h : Fields.within? dotted change path isDotted fields = some fields') : fields'.Sound := by
  induction path generalizing isDotted fields fields' with
  | nil => exact hchange hfields h
  | cons key path ih =>
    rw [Fields.within?] at h
    split at h
    · obtain ⟨inner, hinner, rfl⟩ := Option.map_eq_some_iff.1 h
      exact hfields.put ((ih sound_nil hinner).toNode _ _)
    · simp at h
    · rename_i all hlookup
      split at h
      · simp at h
      · rename_i last hlast
        have hall : ∀ fields ∈ all, Fields.Sound fields :=
          fun fields hmem => of_tables (hfields.lookup hlookup) hmem
        obtain ⟨inner, hinner, rfl⟩ := Option.map_eq_some_iff.1 h
        refine hfields.put (toTables fun fields hmem => ?_)
        rcases List.mem_append.1 hmem with hmem | hmem
        · exact hall fields (List.dropLast_subset _ hmem)
        · obtain rfl : fields = inner := by simpa using hmem
          exact ih (hall last (List.mem_of_getLast? hlast)) hinner
    · rename_i implicit isDotted inner hlookup
      split_ifs at h
      obtain ⟨inner', hinner, rfl⟩ := Option.map_eq_some_iff.1 h
      exact hfields.put ((ih (of_table (hfields.lookup hlookup)) hinner).toNode _ _)

theorem assign? {path : List String} {isDotted : Bool} (hfields : fields.Sound) (hv : v.Ordered)
    (h : fields.assign? path key v isDotted = some fields') : fields'.Sound := by
  refine within? (fun {isDotted fields fields'} hinner hput => ?_) hfields h
  split_ifs at hput
  obtain rfl := Option.some.inj hput
  exact hinner.put (.leaf hv)

theorem open? {path : List String} (hfields : fields.Sound)
    (h : fields.open? path = some fields') : fields'.Sound := by
  unfold Fields.open? at h
  split at h
  · simp at h
  refine within? (fun {isDotted fields fields'} hinner hput => ?_) hfields h
  split at hput
  · obtain rfl := Option.some.inj hput
    exact hinner.put (sound_nil.toNode _ _)
  · rename_i inner hlookup
    obtain rfl := Option.some.inj hput
    exact hinner.put ((of_table (hinner.lookup hlookup)).toNode _ _)
  · simp at hput

theorem openNext? {path : List String} (hfields : fields.Sound)
    (h : fields.openNext? path = some fields') : fields'.Sound := by
  unfold Fields.openNext? at h
  split at h
  · simp at h
  refine within? (fun {isDotted fields fields'} hinner hput => ?_) hfields h
  split at hput
  · obtain rfl := Option.some.inj hput
    exact hinner.put (toTables (by simp [sound_nil]))
  · rename_i all hlookup
    obtain rfl := Option.some.inj hput
    refine hinner.put (toTables fun fields hmem => ?_)
    rcases List.mem_append.1 hmem with hmem | hmem
    · exact of_tables (hinner.lookup hlookup) hmem
    · obtain rfl : fields = [] := by simpa using hmem
      exact sound_nil
  · simp at hput

end Sound
end Fields

/-! ## Reading values -/

theorem isSimple_of_integer? (h : integer? cs = some v) : v.isSimple = true := by
  have hrange : ∀ {n : Int}, inRange? n = some v → v.isSimple = true := by
    intro n h
    unfold inRange? at h
    split_ifs at h
    obtain rfl := Option.some.inj h
    rfl
  unfold integer? at h
  split at h
  all_goals
    obtain ⟨n, -, hn⟩ := Option.bind_eq_some_iff.1 h
    exact hrange hn

theorem isSimple_of_float? (h : float? cs = some v) : v.isSimple = true := by
  unfold float? at h
  split at h
  split_ifs at h
  · obtain rfl := Option.some.inj h
    rfl
  · obtain rfl := Option.some.inj h
    rfl
  · dsimp only at h
    split at h
    · split_ifs at h
      obtain rfl := Option.some.inj h
      rfl
    · simp at h

theorem isSimple_of_moment? (h : moment? cs = some v) : v.isSimple = true := by
  unfold moment? at h
  split at h
  · obtain rfl := Option.some.inj h
    rfl
  · split_ifs at h
    simp only [Option.bind_eq_bind, Option.bind_eq_some_iff, Option.pure_def,
      Option.some.injEq] at h
    obtain ⟨-, -, -, -, rfl⟩ := h
    rfl
  · split at h
    · obtain rfl := Option.some.inj h
      rfl
    · simp at h

/-- What a word stands for is neither a list nor a table. -/
theorem isSimple_of_word? (h : word? cs = some v) : v.isSimple = true := by
  unfold word? at h
  split_ifs at h
  · obtain rfl := Option.some.inj h
    rfl
  · obtain rfl := Option.some.inj h
    rfl
  · simp only [Option.orElse_eq_or, Option.or_eq_some_iff] at h
    rcases h with h | ⟨-, h | ⟨-, h⟩⟩
    · exact isSimple_of_moment? h
    · exact isSimple_of_float? h
    · exact isSimple_of_integer? h

theorem isSimple_of_plainValue? (h : plainValue? cs = some (v, rest)) : v.isSimple = true := by
  unfold plainValue? at h
  split at h
  · split_ifs at h
    · obtain ⟨_, -, heq⟩ := Option.map_eq_some_iff.1 h
      obtain ⟨rfl, -⟩ := Prod.mk.inj heq
      rfl
    · obtain ⟨w, hw, heq⟩ := Option.map_eq_some_iff.1 h
      obtain ⟨rfl, -⟩ := Prod.mk.inj heq
      exact isSimple_of_word? hw
  · simp at h

section Items

variable {item? : List Char → Option (Value × List Char)}
  (hitem : ∀ {cs rest : List Char} {v : Value}, item? cs = some (v, rest) → v.Ordered)
include hitem

theorem ordered_of_items? {fuel : Nat} {vs : List Value}
    (h : items? item? fuel cs = some (vs, rest)) : ∀ v ∈ vs, v.Ordered := by
  induction fuel generalizing cs vs rest with
  | zero => simp [items?] at h
  | succ fuel ih =>
    rw [items?] at h
    simp only [Option.bind_eq_bind, Option.bind_eq_some_iff] at h
    obtain ⟨first, -, h⟩ := h
    split at h
    · obtain ⟨rfl, -⟩ : [] = vs ∧ _ := by simpa using h
      simp
    · simp only [Option.bind_eq_some_iff] at h
      obtain ⟨⟨v, after⟩, hv, next, -, h⟩ := h
      have hfirst := hitem hv
      split at h
      · simp only [Option.bind_eq_some_iff] at h
        obtain ⟨⟨others, final⟩, hothers, h⟩ := h
        obtain ⟨rfl, -⟩ : v :: others = vs ∧ _ := by simpa using h
        exact List.forall_mem_cons.2 ⟨hfirst, ih hothers⟩
      · obtain ⟨rfl, -⟩ : [v] = vs ∧ _ := by simpa using h
        simpa using hfirst
      · simp at h

theorem sound_of_inlineFields? {fuel : Nat} (hfields : fields.Sound)
    (h : inlineFields? item? fuel fields cs = some (fields', rest)) : fields'.Sound := by
  induction fuel generalizing cs fields with
  | zero => simp [inlineFields?] at h
  | succ fuel ih =>
    rw [inlineFields?] at h
    simp only [Option.bind_eq_bind, Option.bind_eq_some_iff] at h
    obtain ⟨⟨path, _⟩, -, _, -, ⟨v, after⟩, hv, key, -, next, hassign, h⟩ := h
    have hnext := hfields.assign? (hitem hv) hassign
    split at h
    · exact ih hnext h
    · obtain ⟨rfl, -⟩ : next = fields' ∧ _ := by simpa using h
      exact hnext
    · simp at h

end Items

/-- **A value that is read has its keys in order.** -/
theorem ordered_of_nestedValue? {limit : Nat} (h : nestedValue? limit cs = some (v, rest)) :
    v.Ordered := by
  induction limit generalizing cs v rest with
  | zero =>
    rw [nestedValue?.eq_def] at h
    split at h
    · simp at h
    · simp at h
    · simp_all
    · simp_all
    · exact .simple (isSimple_of_plainValue? h)
  | succ limit ih =>
    rw [nestedValue?.eq_def] at h
    split at h
    · simp_all
    · simp_all
    · rename_i hlimit
      obtain rfl : limit = _ := Nat.succ.inj hlimit
      obtain ⟨⟨vs, after⟩, hitems, heq⟩ := Option.map_eq_some_iff.1 h
      obtain ⟨rfl, -⟩ := Prod.mk.inj heq
      exact .array (ordered_of_items? ih hitems)
    · rename_i hlimit
      obtain rfl : limit = _ := Nat.succ.inj hlimit
      split at h
      · obtain ⟨rfl, -⟩ : Value.table [] = v ∧ _ := by simpa using h
        exact .table .nil (by simp)
      · obtain ⟨⟨inner, after⟩, hinner, heq⟩ := Option.map_eq_some_iff.1 h
        obtain ⟨rfl, -⟩ := Prod.mk.inj heq
        exact (sound_of_inlineFields? ih Fields.sound_nil hinner).ordered
    · exact .simple (isSimple_of_plainValue? h)

/-! ## Reading a document -/

theorem sound_of_statements? {fuel : Nat} {header : List String} (hfields : fields.Sound)
    (h : statements? fuel header fields cs = some fields') : fields'.Sound := by
  induction fuel generalizing cs header fields with
  | zero => simp [statements?] at h
  | succ fuel ih =>
    rw [statements?] at h
    simp only [Option.bind_eq_bind, Option.bind_eq_some_iff] at h
    obtain ⟨first, -, h⟩ := h
    split at h
    · obtain rfl : fields = fields' := by simpa using h
      exact hfields
    · simp only [Option.bind_eq_some_iff] at h
      obtain ⟨_, -, _, -, _, -, next, hopen, _, -, h⟩ := h
      exact ih (hfields.openNext? hopen) h
    · simp only [Option.bind_eq_some_iff] at h
      obtain ⟨_, -, _, -, next, hopen, _, -, h⟩ := h
      exact ih (hfields.open? hopen) h
    · simp only [Option.bind_eq_some_iff] at h
      obtain ⟨_, -, _, -, ⟨v, after⟩, hv, key, -, next, hwithin, _, -, h⟩ := h
      refine ih (Fields.Sound.within? (fun hinner hassign => ?_) hfields hwithin) h
      exact hinner.assign? (ordered_of_nestedValue? hv) hassign

/-- **A document has its keys in order**, none of them twice, and so has every table in it. -/
theorem ordered_of_read? {s : String} {entries : List (String × Value)}
    (h : read? s = some entries) : (Value.table entries).Ordered := by
  obtain ⟨fields, hfields, rfl⟩ := Option.map_eq_some_iff.1 h
  exact (sound_of_statements? Fields.sound_nil hfields).ordered

end Toml
end Restyle
