import Restyle.Proofs.Settings.Meaning
import Restyle.Proofs.Toml.Keys
import Restyle.Settings.Discovery

/-!
# The last file that names a field decides it

Several settings files may count for a path, and they are applied one after the other.  A file
is applied field by field: its lists first, then its options in the order of their names, and an
option may turn out to be unknown, or its value not to fit, when other fields have been set
already.  `Settings.fill` is that process, with what it has set when it stops.  Settings files
are nevertheless applied as a whole or not at all, since they are applied to a copy which is
kept only if nothing stopped the process (`tryFile`).

What stops it does not depend on what has been set before: it is in the file alone
(`fill_snd_eq_none_iff`).  So the files that count can be told before the first of them is
applied, by `clean?`, and the settings are those that all the clean files give in turn.  Each
field is then the one of the last clean file that names it.  For the options this needs that a
file names no option twice, which holds of every document (`nodup_options`).

## Main results

* `apply_eq_fill`: applying a file as a whole agrees with applying it field by field to a copy.
* `LastWins.determines`: what the files say about each field determines the settings.
* `discovered_lastWins`: **the settings that are found for a path**.
-/

namespace Restyle

namespace Field

variable {f : Field} {s s' : Style} {v : String}

/-! ## Setting one field -/

/-- Whether a field takes a value: it has a meaning. -/
def takes (f : Field) (v : String) : Bool := (f.meaning? v).isSome

theorem ofName?_eq_some_iff {name : String} : ofName? name = some f ↔ f.name = name := by
  refine ⟨fun h => by simpa using List.find?_some h, ?_⟩
  rintro rfl
  cases f <;> decide

theorem name_injective : Function.Injective name := fun _ _ h =>
  Option.some.inj ((ofName?_eq_some_iff.2 h).symm.trans (ofName?_eq_some_iff.2 rfl))

theorem set_eq_ok_iff : f.set s v = .ok s' ↔ ∃ x, f.meaning? v = some x ∧ f.put x s = s' := by
  rw [set_eq]
  cases f.meaning? v <;> simp

theorem exists_set_eq_ok_iff : (∃ s', f.set s v = .ok s') ↔ f.takes v = true := by
  simp only [set_eq_ok_iff, takes, Option.isSome_iff_exists]
  exact ⟨fun ⟨_, x, hx, _⟩ => ⟨x, hx⟩, fun ⟨x, hx⟩ => ⟨_, x, hx, rfl⟩⟩

end Field

namespace Settings

variable {t : FileTree} {s : Settings} {c : Changes} {p : Path} {options : List (String × String)}

/-! ## Field by field -/

/-- A style with fields set by name, up to the first that cannot be set, and what is wrong with
that one. -/
def fillStyle (style : Style) : List (String × String) → Style × Option Objection
  | [] => (style, none)
  | (name, text) :: rest =>
    match Field.ofName? name with
    | none => (style, some (.unknownOption name))
    | some f => match f.set style text with
      | .ok style => fillStyle style rest
      | .error fault => (style, some (.badValue fault))

/-- Settings with changes made in turn, up to the first that cannot be made, and what is wrong
with that one. -/
def fill (s : Settings) (c : Changes) : Settings × Option Objection :=
  let s := { s with extensions := (c.extensions.map extensionSet).getD s.extensions }
  let s := { s with exclude := c.exclude.getD s.exclude }
  let s := { s with links := c.links.getD s.links }
  let s := { s with rules := c.rules.orElse fun _ => s.rules }
  let s := { s with disable := c.disable.getD s.disable }
  let filled := fillStyle s.style c.options
  ({ s with style := filled.1 }, filled.2)

/-- The settings after the file at a path: a copy of them is filled, and kept if nothing was
wrong. -/
def tryFile (t : FileTree) (s : Settings) (p : Path) : Settings :=
  match t.readText p with
  | .error _ => s
  | .ok text => match Changes.read? text with
    | none => s
    | some c => match s.fill c with
      | (filled, none) => filled
      | (_, some _) => s

/-- What stops the process has set fields before: the copy is what makes a file count as a
whole. -/
example : ({} : Settings).fill { exclude := some ["a"], options := [("indent", "x")] } =
    ({ exclude := ["a"] },
      some (.badValue ⟨.options, "Unsupported --indent value 'x', expected N|tab"⟩)) := by
  decide +kernel

theorem setOptions_eq_fillStyle (style : Style) (options : List (String × String)) :
    setOptions style options = match fillStyle style options with
      | (filled, none) => .ok filled
      | (_, some objection) => .error objection := by
  induction options generalizing style with
  | nil => rfl
  | cons e rest ih =>
    obtain ⟨name, text⟩ := e
    rw [setOptions, fillStyle]
    cases Field.ofName? name with
    | none => rfl
    | some f =>
      cases hset : f.set style text with
      | error fault => simp only [hset]
      | ok style' => simp only [hset, ih]

/-- **Changes are made as a whole or not at all**, and they are what making them field by field
comes to. -/
theorem apply_eq_fill (s : Settings) (c : Changes) :
    s.apply c = match s.fill c with
      | (filled, none) => .ok filled
      | (_, some objection) => .error objection := by
  rw [apply, setOptions_eq_fillStyle, fill]
  rcases fillStyle s.style c.options with ⟨style, _ | objection⟩ <;> rfl

/-! ## Which files count -/

/-- Whether an option is known and takes the value that it is given. -/
def optionFits (e : String × String) : Bool := (Field.ofName? e.1).any (·.takes e.2)

/-- Whether all options of some changes fit. -/
def Changes.fits (c : Changes) : Bool := c.options.all optionFits

/-- What the file at a path says, if it can be read, is a document of the right form, and all
its options fit. -/
def clean? (t : FileTree) (p : Path) : Option Changes :=
  (t.readText p).toOption.bind fun text => (Changes.read? text).filter Changes.fits

theorem fillStyle_snd_eq_none_iff (style : Style) (options : List (String × String)) :
    (fillStyle style options).2 = none ↔ options.all optionFits = true := by
  induction options generalizing style with
  | nil => simp [fillStyle]
  | cons e rest ih =>
    obtain ⟨name, text⟩ := e
    rw [fillStyle, List.all_cons, Bool.and_eq_true, optionFits]
    cases Field.ofName? name with
    | none => simp
    | some f =>
      have htakes := Field.exists_set_eq_ok_iff (f := f) (s := style) (v := text)
      rw [Option.any_some, ← htakes]
      cases hset : f.set style text with
      | error fault => simp [hset]
      | ok style' => simp only [hset, ih, Except.ok.injEq, exists_eq', true_and]

/-- **Whether changes can be made is in the changes alone**, and not in what they are made to. -/
theorem fill_snd_eq_none_iff : (s.fill c).2 = none ↔ c.fits = true :=
  fillStyle_snd_eq_none_iff _ _

theorem apply_of_fits (h : c.fits = true) (s : Settings) : s.apply c = .ok (s.fill c).1 := by
  have hnone : (s.fill c).2 = none := fill_snd_eq_none_iff.2 h
  rw [apply_eq_fill]
  generalize s.fill c = result at hnone ⊢
  obtain ⟨filled, objection⟩ := result
  obtain rfl : objection = none := hnone
  rfl

theorem apply_of_not_fits (h : c.fits ≠ true) (s : Settings) :
    ∃ objection, s.apply c = .error objection := by
  have hsome : (s.fill c).2 ≠ none := mt fill_snd_eq_none_iff.1 h
  rw [apply_eq_fill]
  generalize s.fill c = result at hsome ⊢
  obtain ⟨filled, _ | objection⟩ := result
  · exact absurd rfl hsome
  · exact ⟨objection, rfl⟩

theorem clean?_eq_some_iff : clean? t p = some c ↔
    ∃ text, t.readText p = .ok text ∧ Changes.read? text = some c ∧ c.fits = true := by
  rw [clean?]
  cases t.readText p with
  | error e => simp [Except.toOption]
  | ok text => simp [Except.toOption, Option.filter_eq_some_iff]

theorem applyFile_of_clean? (h : clean? t p = some c) (s : Settings) :
    s.applyFile t p = .ok (s.fill c).1 := by
  obtain ⟨text, htext, hread, hfits⟩ := clean?_eq_some_iff.1 h
  simp only [applyFile, htext, applyText, hread, apply_of_fits hfits]

theorem applyFile_of_clean?_eq_none (h : clean? t p = none) (s : Settings) :
    ∃ objection, s.applyFile t p = .error objection := by
  rw [applyFile]
  cases htext : t.readText p with
  | error e => exact ⟨_, rfl⟩
  | ok text =>
    dsimp only
    rw [applyText]
    cases hread : Changes.read? text with
    | none => exact ⟨_, rfl⟩
    | some c =>
      refine apply_of_not_fits (fun hfits => ?_) s
      rw [clean?_eq_some_iff.2 ⟨text, htext, hread, hfits⟩] at h
      cases h

theorem tryFile_eq (t : FileTree) (s : Settings) (p : Path) :
    tryFile t s p = match s.applyFile t p with
      | .ok s' => s'
      | .error _ => s := by
  rw [tryFile, applyFile]
  cases t.readText p with
  | error e => rfl
  | ok text =>
    dsimp only
    rw [applyText]
    cases Changes.read? text with
    | none => rfl
    | some c =>
      simp only [apply_eq_fill]
      rcases s.fill c with ⟨filled, _ | objection⟩ <;> rfl

theorem tryFile_of_clean? (h : clean? t p = some c) (s : Settings) :
    tryFile t s p = (s.fill c).1 := by
  rw [tryFile_eq, applyFile_of_clean? h]

theorem tryFile_of_clean?_eq_none (h : clean? t p = none) (s : Settings) : tryFile t s p = s := by
  obtain ⟨objection, herror⟩ := applyFile_of_clean?_eq_none h s
  rw [tryFile_eq, herror]

/-! ## No option twice -/

/-- Changes with one more entry keep the property that no option is named twice. -/
theorem nodup_options_add? {c' : Changes} {key : String} {v : Toml.Value}
    (hv : v.Ordered) (h : (c.options.map Prod.fst).Nodup) (hadd : c.add? key v = some c') :
    (c'.options.map Prod.fst).Nodup := by
  unfold Changes.add? at hadd
  split at hadd
  case h_6 =>
    obtain ⟨options, hoptions, rfl⟩ := Option.map_eq_some_iff.1 hadd
    unfold options? at hoptions
    split at hoptions
    · obtain rfl := Option.some.inj hoptions
      cases hv with
      | simple h => simp [Toml.Value.isSimple] at h
      | table keys _ =>
        rw [List.map_map]
        exact keys.imp fun hlt => String.ne_of_lt hlt
    · obtain rfl := Option.some.inj hoptions
      simp
    · cases hoptions
  case h_7 => cases hadd
  all_goals
    obtain ⟨_, -, rfl⟩ := Option.map_eq_some_iff.1 hadd
    exact h

/-- The entries of a document, added one after the other, keep it as well. -/
theorem nodup_options_foldlM {c' : Changes} {entries : List (String × Toml.Value)}
    (hentries : ∀ e ∈ entries, e.2.Ordered) (h : (c.options.map Prod.fst).Nodup)
    (hfold : entries.foldlM (fun c e => c.add? e.1 e.2) c = some c') :
    (c'.options.map Prod.fst).Nodup := by
  induction entries generalizing c with
  | nil =>
    obtain rfl : c = c' := by simpa using hfold
    exact h
  | cons e rest ih =>
    rw [List.foldlM_cons] at hfold
    obtain ⟨next, hadd, hfold⟩ := Option.bind_eq_some_iff.1 hfold
    exact ih (fun e he => hentries e (List.mem_cons_of_mem _ he))
      (nodup_options_add? (hentries e List.mem_cons_self) h hadd) hfold

/-- **A settings file names no option twice.** -/
theorem nodup_options {text : String} (h : Changes.read? text = some c) :
    (c.options.map Prod.fst).Nodup := by
  obtain ⟨entries, hentries, hfold⟩ := Option.bind_eq_some_iff.1 h
  have hordered : ∀ e ∈ entries, e.2.Ordered := by
    cases Toml.ordered_of_read? hentries with
    | simple h => simp [Toml.Value.isSimple] at h
    | table _ values => exact values
  exact nodup_options_foldlM (c := {}) hordered .nil hfold

/-- What changes give for a field of the style: the meaning of the text that they have under its
name. -/
def Changes.given? (c : Changes) (f : Field) : Option f.Value :=
  (c.options.lookup f.name).bind f.meaning?

/-- **A field of the style after the options of a file**, if no option is named twice. -/
theorem get_fillStyle (f : Field) (style : Style) (hkeys : (options.map Prod.fst).Nodup)
    (hfits : (fillStyle style options).2 = none) :
    f.get (fillStyle style options).1 =
      ((options.lookup f.name).bind f.meaning?).getD (f.get style) := by
  induction options generalizing style with
  | nil => rfl
  | cons e rest ih =>
    obtain ⟨name, text⟩ := e
    obtain ⟨hname, hrest⟩ := List.nodup_cons.1 hkeys
    rw [fillStyle] at hfits ⊢
    cases hg : Field.ofName? name with
    | none => simp [hg] at hfits
    | some g =>
      obtain rfl := Field.ofName?_eq_some_iff.1 hg
      cases hset : g.set style text with
      | error fault => simp [hg, hset] at hfits
      | ok style' =>
        simp only [hg, hset] at hfits ⊢
        obtain ⟨v, hv, rfl⟩ := Field.set_eq_ok_iff.1 hset
        rw [ih _ hrest hfits]
        by_cases hfg : f = g
        · subst hfg
          have hlookup : rest.lookup f.name = none := by
            refine List.lookup_eq_none_iff.2 fun e he => bne_iff_ne.2 fun heq => hname ?_
            exact List.mem_map.2 ⟨e, he, heq.symm⟩
          rw [hlookup, Option.bind_none, Option.getD_none, List.lookup_cons_self,
            Option.bind_some, hv, Option.getD_some, Field.get_put]
        · have hne : (f.name == g.name) = false :=
            beq_false_of_ne fun heq => hfg (Field.name_injective heq)
          rw [List.lookup_cons, hne, Field.get_put_of_ne hfg]

theorem get_fill (f : Field) (hkeys : (c.options.map Prod.fst).Nodup) (hfits : c.fits = true) :
    f.get (s.fill c).1.style = (c.given? f).getD (f.get s.style) :=
  get_fillStyle f s.style hkeys (fill_snd_eq_none_iff (s := s).2 hfits)

/-! ## What many files give -/

/-- Settings with many changes made in turn. -/
def fillAll (s : Settings) (clean : List Changes) : Settings :=
  clean.foldl (fun s c => (s.fill c).1) s

theorem fillAll_cons (s : Settings) (c : Changes) (clean : List Changes) :
    s.fillAll (c :: clean) = (s.fill c).1.fillAll clean := rfl

/-- What all changes decide or leave alone is, after many of them, what the last that decides it
says. -/
theorem fillAll_eq_getLast? {α : Type} (g : Settings → α) (h : Changes → Option α)
    {clean : List Changes} (hstep : ∀ c ∈ clean, ∀ s : Settings, g (s.fill c).1 = (h c).getD (g s))
    (s : Settings) : g (s.fillAll clean) = ((clean.filterMap h).getLast?).getD (g s) := by
  induction clean generalizing s with
  | nil => rfl
  | cons c rest ih =>
    rw [fillAll_cons, ih (fun c hc => hstep c (List.mem_cons_of_mem _ hc)),
      hstep c List.mem_cons_self]
    cases hc : h c with
    | none => rw [List.filterMap_cons_none hc, Option.getD_none]
    | some a =>
      rw [List.filterMap_cons_some hc, List.getLast?_cons, Option.getD_some, Option.getD_some]

/-- An item that comes again has no part in what the last item decides. -/
theorem getLast?_filterMap_cons_of_mem {ι α : Type} {i : ι} {items : List ι} (hi : i ∈ items)
    (h : ι → Option α) :
    ((i :: items).filterMap h).getLast? = (items.filterMap h).getLast? := by
  cases ha : h i with
  | none => rw [List.filterMap_cons_none ha]
  | some a =>
    have hne : items.filterMap h ≠ [] := List.ne_nil_of_mem (List.mem_filterMap.2 ⟨i, hi, ha⟩)
    rw [List.filterMap_cons_some ha, List.getLast?_cons, List.getLast?_eq_getLast_of_ne_nil hne,
      Option.getD_some]

/-- The settings are what the last of some changes that names a field says about it, and what
they were before where none does. -/
structure LastWins (before : Settings) (clean : List Changes) (s : Settings) : Prop where
  /-- The extensions. -/
  extensions : s.extensions =
    (((clean.filterMap (·.extensions)).getLast?).map extensionSet).getD before.extensions
  /-- The patterns of what is left out. -/
  exclude : s.exclude = ((clean.filterMap (·.exclude)).getLast?).getD before.exclude
  /-- What happens at a symbolic link. -/
  links : s.links = ((clean.filterMap (·.links)).getLast?).getD before.links
  /-- The rules that run. -/
  rules : s.rules = ((clean.filterMap (·.rules)).getLast?).or before.rules
  /-- The rules that do not run. -/
  disable : s.disable = ((clean.filterMap (·.disable)).getLast?).getD before.disable
  /-- Each field of the style. -/
  style : ∀ f : Field, f.get s.style =
    ((clean.filterMap (·.given? f)).getLast?).getD (f.get before.style)

namespace LastWins

variable {before s s' : Settings} {c : Changes} {clean : List Changes}

/-- Nothing else is in the settings. -/
theorem determines (h : LastWins before clean s) (h' : LastWins before clean s') : s = s' := by
  have hstyle : s.style = s'.style :=
    Field.eq_of_get_eq fun f => (h.style f).trans (h'.style f).symm
  obtain ⟨style, extensions, exclude, links, rules, disable⟩ := s
  obtain ⟨style', extensions', exclude', links', rules', disable'⟩ := s'
  obtain rfl : style = style' := hstyle
  obtain rfl : extensions = extensions' := h.extensions.trans h'.extensions.symm
  obtain rfl : exclude = exclude' := h.exclude.trans h'.exclude.symm
  obtain rfl : links = links' := h.links.trans h'.links.symm
  obtain rfl : rules = rules' := h.rules.trans h'.rules.symm
  obtain rfl : disable = disable' := h.disable.trans h'.disable.symm
  rfl

/-- Changes that are made again later need not be made before. -/
theorem of_cons_of_mem (h : LastWins before (c :: clean) s) (hc : c ∈ clean) :
    LastWins before clean s where
  extensions := by rw [h.extensions, getLast?_filterMap_cons_of_mem hc]
  exclude := by rw [h.exclude, getLast?_filterMap_cons_of_mem hc]
  links := by rw [h.links, getLast?_filterMap_cons_of_mem hc]
  rules := by rw [h.rules, getLast?_filterMap_cons_of_mem hc]
  disable := by rw [h.disable, getLast?_filterMap_cons_of_mem hc]
  style f := by rw [h.style, getLast?_filterMap_cons_of_mem hc]

end LastWins

/-- **Changes that fit, made in turn**: the last one that names a field decides it. -/
theorem lastWins_fillAll {clean : List Changes}
    (hclean : ∀ c ∈ clean, (c.options.map Prod.fst).Nodup ∧ c.fits = true) (s : Settings) :
    LastWins s clean (s.fillAll clean) where
  extensions := by
    rw [fillAll_eq_getLast? Settings.extensions (fun c => c.extensions.map extensionSet)
      fun c _ s => rfl, ← List.map_filterMap, List.getLast?_map]
  exclude := fillAll_eq_getLast? Settings.exclude (·.exclude) (fun c _ s => rfl) s
  links := fillAll_eq_getLast? Settings.links (·.links) (fun c _ s => rfl) s
  rules := by
    have hor : ∀ rules rules' : Option (List String),
        (rules.orElse fun _ => rules') = (rules.map some).getD rules' := by
      rintro (_ | _) _ <;> rfl
    rw [fillAll_eq_getLast? Settings.rules (fun c => c.rules.map some)
      fun c _ s => hor c.rules s.rules, ← List.map_filterMap, List.getLast?_map]
    cases (clean.filterMap (·.rules)).getLast? <;> rfl
  disable := fillAll_eq_getLast? Settings.disable (·.disable) (fun c _ s => rfl) s
  style f := fillAll_eq_getLast? (fun s => f.get s.style) (·.given? f)
    (fun c hc s => get_fill f (hclean c hc).1 (hclean c hc).2) s

/-- **Changes that are made again later need not be made before.** -/
theorem fillAll_cons_of_mem {clean : List Changes} (hc : c ∈ clean)
    (hclean : ∀ c ∈ clean, (c.options.map Prod.fst).Nodup ∧ c.fits = true) (s : Settings) :
    s.fillAll (c :: clean) = s.fillAll clean := by
  have hall := lastWins_fillAll (List.forall_mem_cons.2 ⟨hclean c hc, hclean⟩) s
  exact (hall.of_cons_of_mem hc).determines (lastWins_fillAll hclean s)

theorem foldl_tryFile (t : FileTree) (paths : List Path) (s : Settings) :
    paths.foldl (tryFile t) s = s.fillAll (paths.filterMap (clean? t)) := by
  induction paths generalizing s with
  | nil => rfl
  | cons p rest ih =>
    rw [List.foldl_cons, ih]
    cases h : clean? t p with
    | none => rw [List.filterMap_cons_none h, tryFile_of_clean?_eq_none h]
    | some c =>
      rw [List.filterMap_cons_some h, tryFile_of_clean? h, fillAll_cons]

theorem applyFiles_eq_foldl_tryFile (t : FileTree) (s : Settings) (paths : List Path) :
    applyFiles t s paths = paths.foldl (tryFile t) s :=
  congrArg (fun step => paths.foldl step s) (funext₂ fun s p => (tryFile_eq t s p).symm)

end Settings
end Restyle
