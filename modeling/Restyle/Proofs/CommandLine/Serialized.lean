import Mathlib.Data.List.TakeWhile
import Restyle.Program

/-!
# A written style is a command line

`Style.serialized` writes a style as a text, and the cache compares such texts.  This module
shows that the text loses nothing.  Cut at its spaces it is a list of arguments that the command
line takes, in front of any inputs; and the fields that the command line then holds turn every
style, and the style of any settings, into the one that was written.

The argument has three parts.  Values and names are `Plain`: small letters, digits and dashes,
so neither trimming nor lower case changes them, and no separator is among them.
`Field.set_value` says that a field takes over its written value, whatever else the style says.
`Reader.Holds` says what a reader has taken in when it stands between a value and the next flag.

* `Style.words_serialized`: the words of a written style.
* `Program.setFields_values`: the fields of a style, set one after the other, give that style.
* `Arguments.read_words`: what the command line makes of the words, with inputs behind them.
-/

namespace Restyle

/-- The numbers of a style are machine words. -/
structure Style.FitsWords (s : Style) : Prop where
  indent : ∀ n, s.indent = .spaces n → n ≤ Text.maxWord
  maxBlankLines : s.maxBlankLines ≤ Text.maxWord

namespace Text

/-! ## Plain texts -/

/-- A small letter, a digit or a dash. -/
def PlainChar (c : Char) : Prop := c.isLower ∨ c.isDigit ∨ c = '-'

instance (c : Char) : Decidable (PlainChar c) := inferInstanceAs (Decidable (_ ∨ _))

/-- A text of small letters, digits and dashes. -/
def Plain (t : String) : Prop := ∀ c ∈ t.toList, PlainChar c

instance (t : String) : Decidable (Plain t) := List.decidableBAll PlainChar t.toList

variable {t : String} {c : Char} {n m : Nat}

theorem PlainChar.code (h : PlainChar c) :
    c.toNat = 45 ∨ 48 ≤ c.toNat ∧ c.toNat ≤ 57 ∨ 97 ≤ c.toNat ∧ c.toNat ≤ 122 := by
  rcases h with h | h | rfl
  · have hrange : ('a'.val ≤ c.val && c.val ≤ 'z'.val) = true := h
    simp only [Bool.and_eq_true, decide_eq_true_eq, UInt32.le_iff_toNat_le] at hrange
    exact .inr (.inr hrange)
  · simp only [Char.isDigit, Bool.and_eq_true, decide_eq_true_eq, ge_iff_le,
      UInt32.le_iff_toNat_le] at h
    exact .inr (.inl h)
  · exact .inl rfl

theorem PlainChar.isBlank_eq_false (h : PlainChar c) : isBlank c = false := by
  have hcode := h.code
  simp only [isBlank, blanks, inRanges]
  grind

theorem PlainChar.toLower_eq (h : PlainChar c) : c.toLower = c := by
  have hcode := h.code
  have hupper : ¬ (c.val ≥ 'A'.val ∧ c.val ≤ 'Z'.val) := by
    rintro ⟨hlow, hhigh⟩
    rw [ge_iff_le, UInt32.le_iff_toNat_le] at hlow
    rw [UInt32.le_iff_toNat_le] at hhigh
    have hA : 'A'.val.toNat = 65 := rfl
    have hZ : 'Z'.val.toNat = 90 := rfl
    have hc : c.toNat = c.val.toNat := rfl
    omega
  exact dif_neg hupper

/-- A plain text has no blanks to cut off. -/
theorem Plain.trim_eq (h : Plain t) : trim t = t := by
  have hblank : ∀ c ∈ t.toList, ¬ isBlank c = true := fun c hc => by
    simp [(h c hc).isBlank_eq_false]
  have hdrop : ∀ cs : List Char, (∀ c ∈ cs, ¬ isBlank c = true) → cs.dropWhile isBlank = cs := by
    intro cs hcs
    cases cs with
    | nil => rfl
    | cons c cs => exact List.dropWhile_cons_of_neg (hcs c List.mem_cons_self)
  rw [trim, strip, hdrop _ hblank, hdrop _ (fun c hc => hblank c (List.mem_reverse.1 hc)),
    List.reverse_reverse, String.ofList_toList]

/-- A plain text is in lower case. -/
theorem Plain.lowercase_eq (h : Plain t) : lowercase t = t := by
  have hmap : t.toList.map Char.toLower = t.toList := by
    rw [List.map_congr_left fun c hc => (h c hc).toLower_eq, List.map_id']
  rw [lowercase, hmap, String.ofList_toList]

/-- No separator is in a plain text. -/
theorem Plain.notMem (h : Plain t) (hc : ¬ PlainChar c) : c ∉ t.toList := fun hmem => hc (h c hmem)

/-! ## Numbers -/

theorem digit?_eq (h : c.isDigit) : digit? c = some (c.toNat - '0'.toNat) := by
  simp [Char.isDigit] at h
  simp [digit?, Char.le_def, h]

theorem digitsFrom?_eq {cs : List Char} (h : ∀ c ∈ cs, c.isDigit) :
    digitsFrom? m cs = some (Nat.ofDigitChars 10 cs m) := by
  induction cs generalizing m with
  | nil => rfl
  | cons c cs ih =>
    rw [digitsFrom?, digit?_eq (h c List.mem_cons_self), Option.bind_some,
      ih fun d hd => h d (List.mem_cons_of_mem _ hd), Nat.ofDigitChars_cons]

theorem isDigit_of_mem_toString (h : c ∈ (toString n).toList) : c.isDigit := by
  rw [Nat.toString_eq_repr, Nat.toList_repr] at h
  exact Nat.isDigit_of_mem_toDigits (by decide) (by decide) h

theorem plain_toString (n : Nat) : Plain (toString n) := fun _ hc =>
  .inr (.inl (isDigit_of_mem_toString hc))

theorem word?_eq {cs : List Char} (ht : t.toList = c :: cs) (hplus : c ≠ '+') :
    word? t = (digitsFrom? 0 t.toList).filter (· ≤ maxWord) := by
  simp [word?, ht, hplus]

/-- A machine word is read as it is written. -/
theorem word?_toString (h : n ≤ maxWord) : word? (toString n) = some n := by
  have hdigits : ∀ c ∈ (toString n).toList, c.isDigit := fun _ => isDigit_of_mem_toString
  have hvalue : digitsFrom? 0 (toString n).toList = some n := by
    rw [digitsFrom?_eq hdigits, Nat.toString_eq_repr, Nat.toList_repr,
      Nat.ofDigitChars_ten_toDigits]
  have hne : (toString n).toList ≠ [] := by
    rw [Nat.toString_eq_repr, Nat.toList_repr]
    exact Nat.toDigits_ne_nil
  cases hcs : (toString n).toList with
  | nil => exact absurd hcs hne
  | cons c cs =>
    have hplus : c ≠ '+' := by
      rintro rfl
      exact absurd (hdigits '+' (hcs ▸ List.mem_cons_self)) (by decide)
    rw [word?_eq hcs hplus, hvalue, Option.filter_some, if_pos (decide_eq_true h)]

end Text

namespace Field

open Text

variable {s base : Style} {f : Field}

/-! ## Values -/

theorem plain_name (f : Field) : Plain f.name := by
  cases f <;> decide

/-- A value is plain, and it is not taken for a flag. -/
theorem plain_value_and_head? (s : Style) (f : Field) :
    Plain (f.value s) ∧ (f.value s).toList.head? ≠ some '-' := by
  have hnumber : ∀ n : Nat, Plain (toString n) ∧ (toString n).toList.head? ≠ some '-' := fun n =>
    ⟨plain_toString n, fun hn =>
      absurd (isDigit_of_mem_toString (List.mem_of_mem_head? hn)) (by decide)⟩
  have hswitch : ∀ b, Plain (switchText b) ∧ (switchText b).toList.head? ≠ some '-' := by decide
  cases f with
  | indent =>
    cases hindent : s.indent with
    | spaces n => simpa only [value, hindent, Indent.name] using hnumber n
    | tab => simp only [value, hindent]; decide
  | linebreaks => cases hl : s.linebreak <;> simp only [value, hl] <;> decide
  | allman => exact hswitch s.allman
  | maxBlankLines => exact hnumber s.maxBlankLines
  | trimWhitespace => cases ht : s.trim <;> simp only [value, ht] <;> decide
  | experimental => exact hswitch s.experimental
  | fragment => exact hswitch s.fragment

theorem plain_value (s : Style) (f : Field) : Plain (f.value s) := (plain_value_and_head? s f).1

theorem switch?_switchText (b : Bool) : switch? (switchText b) = some b := by
  cases b <;> decide

theorem indent?_name {i : Indent} (h : ∀ n, i = .spaces n → n ≤ maxWord) :
    indent? i.name = some i := by
  cases i with
  | tab => decide
  | spaces n =>
    have hword : ∀ w : String, 't' ∈ w.toList → toString n ≠ w := fun w hw heq =>
      absurd (isDigit_of_mem_toString (heq ▸ hw)) (by decide)
    have htab : toString n ≠ "tab" := hword "tab" (by decide)
    have htabs : toString n ≠ "tabs" := hword "tabs" (by decide)
    rw [indent?, Indent.name, (plain_toString n).lowercase_eq, word?_toString (h n rfl)]
    simp only [htab, htabs, decide_false, Bool.or_self, Bool.false_eq_true, if_false,
      Option.map_some]

/-- The style with one field of another. -/
def copy (s base : Style) : Field → Style
  | indent => { base with indent := s.indent }
  | linebreaks => { base with linebreak := s.linebreak }
  | allman => { base with allman := s.allman }
  | maxBlankLines => { base with maxBlankLines := s.maxBlankLines }
  | trimWhitespace => { base with trim := s.trim }
  | experimental => { base with experimental := s.experimental }
  | fragment => { base with fragment := s.fragment }

/-- A field takes over the value that another style has written for it. -/
theorem set_value (h : s.FitsWords) (base : Style) (f : Field) :
    f.set base (f.value s) = .ok (f.copy s base) := by
  have hset : f.set? base (f.value s) = some (f.copy s base) := by
    cases f with
    | indent => rw [set?, value, indent?_name h.indent, Option.map_some, copy]
    | linebreaks =>
      rw [set?, (plain_value s linebreaks).lowercase_eq, copy]
      cases hl : s.linebreak <;> simp only [value, hl] <;> rfl
    | allman => rw [set?, value, switch?_switchText, Option.map_some, copy]
    | maxBlankLines => rw [set?, value, word?_toString h.maxBlankLines, Option.map_some, copy]
    | trimWhitespace =>
      rw [set?, (plain_value s trimWhitespace).lowercase_eq, copy]
      cases ht : s.trim <;> simp only [value, ht] <;> rfl
    | experimental => rw [set?, value, switch?_switchText, Option.map_some, copy]
    | fragment => rw [set?, value, switch?_switchText, Option.map_some, copy]
  rw [set, (plain_value s f).trim_eq]
  simp only [hset]

end Field

namespace Program

variable {s : Style}

/-- The fields of a style, set one after the other, give that style, whatever they are set in. -/
theorem setFields_values (h : s.FitsWords) (base : Style) :
    setFields base (Field.all.map fun f => (f, f.value s)) = .ok s := by
  simp only [Field.all, List.map_cons, List.map_nil, setFields, Field.set_value h, Field.copy]

end Program

namespace Style

open Text

variable {s s' : Style}

/-! ## The words of a style -/

/-- A style as arguments: each field as a flag and its value. -/
def words (s : Style) : List String := Field.all.flatMap fun f => ["--" ++ f.name, f.value s]

theorem serialized_eq (s : Style) : s.serialized = " ".intercalate s.words := by
  simp only [serialized, words, Field.all, List.map_cons, List.map_nil, List.flatMap_cons,
    List.flatMap_nil, List.cons_append, List.nil_append, String.intercalate_cons_cons,
    String.intercalate_singleton, String.append_assoc]
  rfl

theorem plain_of_mem_words {w : String} (h : w ∈ s.words) : Plain w := by
  obtain ⟨f, -, hw⟩ := List.mem_flatMap.1 h
  rcases List.mem_cons.1 hw with rfl | hw
  · intro c hc
    rw [String.toList_append, List.mem_append] at hc
    rcases hc with hc | hc
    · exact (by decide : Plain "--") c hc
    · exact Field.plain_name f c hc
  · exact List.mem_singleton.1 hw ▸ Field.plain_value s f

/-- A written style, cut at its spaces. -/
theorem words_serialized (s : Style) :
    (s.serialized.split ' ').toList.map (·.copy) = s.words := by
  have hspace : ∀ w ∈ s.words, ' ' ∉ w.toList := fun w hw =>
    (plain_of_mem_words hw).notMem (by decide)
  rw [serialized_eq]
  exact (String.toList_split_intercalate hspace).trans (if_neg (by simp [words, Field.all]))

theorem semicolon_notMem_serialized (s : Style) : ';' ∉ s.serialized.toList := by
  have hword : ∀ (w : String) (ws : List String), (∀ v ∈ w :: ws, Plain v) →
      ';' ∉ (" ".intercalate (w :: ws)).toList := by
    intro w ws
    induction ws generalizing w with
    | nil =>
      intro hplain
      rw [String.intercalate_singleton]
      exact (hplain w List.mem_cons_self).notMem (by decide)
    | cons w' ws ih =>
      intro hplain
      rw [String.intercalate_cons_cons, String.toList_append, String.toList_append,
        List.mem_append, List.mem_append, not_or, not_or]
      refine ⟨⟨(hplain w List.mem_cons_self).notMem (by decide), by decide⟩, ih w' fun v hv => ?_⟩
      exact hplain v (List.mem_cons_of_mem _ hv)
  rw [serialized_eq]
  exact hword _ _ fun v hv => plain_of_mem_words hv

end Style

namespace Arguments

namespace Reader

variable {r : Reader} {f : Field} {v : String} {given : List (Field × String)}

/-! ## Reading flag by flag -/

/-- The reader stands behind a value, or at the start, and what it has taken in are fields of the
style. -/
structure Holds (r : Reader) (given : List (Field × String)) : Prop where
  onlyInputs_eq : r.onlyInputs = false
  pending_ne : ∀ vs, r.pending ≠ .inputs vs
  settle_eq : r.settle = .ok { arguments := { given := given } }

theorem holds_start : Holds {} [] := ⟨rfl, fun _ => nofun, rfl⟩

/-- The reader that has read a flag and its value. -/
theorem holds_parameter (h : given.lookup f = none) :
    Holds { arguments := { given := given }, pending := .parameter (.style f) (some v) }
      (given ++ [(f, v)]) where
  onlyInputs_eq := rfl
  pending_ne := fun _ => nofun
  settle_eq := by simp [settle, give, hasValue, store, h, Except.map]

theorem ofName?_name (f : Field) :
    Flag.ofName? f.name = some (.parameter (.style f)) := by
  cases f <;> decide

/-- A flag of a field is read: what waited is stored, and the field waits for its value. -/
theorem Holds.step_flag (h : Holds r given) (f : Field) :
    r.step ("--" ++ f.name) =
      .ok { arguments := { given := given }, pending := .parameter (.style f) none } := by
  have hname : f.name.toList.takeWhile (· != '=') = f.name.toList :=
    List.takeWhile_eq_self_iff.2 fun c hc => bne_iff_ne.2 fun heq =>
      absurd (heq ▸ Field.plain_name f c hc) (by decide)
  have hlong : r.long f.name.toList =
      .ok { arguments := { given := given }, pending := .parameter (.style f) none } := by
    simp [long, hname, ofName?_name, parameter, h.settle_eq, Except.map]
  have hne : f.name.toList ≠ [] := by cases f <;> decide
  rw [step, h.onlyInputs_eq, String.toList_append]
  cases hbody : f.name.toList with
  | nil => exact absurd hbody hne
  | cons c cs => rw [← hlong, hbody]; rfl

/-- What is written like a value or an input: it is `-`, or no dash is in front. -/
def IsPlainArgument (v : String) : Prop := v = "-" ∨ v.toList.head? ≠ some '-'

instance (v : String) : Decidable (IsPlainArgument v) := inferInstanceAs (Decidable (_ ∨ _))

theorem step_of_isPlainArgument (hr : r.onlyInputs = false) (hv : IsPlainArgument v) :
    r.step v = r.plain v := by
  rw [step, hr]
  rcases hv with rfl | hv
  · rfl
  · simp only [Bool.false_eq_true, if_false]
    split <;> simp_all

/-- A flag and its value are read. -/
theorem Holds.step_pair (h : Holds r given) (hf : given.lookup f = none)
    (hv : IsPlainArgument v) :
    ∃ r', ["--" ++ f.name, v].foldlM step r = .ok r' ∧ Holds r' (given ++ [(f, v)]) := by
  refine ⟨_, ?_, holds_parameter hf⟩
  rw [List.foldlM_cons, h.step_flag f]
  change (step _ v >>= fun r => [].foldlM step r) = _
  rw [step_of_isPlainArgument rfl hv]
  rfl

theorem Holds.step_words (s : Style) {fs : List Field} (h : Holds r given)
    (hfs : fs.Nodup) (hfresh : ∀ f ∈ fs, given.lookup f = none) :
    ∃ r', (fs.flatMap fun f => ["--" ++ f.name, f.value s]).foldlM step r = .ok r' ∧
      Holds r' (given ++ fs.map fun f => (f, f.value s)) := by
  induction fs generalizing r given with
  | nil => exact ⟨r, rfl, by simpa using h⟩
  | cons f fs ih =>
    obtain ⟨r₁, hr₁, h₁⟩ := h.step_pair (hfresh f List.mem_cons_self)
      (.inr (Field.plain_value_and_head? s f).2)
    obtain ⟨hf, hfs⟩ := List.nodup_cons.1 hfs
    obtain ⟨r₂, hr₂, h₂⟩ := ih h₁ hfs fun g hg => by
      have hne : (g == f) = false := beq_eq_false_iff_ne.2 fun heq => hf (heq ▸ hg)
      rw [List.lookup_append, hfresh g (List.mem_cons_of_mem _ hg), Option.none_or,
        List.lookup_cons, hne, List.lookup_nil]
    refine ⟨r₂, ?_, ?_⟩
    · rw [List.flatMap_cons, List.foldlM_append, hr₁]
      exact hr₂
    · rwa [List.append_assoc] at h₂

/-! ## Reading inputs -/

theorem foldlM_inputs {a : Arguments} {vs ws : List String} (hws : ∀ w ∈ ws, IsPlainArgument w) :
    ws.foldlM step { arguments := a, pending := .inputs vs } =
      .ok { arguments := a, pending := .inputs (vs ++ ws) } := by
  induction ws generalizing vs with
  | nil => simp [pure, Except.pure]
  | cons w ws ih =>
    rw [List.foldlM_cons, step_of_isPlainArgument rfl (hws w List.mem_cons_self)]
    refine (ih fun v hv => hws v (List.mem_cons_of_mem _ hv)).trans ?_
    rw [List.append_assoc, List.singleton_append]

theorem mapM_path {vs : List String} (hvs : ∀ v ∈ vs, v ≠ "") :
    vs.mapM path = .ok (vs.map Path.ofText) := by
  induction vs with
  | nil => rfl
  | cons v vs ih =>
    have hv : path v = .ok (Path.ofText v) := by simp [path, hvs v List.mem_cons_self]
    rw [List.mapM_cons, hv, ih fun w hw => hvs w (List.mem_cons_of_mem _ hw)]
    rfl

theorem Holds.plain_eq (h : Holds r given) (v : String) :
    r.plain v = .ok { arguments := { given := given }, pending := .inputs [v] } := by
  have hsettle := h.settle_eq
  cases hp : r.pending with
  | nothing => simp [plain, input, hp, hsettle, Except.map]
  | inputs vs => exact absurd hp (h.pending_ne vs)
  | parameter p w =>
    cases w with
    | none => simp [settle, hp, give, Except.map] at hsettle
    | some w => simp [plain, input, hp, hsettle, Except.map]

/-- What a reader makes of the inputs that end a command line. -/
theorem Holds.finish_inputs (h : Holds r given) {vs : List String}
    (hvs : ∀ v ∈ vs, v ≠ "" ∧ IsPlainArgument v) :
    (vs.foldlM step r).bind finish = .ok { given := given, inputs := vs.map Path.ofText } := by
  cases vs with
  | nil => simp [Except.bind, pure, Except.pure, finish, h.settle_eq, bind]
  | cons v vs =>
    have hfirst : r.step v = .ok { arguments := { given := given }, pending := .inputs [v] } := by
      rw [step_of_isPlainArgument h.onlyInputs_eq (hvs v List.mem_cons_self).2, h.plain_eq]
    have hsettle : settle { arguments := { given := given }, pending := .inputs (v :: vs) } =
        .ok { arguments := { given := given, inputs := (v :: vs).map Path.ofText } } := by
      simp only [settle, mapM_path fun w hw => (hvs w hw).1, Except.map, List.nil_append]
    rw [List.foldlM_cons, hfirst]
    change ((vs.foldlM step _).bind finish) = _
    rw [foldlM_inputs fun w hw => (hvs w (List.mem_cons_of_mem _ hw)).2]
    change (settle _).bind _ = _
    rw [List.singleton_append, hsettle]
    rfl

end Reader

variable {s : Style}

/-- The words of a style in front of some inputs ask for that style and those inputs, and for
nothing else. -/
theorem read_words (s : Style) (inputs : List String)
    (hinputs : ∀ v ∈ inputs, v ≠ "" ∧ Reader.IsPlainArgument v) :
    read (s.words ++ inputs) =
      .ok { given := Field.all.map fun f => (f, f.value s), inputs := inputs.map Path.ofText } := by
  have hall : Field.all.Nodup := by decide
  obtain ⟨r, hr, h⟩ := Reader.holds_start.step_words s hall fun _ _ => rfl
  rw [read, List.foldlM_append, Style.words, hr]
  exact h.finish_inputs hinputs

/-- Fields that are given in their order are kept in it. -/
theorem options_values (a : Arguments) (h : a.given = Field.all.map fun f => (f, f.value s)) :
    a.options = Field.all.map fun f => (f, f.value s) := by
  rw [options, h]
  rfl

end Arguments

namespace Style

variable {s s' : Style}

theorem eq_of_words_eq (hs : s.FitsWords) (hs' : s'.FitsWords) (h : s.words = s'.words) :
    s = s' := by
  have hread := Arguments.read_words s [] nofun
  rw [h, Arguments.read_words s' [] nofun] at hread
  have hvalues : (Field.all.map fun f => (f, f.value s')) = Field.all.map fun f => (f, f.value s) :=
    congrArg Arguments.given (Except.ok.inj hread)
  have hset := Program.setFields_values hs {}
  rw [← hvalues, Program.setFields_values hs' {}] at hset
  exact (Except.ok.inj hset).symm

/-- What a stamp starts with, up to the length, holds the whole written style. -/
theorem serialized_eq_of_isPrefix_stamp {n : Nat}
    (h : (s!"{version};{s.serialized};").toList <+: (Batch.stamp s' n).toList) :
    s.serialized = s'.serialized := by
  have hprefix : s.serialized.toList ++ [';'] <+:
      s'.serialized.toList ++ ';' :: (toString n).toList := by
    change (version ++ ";" ++ s.serialized ++ ";").toList <+:
      (version ++ ";" ++ s'.serialized ++ ";" ++ toString n).toList at h
    simpa [List.prefix_append_right_inj] using h
  obtain ⟨rest, hrest⟩ := hprefix
  rw [List.append_assoc, List.singleton_append] at hrest
  have htake : ∀ (t : Style) (cs : List Char),
      (t.serialized.toList ++ ';' :: cs).takeWhile (· != ';') = t.serialized.toList := by
    intro t cs
    have hplain : ∀ c ∈ t.serialized.toList, (c != ';') = true := fun c hc =>
      bne_iff_ne.2 fun heq => semicolon_notMem_serialized t (heq ▸ hc)
    rw [List.takeWhile_append_of_pos hplain]
    simp
  rw [← String.toList_inj, ← htake s rest, hrest, htake]

/-- **A written style is read back.**  The words of a written style, in front of any inputs, are
accepted by the command line, and turn every style and the style of any settings into the style
that was written.  So no two styles are written the same way, and none starts a stamp of
another. -/
theorem read_serialized (hs : s.FitsWords) (inputs : List String)
    (hinputs : ∀ v ∈ inputs, v ≠ "" ∧ Arguments.Reader.IsPlainArgument v) :
    (∃ a, Arguments.read ((s.serialized.split ' ').toList.map (·.copy) ++ inputs) = .ok a ∧
      a.inputs = inputs.map Path.ofText ∧
      (∀ base, Program.setFields base a.options = .ok s) ∧
      ∀ settings, (Program.override settings a).map Settings.style = .ok s) ∧
    ∀ other : Style, other.FitsWords →
      (other.serialized = s.serialized → other = s) ∧
      ∀ n, (s!"{version};{other.serialized};").toList <+: (Batch.stamp s n).toList →
        other = s := by
  have hinj : ∀ other : Style, other.FitsWords → other.serialized = s.serialized → other = s := by
    intro other hother heq
    refine eq_of_words_eq hother hs ?_
    rw [← words_serialized, ← words_serialized, heq]
  refine ⟨?_, fun other hother => ⟨hinj other hother, fun n hn =>
    hinj other hother (serialized_eq_of_isPrefix_stamp hn)⟩⟩
  have hset : ∀ base, Program.setFields base (Field.all.map fun f => (f, f.value s)) = .ok s :=
    Program.setFields_values hs
  rw [words_serialized]
  refine ⟨_, Arguments.read_words s inputs hinputs, rfl, ?_, ?_⟩
  · intro base
    rw [Arguments.options_values _ rfl, hset]
  · intro settings
    rw [Program.override, Arguments.options_values _ rfl, hset]
    rfl

/-- The largest numbers there are, in front of the standard input and a directory. -/
theorem read_serialized_of_maxWord :
    let s : Style := { indent := .spaces 18446744073709551615, linebreak := .crlf, allman := true
                       maxBlankLines := 18446744073709551615, trim := .nonblankLines
                       experimental := true, fragment := true }
    s.FitsWords ∧
    (∃ a, Arguments.read ((s.serialized.split ' ').toList.map (·.copy) ++ ["-", "src"]) = .ok a ∧
      a.inputs = ["-", "src"].map Path.ofText ∧
      (∀ base, Program.setFields base a.options = .ok s) ∧
      ∀ settings, (Program.override settings a).map Settings.style = .ok s) ∧
    ∀ other : Style, other.FitsWords →
      (other.serialized = s.serialized → other = s) ∧
      ∀ n, (s!"{version};{other.serialized};").toList <+: (Batch.stamp s n).toList →
        other = s := by
  intro s
  have hs : s.FitsWords := by
    constructor
    · intro n hn
      exact Nat.le_of_eq (Indent.spaces.inj hn).symm
    · exact Nat.le_refl _
  exact ⟨hs, read_serialized hs ["-", "src"] (by decide)⟩

end Style
end Restyle
