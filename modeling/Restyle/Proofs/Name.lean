import Restyle.Name

/-!
# Names are bytes

What is kept of a name says exactly which bytes it has, and every sequence of bytes without a
zero is kept as some name.  A name is a text if its bytes encode one.

* `bytes_injective`, `bytes_ofBytes`: names and sequences of bytes.
* `text?_eq`: which names are texts.
-/

namespace Restyle
namespace Name

variable {name : String} {b : List UInt8}

/-! ## Texts and their bytes -/

theorem textOf?_eq_some_iff {s : String} : textOf? b = some s ↔ s.toUTF8.data.toList = b := by
  unfold textOf? String.fromUTF8?
  split
  · next h =>
    constructor
    · intro hs
      obtain rfl := Option.some.inj hs
      rfl
    · rintro rfl
      rfl
  · next h =>
    refine iff_of_false nofun ?_
    rintro rfl
    exact h s.isValidUTF8

/-- The bytes of a text encode it. -/
theorem textOf?_toUTF8 (s : String) : textOf? s.toUTF8.data.toList = some s :=
  textOf?_eq_some_iff.2 rfl

/-! ## Bytes as characters -/

theorem toUInt8_ofUInt8 (x : UInt8) : (Char.ofUInt8 x).toUInt8 = x := UInt8.toUInt8_toUInt32 x

theorem toNat_ofUInt8_lt (x : UInt8) : (Char.ofUInt8 x).toNat < 256 := by
  have hcode : (Char.ofUInt8 x).toNat = x.toUInt32.toNat := rfl
  rw [hcode, UInt8.toNat_toUInt32]
  exact x.toNat_lt

theorem ofUInt8_toUInt8 {c : Char} (h : c.toNat < 256) : Char.ofUInt8 c.toUInt8 = c := by
  refine Char.ext (UInt32.toNat_inj.1 ?_)
  have hcode : (Char.ofUInt8 c.toUInt8).val = c.val.toUInt8.toUInt32 := rfl
  rw [hcode, UInt8.toNat_toUInt32, UInt32.toNat_toUInt8]
  exact Nat.mod_eq_of_lt h

/-- What is kept of a name that is no text: a zero, and a character for every byte. -/
theorem raw?_eq_some_iff :
    raw? name = some b ↔ textOf? b = none ∧ name.toList = '\x00' :: b.map Char.ofUInt8 := by
  unfold raw?
  constructor
  · intro h
    split at h
    · next rest hname =>
      obtain ⟨hrest, h⟩ := Option.ite_none_right_eq_some.1 h
      obtain rfl := Option.some.inj h
      simp only [Bool.and_eq_true, List.all_eq_true, decide_eq_true_eq, Option.isNone_iff_eq_none]
        at hrest
      refine ⟨hrest.2, hname.trans (congrArg _ ?_)⟩
      rw [List.map_map]
      exact ((List.map_congr_left fun c hc => ofUInt8_toUInt8 (hrest.1 c hc)).trans
        (List.map_id rest)).symm
    · cases h
  · rintro ⟨htext, hname⟩
    have hbytes : (b.map Char.ofUInt8).map Char.toUInt8 = b := by
      rw [List.map_map]
      exact (List.map_congr_left fun x _ => toUInt8_ofUInt8 x).trans (List.map_id b)
    have hsmall : (b.map Char.ofUInt8).all (·.toNat < 256) = true := by
      simp [toNat_ofUInt8_lt]
    simp only [hname, hbytes, htext, hsmall, Option.isNone_none, Bool.and_true, if_true]

/-! ## The bytes of a name -/

/-- A name is a text if its bytes encode one, and then it is that text. -/
theorem text?_eq (name : String) : text? name = textOf? (bytes name) := by
  unfold text? bytes
  cases h : raw? name with
  | none => exact (textOf?_toUTF8 name).symm
  | some b => exact (raw?_eq_some_iff.1 h).1.symm

/-- **Different names have different bytes.** -/
theorem bytes_injective {name' : String} (h : bytes name = bytes name') : name = name' := by
  have htext : text? name = text? name' := by rw [text?_eq, text?_eq, h]
  unfold text? at htext
  unfold bytes at h
  cases hraw : raw? name with
  | none =>
    cases hraw' : raw? name' with
    | none => simpa [hraw, hraw'] using htext
    | some b' => simp [hraw, hraw'] at htext
  | some b =>
    cases hraw' : raw? name' with
    | none => simp [hraw, hraw'] at htext
    | some b' =>
      obtain rfl : b = b' := by simpa [hraw, hraw'] using h
      rw [← String.toList_inj, (raw?_eq_some_iff.1 hraw).2, (raw?_eq_some_iff.1 hraw').2]

/-- **Every sequence of bytes without a zero is a name.** -/
theorem bytes_ofBytes (h : 0 ∉ b) : bytes (ofBytes b) = b := by
  unfold ofBytes
  cases htext : textOf? b with
  | none =>
    have hraw : raw? (String.ofList ('\x00' :: b.map Char.ofUInt8)) = some b :=
      raw?_eq_some_iff.2 ⟨htext, String.toList_ofList⟩
    rw [Option.getD_none, bytes, hraw, Option.getD_some]
  | some s =>
    have hbytes := textOf?_eq_some_iff.1 htext
    -- a name with a zero in front would have a zero among its bytes
    have hraw : raw? s = none := by
      refine Option.eq_none_iff_forall_not_mem.2 fun b' hb' => h ?_
      have hzero : (List.utf8Encode ['\x00']).data.toList = [0] := by decide
      rw [← hbytes, ← @String.ofList_toList s, (raw?_eq_some_iff.1 hb').2,
        String.toUTF8_eq_toByteArray, String.toByteArray_ofList, List.utf8Encode_cons,
        ByteArray.data_append, Array.toList_append, hzero]
      exact List.mem_append_left _ List.mem_cons_self
    rw [Option.getD_some, bytes, hraw, Option.getD_none, hbytes]

end Name
end Restyle
