import Mathlib.Data.Nat.PSub
import Restyle.Proofs.Lexing.Comments

/-!
# The end of a comment, found byte by byte

The end of a comment can be found in the bytes of a text by a loop that looks at two bytes at a time
and counts the comments that are open.  Such a loop can go wrong: it could take a byte of some other
character for a slash or a star, stop in the middle of a character, or close a comment that is not
open.  None of this happens.  The bytes of a character beyond ASCII are all greater than those of
the delimiters, and the first two bytes of a comment open it.

Here the loop answers nothing when its count falls below zero, as a difference of natural numbers
does not exist then.

* `findEnd`: the loop.
* `findEnd_bytes`: it counts bytes where the lexer counts characters.
* `readsComment_opens`: comments are read as the grammar has it, by the lexer and by the loop.
-/

namespace Restyle
namespace Token

/-! ## Bytes -/

/-- The bytes of some characters. -/
def bytes (cs : List Char) : List UInt8 := (String.ofList cs).toUTF8.data.toList

theorem bytes_eq_flatMap (cs : List Char) : bytes cs = cs.flatMap String.utf8EncodeChar := by
  rw [bytes, String.toUTF8_eq_toByteArray, String.toByteArray_ofList, List.utf8Encode,
    List.data_toByteArray]

theorem bytes_cons (c : Char) (cs : List Char) :
    bytes (c :: cs) = String.utf8EncodeChar c ++ bytes cs := by
  rw [bytes_eq_flatMap, bytes_eq_flatMap, List.flatMap_cons]

/-- **A character is one byte of ASCII, or all its bytes are beyond ASCII.** -/
theorem utf8EncodeChar_cases (c : Char) :
    (c.toNat < 128 ∧ String.utf8EncodeChar c = [UInt8.ofNat c.toNat]) ∨
      (128 ≤ c.toNat ∧ ∀ b ∈ String.utf8EncodeChar c, 128 ≤ b.toNat) := by
  rw [String.utf8EncodeChar]
  split
  · rename_i h
    exact .inl ⟨Nat.lt_succ_of_le h, rfl⟩
  · rename_i h
    refine .inr ⟨Nat.lt_of_not_le h, ?_⟩
    split <;> [skip; split] <;> simp <;> omega

/-- A byte of ASCII tells the character. -/
theorem ofNat_toNat_inj {c d : Char} (hc : c.toNat < 128) (hd : d.toNat < 128) :
    UInt8.ofNat c.toNat = UInt8.ofNat d.toNat ↔ c = d := by
  refine ⟨fun h => ?_, fun h => by rw [h]⟩
  have htoNat := congrArg UInt8.toNat h
  rw [UInt8.toNat_ofNat', UInt8.toNat_ofNat', Nat.mod_eq_of_lt (by omega),
    Nat.mod_eq_of_lt (by omega)] at htoNat
  exact Char.toNat_inj.1 htoNat

/-- **The first byte of a text is that of a character of ASCII only if the text starts with it.** -/
theorem head?_bytes {cs : List Char} {d : Char} (hd : d.toNat < 128) :
    (bytes cs).head? = some (UInt8.ofNat d.toNat) ↔ cs.head? = some d := by
  cases cs with
  | nil => simp [bytes_eq_flatMap]
  | cons c cs =>
    rw [bytes_cons, List.head?_cons, Option.some.injEq]
    rcases utf8EncodeChar_cases c with ⟨hc, hone⟩ | ⟨hc, hhigh⟩
    · rw [hone, List.singleton_append, List.head?_cons, Option.some.injEq, ofNat_toNat_inj hc hd]
    · obtain ⟨b, more, hbytes⟩ := List.exists_cons_of_ne_nil (@String.utf8EncodeChar_ne_nil c)
      have hb := hhigh b (by simp [hbytes])
      rw [hbytes, List.cons_append, List.head?_cons, Option.some.injEq]
      constructor
      · rintro rfl
        rw [UInt8.toNat_ofNat', Nat.mod_eq_of_lt (by omega)] at hb
        omega
      · rintro rfl
        exact absurd hd (Nat.not_lt.2 hc)

/-! ## The loop -/

/-- The loop over the bytes of a text, with the number of comments that are open and the number of
bytes behind it.  It gives the number of bytes up to the end of the comment, if it comes to one.  It
answers nothing if a comment ends when none is open. -/
def findEnd (depth passed : Nat) : List UInt8 → Option (Option Nat)
  | 0x2F :: 0x2A :: rest => findEnd (depth + 1) (passed + 2) rest
  | 0x2A :: 0x2F :: rest => do
    let depth ← depth.psub 1
    if depth = 0 then some (some (passed + 2)) else findEnd depth (passed + 2) rest
  | _ :: rest => findEnd depth (passed + 1) rest
  | [] => some none

theorem findEnd_pass {b : UInt8} {rest : List UInt8}
    (hopen : ¬ (b = 0x2F ∧ rest.head? = some 0x2A)) (hclose : ¬ (b = 0x2A ∧ rest.head? = some 0x2F))
    (depth passed : Nat) : findEnd depth passed (b :: rest) = findEnd depth (passed + 1) rest := by
  rw [findEnd]
  · rintro more rfl rfl
    exact hopen ⟨rfl, rfl⟩
  · rintro more rfl rfl
    exact hclose ⟨rfl, rfl⟩

/-- Bytes beyond ASCII are passed. -/
theorem findEnd_append {bs : List UInt8} (h : ∀ b ∈ bs, 128 ≤ b.toNat) (depth passed : Nat)
    (rest : List UInt8) :
    findEnd depth passed (bs ++ rest) = findEnd depth (passed + bs.length) rest := by
  induction bs generalizing passed with
  | nil => rfl
  | cons b bs ih =>
    have hb := h b List.mem_cons_self
    have hslash : b ≠ 0x2F := by rintro rfl; exact absurd hb (by decide)
    have hstar : b ≠ 0x2A := by rintro rfl; exact absurd hb (by decide)
    rw [List.cons_append, findEnd_pass (fun hopen => hslash hopen.1) (fun hclose => hstar hclose.1),
      ih fun b hb => h b (List.mem_cons_of_mem _ hb), List.length_cons, Nat.add_assoc,
      Nat.add_comm 1]

/-- **A character where no delimiter starts is passed**, with all its bytes. -/
theorem findEnd_char {c : Char} {cs : List Char} (hopen : ¬ Opens (c :: cs))
    (hclose : ¬ Closes (c :: cs)) (depth passed : Nat) :
    findEnd depth passed (bytes (c :: cs)) =
      findEnd depth (passed + (String.utf8EncodeChar c).length) (bytes cs) := by
  rw [bytes_cons]
  rcases utf8EncodeChar_cases c with ⟨hc, hone⟩ | ⟨-, hhigh⟩
  · rw [opens_cons_iff, ← head?_bytes (d := '*') (by decide)] at hopen
    rw [closes_cons_iff, ← head?_bytes (d := '/') (by decide)] at hclose
    rw [hone, List.singleton_append]
    refine findEnd_pass (fun h => hopen ⟨?_, h.2⟩) (fun h => hclose ⟨?_, h.2⟩) depth passed
    · exact (ofNat_toNat_inj hc (by decide)).1 h.1
    · exact (ofNat_toNat_inj hc (by decide)).1 h.1
  · exact findEnd_append hhigh depth passed (bytes cs)

theorem bytes_opens (cs : List Char) : bytes ('/' :: '*' :: cs) = 0x2F :: 0x2A :: bytes cs := by
  rw [bytes_cons, bytes_cons]
  rfl

theorem bytes_closes (cs : List Char) : bytes ('*' :: '/' :: cs) = 0x2A :: 0x2F :: bytes cs := by
  rw [bytes_cons, bytes_cons]
  rfl

/-- No delimiter starts where the patterns of the lexer do not match one. -/
theorem not_prefix_of_forall {c d d' : Char} {cs : List Char}
    (h : ∀ more, c = d → cs = d' :: more → False) : ¬ [d, d'] <+: c :: cs := by
  rintro ⟨more, hmore⟩
  obtain ⟨rfl, rfl⟩ := List.cons.inj hmore
  exact h more rfl rfl

/-- **The loop counts bytes where the lexer counts characters.**  It closes no more comments than
are open. -/
theorem findEnd_bytes (depth passed : Nat) (cs : List Char) :
    findEnd (depth + 1) passed (bytes cs) =
      some ((commentTail? depth cs).map fun n => passed + (bytes (cs.take n)).length) := by
  fun_induction commentTail? depth cs generalizing passed with
  | case1 depth rest ih =>
    rw [bytes_opens, findEnd, ih, Option.map_map]
    congr 2
    funext n
    simp only [Function.comp_apply, List.take_succ_cons, bytes_opens, List.length_cons]
    omega
  | case2 rest =>
    rw [bytes_closes, findEnd]
    rfl
  | case3 rest outer ih =>
    have hclose : findEnd (outer + 1 + 1) passed (0x2A :: 0x2F :: bytes rest) =
        findEnd (outer + 1) (passed + 2) (bytes rest) := by
      rw [findEnd]
      rfl
    rw [bytes_closes, hclose, ih, Option.map_map]
    congr 2
    funext n
    simp only [Function.comp_apply, List.take_succ_cons, bytes_closes, List.length_cons]
    omega
  | case4 depth c rest hopen hclose ih =>
    have hopen' : ¬ Opens (c :: rest) := not_prefix_of_forall hopen
    have hclose' : ¬ Closes (c :: rest) := not_prefix_of_forall hclose
    rw [findEnd_char hopen' hclose', ih, Option.map_map]
    congr 2
    funext n
    rw [Function.comp_apply, List.take_succ_cons, bytes_cons, List.length_append, Nat.add_assoc]
  | case5 depth => rfl

/-! ## Comments of a text -/

/-- The lexer takes the characters `c` off the front of a text for a token of the kind, and goes on
behind them. -/
def Takes (kind : Kind) (cs c : List Char) : Prop :=
  ∃ first rest more, cs = first :: rest ∧ lexeme first rest = .complete kind more ∧
    c = first :: rest.take more

/-- How a text is read that starts with the delimiter that opens a comment. -/
structure ReadsComment (cs : List Char) : Prop where
  /-- What is taken for a comment, and nothing else, is a comment of the grammar at the front. -/
  takes : ∀ c, Takes .comment cs c ↔ Comment c ∧ c <+: cs
  /-- There is at most one. -/
  unique : ∀ c c', Comment c → Comment c' → c <+: cs → c' <+: cs → c = c'
  /-- If there is one, it becomes a token and the text behind it is read next.  The loop over the
  bytes comes to its last one and no count falls below zero. -/
  closed : ∀ c after, Comment c → cs = c ++ after →
    (∀ scopes, scanFrom scopes cs = ⟨.comment, String.ofList c⟩ :: scanFrom scopes after) ∧
    findEnd 0 0 (bytes cs) = some (some (bytes c).length)
  /-- If there is none, the whole text becomes a token, and an error without text is the last one.
  The loop comes to the end of the bytes and no count falls below zero. -/
  unclosed : (∀ c, Comment c → ¬ c <+: cs) →
    (∀ scopes, scanFrom scopes cs = [⟨.comment, String.ofList cs⟩, ⟨.error, ""⟩]) ∧
    findEnd 0 0 (bytes cs) = some none

theorem lexeme_opens (rest : List Char) :
    lexeme '/' ('*' :: rest) = .orUnfinished .comment ((commentTail? 0 rest).map (· + 1)) := rfl

theorem takes_opens_iff {rest c : List Char} :
    Takes .comment ('/' :: '*' :: rest) c ↔ Comment c ∧ c <+: '/' :: '*' :: rest := by
  rw [comment_prefix_iff]
  constructor
  · rintro ⟨first, rest', more, heq, hlex, rfl⟩
    obtain ⟨rfl, rfl⟩ := List.cons.inj heq
    rw [lexeme_opens, orUnfinished_eq_complete_iff] at hlex
    obtain ⟨n, hn, rfl⟩ := Option.map_eq_some_iff.1 hlex.2
    exact ⟨n, hn, rfl⟩
  · rintro ⟨n, hn, rfl⟩
    exact ⟨'/', '*' :: rest, n + 1, rfl, by rw [lexeme_opens, hn]; rfl, rfl⟩

theorem findEnd_opens (rest : List Char) :
    findEnd 0 0 (bytes ('/' :: '*' :: rest)) =
      some ((commentTail? 0 rest).map fun n =>
        (bytes (('/' :: '*' :: rest).take (n + 2))).length) := by
  rw [bytes_opens, findEnd, findEnd_bytes]
  congr 2
  funext n
  simp only [List.take_succ_cons, bytes_opens, List.length_cons]
  omega

/-- **Comments in comments are read as the grammar has it**, in every text that starts with the
delimiter that opens a comment. -/
theorem readsComment_opens (rest : List Char) : ReadsComment ('/' :: '*' :: rest) where
  takes _ := takes_opens_iff
  unique _ _ hc hc' h h' := hc.eq_of_prefix hc' h h'
  closed c after hc hcs := by
    have hprefix : c <+: '/' :: '*' :: rest := ⟨after, hcs.symm⟩
    obtain ⟨n, hn, htake⟩ := comment_prefix_iff.1 ⟨hc, hprefix⟩
    refine ⟨fun scopes => ?_, by rw [findEnd_opens, hn, htake]; rfl⟩
    have hlex : lexeme '/' ('*' :: rest) = .complete .comment (n + 1) := by
      rw [lexeme_opens, hn]
      rfl
    have hafter : ('*' :: rest).drop (n + 1) = after := by
      have hsplit := List.take_append_drop (n + 2) ('/' :: '*' :: rest)
      rw [← htake, hcs] at hsplit
      rw [← List.append_cancel_left hsplit, ← hcs]
      rfl
    rw [scanFrom_cons_of_complete hlex rfl, hafter, ← List.take_succ_cons, ← htake]
  unclosed hnone := by
    have htail : commentTail? 0 rest = none := by
      refine Option.eq_none_iff_forall_ne_some.2 fun n hn => ?_
      obtain ⟨hc, hprefix⟩ := comment_prefix_iff.2 ⟨n, hn, rfl⟩
      exact hnone _ hc hprefix
    refine ⟨fun scopes => ?_, by rw [findEnd_opens, htail]; rfl⟩
    rw [scanFrom]
    simp only [lexeme_opens, htail, Option.map_none, Lexeme.orUnfinished]

/-- A comment in a comment, with a character beyond ASCII in it and one closing delimiter too many
behind it, and a text where the star that opens a comment cannot close it as well. -/
theorem readsComment_opens_overlapping :
    Comment "/*/*é*/*/".toList ∧
    scanFrom [] "/*/*é*/*/*/".toList = ⟨.comment, "/*/*é*/*/"⟩ :: scanFrom [] "*/".toList ∧
    findEnd 0 0 (bytes "/*/*é*/*/*/".toList) = some (some 10) ∧
    (∀ c, Comment c → ¬ c <+: "/*/".toList) ∧
    scanFrom [] "/*/".toList = [⟨.comment, "/*/"⟩, ⟨.error, ""⟩] ∧
    findEnd 0 0 (bytes "/*/".toList) = some none := by
  have hcomment : Comment "/*/*é*/*/".toList :=
    ((@comment_prefix_iff "/*é*/*/".toList _).2 ⟨7, by decide +kernel, by decide +kernel⟩).1
  have hnone : ∀ c, Comment c → ¬ c <+: "/*/".toList := by
    intro c hc hprefix
    obtain ⟨n, hn, -⟩ := (@comment_prefix_iff ['/'] c).1 ⟨hc, hprefix⟩
    exact absurd hn (by simp [commentTail?])
  obtain ⟨htoken, hend⟩ := (readsComment_opens "/*é*/*/*/".toList).closed "/*/*é*/*/".toList
    "*/".toList hcomment (by decide +kernel)
  obtain ⟨hunfinished, hnoEnd⟩ := (readsComment_opens ['/']).unclosed hnone
  refine ⟨hcomment, htoken [], ?_, hnone, hunfinished [], hnoEnd⟩
  rwa [show (bytes "/*/*é*/*/".toList).length = 10 by decide +kernel] at hend

end Token
end Restyle
