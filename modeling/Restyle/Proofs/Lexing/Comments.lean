import Restyle.Proofs.Lexing.Forms

/-!
# Comments in comments

A comment that starts with a slash and a star ends with a star and a slash, and comments may stand
in it.  This file gives a grammar for such comments and says that the lexer reads what the grammar
describes.

Between its delimiters a comment has items.  An item is a comment, or a character where neither
delimiter starts.  So it matters what stands behind an item: a slash is an item of its own unless a
star follows, and after `/*/` the comment is still open.  The lexer has no grammar.  It goes from
character to character and counts the comments that are open.

* `Items`, `Comment`: the grammar.
* `Items.of_head?`: only the next character behind the items matters, so that a comment is one
  whatever follows it.
* `commentTail?_items`, `exists_items`: counting passes over items, and what it passes over are
  items.
* `comment_prefix_iff`: the lexer measures comments.
* `Comment.eq_of_prefix`: no text starts with two of them.
-/

namespace Restyle
namespace Token

/-! ## The grammar -/

/-- The delimiter that opens a comment stands at the front of a text. -/
def Opens (cs : List Char) : Prop := ['/', '*'] <+: cs

/-- The delimiter that closes a comment stands at the front of a text. -/
def Closes (cs : List Char) : Prop := ['*', '/'] <+: cs

/-- Some items, with `after` behind them. -/
inductive Items : List Char → List Char → Prop
  /-- No item. -/
  | nil (after : List Char) : Items [] after
  /-- A character where no delimiter starts. -/
  | char {c : Char} {items after : List Char} (hopen : ¬ Opens (c :: (items ++ after)))
      (hclose : ¬ Closes (c :: (items ++ after))) (hitems : Items items after) :
      Items (c :: items) after
  /-- A comment. -/
  | nested {inner items after : List Char} (hinner : Items inner ('*' :: '/' :: (items ++ after)))
      (hitems : Items items after) :
      Items ('/' :: '*' :: (inner ++ '*' :: '/' :: items)) after

/-- A comment: items between delimiters. -/
def Comment (cs : List Char) : Prop :=
  ∃ items, Items items ['*', '/'] ∧ cs = '/' :: '*' :: (items ++ ['*', '/'])

theorem opens_cons_iff {c : Char} {cs : List Char} :
    Opens (c :: cs) ↔ c = '/' ∧ cs.head? = some '*' := by
  rw [Opens, List.cons_prefix_cons, List.singleton_prefix_iff_head?_eq_some, eq_comm]

theorem closes_cons_iff {c : Char} {cs : List Char} :
    Closes (c :: cs) ↔ c = '*' ∧ cs.head? = some '/' := by
  rw [Closes, List.cons_prefix_cons, List.singleton_prefix_iff_head?_eq_some, eq_comm]

/-- **Only the next character behind the items matters.** -/
theorem Items.of_head? {items after after' : List Char} (h : Items items after)
    (hhead : after.head? = after'.head?) : Items items after' := by
  induction h generalizing after' with
  | nil => exact .nil after'
  | char hopen hclose _ ih =>
    refine .char ?_ ?_ (ih hhead)
    · rwa [opens_cons_iff, List.head?_append, ← hhead, ← List.head?_append, ← opens_cons_iff]
    · rwa [closes_cons_iff, List.head?_append, ← hhead, ← List.head?_append, ← closes_cons_iff]
  | nested _ _ ihinner ihitems => exact .nested (ihinner rfl) (ihitems hhead)

/-- A comment is one whatever follows it. -/
theorem comment_iff {items : List Char} (after : List Char) :
    Comment ('/' :: '*' :: (items ++ ['*', '/'])) ↔ Items items ('*' :: '/' :: after) := by
  constructor
  · rintro ⟨items', hitems, heq⟩
    obtain rfl : items = items' := List.append_cancel_right (List.cons.inj (List.cons.inj heq).2).2
    exact hitems.of_head? rfl
  · intro hitems
    exact ⟨items, hitems.of_head? rfl, rfl⟩

/-! ## How the lexer measures a comment -/

theorem commentTail?_opens (depth : Nat) (rest : List Char) :
    commentTail? depth ('/' :: '*' :: rest) = (commentTail? (depth + 1) rest).map (· + 2) := by
  rw [commentTail?]

theorem commentTail?_closes (outer : Nat) (rest : List Char) :
    commentTail? (outer + 1) ('*' :: '/' :: rest) = (commentTail? outer rest).map (· + 2) := by
  rw [commentTail?]

theorem commentTail?_char {c : Char} {cs : List Char} (hopen : ¬ Opens (c :: cs))
    (hclose : ¬ Closes (c :: cs)) (depth : Nat) :
    commentTail? depth (c :: cs) = (commentTail? depth cs).map (· + 1) := by
  rw [opens_cons_iff] at hopen
  rw [closes_cons_iff] at hclose
  cases cs with
  | nil => simp [commentTail?]
  | cons d rest =>
    rw [commentTail?_cons_cons, if_neg (by simpa using hopen), if_neg (by simpa using hclose)]

/-- **Counting passes over items.** -/
theorem commentTail?_items {items after : List Char} (h : Items items after) (depth : Nat) :
    commentTail? depth (items ++ after) = (commentTail? depth after).map (· + items.length) := by
  induction h generalizing depth with
  | nil => simp
  | char hopen hclose _ ih =>
    rw [List.cons_append, commentTail?_char hopen hclose, ih, Option.map_map]
    rfl
  | nested _ _ ihinner ihitems =>
    rw [List.cons_append, List.cons_append, commentTail?_opens, List.append_assoc, List.cons_append,
      List.cons_append, ihinner, commentTail?_closes, ihitems, Option.map_map, Option.map_map,
      Option.map_map]
    congr 1
    funext n
    simp only [Function.comp_apply, List.length_cons, List.length_append]
    omega

/-- **What counting passes over are items**, up to the delimiter that closes the comment.  The
induction is on the length of the text: a comment among the items takes two steps, to its own end
and on from there. -/
theorem exists_items {cs : List Char} {depth n : Nat} (h : commentTail? depth cs = some n) :
    ∃ items after, Items items ('*' :: '/' :: after) ∧ cs = items ++ '*' :: '/' :: after ∧
      ∀ outer, depth = outer + 1 → ∃ m, commentTail? outer after = some m := by
  induction hlength : cs.length using Nat.strong_induction_on generalizing cs depth n with
  | _ length ih =>
    by_cases hopen : Opens cs
    · obtain ⟨rest, rfl⟩ := hopen
      simp only [List.cons_append, List.nil_append] at h hlength ⊢
      rw [commentTail?_opens] at h
      obtain ⟨m, hm, -⟩ := Option.map_eq_some_iff.1 h
      obtain ⟨inner, between, hinner, rfl, hbetween⟩ := ih rest.length (by simp at hlength; omega)
        hm rfl
      obtain ⟨k, hk⟩ := hbetween depth rfl
      obtain ⟨items, after, hitems, rfl, hafter⟩ := ih between.length
        (by simp at hlength; omega) hk rfl
      exact ⟨_, after, .nested hinner hitems, by simp, hafter⟩
    by_cases hclose : Closes cs
    · obtain ⟨rest, rfl⟩ := hclose
      refine ⟨[], rest, .nil _, rfl, ?_⟩
      rintro outer rfl
      simp only [List.cons_append, List.nil_append] at h
      rw [commentTail?_closes] at h
      obtain ⟨m, hm, -⟩ := Option.map_eq_some_iff.1 h
      exact ⟨m, hm⟩
    cases cs with
    | nil => exact absurd h (by simp [commentTail?])
    | cons c rest =>
      rw [commentTail?_char hopen hclose] at h
      obtain ⟨m, hm, -⟩ := Option.map_eq_some_iff.1 h
      obtain ⟨items, after, hitems, rfl, hafter⟩ := ih rest.length (by simp at hlength; omega)
        hm rfl
      exact ⟨c :: items, after, .char hopen hclose hitems, rfl, hafter⟩

/-- **The lexer measures comments.** -/
theorem comment_prefix_iff {rest c : List Char} :
    Comment c ∧ c <+: '/' :: '*' :: rest ↔
      ∃ n, commentTail? 0 rest = some n ∧ c = ('/' :: '*' :: rest).take (n + 2) := by
  have hmeasure : ∀ {items after : List Char}, Items items ('*' :: '/' :: after) →
      commentTail? 0 (items ++ '*' :: '/' :: after) = some (items.length + 2) := by
    intro items after hitems
    rw [commentTail?_items hitems, commentTail?, Option.map_some, Nat.add_comm]
  have htake : ∀ items after : List Char,
      ('/' :: '*' :: (items ++ '*' :: '/' :: after)).take (items.length + 2 + 2) =
        '/' :: '*' :: (items ++ ['*', '/']) := by
    intro items after
    have happend : '/' :: '*' :: (items ++ '*' :: '/' :: after) =
        '/' :: '*' :: (items ++ ['*', '/']) ++ after := by simp
    rw [happend]
    exact List.take_left' (by simp)
  constructor
  · rintro ⟨⟨items, hitems, rfl⟩, ⟨after, hafter⟩⟩
    obtain rfl : items ++ '*' :: '/' :: after = rest := by simpa using hafter
    exact ⟨_, hmeasure (hitems.of_head? rfl), (htake items after).symm⟩
  · rintro ⟨n, hn, rfl⟩
    obtain ⟨items, after, hitems, rfl, -⟩ := exists_items hn
    rw [hmeasure hitems] at hn
    obtain rfl := Option.some.inj hn
    rw [htake]
    exact ⟨(comment_iff after).2 hitems, ⟨after, by simp⟩⟩

/-- **No text starts with two comments.** -/
theorem Comment.eq_of_prefix {cs c c' : List Char} (hc : Comment c) (hc' : Comment c')
    (h : c <+: cs) (h' : c' <+: cs) : c = c' := by
  obtain ⟨rest, rfl⟩ : ∃ rest, cs = '/' :: '*' :: rest := by
    obtain ⟨items, -, rfl⟩ := hc
    obtain ⟨after, rfl⟩ := h
    exact ⟨_, rfl⟩
  obtain ⟨n, hn, rfl⟩ := comment_prefix_iff.1 ⟨hc, h⟩
  obtain ⟨n', hn', rfl⟩ := comment_prefix_iff.1 ⟨hc', h'⟩
  obtain rfl : n = n' := Option.some.inj (hn.symm.trans hn')
  rfl

end Token
end Restyle
