/-!
# Sets of characters written as code point ranges

A property of a character that a standard defines, such as being a letter, is
data: a list of ranges of code points.  This module holds the one way in which
the project reads such a list, so that the tables themselves stay plain data.

A table lists inclusive ranges in increasing order.  The search stops at the
first range that starts above the code point, which is what keeps plain text
cheap: the first two or three ranges of every table cover ASCII.
-/

namespace Restyle
namespace Text

/-- An inclusive range of code points. -/
structure CodeRange where
  /-- The first code point of the range. -/
  first : Nat
  /-- The last code point of the range. -/
  last : Nat
deriving Repr, DecidableEq

/-- Whether a code point lies in one of the ranges of an increasing table. -/
def inRanges (n : Nat) : List CodeRange → Bool
  | [] => false
  | r :: rest => if n < r.first then false else if n ≤ r.last then true else inRanges n rest

/-- Whatever the search finds lies in a range of the table. -/
theorem exists_of_inRanges {n : Nat} :
    ∀ {table : List CodeRange}, inRanges n table = true →
      ∃ r ∈ table, r.first ≤ n ∧ n ≤ r.last
  | [], h => by simp [inRanges] at h
  | r :: rest, h => by
    rw [inRanges] at h
    split at h
    · simp at h
    · rename_i hlow
      split at h
      · rename_i hhigh
        exact ⟨r, List.mem_cons_self, by omega, hhigh⟩
      · obtain ⟨s, hs, hb⟩ := exists_of_inRanges h
        exact ⟨s, List.mem_cons_of_mem _ hs, hb⟩

end Text
end Restyle
