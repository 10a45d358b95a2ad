import Mathlib.Data.Finset.Lattice.Fold
import Mathlib.Data.List.Range
import Mathlib.Order.Lattice.Nat

/-!
# Iterating over a finite set of numbers in order

`std::set` and `std::map` are iterated in the order of their keys.  A finite
set of natural numbers is listed here by filtering a range, which evaluates by
structural recursion.
-/

namespace Mvtx.Lib

/-- The elements of a finite set of numbers in ascending order. -/
def ascending (set : Finset Nat) : List Nat :=
  (List.range (set.sup id + 1)).filter (· ∈ set)

@[simp]
theorem mem_ascending {set : Finset Nat} {element : Nat} :
    element ∈ ascending set ↔ element ∈ set := by
  simp only [ascending, List.mem_filter, List.mem_range, decide_eq_true_eq,
    and_iff_right_iff_imp]
  intro member
  have : element ≤ set.sup id := Finset.le_sup (f := id) member
  omega

theorem ascending_nodup (set : Finset Nat) : (ascending set).Nodup :=
  List.nodup_range.filter _

end Mvtx.Lib
