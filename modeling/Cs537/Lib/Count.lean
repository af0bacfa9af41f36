import Mathlib.Data.Fintype.Card
import Mathlib.Algebra.BigOperators.Group.Finset.Piecewise
import Mathlib.Algebra.Order.BigOperators.Group.Finset

/-!
# Counting threads

How many members of a finite family are in a given kind of place, and how that number
moves when one of them does.
-/

namespace Cs537.Lib

variable {ι α : Type} [Fintype ι]

/-- How many `i` have `f i` in `p`. -/
def tally (p : α → Bool) (f : ι → α) : Nat := (Finset.univ.filter fun i => p (f i) = true).card

/-- When one member moves, it stops counting for its old place and counts for its new one. -/
theorem tally_update [DecidableEq ι] (p : α → Bool) (f : ι → α) (i : ι) (a : α) :
    tally p (Function.update f i a) + (p (f i)).toNat = tally p f + (p a).toNat := by
  have hsplit : ∀ g : ι → α,
      tally p g = (p (g i)).toNat + ∑ j ∈ Finset.univ.erase i, (p (g j)).toNat := by
    intro g
    rw [tally, Finset.card_filter, Finset.add_sum_erase _ (fun j => (p (g j)).toNat) (Finset.mem_univ i)]
    refine Finset.sum_congr rfl fun j _ => ?_
    cases p (g j) <;> rfl
  have hrest : ∑ j ∈ Finset.univ.erase i, (p (Function.update f i a j)).toNat
      = ∑ j ∈ Finset.univ.erase i, (p (f j)).toNat := by
    refine Finset.sum_congr rfl fun j hj => ?_
    rw [Function.update_of_ne (Finset.ne_of_mem_erase hj)]
  rw [hsplit (Function.update f i a), hsplit f, hrest, Function.update_self]
  omega

theorem tally_eq_zero {p : α → Bool} {f : ι → α} (h : ∀ i, p (f i) = false) : tally p f = 0 := by
  rw [tally, Finset.card_eq_zero, Finset.filter_eq_empty_iff]
  intro i _
  rw [h i]
  exact Bool.false_ne_true

end Cs537.Lib
