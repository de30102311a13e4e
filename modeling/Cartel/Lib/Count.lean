import Mathlib.Algebra.BigOperators.Group.Finset.Basic
import Mathlib.Algebra.BigOperators.Group.Finset.Piecewise
import Mathlib.Data.Fintype.BigOperators

/-!
# Sums over an updated function

A resource accounted for by a sum over its owners changes by what one owner had and has
when that owner changes.
-/

namespace Cartel.Lib

variable {α β : Type*} [Fintype α] [DecidableEq α]

/-- One owner's new share for its old one. -/
theorem sum_update (f : α → β) (share : β → ℕ) (a : α) (b : β) :
    ∑ x, share (Function.update f a b x) + share (f a) = ∑ x, share (f x) + share b := by
  have hcomp : ∀ x, share (Function.update f a b x) =
      Function.update (fun x => share (f x)) a (share b) x := fun x => by
    by_cases hx : x = a
    · subst hx
      simp
    · simp [Function.update_of_ne hx]
  have hrest := Finset.add_sum_erase Finset.univ (fun x => share (f x)) (Finset.mem_univ a)
  simp only [hcomp]
  rw [Finset.sum_update_of_mem (Finset.mem_univ a), ← Finset.erase_eq]
  omega

end Cartel.Lib
