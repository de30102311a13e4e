import Mathlib.Data.List.FinRange
import Mathlib.Logic.Function.Basic

/-!
# Rows of a bitmap

The first set row at or after a given one, and what becomes of the first set row of all when
a row is set or cleared.
-/

namespace Cartel.Lib.Bitmap

variable {k : ℕ} {bits bits' : Fin k → Bool} {start : ℕ} {row : Fin k}

/-- The first set row at or after `start`. -/
def find (bits : Fin k → Bool) (start : ℕ) : Option (Fin k) :=
  (List.finRange k).find? fun row => decide (start ≤ row.val) && bits row

theorem find_eq_some : find bits start = some row ↔
    start ≤ row.val ∧ bits row = true ∧ ∀ other, start ≤ other.val → bits other = true →
      row ≤ other := by
  unfold find
  rw [List.find?_eq_some_iff_append]
  simp only [Bool.and_eq_true, decide_eq_true_eq, Bool.not_eq_true', Bool.and_eq_false_iff,
    decide_eq_false_iff_not]
  constructor
  · rintro ⟨⟨hstart, hrow⟩, before, behind, hrange, hbefore⟩
    refine ⟨hstart, hrow, fun other hother hset => ?_⟩
    have hsorted : (List.finRange k).Pairwise (· < ·) := List.pairwise_lt_finRange k
    rw [hrange, List.pairwise_append] at hsorted
    have hmem : other ∈ before ++ row :: behind := hrange ▸ List.mem_finRange other
    rcases List.mem_append.mp hmem with hmem | hmem
    · rcases hbefore other hmem with h | h
      · exact absurd hother h
      · rw [hset] at h
        cases h
    · rcases List.mem_cons.mp hmem with rfl | hmem
      · exact le_rfl
      · exact (List.rel_of_pairwise_cons hsorted.2.1 hmem).le
  · rintro ⟨hstart, hrow, hleast⟩
    obtain ⟨before, behind, hrange⟩ := List.append_of_mem (List.mem_finRange row)
    refine ⟨⟨hstart, hrow⟩, before, behind, hrange, fun other hother => ?_⟩
    have hsorted : (List.finRange k).Pairwise (· < ·) := List.pairwise_lt_finRange k
    rw [hrange, List.pairwise_append] at hsorted
    have hlt : other < row := hsorted.2.2 other hother row List.mem_cons_self
    by_cases hset : bits other = true
    · exact Or.inl fun h => absurd (hleast other h hset) (not_le.mpr hlt)
    · exact Or.inr (Bool.not_eq_true _ ▸ hset)

theorem find_eq_none : find bits start = none ↔
    ∀ row : Fin k, start ≤ row.val → bits row = false := by
  unfold find
  rw [List.find?_eq_none]
  simp only [Bool.and_eq_true, decide_eq_true_eq, not_and, Bool.not_eq_true]
  exact ⟨fun h row => h row (List.mem_finRange row), fun h row _ => h row⟩

theorem find_congr (h : ∀ row : Fin k, start ≤ row.val → bits row = bits' row) :
    find bits start = find bits' start := by
  unfold find
  congr 1
  funext row
  by_cases hrow : start ≤ row.val
  · rw [h row hrow]
  · simp [hrow]

/-- A row that is set is the first of all, if it is below the first so far. -/
theorem find_set (h : bits row = false) : find (Function.update bits row true) 0 =
    if (find bits 0).all (fun least => decide (row < least)) then some row else find bits 0 := by
  rcases hfind : find bits 0 with - | least
  · rw [find_eq_none] at hfind
    rw [Option.all_none, if_pos rfl, find_eq_some, Function.update_self]
    refine ⟨Nat.zero_le _, rfl, fun other _ hother => ?_⟩
    by_cases heq : other = row
    · exact heq.ge
    · rw [Function.update_of_ne heq, hfind other (Nat.zero_le _)] at hother
      cases hother
  · obtain ⟨-, hleast, hbelow⟩ := find_eq_some.mp hfind
    rw [Option.all_some]
    split_ifs with hlt
    · rw [find_eq_some, Function.update_self]
      refine ⟨Nat.zero_le _, rfl, fun other _ hother => ?_⟩
      by_cases heq : other = row
      · exact heq.ge
      · rw [Function.update_of_ne heq] at hother
        exact (of_decide_eq_true hlt).le.trans (hbelow other (Nat.zero_le _) hother)
    · have hne : least ≠ row := by
        rintro rfl
        rw [h] at hleast
        cases hleast
      rw [find_eq_some, Function.update_of_ne hne]
      refine ⟨Nat.zero_le _, hleast, fun other _ hother => ?_⟩
      by_cases heq : other = row
      · subst heq
        exact not_lt.mp fun hother => hlt (decide_eq_true hother)
      · rw [Function.update_of_ne heq] at hother
        exact hbelow other (Nat.zero_le _) hother

/-- The first row behind one that is cleared is the first of all, if the cleared one was. -/
theorem find_clear : find (Function.update bits row false) 0 =
    if find bits 0 = some row then find (Function.update bits row false) (row.val + 1)
    else find bits 0 := by
  split_ifs with hfind
  · obtain ⟨-, -, hbelow⟩ := find_eq_some.mp hfind
    have hset : ∀ other, Function.update bits row false other = true → row.val + 1 ≤ other.val := by
      intro other hother
      by_cases heq : other = row
      · subst heq
        rw [Function.update_self] at hother
        cases hother
      · rw [Function.update_of_ne heq] at hother
        exact Fin.lt_def.mp
          (lt_of_le_of_ne (hbelow other (Nat.zero_le _) hother) fun h => heq h.symm)
    rcases hnext : find (Function.update bits row false) (row.val + 1) with - | next
    · rw [find_eq_none] at hnext ⊢
      intro other _
      by_contra hother
      rw [Bool.not_eq_false] at hother
      rw [hnext other (hset other hother)] at hother
      cases hother
    · obtain ⟨-, hbit, hleast⟩ := find_eq_some.mp hnext
      exact find_eq_some.mpr
        ⟨Nat.zero_le _, hbit, fun other _ hother => hleast other (hset other hother) hother⟩
  · rcases hold : find bits 0 with - | least
    · rw [find_eq_none] at hold ⊢
      intro other _
      by_cases heq : other = row
      · rw [heq, Function.update_self]
      · rw [Function.update_of_ne heq]
        exact hold other (Nat.zero_le _)
    · have hne : least ≠ row := fun h => hfind (h ▸ hold)
      obtain ⟨-, hbit, hbelow⟩ := find_eq_some.mp hold
      rw [find_eq_some, Function.update_of_ne hne]
      refine ⟨Nat.zero_le _, hbit, fun other _ hother => ?_⟩
      by_cases heq : other = row
      · subst heq
        rw [Function.update_self] at hother
        cases hother
      · rw [Function.update_of_ne heq] at hother
        exact hbelow other (Nat.zero_le _) hother

end Cartel.Lib.Bitmap
