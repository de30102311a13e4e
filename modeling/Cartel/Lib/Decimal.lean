import Mathlib.Data.Nat.Digits.Defs
import Mathlib.Data.Nat.Digits.Lemmas
import Mathlib.Data.Nat.Log

/-!
# Decimal text

The ASCII decimal digits of a number, without sign and without leading zeros. They are one
more than the logarithm of the number, and reading them from the left gives the number
back.
-/

namespace Cartel.Lib

/-- The digits of a number, most significant first. -/
def digits (n : ℕ) : List UInt8 :=
  (if n = 0 then [0] else (Nat.digits 10 n).reverse).map fun d => 48 + UInt8.ofNat d

variable {n : ℕ}

theorem digits_of_lt (h : n < 10) : digits n = [48 + UInt8.ofNat n] := by
  unfold digits
  by_cases hn : n = 0
  · subst hn
    rfl
  · rw [if_neg hn, Nat.digits_of_lt 10 n hn h]
    rfl

/-- The last digit is the remainder. -/
theorem digits_of_le (h : 10 ≤ n) :
    digits n = digits (n / 10) ++ [48 + UInt8.ofNat (n % 10)] := by
  unfold digits
  rw [if_neg (by omega), if_neg (by omega), Nat.digits_def' (by omega) (by omega),
    List.reverse_cons, List.map_append]
  rfl

theorem digits_ne_nil (n : ℕ) : digits n ≠ [] := by
  unfold digits
  by_cases hn : n = 0
  · simp [hn]
  · simp [hn, Nat.digits_ne_nil_iff_ne_zero]

theorem length_digits (n : ℕ) : (digits n).length = Nat.log 10 n + 1 := by
  unfold digits
  rw [List.length_map]
  by_cases hn : n = 0
  · subst hn
    rfl
  · rw [if_neg hn, List.length_reverse, Nat.length_digits 10 n (by omega) hn]

theorem toNat_digit {d : ℕ} (h : d < 10) : (48 + UInt8.ofNat d).toNat = 48 + d := by
  rw [UInt8.toNat_add, UInt8.toNat_ofNat']
  simp only [UInt8.reduceToNat]
  omega

theorem mem_digits {byte : UInt8} (h : byte ∈ digits n) : 48 ≤ byte ∧ byte ≤ 57 := by
  induction n using Nat.strong_induction_on with
  | _ n ih =>
    have hdigit : ∀ d, d < 10 → 48 ≤ 48 + UInt8.ofNat d ∧ 48 + UInt8.ofNat d ≤ 57 := by
      intro d hd
      rw [UInt8.le_iff_toNat_le, UInt8.le_iff_toNat_le, toNat_digit hd]
      simp only [UInt8.reduceToNat]
      omega
    by_cases hn : n < 10
    · rw [digits_of_lt hn, List.mem_singleton] at h
      rw [h]
      exact hdigit n hn
    · rw [digits_of_le (by omega), List.mem_append, List.mem_singleton] at h
      rcases h with h | rfl
      · exact ih (n / 10) (by omega) h
      · exact hdigit (n % 10) (by omega)

/-- Read from the left, the digits give the number back. -/
theorem foldl_digits (n : ℕ) :
    (digits n).foldl (fun m byte => 10 * m + (byte.toNat - 48)) 0 = n := by
  induction n using Nat.strong_induction_on with
  | _ n ih =>
    by_cases hn : n < 10
    · rw [digits_of_lt hn, List.foldl_cons, List.foldl_nil, toNat_digit hn]
      omega
    · rw [digits_of_le (by omega), List.foldl_append, ih (n / 10) (by omega), List.foldl_cons,
        List.foldl_nil, toNat_digit (by omega)]
      omega

end Cartel.Lib
