import Cartel.Parser.Limit
import Mathlib.Tactic.Ring
import Mathlib.Tactic.Linarith

/-!
# The integers of RESP headers

`Number::signed` reads an `i64`, `Number::unsigned` a `u64`, and `Number::length` the
length of a bulk or an array : unsigned unless its first byte is `-`, in which case `-1`
stands for nil and anything below is rejected. Both readers are one loop over checked
arithmetic (`accumulate`), which differs in the range and in the sign of the digits.

`signed_eq_ok` and `unsigned_eq_ok` say which bytes are accepted and with which value.
-/

namespace Cartel.Redis

/-- `protocol::Number` : why a header is not a number, and where. -/
inductive Number where
  | empty (offset : ℕ)
  | missing (offset : ℕ)
  | byte (offset : ℕ) (actual : UInt8)
  | overflow (offset : ℕ)
  deriving DecidableEq, Repr

/-- `protocol::Error`, as far as the scanner and the reader report it. -/
inductive Error where
  | number (line : LineKind) (cause : Number)
  | length (line : LineKind) (actual : ℤ)
  | marker (offset : ℕ) (actual : UInt8)
  | depth (actual maximum : ℕ) (declared : ℕ)
  | terminator (offset : ℕ) (expected actual : UInt8)
  | values (remaining : ℕ)
  deriving DecidableEq, Repr

namespace Parser

/-- `number::Length`. -/
inductive Length where
  | nil
  | count (n : ℕ)
  deriving DecidableEq

/-- A machine integer range. -/
structure Range where
  min : ℤ
  max : ℤ

/-- The range of `i64`. -/
def i64 : Range :=
  ⟨-2 ^ 63, 2 ^ 63 - 1⟩

/-- The range of `u64`. -/
def u64 : Range :=
  ⟨0, 2 ^ 64 - 1⟩

/-- The result of checked arithmetic. -/
def Range.checked (r : Range) (n : ℤ) : Option ℤ :=
  if r.min ≤ n ∧ n ≤ r.max then some n else none

/-- `Number::offset`. -/
def offset (body : Body) (relative : ℕ) : ℕ :=
  (body.start + relative % 2 ^ 32) % 2 ^ 32

/-- The loop of `Number::signed` and `Number::unsigned` : append digits, signed by `sign`. -/
def accumulate (r : Range) (sign : ℤ) (body : Body) :
    ℕ → ℤ → List UInt8 → Except Number ℤ
  | _, value, [] => .ok value
  | cursor, value, byte :: rest =>
    let digit := byte - 48
    if digit > 9 then .error (.byte (offset body cursor) byte)
    else
      match (r.checked (value * 10)).bind fun value => r.checked (value + sign * digit.toNat) with
      | none => .error (.overflow (offset body cursor))
      | some next => accumulate r sign body (cursor + 1) next rest

/-- `Number::signed`. -/
def signed (bytes : List UInt8) (body : Body) : Except Number ℤ :=
  match bytes with
  | [] => .error (.empty (offset body 0))
  | first :: rest =>
    if first = 45 ∨ first = 43 then
      if rest = [] then .error (.missing (offset body 1))
      else accumulate i64 (if first = 45 then -1 else 1) body 1 0 rest
    else accumulate i64 1 body 0 0 bytes

/-- `Number::unsigned`. -/
def unsigned (bytes : List UInt8) (body : Body) : Except Number ℤ :=
  if bytes = [] then .error (.empty (offset body 0)) else accumulate u64 1 body 0 0 bytes

/-- `Number::length`. -/
def length (bytes : List UInt8) (body : Body) (line : LineKind) : Except Error Length :=
  if bytes.head? ≠ some 45 then
    match unsigned bytes body with
    | .ok value => .ok (.count value.toNat)
    | .error cause => .error (.number line cause)
  else
    match signed bytes body with
    | .error cause => .error (.number line cause)
    | .ok value =>
      if value = -1 then .ok .nil
      else if value < -1 then .error (.length line value)
      else .ok (.count value.toNat)

/-! ## Decimal text -/

/-- An ASCII digit. -/
def IsDigit (byte : UInt8) : Prop :=
  48 ≤ byte ∧ byte ≤ 57

instance : DecidablePred IsDigit := fun _ => inferInstanceAs (Decidable (_ ∧ _))

/-- The digits `bytes` appended to `value`. -/
def decimalFrom (value : ℕ) (bytes : List UInt8) : ℕ :=
  bytes.foldl (fun n byte => 10 * n + (byte.toNat - 48)) value

/-- The value of a run of digits. -/
def decimal (bytes : List UInt8) : ℕ :=
  decimalFrom 0 bytes

@[simp] theorem decimalFrom_nil (value : ℕ) : decimalFrom value [] = value :=
  rfl

@[simp] theorem decimalFrom_cons (value : ℕ) (byte : UInt8) (rest : List UInt8) :
    decimalFrom value (byte :: rest) = decimalFrom (10 * value + (byte.toNat - 48)) rest :=
  List.foldl_cons ..

theorem decimalFrom_append (value : ℕ) (xs ys : List UInt8) :
    decimalFrom value (xs ++ ys) = decimalFrom (decimalFrom value xs) ys :=
  List.foldl_append

theorem le_decimalFrom (value : ℕ) (bytes : List UInt8) : value ≤ decimalFrom value bytes := by
  induction bytes generalizing value with
  | nil => exact le_rfl
  | cons byte rest ih =>
    rw [decimalFrom_cons]
    exact le_trans (by omega) (ih _)

/-- The wrapping test of the source is the digit test. -/
theorem not_gt_nine_iff (byte : UInt8) : ¬byte - 48 > 9 ↔ IsDigit byte := by
  have hb := byte.toNat_lt
  have hsub := UInt8.toNat_sub byte 48
  unfold IsDigit
  rw [gt_iff_lt, UInt8.lt_iff_toNat_lt, UInt8.le_iff_toNat_le, UInt8.le_iff_toNat_le, hsub]
  simp only [UInt8.reduceToNat]
  omega

theorem IsDigit.toNat_sub {byte : UInt8} (h : IsDigit byte) :
    (byte - 48).toNat = byte.toNat - 48 :=
  UInt8.toNat_sub_of_le byte 48 h.1

/-! ## What the readers accept -/

/-- The loop, from `sign · value` inside the range : every byte a digit, and the final
value still inside the range. -/
theorem accumulate_eq_ok {r : Range} {sign : ℤ} {body : Body} (hsign : sign = 1 ∨ sign = -1)
    (h0 : r.min ≤ 0 ∧ 0 ≤ r.max) {cursor : ℕ} (value : ℕ) {bytes : List UInt8} {z : ℤ}
    (hv : r.min ≤ sign * value ∧ sign * value ≤ r.max) :
    accumulate r sign body cursor (sign * value) bytes = .ok z ↔
      (∀ byte ∈ bytes, IsDigit byte) ∧ z = sign * decimalFrom value bytes ∧
        r.min ≤ z ∧ z ≤ r.max := by
  induction bytes generalizing cursor value with
  | nil =>
    simp only [accumulate, Except.ok.injEq, decimalFrom_nil]
    constructor
    · rintro rfl
      exact ⟨by simp, rfl, hv⟩
    · rintro ⟨-, rfl, -⟩
      rfl
  | cons byte rest ih =>
    rw [accumulate, decimalFrom_cons]
    by_cases hd : IsDigit byte
    · rw [if_neg ((not_gt_nine_iff byte).mpr hd), hd.toNat_sub]
      generalize byte.toNat - 48 = d
      have hnext : sign * (value : ℤ) * 10 + sign * (d : ℤ) = sign * ((10 * value + d : ℕ) : ℤ) := by
        push_cast
        ring
      by_cases hfit : r.min ≤ sign * ((10 * value + d : ℕ) : ℤ) ∧
          sign * ((10 * value + d : ℕ) : ℤ) ≤ r.max
      · have hten : r.min ≤ sign * (value : ℤ) * 10 ∧ sign * (value : ℤ) * 10 ≤ r.max := by
          rcases hsign with rfl | rfl <;> push_cast at hfit <;> omega
        rw [Range.checked, if_pos hten, Option.bind_some, hnext, Range.checked, if_pos hfit]
        dsimp only
        rw [ih _ hfit]
        simp [hd]
      · have hnone : ((r.checked (sign * (value : ℤ) * 10)).bind fun v =>
            r.checked (v + sign * (d : ℤ))) = none := by
          unfold Range.checked
          split_ifs
          · simp only [Option.bind_some, hnext, if_neg hfit]
          · rfl
        rw [hnone]
        simp only [reduceCtorEq, false_iff, not_and, not_le]
        rintro - rfl hmin
        -- the final value is at least as far from zero as the one that overflowed
        have hle := le_decimalFrom (10 * value + d) rest
        rcases hsign with rfl | rfl <;> push_cast at hfit hmin ⊢ <;> omega
    · rw [if_pos (not_not.mp (mt (not_gt_nine_iff byte).mp hd))]
      simp [hd]

/-- `unsigned` accepts the nonempty runs of digits whose value is a `u64`. -/
theorem unsigned_eq_ok {bytes : List UInt8} {body : Body} {z : ℤ} :
    unsigned bytes body = .ok z ↔
      bytes ≠ [] ∧ (∀ byte ∈ bytes, IsDigit byte) ∧ z = decimal bytes ∧ decimal bytes < 2 ^ 64 := by
  unfold unsigned
  split_ifs with h
  · simp [h]
  · have hloop : accumulate u64 1 body 0 (1 * (0 : ℕ)) bytes = .ok z ↔ _ :=
      accumulate_eq_ok (Or.inl rfl) (by decide) 0 (by decide)
    simp only [Nat.cast_zero, mul_zero, one_mul] at hloop
    rw [hloop]
    simp only [ne_eq, h, not_false_iff, true_and, decimal, u64]
    constructor
    · rintro ⟨hd, rfl, -, hmax⟩
      exact ⟨hd, rfl, by omega⟩
    · rintro ⟨hd, rfl, hlt⟩
      exact ⟨hd, rfl, by omega, by omega⟩

/-- The text `[+-]?[0-9]+` with value `z`. -/
inductive IsInteger : List UInt8 → ℤ → Prop
  | plain {digits : List UInt8} : digits ≠ [] → (∀ byte ∈ digits, IsDigit byte) →
      IsInteger digits (decimal digits)
  | plus {digits : List UInt8} : digits ≠ [] → (∀ byte ∈ digits, IsDigit byte) →
      IsInteger (43 :: digits) (decimal digits)
  | minus {digits : List UInt8} : digits ≠ [] → (∀ byte ∈ digits, IsDigit byte) →
      IsInteger (45 :: digits) (-decimal digits)

theorem isInteger_minus_iff {rest : List UInt8} {z : ℤ} :
    IsInteger (45 :: rest) z ↔
      rest ≠ [] ∧ (∀ byte ∈ rest, IsDigit byte) ∧ z = -(decimal rest : ℤ) := by
  constructor
  · intro h
    cases h with
    | plain _ hd => exact absurd (hd 45 (by simp)) (by decide)
    | minus hne hd => exact ⟨hne, hd, rfl⟩
  · rintro ⟨hne, hd, rfl⟩
    exact .minus hne hd

theorem isInteger_plus_iff {rest : List UInt8} {z : ℤ} :
    IsInteger (43 :: rest) z ↔
      rest ≠ [] ∧ (∀ byte ∈ rest, IsDigit byte) ∧ z = (decimal rest : ℤ) := by
  constructor
  · intro h
    cases h with
    | plain _ hd => exact absurd (hd 43 (by simp)) (by decide)
    | plus hne hd => exact ⟨hne, hd, rfl⟩
  · rintro ⟨hne, hd, rfl⟩
    exact .plus hne hd

theorem isInteger_plain_iff {bytes : List UInt8} {z : ℤ} (hm : bytes.head? ≠ some 45)
    (hp : bytes.head? ≠ some 43) :
    IsInteger bytes z ↔
      bytes ≠ [] ∧ (∀ byte ∈ bytes, IsDigit byte) ∧ z = (decimal bytes : ℤ) := by
  constructor
  · intro h
    cases h with
    | plain hne hd => exact ⟨hne, hd, rfl⟩
    | plus => simp at hp
    | minus => simp at hm
  · rintro ⟨hne, hd, rfl⟩
    exact .plain hne hd

/-- `signed` accepts `[+-]?[0-9]+` with an `i64` value. -/
theorem signed_eq_ok {bytes : List UInt8} {body : Body} {z : ℤ} :
    signed bytes body = .ok z ↔ IsInteger bytes z ∧ -2 ^ 63 ≤ z ∧ z < 2 ^ 63 := by
  have loop (sign : ℤ) (hsign : sign = 1 ∨ sign = -1) (cursor : ℕ) (digits : List UInt8) :
      accumulate i64 sign body cursor 0 digits = .ok z ↔
        (∀ byte ∈ digits, IsDigit byte) ∧ z = sign * decimal digits ∧ -2 ^ 63 ≤ z ∧ z < 2 ^ 63 := by
    have hloop : accumulate i64 sign body cursor (sign * (0 : ℕ)) digits = .ok z ↔ _ :=
      accumulate_eq_ok hsign (by decide) 0 (by simp [i64])
    simp only [Nat.cast_zero, mul_zero] at hloop
    rw [hloop]
    simp only [decimal, i64]
    refine and_congr_right fun _ => and_congr_right fun _ => and_congr_right fun _ => ?_
    omega
  cases bytes with
  | nil =>
    simp only [signed, reduceCtorEq, false_iff, not_and]
    intro h
    cases h with
    | plain hne => exact absurd rfl hne
  | cons first rest =>
    unfold signed
    dsimp only
    by_cases hm : first = 45
    · subst hm
      rw [isInteger_minus_iff]
      by_cases hr : rest = []
      · simp [hr]
      · rw [if_pos (Or.inl rfl), if_neg hr, if_pos rfl, loop _ (Or.inr rfl)]
        simp [hr, and_assoc]
    · by_cases hp : first = 43
      · subst hp
        rw [isInteger_plus_iff]
        by_cases hr : rest = []
        · simp [hr]
        · rw [if_pos (Or.inr rfl), if_neg hr, if_neg (by decide), loop _ (Or.inl rfl)]
          simp [hr, and_assoc]
      · rw [if_neg (by simp [hm, hp]), isInteger_plain_iff (by simpa) (by simpa),
          loop _ (Or.inl rfl)]
        simp [and_assoc]

/-- The text of a length : digits, or `-` and digits with value `0` or `-1`. -/
inductive IsLength : List UInt8 → Length → Prop
  | count {digits : List UInt8} : digits ≠ [] → (∀ byte ∈ digits, IsDigit byte) →
      IsLength digits (.count (decimal digits))
  | zero {digits : List UInt8} : digits ≠ [] → (∀ byte ∈ digits, IsDigit byte) →
      decimal digits = 0 → IsLength (45 :: digits) (.count 0)
  | nil {digits : List UInt8} : digits ≠ [] → (∀ byte ∈ digits, IsDigit byte) →
      decimal digits = 1 → IsLength (45 :: digits) .nil

/-- `length` accepts the texts of lengths, with a count that is a `u64`. -/
theorem length_eq_ok {bytes : List UInt8} {body : Body} {line : LineKind} {n : Length} :
    length bytes body line = .ok n ↔ IsLength bytes n ∧ ∀ k, n = .count k → k < 2 ^ 64 := by
  unfold length
  by_cases hm : bytes.head? = some 45
  · obtain ⟨rest, rfl⟩ : ∃ rest, bytes = 45 :: rest := by
      cases bytes with
      | nil => simp at hm
      | cons first rest => exact ⟨rest, by simpa using hm⟩
    rw [if_neg (by simp)]
    cases hs : signed (45 :: rest) body with
    | error cause =>
      simp only [reduceCtorEq, false_iff, not_and]
      intro h
      have reject (hne : rest ≠ []) (hd : ∀ byte ∈ rest, IsDigit byte) (hle : decimal rest ≤ 1) :
          False := by
        have hok : signed (45 :: rest) body = .ok (-(decimal rest : ℤ)) :=
          signed_eq_ok.mpr ⟨IsInteger.minus hne hd, by omega, by omega⟩
        simp [hok] at hs
      cases h with
      | count _ hd => exact absurd (hd 45 (by simp)) (by decide)
      | zero hne hd h0 => exact (reject hne hd (by omega)).elim
      | nil hne hd h1 => exact (reject hne hd (by omega)).elim
    | ok z =>
      obtain ⟨hi, -, -⟩ := signed_eq_ok.mp hs
      obtain ⟨hne, hd, rfl⟩ := isInteger_minus_iff.mp hi
      dsimp only
      split_ifs with h1 h2
      · have h1 : decimal rest = 1 := by omega
        constructor
        · intro h
          obtain rfl := Except.ok.inj h
          exact ⟨.nil hne hd h1, by simp⟩
        · rintro ⟨h, -⟩
          cases h with
          | count _ hd' => exact absurd (hd' 45 (by simp)) (by decide)
          | zero _ _ h0 => omega
          | nil => rfl
      · simp only [false_iff, not_and]
        intro h
        cases h with
        | count _ hd' => exact absurd (hd' 45 (by simp)) (by decide)
        | zero _ _ h0 => omega
        | nil _ _ h1 => omega
      · have h0 : decimal rest = 0 := by omega
        constructor
        · intro h
          obtain rfl := Except.ok.inj h
          refine ⟨by simpa [h0] using IsLength.zero hne hd h0, ?_⟩
          rintro k hk
          simp [h0] at hk
          omega
        · rintro ⟨h, -⟩
          cases h with
          | count _ hd' => exact absurd (hd' 45 (by simp)) (by decide)
          | zero => simp [h0]
          | nil _ _ h1 => omega
  · rw [if_pos hm]
    cases hu : unsigned bytes body with
    | error cause =>
      simp only [reduceCtorEq, false_iff, not_and, not_forall]
      intro h
      cases h with
      | count hne hd =>
        refine ⟨_, rfl, fun hlt => ?_⟩
        have hok : unsigned bytes body = .ok (decimal bytes) :=
          unsigned_eq_ok.mpr ⟨hne, hd, rfl, hlt⟩
        simp [hok] at hu
      | zero => simp at hm
      | nil => simp at hm
    | ok z =>
      obtain ⟨hne, hd, rfl, hlt⟩ := unsigned_eq_ok.mp hu
      simp only [Int.toNat_natCast, Except.ok.injEq]
      constructor
      · rintro rfl
        exact ⟨.count hne hd, by simpa using hlt⟩
      · rintro ⟨h, -⟩
        cases h with
        | count => rfl
        | zero => simp at hm
        | nil => simp at hm

end Parser

end Cartel.Redis
