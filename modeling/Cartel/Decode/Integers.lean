import Cartel.Decode.Scalar
import Cartel.Lib.Outcome
import Cartel.Parser.Number

/-!
# Integers on the wire and in replies

The scanner and a reply read signed integers with two loops : one adds or subtracts each digit
within an `i64`, the other one adds them within a limit that the sign chooses. They agree on
every text (`signed_eq`). What is rejected, and where, is said on a split of the text at its
first byte that does not fit (`Offends`).
-/

namespace Cartel.Redis.Decode

open Cartel.Lib Cartel.Redis.Parser

/-! ## What is rejected -/

/-- The first byte that is no digit, or whose digit exceeds the limit. -/
def Stops (limit value offset : ℕ) (bytes : List UInt8) (reason : Invalid) : Prop :=
  ∃ front byte rest, bytes = front ++ byte :: rest ∧ (∀ b ∈ front, IsDigit b) ∧
    decimalFrom value front ≤ limit ∧
    (¬IsDigit byte ∧ reason = .byte (offset + front.length) byte ∨
      IsDigit byte ∧ limit < decimalFrom value (front ++ [byte]) ∧
        reason = .overflow (offset + front.length))

/-- The text of a sign, of which `true` is the minus. -/
def signText : Option Bool → List UInt8
  | none => []
  | some false => [43]
  | some true => [45]

/-- A text is the text of a sign and what follows it. -/
def Split (bytes : List UInt8) (sign : Option Bool) (body : List UInt8) : Prop :=
  bytes = signText sign ++ body ∧ (sign = none → ∀ byte ∈ body.head?, byte ≠ 43 ∧ byte ≠ 45)

/-- The text stops at this reason : it is empty, a lone sign, or has a byte that does not fit. -/
def Offends (limit : Option Bool → ℕ) (bytes : List UInt8) (reason : Invalid) : Prop :=
  ∃ sign body, Split bytes sign body ∧
    (body = [] ∧ reason = (if sign = none then .empty else .missing 1) ∨
      Stops (limit sign) 0 (signText sign).length body reason)

/-- The greatest magnitudes of an `i64`. -/
def signedLimit (sign : Option Bool) : ℕ :=
  if sign = some true then 2 ^ 63 else 2 ^ 63 - 1

/-- The greatest magnitudes of a `u64`, or of a negative `i64`. -/
def unsignedLimit (sign : Option Bool) : ℕ :=
  if sign = some true then 2 ^ 63 else 2 ^ 64 - 1

variable {limit value offset start index : ℕ} {bytes : List UInt8} {reason : Invalid}

theorem not_stops_nil : ¬Stops limit value offset [] reason := by
  rintro ⟨front, byte, rest, h, -⟩
  simp at h

/-- The text stops at its first byte, or behind it. -/
theorem stops_cons (hvalue : value ≤ limit) (byte : UInt8) (rest : List UInt8) :
    Stops limit value offset (byte :: rest) reason ↔
      ¬IsDigit byte ∧ reason = .byte offset byte ∨
      IsDigit byte ∧ limit < 10 * value + (byte.toNat - 48) ∧ reason = .overflow offset ∨
      IsDigit byte ∧ 10 * value + (byte.toNat - 48) ≤ limit ∧
        Stops limit (10 * value + (byte.toNat - 48)) (offset + 1) rest reason := by
  constructor
  · rintro ⟨_ | ⟨first, front⟩, last, tail, hsplit, hdigits, hfits, hstop⟩
    · obtain ⟨rfl, rfl⟩ := List.cons.inj hsplit
      rcases hstop with ⟨hbyte, hreason⟩ | ⟨hbyte, hover, hreason⟩
      · exact Or.inl ⟨hbyte, hreason⟩
      · exact Or.inr (Or.inl ⟨hbyte, hover, hreason⟩)
    · obtain ⟨rfl, rfl⟩ := List.cons.inj hsplit
      have hlength : ∀ n : ℕ, offset + (n + 1) = offset + 1 + n := fun n => by omega
      rw [decimalFrom_cons] at hfits
      refine Or.inr (Or.inr ⟨hdigits _ List.mem_cons_self, (le_decimalFrom _ front).trans hfits,
        front, last, tail, rfl, fun b hb => hdigits b (List.mem_cons_of_mem _ hb), hfits, ?_⟩)
      rwa [List.length_cons, hlength, List.cons_append, decimalFrom_cons] at hstop
  · rintro (⟨hbyte, hreason⟩ | ⟨hbyte, hover, hreason⟩ | ⟨hbyte, -, front, last, tail, rfl,
      hdigits, hfits, hstop⟩)
    · exact ⟨[], byte, rest, rfl, by simp, hvalue, Or.inl ⟨hbyte, hreason⟩⟩
    · exact ⟨[], byte, rest, rfl, by simp, hvalue, Or.inr ⟨hbyte, hover, hreason⟩⟩
    · have hlength : ∀ n : ℕ, offset + (n + 1) = offset + 1 + n := fun n => by omega
      refine ⟨byte :: front, last, tail, rfl, ?_, ?_, ?_⟩
      · intro b hb
        rcases List.mem_cons.mp hb with rfl | hb
        · exact hbyte
        · exact hdigits b hb
      · rwa [decimalFrom_cons]
      · rwa [List.length_cons, hlength, List.cons_append, decimalFrom_cons]

/-! ## Magnitudes -/

/-- The loop reads digits up to the limit, or stops where the text does. -/
theorem digits_spec (start : ℕ) (hlimit : limit < 2 ^ 64) : ∀ (bytes : List UInt8) (index value : ℕ),
    value ≤ limit →
      (∀ v, digits start limit index value bytes = .ok v ↔
        (∀ b ∈ bytes, IsDigit b) ∧ v = decimalFrom value bytes ∧ v ≤ limit) ∧
      ∀ reason, digits start limit index value bytes = .error reason ↔
        Stops limit value (start + index) bytes reason
  | [], index, value, hvalue => by
    refine ⟨fun v => ?_, fun reason => ⟨fun h => (by cases h), fun h => absurd h not_stops_nil⟩⟩
    rw [digits, Except.ok.injEq, decimalFrom_nil]
    constructor
    · rintro rfl
      exact ⟨fun _ h => absurd h List.not_mem_nil, rfl, hvalue⟩
    · rintro ⟨-, rfl, -⟩
      rfl
  | byte :: rest, index, value, hvalue => by
    have hall : (∀ b ∈ byte :: rest, IsDigit b) ↔ IsDigit byte ∧ ∀ b ∈ rest, IsDigit b :=
      List.forall_mem_cons
    rw [digits]
    by_cases hdigit : IsDigit byte
    · have hif : 48 ≤ byte ∧ byte ≤ 57 := hdigit
      have htotal : value * 10 + (byte - 48).toNat = 10 * value + (byte.toNat - 48) := by
        rw [hdigit.toNat_sub, Nat.mul_comm]
      rw [if_pos hif]
      dsimp only
      rw [htotal]
      by_cases hover : limit < 10 * value + (byte.toNat - 48)
      · have hsame : (if 2 ^ 64 ≤ 10 * value + (byte.toNat - 48) then
            (Except.error (.overflow (start + index)) : Except Invalid ℕ)
          else if limit < 10 * value + (byte.toNat - 48) then .error (.overflow (start + index))
          else digits start limit (index + 1) (10 * value + (byte.toNat - 48)) rest) =
            .error (.overflow (start + index)) := by
          split_ifs <;> rfl
        rw [hsame]
        refine ⟨fun v => ⟨fun h => (by cases h), ?_⟩, fun reason => ?_⟩
        · rintro ⟨-, rfl, hle⟩
          rw [decimalFrom_cons] at hle
          exact absurd ((le_decimalFrom _ rest).trans hle) (not_le.mpr hover)
        · rw [stops_cons hvalue, Except.error.injEq]
          constructor
          · rintro rfl
            exact Or.inr (Or.inl ⟨hdigit, hover, rfl⟩)
          · rintro (⟨h, -⟩ | ⟨-, -, rfl⟩ | ⟨-, h, -⟩)
            · exact absurd hdigit h
            · rfl
            · exact absurd h (not_le.mpr hover)
      · have hle := not_lt.mp hover
        rw [if_neg (by omega), if_neg hover]
        obtain ⟨hok, herror⟩ := digits_spec start hlimit rest (index + 1) _ hle
        refine ⟨fun v => ?_, fun reason => ?_⟩
        · rw [hok, hall, decimalFrom_cons]
          exact ⟨fun ⟨h, h'⟩ => ⟨⟨hdigit, h⟩, h'⟩, fun ⟨h, h'⟩ => ⟨h.2, h'⟩⟩
        · rw [herror, stops_cons hvalue, Nat.add_assoc]
          constructor
          · exact fun h => Or.inr (Or.inr ⟨hdigit, hle, h⟩)
          · rintro (⟨h, -⟩ | ⟨-, h, -⟩ | ⟨-, -, h⟩)
            · exact absurd hdigit h
            · exact absurd h hover
            · exact h
    · have hif : ¬(48 ≤ byte ∧ byte ≤ 57) := hdigit
      rw [if_neg hif]
      refine ⟨fun v => ⟨fun h => (by cases h), fun h => absurd (hall.mp h.1).1 hdigit⟩,
        fun reason => ?_⟩
      rw [stops_cons hvalue, Except.error.injEq]
      constructor
      · rintro rfl
        exact Or.inl ⟨hdigit, rfl⟩
      · rintro (⟨-, rfl⟩ | ⟨h, -⟩ | ⟨h, -⟩)
        · rfl
        · exact absurd h hdigit
        · exact absurd h hdigit

/-- A magnitude is a run of digits up to the limit, which is not empty. -/
theorem magnitude_spec (hlimit : limit < 2 ^ 64) (bytes : List UInt8) (start : ℕ) :
    (∀ v, magnitude bytes start limit = .ok v ↔
      bytes ≠ [] ∧ (∀ b ∈ bytes, IsDigit b) ∧ v = decimal bytes ∧ v ≤ limit) ∧
    ∀ reason, magnitude bytes start limit = .error reason ↔
      bytes = [] ∧ reason = .missing start ∨ Stops limit 0 start bytes reason := by
  unfold magnitude
  by_cases hempty : bytes = []
  · subst hempty
    rw [if_pos rfl]
    refine ⟨fun v => ⟨fun h => (by cases h), fun h => absurd rfl h.1⟩, fun reason => ?_⟩
    rw [Except.error.injEq]
    constructor
    · rintro rfl
      exact Or.inl ⟨rfl, rfl⟩
    · rintro (⟨-, rfl⟩ | h)
      · rfl
      · exact absurd h not_stops_nil
  · obtain ⟨hok, herror⟩ := digits_spec start hlimit bytes 0 0 (Nat.zero_le _)
    rw [if_neg hempty]
    refine ⟨fun v => ?_, fun reason => ?_⟩
    · rw [hok, decimal]
      exact ⟨fun h => ⟨hempty, h⟩, fun h => h.2⟩
    · rw [herror]
      exact ⟨Or.inr, fun h => h.resolve_left fun h => hempty h.1⟩

/-! ## Signs -/

variable {sign sign' : Option Bool} {body body' : List UInt8}

theorem exists_split (bytes : List UInt8) : ∃ sign body, Split bytes sign body := by
  rcases bytes with _ | ⟨head, tail⟩
  · exact ⟨none, [], rfl, fun _ byte h => (by cases h)⟩
  · by_cases hminus : head = 45
    · subst hminus
      exact ⟨some true, tail, rfl, fun h => (by cases h)⟩
    by_cases hplus : head = 43
    · subst hplus
      exact ⟨some false, tail, rfl, fun h => (by cases h)⟩
    · refine ⟨none, head :: tail, rfl, fun _ byte h => ?_⟩
      cases h
      exact ⟨hplus, hminus⟩

theorem Split.unique (h : Split bytes sign body) (h' : Split bytes sign' body') :
    sign = sign' ∧ body = body' := by
  obtain ⟨rfl, hplain⟩ := h
  obtain ⟨heq, hplain'⟩ := h'
  rcases sign with _ | _ | _ <;> rcases sign' with _ | _ | _
  · exact ⟨rfl, heq⟩
  · subst heq
    exact absurd rfl (hplain rfl 43 rfl).1
  · subst heq
    exact absurd rfl (hplain rfl 45 rfl).2
  · subst heq
    exact absurd rfl (hplain' rfl 43 rfl).1
  · exact ⟨rfl, (List.cons.inj heq).2⟩
  · exact absurd (List.cons.inj heq).1 (by decide)
  · subst heq
    exact absurd rfl (hplain' rfl 45 rfl).2
  · exact absurd (List.cons.inj heq).1 (by decide)
  · exact ⟨rfl, (List.cons.inj heq).2⟩

theorem Split.offends_iff {limit : Option Bool → ℕ} (h : Split bytes sign body) :
    Offends limit bytes reason ↔
      body = [] ∧ reason = (if sign = none then .empty else .missing 1) ∨
        Stops (limit sign) 0 (signText sign).length body reason := by
  constructor
  · rintro ⟨sign', body', h', hreason⟩
    obtain ⟨rfl, rfl⟩ := h.unique h'
    exact hreason
  · exact fun hreason => ⟨sign, body, h, hreason⟩

/-- A signed value. -/
def signedValue (sign : Option Bool) (value : ℕ) : ℤ :=
  if sign = some true then -(value : ℤ) else value

theorem Split.isInteger_iff (h : Split bytes sign body) (z : ℤ) :
    IsInteger bytes z ↔
      body ≠ [] ∧ (∀ b ∈ body, IsDigit b) ∧ z = signedValue sign (decimal body) := by
  obtain ⟨rfl, hplain⟩ := h
  rcases sign with _ | _ | _
  · refine isInteger_plain_iff (fun h => ?_) fun h => ?_
    · exact (hplain rfl 45 h).2 rfl
    · exact (hplain rfl 43 h).1 rfl
  · exact isInteger_plus_iff
  · exact isInteger_minus_iff

theorem Split.signed_eq (h : Split bytes sign body) : signed bytes =
    if sign = none ∧ body = [] then .error .empty
    else (magnitude body (signText sign).length (signedLimit sign)).map (signedValue sign) := by
  obtain ⟨rfl, hplain⟩ := h
  rcases sign with _ | _ | _
  · rcases body with _ | ⟨head, tail⟩
    · rfl
    · obtain ⟨hplus, hminus⟩ := hplain rfl head rfl
      rw [if_neg fun h => List.cons_ne_nil _ _ h.2]
      change signed (head :: tail) = _
      rw [signed, if_neg hminus, if_neg hplus]
      change _ = (magnitude (head :: tail) 0 (2 ^ 63 - 1)).map _
      cases magnitude (head :: tail) 0 (2 ^ 63 - 1) <;> rfl
  · rw [if_neg fun h => by cases h.1]
    change signed (43 :: body) = (magnitude body 1 (2 ^ 63 - 1)).map _
    rw [signed, if_neg (by decide), if_pos rfl]
    cases magnitude body 1 (2 ^ 63 - 1) <;> rfl
  · rw [if_neg fun h => by cases h.1]
    change signed (45 :: body) = (magnitude body 1 (2 ^ 63)).map _
    rw [signed, if_pos rfl]
    cases magnitude body 1 (2 ^ 63) <;> rfl

/-- The result of `unsigned`, by what follows the sign. -/
theorem Split.unsigned_eq (h : Split bytes sign body) : unsigned bytes =
    if sign = none ∧ body = [] then .error (.invalid .empty)
    else if sign = some true then
      match magnitude body 1 (2 ^ 63) with
      | .error reason => .error (.invalid reason)
      | .ok value => if value = 0 then .ok 0 else .error (.negative (-value))
    else (magnitude body (signText sign).length (2 ^ 64 - 1)).mapError .invalid := by
  have hsigned := h.signed_eq
  obtain ⟨rfl, hplain⟩ := h
  rcases sign with _ | _ | _
  · rcases body with _ | ⟨head, tail⟩
    · rfl
    · obtain ⟨hplus, hminus⟩ := hplain rfl head rfl
      rw [if_neg fun h => List.cons_ne_nil _ _ h.2, if_neg (by decide)]
      change unsigned (head :: tail) = _
      rw [unsigned, if_neg hminus, if_neg hplus]
      rfl
  · have hplus : ¬some false = some true := by decide
    rw [if_neg fun h => by cases h.1]
    rw [if_neg hplus]
    change unsigned (43 :: body) = _
    rw [unsigned, if_neg (by decide), if_pos rfl]
    rfl
  · rw [if_neg fun h => by cases h.1] at hsigned
    rw [if_neg fun h => by cases h.1]
    rw [if_pos rfl]
    change unsigned (45 :: body) = _
    change signed (45 :: body) =
      (magnitude body 1 (2 ^ 63)).map (signedValue (some true)) at hsigned
    rw [unsigned, if_pos rfl, hsigned]
    rcases magnitude body 1 (2 ^ 63) with reason | value
    · rfl
    · change (if -(value : ℤ) < 0 then _ else _) = if value = 0 then _ else _
      by_cases hzero : value = 0
      · rw [if_neg (by omega), if_pos hzero]
      · rw [if_pos (by omega), if_neg hzero]
        rfl

/-! ## The readers of replies -/

theorem le_signedLimit (sign : Option Bool) (v : ℕ) :
    v ≤ signedLimit sign ↔ -2 ^ 63 ≤ signedValue sign v ∧ signedValue sign v < 2 ^ 63 := by
  unfold signedLimit signedValue
  split_ifs
  · omega
  · omega

/-- Behind a sign the magnitude is missing. -/
theorem missing_iff {p : Prop} (hempty : ¬(sign = none ∧ body = [])) :
    body = [] ∧ reason = .missing (signText sign).length ∨ p ↔
      body = [] ∧ reason = (if sign = none then .empty else .missing 1) ∨ p := by
  by_cases hbody : body = []
  · have hsign : sign ≠ none := fun h => hempty ⟨h, hbody⟩
    have hlength : (signText sign).length = 1 := by
      rcases sign with _ | _ | _
      · exact absurd rfl hsign
      · rfl
      · rfl
    rw [if_neg hsign, hlength]
  · exact or_congr_left ⟨fun h => absurd h.1 hbody, fun h => absurd h.1 hbody⟩

/-- `signed` reads the integers of 64 bits, and stops where the text does. -/
theorem signed_spec (bytes : List UInt8) :
    (∀ z, signed bytes = .ok z ↔ IsInteger bytes z ∧ -2 ^ 63 ≤ z ∧ z < 2 ^ 63) ∧
    ∀ reason, signed bytes = .error reason ↔ Offends signedLimit bytes reason := by
  obtain ⟨sign, body, hsplit⟩ := exists_split bytes
  have hlimit : signedLimit sign < 2 ^ 64 := by
    unfold signedLimit
    split_ifs <;> decide
  obtain ⟨hok, herror⟩ := magnitude_spec hlimit body (signText sign).length
  rw [hsplit.signed_eq]
  by_cases hempty : sign = none ∧ body = []
  · obtain ⟨rfl, rfl⟩ := hempty
    rw [if_pos ⟨rfl, rfl⟩]
    refine ⟨fun z => ⟨fun h => (by cases h), fun h => ?_⟩, fun reason => ?_⟩
    · exact absurd rfl ((hsplit.isInteger_iff z).mp h.1).1
    · rw [hsplit.offends_iff, Except.error.injEq]
      constructor
      · rintro rfl
        exact Or.inl ⟨rfl, rfl⟩
      · rintro (⟨-, rfl⟩ | h)
        · rfl
        · exact absurd h not_stops_nil
  · rw [if_neg hempty]
    refine ⟨fun z => ?_, fun reason => ?_⟩
    · rw [map_eq_ok, hsplit.isInteger_iff]
      constructor
      · rintro ⟨v, hv, rfl⟩
        obtain ⟨hne, hdigits, rfl, hle⟩ := (hok v).mp hv
        exact ⟨⟨hne, hdigits, rfl⟩, (le_signedLimit sign _).mp hle⟩
      · rintro ⟨⟨hne, hdigits, rfl⟩, hrange⟩
        exact ⟨_, (hok _).mpr ⟨hne, hdigits, rfl, (le_signedLimit sign _).mpr hrange⟩, rfl⟩
    · rw [map_eq_error, herror, hsplit.offends_iff, missing_iff hempty]

/-- `unsigned` reads the natural numbers of 64 bits, tells a negative integer of 64 bits apart,
and stops where the text does. -/
theorem unsigned_spec (bytes : List UInt8) :
    (∀ v : ℕ, unsigned bytes = .ok v ↔ IsInteger bytes v ∧ v < 2 ^ 64) ∧
    (∀ z, unsigned bytes = .error (.negative z) ↔ IsInteger bytes z ∧ -2 ^ 63 ≤ z ∧ z < 0) ∧
    ∀ reason, unsigned bytes = .error (.invalid reason) ↔ Offends unsignedLimit bytes reason := by
  obtain ⟨sign, body, hsplit⟩ := exists_split bytes
  have hlimit : unsignedLimit sign < 2 ^ 64 := by
    unfold unsignedLimit
    split_ifs <;> decide
  obtain ⟨hok, herror⟩ := magnitude_spec hlimit body (signText sign).length
  rw [hsplit.unsigned_eq]
  by_cases hempty : sign = none ∧ body = []
  · obtain ⟨rfl, rfl⟩ := hempty
    rw [if_pos ⟨rfl, rfl⟩]
    refine ⟨fun v => ⟨fun h => (by cases h), fun h => ?_⟩,
      fun z => ⟨fun h => (by cases h), fun h => ?_⟩, fun reason => ?_⟩
    · exact absurd rfl ((hsplit.isInteger_iff _).mp h.1).1
    · exact absurd rfl ((hsplit.isInteger_iff z).mp h.1).1
    · rw [hsplit.offends_iff, Except.error.injEq, ScalarError.invalid.injEq]
      constructor
      · rintro rfl
        exact Or.inl ⟨rfl, rfl⟩
      · rintro (⟨-, rfl⟩ | h)
        · rfl
        · exact absurd h not_stops_nil
  rw [if_neg hempty]
  by_cases hminus : sign = some true
  · subst hminus
    rw [if_pos rfl]
    change (∀ v, magnitude body 1 (2 ^ 63) = .ok v ↔ _) at hok
    change (∀ reason, magnitude body 1 (2 ^ 63) = .error reason ↔ _) at herror
    rcases hread : magnitude body 1 (2 ^ 63) with stop | value
    · have hnone : ∀ z, 0 ≤ z + 2 ^ 63 → z ≤ 0 → ¬IsInteger bytes z := fun z hlow hhigh h => by
        obtain ⟨hne, hdigits, rfl⟩ := (hsplit.isInteger_iff z).mp h
        have hle := (le_signedLimit (some true) (decimal body)).mpr ⟨by omega, by omega⟩
        rw [(hok _).mpr ⟨hne, hdigits, rfl, hle⟩] at hread
        cases hread
      refine ⟨fun v => ⟨fun h => (by cases h), fun h => ?_⟩,
        fun z => ⟨fun h => (by cases h), fun h => ?_⟩, fun reason => ?_⟩
      · obtain ⟨-, -, hv⟩ := (hsplit.isInteger_iff _).mp h.1
        have hvalue : signedValue (some true) (decimal body) = -(decimal body : ℤ) := rfl
        exact absurd h.1 (hnone v (by omega) (by omega))
      · exact absurd h.1 (hnone z (by omega) (by omega))
      · rw [hsplit.offends_iff, ← missing_iff hempty, Except.error.injEq,
          ScalarError.invalid.injEq]
        exact Iff.trans ⟨fun h => by rw [hread, h], fun h => by rw [hread] at h; cases h; rfl⟩
          (herror reason)
    · obtain ⟨hne, hdigits, rfl, hle⟩ := (hok value).mp hread
      have hinteger : ∀ z, IsInteger bytes z ↔ z = -(decimal body : ℤ) := fun z => by
        rw [hsplit.isInteger_iff]
        exact ⟨fun h => h.2.2, fun h => ⟨hne, hdigits, h⟩⟩
      have hnever : ∀ reason, ¬Offends unsignedLimit bytes reason := fun reason h => by
        rw [hsplit.offends_iff, ← missing_iff hempty] at h
        have hread' := (herror reason).mpr h
        rw [hread] at hread'
        cases hread'
      change decimal body ≤ 2 ^ 63 at hle
      dsimp only
      by_cases hzero : decimal body = 0
      · rw [if_pos hzero]
        refine ⟨fun v => ?_, fun z => ⟨fun h => (by cases h), fun h => ?_⟩,
          fun reason => ⟨fun h => (by cases h), fun h => absurd h (hnever reason)⟩⟩
        · rw [hinteger, Except.ok.injEq]
          omega
        · have hz := (hinteger z).mp h.1
          omega
      · rw [if_neg hzero]
        refine ⟨fun v => ⟨fun h => (by cases h), fun h => ?_⟩, fun z => ?_,
          fun reason => ⟨fun h => (by cases h), fun h => absurd h (hnever reason)⟩⟩
        · have hv := (hinteger v).mp h.1
          omega
        · rw [hinteger, Except.error.injEq, ScalarError.negative.injEq]
          omega
  · rw [if_neg hminus]
    have hlimit' : unsignedLimit sign = 2 ^ 64 - 1 := if_neg hminus
    have hvalue : ∀ v : ℕ, signedValue sign v = v := fun v => if_neg hminus
    rw [hlimit'] at hok herror
    have hinteger : ∀ v : ℕ, IsInteger bytes v ↔
        body ≠ [] ∧ (∀ b ∈ body, IsDigit b) ∧ v = decimal body := fun v => by
      rw [hsplit.isInteger_iff, hvalue, Nat.cast_inj]
    refine ⟨fun v => ?_, fun z => ⟨fun h => ?_, fun h => ?_⟩, fun reason => ?_⟩
    · rw [mapError_eq_ok, hok, hinteger]
      constructor
      · rintro ⟨hne, hdigits, hv, hle⟩
        exact ⟨⟨hne, hdigits, hv⟩, by omega⟩
      · rintro ⟨⟨hne, hdigits, hv⟩, hlt⟩
        exact ⟨hne, hdigits, hv, by omega⟩
    · obtain ⟨_, -, h⟩ := mapError_eq_error.mp h
      cases h
    · obtain ⟨-, -, hz⟩ := (hsplit.isInteger_iff z).mp h.1
      rw [hvalue] at hz
      omega
    · rw [hsplit.offends_iff, ← missing_iff hempty, hlimit', ← herror]
      constructor
      · intro h
        obtain ⟨_, hread, h⟩ := mapError_eq_error.mp h
        cases h
        exact hread
      · exact fun h => mapError_eq_error.mpr ⟨reason, h, rfl⟩

/-! ## The scanner and the replies -/

/-- A rejection of a text that starts at `start`. -/
def Invalid.shift (start : ℕ) : Invalid → Number
  | empty => .empty start
  | missing offset => .missing (start + offset)
  | byte offset actual => .byte (start + offset) actual
  | overflow offset => .overflow (start + offset)

theorem offset_eq {line : Body} {relative : ℕ} (h : line.start + relative ≤ line.stop) :
    Parser.offset line relative = line.start + relative := by
  have hlt := line.lt
  unfold Parser.offset
  rw [Nat.mod_eq_of_lt (by omega), Nat.mod_eq_of_lt (by omega)]

/-- The loop of the scanner and the one of replies, on digits of either sign. -/
theorem accumulate_eq {line : Body} (sign : Option Bool) : ∀ (bytes : List UInt8)
    (start index value : ℕ), line.start + (start + index) + bytes.length = line.stop →
      value ≤ signedLimit sign →
      accumulate i64 (signedValue sign 1) line (start + index) (signedValue sign value) bytes =
        ((digits start (signedLimit sign) index value bytes).map (signedValue sign)).mapError
          (Invalid.shift line.start)
  | [], start, index, value, _, _ => rfl
  | byte :: rest, start, index, value, hline, hvalue => by
    rw [List.length_cons] at hline
    have hoffset : Parser.offset line (start + index) = line.start + (start + index) :=
      offset_eq (by omega)
    rw [accumulate, digits]
    by_cases hdigit : IsDigit byte
    · have hif : 48 ≤ byte ∧ byte ≤ 57 := hdigit
      have htotal : value * 10 + (byte - 48).toNat = 10 * value + (byte.toNat - 48) := by
        rw [hdigit.toNat_sub, Nat.mul_comm]
      rw [if_neg ((not_gt_nine_iff byte).mpr hdigit), if_pos hif]
      dsimp only
      rw [htotal, hdigit.toNat_sub]
      generalize byte.toNat - 48 = digit
      have hnext : signedValue sign value * 10 + signedValue sign 1 * (digit : ℤ) =
          signedValue sign (10 * value + digit) := by
        unfold signedValue
        split_ifs
        · push_cast
          ring
        · push_cast
          ring
      have hfits : ∀ v, i64.min ≤ signedValue sign v ∧ signedValue sign v ≤ i64.max ↔
          v ≤ signedLimit sign := fun v => by
        rw [le_signedLimit]
        exact and_congr_right fun _ => Int.le_sub_one_iff
      have hten : signedValue sign value * 10 = signedValue sign (10 * value) := by
        unfold signedValue
        split_ifs <;> push_cast <;> ring
      by_cases hover : signedLimit sign < 10 * value + digit
      · have hnone : ((i64.checked (signedValue sign value * 10)).bind fun v =>
            i64.checked (v + signedValue sign 1 * (digit : ℤ))) = none := by
          unfold Range.checked
          split_ifs
          · rw [Option.bind_some, hnext, if_neg fun h => not_lt.mpr ((hfits _).mp h) hover]
          · rfl
        have hsame : (if 2 ^ 64 ≤ 10 * value + digit then
            (Except.error (.overflow (start + index)) : Except Invalid ℕ)
          else if signedLimit sign < 10 * value + digit then .error (.overflow (start + index))
          else digits start (signedLimit sign) (index + 1) (10 * value + digit) rest) =
            .error (.overflow (start + index)) := by
          split_ifs <;> rfl
        rw [hnone, hsame, hoffset]
        rfl
      · have hle := not_lt.mp hover
        have hlimit : signedLimit sign < 2 ^ 64 := by
          unfold signedLimit
          split_ifs <;> decide
        have hten' := (hfits (10 * value)).mpr (by omega)
        rw [if_neg (by omega), if_neg hover, Range.checked, if_pos (hten ▸ hten'),
          Option.bind_some, hnext, Range.checked, if_pos ((hfits _).mpr hle)]
        exact accumulate_eq sign rest start (index + 1) _ (by omega) hle
    · have hif : ¬(48 ≤ byte ∧ byte ≤ 57) := hdigit
      rw [if_pos (not_not.mp (mt (not_gt_nine_iff byte).mp hdigit)), if_neg hif, hoffset]
      rfl

/-- The scanner reads a text at `line` as a reply does. -/
theorem signed_eq {line : Body} (h : line.start + bytes.length = line.stop) :
    Parser.signed bytes line = (signed bytes).mapError (Invalid.shift line.start) := by
  obtain ⟨sign, body, hsplit⟩ := exists_split bytes
  have hline : line.start + ((signText sign).length + 0) + body.length = line.stop := by
    rw [hsplit.1, List.length_append] at h
    omega
  have hloop := accumulate_eq sign body (signText sign).length 0 0 hline (Nat.zero_le _)
  have hzero : signedValue sign 0 = 0 := by
    unfold signedValue
    split_ifs <;> rfl
  rw [hzero, Nat.add_zero] at hloop
  rw [hsplit.signed_eq]
  obtain ⟨rfl, hplain⟩ := hsplit
  have hstart : Parser.offset line 0 = line.start := offset_eq (by omega)
  have hlone : ∀ head, (head = 45 ∨ head = 43) → Parser.signed (head :: body) line =
      if body = [] then .error (.missing (Parser.offset line 1))
      else accumulate i64 (if head = 45 then -1 else 1) line 1 0 body := fun head hhead => by
    rw [Parser.signed, if_pos hhead]
  rcases sign with _ | sign
  · rcases body with _ | ⟨head, tail⟩
    · rw [if_pos ⟨rfl, rfl⟩]
      exact congrArg (fun n => Except.error (Number.empty n)) hstart
    · obtain ⟨hplus, hminus⟩ := hplain rfl head rfl
      rw [if_neg fun h => List.cons_ne_nil _ _ h.2, magnitude, if_neg (List.cons_ne_nil _ _)]
      change Parser.signed (head :: tail) line = _
      rw [Parser.signed, if_neg fun h => h.elim hminus hplus]
      exact hloop
  · rw [if_neg fun h => by cases h.1]
    have hhead : ∃ head, signText (some sign) = [head] ∧ (head = 45 ∨ head = 43) ∧
        (if head = 45 then -1 else 1) = signedValue (some sign) 1 := by
      cases sign with
      | false => exact ⟨43, rfl, Or.inr rfl, rfl⟩
      | true => exact ⟨45, rfl, Or.inl rfl, rfl⟩
    obtain ⟨head, htext, hsign, hone⟩ := hhead
    rw [htext] at hloop ⊢
    change Parser.signed (head :: body) line = _
    rw [hlone head hsign, hone, magnitude]
    by_cases hbody : body = []
    · subst hbody
      rw [if_pos rfl, if_pos rfl]
      rw [htext] at h
      exact congrArg (fun n => Except.error (Number.missing n)) (offset_eq h.le)
    · rw [if_neg hbody, if_neg hbody]
      exact hloop

/-- The scanner and the replies read the same signed integers, those of 64 bits, and stop with the
same reason at the same byte, the first one that does not fit. `unsigned` reads the natural
numbers of 64 bits, with a zero of either sign, tells the negative integers of 64 bits apart, and
stops at the first byte that does not fit as well. -/
theorem integers (bytes : List UInt8) (line : Body) (h : line.start + bytes.length = line.stop) :
    Parser.signed bytes line = (signed bytes).mapError (Invalid.shift line.start) ∧
    (∀ z, signed bytes = .ok z ↔ IsInteger bytes z ∧ -2 ^ 63 ≤ z ∧ z < 2 ^ 63) ∧
    (∀ reason, signed bytes = .error reason ↔ Offends signedLimit bytes reason) ∧
    (∀ v : ℕ, unsigned bytes = .ok v ↔ IsInteger bytes v ∧ v < 2 ^ 64) ∧
    (∀ z, unsigned bytes = .error (.negative z) ↔ IsInteger bytes z ∧ -2 ^ 63 ≤ z ∧ z < 0) ∧
    ∀ reason, unsigned bytes = .error (.invalid reason) ↔ Offends unsignedLimit bytes reason :=
  ⟨signed_eq h, (signed_spec bytes).1, (signed_spec bytes).2, (unsigned_spec bytes).1,
    (unsigned_spec bytes).2.1, (unsigned_spec bytes).2.2⟩

/-- A digit and a letter, behind the marker of an integer. -/
theorem integers_stop : Parser.signed [55, 120] ⟨1, 3, by decide, by decide, by decide⟩ =
    (signed [55, 120]).mapError (Invalid.shift 1) ∧ signed [55, 120] = .error (.byte 1 120) :=
  ⟨(integers [55, 120] ⟨1, 3, by decide, by decide, by decide⟩ rfl).1, rfl⟩

end Cartel.Redis.Decode
