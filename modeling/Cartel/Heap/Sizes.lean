import Mathlib.Data.Nat.Size
import Mathlib.Tactic.Common
import Mathlib.Tactic.Ring

/-!
# Requests and size classes

A request is a positive length inside the signed bound (`Len`). Its order is the least one
whose block has room for it behind the header (`Len.order_spec`). Sums, differences and casts
are those of the source's fixed widths, with no result where they would overflow.
-/

namespace Cartel.Sqlite.Heap

/-! ## The code -/

/-- A number that fits `width` bits. -/
def fit (width n : ℕ) : Option ℕ :=
  if n < 2 ^ width then some n else none

/-- A difference that does not go below zero. -/
def less (a b : ℕ) : Option ℕ :=
  if b ≤ a then some (a - b) else none

/-- `leading_zeros` of a number of 32 bits. -/
def leadingZeros (n : ℕ) : ℕ :=
  32 - n.size

/-- `Layout`. -/
structure Layout where
  bytes : ℕ
  min_le : 64 * 2 ^ 10 ≤ bytes
  multiple : 64 ∣ bytes

namespace Layout

/-- `Layout::UNIT_BYTES`. -/
def unitBytes : ℕ :=
  32

/-- `Layout::PREFIX_BYTES`, the bytes of the arena before its blocks. -/
def prefixBytes : ℕ :=
  320

/-- `Layout::new`. -/
def new (bytes : ℕ) : Option Layout :=
  if h : 64 * 2 ^ 10 ≤ bytes ∧ 64 ∣ bytes then some ⟨bytes, h.1, h.2⟩ else none

/-- `Layout::backing`. -/
def backing (layout : Layout) : Option ℕ :=
  fit 64 (layout.bytes + prefixBytes)

/-- `Layout::units`. -/
def units (layout : Layout) : ℕ :=
  layout.bytes / (unitBytes + 1)

/-- `Layout::capacity`. -/
def capacity (layout : Layout) : ℕ :=
  layout.units * unitBytes

end Layout

/-- `raw::MAX_ORDER`. -/
def maxOrder : ℕ :=
  25

/-- `raw::ORDERS`, the power of two above `MAX_ORDER`. -/
def orders : ℕ :=
  32

/-- `raw::Order`, an index below `MAX_ORDER + 1`. -/
abbrev Order := Fin 26

/-- `raw::Level`, an index below `ORDERS`. -/
abbrev Level := Fin 32

/-- `Order::new`. -/
def Order.new (n : ℕ) : Option Order :=
  if h : n < 26 then some ⟨n, h⟩ else none

/-- `Level::new`. -/
def Level.new (n : ℕ) : Option Level :=
  if h : n < 32 then some ⟨n, h⟩ else none

/-- `Level::mask`. -/
def Level.mask (n : ℕ) : Level :=
  ⟨n % 32, Nat.mod_lt n (by decide)⟩

/-- `Order::widen`. -/
def Order.widen (order : Order) : Level :=
  order.castLE (by decide)

/-- `Header::BYTES`. -/
def headerBytes : ℕ :=
  16

/-- `raw::payload_bytes`. -/
def payloadBytes (order : Order) : Option ℕ := do
  let bytes ← fit 64 (Layout.unitBytes / 2 * 2 ^ (order.val + 1))
  less bytes headerBytes

/-- `raw::payload_integer`, a cast to 32 signed bits. -/
def payloadInteger (order : Order) : Option ℤ := do
  let bytes ← payloadBytes order
  (fit 31 bytes).map Int.ofNat

/-- `hooks::Len`. -/
structure Len where
  bytes : ℕ
  pos : 0 < bytes
  lt : bytes < 2 ^ 31

namespace Len

/-- `Len::new`, of a signed number of 32 bits. -/
def new (bytes : Int32) : Option Len :=
  if h : bytes.toInt ≤ 0 then none
  else some ⟨bytes.toInt.toNat, by omega, by have := bytes.toInt_lt; omega⟩

/-- `Len::order`. -/
def order (len : Len) : Option (Option Order) := do
  let sum ← fit 32 (len.bytes + headerBytes)
  let sum ← less sum 1
  let last := max sum (Layout.unitBytes - 1)
  let digits ← less 32 (leadingZeros last)
  let position ← less digits 5
  return Order.new position

/-- `Len::into_usize`, a saturating sum. -/
def intoUsize (len : Len) : Option ℕ := do
  let rest ← less len.bytes 1
  return min (1 + rest) (2 ^ 64 - 1)

/-- The size of `Len::layout`. -/
def layout (len : Len) : Option ℕ := do
  let bytes ← len.intoUsize
  fit 63 (bytes + headerBytes)

end Len

/-- `hooks::roundup`. -/
def roundup (bytes : Int32) : Option ℤ :=
  match Len.new bytes with
  | none => some 0
  | some len => len.order.bind fun order =>
    match order with
    | none => some 0
    | some order => payloadInteger order

/-! ## No overflow -/

theorem fit_eq {width n : ℕ} (h : n < 2 ^ width) : fit width n = some n :=
  if_pos h

theorem less_eq {a b : ℕ} (h : b ≤ a) : less a b = some (a - b) :=
  if_pos h

/-- The payload of a block of order `k`. -/
def room (k : ℕ) : ℕ :=
  2 ^ k * 32 - 16

theorem two_pow_le (order : Order) : 2 ^ order.val ≤ 2 ^ 25 :=
  Nat.pow_le_pow_right (by decide) (Nat.lt_succ_iff.mp order.isLt)

theorem room_add (k : ℕ) : room k + 16 = 2 ^ k * 32 := by
  have hpos := Nat.two_pow_pos k
  unfold room
  omega

theorem room_strictMono : StrictMono room := by
  intro j k hlt
  have hpow := Nat.pow_lt_pow_right (a := 2) (by decide) hlt
  have hj := room_add j
  have hk := room_add k
  omega

@[simp] theorem payloadBytes_eq (order : Order) : payloadBytes order = some (room order.val) := by
  have hle := two_pow_le order
  have hpos := Nat.two_pow_pos order.val
  have hpow : Layout.unitBytes / 2 * 2 ^ (order.val + 1) = 2 ^ order.val * 32 := by
    rw [show Layout.unitBytes / 2 = 16 from rfl]
    ring
  unfold payloadBytes fit less headerBytes room
  rw [hpow, if_pos (by omega), Option.bind_eq_bind, Option.bind_some, if_pos (by omega)]

@[simp] theorem payloadInteger_eq (order : Order) :
    payloadInteger order = some (Int.ofNat (room order.val)) := by
  have hle := two_pow_le order
  have hroom := room_add order.val
  unfold payloadInteger fit
  rw [payloadBytes_eq, Option.bind_eq_bind, Option.bind_some, if_pos (by omega)]
  rfl

namespace Len

variable (len : Len)

/-- The position that the leading zeros give is the least one with enough room. -/
theorem order_eq :
    len.order = some (Order.new ((max (len.bytes + 15) 31).size - 5)) := by
  have hlt := len.lt
  have hsize : (max (len.bytes + 15) 31).size ≤ 32 := Nat.size_le.mpr (by omega)
  have hpos : 5 ≤ (max (len.bytes + 15) 31).size := by
    have h31 : (31 : ℕ).size ≤ (max (len.bytes + 15) 31).size :=
      Nat.size_le_size (le_max_right _ _)
    have hval : (31 : ℕ).size = 5 := by decide
    omega
  have hzeros : 32 - leadingZeros (max (len.bytes + 15) 31) = (max (len.bytes + 15) 31).size := by
    unfold leadingZeros
    omega
  unfold order fit less headerBytes
  rw [if_pos (by omega), Option.bind_eq_bind, Option.bind_some, if_pos (by omega)]
  simp only [Option.bind_some]
  rw [show len.bytes + 16 - 1 = len.bytes + 15 from rfl,
    show Layout.unitBytes - 1 = 31 from rfl,
    if_pos (show leadingZeros (max (len.bytes + 15) 31) ≤ 32 from Nat.sub_le _ _)]
  rw [Option.bind_some, hzeros, if_pos hpos]
  rfl

/-- A position has room for the request exactly from the computed one on. -/
theorem le_room_iff (k : ℕ) : len.bytes ≤ room k ↔ (max (len.bytes + 15) 31).size - 5 ≤ k := by
  have hroom := room_add k
  have hpos := len.pos
  have hk := Nat.two_pow_pos k
  have hpow : 2 ^ (k + 5) = 2 ^ k * 32 := by ring
  rw [Nat.sub_le_iff_le_add, Nat.size_le, hpow]
  omega

theorem intoUsize_eq : len.intoUsize = some len.bytes := by
  have hpos := len.pos
  have hlt := len.lt
  unfold intoUsize less
  rw [if_pos (show 1 ≤ len.bytes from hpos), Option.bind_eq_bind, Option.bind_some]
  exact congrArg some (by omega)

theorem layout_eq : len.layout = some (len.bytes + 16) := by
  have hlt := len.lt
  unfold layout
  rw [intoUsize_eq, Option.bind_eq_bind, Option.bind_some, fit, headerBytes, if_pos (by omega)]

end Len

/-! ## Minimal orders -/

/-- The order of a request, if it has one. -/
def Len.class (len : Len) : Option Order :=
  len.order.getD none

theorem Len.order_class (len : Len) : len.order = some len.class := by
  unfold Len.class
  rw [len.order_eq]
  rfl

theorem Len.class_eq_some_iff {len : Len} {k : Order} :
    len.class = some k ↔ len.bytes ≤ room k.val ∧ ∀ j < k.val, room j < len.bytes := by
  have hposition : len.class = Order.new ((max (len.bytes + 15) 31).size - 5) :=
    Option.some.inj (len.order_class.symm.trans len.order_eq)
  have hmin : (∀ j < k.val, room j < len.bytes) ↔
      k.val ≤ (max (len.bytes + 15) 31).size - 5 := by
    refine ⟨fun h => ?_, fun h j hj => ?_⟩
    · by_contra hnot
      exact absurd (len.le_room_iff _ |>.mpr le_rfl) (not_le.mpr (h _ (not_le.mp hnot)))
    · exact not_le.mp fun hle => absurd (len.le_room_iff j |>.mp hle) (by omega)
  rw [hposition, len.le_room_iff, hmin, Order.new]
  split_ifs with hlt
  · rw [Option.some.injEq, Fin.ext_iff]
    exact ⟨fun h => ⟨h.le, h.ge⟩, fun h => le_antisymm h.1 h.2⟩
  · refine ⟨fun h => absurd h (by simp), fun h => absurd k.isLt ?_⟩
    omega

theorem Len.class_eq_none_iff {len : Len} : len.class = none ↔ room 25 < len.bytes := by
  have hposition : len.class = Order.new ((max (len.bytes + 15) 31).size - 5) :=
    Option.some.inj (len.order_class.symm.trans len.order_eq)
  have hle := len.le_room_iff 25
  rw [hposition, Order.new]
  split_ifs with hlt
  · exact ⟨fun h => absurd h (by simp), fun h => absurd (hle.mpr (by omega)) (not_le.mpr h)⟩
  · exact ⟨fun _ => not_le.mp fun h => hlt (Nat.lt_succ_of_le (hle.mp h)), fun _ => rfl⟩

/-- A larger request has a larger order. -/
theorem Len.class_mono {len len' : Len} {k k' : Order} (h : len.class = some k)
    (h' : len'.class = some k') (hle : len.bytes ≤ len'.bytes) : k ≤ k' := by
  obtain ⟨-, hmin⟩ := Len.class_eq_some_iff.mp h
  obtain ⟨hroom, -⟩ := Len.class_eq_some_iff.mp h'
  exact not_lt.mp fun hlt => absurd (hmin k'.val hlt) (not_lt.mpr (hle.trans hroom))

/-- The payload of a block asks for that block. -/
theorem Len.class_room {len : Len} {k : Order} (h : len.bytes = room k.val) :
    len.class = some k := by
  refine Len.class_eq_some_iff.mpr ⟨h.le, fun j hj => ?_⟩
  rw [h]
  exact room_strictMono hj

/-- A request by its value. -/
theorem Len.new_ofNat (len : Len) : Len.new (Int32.ofNat len.bytes) = some len := by
  have hpos := len.pos
  have hint : (Int32.ofNat len.bytes).toInt = len.bytes := Int32.toInt_ofNat_of_lt len.lt
  unfold Len.new
  rw [dif_neg (by omega)]
  refine congrArg some ?_
  obtain ⟨bytes, hpos', hlt⟩ := len
  simp only [Len.mk.injEq]
  dsimp only at hint
  omega

theorem roundup_eq {bytes : Int32} {len : Len} {k : Order} (hlen : Len.new bytes = some len)
    (hclass : len.class = some k) : roundup bytes = some (Int.ofNat (room k.val)) := by
  unfold roundup
  rw [hlen]
  dsimp only
  rw [len.order_class, Option.bind_some, hclass]
  exact payloadInteger_eq k

end Cartel.Sqlite.Heap
