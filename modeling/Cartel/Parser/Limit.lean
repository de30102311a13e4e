import Mathlib.Data.PNat.Basic
import Mathlib.Data.List.Basic
import Mathlib.Tactic.Common

/-!
# Bounds, ends and lines of the RESP scanner

The Redis parser measures a buffer in `u32` positions. A `Bound` is a configured limit
on frame bytes or on values; an `End` is the position after at least one byte; a `Body`
is a byte range followed by its CRLF; a `Slot` is the number a stored value will have.
Each carries the range that makes its arithmetic exact, so the saturating and
truncating operations of the source never act on them.

`Line.find` looks for the CRLF of the header line that starts at `start`, resuming at
`scan`. Status and error lines stop at the first CR or LF, the numeric lines at the
first CRLF pair.
-/

namespace Cartel.Redis

/-- Carriage return. -/
def cr : UInt8 := 13

/-- Line feed. -/
def lf : UInt8 := 10

/-- The header line kinds of `protocol::Line`. -/
inductive LineKind where
  | status
  | server
  | integer
  | bulk
  | array
  deriving DecidableEq, Repr

namespace Parser

/-- `parser::MAX_DEPTH`. -/
def maxDepth : ℕ := 64

/-! ## Limits -/

/-- Brand of the byte limit. -/
inductive Frame

/-- Brand of the value limit. -/
inductive Value

/-- A configured limit, between one and `u32::MAX`. -/
structure Bound (K : Type) where
  value : ℕ
  pos : 0 < value
  lt : value < 2 ^ 32

/-- A rejected count : `low + 2^64 · overflow + 1` was required. -/
structure Exceeded (K : Type) where
  low : ℕ
  capacity : ℕ
  overflow : Bool
  deriving DecidableEq

/-- A position after at least one byte of the buffer. -/
structure End where
  get : ℕ
  pos : 0 < get
  lt : get < 2 ^ 32

/-- A byte range `start .. stop` whose trailing CRLF is admitted by the byte limit. -/
structure Body where
  start : ℕ
  stop : ℕ
  pos : 0 < start
  le : start ≤ stop
  lt : stop + 2 < 2 ^ 32

/-- The number of the next stored value. -/
structure Slot where
  get : ℕ
  pos : 0 < get
  lt : get < 2 ^ 32

/-- A header line without its CRLF. -/
structure Line where
  value : List UInt8
  start : End

/-- `Exceeded::required`. -/
def Exceeded.required {K : Type} (e : Exceeded K) : ℕ :=
  1 + (e.low + if e.overflow then 2 ^ 64 else 0)

theorem End.ext_get {a b : End} (h : a.get = b.get) : a = b := by
  cases a
  cases b
  congr

theorem Slot.ext_get {a b : Slot} (h : a.get = b.get) : a = b := by
  cases a
  cases b
  congr

namespace End

/-- `End::consumed`. -/
def consumed (e : End) : ℕ :=
  1 + (e.get - 1)

@[simp] theorem consumed_eq (e : End) : e.consumed = e.get := by
  have := e.pos
  unfold consumed
  omega

end End

namespace Body

variable (body : Body)

/-- `Body::get` : the position after the trailing CRLF. -/
def get : ℕ :=
  body.stop + 2

/-- `Body::end`. -/
def «end» : End :=
  ⟨1 + (body.stop + 1), by omega, by have := body.lt; omega⟩

/-- `Body::consumed`. -/
def consumed : ℕ :=
  body.end.consumed

/-- `Body::raw` : both positions in one word. -/
def raw : ℕ :=
  body.start ||| (body.stop <<< 32)

@[simp] theorem get_end : body.end.get = body.get := by
  simp only [«end», get]
  omega

@[simp] theorem consumed_eq : body.consumed = body.get := by
  simp [consumed]

theorem raw_eq : body.raw = body.start + body.stop * 2 ^ 32 := by
  have hlt : body.start < 2 ^ 32 := by
    have := body.le
    have := body.lt
    omega
  rw [raw, Nat.or_comm, ← Nat.shiftLeft_add_eq_or_of_lt hlt, Nat.shiftLeft_eq, Nat.add_comm]

end Body

namespace Bound

variable {K : Type} (bound : Bound K)

/-- `Bound::consumed`. -/
def consumed : ℕ :=
  1 + (bound.value - 1)

/-- `Bound::exceeded`. -/
def exceeded (low : ℕ) (overflow : Bool) : Exceeded K :=
  ⟨low, bound.value, overflow⟩

/-- `Bound::count` : a `u64` count and the caller's nonzero framing overhead `added`
together. -/
def count (len added : ℕ) : Except (Exceeded K) {n : ℕ // n + (added - 1) < bound.value} :=
  if len > bound.value then
    .error (bound.exceeded ((len + (added - 1)) % 2 ^ 64) (2 ^ 64 ≤ len + (added - 1)))
  else if h : len + (added - 1) ≥ bound.value then
    .error (bound.exceeded (len + (added - 1)) false)
  else
    .ok ⟨len, Nat.lt_of_not_le h⟩

@[simp] theorem consumed_eq : bound.consumed = bound.value := by
  have := bound.pos
  unfold consumed
  omega

theorem count_eq_ok {len added : ℕ} {n : {n : ℕ // n + (added - 1) < bound.value}} :
    bound.count len added = .ok n ↔ n.1 = len := by
  unfold count
  have := n.2
  split_ifs with h₁ h₂
  · simp; omega
  · simp; omega
  · obtain ⟨n, hn⟩ := n
    simp [eq_comm]

/-- The count is admitted exactly when it fits with its overhead. -/
theorem count_of_lt {len added : ℕ} (h : len + (added - 1) < bound.value) :
    bound.count len added = .ok ⟨len, h⟩ :=
  bound.count_eq_ok.mpr rfl

end Bound

/-- `Bound<Frame>::check`. -/
def Bound.check (bound : Bound Frame) (required : ℕ) : Except (Exceeded Frame) Unit :=
  if required ≤ bound.value then .ok () else .error (bound.exceeded (required - 1) false)

/-- `Bound<Frame>::next`. -/
def Bound.next (bound : Bound Frame) (used : ℕ) : Except (Exceeded Frame) End :=
  if h : used ≥ bound.value then .error (bound.exceeded used false)
  else .ok ⟨1 + used, by omega, by have := bound.lt; omega⟩

theorem Bound.next_eq_ok {bound : Bound Frame} {used : ℕ} {e : End} :
    bound.next used = .ok e ↔ used < bound.value ∧ e.get = used + 1 := by
  unfold Bound.next
  split_ifs with h
  · simp; omega
  · obtain ⟨n, hp, hl⟩ := e
    simp only [Except.ok.injEq, End.mk.injEq]
    omega

theorem Bound.le_of_next_error {bound : Bound Frame} {used : ℕ} {error : Exceeded Frame}
    (h : bound.next used = .error error) : bound.value ≤ used := by
  unfold Bound.next at h
  split_ifs at h with hle
  exact hle

theorem Bound.lt_of_check_error {bound : Bound Frame} {required : ℕ} {error : Exceeded Frame}
    (h : bound.check required = .error error) : bound.value < required := by
  unfold Bound.check at h
  split_ifs at h with hle
  exact Nat.lt_of_not_le hle

/-- `Line::stop`. -/
def Line.stop (line : Line) : ℕ :=
  line.start.get + line.value.length

/-- `Bound<Frame>::line`. -/
def Bound.line (bound : Bound Frame) (line : Line) : Except (Exceeded Frame) (End × Body) :=
  match h : bound.next (line.stop + 1) with
  | .error e => .error e
  | .ok finish =>
    have := bound.lt
    have := Bound.next_eq_ok.mp h
    .ok (finish, ⟨line.start.get, line.stop, line.start.pos, by unfold Line.stop; omega, by omega⟩)

/-- `Bound<Frame>::body`. -/
def Bound.body (bound : Bound Frame) (start : End) (length : ℕ) : Except (Exceeded Frame) Body :=
  match bound.count length (start.get + 2) with
  | .error e => .error e
  | .ok ⟨length, h⟩ =>
    have := bound.lt
    .ok ⟨start.get, start.get + length, start.pos, by omega, by omega⟩

/-- `Bound<Value>::next`. -/
def Bound.slot (bound : Bound Value) (used : ℕ) : Except (Exceeded Value) Slot :=
  if h : used + 1 > bound.value then .error (bound.exceeded (used + 1 - 1) false)
  else .ok ⟨1 + used, by omega, by have := bound.lt; omega⟩

/-- `Bound<Value>::array`. -/
def Bound.array (bound : Bound Value) (used declared : ℕ) : Except (Exceeded Value) ℕ :=
  match bound.count declared (used + 1) with
  | .error e => .error e
  | .ok ⟨declared, _⟩ => .ok declared

theorem Bound.line_eq_ok {bound : Bound Frame} {line : Line} {e : End} {body : Body} :
    bound.line line = .ok (e, body) ↔ line.stop + 1 < bound.value ∧ e.get = line.stop + 2 ∧
      body.start = line.start.get ∧ body.stop = line.stop := by
  unfold Bound.line
  split
  · next h =>
    have : ¬line.stop + 1 < bound.value := fun hlt => by
      rw [Bound.next_eq_ok (e := ⟨line.stop + 2, by omega, by have := bound.lt; omega⟩) |>.mpr
        ⟨hlt, rfl⟩] at h
      cases h
    simp [this]
  · next finish h =>
    obtain ⟨hlt, hget⟩ := Bound.next_eq_ok.mp h
    obtain ⟨start, stop, _, _, _⟩ := body
    simp only [Except.ok.injEq, Prod.mk.injEq, Body.mk.injEq]
    constructor
    · rintro ⟨rfl, rfl, rfl⟩
      exact ⟨hlt, hget, rfl, rfl⟩
    · rintro ⟨-, he, rfl, rfl⟩
      exact ⟨End.ext_get (by omega), rfl, rfl⟩

theorem Bound.le_of_line_error {bound : Bound Frame} {line : Line} {error : Exceeded Frame}
    (h : bound.line line = .error error) : bound.value ≤ line.stop + 1 := by
  unfold Bound.line at h
  split at h
  · next hnext => exact Bound.le_of_next_error hnext
  · cases h

theorem Bound.body_eq_ok {bound : Bound Frame} {start : End} {length : ℕ} {body : Body} :
    bound.body start length = .ok body ↔ start.get + length + 2 ≤ bound.value ∧
      body.start = start.get ∧ body.stop = start.get + length := by
  unfold Bound.body
  split
  · next h =>
    have : ¬start.get + length + 2 ≤ bound.value := fun hle => by
      rw [bound.count_of_lt (by omega)] at h
      cases h
    simp [this]
  · next n hn h =>
    obtain rfl : n = length := bound.count_eq_ok.mp h
    obtain ⟨first, stop, _, _, _⟩ := body
    simp only [Except.ok.injEq, Body.mk.injEq]
    constructor
    · rintro ⟨rfl, rfl⟩
      exact ⟨by omega, rfl, rfl⟩
    · rintro ⟨-, rfl, rfl⟩
      exact ⟨rfl, rfl⟩

theorem Bound.slot_eq_ok {bound : Bound Value} {used : ℕ} {slot : Slot} :
    bound.slot used = .ok slot ↔ used < bound.value ∧ slot.get = used + 1 := by
  unfold Bound.slot
  split_ifs with h
  · simp; omega
  · obtain ⟨n, hp, hl⟩ := slot
    simp only [Except.ok.injEq, Slot.mk.injEq]
    omega

theorem Bound.array_eq_ok {bound : Bound Value} {used declared n : ℕ} :
    bound.array used declared = .ok n ↔ declared + used < bound.value ∧ n = declared := by
  unfold Bound.array
  split
  · next h =>
    have : ¬declared + used < bound.value := fun hlt => by
      rw [bound.count_of_lt (by omega)] at h
      cases h
    simp [this]
  · next m hm h =>
    obtain rfl : m = declared := bound.count_eq_ok.mp h
    simp only [Except.ok.injEq]
    omega

end Parser

end Cartel.Redis
