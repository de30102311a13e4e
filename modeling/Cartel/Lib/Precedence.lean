import Mathlib.Data.List.Basic

/-!
# Operator precedence

A shift-reduce parser keeps what it has not finished on a stack : operators that wait for
their right operand, and marks of the regions (brackets, clauses) that are open. Before an
operator of level `k` is put on the stack, and with `k = 0` at the end of a region, the
waiting operators that bind tighter are applied (`settle`). Operators of one level group
as the level says, or not at all.
-/

namespace Cartel

/-- How operators of one level group. -/
inductive Assoc
  | left
  | right
  | neither
  deriving DecidableEq, Repr

/-- Binary operators `ι` and unary operators `υ` over the trees `α` : a higher level binds
tighter. -/
structure Operators (ι υ α : Type*) where
  level : ι → ℕ
  assoc : ℕ → Assoc
  rank : υ → ℕ
  binary : ι → α → α → α
  unary : υ → α → α

/-- What a parser has not finished : an open region, or an operator without its last
operand. -/
inductive Pending (β ι υ α : Type*)
  | mark (b : β)
  | binary (l : α) (op : ι)
  | unary (op : υ)

namespace Operators

variable {β ι υ α : Type*} (O : Operators ι υ α)

/-- Applies the operators that bind tighter than the level `k` to the operand `a`. -/
def settle (k : ℕ) : List (Pending β ι υ α) → α → Option (List (Pending β ι υ α) × α)
  | .binary l op :: rest, a =>
    if k < O.level op then settle k rest (O.binary op l a)
    else if k = O.level op then
      match O.assoc k with
      | .left => settle k rest (O.binary op l a)
      | .right => some (.binary l op :: rest, a)
      | .neither => none
    else some (.binary l op :: rest, a)
  | .unary op :: rest, a =>
    if k ≤ O.rank op then settle k rest (O.unary op a) else some (.unary op :: rest, a)
  | stack, a => some (stack, a)

/-- No operator waits : a region begins here. -/
def Region (stack : List (Pending β ι υ α)) : Prop := ∀ p ∈ stack.head?, ∃ b, p = .mark b

/-- What waits on top, if an operator, binds looser than the level `k`. -/
def Below (k : ℕ) (stack : List (Pending β ι υ α)) : Prop :=
  ∀ p ∈ stack.head?, match p with
    | .mark _ => True
    | .binary _ op => O.level op < k
    | .unary op => O.rank op < k

variable {O} {stack : List (Pending β ι υ α)} {k : ℕ} {a l : α}

theorem Region.nil : Region ([] : List (Pending β ι υ α)) := by simp [Region]

theorem Region.mark (b : β) (stack : List (Pending β ι υ α)) : Region (.mark b :: stack) := by
  simp [Region]

theorem Region.settle (h : Region stack) : O.settle k stack a = some (stack, a) := by
  cases stack with
  | nil => rfl
  | cons p rest =>
    obtain ⟨b, rfl⟩ := h p rfl
    rfl

theorem Region.below (h : Region stack) (k : ℕ) : O.Below k stack := by
  intro p hp
  obtain ⟨b, rfl⟩ := h p hp
  trivial

theorem Below.mono {j : ℕ} (h : O.Below j stack) (hle : j ≤ k) : O.Below k stack := by
  intro p hp
  have hlt := h p hp
  cases p with
  | mark b => trivial
  | binary l op => exact Nat.lt_of_lt_of_le hlt hle
  | unary op => exact Nat.lt_of_lt_of_le hlt hle

theorem Below.binary {op : ι} (h : O.level op < k) (stack : List (Pending β ι υ α)) :
    O.Below k (.binary l op :: stack) := by
  rintro p ⟨⟩
  exact h

/-- Looser operators stay on the stack. -/
theorem Below.settle (h : O.Below k stack) : O.settle k stack a = some (stack, a) := by
  cases stack with
  | nil => rfl
  | cons p rest =>
    have hlt := h p rfl
    cases p with
    | mark b => rfl
    | binary l op =>
      have hlt : O.level op < k := hlt
      rw [Operators.settle, if_neg (by omega), if_neg (by omega)]
    | unary op =>
      have hlt : O.rank op < k := hlt
      rw [Operators.settle, if_neg (by omega)]

theorem settle_binary {op : ι} (h : k < O.level op) (stack : List (Pending β ι υ α)) :
    O.settle k (.binary l op :: stack) a = O.settle k stack (O.binary op l a) := by
  rw [settle, if_pos h]

/-- Operators of one left-associative level are applied from the left. -/
theorem settle_left {op : ι} (h : k = O.level op) (ha : O.assoc k = .left)
    (stack : List (Pending β ι υ α)) :
    O.settle k (.binary l op :: stack) a = O.settle k stack (O.binary op l a) := by
  rw [settle, if_neg (by omega), if_pos h, ha]

theorem settle_unary {op : υ} (h : k ≤ O.rank op) (stack : List (Pending β ι υ α)) :
    O.settle k (.unary op :: stack) a = O.settle k stack (O.unary op a) := by
  rw [settle, if_pos h]

end Operators

end Cartel
