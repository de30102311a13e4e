import Mathlib.Data.List.Induction
import Mathlib.Logic.Function.Basic
import Mathlib.Order.Fin.Basic
import Mathlib.Tactic.Common

/-!
# The failures of the lanes

Each lane holds at most one failure, and a pointer is kept to the first of the failures that are
held. The pointer is modelled by the lane it points into, and the order of pointers by the order
of lanes : the lanes lie in one array that does not move.

A failure that is recorded lowers the pointer or leaves it. When the failure it points to is
cleared, the lanes behind are searched for the next one. `held` is what a sequence of operations
leaves in a lane, and the pointer is the least lane for which it is not empty (`Lowest`).
-/

namespace Cartel.Redis.Port

variable {n : ℕ} {π : Type}

/-! ## Failures -/

/-- `client::Failure`, over what the errors of the driver carry. -/
inductive Failure (π : Type) where
  | input (cause : π)
  | closed (reason : π)
  | receive (error : π)
  | transmit (error : π)
  | timeout (kind : π)
  | requestTimeout (due : π)
  | protocol (error : π)
  | handshake (error : π)
  | unexpectedResponse
  | responseCapacity (cause : π)
  | responseFront (front : π)
  | request (error : π)
  | requestEgress (cause : π)
  | requestReserve (cause : π)
  | responseFrameCapacity (error : π)
  | responseRetention (error : π)
  | responseValueCapacity (error : π)
  deriving DecidableEq

/-- The part of `crate::Error` that a failure can become. -/
inductive Error (π : Type) where
  | input (cause : π)
  | closed (reason : π)
  | receive (error : π)
  | transmit (error : π)
  | timeout (kind : π)
  | requestTimeout (due : π)
  | protocol (error : π)
  | handshake (error : π)
  | unexpectedResponse
  | responseCapacity (cause : π)
  | responseFront (front : π)
  | request (error : π)
  | requestEgress (cause : π)
  | requestReserve (cause : π)
  | responseFrameCapacity (error : π)
  | responseRetention (error : π)
  | responseValueCapacity (error : π)
  deriving DecidableEq

/-- `Failure::into_error`. -/
def Failure.intoError : Failure π → Error π
  | .input cause => .input cause
  | .closed reason => .closed reason
  | .receive error => .receive error
  | .transmit error => .transmit error
  | .timeout kind => .timeout kind
  | .requestTimeout due => .requestTimeout due
  | .protocol error => .protocol error
  | .handshake error => .handshake error
  | .unexpectedResponse => .unexpectedResponse
  | .responseCapacity cause => .responseCapacity cause
  | .responseFront front => .responseFront front
  | .request error => .request error
  | .requestEgress cause => .requestEgress cause
  | .requestReserve cause => .requestReserve cause
  | .responseFrameCapacity error => .responseFrameCapacity error
  | .responseRetention error => .responseRetention error
  | .responseValueCapacity error => .responseValueCapacity error

/-- `failures::Failures`. -/
structure Failures (n : ℕ) (π : Type) where
  lanes : Fin n → Option (Failure π)
  first : Option (Fin n)

namespace Failures

/-- `Failures::try_new`. -/
def tryNew : Failures n π where
  lanes _ := none
  first := none

/-- `Failures::cause`. A pointer into an empty lane has no result. -/
def cause (failures : Failures n π) : Option (Error π) :=
  failures.first.bind fun lane => (failures.lanes lane).map Failure.intoError

/-- The pointer to what a lane holds. -/
def pointer (failures : Failures n π) (lane : Fin n) : Option (Fin n) :=
  (failures.lanes lane).map fun _ => lane

/-- The first lane behind `lane` that holds a failure. -/
def next (lanes : Fin n → Option (Failure π)) (lane : Fin n) : Option (Fin n) :=
  ((List.finRange n).drop (lane + 1)).find? fun slot => (lanes slot).isSome

/-- `Failures::clear`, with the failure that was held. -/
def clear (failures : Failures n π) (lane : Fin n) : Failures n π × Option (Failure π) :=
  let leads := failures.first.isSome && failures.first == failures.pointer lane
  let lanes := Function.update failures.lanes lane none
  (⟨lanes, if leads then next lanes lane else failures.first⟩, failures.lanes lane)

/-- `Failures::record`, with the failure that was held. -/
def record (failures : Failures n π) (lane : Fin n) (failure : Failure π) :
    Failures n π × Option (Failure π) :=
  (⟨Function.update failures.lanes lane (some failure),
    some (failures.first.elim lane fun first => if first < lane then first else lane)⟩,
    failures.lanes lane)

end Failures

/-! ## The lowest lane -/

/-- `first` is the least index that holds a value. -/
def Lowest {α : Type} (lanes : Fin n → Option α) (first : Option (Fin n)) : Prop :=
  first.elim (∀ lane, lanes lane = none) fun lane =>
    (lanes lane).isSome = true ∧ ∀ lower < lane, lanes lower = none

namespace Lowest

variable {lanes : Fin n → Option (Failure π)} {first : Option (Fin n)} {lane : Fin n}

/-- There is only one. -/
theorem unique {other : Option (Fin n)} (h : Lowest lanes first) (hother : Lowest lanes other) :
    first = other := by
  cases first with
  | none =>
    cases other with
    | none => rfl
    | some lane => exact absurd hother.1 (by simp [h lane])
  | some lane =>
    cases other with
    | none => exact absurd h.1 (by simp [hother lane])
    | some other =>
      rcases lt_trichotomy lane other with hlt | rfl | hlt
      · exact absurd h.1 (by simp [hother.2 lane hlt])
      · rfl
      · exact absurd hother.1 (by simp [h.2 other hlt])

/-- Nothing below the pointer is occupied. -/
theorem below (h : Lowest lanes (some lane)) : ∀ lower < lane, lanes lower = none :=
  h.2

/-- The lanes behind an empty stretch are searched in their order. -/
theorem next (hbelow : ∀ lower ≤ lane, lanes lower = none) :
    Lowest lanes (Failures.next lanes lane) := by
  unfold Failures.next
  cases hfind : ((List.finRange n).drop (lane + 1)).find? fun slot => (lanes slot).isSome with
  | none =>
    intro slot
    rcases le_or_gt slot lane with hle | hlt
    · exact hbelow slot hle
    · have hmem : slot ∈ (List.finRange n).drop (lane + 1) := by
        refine List.mem_drop_iff_getElem.mpr ⟨slot - (lane + 1), ?_, ?_⟩
        · simp only [List.length_finRange]
          omega
        · ext
          simp only [List.getElem_finRange, Fin.val_cast]
          omega
      simpa using List.find?_eq_none.mp hfind slot hmem
  | some slot =>
    obtain ⟨hsome, i, hi, hslot, hbefore⟩ := List.find?_eq_some_iff_getElem.mp hfind
    refine ⟨hsome, fun lower hlower => ?_⟩
    rcases le_or_gt lower lane with hle | hlt
    · exact hbelow lower hle
    · have hvalue : (slot : ℕ) = lane + 1 + i := by
        rw [← hslot]
        simp
      have hempty := hbefore (lower - (lane + 1)) (by omega)
      have hlower : ((List.finRange n).drop (lane + 1))[(lower : ℕ) - (lane + 1)]? =
          some lower := by
        rw [List.getElem?_drop, List.getElem?_eq_some_iff]
        refine ⟨by simp only [List.length_finRange]; omega, ?_⟩
        ext
        simp only [List.getElem_finRange, Fin.val_cast]
        omega
      obtain ⟨_, hget⟩ := List.getElem?_eq_some_iff.mp hlower
      rw [hget] at hempty
      simpa using hempty

/-- A lane that takes a failure is the lowest, unless one below it is. -/
theorem record (h : Lowest lanes first) (lane : Fin n) (failure : Failure π) :
    Lowest (Function.update lanes lane (some failure))
      (some (first.elim lane fun first => if first < lane then first else lane)) := by
  cases first with
  | none =>
    refine ⟨by simp, fun lower (hlower : lower < lane) => ?_⟩
    rw [Function.update_of_ne hlower.ne]
    exact h lower
  | some first =>
    simp only [Option.elim_some]
    split_ifs with hlt
    · refine ⟨?_, fun lower hlower => ?_⟩
      · rw [Function.update_of_ne hlt.ne]
        exact h.1
      · rw [Function.update_of_ne (hlower.trans hlt).ne]
        exact h.below lower hlower
    · refine ⟨by simp, fun lower hlower => ?_⟩
      rw [Function.update_of_ne hlower.ne]
      exact h.below lower (hlower.trans_le (not_lt.mp hlt))

/-- Clearing another lane than the lowest leaves the lowest. -/
theorem clear_other (h : Lowest lanes first) (hother : first ≠ some lane) :
    Lowest (Function.update lanes lane none) first := by
  have hempty : ∀ slot, lanes slot = none → Function.update lanes lane none slot = none :=
    fun slot hslot => by
      rw [Function.update_apply]
      split_ifs
      · rfl
      · exact hslot
  cases first with
  | none => exact fun slot => hempty slot (h slot)
  | some first =>
    refine ⟨?_, fun lower hlower => hempty lower (h.below lower hlower)⟩
    rw [Function.update_of_ne fun heq => hother (congrArg some heq)]
    exact h.1

/-- When the lowest lane is cleared, the next one behind it is the lowest. -/
theorem clear_first (h : Lowest lanes (some lane)) :
    Lowest (Function.update lanes lane none)
      (Failures.next (Function.update lanes lane none) lane) := by
  refine next fun lower hle => ?_
  rcases hle.eq_or_lt with rfl | hlt
  · exact Function.update_self ..
  · rw [Function.update_of_ne hlt.ne]
    exact h.below lower hlt

end Lowest

/-! ## Operations -/

namespace Failures

variable {failures : Failures n π}

/-- The pointer leads to the lane that is cleared exactly when it points to it. -/
theorem leads_iff (h : Lowest failures.lanes failures.first) (lane : Fin n) :
    (failures.first.isSome && failures.first == failures.pointer lane) = true ↔
      failures.first = some lane := by
  unfold pointer
  cases hfirst : failures.first with
  | none => simp
  | some first =>
    rw [hfirst] at h
    simp only [Option.isSome_some, Bool.true_and, beq_iff_eq]
    constructor
    · intro heq
      cases hlane : failures.lanes lane with
      | none => rw [hlane] at heq; cases heq
      | some failure => rwa [hlane] at heq
    · rintro ⟨⟩
      obtain ⟨failure, hlane⟩ := Option.isSome_iff_exists.mp h.1
      rw [hlane]
      rfl

theorem lowest_tryNew : Lowest (tryNew : Failures n π).lanes (tryNew : Failures n π).first :=
  fun _ => rfl

theorem lowest_record (h : Lowest failures.lanes failures.first) (lane : Fin n)
    (failure : Failure π) :
    Lowest (failures.record lane failure).1.lanes (failures.record lane failure).1.first :=
  h.record lane failure

theorem lowest_clear (h : Lowest failures.lanes failures.first) (lane : Fin n) :
    Lowest (failures.clear lane).1.lanes (failures.clear lane).1.first := by
  unfold clear
  dsimp only
  split_ifs with hleads
  · rw [leads_iff h] at hleads
    rw [hleads] at h
    exact h.clear_first
  · rw [leads_iff h] at hleads
    exact h.clear_other hleads

end Failures

/-- A call of `record` or `clear`. -/
inductive Call (n : ℕ) (π : Type) where
  | record (lane : Fin n) (failure : Failure π)
  | clear (lane : Fin n)

/-- What a call leaves in a lane, if it is about that lane. -/
def Call.leaves (lane : Fin n) : Call n π → Option (Option (Failure π))
  | .record of failure => if of = lane then some (some failure) else none
  | .clear of => if of = lane then some none else none

/-- What a lane holds after some calls : what the last one about it has left. -/
def held (calls : List (Call n π)) (lane : Fin n) : Option (Failure π) :=
  (calls.reverse.findSome? (Call.leaves lane)).getD none

namespace Failures

/-- One call. -/
def apply (failures : Failures n π) : Call n π → Failures n π
  | .record lane failure => (failures.record lane failure).1
  | .clear lane => (failures.clear lane).1

/-- A sequence of calls, from the start. -/
def run (calls : List (Call n π)) : Failures n π :=
  calls.foldl apply tryNew

theorem run_concat (calls : List (Call n π)) (call : Call n π) :
    run (calls ++ [call]) = (run calls).apply call := by
  simp [run]

theorem lanes_apply (failures : Failures n π) (call : Call n π) (lane : Fin n) :
    (failures.apply call).lanes lane = (call.leaves lane).getD (failures.lanes lane) := by
  cases call with
  | record of failure =>
    by_cases heq : of = lane
    · subst heq
      simp [apply, record, Call.leaves]
    · simp [apply, record, Call.leaves, heq, Function.update_of_ne (Ne.symm heq)]
  | clear of =>
    by_cases heq : of = lane
    · subst heq
      simp [apply, clear, Call.leaves]
    · simp [apply, clear, Call.leaves, heq, Function.update_of_ne (Ne.symm heq)]

theorem lowest_apply {failures : Failures n π} (h : Lowest failures.lanes failures.first)
    (call : Call n π) :
    Lowest (failures.apply call).lanes (failures.apply call).first := by
  cases call with
  | record lane failure => exact lowest_record h lane failure
  | clear lane => exact lowest_clear h lane

/-- The lanes hold what the calls have left in them. -/
theorem lanes_run (calls : List (Call n π)) : (run calls).lanes = held calls := by
  funext lane
  induction calls using List.reverseRecOn with
  | nil => rfl
  | append_singleton calls call ih =>
    rw [run_concat, lanes_apply, ih, held, held, List.reverse_concat, List.findSome?_cons]
    cases call.leaves lane <;> rfl

theorem lowest_run (calls : List (Call n π)) :
    Lowest (run calls).lanes (run calls).first := by
  induction calls using List.reverseRecOn with
  | nil => exact lowest_tryNew
  | append_singleton calls call ih =>
    rw [run_concat]
    exact lowest_apply ih call

/-- After any sequence of calls the pointer is at the lowest lane that holds a failure, there is
none exactly when no lane holds one, and the cause that is reported is what that lane holds. -/
theorem tracks_lowest (calls : List (Call n π)) :
    (run calls).lanes = held calls ∧
      ((run calls).first = none ↔ ∀ lane, held calls lane = none) ∧
      (∀ lane, (run calls).first = some lane ↔
        (held calls lane).isSome = true ∧ ∀ lower < lane, held calls lower = none) ∧
      (∀ lane failure, (run calls).first = some lane → held calls lane = some failure →
        (run calls).cause = some failure.intoError) ∧
      ((run calls).first = none → (run calls).cause = none) := by
  have hlanes := lanes_run calls
  have hlowest := lowest_run calls
  rw [hlanes] at hlowest
  refine ⟨hlanes, ⟨fun hfirst => ?_, fun hnone => ?_⟩, fun lane => ⟨fun hfirst => ?_, fun h => ?_⟩,
    fun lane failure hfirst hfailure => ?_, fun hfirst => ?_⟩
  · rwa [hfirst] at hlowest
  · exact hlowest.unique hnone
  · rwa [hfirst] at hlowest
  · exact hlowest.unique h
  · rw [cause, hfirst, Option.bind_some, hlanes, hfailure]
    rfl
  · rw [cause, hfirst]
    rfl

example : ((run [.record 2 (.closed 0), .record 1 .unexpectedResponse, .clear 1] :
    Failures 3 ℕ)).cause = some (.closed 0) := by
  decide

end Failures

end Cartel.Redis.Port
