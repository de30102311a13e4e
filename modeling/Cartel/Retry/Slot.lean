import Mathlib.Data.List.Basic
import Mathlib.Data.PNat.Basic
import Mathlib.Tactic.Common

/-!
# Retries of a busy statement

A call steps its statement, and when the database is busy it waits and steps again. What is left
of its retries is kept in a slot that outlives the call (`State`) : the budget goes from one state
to another with every poll, and the slot is cleared when the call gives back its lease.

The clock and the alarm belong to the driver. A moment is a number, and of the clock only the
saturating addition is used. Whether the alarm has fired is asked of it (`Turn.fires`), and so is
what comes of a step and of the checks behind it. Wakes are left out.
-/

namespace Cartel.Sqlite.Retry

variable {α ε : Type}

/-! ## Faults and limits -/

/-- `sys::Fault`. -/
structure Fault (α : Type) where
  action : α
  code : ℤ
  aborted : Bool
  deriving DecidableEq

/-- The part of `crate::Error` that has to do with retries. -/
inductive Error (α ε : Type) where
  | busy (action : α) (code : ℤ)
  | requestTimeout (action : α) (code : ℤ)
  | other (error : ε)
  deriving DecidableEq

/-- `Fault::new`. -/
def Fault.new (action : α) (code : ℤ) : Fault α :=
  ⟨action, code, false⟩

/-- `Fault::busy`. -/
def Fault.busy (fault : Fault α) : Error α ε :=
  .busy fault.action fault.code

/-- `Fault::timeout`. -/
def Fault.timeout (fault : Fault α) : Error α ε :=
  .requestTimeout fault.action fault.code

/-- `config::Delay`. -/
inductive Delay where
  | yield
  | sleep (interval : ℕ)
  deriving DecidableEq

/-- `Delay::new`. -/
def Delay.new (interval : ℕ) : Delay :=
  if interval = 0 then .yield else .sleep interval

/-- `config::Contention`. -/
structure Contention where
  window : ℕ
  delay : Delay
  retries : ℕ
  positive : 0 < retries

/-- The budgets of `config::Work`. -/
structure Config where
  opening : Contention
  call : Contention

/-- `Work::alarm` : whether an alarm is reserved. -/
def Config.alarm (config : Config) : Bool :=
  match config.opening.delay, config.call.delay with
  | .yield, .yield => false
  | _, _ => true

/-- The clock : `Moment::clamp_add`. -/
structure Clock where
  clampAdd : ℕ → ℕ → ℕ
  last : ℕ
  clampAdd_eq : ∀ now duration, clampAdd now duration = min (now + duration) last

/-! ## The slot -/

/-- `slot::Budget`. -/
structure Budget (α : Type) where
  deadline : ℕ
  fault : Fault α
  remaining : ℕ

/-- `slot::State`. -/
inductive State (α : Type) where
  | idle
  | ready (budget : Budget α)
  | pendingYield (budget : Budget α)
  | pendingSleep (budget : Budget α)

/-- An alarm : the moment for which it is armed, if it is. -/
abbrev Alarm := Option ℕ

/-- `slot::Slot`. -/
structure Slot (α : Type) where
  alarm : Option Alarm
  state : State α

/-- `slot::Wait`. -/
inductive Wait where
  | ready
  | pending
  deriving DecidableEq

/-- `task::Poll`. -/
inductive Poll (τ : Type) where
  | pending
  | ready (value : τ)

namespace Slot

/-- `Slot::yielding`. -/
def yielding : Slot α :=
  ⟨none, .idle⟩

/-- `Slot::timed`. -/
def timed : Slot α :=
  ⟨some none, .idle⟩

/-- The slot of `Configured::new`. -/
def new (config : Config) : Slot α :=
  if config.alarm then timed else yielding

/-- `Alarm::clear`. -/
def clear (slot : Slot α) : Slot α :=
  { slot with alarm := slot.alarm.map fun _ => none }

/-- `Slot::poll`. -/
def poll (slot : Slot α) (now : ℕ) (fires : Bool) : Slot α × Poll (Except (Error α ε) Unit) :=
  match slot.state with
  | .pendingYield budget =>
    if budget.deadline ≤ now then
      ({ slot with state := .idle }, .ready (.error budget.fault.timeout))
    else ({ slot with state := .ready budget }, .ready (.ok ()))
  | .pendingSleep budget =>
    if budget.deadline ≤ now then
      ({ slot.clear with state := .idle }, .ready (.error budget.fault.timeout))
    else if slot.alarm.isSome && !fires then (slot, .pending)
    else ({ slot with state := .ready budget }, .ready (.ok ()))
  | _ => (slot, .ready (.ok ()))

/-- The part of `Slot::defer` with a budget. -/
def spend (clock : Clock) (limits : Contention) (slot : Slot α) (now : ℕ) (budget : Budget α) :
    Slot α × Poll (Except (Error α ε) Unit) :=
  if budget.remaining = 0 then (slot, .ready (.error budget.fault.busy))
  else
    let budget := { budget with remaining := budget.remaining - 1 }
    if budget.deadline ≤ now then (slot, .ready (.error budget.fault.timeout))
    else
      match slot.alarm, limits.delay with
      | some _, .sleep interval =>
        (⟨some (some (min (clock.clampAdd now interval) budget.deadline)), .pendingSleep budget⟩,
          .pending)
      | _, _ => ({ slot with state := .pendingYield budget }, .pending)

/-- `Slot::defer`. -/
def defer (clock : Clock) (limits : Contention) (slot : Slot α) (now : ℕ) (fault : Fault α)
    (fires : Bool) : Slot α × Poll (Except (Error α ε) Unit) :=
  match slot.state with
  | .idle =>
    slot.spend clock limits now ⟨clock.clampAdd now limits.window, fault, limits.retries⟩
  | .ready budget =>
    { slot with state := .idle }.spend clock limits now { budget with fault := fault }
  | _ => slot.poll now fires

/-- `Slot::wait`. -/
def wait (slot : Slot α) : Wait :=
  match slot.state with
  | .idle | .ready _ => .ready
  | _ => .pending

/-- `Slot::finish`. -/
def finish (slot : Slot α) : Slot α :=
  { slot.clear with state := .idle }

end Slot

/-! ## The lease -/

/-- `lease::Role`. -/
inductive Role where
  | opening
  | call

/-- `Role::FINISH`. -/
def Role.finish : Role → Bool
  | .opening => false
  | .call => true

/-- `Role::limits`. -/
def Role.limits (config : Config) : Role → Contention
  | .opening => config.opening
  | .call => config.call

/-- `Return::return_item`. -/
def Role.giveBack (role : Role) (slot : Slot α) : Slot α :=
  if role.finish then slot.finish else slot

/-! ## The call -/

/-- `stmt::Step`. -/
inductive Step where
  | row
  | done
  deriving DecidableEq

/-- What one round of a call meets : the reading of the clock when it polls the slot and whether
the alarm has fired, what comes of the step, of the check of the transaction and of the guard, and
the reading of the clock when it waits and whether the alarm has fired then. -/
structure Turn (α ε : Type) where
  polled : ℕ
  fires : Bool
  stepped : Except (Error α ε) Step
  transaction : Except (Error α ε) Unit
  guarded : Bool
  deferred : ℕ
  refires : Bool

/-- The front of a round of `State::poll` : the wait, if there is one. -/
def resume (slot : Slot α) (turn : Turn α ε) : Slot α × Poll (Except (Error α ε) Unit) :=
  match slot.wait with
  | .ready => (slot, .ready (.ok ()))
  | .pending => slot.poll turn.polled turn.fires

/-- The rest of a round, behind the step. -/
def settle (clock : Clock) (limits : Contention) (slot : Slot α) (turn : Turn α ε) :
    Slot α × Option (Poll (Except (Error α ε) Step)) :=
  match turn.stepped with
  | .error (.busy action code) =>
    match turn.transaction with
    | .error error => (slot, some (.ready (.error error)))
    | .ok () =>
      if turn.guarded then
        match slot.defer clock limits turn.deferred (Fault.new action code) turn.refires with
        | (slot, .pending) => (slot, some .pending)
        | (slot, .ready (.error error)) => (slot, some (.ready (.error error)))
        | (slot, .ready (.ok ())) => (slot, none)
      else (slot, some (.ready (.error (.busy action code))))
  | result => (slot, some (.ready result))

/-- A round of the loop of `State::poll`. Without a result the loop goes round again. -/
def round (clock : Clock) (limits : Contention) (slot : Slot α) (turn : Turn α ε) :
    Slot α × Option (Poll (Except (Error α ε) Step)) :=
  match resume slot turn with
  | (slot, .pending) => (slot, some .pending)
  | (slot, .ready (.error error)) => (slot, some (.ready (.error error)))
  | (slot, .ready (.ok ())) => settle clock limits slot turn

/-- `State::poll`, as far as the turns go. -/
def poll (clock : Clock) (limits : Contention) : Slot α → List (Turn α ε) →
    Option (Slot α × Poll (Except (Error α ε) Step))
  | _, [] => none
  | slot, turn :: turns =>
    match round clock limits slot turn with
    | (slot, some result) => some (slot, result)
    | (slot, none) => poll clock limits slot turns

end Cartel.Sqlite.Retry
