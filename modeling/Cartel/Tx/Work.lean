import Cartel.Retry.Slot
import Mathlib.Data.Nat.Basic
import Mathlib.Tactic.Common

/-!
# What a connection keeps of its work

Beside the native connection stands a record of the work done on it (`Work`) : the meter of the
call in progress, the errors of failed cleanups, the number of savepoints that are open, and the
cleanup owed by scopes that were dropped, packed into one word (`Pending`).

The word is zero when nothing is owed, one when the transaction is to be rolled back, and all
ones once a cleanup has failed. Otherwise its low bit says whether the top savepoint is rolled
back already and only to be released, and the bits above give the shallowest savepoint to go.

Finalization errors (`Health::finalized`, `Health::take`) and the opening calls are left out.
-/

namespace Cartel.Sqlite.Tx

/-! ## Faults and errors -/

/-- The part of `sys::Action` that steps and resets statements. -/
inductive Action where
  | step
  | reset
  deriving DecidableEq

/-- `sys::Fault`. -/
abbrev Fault := Retry.Fault Action

/-- The part of `crate::Error` that has to do with transactions. An error of binding, reading or
collecting is `call`. -/
inductive Error where
  | sqlite (action : Action) (code : ℤ)
  | busy (action : Action) (code : ℤ)
  | locked (action : Action) (code : ℤ)
  | workLimit (action : Action) (code : ℤ)
  | workExhausted
  | transactionBusy (action : Action) (code : ℤ)
  | transactionAborted (action : Action) (code : ℤ)
  | requestTimeout (action : Action) (code : ℤ)
  | savepoints (required available : ℕ)
  | unexpectedRows
  | reentrantQuery
  | connectionPoisoned
  | call (number : ℕ)
  deriving DecidableEq

/-- `Code::primary` : the low eight bits of a two's complement word. -/
def primary (code : ℤ) : ℤ :=
  code % 256

/-- `SQLITE_BUSY`. -/
def sqliteBusy : ℤ := 5

/-- `SQLITE_LOCKED`. -/
def sqliteLocked : ℤ := 6

/-- `SQLITE_INTERRUPT`. -/
def sqliteInterrupt : ℤ := 9

namespace Fault

/-- `Fault::new`. -/
def new (action : Action) (code : ℤ) : Fault :=
  ⟨action, code, false⟩

/-- `Fault::abort`. -/
def abort (fault : Fault) : Fault :=
  { fault with aborted := true }

/-- `Fault::busy`. -/
def busy (fault : Fault) : Error :=
  .busy fault.action fault.code

/-- `Fault::error`. -/
def error (fault : Fault) : Error :=
  if primary fault.code = sqliteBusy then busy fault
  else if primary fault.code = sqliteLocked then .locked fault.action fault.code
  else .sqlite fault.action fault.code

/-- `Fault::transaction`. -/
def transaction (fault : Fault) : Error :=
  if fault.aborted then .transactionAborted fault.action fault.code
  else .transactionBusy fault.action fault.code

end Fault

/-- `guard::limit`. -/
def limit {τ : Type} : Except Error τ → Except Error τ
  | .error (.sqlite action code) =>
    if primary code = sqliteInterrupt then .error (.workLimit action code)
    else .error (.sqlite action code)
  | .error error => .error error
  | .ok _ => .error .workExhausted

/-! ## The number of savepoints -/

/-- `config::MAX_SAVEPOINTS`. -/
def maxSavepoints : ℕ :=
  (2 ^ 64 - 1) >>> 2

/-- `depth::Count` : a number of savepoints, at least one. -/
structure Count where
  get : ℕ
  pos : 1 ≤ get
  le : get ≤ maxSavepoints

namespace Count

theorem ext_get {count count' : Count} (h : count.get = count'.get) : count = count' := by
  rcases count with ⟨get, pos, le⟩
  rcases count' with ⟨get', pos', le'⟩
  obtain rfl : get = get' := h
  rfl

instance : DecidableEq Count := fun _ _ => decidable_of_iff _ ⟨ext_get, congrArg get⟩

/-- `NonZeroUsize::after` : one more than a number, within a capacity. -/
def after (capacity : Count) (current : ℕ) : Option Count :=
  if h : current + 1 ≤ capacity.get then
    some ⟨current + 1, Nat.le_add_left 1 _, h.trans capacity.le⟩
  else none

/-- `NonZeroUsize::prior` with `nonzero` : one less, unless nothing is left. -/
def prior (count : Count) : Option Count :=
  if h : 1 ≤ count.get - 1 then some ⟨count.get - 1, h, (Nat.sub_le _ _).trans count.le⟩ else none

end Count

/-- `depth::Depth`. -/
abbrev Depth := Option Count

namespace Depth

/-- The number of open savepoints. -/
def get (depth : Depth) : ℕ :=
  match depth with
  | some count => count.get
  | none => 0

/-- `Depth::check`. -/
def check (depth : Depth) (capacity : Count) : Except Error Count :=
  match capacity.after depth.get with
  | some required => .ok required
  | none => .error (.savepoints (depth.get + 1) capacity.get)

end Depth

/-! ## The controls -/

/-- `stmt::Control` : the fixed transaction statements. -/
inductive Control where
  | begin
  | commit
  | rollback
  | savepoint
  | release
  | rollbackTo
  deriving DecidableEq

/-- `access::Retry`. -/
inductive Retry where
  | denied
  | allowed
  deriving DecidableEq

/-- `Control::retry`. -/
def Control.retry : Control → Retry
  | .commit => .allowed
  | _ => .denied

/-! ## The cleanup owed -/

/-- `pending::Phase`. -/
inductive Phase where
  | rollback
  | release
  deriving DecidableEq

/-- `cleanup::Status`. -/
inductive Status where
  | idle
  | pending
  deriving DecidableEq

namespace Pending

/-- `NONE`. -/
def none : ℕ := 0

/-- `TX`. -/
def tx : ℕ := 1

/-- `FAILED` : `usize::MAX`. -/
def failed : ℕ := 2 ^ 64 - 1

/-- `TAG`. -/
def tag : ℕ := 1

/-- `Pending::encode`. -/
def encode (target : ℕ) (phase : Phase) : ℕ :=
  target <<< 1 % 2 ^ 64 ||| match phase with
    | .rollback => 0
    | .release => tag

/-- `Pending::control` : the cleanup to do, a word that is not zero. -/
def control (state : ℕ) : Option ℕ :=
  if state = failed then Option.none else if state = 0 then Option.none else some state

/-- `Pending::transaction`. -/
def transaction (state : ℕ) : ℕ :=
  if state ≠ failed then tx else state

/-- `Pending::savepoint`. -/
def savepoint (state : ℕ) (depth : Count) : ℕ :=
  if state = none then encode depth.get .rollback
  else if state = tx ∨ state = failed then state
  else
    let phase := if state &&& tag = 0 then Phase.rollback else .release
    encode (min (state >>> 1) depth.get) phase

/-- `Pending::complete`, with the depth it leaves. A release needs a savepoint : with none open,
the source reads an empty option unchecked. -/
def complete (cleanup : ℕ) (depth : Depth) : Option (ℕ × Depth) :=
  if cleanup = tx then some (none, .none)
  else if cleanup &&& tag = 0 then some (encode (cleanup >>> 1) .release, depth)
  else
    match depth with
    | .none => .none
    | some current =>
      let target := cleanup >>> 1
      some (if current.get = target then none else encode target .rollback, current.prior)

/-- `Pending::status`. -/
def status (state : ℕ) : Status :=
  if state = none ∨ state = failed then .idle else .pending

/-- `Cleanup::control`. -/
def cleanup (state : ℕ) : Control :=
  if state = tx then .rollback else if state &&& tag = 0 then .rollbackTo else .release

end Pending

/-! ## The meter -/

/-- `meter::Mode`. -/
inductive Mode where
  | idle
  | primary
  | cleanup
  deriving DecidableEq

/-- `meter::Permission`. -/
inductive Permission where
  | denied
  | granted
  deriving DecidableEq

/-- `meter::Meter`. -/
structure Meter where
  primary : ℕ
  mode : Mode
  permission : Permission

namespace Meter

/-- `Meter::new`. -/
def new : Meter :=
  ⟨0, .idle, .denied⟩

/-- `Meter::reset`. -/
def reset (meter : Meter) : Meter :=
  { meter with mode := .idle, permission := .denied }

/-- `Meter::begin`. -/
def begin (meter : Meter) (mode : Mode) (quota : ℕ) : Except Error Meter :=
  if meter.mode ≠ .idle then .error .reentrantQuery
  else .ok { meter with primary := quota, mode := mode }

/-- `Meter::begin_call`. -/
def beginCall (meter : Meter) (quota : ℕ) : Except Error Meter :=
  meter.begin .primary quota

/-- `Meter::cleanup`. -/
def cleanup (meter : Meter) (quota : ℕ) : Except Error Meter :=
  match meter.mode with
  | .cleanup => .ok meter
  | .idle => meter.begin .cleanup quota
  | .primary => .error .reentrantQuery

/-- `Meter::tick`, and whether it stops the statement. -/
def tick (meter : Meter) : Meter × Bool :=
  if meter.mode = .idle then (meter, false)
  else if meter.primary = 0 then (meter, true)
  else ({ meter with primary := meter.primary - 1 }, meter.primary - 1 = 0)

/-- The calls of the progress handler while a statement runs. The first that stops it is the
last. -/
def ticks (meter : Meter) : ℕ → Meter × Bool
  | 0 => (meter, false)
  | count + 1 =>
    if meter.tick.2 then meter.tick else meter.tick.1.ticks count

/-- `Meter::call_quota` : whether the quota is exhausted. -/
def exhausted (meter : Meter) : Bool :=
  meter.primary = 0

/-- `Meter::finish`. -/
def finish (meter : Meter) : Meter :=
  { meter with mode := .idle }

/-- The meter inside `Meter::run`. -/
def grant (meter : Meter) : Meter :=
  { meter with permission := .granted }

/-- The meter after `Meter::run`. -/
def deny (meter : Meter) : Meter :=
  { meter with permission := .denied }

end Meter

/-! ## The health of the connection -/

/-- `health::Mode`. -/
inductive Condition where
  | healthy
  | recoverable
  | nativeFirst
  | cleanupFirst
  deriving DecidableEq

/-- `health::Health`. -/
structure Health where
  mode : Condition
  native : Option Error
  cleanup : Option Error

namespace Health

/-- `Health::new`. -/
def new : Health :=
  ⟨.healthy, none, none⟩

/-- `Health::failed`, with the native error first. -/
def failedNative (health : Health) : Health × Error :=
  match health.native, health.cleanup with
  | some error, _ => ({ health with native := none }, error)
  | none, some error => ({ health with cleanup := none }, error)
  | none, none => (health, .connectionPoisoned)

/-- `Health::failed`, with the cleanup error first. -/
def failedCleanup (health : Health) : Health × Error :=
  match health.cleanup, health.native with
  | some error, _ => ({ health with cleanup := none }, error)
  | none, some error => ({ health with native := none }, error)
  | none, none => (health, .connectionPoisoned)

/-- `Health::check`, with the error it delivers. -/
def check (health : Health) : Health × Option Error :=
  match health.mode with
  | .healthy => (health, none)
  | .recoverable => ({ health with mode := .healthy, native := none }, health.native)
  | .nativeFirst => (health.failedNative.1, some health.failedNative.2)
  | .cleanupFirst => (health.failedCleanup.1, some health.failedCleanup.2)

/-- `Health::defer`. -/
def defer (health : Health) (error : Error) : Health :=
  { health with native := some error, mode := .recoverable }

/-- `Health::fail`. -/
def fail (health : Health) : Health :=
  match health.mode with
  | .healthy => { health with mode := .cleanupFirst }
  | .recoverable => { health with mode := .nativeFirst }
  | _ => health

/-- `Health::cleanup`. -/
def retain (health : Health) (error : Error) : Health :=
  { health with cleanup := some error }

end Health

/-! ## The record -/

/-- `work::Work`. -/
structure Work where
  meter : Meter
  health : Health
  pending : ℕ
  depth : Depth

namespace Work

/-- `Work::new`. -/
def new : Work :=
  ⟨.new, .new, Pending.none, none⟩

/-- `Work::fail_cleanup`. -/
def failCleanup (work : Work) : Work :=
  { meter := work.meter.reset
    health := work.health.fail
    pending := Pending.failed
    depth := none }

/-- `Work::revert`. -/
def revert (work : Work) (depth : Count) : Work :=
  { work with pending := Pending.savepoint work.pending depth }

/-- `Work::begin`. -/
def begin (work : Work) (quota : ℕ) : Work × Except Error Unit :=
  match work.health.check with
  | (health, some error) => ({ work with health := health }, .error error)
  | (health, none) =>
    match work.meter.beginCall quota with
    | .error error => ({ work with health := health }, .error error)
    | .ok meter => ({ work with health := health, meter := meter }, .ok ())

end Work

end Cartel.Sqlite.Tx
