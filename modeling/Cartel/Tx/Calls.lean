import Cartel.Lib.Nested
import Cartel.Tx.Work

/-!
# Calls on a connection

Transactions and savepoints are made with six fixed statements on a native connection. Of that
connection the model keeps what the documentation of SQLite says about them (`Native`) : the
committed contents, the contents it works on, whether it is in a transaction, and the contents at
each savepoint, which all have the same name. What SQLite makes of a step is not up to the source
(`Fate`) : it may be busy, fail, roll the whole transaction back, and a control that fails may
leave anything behind or may have taken effect all the same.

A call first drains the cleanup that is owed, one control at a time (`World.advance`), then binds
its statement (`World.prepare`), steps it until it is done and resets it (`World.step`,
`World.finish`). The calls of the savepoints' own `commit` and `rollback` do this once for each
savepoint above their own.

The log is a record for the proofs : what the program has written and what became of its scopes.
-/

namespace Cartel.Sqlite.Tx

open Cartel.Lib (Event)

variable {D : Type}

/-! ## The native connection -/

/-- The contents and transactions of a connection. -/
structure Native (D : Type) where
  committed : D
  contents : D
  active : Bool
  saves : List D

/-- What a step that is not a control's success leaves behind : nothing, a write, something else
altogether, the effect of the control all the same, or no transaction. -/
inductive Left (D : Type) where
  | same
  | wrote (contents : D)
  | torn (contents : D) (saves : List D)
  | took
  | undone

/-- What SQLite makes of a step : the calls of the progress handler, the result, and what it
leaves. -/
structure Fate (D : Type) where
  ticks : ℕ
  result : Except ℤ Retry.Step
  left : Left D

namespace Native

/-- A connection in no transaction. -/
def new (contents : D) : Native D :=
  ⟨contents, contents, false, []⟩

/-- A control may run : `BEGIN` outside a transaction, the others inside, and those that name a
savepoint with one open. -/
def Legal (native : Native D) : Control → Prop
  | .begin => native.active = false
  | .commit | .rollback | .savepoint => native.active = true
  | .release | .rollbackTo => native.active = true ∧ native.saves ≠ []

instance (native : Native D) (control : Control) : Decidable (native.Legal control) := by
  cases control <;> unfold Legal <;> infer_instance

/-- The effect of a control. -/
def run (native : Native D) : Control → Native D
  | .begin => { native with active := true }
  | .commit => ⟨native.contents, native.contents, false, []⟩
  | .rollback => ⟨native.committed, native.committed, false, []⟩
  | .savepoint => { native with saves := native.contents :: native.saves }
  | .release => { native with saves := native.saves.tail }
  | .rollbackTo => { native with contents := native.saves.headD native.contents }

/-- What a step leaves behind. Outside a transaction a write is committed. -/
def leave (native : Native D) (effect : Native D) : Left D → Native D
  | .same => native
  | .wrote contents =>
    if native.active then { native with contents := contents } else .new contents
  | .torn contents saves => { native with contents := contents, saves := saves }
  | .took => effect
  | .undone => .new native.committed

/-- A step of a control, under the permission the authorizer gives : refused if it is not granted
(`SQLITE_AUTH`) or has nothing to run on (`SQLITE_ERROR`). -/
def control (native : Native D) (control : Control) (permission : Permission) (fate : Fate D) :
    Native D × Except ℤ Retry.Step :=
  if permission = .denied then (native, .error 23)
  else if native.Legal control then
    match fate.result with
    | .ok _ => (native.run control, .ok .done)
    | .error code => (native.leave (native.run control) fate.left, .error code)
  else (native, .error 1)

/-- A step of a statement of the program. -/
def plain (native : Native D) (fate : Fate D) : Native D × Except ℤ Retry.Step :=
  (native.leave native fate.left, fate.result)

/-- A step of a statement, the program's own or a control. -/
def step (native : Native D) (statement : Option Control) (permission : Permission)
    (fate : Fate D) : Native D × Except ℤ Retry.Step :=
  match statement with
  | none => native.plain fate
  | some c => native.control c permission fate

/-- What of a step goes into the log. -/
def event (native : Native D) (statement : Option Control) (permission : Permission)
    (fate : Fate D) : List (Event D) :=
  match statement, fate.left with
  | none, .wrote contents => [.wrote contents]
  | some .commit, left =>
    if permission = .denied ∨ ¬ native.Legal .commit then []
    else
      match fate.result, left with
      | .ok _, _ => [.committed]
      | .error _, .took => [.committed]
      | _, _ => []
  | _, _ => []

end Native

/-! ## The state of a program -/

/-- The calls of a program on its innermost scope. -/
inductive Call where
  | query
  | begin
  | commit
  | rollback
  | savepoint
  | saveCommit
  | saveRollback
  deriving DecidableEq

/-- The `stmt::access::Access` of a call. -/
inductive Access where
  | plain
  | control (retry : Retry)
  | permit (required : Count)
  | completion (release : Option Count) (done : Bool)
  deriving DecidableEq

namespace Access

/-- `Access::AUTHORIZATION` : whether it is `Control`. -/
def isControl : Access → Bool
  | .plain => false
  | _ => true

/-- `Access::retry`. -/
def retry : Access → Retry
  | .control retry => retry
  | _ => .denied

/-- `Access::busy`, in a transaction or not. -/
def busy (access : Access) (fault : Fault) (active : Bool) : Error :=
  match active, access.retry with
  | true, .denied => fault.transaction
  | _, _ => fault.busy

end Access

/-- `machine::Active` : a bound statement, with a row outstanding or not. -/
structure Active where
  statement : Option Control
  access : Access
  row : Bool
  deriving DecidableEq

/-- A call in flight, with its statement once that is bound. -/
structure Op where
  call : Call
  active : Option Active
  deriving DecidableEq

/-- An open transaction : the failure it has recorded, and its savepoints, the innermost first. -/
structure Scope where
  failed : Option Fault
  saves : List Count

/-- The limits of `config::Config` : the savepoints, and the quotas of a call and of a cleanup. -/
structure Config where
  savepoints : Count
  call : ℕ
  cleanup : ℕ
  call_pos : 0 < call
  cleanup_pos : 0 < cleanup

/-- A connection, the record of the work on it, and the scopes and the call of a program. -/
structure World (D : Type) where
  native : Native D
  work : Work
  scope : Option Scope
  op : Option Op
  reply : Option (Except Error Unit)
  log : List (Event D)

namespace World

/-- A connection that was just opened. -/
def new (contents : D) : World D :=
  ⟨.new contents, .new, none, none, none, []⟩

/-- The world with another word for the cleanup owed. -/
def owe (world : World D) (pending : ℕ) : World D :=
  { world with work := { world.work with pending := pending } }

/-- The world with another meter. -/
def metered (world : World D) (meter : Meter) : World D :=
  { world with work := { world.work with meter := meter } }

/-- The failure the open transaction has recorded. -/
def failed (world : World D) : Option Fault :=
  world.scope.bind Scope.failed

/-- The failure is recorded in the open transaction. -/
def fail (world : World D) (fault : Fault) : World D :=
  { world with scope := world.scope.map fun scope => { scope with failed := some fault } }

/-! ## Errors in a transaction -/

/-- Whether a call carries the failure cell of its transaction (`exec::Tx`). -/
def tx (world : World D) : Call → Bool
  | .begin | .rollback => false
  | .query => world.scope.isSome
  | _ => true

/-- `Tx::check`. -/
def check (world : World D) (tx : Bool) : Except Error Unit :=
  if tx then
    match world.failed with
    | some fault => .error (Fault.transaction fault)
    | none => .ok ()
  else .ok ()

/-- `Tx::rollback`. -/
def checkRollback (world : World D) : Except Error Unit :=
  match world.failed with
  | some fault => if fault.aborted then .error (Fault.transaction fault) else .ok ()
  | none => .ok ()

/-- `Tx::error`. -/
def error (world : World D) (tx : Bool) (access : Access) (action : Action) (code : ℤ) :
    World D × Error :=
  let fault := Fault.new action code
  let busy := primary code = sqliteBusy
  let control := access.isControl
  if ¬tx ∧ ¬busy ∧ ¬control then (world, fault.error)
  else
    let active := world.native.active
    let owing :=
      if active ∧ control ∧ ¬busy then world.owe (Pending.transaction world.work.pending)
      else world
    let marked :=
      if tx then
        if ¬active ∨ (control ∧ ¬busy) then owing.fail fault.abort
        else if busy ∧ access.retry = .denied then owing.fail fault
        else owing
      else owing
    (marked, if busy then access.busy fault active else fault.error)

/-- `Prepared::step`. -/
def stepNative (world : World D) (statement : Option Control) (access : Access) (tx : Bool)
    (fate : Fate D) : World D × Except Error Retry.Step :=
  let permission := world.work.meter.permission
  let stepped := world.native.step statement permission fate
  let world' :=
    { world.metered (world.work.meter.ticks fate.ticks).1 with
      native := stepped.1
      log := world.log ++ world.native.event statement permission fate }
  match stepped.2 with
  | .ok step => (world', .ok step)
  | .error code =>
    ((world'.error tx access .step code).1, .error (world'.error tx access .step code).2)

/-- `State::step`, `Guard::check` left aside : a control runs with the permission granted. -/
def stepAuthorized (world : World D) (statement : Option Control) (access : Access) (tx : Bool)
    (fate : Fate D) : World D × Except Error Retry.Step :=
  if access.isControl then
    let stepped := (world.metered world.work.meter.grant).stepNative statement access tx fate
    (stepped.1.metered stepped.1.work.meter.deny, stepped.2)
  else world.stepNative statement access tx fate

/-- `Guard::check`. -/
def guard {τ : Type} (world : World D) (result : Except Error τ) : Except Error τ :=
  if world.work.meter.exhausted then limit result else result

/-! ## Cleanup -/

/-- `Run::advance`, with `Controls::execute`. It does not return where the source would read an
empty option unchecked. -/
def advance (config : Config) (world : World D) (fate : Fate D) :
    Option (World D × Except Error Status) :=
  match Pending.control world.work.pending with
  | none => some (world, .ok .idle)
  | some cleanup =>
    match world.work.meter.cleanup config.cleanup with
    | .error error => some (world, .error error)
    | .ok meter =>
      let control := Pending.cleanup cleanup
      let stepped := (world.metered meter).stepAuthorized (some control)
        (.control control.retry) false fate
      let world' := stepped.1
      match world'.guard stepped.2 with
      | .error error => some (world', .error error)
      | .ok _ =>
        match Pending.complete cleanup world'.work.depth with
        | none => none
        | some (pending, depth) =>
          let status := Pending.status pending
          let meter := match status with
            | .idle => world'.work.meter.finish
            | .pending => world'.work.meter
          some ({ world' with
            work := { world'.work with meter := meter, pending := pending, depth := depth } },
            .ok status)

/-! ## The statement of a call -/

/-- `Target::bind`, of a control : its access, and its statement. -/
def bind (config : Config) (world : World D) (call : Call) (bound : Except Error Unit) :
    Option (Except Error Active) :=
  match call with
  | .query => some (bound.map fun _ => ⟨none, .plain, false⟩)
  | .begin => some (.ok ⟨some .begin, .control Control.begin.retry, false⟩)
  | .commit => some (.ok ⟨some .commit, .control Control.commit.retry, false⟩)
  | .rollback => some (.ok ⟨some .rollback, .control Control.rollback.retry, false⟩)
  | .savepoint => some ((world.work.depth.check config.savepoints).map fun permit =>
      ⟨some .savepoint, .permit permit, false⟩)
  | .saveCommit | .saveRollback =>
    match world.work.depth, world.scope.bind fun scope => scope.saves.head? with
    | some current, some depth =>
      let done : Bool := current = depth
      if done ∧ call = .saveRollback then
        some (.ok ⟨some .rollbackTo, .completion none done, false⟩)
      else some (.ok ⟨some .release, .completion (some current) done, false⟩)
    | _, _ => none

/-- `Start::prepare`. It does not return where the source would read an empty option unchecked. -/
def prepare (config : Config) (world : World D) (call : Call) (bound : Except Error Unit) :
    Option (World D × Except Error Active) :=
  match world.check (world.tx call) with
  | .error error => some (world, .error error)
  | .ok () =>
    match world.work.begin config.call with
    | (work, .error error) => some ({ world with work := work }, .error error)
    | (work, .ok ()) =>
      let world' := { world with work := work }
      match world'.bind config call bound with
      | none => none
      | some (.error error) => some (world'.metered world'.work.meter.finish, .error error)
      | some (.ok active) => some (world', .ok active)

/-- `Access::complete`, with whether there is more to release. -/
def complete (world : World D) : Access → World D × Bool
  | .plain | .control _ => (world, true)
  | .permit required => ({ world with work := { world.work with depth := some required } }, true)
  | .completion none done => (world, done)
  | .completion (some current) done =>
    ({ world with work := { world.work with depth := current.prior } }, done)

/-- `State::reset`. Only a statement with a row outstanding can fail to be reset. -/
def reset (world : World D) (active : Active) (tx : Bool) (fate : Fate D) :
    World D × Option Error :=
  if active.row then
    let stepped := world.native.plain fate
    let world' :=
      { world with
        native := stepped.1
        log := world.log ++ world.native.event none .denied fate }
    match stepped.2 with
    | .ok _ => (world', none)
    | .error code =>
      let failed := world'.error tx active.access .reset code
      match failed.1.guard (.error failed.2 : Except Error Unit) with
      | .error error => (failed.1, some error)
      | .ok () => (failed.1, none)
  else (world, none)

/-- The guard of a call is dropped. -/
def drop (world : World D) : World D :=
  world.metered world.work.meter.finish

/-- `State::defer`. -/
def defer (world : World D) (error : Error) : World D :=
  { world with work := { world.work with health := world.work.health.defer error } }

/-- `Active::finish`. -/
def finish (world : World D) (active : Active) (tx : Bool) (result : Except Error Unit)
    (fate : Fate D) : World D × Except Error Bool :=
  match result, world.reset active tx fate with
  | .ok (), (world', none) =>
    ((world'.complete active.access).1.drop, .ok (world'.complete active.access).2)
  | .ok (), (world', some error) => (world'.drop, .error error)
  | .error error, (world', none) => (world'.drop, .error error)
  | .error error, (world', some reset) => ((world'.defer reset).drop, .error error)

/-- `Active::cancel`. -/
def cancel (world : World D) (active : Active) (tx : Bool) (fate : Fate D) : World D :=
  match world.reset active tx fate with
  | (world', none) => world'.drop
  | (world', some error) => (world'.defer error).drop

/-! ## The scopes -/

/-- The return of a transaction that was not ended by its own call (`Live::return_item` of
`tx`). -/
def returnTransaction (world : World D) : World D :=
  let work :=
    if (world.failed.map Retry.Fault.aborted).getD false then { world.work with depth := none }
    else { world.work with pending := Pending.transaction world.work.pending }
  { world with work := work, scope := none, log := world.log ++ [.ended] }

/-- The return of the innermost savepoint (`Live::return_item` of `save`). -/
def returnSavepoint (world : World D) : World D :=
  match world.scope with
  | some ⟨failed, depth :: saves⟩ =>
    let work := if failed.isNone then world.work.revert depth else world.work
    { world with work := work, scope := some ⟨failed, saves⟩, log := world.log ++ [.dropped] }
  | _ => world

/-- The innermost savepoint is gone without a return, and the event that tells what became of
it. -/
def leaveSavepoint (world : World D) (event : Event D) : World D :=
  { world with
    scope := world.scope.map fun scope => { scope with saves := scope.saves.tail }
    log := world.log ++ [event] }

/-- The end of a call, with the scope it opens or closes. A call that has more to release starts
again. -/
def conclude (world : World D) (call : Call) (result : Except Error Bool) : World D :=
  let world' := { world with op := none, reply := some (result.map fun _ => ()) }
  match call, result with
  | .query, _ => world'
  | .begin, .ok _ => { world' with scope := some ⟨none, []⟩, log := world.log ++ [.began] }
  | .begin, .error _ => world'
  | .commit, result | .rollback, result =>
    if result.isOk ∨ world.native.active = false then
      { world' with
        work := { world.work with depth := none }
        scope := none
        log := world.log ++ [.ended] }
    else world'.returnTransaction
  | .savepoint, .ok _ =>
    { world' with
      scope := world.scope.map fun scope =>
        { scope with saves := world.work.depth.toList ++ scope.saves }
      log := world.log ++ [.opened] }
  | .savepoint, .error _ => world'
  | .saveCommit, .ok true => world'.leaveSavepoint .released
  | .saveRollback, .ok true => { world' with log := world.log ++ [.reverted] }
  | .saveCommit, .ok false | .saveRollback, .ok false => { world with op := some ⟨call, none⟩ }
  | .saveCommit, .error _ => world'.returnSavepoint
  | .saveRollback, .error _ => world'

/-- What a call gives back when it is cancelled. -/
def giveBack (world : World D) : Call → World D
  | .commit | .rollback => world.returnTransaction
  | .saveCommit => world.returnSavepoint
  | _ => world

end World

end Cartel.Sqlite.Tx
