import Cartel.Tx.Calls

/-!
# Runs of a program

A program has at most one transaction open on a connection, and calls its innermost scope, one
call at a time : that is what the borrows of the source leave it. A call in flight can be
cancelled at any point, and with no call in flight the innermost scope can be dropped, or if it is
a savepoint, forgotten. While no scope is open the runtime may go on with the cleanup itself.

`World.act` is what an action does. Where the source would read an empty option unchecked it has
no result. `World.Allowed` are the actions the borrows allow, with what the documentation of
SQLite says about a step : a progress handler that stops a statement makes it fail, a busy
statement has done nothing that a control could, and only controls touch savepoints. `Reached`
are the states of a run.

Forgetting a transaction or a call in flight is left out, and so is the shutdown of the
connection.
-/

namespace Cartel.Sqlite.Tx

open Cartel.Lib (Event)

variable {D : Type}

/-! ## Actions -/

/-- What happens next : a call is made, the call in flight does a piece of its work, or a scope
goes. A step comes with what SQLite makes of it and of a reset behind it, the outcome of a
finished query, and what the retries of a busy statement come to. -/
inductive Act (D : Type) where
  | call (call : Call)
  | clean (fate : Fate D)
  | prepare (bound : Except Error Unit)
  | step (fate reset : Fate D) (outcome wait : Except Error Unit)
  | finish (reset : Fate D) (outcome : Except Error Unit)
  | cancel (reset : Fate D)
  | drop
  | forget
  | park (fate : Fate D)

namespace World

/-- A call is made and polled once : the calls that check their transaction first may end at
once. -/
def call (world : World D) (call : Call) : World D :=
  let started := { world with op := some ⟨call, none⟩, reply := none }
  match call with
  | .commit =>
    match world.check true with
    | .ok () => started
    | .error error => { world with reply := some (.error error) }.returnTransaction
  | .rollback =>
    match world.checkRollback with
    | .ok () => started
    | .error error => { world with reply := some (.error error) }.returnTransaction
  | .savepoint =>
    match world.check true with
    | .ok () => started
    | .error error => { world with reply := some (.error error) }
  | _ => started

/-- A round of `Run::poll`, for a call that waits for its cleanup. -/
def clean (config : Config) (world : World D) (call : Call) (fate : Fate D) :
    Option (World D) :=
  match world.advance config fate with
  | none => none
  | some (world', .ok _) => some world'
  | some (world', .error error) =>
    some ({ world' with work := world'.work.failCleanup }.conclude call (.error error))

/-- `Run::park`. -/
def park (config : Config) (world : World D) (fate : Fate D) : Option (World D) :=
  match world.advance config fate with
  | none => none
  | some (world', .ok _) => some world'
  | some (world', .error error) =>
    let work := world'.work.failCleanup
    some { world' with work := { work with health := work.health.retain error } }

/-- The statement of a call is bound, or the call ends. -/
def start (config : Config) (world : World D) (call : Call) (bound : Except Error Unit) :
    Option (World D) :=
  match world.prepare config call bound with
  | none => none
  | some (world', .ok active) => some { world' with op := some ⟨call, some active⟩ }
  | some (world', .error error) => some (world'.conclude call (.error error))

/-- A call ends, with its statement reset. -/
def settle (world : World D) (call : Call) (active : Active) (result : Except Error Unit)
    (reset : Fate D) : World D :=
  let finished := world.finish active (world.tx call) result reset
  finished.1.conclude call finished.2

/-- A round of `State::poll`, up to the next row, the next wait or the end of the call. -/
def poll (world : World D) (call : Call) (active : Active) (fate reset : Fate D)
    (outcome wait : Except Error Unit) : World D :=
  let stepped := world.stepAuthorized active.statement active.access (world.tx call) fate
  let world' := stepped.1
  let halted := { active with row := false }
  match world'.guard stepped.2, stepped.2 with
  | .ok .row, _ => { world' with op := some ⟨call, some { active with row := true }⟩ }
  | .ok .done, _ =>
    world'.settle call halted (if call = .query then outcome else .ok ()) reset
  | .error (.busy action code), _ =>
    match world'.check (world'.tx call) with
    | .error error => world'.settle call halted (.error error) reset
    | .ok () =>
      if world'.work.meter.exhausted then
        world'.settle call halted (.error (.busy action code)) reset
      else
        match wait with
        | .ok () => { world' with op := some ⟨call, some halted⟩ }
        | .error error => world'.settle call halted (.error error) reset
  | .error error, .ok .row =>
    world'.settle call { active with row := true } (.error error) reset
  | .error error, _ => world'.settle call halted (.error error) reset

/-- What an action does. -/
def act (config : Config) (world : World D) : Act D → Option (World D)
  | .call call => some (world.call call)
  | .clean fate => world.op.bind fun op => world.clean config op.call fate
  | .prepare bound => world.op.bind fun op => world.start config op.call bound
  | .step fate reset outcome wait =>
    world.op.bind fun op => op.active.map fun active =>
      world.poll op.call active fate reset outcome wait
  | .finish reset outcome =>
    world.op.bind fun op => op.active.map fun active =>
      world.settle op.call active outcome reset
  | .cancel reset =>
    world.op.map fun op =>
      let cancelled := match op.active with
        | none => world
        | some active => world.cancel active (world.tx op.call) reset
      { cancelled with op := none }.giveBack op.call
  | .drop =>
    world.scope.map fun scope =>
      match scope.saves with
      | [] => world.returnTransaction
      | _ :: _ => world.returnSavepoint
  | .forget => some (world.leaveSavepoint .released)
  | .park fate => world.park config fate

/-! ## Which actions are allowed -/

/-- The scope a call is made on. -/
def Offers (world : World D) : Call → Prop
  | .query => True
  | .begin => world.scope = none
  | .commit | .rollback => ∃ failed, world.scope = some ⟨failed, []⟩
  | .savepoint => world.scope ≠ none
  | .saveCommit | .saveRollback =>
    ∃ failed depth saves, world.scope = some ⟨failed, depth :: saves⟩

end World

/-- What the documentation of SQLite says about a step of a control : a stopped one fails, a busy
one has left the transaction as it was, and a busy rollback has not rolled it back. -/
structure Fate.OfControl (fate : Fate D) (meter : Meter) (native : Native D) (control : Control) :
    Prop where
  stop : (meter.ticks fate.ticks).2 = true → ∃ code, fate.result = .error code
  busy : ∀ code, fate.result = .error code → primary code = sqliteBusy →
    fate.left = .same ∨ (fate.left = .undone ∧ control ≠ .rollback)
  left : ∀ contents, fate.left ≠ .wrote contents
  torn : ∀ contents saves, fate.left = .torn contents saves → native.active = true

/-- What the documentation of SQLite says about a step or a reset of another statement : it
leaves the savepoints alone, and only fails when it rolls its transaction back. -/
structure Fate.OfQuery (fate : Fate D) : Prop where
  left : fate.left = .same ∨ (∃ contents, fate.left = .wrote contents) ∨
    (fate.left = .undone ∧ ∃ code, fate.result = .error code)

/-- What the documentation of SQLite says about a step of a statement. -/
def Fate.Sound (fate : Fate D) (meter : Meter) (native : Native D) : Option Control → Prop
  | none => fate.OfQuery
  | some control => fate.OfControl meter native control

namespace World

/-- The cleanup a call or the runtime is to go on with, and the meter it runs on. -/
def Cleans (config : Config) (world : World D) (fate : Fate D) : Prop :=
  Pending.status world.work.pending = .pending ∧
    ∀ meter, world.work.meter.cleanup config.cleanup = .ok meter →
      fate.OfControl meter world.native (Pending.cleanup world.work.pending)

/-- The actions that are allowed. An error of a query's own is one of binding, reading or
collecting, and the wait of a busy statement ends in a timeout or with the statement still
busy. -/
def Allowed (config : Config) (world : World D) : Act D → Prop
  | .call call => world.op = none ∧ world.Offers call
  | .clean fate => (∃ call, world.op = some ⟨call, none⟩) ∧ world.Cleans config fate
  | .prepare bound => (∃ call, world.op = some ⟨call, none⟩) ∧
      Pending.status world.work.pending = .idle ∧
      ∀ error, bound = .error error → ∃ number, error = .call number
  | .step fate reset outcome wait => ∃ call active, world.op = some ⟨call, some active⟩ ∧
      fate.Sound world.work.meter world.native active.statement ∧ reset.OfQuery ∧
      (∀ error, outcome = .error error → ∃ number, error = .call number) ∧
      ∀ error, wait = .error error → ∃ action code,
        error = .busy action code ∨ error = .requestTimeout action code
  | .finish reset outcome => ∃ active, world.op = some ⟨.query, some active⟩ ∧
      reset.OfQuery ∧ ∀ error, outcome = .error error → ∃ number, error = .call number
  | .cancel reset => ∃ op, world.op = some op ∧ reset.OfQuery
  | .drop => world.op = none ∧ world.scope ≠ none
  | .forget => world.op = none ∧ ∃ failed depth saves, world.scope = some ⟨failed, depth :: saves⟩
  | .park fate => world.op = none ∧ world.scope = none ∧ world.Cleans config fate

end World

/-- The states of a run, from a connection that was just opened. -/
inductive Reached (config : Config) (contents : D) : World D → Prop where
  | new : Reached config contents (.new contents)
  | act {world world' : World D} (h : Reached config contents world) {act : Act D}
      (hallowed : world.Allowed config act) (hact : world.act config act = some world') :
      Reached config contents world'

end Cartel.Sqlite.Tx
