import Cartel.Tx.Acts

/-!
# The rounds of a statement

A statement is stepped until it is done, fails or has to wait, and is reset. The invariant holds
through each of these, for the statements of the program and for the controls of its calls.
-/

namespace Cartel.Sqlite.Tx

open Cartel.Lib (Event Nested Frames)

variable {D : Type} {config : Config} {contents : D} {world world' : World D} {debt : Debt}
  {call : Call} {active : Active} {fate reset : Fate D} {error : Error} {control : Control}
  {permission : Permission} {action : Action} {code : ℤ} {fault : Fault}

/-- What a step leaves to rely on while nothing is owed. -/
structure Kept (contents : D) (world : World D) : Prop where
  base : world.native.committed = (world.nested contents).base
  settled : world.native.Settled
  word : world.work.pending = Debt.none.word
  sane : ¬ (world.work.health.mode = .nativeFirst ∨ world.work.health.mode = .cleanupFirst)

theorem Core.kept (h : Core contents world .none) : Kept contents world :=
  ⟨h.base, h.settled, h.word, fun hmode => by cases h.poisoned.mpr hmode⟩

theorem Kept.congr (h : Kept contents world)
    (hbase : world'.native.committed = (world'.nested contents).base)
    (hsettled : world'.native.Settled) (hwork : world'.work.pending = world.work.pending)
    (hhealth : world'.work.health = world.work.health) : Kept contents world' :=
  ⟨hbase, hsettled, hwork.trans h.word, hhealth ▸ h.sane⟩

theorem Kept.core (h : Kept contents world)
    (hstage : Stage world.native world.work.depth world.scope (world.nested contents).frames
      .none) : Core contents world .none :=
  ⟨h.base, h.settled, h.word, hstage, ⟨by rintro ⟨⟩, fun hmode => absurd hmode h.sane⟩⟩

/-! ## Transactions that fail -/

section Mark

variable {failed : Option Fault} {saves : List Count}

theorem World.fail_scope (hscope : world.scope = some ⟨failed, saves⟩) :
    (world.fail fault).scope = some ⟨some fault, saves⟩ := by
  unfold World.fail
  rw [hscope]
  rfl

/-- The transaction is gone, and the program will be told. -/
theorem Kept.gone (h : Kept contents world) (hscope : world.scope = some ⟨failed, saves⟩)
    (hactive : world.native.active = false) :
    Core contents (world.fail fault.abort) .none :=
  Kept.core ⟨h.base, h.settled, h.word, h.sane⟩ (.aborted (World.fail_scope hscope) rfl hactive)

/-- The transaction is busy, and can only be rolled back. -/
theorem Kept.blocked (h : Kept contents world) (hscope : world.scope = some ⟨failed, saves⟩)
    (hactive : world.native.active = true) (haborted : fault.aborted = false) :
    Core contents (world.fail fault) .none :=
  Kept.core ⟨h.base, h.settled, h.word, h.sane⟩ (.busy (World.fail_scope hscope) haborted hactive)

/-- The transaction is to be rolled back, and the program will be told. -/
theorem Kept.broken (h : Kept contents world) (hscope : world.scope = some ⟨failed, saves⟩)
    (hactive : world.native.active = true) :
    Core contents ((world.owe (Pending.transaction world.work.pending)).fail fault.abort)
      .transaction := by
  refine ⟨h.base, h.settled, ?_, .abandoned (World.fail_scope hscope) rfl hactive,
    ⟨by rintro ⟨⟩, fun hmode => absurd hmode h.sane⟩⟩
  show Pending.transaction world.work.pending = _
  rw [h.word]
  rfl

end Mark

theorem World.Offers.fail (h : world.Offers call) : (world.fail fault).Offers call := by
  unfold World.Offers World.fail at *
  rcases hscope : world.scope with _ | ⟨failed, saves⟩
  · rw [hscope] at h
    exact h
  · rw [hscope] at h
    cases call with
    | query => trivial
    | begin => cases h
    | savepoint => simp
    | commit | rollback =>
      obtain ⟨_, heq⟩ := h
      obtain ⟨-, rfl⟩ := Scope.mk.inj (Option.some.inj heq)
      exact ⟨_, rfl⟩
    | saveCommit | saveRollback =>
      obtain ⟨_, _, _, heq⟩ := h
      obtain ⟨-, rfl⟩ := Scope.mk.inj (Option.some.inj heq)
      exact ⟨_, _, _, rfl⟩

/-! ## Statements of the program -/

/-- A statement of the program has taken a step. -/
structure World.Ran (world world' : World D) (permission : Permission) (fate : Fate D) : Prop where
  native : world'.native = (world.native.plain fate).1
  log : world'.log = world.log ++ world.native.event none permission fate
  pending : world'.work.pending = world.work.pending
  depth : world'.work.depth = world.work.depth
  health : world'.work.health = world.work.health
  scope : world'.scope = world.scope

/-- A step of a statement stays in its stage, unless it has lost the transaction. -/
theorem Core.ran (hcore : Core contents world .none) (hfate : fate.OfQuery)
    (hfailed : world.failed = none) (hran : world.Ran world' permission fate) :
    Kept contents world' ∧ (Core contents world' .none ∨
      (∃ code, fate.result = .error code) ∧ world.scope ≠ none ∧
        world'.native.active = false) := by
  have hnested : world'.nested contents =
      (world.nested contents).run (world.native.event none permission fate) := by
    unfold World.nested
    rw [hran.log, Nested.run_append]
  have hbase := hcore.base
  have hsettled := hcore.settled
  have hstage := hcore.stage
  rcases hscope : world.scope with _ | ⟨failed, saves⟩
  · rw [hscope] at hstage
    obtain ⟨hactive, hdepth, hframes⟩ := hstage.exists_idle
    obtain ⟨hsettled', hbase'⟩ := Native.plain_base hsettled hfate hbase (fun _ => hframes)
      (fun h => by cases hactive.symm.trans h) permission
    have hkept : Kept contents world' := hcore.kept.congr (by rw [hran.native, hnested, hbase'])
      (hran.native ▸ hsettled') hran.pending hran.health
    refine ⟨hkept, Or.inl (hkept.core ?_)⟩
    rw [hran.native, hran.depth, hran.scope, hscope, hnested]
    rcases hfate.left with hleft | ⟨contents', hleft⟩ | ⟨hleft, -⟩
    · simp only [Native.plain, Native.event, hleft, Native.leave, Nested.run_nil]
      exact .idle rfl hactive hdepth hframes
    · simp only [Native.plain, Native.event, hleft, Native.leave, Nested.run_cons, Nested.run_nil,
        hactive]
      refine .idle rfl rfl hdepth ?_
      rcases hn : world.nested contents with ⟨base, frames⟩
      rw [hn] at hframes
      obtain rfl : frames = [] := hframes
      rfl
    · simp only [Native.plain, Native.event, hleft, Native.leave, Nested.run_nil]
      exact .idle rfl rfl hdepth hframes
  · rw [World.failed, hscope] at hfailed
    obtain rfl : failed = none := hfailed
    rw [hscope] at hstage
    obtain ⟨hactive, hdepth, rest, hsaves, hframes⟩ := hstage.exists_running
    obtain ⟨hsettled', hbase'⟩ := Native.plain_base hsettled hfate hbase
      (fun h => by cases hactive.symm.trans h) (fun _ => by rw [hframes]; simp) permission
    have hkept : Kept contents world' := hcore.kept.congr (by rw [hran.native, hnested, hbase'])
      (hran.native ▸ hsettled') hran.pending hran.health
    refine ⟨hkept, ?_⟩
    rcases hfate.left with hleft | ⟨contents', hleft⟩ | ⟨hleft, hresult⟩
    · refine Or.inl (hkept.core ?_)
      rw [hran.native, hran.depth, hran.scope, hscope, hnested]
      simp only [Native.plain, Native.event, hleft, Native.leave, Nested.run_nil]
      exact hstage
    · refine Or.inl (hkept.core ?_)
      rw [hran.native, hran.depth, hran.scope, hscope, hnested]
      simp only [Native.plain, Native.event, hleft, Nested.run_cons, Nested.run_nil]
      exact hstage.wrote
    · refine Or.inr ⟨hresult, by simp, ?_⟩
      rw [hran.native]
      simp only [Native.plain, hleft, Native.leave]
      rfl

/-- A statement that fails leaves its transaction running, busy or gone. -/
theorem Core.ran_error (hcore : Core contents world .none) (hfate : fate.OfQuery)
    (hfailed : world.failed = none) (hran : world.Ran world' permission fate) :
    Core contents (world'.error world.scope.isSome .plain action code).1 .none := by
  obtain ⟨hkept, hran'⟩ := hcore.ran hfate hfailed hran
  rcases hscope : world.scope with _ | ⟨failed, saves⟩
  · rw [show (Option.none : Option Scope).isSome = false from rfl, World.error_query rfl]
    rcases hran' with hcore' | ⟨-, hopen, -⟩
    · exact hcore'
    · exact absurd hscope hopen
  · rw [show (some (Scope.mk failed saves)).isSome = true from rfl, World.error_query_tx rfl rfl]
    have hscope' := hran.scope.trans hscope
    split_ifs with hactive hbusy
    · exact hkept.gone hscope' hactive
    · exact hkept.blocked hscope' (by simpa using hactive) rfl
    · rcases hran' with hcore' | ⟨-, -, hinactive⟩
      · exact hcore'
      · exact absurd hinactive hactive

/-- A statement that takes a step stays in its stage. -/
theorem Core.ran_ok (hcore : Core contents world .none) (hfate : fate.OfQuery)
    (hfailed : world.failed = none) (hran : world.Ran world' permission fate) {step : Retry.Step}
    (hresult : fate.result = .ok step) : Core contents world' .none := by
  rcases (hcore.ran hfate hfailed hran).2 with hcore' | ⟨⟨code, hcode⟩, -⟩
  · exact hcore'
  · cases hresult.symm.trans hcode

/-! ## The end of a query -/

/-- A query is over, whatever becomes of it. -/
theorem Inv.ended (result : Except Error Unit) (hclean : Clean world)
    (hcore : Core contents world debt)
    (hresult : ∀ error, result = .error error → World.Honest error) :
    Inv config contents { world.drop with op := none, reply := some result } := by
  refine .rest ⟨hclean.denied, hclean.native, hclean.cleanup, fun error herror => ?_⟩
    (hcore.congr rfl rfl rfl rfl rfl rfl) (.of_idle rfl) rfl
  exact hresult error (Option.some.inj herror)

/-- An error is kept for the next call. -/
theorem Clean.defer (h : Clean world) (hhonest : World.Honest error) :
    Clean (world.defer error) := by
  refine ⟨h.denied, fun error' herror => ?_, h.cleanup, h.reply⟩
  obtain rfl : error = error' := Option.some.inj herror
  exact hhonest

theorem Core.defer (h : Core contents world .none) : Core contents (world.defer error) .none :=
  ⟨h.base, h.settled, h.word, h.stage,
    ⟨by rintro ⟨⟩, fun hmode => by rcases hmode with hmode | hmode <;> cases hmode⟩⟩

theorem Clean.marked {tx : Bool} {access : Access} (h : Clean world) :
    Clean (world.error tx access action code).1 :=
  h.congr (by rw [World.error_meter]) World.error_health
    (by rw [World.error_reply]; exact h.reply)

/-- The reset of a query stays in its stage, and what it tells is honest. -/
theorem Core.reset_query (hcore : Core contents world .none) (hclean : Clean world)
    (hfailed : active.row = true → world.failed = none) (hreset : reset.OfQuery)
    (haccess : active.access = .plain) : ∃ world' told,
      world.reset active (world.tx .query) reset = (world', told) ∧
      Core contents world' .none ∧ Clean world' ∧
      ∀ error, told = some error → World.Honest error := by
  unfold World.reset
  rcases hrow : active.row with _ | _
  · exact ⟨world, none, rfl, hcore, hclean, by rintro _ ⟨⟩⟩
  rw [if_pos rfl, haccess]
  let after : World D :=
    { world with
      native := (world.native.plain reset).1
      log := world.log ++ world.native.event none .denied reset }
  have hran : world.Ran after .denied reset := ⟨rfl, rfl, rfl, rfl, rfl, rfl⟩
  have hclean' : Clean after := ⟨hclean.denied, hclean.native, hclean.cleanup, hclean.reply⟩
  have hplain : (world.native.plain reset).2 = reset.result := rfl
  dsimp only
  rw [hplain]
  rcases hresult : reset.result with code | step
  · obtain ⟨error, hguard, hhonest, -⟩ := World.guard_error
      (after.error (world.tx .query) .plain .reset code).1 Unit
      (after.error (world.tx .query) .plain .reset code).2
    refine ⟨(after.error (world.tx .query) .plain .reset code).1, some error, ?_,
      hcore.ran_error hreset (hfailed hrow) hran, hclean'.marked, ?_⟩
    · dsimp only
      rw [hguard]
    · intro error' herror
      obtain rfl := Option.some.inj herror
      exact hhonest World.error_honest
  · refine ⟨after, none, rfl, hcore.ran_ok hreset (hfailed hrow) hran hresult, hclean',
      by rintro _ ⟨⟩⟩

theorem Inv.settle_query {result : Except Error Unit} (hcore : Core contents world .none)
    (hclean : Clean world) (hfailed : active.row = true → world.failed = none)
    (hreset : reset.OfQuery) (haccess : active.access = .plain)
    (hresult : ∀ error, result = .error error → World.Honest error) :
    Inv config contents (world.settle .query active result reset) := by
  obtain ⟨world', told, heq, hcore', hclean', htold⟩ :=
    hcore.reset_query hclean hfailed hreset haccess
  unfold World.settle World.finish
  rw [heq]
  rcases result with error | ⟨⟩ <;> rcases told with _ | told
  · exact .ended _ hclean' hcore' hresult
  · exact .ended _ (hclean'.defer (htold told rfl)) hcore'.defer hresult
  · rw [haccess]
    exact .ended (.ok ()) hclean' hcore' (by rintro _ ⟨⟩)
  · exact .ended (.error told) hclean' hcore' fun error herror =>
      Except.error.inj herror ▸ htold told rfl

/-! ## Steps that fail -/

/-- A step that fails ends its call, or leaves it waiting. -/
theorem Inv.poll_error {outcome wait : Except Error Unit}
    (hstep : world.stepAuthorized active.statement active.access (world.tx call) fate =
      (world', .error error)) (hhonest : World.Honest error)
    (hwait : ∀ error, wait = .error error → ∃ action code,
      error = .busy action code ∨ error = .requestTimeout action code)
    (hend : ∀ error, World.Honest error →
      Inv config contents (world'.drop.conclude call (.error error)))
    (hwaits : ∀ action code, error = .busy action code →
      world'.check (world'.tx call) = .ok () → 0 < world'.work.meter.primary →
      Inv config contents { world' with op := some ⟨call, some { active with row := false }⟩ }) :
    Inv config contents (world.poll call active fate reset outcome wait) := by
  obtain ⟨error', hguard, hhonest', hbusy⟩ :=
    World.guard_error world' Retry.Step error
  unfold World.poll
  rw [hstep]
  dsimp only
  rw [hguard]
  cases error' with
  | busy action code =>
    dsimp only
    rcases hcheck : world'.check (world'.tx call) with error' | ⟨⟩
    · exact hend _ (World.check_honest hcheck)
    dsimp only
    split_ifs with hexhausted
    · exact hend _ (hhonest' hhonest)
    rcases wait with error' | ⟨⟩
    · refine hend _ ?_
      obtain ⟨action', code', rfl | rfl⟩ := hwait error' rfl <;> simp [World.Honest]
    · refine hwaits action code (hbusy action code rfl) hcheck (Nat.pos_of_ne_zero ?_)
      simpa [Meter.exhausted] using hexhausted
  | _ => exact hend _ (hhonest' hhonest)

/-- What a step with the call's own permission leaves of the record. -/
theorem Clean.stepped {statement : Option Control} (h : Clean world) :
    Clean (world.stepped statement permission fate) :=
  ⟨(Meter.ticks_permission _ _).trans h.denied, h.native, h.cleanup, h.reply⟩

theorem Inv.conclude_query (result : Except Error Unit) (hclean : Clean world)
    (hcore : Core contents world debt)
    (hresult : ∀ error, result = .error error → World.Honest error) :
    Inv config contents (world.drop.conclude .query (result.map fun _ => true)) := by
  have hended : Inv config contents { world.drop with op := none, reply := some result } :=
    .ended result hclean hcore hresult
  rcases result with error | ⟨⟩ <;> exact hended

theorem Bound.plain (h : Bound config world .query active) : active.access = .plain := by
  rcases active with ⟨statement, access, row⟩
  have hbind : (⟨none, .plain, false⟩ : Active) = ⟨statement, access, false⟩ :=
    Except.ok.inj (Option.some.inj h.bind)
  obtain ⟨-, rfl, -⟩ := Active.mk.inj hbind
  rfl

/-- A query that has its statement runs on a transaction that has not failed. -/
theorem Bound.failed (h : Bound config world .query active) : world.failed = none := by
  rcases hscope : world.scope with _ | scope
  · rw [World.failed, hscope]
    rfl
  · refine World.failed_of_check ?_
    have hcheck := h.check
    rwa [show world.tx .query = true by simp [World.tx, hscope]] at hcheck

/-- A round of a query. -/
theorem Inv.poll_query {outcome wait : Except Error Unit} (hclean : Clean world)
    (hcore : Core contents world .none) (hbound : Bound config world .query active)
    (hfate : fate.Sound world.work.meter world.native active.statement) (hreset : reset.OfQuery)
    (houtcome : ∀ error, outcome = .error error → ∃ number, error = .call number)
    (hwait : ∀ error, wait = .error error → ∃ action code,
      error = .busy action code ∨ error = .requestTimeout action code) :
    Inv config contents (world.poll .query active fate reset outcome wait) := by
  rcases active with ⟨statement, access, row⟩
  have hbind : (⟨none, .plain, false⟩ : Active) = ⟨statement, access, false⟩ :=
    Except.ok.inj (Option.some.inj hbound.bind)
  obtain ⟨rfl, rfl, -⟩ := Active.mk.inj hbind
  have hfate' : fate.OfQuery := hfate
  have hfailed := hbound.failed
  let after := world.stepped none .denied fate
  have hran : world.Ran after .denied fate := ⟨rfl, rfl, rfl, rfl, rfl, rfl⟩
  have hplain : world.native.step none .denied fate =
      (world.native.leave world.native fate.left, fate.result) := rfl
  rcases hresult : fate.result with code | step
  · have hstep : world.stepAuthorized none .plain (world.tx .query) fate =
        ((after.error (world.tx .query) .plain .step code).1,
          .error (after.error (world.tx .query) .plain .step code).2) :=
      World.stepAuthorized_error hclean.denied rfl (hresult ▸ hplain)
    have hcore' : Core contents (after.error (world.tx .query) .plain .step code).1 .none :=
      hcore.ran_error hfate' hfailed hran
    have hclean' : Clean (after.error (world.tx .query) .plain .step code).1 :=
      hclean.stepped.marked
    refine .poll_error hstep World.error_honest hwait (fun error hhonest => ?_) ?_
    · exact .conclude_query (.error error) hclean' hcore' fun error' h =>
        Except.error.inj h ▸ hhonest
    · intro action code' _ hcheck hpos
      refine ⟨hclean'.congr rfl rfl hclean'.reply, .none, hcore'.congr rfl rfl rfl rfl rfl rfl,
        trivial, rfl, ?_, ?_, hpos, hcheck, rfl, by rintro ⟨⟩⟩
      · show (after.error _ _ _ _).1.work.health.mode = _
        rw [World.error_health]
        exact hbound.healthy
      · show (after.error _ _ _ _).1.work.meter.mode = _
        rw [World.error_meter]
        exact (Meter.ticks_mode _ _).trans hbound.mode
  · have hstep : world.stepAuthorized none .plain (world.tx .query) fate = (after, .ok step) :=
      World.stepAuthorized_ok hclean.denied rfl (hresult ▸ hplain)
    have hcore' : Core contents after .none := hcore.ran_ok hfate' hfailed hran hresult
    have hclean' : Clean after := hclean.stepped
    unfold World.poll
    rw [hstep]
    dsimp only
    rcases hexhausted : after.work.meter.exhausted with _ | _
    · have hguard : after.guard (.ok step : Except Error Retry.Step) = .ok step := by
        simp [World.guard, hexhausted]
      rw [hguard]
      cases step with
      | row =>
        refine ⟨hclean'.congr rfl rfl hclean'.reply, .none, hcore'.congr rfl rfl rfl rfl rfl rfl,
          trivial, rfl, hbound.healthy, (Meter.ticks_mode _ _).trans hbound.mode,
          Nat.pos_of_ne_zero (by simpa [Meter.exhausted] using hexhausted), hbound.check, rfl,
          fun _ => rfl⟩
      | done =>
        refine .settle_query hcore' hclean' (by rintro ⟨⟩) hreset rfl fun error herror => ?_
        obtain ⟨number, rfl⟩ := houtcome error herror
        simp [World.Honest]
    · have hguard : after.guard (.ok step : Except Error Retry.Step) = .error .workExhausted := by
        simp [World.guard, hexhausted, limit]
      rw [hguard]
      have hhonest : ∀ error : Error, (.error .workExhausted : Except Error Unit) = .error error →
          World.Honest error := fun error h => by cases h; simp [World.Honest]
      cases step with
      | row => exact .settle_query hcore' hclean' (fun _ => hfailed) hreset rfl hhonest
      | done => exact .settle_query hcore' hclean' (by rintro ⟨⟩) hreset rfl hhonest

/-! ## The end of a call before it is over -/

theorem Inv.act_finish {outcome : Except Error Unit} (h : Inv config contents world)
    (hallowed : world.Allowed config (.finish reset outcome)) :
    ∃ world', world.act config (.finish reset outcome) = some world' ∧
      Inv config contents world' := by
  obtain ⟨active, hop, hreset, houtcome⟩ := hallowed
  obtain ⟨debt, hcore, hflight⟩ := h.core
  rw [Flight, hop] at hflight
  obtain ⟨-, rfl, hbound⟩ := hflight
  refine ⟨world.settle .query active outcome reset, by rw [World.act, hop]; rfl, ?_⟩
  refine .settle_query hcore h.clean (fun _ => hbound.failed) hreset hbound.plain
    fun error herror => ?_
  obtain ⟨number, rfl⟩ := houtcome error herror
  simp [World.Honest]

/-- A call that is cancelled gives back what it owns. -/
theorem Inv.giveBack (h : Inv config contents world) (hop : world.op = none)
    (hoffers : world.Offers call) : Inv config contents (world.giveBack call) := by
  cases call with
  | commit | rollback =>
    obtain ⟨failed, hscope⟩ := hoffers
    exact h.returnTransaction hop hscope
  | saveCommit =>
    obtain ⟨failed, count, saves, hscope⟩ := hoffers
    exact h.returnSavepoint hop hscope
  | _ => exact h

theorem Inv.act_cancel (h : Inv config contents world)
    (hallowed : world.Allowed config (.cancel reset)) :
    ∃ world', world.act config (.cancel reset) = some world' ∧ Inv config contents world' := by
  obtain ⟨⟨call, active⟩, hop, hreset⟩ := hallowed
  obtain ⟨debt, hcore, hflight⟩ := h.core
  rw [Flight, hop] at hflight
  rcases active with _ | active
  · obtain ⟨hoffers, hrest⟩ := hflight
    refine ⟨{ world with op := none }.giveBack call, by rw [World.act, hop]; rfl, ?_⟩
    refine .giveBack (.rest (h.clean.congr rfl rfl h.clean.reply)
      (hcore.congr rfl rfl rfl rfl rfl rfl) (hrest.congr rfl id) rfl) rfl (hoffers.congr rfl)
  · obtain ⟨hoffers, rfl, hbound⟩ := hflight
    refine ⟨{ world.cancel active (world.tx call) reset with op := none }.giveBack call,
      by rw [World.act, hop]; rfl, ?_⟩
    rcases hrow : active.row with _ | _
    · have hcancel : world.cancel active (world.tx call) reset = world.drop := by
        unfold World.cancel World.reset
        rw [hrow]
        rfl
      rw [hcancel]
      exact .giveBack (.rest (h.clean.congr rfl rfl h.clean.reply)
        (hcore.congr rfl rfl rfl rfl rfl rfl) (.of_idle rfl) rfl) rfl (hoffers.congr rfl)
    · obtain rfl := hbound.row hrow
      obtain ⟨world', told, heq, hcore', hclean', htold⟩ :=
        hcore.reset_query h.clean (fun _ => hbound.failed) hreset hbound.plain
      show Inv config contents { world.cancel active (world.tx .query) reset with op := none }
      unfold World.cancel
      rw [heq]
      rcases told with _ | told
      · exact .rest (hclean'.congr rfl rfl hclean'.reply)
          (hcore'.congr rfl rfl rfl rfl rfl rfl) (.of_idle rfl) rfl
      · have hclean'' := hclean'.defer (htold told rfl)
        exact .rest (hclean''.congr rfl rfl hclean''.reply)
          (hcore'.defer.congr rfl rfl rfl rfl rfl rfl) (.of_idle rfl) rfl

end Cartel.Sqlite.Tx
