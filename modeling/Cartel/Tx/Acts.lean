import Cartel.Tx.Inv

/-!
# What an action leaves

The invariant through every kind of step : the controls of the cleanup, the statements and resets
of the program, and the controls of its calls, whether they succeed, fail or are busy.
-/

namespace Cartel.Sqlite.Tx

open Cartel.Lib (Event Nested Frames)

variable {D : Type} {config : Config} {contents : D} {world : World D} {debt : Debt}
  {call : Call} {active : Active} {fate reset : Fate D} {error : Error} {control : Control}

/-! ## Cleanup -/

theorem Debt.owes_iff : debt.Owes ↔ Pending.status debt.word = .pending := by
  rw [Pending.status_word]
  cases debt <;> simp [Debt.Owes]

theorem Native.event_control (native : Native D) (hcontrol : control ≠ .commit)
    (permission : Permission) : native.event (some control) permission fate = [] := by
  cases control with
  | commit => exact absurd rfl hcontrol
  | _ => rfl

theorem Pending.cleanup_ne_commit (state : ℕ) : Pending.cleanup state ≠ .commit := by
  unfold Pending.cleanup
  split_ifs <;> simp

/-- The next control of the cleanup is legal, and what it leaves when it succeeds. -/
theorem Core.cleaned (h : Core contents world debt) (howes : debt.Owes) :
    world.native.Legal (Pending.cleanup world.work.pending) ∧ ∃ debt' depth',
      Pending.complete world.work.pending world.work.depth = some (Debt.word debt', depth') ∧
      debt' ≠ .failed ∧
      debt'.rounds (Depth.get depth') + 1 = debt.rounds world.work.depth.get ∧
      Stage (world.native.run (Pending.cleanup world.work.pending)) depth' world.scope
        (world.nested contents).frames debt' := by
  have hstage := h.stage
  rw [h.word]
  cases debt with
  | none => exact absurd rfl howes.1
  | failed => exact absurd rfl howes.2
  | transaction =>
    obtain ⟨hlegal, hstage'⟩ := hstage.clean_transaction
    exact ⟨hlegal, .none, none, Pending.complete_transaction _, by simp, rfl, hstage'⟩
  | savepoint target phase =>
    rw [Pending.cleanup_savepoint]
    cases phase with
    | rollback =>
      obtain ⟨hlegal, hstage'⟩ := hstage.clean_rollback
      exact ⟨hlegal, .savepoint target .release, _, Pending.complete_rollback target _, by simp,
        rfl, hstage'⟩
    | release =>
      obtain ⟨hlegal, current, hdepth, hstage'⟩ := hstage.clean_release
      have hle := hstage.target_le
      rw [hdepth] at hle ⊢
      refine ⟨hlegal, _, _, Pending.complete_release target current, ?_, ?_, hstage'⟩
      · split_ifs <;> simp
      · have hget : Depth.get (some current) = current.get := rfl
        rw [Count.prior_get, hget]
        rw [hget] at hle
        split_ifs with heq
        · simp only [Debt.rounds, heq]
          omega
        · simp only [Debt.rounds]
          omega

/-- A cleanup that may go on has a meter to run on. -/
theorem Resting.meter (config : Config) (h : Resting world debt)
    (hdenied : world.work.meter.permission = .denied) :
    ∃ meter, world.work.meter.cleanup config.cleanup = .ok meter ∧ meter.mode = .cleanup ∧
      meter.permission = .denied ∧ 0 < meter.primary := by
  unfold Meter.cleanup
  rcases hmode : world.work.meter.mode with _ | _ | _
  · refine ⟨⟨config.cleanup, .cleanup, world.work.meter.permission⟩, ?_, rfl, hdenied,
      config.cleanup_pos⟩
    simp [Meter.begin, hmode]
  · exact absurd hmode h.mode
  · exact ⟨_, rfl, hmode, hdenied, (h.cleanup hmode).2⟩

theorem Native.control_ok {native : Native D} (hlegal : native.Legal control) {step : Retry.Step}
    (hresult : fate.result = .ok step) :
    native.step (some control) .granted fate = (native.run control, .ok .done) := by
  simp [Native.step, Native.control, hlegal, hresult]

theorem Native.control_error {native : Native D} (hlegal : native.Legal control) {code : ℤ}
    (hresult : fate.result = .error code) : native.step (some control) .granted fate =
      (native.leave (native.run control) fate.left, .error code) := by
  simp [Native.step, Native.control, hlegal, hresult]

/-- A control that succeeds has not run out of its quota. -/
theorem Fate.OfControl.quota {meter : Meter} {native : Native D}
    (h : fate.OfControl meter native control) (hpos : 0 < meter.primary) {step : Retry.Step}
    (hresult : fate.result = .ok step) : 0 < (meter.ticks fate.ticks).1.primary := by
  refine Meter.ticks_pos _ _ hpos ?_
  rcases hstop : (meter.ticks fate.ticks).2 with _ | _
  · rfl
  · obtain ⟨code, hcode⟩ := h.stop hstop
    cases hresult.symm.trans hcode

namespace World

variable {statement : Option Control} {access : Access} {tx : Bool} {permission : Permission}
  {native : Native D} {code : ℤ} {step : Retry.Step}

theorem stepAuthorized_ok (hdenied : world.work.meter.permission = .denied)
    (hpermission : permission = if access.isControl then .granted else .denied)
    (hstep : world.native.step statement permission fate = (native, .ok step)) :
    world.stepAuthorized statement access tx fate =
      (world.stepped statement permission fate, .ok step) := by
  rw [stepAuthorized_eq hdenied]
  dsimp only
  rw [← hpermission, hstep]

theorem stepAuthorized_error (hdenied : world.work.meter.permission = .denied)
    (hpermission : permission = if access.isControl then .granted else .denied)
    (hstep : world.native.step statement permission fate = (native, .error code)) :
    world.stepAuthorized statement access tx fate =
      (((world.stepped statement permission fate).error tx access .step code).1,
        .error ((world.stepped statement permission fate).error tx access .step code).2) := by
  rw [stepAuthorized_eq hdenied]
  dsimp only
  rw [← hpermission, hstep]

end World

/-- What is left of a connection when its cleanup has failed. -/
structure Lost (contents : D) (world : World D) : Prop where
  clean : Clean world
  base : world.native.committed = (world.nested contents).base
  settled : world.native.Settled

/-- The program is not touched by the cleanup. -/
structure World.Untouched (world world' : World D) : Prop where
  scope : world'.scope = world.scope
  op : world'.op = world.op

/-- A control of the cleanup pays a piece of the debt, or the cleanup has failed. -/
theorem Core.advance (hclean : Clean world) (hcore : Core contents world debt)
    (hrest : Resting world debt) (hcleans : world.Cleans config fate) :
    (∃ world' status debt', world.advance config fate = some (world', .ok status) ∧
      world.Untouched world' ∧ Clean world' ∧ Core contents world' debt' ∧
      Resting world' debt' ∧ debt' ≠ .failed ∧
      debt'.rounds world'.work.depth.get + 1 = debt.rounds world.work.depth.get) ∨
    ∃ world' error, world.advance config fate = some (world', .error error) ∧
      world.Untouched world' ∧ Lost contents world' ∧ World.Honest error := by
  have howes : debt.Owes := Debt.owes_iff.mpr (hcore.word ▸ hcleans.1)
  obtain ⟨hlegal, debt', depth', hcomplete, hfailed, hrounds, hstage⟩ := hcore.cleaned howes
  obtain ⟨meter, hmeter, hmode, hdenied, hpos⟩ := hrest.meter config hclean.denied
  have hfate := hcleans.2 meter hmeter
  have hcontrol : Pending.control world.work.pending = some world.work.pending := by
    rw [hcore.word, Pending.control_word, if_neg (not_or.mpr howes)]
  generalize hcleanup : Pending.cleanup world.work.pending = control at *
  have hne : control ≠ .commit := hcleanup ▸ Pending.cleanup_ne_commit _
  have hevent : world.native.event (some control) .granted fate = [] :=
    Native.event_control world.native hne .granted
  obtain ⟨hsettled, hbase⟩ := Native.control_base hlegal hcore.settled hfate hcore.base
    fun heq => absurd heq hne
  let after := (world.metered meter).stepped (some control) .granted fate
  have hnested : after.nested contents = (world.nested contents).run
      (world.native.event (some control) .granted fate) := World.nested_append world _
  have hdenied' : after.work.meter.permission = .denied :=
    (Meter.ticks_permission _ _).trans hdenied
  rcases hresult : fate.result with code | step
  · refine Or.inr ?_
    let after' := (after.error false (.control control.retry) .step code).1
    obtain ⟨error, hguard, hhonest, -⟩ := World.guard_error after' Retry.Step
      (after.error false (.control control.retry) .step code).2
    have hstep : (world.metered meter).stepAuthorized (some control) (.control control.retry)
        false fate = (after', .error (after.error false (.control control.retry) .step code).2) :=
      World.stepAuthorized_error hdenied rfl (Native.control_error hlegal hresult)
    refine ⟨after', error, ?_, ⟨?_, ?_⟩, ⟨⟨?_, ?_, ?_, ?_⟩, ?_, ?_⟩, hhonest World.error_honest⟩
    · unfold World.advance
      rw [hcontrol, hmeter]
      dsimp only
      rw [hcleanup, hstep]
      dsimp only
      rw [hguard]
    · exact World.error_scope
    · exact World.error_op
    · rw [World.error_meter]
      exact hdenied'
    · rw [World.error_health]
      exact hclean.native
    · rw [World.error_health]
      exact hclean.cleanup
    · rw [World.error_reply]
      exact hclean.reply
    · rw [World.nested_congr World.error_log, World.error_native, hnested]
      exact hbase
    · rw [World.error_native]
      exact hsettled
  · refine Or.inl ?_
    have hstep : (world.metered meter).stepAuthorized (some control) (.control control.retry)
        false fate = (after, .ok .done) :=
      World.stepAuthorized_ok hdenied rfl (Native.control_ok hlegal hresult)
    have hquota : 0 < after.work.meter.primary := hfate.quota hpos hresult
    have hguard := World.guard_ok after Retry.Step.done hquota
    have hmode' : after.work.meter.mode = .cleanup := (Meter.ticks_mode _ _).trans hmode
    have hrun : after.native = world.native.run control :=
      congrArg Prod.fst (Native.control_ok hlegal hresult)
    have hcomplete' : Pending.complete world.work.pending after.work.depth =
        some (debt'.word, depth') := hcomplete
    obtain ⟨meter', hadvance, hdenied'', hresting⟩ : ∃ meter',
        world.advance config fate = some ({ after with
          work := { after.work with meter := meter', pending := debt'.word, depth := depth' } },
          .ok (Pending.status debt'.word)) ∧ meter'.permission = .denied ∧
        meter'.mode ≠ .primary ∧ (meter'.mode = .cleanup → debt'.Owes ∧ 0 < meter'.primary) := by
      unfold World.advance
      rw [hcontrol, hmeter]
      dsimp only
      rw [hcleanup, hstep]
      dsimp only
      rw [hguard]
      rcases hstatus : Pending.status debt'.word with _ | _
      · refine ⟨after.work.meter.finish, ?_, hdenied', by simp [Meter.finish],
          by simp [Meter.finish]⟩
        simp only [hcomplete', hstatus]
      · refine ⟨after.work.meter, ?_, hdenied', by simp [hmode'],
          fun _ => ⟨Debt.owes_iff.mpr hstatus, hquota⟩⟩
        simp only [hcomplete', hstatus]
    refine ⟨{ after with
        work := { after.work with meter := meter', pending := debt'.word, depth := depth' } },
      Pending.status debt'.word, debt', hadvance, ⟨rfl, rfl⟩,
      ⟨hdenied'', hclean.native, hclean.cleanup, hclean.reply⟩, ⟨?_, ?_, rfl, ?_, ?_⟩, ?_, hfailed,
      hrounds⟩
    · exact hbase.trans (congrArg Nested.base hnested.symm)
    · exact hsettled
    · show Stage after.native depth' world.scope (after.nested contents).frames debt'
      rw [hrun, hnested, hevent]
      exact hstage
    · refine ⟨fun h => absurd h hfailed, fun h => ?_⟩
      exact absurd (hcore.poisoned.mpr h) howes.2
    · exact ⟨hresting.1, hresting.2⟩

/-- A failed cleanup leaves nothing to trust. -/
theorem Lost.failCleanup (h : Lost contents world) :
    Clean { world with work := world.work.failCleanup } ∧
      Core contents { world with work := world.work.failCleanup } .failed ∧
      Resting { world with work := world.work.failCleanup } .failed := by
  have hmode : world.work.health.fail.mode = .nativeFirst ∨
      world.work.health.fail.mode = .cleanupFirst := by
    rcases world.work.health with ⟨mode, native, cleanup⟩
    cases mode <;> simp [Health.fail]
  have hnative : world.work.health.fail.native = world.work.health.native := by
    unfold Health.fail
    split <;> rfl
  have hcleanup : world.work.health.fail.cleanup = world.work.health.cleanup := by
    unfold Health.fail
    split <;> rfl
  refine ⟨⟨rfl, ?_, ?_, h.clean.reply⟩,
    ⟨h.base, h.settled, rfl, .lost, fun _ => hmode, fun _ => rfl⟩, (.of_idle rfl)⟩
  · intro error herror
    exact h.clean.native error (hnative ▸ herror)
  · intro error herror
    exact h.clean.cleanup error (hcleanup ▸ herror)

/-- What a call that waits for its cleanup is offered. -/
theorem World.Offers.congr {world' : World D} (h : world.Offers call)
    (hscope : world'.scope = world.scope) : world'.Offers call := by
  unfold World.Offers at h ⊢
  rw [hscope]
  exact h

theorem Inv.act_clean (h : Inv config contents world)
    (hallowed : world.Allowed config (.clean fate)) :
    ∃ world', world.act config (.clean fate) = some world' ∧ Inv config contents world' := by
  obtain ⟨⟨call, hop⟩, hcleans⟩ := hallowed
  obtain ⟨debt, hcore, hflight⟩ := h.core
  rw [Flight, hop] at hflight
  obtain ⟨hoffers, hrest⟩ := hflight
  have hact : world.act config (.clean fate) = world.clean config call fate := by
    unfold World.act
    rw [hop]
    rfl
  rw [hact]
  unfold World.clean
  rcases hcore.advance h.clean hrest hcleans with
    ⟨world', status, debt', hadvance, huntouched, hclean', hcore', hrest', -⟩ |
    ⟨world', error, hadvance, huntouched, hlost, hhonest⟩
  · rw [hadvance]
    refine ⟨world', rfl, hclean', debt', hcore', ?_⟩
    rw [Flight, huntouched.op, hop]
    exact ⟨hoffers.congr huntouched.scope, hrest'⟩
  · rw [hadvance]
    obtain ⟨hclean', hcore', hrest'⟩ := hlost.failCleanup
    exact ⟨_, rfl, .conclude_error hclean' hcore' hrest' (hoffers.congr huntouched.scope) hhonest⟩

theorem Inv.act_park (h : Inv config contents world)
    (hallowed : world.Allowed config (.park fate)) :
    ∃ world', world.act config (.park fate) = some world' ∧ Inv config contents world' := by
  obtain ⟨hop, hscope, hcleans⟩ := hallowed
  obtain ⟨debt, hcore, hflight⟩ := h.core
  rw [Flight, hop] at hflight
  show ∃ world', world.park config fate = some world' ∧ _
  unfold World.park
  rcases hcore.advance h.clean hflight hcleans with
    ⟨world', status, debt', hadvance, huntouched, hclean', hcore', hrest', -⟩ |
    ⟨world', error, hadvance, huntouched, hlost, hhonest⟩
  · rw [hadvance]
    exact ⟨world', rfl, .rest hclean' hcore' hrest' (huntouched.op.trans hop)⟩
  · rw [hadvance]
    obtain ⟨hclean', hcore', hrest'⟩ := hlost.failCleanup
    refine ⟨_, rfl, .rest ⟨hclean'.denied, hclean'.native, ?_, hclean'.reply⟩
      (hcore'.congr rfl rfl rfl rfl rfl rfl) (hrest'.congr rfl id) (huntouched.op.trans hop)⟩
    intro error' herror
    obtain rfl : error = error' := Option.some.inj herror
    exact hhonest

/-! ## Scopes that come and go -/

namespace World

theorem check_honest {tx : Bool} (h : world.check tx = .error error) : Honest error := by
  unfold check at h
  split at h
  · split at h
    · obtain rfl := Except.error.inj h
      unfold Honest Fault.transaction
      split_ifs <;> simp
    · cases h
  · cases h

theorem checkRollback_honest (h : world.checkRollback = .error error) : Honest error := by
  unfold checkRollback at h
  split at h
  · split_ifs at h
    obtain rfl := Except.error.inj h
    unfold Honest Fault.transaction
    split_ifs
    simp
  · cases h

theorem failed_of_check (h : world.check true = .ok ()) : world.failed = none := by
  unfold check at h
  rw [if_pos rfl] at h
  split at h
  · cases h
  · assumption

end World

/-- The reply of a call that ends at once. -/
theorem Inv.answer (h : Inv config contents world) (hop : world.op = none)
    (hhonest : World.Honest error) :
    Inv config contents { world with reply := some (.error error) } := by
  obtain ⟨debt, hcore, hflight⟩ := h.core
  rw [Flight, hop] at hflight
  refine .rest ⟨h.clean.denied, h.clean.native, h.clean.cleanup, ?_⟩
    (hcore.congr rfl rfl rfl rfl rfl rfl) (hflight.congr rfl id) hop
  intro error' herror
  obtain rfl : error = error' := Except.error.inj (Option.some.inj herror)
  exact hhonest

theorem Inv.returnTransaction (h : Inv config contents world) (hop : world.op = none)
    {failed : Option Fault} {saves : List Count} (hscope : world.scope = some ⟨failed, saves⟩) :
    Inv config contents world.returnTransaction := by
  obtain ⟨debt, hcore, hflight⟩ := h.core
  rw [Flight, hop] at hflight
  obtain ⟨debt', hcore', howes⟩ := hcore.giveBack hscope
  exact .rest (h.clean.congr (by rw [World.returnTransaction_meter]) World.returnTransaction_health
    h.clean.reply) hcore' (hflight.congr World.returnTransaction_meter howes) hop

theorem Inv.returnSavepoint (h : Inv config contents world) (hop : world.op = none)
    {failed : Option Fault} {count : Count} {saves : List Count}
    (hscope : world.scope = some ⟨failed, count :: saves⟩) :
    Inv config contents world.returnSavepoint := by
  obtain ⟨debt, hcore, hflight⟩ := h.core
  rw [Flight, hop] at hflight
  obtain ⟨debt', hcore', howes⟩ := hcore.returnSavepoint hscope
  exact .rest (h.clean.congr (by rw [World.returnSavepoint_meter]) World.returnSavepoint_health
    (by rw [World.returnSavepoint_reply]; exact h.clean.reply)) hcore'
    (hflight.congr World.returnSavepoint_meter howes) (World.returnSavepoint_op.trans hop)

theorem Inv.act_call (h : Inv config contents world)
    (hallowed : world.Allowed config (.call call)) :
    Inv config contents (world.call call) := by
  obtain ⟨hop, hoffers⟩ := hallowed
  have hstarted : Inv config contents { world with op := some ⟨call, none⟩, reply := none } := by
    obtain ⟨debt, hcore, hflight⟩ := h.core
    rw [Flight, hop] at hflight
    exact ⟨⟨h.clean.denied, h.clean.native, h.clean.cleanup, by rintro _ ⟨⟩⟩, debt,
      hcore.congr rfl rfl rfl rfl rfl rfl, hoffers.congr rfl, hflight.congr rfl id⟩
  cases call with
  | commit =>
    obtain ⟨failed, hscope⟩ := hoffers
    unfold World.call
    rcases hcheck : world.check true with error | ⟨⟩
    · exact (h.answer hop (World.check_honest hcheck)).returnTransaction hop hscope
    · exact hstarted
  | rollback =>
    obtain ⟨failed, hscope⟩ := hoffers
    unfold World.call
    rcases hcheck : world.checkRollback with error | ⟨⟩
    · exact (h.answer hop (World.checkRollback_honest hcheck)).returnTransaction hop hscope
    · exact hstarted
  | savepoint =>
    unfold World.call
    rcases hcheck : world.check true with error | ⟨⟩
    · exact h.answer hop (World.check_honest hcheck)
    · exact hstarted
  | _ => exact hstarted

theorem Inv.act_drop (h : Inv config contents world) (hallowed : world.Allowed config .drop) :
    ∃ world', world.act config .drop = some world' ∧ Inv config contents world' := by
  obtain ⟨hop, hopen⟩ := hallowed
  rcases hscope : world.scope with _ | ⟨failed, _ | ⟨count, saves⟩⟩
  · exact absurd hscope hopen
  · exact ⟨_, by simp [World.act, hscope], h.returnTransaction hop hscope⟩
  · exact ⟨_, by simp [World.act, hscope], h.returnSavepoint hop hscope⟩

theorem Inv.act_forget (h : Inv config contents world) (hallowed : world.Allowed config .forget) :
    Inv config contents (world.leaveSavepoint .released) := by
  obtain ⟨hop, failed, count, saves, hscope⟩ := hallowed
  obtain ⟨debt, hcore, hflight⟩ := h.core
  rw [Flight, hop] at hflight
  have hnested : (world.leaveSavepoint .released).nested contents =
      (world.nested contents).follow .released := World.nested_append _ _
  have hstage := hcore.stage
  rw [hscope] at hstage
  refine .rest ⟨h.clean.denied, h.clean.native, h.clean.cleanup, h.clean.reply⟩
    ⟨?_, hcore.settled, hcore.word, ?_, hcore.poisoned⟩ (hflight.congr rfl id) hop
  · rw [hnested, Nested.follow_released_base]
    exact hcore.base
  · rw [hnested]
    have hscope' : (world.leaveSavepoint .released).scope = some ⟨failed, saves⟩ := by
      show world.scope.map _ = _
      rw [hscope]
      rfl
    rw [hscope']
    exact hstage.forget

/-! ## The statement of a call -/

/-- What a check of the health leaves and tells. -/
theorem Health.check_spec (health : Health)
    (hnative : ∀ error, health.native = some error → World.Honest error)
    (hcleanup : ∀ error, health.cleanup = some error → World.Honest error) :
    (∀ error, health.check.1.native = some error → World.Honest error) ∧
      (∀ error, health.check.1.cleanup = some error → World.Honest error) ∧
      (∀ error, health.check.2 = some error → World.Honest error) ∧
      ((health.check.1.mode = .nativeFirst ∨ health.check.1.mode = .cleanupFirst) ↔
        (health.mode = .nativeFirst ∨ health.mode = .cleanupFirst)) ∧
      (health.check.2 = none → health.check.1.mode = .healthy) := by
  rcases health with ⟨mode, _ | native, _ | cleanup⟩ <;> cases mode <;>
    simp_all [Health.check, Health.failedNative, Health.failedCleanup, World.Honest]

/-- A savepoint of a transaction that has not failed is counted. -/
theorem Core.exists_depth {failed : Option Fault} {count : Count} {saves : List Count}
    (hcore : Core contents world .none) (hcheck : world.check true = .ok ())
    (hscope : world.scope = some ⟨failed, count :: saves⟩) :
    ∃ current, world.work.depth = some current := by
  have hfailed := World.failed_of_check hcheck
  have hstage := hcore.stage
  rw [World.failed, hscope] at hfailed
  obtain rfl : failed = none := hfailed
  rw [hscope] at hstage
  obtain ⟨-, hdepth, rest, hsaves, -⟩ := hstage.exists_running
  have hle := hsaves.depth_le count.get (by simp)
  obtain ⟨current, hcurrent, -⟩ := Depth.get_eq_some
    (hdepth.trans (Nat.succ_pred_eq_of_pos (hle.1.trans hle.2)).symm)
  exact ⟨current, hcurrent⟩

/-- The statement of a savepoint's own calls : what is above it is released first. -/
theorem World.bind_save {current count : Count} {bound : Except Error Unit}
    (hcall : call = .saveCommit ∨ call = .saveRollback) (hcurrent : world.work.depth = some current)
    (hcount : (world.scope.bind fun scope => scope.saves.head?) = some count) :
    world.bind config call bound = some (.ok
      (if current = count ∧ call = .saveRollback then
        ⟨some .rollbackTo, .completion none true, false⟩
      else ⟨some .release, .completion (some current) (current = count), false⟩)) := by
  rcases hcall with rfl | rfl <;> unfold World.bind <;> rw [hcurrent, hcount]
  · simp
  · by_cases heq : current = count <;> simp [heq]

/-- The statement of a call on a transaction that has not failed. -/
theorem Core.bind (config : Config) (hcore : Core contents world .none)
    (hoffers : world.Offers call)
    (hcheck : world.check (world.tx call) = .ok ()) {bound : Except Error Unit}
    (hbound : ∀ error, bound = .error error → ∃ number, error = .call number) :
    ∃ result, world.bind config call bound = some result ∧
      (∀ error, result = .error error → World.Honest error) ∧
      ∀ active, result = .ok active → active.row = false ∧
        world.bind config call (.ok ()) = some (.ok active) := by
  have hsave : (call = .saveCommit ∨ call = .saveRollback) →
      ∃ active : Active, active.row = false ∧
        ∀ bound, world.bind config call bound = some (.ok active) := by
    intro hcall
    have htx : world.tx call = true := by rcases hcall with rfl | rfl <;> rfl
    have hoffers' : ∃ failed count saves, world.scope = some ⟨failed, count :: saves⟩ := by
      rcases hcall with rfl | rfl <;> exact hoffers
    obtain ⟨failed, count, saves, hscope⟩ := hoffers'
    obtain ⟨current, hcurrent⟩ := hcore.exists_depth (htx ▸ hcheck) hscope
    refine ⟨_, ?_, fun bound => World.bind_save hcall hcurrent (by rw [hscope]; rfl)⟩
    split_ifs <;> rfl
  cases call with
  | query =>
    rcases bound with error | ⟨⟩
    · refine ⟨_, rfl, fun error' h => ?_, by rintro _ ⟨⟩⟩
      obtain ⟨number, rfl⟩ := hbound error rfl
      obtain rfl := Except.error.inj h
      simp [World.Honest]
    · exact ⟨_, rfl, by rintro _ ⟨⟩, fun active h => by cases h; exact ⟨rfl, rfl⟩⟩
  | savepoint =>
    rcases hresult : world.work.depth.check config.savepoints with error | permit
    · refine ⟨_, congrArg some (congrArg (Except.map _) hresult), fun error' h => ?_,
        by rintro _ ⟨⟩⟩
      obtain rfl := Except.error.inj h
      unfold Depth.check at hresult
      split at hresult
      · cases hresult
      · obtain rfl := Except.error.inj hresult
        simp [World.Honest]
    · refine ⟨_, congrArg some (congrArg (Except.map _) hresult), by rintro _ ⟨⟩,
        fun active h => ?_⟩
      obtain rfl := Except.ok.inj h
      exact ⟨rfl, congrArg some (congrArg (Except.map _) hresult)⟩
  | saveCommit =>
    obtain ⟨active, hrow, hbind⟩ := hsave (Or.inl rfl)
    exact ⟨_, hbind bound, by rintro _ ⟨⟩, fun active' h => Except.ok.inj h ▸ ⟨hrow, hbind _⟩⟩
  | saveRollback =>
    obtain ⟨active, hrow, hbind⟩ := hsave (Or.inr rfl)
    exact ⟨_, hbind bound, by rintro _ ⟨⟩, fun active' h => Except.ok.inj h ▸ ⟨hrow, hbind _⟩⟩
  | _ => exact ⟨_, rfl, by rintro _ ⟨⟩, fun active h => by cases h; exact ⟨rfl, rfl⟩⟩

/-- A call that was waiting binds its statement, or ends. -/
theorem Inv.act_prepare {bound : Except Error Unit} (h : Inv config contents world)
    (hallowed : world.Allowed config (.prepare bound)) :
    ∃ world', world.act config (.prepare bound) = some world' ∧ Inv config contents world' := by
  obtain ⟨⟨call, hop⟩, hidle, hbound⟩ := hallowed
  obtain ⟨debt, hcore, hflight⟩ := h.core
  rw [Flight, hop] at hflight
  obtain ⟨hoffers, hrest⟩ := hflight
  have hact : world.act config (.prepare bound) = world.start config call bound := by
    unfold World.act
    rw [hop]
    rfl
  rw [hact]
  have howes : ¬ debt.Owes := fun howes => by
    have hpending := Debt.owes_iff.mp howes
    rw [← hcore.word, hidle] at hpending
    cases hpending
  have hmode : world.work.meter.mode = .idle := by
    rcases hmode : world.work.meter.mode with _ | _ | _
    · rfl
    · exact absurd hmode hrest.mode
    · exact absurd (hrest.cleanup hmode).1 howes
  unfold World.start World.prepare
  rcases hcheck : world.check (world.tx call) with error | ⟨⟩
  · exact ⟨_, rfl, .conclude_error h.clean hcore hrest hoffers (World.check_honest hcheck)⟩
  obtain ⟨hnative, hcleanup, herror, hpoisoned, hhealthy⟩ :=
    world.work.health.check_spec h.clean.native h.clean.cleanup
  unfold Work.begin
  rcases hhealth : world.work.health.check with ⟨health, _ | error⟩
  · rw [hhealth] at hnative hcleanup hpoisoned hhealthy
    have hhealthy' : health.mode = .healthy := hhealthy rfl
    have hdebt : debt = .none := by
      by_contra hne
      refine howes ⟨hne, fun hfailed => ?_⟩
      have := hpoisoned.mpr (hcore.poisoned.mp hfailed)
      simp [hhealthy'] at this
    subst hdebt
    let meter : Meter := ⟨config.call, .primary, world.work.meter.permission⟩
    have hbegin : world.work.meter.beginCall config.call = .ok meter := by
      simp [Meter.beginCall, Meter.begin, hmode, meter]
    let world' : World D :=
      { world with work := { world.work with health := health, meter := meter } }
    have hcore' : Core contents world' .none :=
      ⟨hcore.base, hcore.settled, hcore.word, hcore.stage,
        hcore.poisoned.trans hpoisoned.symm⟩
    have hclean' : Clean world' := ⟨h.clean.denied, hnative, hcleanup, h.clean.reply⟩
    obtain ⟨result, hbind, hresult, hactive⟩ :=
      hcore'.bind config hoffers hcheck hbound
    dsimp only
    rw [hbegin]
    dsimp only
    rw [show World.bind config _ call bound = some result from hbind]
    rcases result with error | active
    · refine ⟨_, rfl, .conclude_error ?_ (?_ : Core contents _ .none) (.of_idle rfl) hoffers
        (hresult error rfl)⟩
      · exact ⟨hclean'.denied, hclean'.native, hclean'.cleanup, hclean'.reply⟩
      · exact hcore'.congr rfl rfl rfl rfl rfl rfl
    · obtain ⟨hrow, hbind'⟩ := hactive active rfl
      refine ⟨_, rfl, ⟨hclean'.denied, hclean'.native, hclean'.cleanup, hclean'.reply⟩, .none,
        hcore'.congr rfl rfl rfl rfl rfl rfl, hoffers, rfl, hhealthy', rfl, config.call_pos, hcheck,
        ?_, fun h => ?_⟩
      · rw [← hrow]
        exact hbind'
      · rw [hrow] at h
        cases h
  · rw [hhealth] at hnative hcleanup hpoisoned herror
    refine ⟨_, rfl, .conclude_error ⟨h.clean.denied, hnative, hcleanup, h.clean.reply⟩
      (show Core contents _ debt from ⟨hcore.base, hcore.settled, hcore.word, hcore.stage,
        hcore.poisoned.trans hpoisoned.symm⟩)
      (hrest.congr rfl id) hoffers (herror error rfl)⟩

end Cartel.Sqlite.Tx
