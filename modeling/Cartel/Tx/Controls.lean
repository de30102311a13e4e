import Cartel.Tx.Rounds

/-!
# The controls of the calls

A call that is not a query steps one control. If that succeeds the call opens, closes or reverts a
scope, or goes on to the next savepoint above its own. If it fails the transaction is told, unless
the call may wait for it to be free.
-/

namespace Cartel.Sqlite.Tx

open Cartel.Lib (Event Nested Frames)

variable {D : Type} {config : Config} {contents : D} {world world' : World D} {debt : Debt}
  {call : Call} {active : Active} {fate reset : Fate D} {error : Error} {control : Control}
  {access : Access} {action : Action} {code : ℤ} {tx : Bool}

/-! ## Controls that fail -/

/-- What becomes of a control. -/
theorem Native.control_cases (native : Native D) (control : Control) (fate : Fate D) :
    (native.Legal control ∧ ∃ step, fate.result = .ok step ∧
      native.step (some control) .granted fate = (native.run control, .ok .done)) ∨
    (native.Legal control ∧ ∃ code, fate.result = .error code ∧
      native.step (some control) .granted fate =
        (native.leave (native.run control) fate.left, .error code)) ∨
    (¬ native.Legal control ∧ native.step (some control) .granted fate = (native, .error 1)) := by
  by_cases hlegal : native.Legal control
  · rcases hresult : fate.result with code | step
    · exact Or.inr (Or.inl ⟨hlegal, code, rfl, Native.control_error hlegal hresult⟩)
    · exact Or.inl ⟨hlegal, step, rfl, Native.control_ok hlegal hresult⟩
  · refine Or.inr (Or.inr ⟨hlegal, ?_⟩)
    simp [Native.step, Native.control, hlegal]

theorem Native.event_illegal {native : Native D} (hlegal : ¬ native.Legal control)
    (permission : Permission) : native.event (some control) permission fate = [] := by
  cases control with
  | commit => simp [Native.event, hlegal]
  | _ => rfl

theorem World.nested_stepped {statement : Option Control} {permission : Permission} :
    (world.stepped statement permission fate).nested contents =
      (world.nested contents).run (world.native.event statement permission fate) :=
  Nested.run_append _ _ _

/-- A control leaves the committed contents as the log says. -/
theorem Core.control_kept (hcore : Core contents world .none) {meter : Meter}
    (hfate : fate.OfControl meter world.native control)
    (hcontents : control = .commit → ∃ rest,
      (world.nested contents).frames = world.native.contents :: rest) :
    Kept contents (world.stepped (some control) .granted fate) := by
  by_cases hlegal : world.native.Legal control
  · obtain ⟨hsettled, hbase⟩ := Native.control_base hlegal hcore.settled hfate hcore.base hcontents
    exact hcore.kept.congr (by rw [World.nested_stepped]; exact hbase) hsettled rfl rfl
  · have hnative : (world.stepped (some control) .granted fate).native = world.native := by
      show (world.native.step (some control) .granted fate).1 = _
      simp [Native.step, Native.control, hlegal]
    refine hcore.kept.congr ?_ (hnative ▸ hcore.settled) rfl rfl
    rw [World.nested_stepped, hnative, Native.event_illegal hlegal, Nested.run_nil]
    exact hcore.base

theorem World.Offers.marked (h : world.Offers call) :
    (world.error tx access action code).1.Offers call := by
  have howe : ∀ pending, (world.owe pending).Offers call := fun _ => h.congr rfl
  unfold World.error
  dsimp only
  split_ifs <;> first | exact h | exact howe _ | exact h.fail

/-- A control that fails marks its transaction. -/
theorem Kept.marked {failed : Option Fault} {saves : List Count} (h : Kept contents world)
    (hscope : world.scope = some ⟨failed, saves⟩) (hcontrol : access.isControl = true)
    (hbusy : world.native.active = true → primary code = sqliteBusy → access.retry ≠ .denied →
      Core contents world .none) :
    ∃ debt, Core contents (world.error true access .step code).1 debt := by
  rcases hactive : world.native.active with _ | _
  · rw [World.error_control_inactive hcontrol hactive]
    exact ⟨.none, h.gone hscope hactive⟩
  · by_cases hprimary : primary code = sqliteBusy
    · rw [World.error_control_busy hcontrol hactive hprimary]
      split_ifs with hretry
      · exact ⟨.none, h.blocked hscope hactive rfl⟩
      · exact ⟨.none, hbusy hactive hprimary fun hdenied => hretry ⟨rfl, hdenied⟩⟩
    · rw [World.error_control_active hcontrol hactive hprimary]
      exact ⟨.transaction, h.broken hscope hactive⟩

/-- A transaction that is not marked by a control that fails is still there. -/
theorem World.active_of_check {failed : Option Fault} {saves : List Count}
    (hscope : world.scope = some ⟨failed, saves⟩) (hcontrol : access.isControl = true)
    (hcheck : (world.error true access .step code).1.check true = .ok ()) :
    world.native.active = true := by
  rcases hactive : world.native.active with _ | _
  · rw [World.error_control_inactive hcontrol hactive, if_pos rfl] at hcheck
    have hfailed := World.failed_of_check hcheck
    rw [World.failed, World.fail_scope hscope] at hfailed
    cases hfailed
  · rfl

/-- A control that is busy has done nothing, unless it has lost its transaction. -/
theorem Fate.OfControl.waits {native : Native D} {meter : Meter}
    (h : fate.OfControl meter native control)
    (hcode : (native.step (some control) .granted fate).2 = .error code)
    (hprimary : primary code = sqliteBusy) :
    native.Legal control ∧ fate.result = .error code ∧
      (fate.left = .same ∧ (native.step (some control) .granted fate).1 = native ∨
        fate.left = .undone ∧ control ≠ .rollback ∧
          (native.step (some control) .granted fate).1 = .new native.committed) := by
  rcases native.control_cases control fate with
    ⟨-, step, -, hstep⟩ | ⟨hlegal, code', hresult, hstep⟩ | ⟨-, hstep⟩
  · rw [hstep] at hcode
    cases hcode
  · rw [hstep] at hcode
    obtain rfl : code' = code := Except.error.inj hcode
    refine ⟨hlegal, hresult, ?_⟩
    rw [hstep]
    rcases h.busy code' hresult hprimary with hleft | ⟨hleft, hne⟩
    · exact Or.inl ⟨hleft, by rw [hleft]; rfl⟩
    · exact Or.inr ⟨hleft, hne, by rw [hleft]; rfl⟩
  · rw [hstep] at hcode
    obtain rfl : 1 = code := Except.error.inj hcode
    simp [primary, sqliteBusy] at hprimary

/-- The round of a control. -/
theorem Inv.poll_control {outcome wait : Except Error Unit} (hclean : Clean world)
    (hstatement : active.statement = some control) (hcontrol : active.access.isControl = true)
    (hfate : fate.OfControl world.work.meter world.native control)
    (hpos : 0 < world.work.meter.primary) (hcall : call ≠ .query)
    (hwait : ∀ error, wait = .error error → ∃ action code,
      error = .busy action code ∨ error = .requestTimeout action code)
    (hok : world.native.Legal control →
      (world.stepped (some control) .granted fate).native = world.native.run control →
      (∃ step, fate.result = .ok step) →
      Inv config contents (((world.stepped (some control) .granted fate).complete
        active.access).1.drop.conclude call
          (.ok ((world.stepped (some control) .granted fate).complete active.access).2)))
    (hend : ∀ code, (world.native.step (some control) .granted fate).2 = .error code →
      ∀ error, World.Honest error →
      Inv config contents (((world.stepped (some control) .granted fate).error (world.tx call)
        active.access .step code).1.drop.conclude call (.error error)))
    (hwaits : ∀ code, (world.native.step (some control) .granted fate).2 = .error code →
      ∀ action' code', ((world.stepped (some control) .granted fate).error (world.tx call)
        active.access .step code).2 = .busy action' code' →
      ((world.stepped (some control) .granted fate).error (world.tx call)
        active.access .step code).1.check (((world.stepped (some control) .granted fate).error
          (world.tx call) active.access .step code).1.tx call) = .ok () →
      0 < (world.work.meter.ticks fate.ticks).1.primary →
      Inv config contents { ((world.stepped (some control) .granted fate).error (world.tx call)
        active.access .step code).1 with op := some ⟨call, some { active with row := false }⟩ }) :
    Inv config contents (world.poll call active fate reset outcome wait) := by
  have hpermission : Permission.granted =
      if active.access.isControl then .granted else .denied := by
    rw [hcontrol]
    rfl
  have hfails : ∀ native' code,
      world.native.step (some control) .granted fate = (native', .error code) →
      Inv config contents (world.poll call active fate reset outcome wait) := by
    intro native' code hnative
    have hstep : world.stepAuthorized (some control) active.access (world.tx call) fate = _ :=
      World.stepAuthorized_error hclean.denied hpermission hnative
    have hcode : (world.native.step (some control) .granted fate).2 = .error code := by rw [hnative]
    refine .poll_error (by rw [hstatement]; exact hstep) World.error_honest hwait (hend code hcode)
      fun action' code' hbusy hcheck hpos => hwaits code hcode action' code' hbusy hcheck ?_
    rw [World.error_meter] at hpos
    exact hpos
  rcases world.native.control_cases control fate with
    ⟨hlegal, step, hresult, hnative⟩ | ⟨-, code, -, hnative⟩ | ⟨-, hnative⟩
  · have hstep : world.stepAuthorized active.statement active.access (world.tx call) fate =
        (world.stepped (some control) .granted fate, .ok .done) := by
      rw [hstatement]
      exact World.stepAuthorized_ok hclean.denied hpermission hnative
    have hguard := World.guard_ok (world.stepped (some control) .granted fate)
      Retry.Step.done (hfate.quota hpos hresult)
    unfold World.poll
    rw [hstep]
    dsimp only
    rw [hguard]
    dsimp only
    rw [if_neg hcall]
    exact hok hlegal (congrArg Prod.fst hnative) ⟨step, hresult⟩
  · exact hfails _ code hnative
  · exact hfails _ 1 hnative

/-- A call on its transaction that fails ends with the transaction marked. -/
theorem Inv.conclude_marked {failed : Option Fault} {saves : List Count} {after : World D}
    (hclean : Clean after) (hkept : Kept contents after)
    (hscope : after.scope = some ⟨failed, saves⟩) (hoffers : after.Offers call)
    (hcontrol : access.isControl = true)
    (hbusy : after.native.active = true → primary code = sqliteBusy → access.retry ≠ .denied →
      Core contents after .none) (hhonest : World.Honest error) :
    Inv config contents ((after.error true access .step code).1.drop.conclude call
      (.error error)) := by
  obtain ⟨debt, hcore⟩ := hkept.marked hscope hcontrol hbusy
  have hclean' : Clean (after.error true access .step code).1 := hclean.marked
  have hoffers' : (after.error true access .step code).1.Offers call := hoffers.marked
  refine .conclude_error ⟨hclean'.denied, hclean'.native, hclean'.cleanup,
    hclean'.reply⟩ (show Core contents _ debt from
    hcore.congr rfl rfl rfl rfl rfl rfl) (.of_idle rfl) (hoffers'.congr rfl) hhonest

/-- A savepoint's call, and the call that opens one, do not wait. -/
theorem World.not_waiting {failed : Option Fault} {saves : List Count} (after : World D)
    (access : Access)
    (hscope : after.scope = some ⟨failed, saves⟩) (hcontrol : access.isControl = true)
    (hretry : access.retry = .denied) {action' : Action} {code' : ℤ}
    (hbusy : (after.error true access .step code).2 = .busy action' code')
    (hcheck : (after.error true access .step code).1.check true = .ok ()) : False :=
  World.error_denied (World.active_of_check hscope hcontrol hcheck) hretry _ _ hbusy

/-! ## The calls -/

/-- The statement of a call that is not a query is the one it binds. -/
theorem Bound.exact (h : Bound config world call active) (hcall : call ≠ .query) :
    active.row = false ∧ world.bind config call (.ok ()) = some (.ok active) := by
  have hrow : active.row = false := by
    rcases hrow : active.row with _ | _
    · rfl
    · exact absurd (h.row hrow) hcall
  refine ⟨hrow, ?_⟩
  have hbind := h.bind
  rw [← hrow] at hbind
  exact hbind

theorem Bound.eq {active' : Active} (h : Bound config world call active) (hcall : call ≠ .query)
    (hbind : world.bind config call (.ok ()) = some (.ok active')) : active = active' :=
  Except.ok.inj (Option.some.inj ((h.exact hcall).2.symm.trans hbind))

theorem World.nested_control (hcontrol : control ≠ .commit) :
    (world.stepped (some control) .granted fate).nested contents = world.nested contents := by
  rw [nested_stepped, Native.event_control _ hcontrol, Nested.run_nil]

/-- A call that waits is still bound. -/
theorem Inv.wait (active : Active) {after : World D} (hclean : Clean after)
    (hcore : Core contents after .none) (hoffers : after.Offers call)
    (hhealthy : after.work.health.mode = .healthy)
    (hmode : after.work.meter.mode = .primary) (hpos : 0 < after.work.meter.primary)
    (hcheck : after.check (after.tx call) = .ok ())
    (hbind : after.bind config call (.ok ()) = some (.ok { active with row := false })) :
    Inv config contents { after with op := some ⟨call, some { active with row := false }⟩ } :=
  ⟨hclean.congr rfl rfl hclean.reply, .none, hcore.congr rfl rfl rfl rfl rfl rfl,
    hoffers.congr rfl, rfl, hhealthy, hmode, hpos, hcheck, hbind, by rintro ⟨⟩⟩

theorem Nested.follow_began (nested : Nested D) :
    nested.follow .began = ⟨nested.base, [nested.base]⟩ := by
  rcases nested with ⟨base, _ | ⟨frame, frames⟩⟩ <;> rfl

theorem Nested.follow_opened_base (nested : Nested D) :
    (nested.follow .opened).base = nested.base := by
  rcases nested with ⟨base, _ | ⟨frame, frames⟩⟩ <;> rfl

theorem Nested.follow_reverted_base (nested : Nested D) :
    (nested.follow .reverted).base = nested.base := by
  rcases nested with ⟨base, _ | ⟨frame, _ | ⟨frame', frames⟩⟩⟩ <;> rfl

/-- A transaction that has recorded no failure is running. -/
theorem Core.running {failed : Option Fault} {saves : List Count}
    (hcore : Core contents world .none) (hcheck : world.check true = .ok ())
    (hscope : world.scope = some ⟨failed, saves⟩) :
    failed = none ∧ Stage world.native world.work.depth (some ⟨none, saves⟩)
      (world.nested contents).frames .none := by
  have hfailed := World.failed_of_check hcheck
  have hstage := hcore.stage
  rw [World.failed, hscope] at hfailed
  obtain rfl : failed = none := hfailed
  exact ⟨rfl, hscope ▸ hstage⟩

section Saves

variable {after : World D} {current : Count} {saves : List Count} (hclean : Clean after)
  (hkept : Kept contents after)
include hclean hkept

/-- The own savepoint was released. -/
theorem Inv.released (hscope : after.scope = some ⟨none, current :: saves⟩)
    (hstage : Stage after.native current.prior (some ⟨none, saves⟩)
      ((after.nested contents).follow .released).frames .none) :
    Inv config contents ((after.complete (.completion (some current) true)).1.drop.conclude
      .saveCommit (.ok true)) := by
  let closed := (after.complete (.completion (some current) true)).1.drop.conclude
    .saveCommit (.ok true)
  have hnested : closed.nested contents = (after.nested contents).follow .released :=
    Nested.run_append _ _ _
  have hscope' : closed.scope = some ⟨none, saves⟩ := by
    show after.scope.map _ = _
    rw [hscope]
    rfl
  refine .rest ⟨hclean.denied, hclean.native, hclean.cleanup, by rintro _ ⟨⟩⟩
    (Kept.core (⟨?_, hkept.settled, hkept.word, hkept.sane⟩ : Kept contents closed) ?_)
    (.of_idle rfl) rfl
  · rw [hnested, Nested.follow_released_base]
    exact hkept.base
  · rw [hnested, hscope']
    exact hstage

/-- The own savepoint was rolled back to. -/
theorem Inv.reverted (hstage : Stage after.native after.work.depth after.scope
      ((after.nested contents).follow .reverted).frames .none) :
    Inv config contents ((after.complete (.completion none true)).1.drop.conclude
      .saveRollback (.ok true)) := by
  let reverted := (after.complete (.completion none true)).1.drop.conclude .saveRollback (.ok true)
  have hnested : reverted.nested contents = (after.nested contents).follow .reverted :=
    Nested.run_append _ _ _
  refine .rest ⟨hclean.denied, hclean.native, hclean.cleanup, by rintro _ ⟨⟩⟩
    (Kept.core (⟨?_, hkept.settled, hkept.word, hkept.sane⟩ : Kept contents reverted) ?_)
    (.of_idle rfl) rfl
  · rw [hnested, Nested.follow_reverted_base]
    exact hkept.base
  · rw [hnested]
    exact hstage

/-- A savepoint above the own one was released, and the call starts again. -/
theorem Inv.again (hcall : call = .saveCommit ∨ call = .saveRollback) (hoffers : after.Offers call)
    (hstage : Stage after.native current.prior after.scope (after.nested contents).frames .none) :
    Inv config contents ((after.complete (.completion (some current) false)).1.drop.conclude
      call (.ok false)) := by
  let released := (after.complete (.completion (some current) false)).1.drop
  have hconclude : released.conclude call (.ok false) =
      { released with op := some ⟨call, none⟩ } := by
    rcases hcall with rfl | rfl <;> rfl
  show Inv config contents (released.conclude call (.ok false))
  rw [hconclude]
  exact ⟨⟨hclean.denied, hclean.native, hclean.cleanup, hclean.reply⟩, .none,
    Kept.core ⟨hkept.base, hkept.settled, hkept.word, hkept.sane⟩ hstage,
    hoffers.congr rfl, (.of_idle rfl)⟩

end Saves

section Poll

variable {outcome wait : Except Error Unit} (hclean : Clean world)
  (hcore : Core contents world .none) (hbound : Bound config world call active)
  (hwait : ∀ error, wait = .error error → ∃ action code,
    error = .busy action code ∨ error = .requestTimeout action code)
include hclean hcore hbound hwait

theorem Inv.poll_begin (hcall : call = .begin) (hoffers : world.scope = none)
    (hfate : fate.OfControl world.work.meter world.native .begin) :
    Inv config contents (world.poll call active fate reset outcome wait) := by
  subst hcall
  obtain rfl := hbound.eq (by simp) rfl
  have hstage := hcore.stage
  rw [hoffers] at hstage
  obtain ⟨hidle, hdepth, hframes⟩ := hstage.exists_idle
  let after := world.stepped (some .begin) .granted fate
  have hnested : after.nested contents = world.nested contents :=
    World.nested_control (by simp)
  have hclean' : Clean after := hclean.stepped
  have hkept : Kept contents after := hcore.control_kept hfate (by rintro ⟨⟩)
  have hinactive : ∀ code, (world.native.step (some .begin) .granted fate).2 = .error code →
      primary code = sqliteBusy → after.native.active = false := by
    intro code hcode hprimary
    show (world.native.step (some .begin) .granted fate).1.active = false
    obtain ⟨-, -, hleft⟩ := hfate.waits hcode hprimary
    rcases hleft with ⟨-, hsame⟩ | ⟨-, -, hundone⟩
    · rw [hsame, hidle]
    · rw [hundone]
      rfl
  have hcore' : after.native.active = false → Core contents after .none := fun hactive =>
    hkept.core (.idle hoffers hactive hdepth (by rw [hnested]; exact hframes))
  refine .poll_control hclean rfl rfl hfate hbound.quota (by simp) hwait ?_ ?_ ?_
  · intro _ hnative _
    obtain ⟨hlegal, hstage'⟩ := hstage.begin hcore.settled
    have hlog : World.nested contents (after.drop.conclude .begin (.ok true)) =
        (world.nested contents).follow .began := by
      show Nested.run _ (after.log ++ [.began]) = _
      rw [Nested.run_append]
      exact congrArg (fun nested => Nested.follow nested .began) hnested
    show Inv config contents (after.drop.conclude .begin (.ok true))
    refine .rest ⟨hclean'.denied, hclean'.native, hclean'.cleanup, by rintro _ ⟨⟩⟩
      (Kept.core ⟨?_, hkept.settled, hkept.word, hkept.sane⟩ ?_) (.of_idle rfl) rfl
    · rw [hlog, Nested.follow_began, ← hnested]
      exact hkept.base
    · rw [hlog, Nested.follow_began, ← hcore.base]
      show Stage after.native world.work.depth (some ⟨none, []⟩) [world.native.committed] .none
      rw [hnative]
      exact hstage'
  · intro code hcode error hhonest
    show Inv config contents ((after.error false _ .step code).1.drop.conclude _ _)
    rcases hactive : after.native.active with _ | _
    · rw [World.error_control_inactive rfl hactive]
      exact .conclude_error (hclean'.congr rfl rfl hclean'.reply)
        ((hcore' hactive).congr rfl rfl rfl rfl rfl rfl) (.of_idle rfl) hoffers hhonest
    · have hprimary : primary code ≠ sqliteBusy := fun h => by
        cases hactive.symm.trans (hinactive code hcode h)
      rw [World.error_control_active rfl hactive hprimary]
      have hword : Pending.transaction after.work.pending = Debt.transaction.word := by
        rw [hkept.word]
        rfl
      have howing : Core contents (after.owe (Pending.transaction after.work.pending)).drop
          .transaction :=
        ⟨hkept.base, hkept.settled, hword,
          .owing hoffers hactive ((congrArg Nested.frames hnested).trans hframes),
          ⟨by rintro ⟨⟩, fun hmode => absurd hmode hkept.sane⟩⟩
      exact .conclude_error (hclean'.congr rfl rfl hclean'.reply) howing (.of_idle rfl) hoffers
        hhonest
  · intro code hcode action' code' hbusy hcheck hpos
    have hprimary : primary code = sqliteBusy := by
      by_contra hne
      exact World.error_not_busy hne _ _ hbusy
    have hactive := hinactive code hcode hprimary
    have hsame : (after.error false (.control .denied) .step code).1 = after :=
      World.error_control_inactive rfl hactive
    show Inv config contents { (after.error false (.control .denied) .step code).1 with
      op := some ⟨.begin, some ⟨some .begin, .control .denied, false⟩⟩ }
    rw [hsame]
    exact .wait ⟨some .begin, .control .denied, false⟩ hclean' (hcore' hactive) hoffers
      hbound.healthy ((Meter.ticks_mode _ _).trans hbound.mode) hpos rfl rfl

theorem Inv.poll_rollback (hcall : call = .rollback)
    (hoffers : ∃ failed, world.scope = some ⟨failed, []⟩)
    (hfate : fate.OfControl world.work.meter world.native .rollback) :
    Inv config contents (world.poll call active fate reset outcome wait) := by
  subst hcall
  obtain rfl := hbound.eq (by simp) rfl
  obtain ⟨failed, hscope⟩ := hoffers
  have hstanding := (hscope ▸ hcore.stage).standing
  let after := world.stepped (some .rollback) .granted fate
  have hclean' : Clean after := hclean.stepped
  have hkept : Kept contents after := hcore.control_kept hfate (by rintro ⟨⟩)
  have hsame : ∀ code, (world.native.step (some .rollback) .granted fate).2 = .error code →
      primary code = sqliteBusy → after.native = world.native ∧ world.native.active = true := by
    intro code hcode hprimary
    obtain ⟨hlegal, -, ⟨-, hsame⟩ | ⟨-, hne, -⟩⟩ := hfate.waits hcode hprimary
    · exact ⟨hsame, hlegal⟩
    · exact absurd rfl hne
  -- the transaction is over, or it is still there and owed its rollback
  have hend : ∀ (world' : World D) (debt : Debt) (result : Except Error Bool),
      world'.native = after.native → world'.log = after.log → world'.work.meter.mode = .idle →
      Clean world' → world'.scope = world.scope → world'.work.health = after.work.health →
      world'.work.pending = debt.word → debt ≠ .failed →
      (after.native.active = true ∧
        ((failed.map Retry.Fault.aborted).getD false = true → debt = .transaction) ∨
        after.native.active = false ∧ debt = .none) →
      (result.isOk = true → after.native.active = false) →
      (∀ error, result = .error error → World.Honest error) →
      Inv config contents (world'.conclude .rollback result) := by
    intro world' debt result hnative hlog hmode hclean'' hscope' hhealth hword hdebt hstands hok
      hresult
    refine .conclude_end (Or.inr rfl) hclean'' ?_ (hnative ▸ hkept.settled) hword ?_
      ⟨by simp [hmode], by simp [hmode]⟩ (hscope'.trans hscope) (Or.inr ?_)
      (fun h => hnative ▸ hok h) hresult
    · rw [hnative, World.nested_congr hlog]
      exact hkept.base
    · rw [hhealth]
      exact ⟨fun h => absurd h hdebt, fun h => absurd h hkept.sane⟩
    · rw [hnative]
      exact hstands
  refine .poll_control hclean rfl rfl hfate hbound.quota (by simp) hwait ?_ ?_ ?_
  · intro _ hnative _
    have hactive : after.native.active = false := by
      rw [hnative]
      rfl
    exact hend after.drop .none (.ok true) rfl rfl rfl (hclean'.congr rfl rfl hclean'.reply) rfl rfl
      hkept.word (by simp) (Or.inr ⟨hactive, rfl⟩) (fun _ => hactive) (by rintro _ ⟨⟩)
  · intro code hcode error hhonest
    show Inv config contents ((after.error false _ .step code).1.drop.conclude _ _)
    have hresult : ∀ error', (.error error : Except Error Bool) = .error error' →
        World.Honest error' := fun error' h => Except.error.inj h ▸ hhonest
    rcases hactive : after.native.active with _ | _
    · rw [World.error_control_inactive rfl hactive]
      exact hend after.drop .none _ rfl rfl rfl (hclean'.congr rfl rfl hclean'.reply) rfl rfl
        hkept.word (by simp) (Or.inr ⟨hactive, rfl⟩) (by rintro ⟨⟩) hresult
    · by_cases hprimary : primary code = sqliteBusy
      · rw [World.error_control_busy rfl hactive hprimary]
        obtain ⟨hnative, hactive'⟩ := hsame code hcode hprimary
        refine hend after.drop .none _ rfl rfl rfl (hclean'.congr rfl rfl hclean'.reply) rfl rfl
          hkept.word (by simp) (Or.inl ⟨hactive, ?_⟩) (by rintro ⟨⟩) hresult
        rcases hstanding with h | ⟨-, h⟩ | ⟨h, -⟩
        · cases h
        · exact h
        · cases hactive'.symm.trans h
      · rw [World.error_control_active rfl hactive hprimary]
        refine hend (after.owe (Pending.transaction after.work.pending)).drop .transaction _ rfl rfl
          rfl (hclean'.congr rfl rfl hclean'.reply) rfl rfl ?_ (by simp)
          (Or.inl ⟨hactive, fun _ => rfl⟩) (by rintro ⟨⟩) hresult
        show Pending.transaction after.work.pending = _
        rw [hkept.word]
        rfl
  · intro code hcode action' code' hbusy hcheck hpos
    have hprimary : primary code = sqliteBusy := by
      by_contra hne
      exact World.error_not_busy hne _ _ hbusy
    obtain ⟨hnative, hactive⟩ := hsame code hcode hprimary
    exact absurd hbusy (World.error_denied (hnative ▸ hactive) rfl _ _)

theorem Inv.poll_commit (hcall : call = .commit)
    (hoffers : ∃ failed, world.scope = some ⟨failed, []⟩)
    (hfate : fate.OfControl world.work.meter world.native .commit) :
    Inv config contents (world.poll call active fate reset outcome wait) := by
  subst hcall
  obtain rfl := hbound.eq (by simp) rfl
  obtain ⟨failed, hscope⟩ := hoffers
  obtain ⟨rfl, hstage⟩ := hcore.running hbound.check hscope
  obtain ⟨hactive, -, rest, -, hframes⟩ := hstage.exists_running
  let after := world.stepped (some .commit) .granted fate
  have hclean' : Clean after := hclean.stepped
  have hkept : Kept contents after := hcore.control_kept hfate fun _ => ⟨rest, hframes⟩
  have hcore' : ∀ code, (world.native.step (some .commit) .granted fate).2 = .error code →
      primary code = sqliteBusy → after.native.active = true → Core contents after .none := by
    intro code hcode hprimary hactive'
    obtain ⟨-, hresult, ⟨hleft, hsame⟩ | ⟨-, -, hundone⟩⟩ := hfate.waits hcode hprimary
    · have hevent : world.native.event (some .commit) .granted fate = [] := by
        simp [Native.event, hresult, hleft]
      refine hcore.congr hsame rfl rfl rfl rfl ?_
      show world.log ++ world.native.event (some .commit) .granted fate = _
      rw [hevent, List.append_nil]
    · have hinactive : after.native.active = false := by
        show (world.native.step (some .commit) .granted fate).1.active = false
        rw [hundone]
        rfl
      cases hactive'.symm.trans hinactive
  refine .poll_control hclean rfl rfl hfate hbound.quota (by simp) hwait ?_ ?_ ?_
  · intro _ hnative _
    have hinactive : after.native.active = false := by
      rw [hnative]
      rfl
    show Inv config contents (after.drop.conclude .commit (.ok true))
    exact .conclude_end (Or.inl rfl) (hclean'.congr rfl rfl hclean'.reply)
      hkept.base hkept.settled hkept.word ⟨by rintro ⟨⟩, fun hmode => absurd hmode hkept.sane⟩
      (show Resting after.drop .none from (.of_idle rfl)) hscope (Or.inr (Or.inr ⟨hinactive, rfl⟩))
      (fun _ => hinactive) (by rintro _ ⟨⟩)
  · intro code hcode error hhonest
    exact .conclude_marked hclean' hkept hscope ⟨none, hscope⟩ rfl
      (fun hactive' hprimary _ => hcore' code hcode hprimary hactive') hhonest
  · intro code hcode action' code' hbusy hcheck hpos
    have hprimary : primary code = sqliteBusy := by
      by_contra hne
      exact World.error_not_busy hne _ _ hbusy
    have hactive' : after.native.active = true :=
      World.active_of_check hscope rfl
        (show (after.error true (.control .allowed) .step code).1.check true = .ok () from hcheck)
    have hsame : (after.error true (.control .allowed) .step code).1 = after := by
      rw [World.error_control_busy rfl hactive' hprimary, if_neg (by simp [Access.retry])]
    show Inv config contents { (after.error true (.control .allowed) .step code).1 with
      op := some ⟨.commit, some ⟨some .commit, .control .allowed, false⟩⟩ }
    rw [hsame]
    exact .wait ⟨some .commit, .control .allowed, false⟩ hclean'
      (hcore' code hcode hprimary hactive') ⟨none, hscope⟩ hbound.healthy
      ((Meter.ticks_mode _ _).trans hbound.mode) hpos (hsame ▸ hcheck) rfl

theorem Inv.poll_savepoint (hcall : call = .savepoint) (hoffers : world.scope ≠ none)
    (hfate : fate.OfControl world.work.meter world.native .savepoint) :
    Inv config contents (world.poll call active fate reset outcome wait) := by
  subst hcall
  rcases hscope : world.scope with _ | ⟨failed, saves⟩
  · exact absurd hscope hoffers
  obtain ⟨rfl, hstage⟩ := hcore.running hbound.check hscope
  obtain ⟨permit, hpermit, rfl⟩ : ∃ permit, permit.get = world.work.depth.get + 1 ∧
      active = ⟨some .savepoint, .permit permit, false⟩ := by
    have hbind := (hbound.exact (by simp)).2
    unfold World.bind Depth.check at hbind
    dsimp only at hbind
    split at hbind
    · rename_i permit hpermit
      refine ⟨permit, ?_, (Except.ok.inj (Option.some.inj hbind)).symm⟩
      unfold Count.after at hpermit
      split at hpermit
      · exact congrArg Count.get (Option.some.inj hpermit).symm
      · cases hpermit
    · cases Option.some.inj hbind
  let after := world.stepped (some .savepoint) .granted fate
  have hnested : after.nested contents = world.nested contents :=
    World.nested_control (by simp)
  have hclean' : Clean after := hclean.stepped
  have hkept : Kept contents after := hcore.control_kept hfate (by rintro ⟨⟩)
  refine .poll_control hclean rfl rfl hfate hbound.quota (by simp) hwait ?_ ?_ ?_
  · intro _ hnative _
    let opened : World D := { after with work := { after.work with depth := some permit } }
    show Inv config contents (opened.drop.conclude .savepoint (.ok true))
    have hlog : World.nested contents (opened.drop.conclude .savepoint (.ok true)) =
        (world.nested contents).follow .opened := by
      show Nested.run _ (after.log ++ [.opened]) = _
      rw [Nested.run_append]
      exact congrArg (fun nested => Nested.follow nested .opened) hnested
    have hscope' : (opened.drop.conclude .savepoint (.ok true)).scope =
        some ⟨none, permit :: saves⟩ := by
      show world.scope.map _ = _
      rw [hscope]
      rfl
    refine .rest ⟨hclean'.denied, hclean'.native, hclean'.cleanup, by rintro _ ⟨⟩⟩
      (Kept.core ⟨?_, hkept.settled, hkept.word, hkept.sane⟩ ?_) (.of_idle rfl) rfl
    · rw [hlog, Nested.follow_opened_base, ← hnested]
      exact hkept.base
    · rw [hlog, hscope']
      show Stage after.native (some permit) _ _ _
      rw [hnative]
      exact (hstage.savepoint hpermit).2
  · intro code hcode error hhonest
    exact .conclude_marked hclean' hkept hscope hoffers rfl
      (fun _ _ hretry => absurd rfl hretry) hhonest
  · intro code hcode action' code' hbusy hcheck hpos
    exact (World.not_waiting after (.permit permit) hscope rfl rfl hbusy hcheck).elim

theorem Inv.poll_save {failed : Option Fault} {count : Count} {saves : List Count}
    (hcall : call = .saveCommit ∨ call = .saveRollback)
    (hscope : world.scope = some ⟨failed, count :: saves⟩)
    (hfate : fate.Sound world.work.meter world.native active.statement) :
    Inv config contents (world.poll call active fate reset outcome wait) := by
  have hquery : call ≠ .query := by rcases hcall with rfl | rfl <;> simp
  have htx : ∀ world' : World D, world'.tx call = true := by
    rcases hcall with rfl | rfl <;> exact fun _ => rfl
  have hoffers : ∀ world' : World D, world'.scope = world.scope → world'.Offers call := by
    intro world' hscope'
    rcases hcall with rfl | rfl <;> exact ⟨failed, count, saves, hscope'.trans hscope⟩
  have hcheck := hbound.check
  rw [htx] at hcheck
  obtain ⟨current, hcurrent⟩ := hcore.exists_depth hcheck hscope
  obtain ⟨rfl, hstage⟩ := hcore.running hcheck hscope
  rw [hcurrent] at hstage
  have hactive := hbound.eq hquery
    (World.bind_save hcall hcurrent (by rw [hscope]; rfl))
  -- a control of a savepoint that fails
  have hfails : ∀ (control : Control) (access : Access), control ≠ .commit →
      access.isControl = true → access.retry = .denied →
      active = ⟨some control, access, false⟩ →
      fate.OfControl world.work.meter world.native control →
      (world.native.Legal control →
        (world.stepped (some control) .granted fate).native = world.native.run control →
        (∃ step, fate.result = .ok step) →
        Inv config contents (((world.stepped (some control) .granted fate).complete
          active.access).1.drop.conclude call
            (.ok ((world.stepped (some control) .granted fate).complete active.access).2))) →
      Inv config contents (world.poll call active fate reset outcome wait) := by
    rintro control access hne hcontrol hretry rfl hfate hok
    have hkept : Kept contents (world.stepped (some control) .granted fate) :=
      hcore.control_kept hfate fun h => absurd h hne
    refine .poll_control hclean rfl hcontrol hfate hbound.quota hquery hwait hok ?_ ?_
    · intro code hcode error hhonest
      rw [htx]
      exact .conclude_marked hclean.stepped hkept hscope (hoffers _ rfl) hcontrol
        (fun _ _ h => absurd hretry h) hhonest
    · intro code hcode action' code' hbusy hcheck' hpos
      rw [htx] at hbusy hcheck'
      rw [htx] at hcheck'
      exact (World.not_waiting (world.stepped (some control) .granted fate) access hscope
        hcontrol hretry hbusy hcheck').elim
  by_cases heq : current = count
  · subst heq
    rcases hcall with rfl | rfl
    · rw [if_neg (by simp), decide_eq_true rfl] at hactive
      subst hactive
      refine hfails .release (.completion (some current) true) (by simp) rfl rfl rfl hfate
        fun _ hnative _ => ?_
      have hrelease : fate.OfControl world.work.meter world.native .release := hfate
      refine .released hclean.stepped (hcore.control_kept hrelease (by rintro ⟨⟩))
        hscope ?_
      rw [hnative, World.nested_control (by simp)]
      exact hstage.release_own.2
    · rw [if_pos ⟨rfl, rfl⟩] at hactive
      subst hactive
      refine hfails .rollbackTo (.completion none true) (by simp) rfl rfl rfl hfate
        fun _ hnative _ => ?_
      have hrollback : fate.OfControl world.work.meter world.native .rollbackTo := hfate
      refine .reverted hclean.stepped (hcore.control_kept hrollback (by rintro ⟨⟩)) ?_
      rw [hnative, World.nested_control (by simp)]
      show Stage _ world.work.depth world.scope _ _
      rw [hcurrent, hscope]
      exact hstage.rollbackTo_own.2
  · rw [if_neg fun h => heq h.1, decide_eq_false heq] at hactive
    subst hactive
    refine hfails .release (.completion (some current) false) (by simp) rfl rfl rfl hfate
      fun _ hnative _ => ?_
    have hrelease : fate.OfControl world.work.meter world.native .release := hfate
    refine .again hclean.stepped (hcore.control_kept hrelease (by rintro ⟨⟩)) hcall
      (hoffers _ rfl) ?_
    rw [hnative, World.nested_control (by simp)]
    show Stage _ _ world.scope _ _
    rw [hscope]
    exact (hstage.release_forgotten heq).2

end Poll

/-! ## Runs -/

theorem Inv.act_step {outcome wait : Except Error Unit} (h : Inv config contents world)
    (hallowed : world.Allowed config (.step fate reset outcome wait)) :
    ∃ world', world.act config (.step fate reset outcome wait) = some world' ∧
      Inv config contents world' := by
  obtain ⟨call, active, hop, hfate, hreset, houtcome, hwait⟩ := hallowed
  obtain ⟨debt, hcore, hflight⟩ := h.core
  rw [Flight, hop] at hflight
  obtain ⟨hoffers, rfl, hbound⟩ := hflight
  refine ⟨world.poll call active fate reset outcome wait, by rw [World.act, hop]; rfl, ?_⟩
  cases call with
  | query => exact .poll_query h.clean hcore hbound hfate hreset houtcome hwait
  | begin =>
    rw [hbound.eq (by simp) rfl] at hfate
    exact .poll_begin h.clean hcore hbound hwait rfl hoffers hfate
  | commit =>
    rw [hbound.eq (by simp) rfl] at hfate
    exact .poll_commit h.clean hcore hbound hwait rfl hoffers hfate
  | rollback =>
    rw [hbound.eq (by simp) rfl] at hfate
    exact .poll_rollback h.clean hcore hbound hwait rfl hoffers hfate
  | savepoint =>
    have hstatement : active.statement = some .savepoint := by
      have hbind := (hbound.exact (by simp)).2
      unfold World.bind Depth.check at hbind
      dsimp only at hbind
      split at hbind
      · rw [← Except.ok.inj (Option.some.inj hbind)]
      · cases Option.some.inj hbind
    rw [hstatement] at hfate
    exact .poll_savepoint h.clean hcore hbound hwait rfl hoffers hfate
  | saveCommit =>
    obtain ⟨failed, count, saves, hscope⟩ := hoffers
    exact .poll_save h.clean hcore hbound hwait (Or.inl rfl) hscope hfate
  | saveRollback =>
    obtain ⟨failed, count, saves, hscope⟩ := hoffers
    exact .poll_save h.clean hcore hbound hwait (Or.inr rfl) hscope hfate

/-- Every action that is allowed has a result, and keeps the invariant. -/
theorem Inv.act {act : Act D} (h : Inv config contents world)
    (hallowed : world.Allowed config act) :
    ∃ world', world.act config act = some world' ∧ Inv config contents world' := by
  cases act with
  | call call => exact ⟨_, rfl, h.act_call hallowed⟩
  | clean fate => exact h.act_clean hallowed
  | prepare bound => exact h.act_prepare hallowed
  | step fate reset outcome wait => exact h.act_step hallowed
  | finish reset outcome => exact h.act_finish hallowed
  | cancel reset => exact h.act_cancel hallowed
  | drop => exact h.act_drop hallowed
  | forget => exact ⟨_, rfl, h.act_forget hallowed⟩
  | park fate => exact h.act_park hallowed

theorem inv_new (contents : D) : Inv config contents (World.new contents) :=
  .rest ⟨rfl, by rintro _ ⟨⟩, by rintro _ ⟨⟩, by rintro _ ⟨⟩⟩
    (Kept.core ⟨rfl, fun _ => rfl, rfl, by simp [World.new, Work.new, Health.new]⟩
      (.idle rfl rfl rfl rfl)) (.of_idle rfl) rfl

theorem Reached.inv (h : Reached config contents world) : Inv config contents world := by
  induction h with
  | new => exact inv_new contents
  | act _ hallowed hact ih =>
    obtain ⟨world', hact', hinv⟩ := ih.act hallowed
    obtain rfl := Option.some.inj (hact.symm.trans hact')
    exact hinv

end Cartel.Sqlite.Tx
