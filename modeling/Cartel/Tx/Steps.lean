import Cartel.Tx.Stages

/-!
# What a step does to the record

The meter counts down while a statement runs, an error marks the transaction it meets, and a call
that ends returns what it owns. The lemmas here say what each of these leaves of a world, field by
field.
-/

namespace Cartel.Sqlite.Tx

open Cartel.Lib (Event Nested Frames)

variable {D : Type}

/-! ## The meter -/

namespace Meter

variable {meter : Meter}

@[simp]
theorem tick_mode (meter : Meter) : meter.tick.1.mode = meter.mode := by
  unfold tick
  split_ifs <;> rfl

@[simp]
theorem tick_permission (meter : Meter) : meter.tick.1.permission = meter.permission := by
  unfold tick
  split_ifs <;> rfl

@[simp]
theorem ticks_mode (count : ℕ) (meter : Meter) : (meter.ticks count).1.mode = meter.mode := by
  induction count generalizing meter with
  | zero => rfl
  | succ count ih =>
    unfold ticks
    split
    · exact tick_mode meter
    · rw [ih, tick_mode]

@[simp]
theorem ticks_permission (count : ℕ) (meter : Meter) :
    (meter.ticks count).1.permission = meter.permission := by
  induction count generalizing meter with
  | zero => rfl
  | succ count ih =>
    unfold ticks
    split
    · exact tick_permission meter
    · rw [ih, tick_permission]

/-- A quota that has not stopped its statement is not exhausted. -/
theorem ticks_pos (count : ℕ) (meter : Meter) (hpos : 0 < meter.primary)
    (hstop : (meter.ticks count).2 = false) : 0 < (meter.ticks count).1.primary := by
  induction count generalizing meter with
  | zero => exact hpos
  | succ count ih =>
    rcases htick : meter.tick.2 with _ | _
    · simp only [ticks, htick, Bool.false_eq_true, if_false] at hstop ⊢
      refine ih _ ?_ hstop
      unfold tick at htick ⊢
      split_ifs at htick ⊢ with hmode hzero
      · exact hpos
      · simp only [decide_eq_false_iff_not] at htick
        exact Nat.pos_of_ne_zero htick
    · simp [ticks, htick] at hstop

theorem grant_ticks (count : ℕ) (meter : Meter) :
    meter.grant.ticks count = ((meter.ticks count).1.grant, (meter.ticks count).2) := by
  induction count generalizing meter with
  | zero => rfl
  | succ count ih =>
    have htick : meter.grant.tick = (meter.tick.1.grant, meter.tick.2) := by
      unfold tick grant
      dsimp only
      split_ifs <;> rfl
    unfold ticks
    rw [htick]
    dsimp only
    split
    · rfl
    · exact ih _

theorem deny_grant (hdenied : meter.permission = .denied) : meter.grant.deny = meter := by
  rcases meter with ⟨primary, mode, permission⟩
  obtain rfl : permission = .denied := hdenied
  rfl

end Meter

/-! ## The world after an error -/

namespace World

variable {world : World D} {tx : Bool} {access : Access} {action : Action} {code : ℤ}

@[simp]
theorem error_native : (world.error tx access action code).1.native = world.native := by
  unfold error
  dsimp only
  split_ifs <;> rfl

@[simp]
theorem error_meter : (world.error tx access action code).1.work.meter = world.work.meter := by
  unfold error
  dsimp only
  split_ifs <;> rfl

@[simp]
theorem error_health : (world.error tx access action code).1.work.health = world.work.health := by
  unfold error
  dsimp only
  split_ifs <;> rfl

@[simp]
theorem error_op : (world.error tx access action code).1.op = world.op := by
  unfold error
  dsimp only
  split_ifs <;> rfl

@[simp]
theorem error_reply : (world.error tx access action code).1.reply = world.reply := by
  unfold error
  dsimp only
  split_ifs <;> rfl

@[simp]
theorem error_log : (world.error tx access action code).1.log = world.log := by
  unfold error
  dsimp only
  split_ifs <;> rfl

theorem error_metered (meter : Meter) : (world.metered meter).error tx access action code =
    ((world.error tx access action code).1.metered meter,
      (world.error tx access action code).2) := by
  unfold error
  dsimp only [metered]
  split_ifs <;> rfl

theorem error_scope : (world.error false access action code).1.scope = world.scope := by
  unfold error
  dsimp only
  split_ifs <;> first | rfl | contradiction

/-- Outside a transaction the error of a query marks nothing. -/
theorem error_query (hplain : access.isControl = false) :
    (world.error false access action code).1 = world := by
  unfold error
  simp only [hplain, Bool.false_eq_true, not_false_eq_true, and_true, true_and, and_false,
    false_and, if_false]
  split_ifs <;> rfl

/-- In a transaction it marks the transaction busy, or aborted if it is gone. -/
theorem error_query_tx (hplain : access.isControl = false) (hretry : access.retry = .denied) :
    (world.error true access action code).1 =
      if world.native.active = false then world.fail (Fault.new action code).abort
      else if primary code = sqliteBusy then world.fail (Fault.new action code)
      else world := by
  unfold error
  rcases world.native.active with _ | _ <;> simp [hplain, hretry]

/-- The error of a control that has lost its transaction marks it aborted. -/
theorem error_control_inactive (hcontrol : access.isControl = true)
    (hactive : world.native.active = false) : (world.error tx access action code).1 =
      if tx then world.fail (Fault.new action code).abort else world := by
  unfold error
  simp [hcontrol, hactive]

/-- A control that fails in its transaction leaves the transaction to be rolled back. -/
theorem error_control_active (hcontrol : access.isControl = true)
    (hactive : world.native.active = true) (hbusy : primary code ≠ sqliteBusy) :
    (world.error tx access action code).1 =
      if tx then (world.owe (Pending.transaction world.work.pending)).fail
        (Fault.new action code).abort
      else world.owe (Pending.transaction world.work.pending) := by
  unfold error
  simp [hcontrol, hactive, hbusy]

/-- A control that is busy marks its transaction, unless it may be tried again. -/
theorem error_control_busy (hcontrol : access.isControl = true)
    (hactive : world.native.active = true) (hbusy : primary code = sqliteBusy) :
    (world.error tx access action code).1 =
      if tx ∧ access.retry = .denied then world.fail (Fault.new action code) else world := by
  unfold error
  rcases tx with _ | _ <;> simp [hcontrol, hactive, hbusy]

/-! ## The error itself -/

/-- The errors of a statement : none of them is the error of a call inside a call. -/
def Honest (error : Error) : Prop :=
  error ≠ .reentrantQuery

theorem error_honest : Honest (world.error tx access action code).2 := by
  unfold error Fault.error Access.busy Fault.transaction Fault.busy Honest
  dsimp only
  split_ifs <;> (try split) <;> simp

/-- A statement that is not busy does not say so. -/
theorem error_not_busy (hbusy : primary code ≠ sqliteBusy) (action' : Action) (code' : ℤ) :
    (world.error tx access action code).2 ≠ .busy action' code' := by
  have hfault : primary (Fault.new action code).code ≠ sqliteBusy := hbusy
  have hne : Fault.error (Fault.new action code) ≠ .busy action' code' := by
    unfold Fault.error
    rw [if_neg hfault]
    split_ifs <;> simp
  unfold error
  simp only [hbusy, not_false_eq_true, if_false]
  split_ifs <;> exact hne

/-- A busy statement that may not be tried again in its transaction does not say so either. -/
theorem error_denied (hactive : world.native.active = true) (hretry : access.retry = .denied)
    (action' : Action) (code' : ℤ) :
    (world.error tx access action code).2 ≠ .busy action' code' := by
  by_cases hbusy : primary code = sqliteBusy
  · unfold error
    simp only [hbusy, not_true_eq_false, false_and, and_false, if_false, if_true, hactive,
      Access.busy, hretry, Fault.transaction]
    split_ifs <;> simp
  · exact error_not_busy hbusy action' code'

/-- What the guard makes of an error. -/
theorem guard_error (world : World D) (τ : Type) (error : Error) : ∃ error',
    world.guard (.error error : Except Error τ) = .error error' ∧ (Honest error → Honest error') ∧
      ∀ action' code', error' = .busy action' code' → error = .busy action' code' := by
  unfold guard
  split
  · unfold limit
    split
    · rename_i action' code' heq
      obtain rfl := Except.error.inj heq
      split
      · exact ⟨_, rfl, fun _ => by simp [Honest], fun _ _ h => by cases h⟩
      · exact ⟨_, rfl, id, fun _ _ h => h⟩
    · rename_i heq
      obtain rfl := Except.error.inj heq
      exact ⟨_, rfl, id, fun _ _ h => h⟩
    · rename_i heq
      cases heq
  · exact ⟨_, rfl, id, fun _ _ h => h⟩

theorem guard_ok (world : World D) {τ : Type} (value : τ) (hpos : 0 < world.work.meter.primary) :
    world.guard (.ok value) = .ok value := by
  unfold guard Meter.exhausted
  rw [if_neg]
  simpa using hpos.ne'

/-! ## A step -/

/-- The world after the step of a statement, before its error is looked at. -/
def stepped (world : World D) (statement : Option Control) (permission : Permission)
    (fate : Fate D) : World D :=
  { world.metered (world.work.meter.ticks fate.ticks).1 with
    native := (world.native.step statement permission fate).1
    log := world.log ++ world.native.event statement permission fate }

/-- A step with the permission its access gives. -/
theorem stepAuthorized_eq (hdenied : world.work.meter.permission = .denied)
    (statement : Option Control) (access : Access) (tx : Bool) (fate : Fate D) :
    world.stepAuthorized statement access tx fate =
      let permission := if access.isControl then Permission.granted else .denied
      let after := world.stepped statement permission fate
      match (world.native.step statement permission fate).2 with
      | .ok step => (after, .ok step)
      | .error code =>
        ((after.error tx access .step code).1, .error (after.error tx access .step code).2) := by
  rcases hcontrol : access.isControl with _ | _
  · simp only [stepAuthorized, stepNative, hcontrol, Bool.false_eq_true, if_false, hdenied]
    rfl
  · have hgrant : (world.metered world.work.meter.grant).stepped statement .granted fate =
        (world.stepped statement .granted fate).metered
          (world.work.meter.ticks fate.ticks).1.grant := by
      show (_ : World D) = _
      unfold stepped
      rw [show (world.metered world.work.meter.grant).work.meter.ticks fate.ticks =
        ((world.work.meter.ticks fate.ticks).1.grant, (world.work.meter.ticks fate.ticks).2) from
          Meter.grant_ticks _ _]
      rfl
    have hdeny : (world.work.meter.ticks fate.ticks).1.grant.deny =
        (world.work.meter.ticks fate.ticks).1 :=
      Meter.deny_grant (by rw [Meter.ticks_permission, hdenied])
    have hstep : (world.metered world.work.meter.grant).stepNative statement access tx fate =
        match (world.native.step statement .granted fate).2 with
        | .ok step => ((world.metered world.work.meter.grant).stepped statement .granted fate,
            .ok step)
        | .error code =>
          ((((world.metered world.work.meter.grant).stepped statement .granted fate).error tx
            access .step code).1,
          .error (((world.metered world.work.meter.grant).stepped statement .granted fate).error tx
            access .step code).2) := rfl
    unfold stepAuthorized
    simp only [hcontrol, if_true, hstep, hgrant]
    rcases (world.native.step statement .granted fate).2 with code | step
    · simp only [error_metered]
      refine Prod.ext ?_ rfl
      show ((((world.stepped statement .granted fate).error tx access .step code).1.metered
        _).metered (Meter.deny (Meter.grant (world.work.meter.ticks fate.ticks).1))) = _
      rw [hdeny]
      have hmeter :
          ((world.stepped statement .granted fate).error tx access .step code).1.work.meter =
            (world.work.meter.ticks fate.ticks).1 := error_meter
      rw [← hmeter]
      rfl
    · refine Prod.ext ?_ rfl
      show (((world.stepped statement .granted fate).metered _).metered
        (Meter.deny (Meter.grant (world.work.meter.ticks fate.ticks).1))) = _
      rw [hdeny]
      rfl

end World

end Cartel.Sqlite.Tx
