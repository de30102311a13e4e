import Cartel.Tx.Steps

/-!
# What holds in every state of a run

A connection is in one of the stages of a transaction, its committed contents are what the log
says, and the meter is in use by at most one call or cleanup (`Inv`). This holds through the return
of a scope and the end of a call.
-/

namespace Cartel.Sqlite.Tx

open Cartel.Lib (Event Nested Frames)

variable {D : Type} {config : Config} {contents : D} {world : World D} {debt : Debt}
  {call : Call} {active : Active} {fate : Fate D} {error : Error}

/-- The program's view of its scopes after a log. -/
def World.nested (contents : D) (world : World D) : Nested D :=
  Nested.run ⟨contents, []⟩ world.log

/-- Something is owed and can still be paid. -/
def Debt.Owes (debt : Debt) : Prop :=
  debt ≠ .none ∧ debt ≠ .failed

/-- The connection is in a stage, and has committed what the log says. -/
structure Core (contents : D) (world : World D) (debt : Debt) : Prop where
  base : world.native.committed = (world.nested contents).base
  settled : world.native.Settled
  word : world.work.pending = debt.word
  stage : Stage world.native world.work.depth world.scope (world.nested contents).frames debt
  poisoned : debt = .failed ↔
    world.work.health.mode = .nativeFirst ∨ world.work.health.mode = .cleanupFirst

/-- The errors that are kept and the last reply, and the permission of the meter. -/
structure Clean (world : World D) : Prop where
  denied : world.work.meter.permission = .denied
  native : ∀ error, world.work.health.native = some error → World.Honest error
  cleanup : ∀ error, world.work.health.cleanup = some error → World.Honest error
  reply : ∀ error, world.reply = some (.error error) → World.Honest error

/-- With no statement bound, the meter only runs for a cleanup. -/
structure Resting (world : World D) (debt : Debt) : Prop where
  mode : world.work.meter.mode ≠ .primary
  cleanup : world.work.meter.mode = .cleanup → debt.Owes ∧ 0 < world.work.meter.primary

/-- With a statement bound, the meter runs for its call, and the statement is the one the call
binds. -/
structure Bound (config : Config) (world : World D) (call : Call) (active : Active) : Prop where
  healthy : world.work.health.mode = .healthy
  mode : world.work.meter.mode = .primary
  quota : 0 < world.work.meter.primary
  check : world.check (world.tx call) = .ok ()
  bind : world.bind config call (.ok ()) = some (.ok { active with row := false })
  row : active.row = true → call = .query

/-- What holds of the call in flight. -/
def Flight (config : Config) (world : World D) (debt : Debt) : Prop :=
  match world.op with
  | none => Resting world debt
  | some ⟨call, none⟩ => world.Offers call ∧ Resting world debt
  | some ⟨call, some active⟩ => world.Offers call ∧ debt = .none ∧ Bound config world call active

/-- What holds in every state of a run. -/
structure Inv (config : Config) (contents : D) (world : World D) : Prop where
  clean : Clean world
  core : ∃ debt, Core contents world debt ∧ Flight config world debt

/-! ## Scopes that go -/

namespace World

@[simp]
theorem nested_append (world : World D) (events : List (Event D)) :
    World.nested contents { world with log := world.log ++ events } =
      (world.nested contents).run events :=
  Nested.run_append _ _ _

theorem nested_congr {world world' : World D} (h : world'.log = world.log) :
    world'.nested contents = world.nested contents := by
  unfold nested
  rw [h]

end World

theorem Nested.follow_ended (nested : Nested D) :
    nested.follow .ended = ⟨nested.base, []⟩ := by
  rcases nested with ⟨base, _ | ⟨frame, frames⟩⟩ <;> rfl

theorem Nested.follow_dropped_base (nested : Nested D) :
    (nested.follow .dropped).base = nested.base := by
  rcases nested with ⟨base, _ | ⟨frame, _ | ⟨frame', frames⟩⟩⟩ <;> rfl

theorem Nested.follow_released_base (nested : Nested D) :
    (nested.follow .released).base = nested.base := by
  rcases nested with ⟨base, _ | ⟨frame, _ | ⟨frame', frames⟩⟩⟩ <;> rfl

/-- How an open transaction may stand when it is given back. -/
def Standing (world : World D) (failed : Option Fault) (debt : Debt) : Prop :=
  debt = .failed ∨
  (world.native.active = true ∧
    ((failed.map Retry.Fault.aborted).getD false = true → debt = .transaction)) ∨
  (world.native.active = false ∧ debt = .none ∧
    (failed.map Retry.Fault.aborted).getD false = true)

theorem Stage.standing {native : Native D} {depth : Depth} {failed : Option Fault}
    {saves : List Count} {frames : List D}
    (h : Stage native depth (some ⟨failed, saves⟩) frames debt) :
    debt = .failed ∨
    (native.active = true ∧
      ((failed.map Retry.Fault.aborted).getD false = true → debt = .transaction)) ∨
    (native.active = false ∧ debt = .none ∧
      (failed.map Retry.Fault.aborted).getD false = true) := by
  cases h with
  | lost => exact Or.inl rfl
  | idle hscope _ _ _ => cases hscope
  | owing hscope _ _ => cases hscope
  | running hscope hactive _ _ _ =>
    obtain ⟨rfl, -⟩ := Scope.mk.inj (Option.some.inj hscope)
    exact Or.inr (Or.inl ⟨hactive, fun h => by cases h⟩)
  | cleaning hscope hactive _ _ _ _ _ _ =>
    obtain ⟨rfl, -⟩ := Scope.mk.inj (Option.some.inj hscope)
    exact Or.inr (Or.inl ⟨hactive, fun h => by cases h⟩)
  | busy hscope haborted hactive =>
    obtain ⟨rfl, -⟩ := Scope.mk.inj (Option.some.inj hscope)
    refine Or.inr (Or.inl ⟨hactive, fun h => ?_⟩)
    cases haborted.symm.trans h
  | aborted hscope haborted hactive =>
    obtain ⟨rfl, -⟩ := Scope.mk.inj (Option.some.inj hscope)
    exact Or.inr (Or.inr ⟨hactive, rfl, haborted⟩)
  | abandoned hscope haborted hactive =>
    obtain ⟨rfl, -⟩ := Scope.mk.inj (Option.some.inj hscope)
    exact Or.inr (Or.inl ⟨hactive, fun _ => rfl⟩)

section Return

variable {failed : Option Fault} {saves : List Count}
  (hbase : world.native.committed = (world.nested contents).base)
  (hsettled : world.native.Settled) (hword : world.work.pending = debt.word)
  (hpoisoned : debt = .failed ↔
    world.work.health.mode = .nativeFirst ∨ world.work.health.mode = .cleanupFirst)
include hbase hsettled hword hpoisoned

/-- A transaction that is given back is owed its rollback, unless it is gone already. -/
theorem Core.returnTransaction (hscope : world.scope = some ⟨failed, saves⟩)
    (hstanding : Standing world failed debt) : ∃ debt',
      Core contents world.returnTransaction debt' ∧ (debt.Owes → debt'.Owes) := by
  have hfailed : world.failed = failed := by
    rw [World.failed, hscope]
    rfl
  have hnested : world.returnTransaction.nested contents = ⟨(world.nested contents).base, []⟩ := by
    show Nested.run _ (world.log ++ [.ended]) = _
    rw [Nested.run_append]
    exact Nested.follow_ended _
  have hnative : world.returnTransaction.native = world.native := rfl
  have hhealth : world.returnTransaction.work.health = world.work.health := by
    unfold World.returnTransaction
    dsimp only
    split_ifs <;> rfl
  have hnone : world.returnTransaction.scope = none := rfl
  rcases haborted : (failed.map Retry.Fault.aborted).getD false with _ | _
  · have hpending : world.returnTransaction.work.pending =
        (if debt = .failed then Debt.failed else .transaction).word := by
      unfold World.returnTransaction
      rw [hfailed, haborted, ← Pending.transaction_word, ← hword]
      rfl
    rcases hstanding with rfl | ⟨hactive, -⟩ | ⟨-, -, h⟩
    · refine ⟨.failed, ⟨?_, hsettled, hpending, .lost, ?_⟩, id⟩
      · rw [hnative, hnested, hbase]
      · rw [hhealth]
        exact hpoisoned
    · by_cases hdebt : debt = .failed
      · refine ⟨.failed, ⟨?_, hsettled, ?_, .lost, ?_⟩, fun h => absurd hdebt h.2⟩
        · rw [hnative, hnested, hbase]
        · rw [hpending, if_pos hdebt]
        · rw [hhealth, ← hpoisoned]
          exact ⟨fun _ => hdebt, fun _ => rfl⟩
      · refine ⟨.transaction, ⟨?_, hsettled, ?_, ?_, ?_⟩, fun _ => ⟨by simp, by simp⟩⟩
        · rw [hnative, hnested, hbase]
        · rw [hpending, if_neg hdebt]
        · rw [hnested]
          exact .owing hnone hactive rfl
        · rw [hhealth, ← hpoisoned]
          exact ⟨by rintro ⟨⟩, fun h => absurd h hdebt⟩
    · rw [haborted] at h
      cases h
  · have hwork : world.returnTransaction.work = { world.work with depth := none } := by
      unfold World.returnTransaction
      rw [hfailed, haborted]
      rfl
    refine ⟨debt, ⟨?_, hsettled, ?_, ?_, ?_⟩, id⟩
    · rw [hnative, hnested, hbase]
    · rw [hwork]
      exact hword
    · rw [hwork, hnative, hnested, hnone]
      rcases hstanding with rfl | ⟨hactive, hdebt⟩ | ⟨hactive, rfl, -⟩
      · exact .lost
      · obtain rfl := hdebt haborted
        exact .owing rfl hactive rfl
      · exact .idle rfl hactive rfl rfl
    · rw [hhealth]
      exact hpoisoned

end Return

theorem Core.giveBack {failed : Option Fault} {saves : List Count} (h : Core contents world debt)
    (hscope : world.scope = some ⟨failed, saves⟩) : ∃ debt',
      Core contents world.returnTransaction debt' ∧ (debt.Owes → debt'.Owes) :=
  Core.returnTransaction h.base h.settled h.word h.poisoned hscope (hscope ▸ h.stage).standing

/-- A savepoint that is given back is owed its cleanup, unless its transaction has failed. -/
theorem Core.returnSavepoint {failed : Option Fault} {count : Count} {saves : List Count}
    (h : Core contents world debt) (hscope : world.scope = some ⟨failed, count :: saves⟩) :
    ∃ debt', Core contents world.returnSavepoint debt' ∧ (debt.Owes → debt'.Owes) := by
  have hbase : world.native.committed =
      (((world.nested contents).run [.dropped]).base) := by
    rw [Nested.run_cons, Nested.run_nil, Nested.follow_dropped_base]
    exact h.base
  have hnested : ∀ world' : World D, world'.log = world.log ++ [.dropped] →
      world'.nested contents = (world.nested contents).run [.dropped] := by
    intro world' hlog
    unfold World.nested
    rw [hlog, Nested.run_append]
  have hstage := h.stage
  rw [hscope] at hstage
  rcases failed with _ | failed
  · have hreturn : world.returnSavepoint = { world with
        work := world.work.revert count, scope := some ⟨none, saves⟩
        log := world.log ++ [.dropped] } := by
      unfold World.returnSavepoint
      rw [hscope]
      rfl
    rw [hreturn]
    rcases hstage.revert with rfl | ⟨frame, frame', rest, hframes, target, phase, hword, hstage'⟩
    · refine ⟨.failed, ⟨?_, h.settled, ?_, .lost, h.poisoned⟩, id⟩
      · rw [hnested _ rfl]
        exact hbase
      · show Pending.savepoint world.work.pending count = _
        rw [h.word, Pending.savepoint_word]
    · refine ⟨.savepoint target phase, ⟨?_, h.settled, ?_, ?_, ?_⟩,
        fun _ => ⟨by simp, by simp⟩⟩
      · rw [hnested _ rfl]
        exact hbase
      · show Pending.savepoint world.work.pending count = _
        rw [h.word, hword]
      · rw [hnested _ rfl]
        have hfollow : ((world.nested contents).run [.dropped]).frames = frame' :: rest := by
          rcases hn : world.nested contents with ⟨base, frames⟩
          rw [hn] at hframes
          obtain rfl : frames = frame :: frame' :: rest := hframes
          rfl
        rw [hfollow]
        exact hstage'
      · refine ⟨by rintro ⟨⟩, fun hmode => ?_⟩
        have hdebt := h.poisoned.mpr hmode
        subst hdebt
        rw [Pending.savepoint_word] at hword
        have hne := Pending.encode_ne target phase
        exact absurd hword.symm hne.2.2
  · have hreturn : world.returnSavepoint = { world with
        scope := some ⟨some failed, saves⟩, log := world.log ++ [.dropped] } := by
      unfold World.returnSavepoint
      rw [hscope]
      rfl
    rw [hreturn]
    refine ⟨debt, ⟨?_, h.settled, h.word, hstage.leave, h.poisoned⟩, id⟩
    rw [hnested _ rfl]
    exact hbase

/-- A transaction that ended natively is over. -/
theorem Core.over (hbase : world.native.committed = (world.nested contents).base)
    (hsettled : world.native.Settled) (hword : world.work.pending = debt.word)
    (hpoisoned : debt = .failed ↔
      world.work.health.mode = .nativeFirst ∨ world.work.health.mode = .cleanupFirst)
    (hactive : world.native.active = false) (hdebt : debt = .failed ∨ debt = .none) :
    Core contents { world with
      work := { world.work with depth := none }, scope := none
      log := world.log ++ [.ended] } debt := by
  have hnested : World.nested contents { world with
      work := { world.work with depth := none }, scope := none
      log := world.log ++ [.ended] } = ⟨(world.nested contents).base, []⟩ := by
    show Nested.run _ (world.log ++ [.ended]) = _
    rw [Nested.run_append]
    exact Nested.follow_ended _
  refine ⟨?_, hsettled, hword, ?_, hpoisoned⟩
  · rw [hnested]
    exact hbase
  · rw [hnested]
    rcases hdebt with rfl | rfl
    · exact .lost
    · exact .idle rfl hactive rfl rfl

/-- The fields of a world that tell its stage. -/
theorem Core.congr {world' : World D} (h : Core contents world debt)
    (hnative : world'.native = world.native) (hpending : world'.work.pending = world.work.pending)
    (hdepth : world'.work.depth = world.work.depth)
    (hhealth : world'.work.health.mode = world.work.health.mode)
    (hscope : world'.scope = world.scope) (hlog : world'.log = world.log) :
    Core contents world' debt := by
  have hnested : world'.nested contents = world.nested contents := World.nested_congr hlog
  refine ⟨?_, ?_, hpending.trans h.word, ?_, ?_⟩
  · rw [hnative, hnested]
    exact h.base
  · rw [hnative]
    exact h.settled
  · rw [hnative, hdepth, hscope, hnested]
    exact h.stage
  · rw [hhealth]
    exact h.poisoned

/-! ## The end of a call -/

/-- With no call in flight the invariant is this. -/
theorem Inv.rest (hclean : Clean world) (hcore : Core contents world debt)
    (hrest : Resting world debt) (hop : world.op = none) : Inv config contents world :=
  ⟨hclean, debt, hcore, by rw [Flight, hop]; exact hrest⟩

namespace World

@[simp]
theorem returnTransaction_meter : world.returnTransaction.work.meter = world.work.meter := by
  unfold returnTransaction
  dsimp only
  split_ifs <;> rfl

@[simp]
theorem returnTransaction_health : world.returnTransaction.work.health = world.work.health := by
  unfold returnTransaction
  dsimp only
  split_ifs <;> rfl

@[simp]
theorem returnSavepoint_meter : world.returnSavepoint.work.meter = world.work.meter := by
  unfold returnSavepoint
  split
  · dsimp only
    split_ifs <;> rfl
  · rfl

@[simp]
theorem returnSavepoint_health : world.returnSavepoint.work.health = world.work.health := by
  unfold returnSavepoint
  split
  · dsimp only
    split_ifs <;> rfl
  · rfl

@[simp]
theorem returnSavepoint_op : world.returnSavepoint.op = world.op := by
  unfold returnSavepoint
  split <;> rfl

@[simp]
theorem returnSavepoint_reply : world.returnSavepoint.reply = world.reply := by
  unfold returnSavepoint
  split <;> rfl

end World

/-- A clean world stays so when its health and its permission do, and the reply is honest. -/
theorem Clean.congr {world' : World D} (h : Clean world)
    (hpermission : world'.work.meter.permission = world.work.meter.permission)
    (hhealth : world'.work.health = world.work.health)
    (hreply : ∀ error, world'.reply = some (.error error) → World.Honest error) : Clean world' :=
  ⟨hpermission.trans h.denied, hhealth ▸ h.native, hhealth ▸ h.cleanup, hreply⟩

theorem Resting.congr {world' : World D} {debt' : Debt} (h : Resting world debt)
    (hmeter : world'.work.meter = world.work.meter) (hdebt : debt.Owes → debt'.Owes) :
    Resting world' debt' :=
  ⟨hmeter ▸ h.mode, fun hmode => by
    obtain ⟨howes, hpos⟩ := h.cleanup (hmeter ▸ hmode)
    exact ⟨hdebt howes, hmeter ▸ hpos⟩⟩

/-- A meter that is idle runs for nobody. -/
theorem Resting.of_idle (h : world.work.meter.mode = .idle) : Resting world debt := by
  refine ⟨?_, ?_⟩ <;> rw [h] <;> rintro ⟨⟩

/-- The reply of a call is honest if its error is. -/
theorem honest_map {result : Except Error Bool}
    (hresult : ∀ error, result = .error error → World.Honest error) (error : Error)
    (h : some (result.map fun _ => ()) = some (.error error)) : World.Honest error := by
  rcases result with error' | value
  · obtain rfl : error' = error := Except.error.inj (Option.some.inj h)
    exact hresult error' rfl
  · cases h

/-- The end of a transaction by its own call. -/
theorem Inv.conclude_end {failed : Option Fault} {saves : List Count} {result : Except Error Bool}
    (hcall : call = .commit ∨ call = .rollback) (hclean : Clean world)
    (hbase : world.native.committed = (world.nested contents).base)
    (hsettled : world.native.Settled) (hword : world.work.pending = debt.word)
    (hpoisoned : debt = .failed ↔
      world.work.health.mode = .nativeFirst ∨ world.work.health.mode = .cleanupFirst)
    (hrest : Resting world debt) (hscope : world.scope = some ⟨failed, saves⟩)
    (hstanding : debt = .failed ∨
      (world.native.active = true ∧
        ((failed.map Retry.Fault.aborted).getD false = true → debt = .transaction)) ∨
      (world.native.active = false ∧ debt = .none))
    (hok : result.isOk = true → world.native.active = false)
    (hresult : ∀ error, result = .error error → World.Honest error) :
    Inv config contents (world.conclude call result) := by
  let world' := { world with op := none, reply := some (result.map fun _ => ()) }
  have hconclude : world.conclude call result =
      if result.isOk ∨ world.native.active = false then
        { world' with
          work := { world.work with depth := none }, scope := none
          log := world.log ++ [.ended] }
      else world'.returnTransaction := by
    rcases hcall with rfl | rfl <;> rfl
  rw [hconclude]
  rcases hactive : world.native.active with _ | _
  · rw [if_pos (Or.inr rfl)]
    have hdebt : debt = .failed ∨ debt = .none := by
      rcases hstanding with h | ⟨h, -⟩ | ⟨-, h⟩
      · exact Or.inl h
      · cases hactive.symm.trans h
      · exact Or.inr h
    have hcore := @Core.over D contents world' debt hbase hsettled hword hpoisoned hactive hdebt
    exact .rest (hclean.congr rfl rfl (honest_map hresult)) hcore (hrest.congr rfl id) rfl
  · have hnot : ¬ (result.isOk = true ∨ true = false) := by
      rintro (h | h)
      · cases hactive.symm.trans (hok h)
      · cases h
    rw [if_neg hnot]
    have hstanding' : Standing world' failed debt := by
      rcases hstanding with h | h | ⟨h, -⟩
      · exact Or.inl h
      · exact Or.inr (Or.inl h)
      · cases hactive.symm.trans h
    obtain ⟨debt', hcore, hdebt⟩ := Core.returnTransaction
      (show world'.native.committed = (world'.nested contents).base from hbase) hsettled hword
      hpoisoned hscope hstanding'
    exact .rest (hclean.congr (by rw [World.returnTransaction_meter]) World.returnTransaction_health
      (honest_map hresult)) hcore (hrest.congr World.returnTransaction_meter hdebt) rfl

/-- The end of a call that has failed, with the connection in a stage. -/
theorem Inv.conclude_error (hclean : Clean world) (hcore : Core contents world debt)
    (hrest : Resting world debt) (hoffers : world.Offers call) (hhonest : World.Honest error) :
    Inv config contents (world.conclude call (.error error)) := by
  let world' := { world with op := none, reply := some (.error error) }
  have hresult : ∀ error', (Except.error error : Except Error Bool) = .error error' →
      World.Honest error' := fun error' h => Except.error.inj h ▸ hhonest
  have hclean' : Clean world' := hclean.congr rfl rfl (honest_map hresult)
  have hcore' : Core contents world' debt := hcore.congr rfl rfl rfl rfl rfl rfl
  have hrest' : Resting world' debt := hrest.congr rfl id
  have hplain : Inv config contents world' := .rest hclean' hcore' hrest' rfl
  have hend : call = .commit ∨ call = .rollback →
      (∃ failed, world.scope = some ⟨failed, []⟩) →
      Inv config contents (world.conclude call (.error error)) := by
    rintro hcall ⟨failed, hscope⟩
    refine .conclude_end hcall hclean hcore.base hcore.settled hcore.word hcore.poisoned hrest
      hscope ?_ (fun h => by cases h) hresult
    rcases (hscope ▸ hcore.stage).standing with h | h | ⟨h, hdebt, -⟩
    · exact Or.inl h
    · exact Or.inr (Or.inl h)
    · exact Or.inr (Or.inr ⟨h, hdebt⟩)
  cases call with
  | query => exact hplain
  | begin => exact hplain
  | commit => exact hend (Or.inl rfl) hoffers
  | rollback => exact hend (Or.inr rfl) hoffers
  | savepoint => exact hplain
  | saveCommit =>
    obtain ⟨failed, depth, saves, hscope⟩ := hoffers
    obtain ⟨debt', hcore'', hdebt⟩ := Core.returnSavepoint hcore' hscope
    show Inv config contents world'.returnSavepoint
    exact .rest (hclean'.congr (by rw [World.returnSavepoint_meter]) World.returnSavepoint_health
      (fun error' h => hclean'.reply error' (by rwa [World.returnSavepoint_reply] at h))) hcore''
      (hrest'.congr World.returnSavepoint_meter hdebt) (World.returnSavepoint_op)
  | saveRollback => exact hplain

end Cartel.Sqlite.Tx
