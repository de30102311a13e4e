import Cartel.Tx.Debts

/-!
# The stages of a transaction

Seen together, the native connection, the depth counter, the scopes of the program and the cleanup
owed are in one of a few stages (`Stage`). While a transaction is running and nothing is owed, the
counter is the height of the native stack of savepoints, and the program's own view of its nested
scopes is the native contents with the snapshots of the savepoints it still refers to (`Frames`).
While cleanup is owed down to a target, the program's view already is the snapshot at the target.

There is one lemma for each thing that moves a connection from stage to stage : the controls of
the cleanup, those of the calls, and what becomes of a scope that is dropped or forgotten.
-/

namespace Cartel.Sqlite.Tx

open Cartel.Lib (Event Nested Frames)

variable {D : Type} {native : Native D} {depth : Depth} {scope : Option Scope} {frames : List D}
  {debt : Debt} {target : Count} {phase : Phase} {contents : D}

/-- Outside a transaction the connection has its committed contents and no savepoints. -/
def Native.Settled (native : Native D) : Prop :=
  native.active = false → native = .new native.committed

/-- The stages, by the debt. The last list are the contents of the program's scopes. -/
inductive Stage (native : Native D) (depth : Depth) (scope : Option Scope) (frames : List D) :
    Debt → Prop where
  | lost : Stage native depth scope frames .failed
  | idle (hscope : scope = none) (hactive : native.active = false) (hdepth : depth = none)
      (hframes : frames = []) : Stage native depth scope frames .none
  | owing (hscope : scope = none) (hactive : native.active = true) (hframes : frames = []) :
      Stage native depth scope frames .transaction
  | running {saves : List Count} {rest : List D} (hscope : scope = some ⟨none, saves⟩)
      (hactive : native.active = true) (hdepth : depth.get = native.saves.length)
      (hsaves : Frames native.saves (saves.map Count.get) rest)
      (hframes : frames = native.contents :: rest) : Stage native depth scope frames .none
  | cleaning {saves : List Count} {rest upper lower : List D} {save : D} {target : Count}
      {phase : Phase} (hscope : scope = some ⟨none, saves⟩) (hactive : native.active = true)
      (hdepth : depth.get = native.saves.length) (hnative : native.saves = upper ++ save :: lower)
      (htarget : target.get = lower.length + 1)
      (hsaves : Frames lower (saves.map Count.get) rest) (hframes : frames = save :: rest)
      (hphase : phase = .release → native.contents = (upper ++ [save]).headD save) :
      Stage native depth scope frames (.savepoint target phase)
  | busy {failed : Fault} {saves : List Count} (hscope : scope = some ⟨some failed, saves⟩)
      (haborted : failed.aborted = false) (hactive : native.active = true) :
      Stage native depth scope frames .none
  | aborted {failed : Fault} {saves : List Count} (hscope : scope = some ⟨some failed, saves⟩)
      (haborted : failed.aborted = true) (hactive : native.active = false) :
      Stage native depth scope frames .none
  | abandoned {failed : Fault} {saves : List Count} (hscope : scope = some ⟨some failed, saves⟩)
      (haborted : failed.aborted = true) (hactive : native.active = true) :
      Stage native depth scope frames .transaction

theorem Depth.get_eq_some {count : ℕ} (h : Depth.get depth = count + 1) :
    ∃ current, depth = some current ∧ current.get = count + 1 := by
  rcases depth with _ | current
  · exact absurd h (by simp [Depth.get])
  · exact ⟨current, rfl, h⟩

namespace Stage

/-! ## Cleanup -/

/-- Rolling the transaction back pays the whole debt. -/
theorem clean_transaction (h : Stage native depth scope frames .transaction) :
    native.Legal .rollback ∧ Stage (native.run .rollback) none scope frames .none := by
  cases h with
  | owing hscope hactive hframes => exact ⟨hactive, .idle hscope rfl rfl hframes⟩
  | abandoned hscope haborted hactive => exact ⟨hactive, .aborted hscope haborted rfl⟩

/-- Rolling back to the top savepoint is the first half of letting it go. -/
theorem clean_rollback (h : Stage native depth scope frames (.savepoint target .rollback)) :
    native.Legal .rollbackTo ∧
      Stage (native.run .rollbackTo) depth scope frames (.savepoint target .release) := by
  cases h with
  | @cleaning saves rest upper lower save _ _ hscope hactive hdepth hnative htarget hsaves hframes
      hphase =>
    refine ⟨⟨hactive, by simp [hnative]⟩, ?_⟩
    refine .cleaning hscope hactive hdepth hnative htarget hsaves hframes fun _ => ?_
    rcases upper with _ | ⟨top, upper⟩
    · simp [Native.run, hnative]
    · simp [Native.run, hnative]

/-- Releasing it is the second half, and the end of the cleanup at the target. -/
theorem clean_release (h : Stage native depth scope frames (.savepoint target .release)) :
    native.Legal .release ∧ ∃ current, depth = some current ∧
      Stage (native.run .release) current.prior scope frames
        (if current.get = target.get then .none else .savepoint target .rollback) := by
  cases h with
  | @cleaning saves rest upper lower save _ _ hscope hactive hdepth hnative htarget hsaves hframes
      hphase =>
    refine ⟨⟨hactive, by simp [hnative]⟩, ?_⟩
    have hlength : native.saves.length = upper.length + lower.length + 1 := by
      rw [hnative, List.length_append, List.length_cons]
      omega
    obtain ⟨current, rfl, hcurrent⟩ := Depth.get_eq_some (hdepth.trans hlength)
    refine ⟨current, rfl, ?_⟩
    have hprior : Depth.get current.prior = upper.length + lower.length := by
      rw [Count.prior_get, hcurrent, Nat.add_sub_cancel]
    have hcontents := hphase rfl
    rcases upper with _ | ⟨top, upper⟩
    · rw [if_pos (by rw [hcurrent, htarget, List.length_nil, Nat.zero_add])]
      have htail : (native.run .release).saves = lower := by simp [Native.run, hnative]
      refine .running hscope hactive (by rw [htail, hprior, List.length_nil, Nat.zero_add])
        (by rwa [htail]) ?_
      rw [hframes]
      simp [Native.run, hcontents]
    · rw [if_neg (by rw [hcurrent, htarget, List.length_cons]; omega)]
      have htail : (native.run .release).saves = upper ++ save :: lower := by
        simp [Native.run, hnative]
      refine .cleaning hscope hactive ?_ htail htarget hsaves hframes fun hphase => by cases hphase
      rw [htail, hprior, List.length_append, List.length_cons, List.length_cons]
      omega

/-- The target of a cleanup is one of the savepoints that are open. -/
theorem target_le (h : Stage native depth scope frames (.savepoint target phase)) :
    target.get ≤ depth.get := by
  cases h with
  | cleaning _ _ hdepth hnative htarget _ _ _ =>
    rw [hdepth, hnative, htarget, List.length_append, List.length_cons]
    omega

/-! ## Scopes that go -/

/-- A dropped savepoint leaves a debt, and the program the contents around it. -/
theorem revert {saves : List Count} {count : Count}
    (h : Stage native depth (some ⟨none, count :: saves⟩) frames debt) :
    debt = .failed ∨ ∃ frame frame' rest, frames = frame :: frame' :: rest ∧
      ∃ target phase, Pending.savepoint debt.word count = (Debt.savepoint target phase).word ∧
        Stage native depth (some ⟨none, saves⟩) (frame' :: rest) (.savepoint target phase) := by
  cases h with
  | lost => exact Or.inl rfl
  | idle hscope _ _ _ => cases hscope
  | owing hscope _ _ => cases hscope
  | running hscope hactive hdepth hsaves hframes =>
    refine Or.inr ?_
    obtain ⟨-, rfl⟩ := Scope.mk.inj (Option.some.inj hscope)
    rcases hrest : ‹List D› with _ | ⟨frame', rest⟩
    · have := hsaves.length_eq
      rw [hrest] at this
      exact absurd this (by simp)
    rw [hrest] at hsaves hframes
    obtain ⟨upper, lower, hnative, hlower, hlive⟩ := hsaves.split
    refine ⟨_, frame', rest, hframes, _, _, Pending.savepoint_word .none count, ?_⟩
    exact .cleaning rfl hactive hdepth hnative hlower.symm hlive rfl fun hphase => by cases hphase
  | @cleaning _ rest upper lower save target phase hscope hactive hdepth hnative htarget hsaves
      hframes hphase =>
    refine Or.inr ?_
    obtain ⟨-, rfl⟩ := Scope.mk.inj (Option.some.inj hscope)
    rcases rest with _ | ⟨frame', rest⟩
    · exact absurd hsaves.length_eq (by simp)
    obtain ⟨upper', lower', rfl, hlower, hlive⟩ := hsaves.split
    have hlt : ¬ target.get ≤ count.get := by
      rw [htarget, ← hlower, List.length_append, List.length_cons]
      omega
    have hword := Pending.savepoint_word (.savepoint target phase) count
    dsimp only at hword
    rw [if_neg hlt] at hword
    refine ⟨_, frame', rest, hframes, _, _, hword, ?_⟩
    have hnative' : native.saves = (upper ++ save :: upper') ++ frame' :: lower' := by
      rw [hnative, List.append_assoc, List.cons_append]
    refine .cleaning rfl hactive hdepth hnative' hlower.symm hlive rfl fun hp => ?_
    rw [hphase hp]
    rcases upper with _ | ⟨top, upper⟩ <;> rfl
  | busy hscope _ _ => cases hscope
  | aborted hscope _ _ => cases hscope
  | abandoned hscope _ _ => cases hscope

/-- A forgotten savepoint stays on the native stack, and its contents are those of the scope
around it. -/
theorem forget {saves : List Count} {count : Count} {failed : Option Fault}
    (h : Stage native depth (some ⟨failed, count :: saves⟩) frames debt) :
    Stage native depth (some ⟨failed, saves⟩) (Nested.follow ⟨contents, frames⟩ .released).frames
      debt := by
  cases h with
  | lost => exact .lost
  | idle hscope _ _ _ => cases hscope
  | owing hscope _ _ => cases hscope
  | @running _ rest hscope hactive hdepth hsaves hframes =>
    obtain ⟨rfl, rfl⟩ := Scope.mk.inj (Option.some.inj hscope)
    rcases rest with _ | ⟨frame', rest⟩
    · exact absurd hsaves.length_eq (by simp)
    subst hframes
    exact .running rfl hactive hdepth hsaves.forget rfl
  | @cleaning _ rest upper lower save target phase hscope hactive hdepth hnative htarget hsaves
      hframes hphase =>
    obtain ⟨rfl, rfl⟩ := Scope.mk.inj (Option.some.inj hscope)
    rcases rest with _ | ⟨frame', rest⟩
    · exact absurd hsaves.length_eq (by simp)
    subst hframes
    exact .cleaning rfl hactive hdepth hnative htarget hsaves.forget rfl hphase
  | busy hscope haborted hactive =>
    obtain ⟨rfl, rfl⟩ := Scope.mk.inj (Option.some.inj hscope)
    exact .busy rfl haborted hactive
  | aborted hscope haborted hactive =>
    obtain ⟨rfl, rfl⟩ := Scope.mk.inj (Option.some.inj hscope)
    exact .aborted rfl haborted hactive
  | abandoned hscope haborted hactive =>
    obtain ⟨rfl, rfl⟩ := Scope.mk.inj (Option.some.inj hscope)
    exact .abandoned rfl haborted hactive

/-- A scope of a failed transaction goes without a trace. -/
theorem leave {saves saves' : List Count} {failed : Fault} {frames' : List D}
    (h : Stage native depth (some ⟨some failed, saves⟩) frames debt) :
    Stage native depth (some ⟨some failed, saves'⟩) frames' debt := by
  cases h with
  | lost => exact .lost
  | idle hscope _ _ _ => cases hscope
  | owing hscope _ _ => cases hscope
  | running hscope _ _ _ _ => cases hscope
  | cleaning hscope _ _ _ _ _ _ _ => cases hscope
  | busy hscope haborted hactive =>
    obtain ⟨heq, -⟩ := Scope.mk.inj (Option.some.inj hscope)
    exact .busy rfl (Option.some.inj heq ▸ haborted) hactive
  | aborted hscope haborted hactive =>
    obtain ⟨heq, -⟩ := Scope.mk.inj (Option.some.inj hscope)
    exact .aborted rfl (Option.some.inj heq ▸ haborted) hactive
  | abandoned hscope haborted hactive =>
    obtain ⟨heq, -⟩ := Scope.mk.inj (Option.some.inj hscope)
    exact .abandoned rfl (Option.some.inj heq ▸ haborted) hactive

/-! ## Calls that succeed -/

/-- With nothing owed and no failure recorded, a transaction that is open is running. -/
theorem exists_running {saves : List Count}
    (h : Stage native depth (some ⟨none, saves⟩) frames .none) :
    native.active = true ∧ depth.get = native.saves.length ∧
      ∃ rest, Frames native.saves (saves.map Count.get) rest ∧
        frames = native.contents :: rest := by
  cases h with
  | idle hscope _ _ _ => cases hscope
  | running hscope hactive hdepth hsaves hframes =>
    obtain ⟨-, rfl⟩ := Scope.mk.inj (Option.some.inj hscope)
    exact ⟨hactive, hdepth, _, hsaves, hframes⟩
  | busy hscope _ _ => cases hscope
  | aborted hscope _ _ => cases hscope

/-- Outside a transaction, with nothing owed, the connection is idle. -/
theorem exists_idle (h : Stage native depth none frames .none) :
    native.active = false ∧ depth = none ∧ frames = [] := by
  cases h with
  | idle _ hactive hdepth hframes => exact ⟨hactive, hdepth, hframes⟩
  | running hscope _ _ _ _ => cases hscope
  | busy hscope _ _ => cases hscope
  | aborted hscope _ _ => cases hscope

theorem begin (h : Stage native depth none frames .none) (hsettled : native.Settled) :
    native.Legal .begin ∧
      Stage (native.run .begin) depth (some ⟨none, []⟩) [native.committed] .none := by
  obtain ⟨hactive, rfl, rfl⟩ := h.exists_idle
  refine ⟨hactive, .running rfl rfl ?_ (?_ : Frames _ _ []) ?_⟩
  · rw [hsettled hactive]
    rfl
  · rw [hsettled hactive]
    exact .nil
  · rw [hsettled hactive]
    rfl

theorem savepoint {saves : List Count} {permit : Count}
    (h : Stage native depth (some ⟨none, saves⟩) frames .none)
    (hpermit : permit.get = depth.get + 1) :
    native.Legal .savepoint ∧ Stage (native.run .savepoint) (some permit)
      (some ⟨none, permit :: saves⟩) (Nested.follow ⟨contents, frames⟩ .opened).frames .none := by
  obtain ⟨hactive, hdepth, rest, hsaves, rfl⟩ := h.exists_running
  refine ⟨hactive, .running rfl hactive ?_ ?_ rfl⟩
  · exact hpermit.trans (congrArg (· + 1) hdepth)
  · rw [List.map_cons, hpermit, hdepth]
    exact hsaves.live _

variable {saves : List Count} {count current : Count}

/-- The innermost savepoint has a place on the native stack. -/
theorem exists_save (h : Stage native (some current) (some ⟨none, count :: saves⟩) frames .none) :
    ∃ save saves', native.saves = save :: saves' ∧ current.get = saves'.length + 1 ∧
      Depth.get current.prior = saves'.length := by
  obtain ⟨-, hdepth, rest, hsaves, -⟩ := h.exists_running
  rcases hnative : native.saves with _ | ⟨save, saves'⟩
  · have hle := hsaves.depth_le count.get (by simp)
    rw [hnative, List.length_nil] at hle
    omega
  · rw [hnative, List.length_cons] at hdepth
    have hcurrent : current.get = saves'.length + 1 := hdepth
    exact ⟨save, saves', rfl, hcurrent, by rw [Count.prior_get, hcurrent, Nat.add_sub_cancel]⟩

/-- The own savepoint is released. -/
theorem release_own
    (h : Stage native (some count) (some ⟨none, count :: saves⟩) frames .none) :
    native.Legal .release ∧ Stage (native.run .release) count.prior (some ⟨none, saves⟩)
      (Nested.follow ⟨contents, frames⟩ .released).frames .none := by
  obtain ⟨save, saves', hnative, hcount, hprior⟩ := h.exists_save
  obtain ⟨hactive, -, rest, hsaves, rfl⟩ := h.exists_running
  rw [hnative, List.map_cons, hcount] at hsaves
  obtain ⟨rest', rfl, hlive⟩ := hsaves.top
  refine ⟨⟨hactive, by simp [hnative]⟩, .running rfl hactive ?_ ?_ rfl⟩
  · simpa [Native.run, hnative] using hprior
  · simpa [Native.run, hnative] using hlive

/-- A savepoint that was forgotten is released on the way to the own one. -/
theorem release_forgotten
    (h : Stage native (some current) (some ⟨none, count :: saves⟩) frames .none)
    (hne : current ≠ count) :
    native.Legal .release ∧ Stage (native.run .release) current.prior
      (some ⟨none, count :: saves⟩) frames .none := by
  obtain ⟨save, saves', hnative, hcurrent, hprior⟩ := h.exists_save
  obtain ⟨hactive, -, rest, hsaves, rfl⟩ := h.exists_running
  rw [hnative, List.map_cons] at hsaves
  have hlive := hsaves.pop fun heq => hne (Count.ext_get (hcurrent.trans heq.symm))
  refine ⟨⟨hactive, by simp [hnative]⟩, .running rfl hactive ?_ ?_ rfl⟩
  · simpa [Native.run, hnative] using hprior
  · simpa [Native.run, hnative] using hlive

/-- The own savepoint is rolled back to. -/
theorem rollbackTo_own
    (h : Stage native (some count) (some ⟨none, count :: saves⟩) frames .none) :
    native.Legal .rollbackTo ∧ Stage (native.run .rollbackTo) (some count)
      (some ⟨none, count :: saves⟩) (Nested.follow ⟨contents, frames⟩ .reverted).frames .none := by
  obtain ⟨save, saves', hnative, hcount, -⟩ := h.exists_save
  obtain ⟨hactive, hdepth, rest, hsaves, rfl⟩ := h.exists_running
  have hsaves' := hsaves
  rw [hnative, List.map_cons, hcount] at hsaves'
  obtain ⟨rest', rfl, -⟩ := hsaves'.top
  refine ⟨⟨hactive, by simp [hnative]⟩, .running rfl hactive hdepth hsaves ?_⟩
  simp [Native.run, hnative, Nested.follow]

/-- A write goes to the innermost scope. -/
theorem wrote {written : D} (h : Stage native depth (some ⟨none, saves⟩) frames .none) :
    Stage (native.leave native (.wrote written)) depth (some ⟨none, saves⟩)
      (Nested.follow ⟨contents, frames⟩ (.wrote written)).frames .none := by
  obtain ⟨hactive, hdepth, rest, hsaves, rfl⟩ := h.exists_running
  have hleave : native.leave native (.wrote written) = { native with contents := written } := by
    simp [Native.leave, hactive]
  rw [hleave]
  exact .running rfl hactive hdepth hsaves rfl

end Stage

/-! ## The committed contents -/

namespace Native

variable {control : Control} {fate : Fate D} {meter : Meter} {nested : Nested D}

@[simp]
theorem new_committed (contents : D) : (new contents).committed = contents := rfl

theorem settled_of_active (h : native.active = true) : native.Settled :=
  fun hactive => absurd (h.symm.trans hactive) (by decide)

theorem run_settled (hlegal : native.Legal control) :
    (native.run control).Settled := by
  cases control with
  | begin => exact settled_of_active rfl
  | commit => exact fun _ => rfl
  | rollback => exact fun _ => rfl
  | savepoint => exact settled_of_active (show native.active = true from hlegal)
  | release => exact settled_of_active hlegal.1
  | rollbackTo => exact settled_of_active hlegal.1

/-- What a control that fails leaves is settled. -/
theorem leave_settled (hlegal : native.Legal control) (hsettled : native.Settled)
    (hfate : fate.OfControl meter native control) :
    (native.leave (native.run control) fate.left).Settled := by
  rcases hleft : fate.left with _ | contents | ⟨contents, saves⟩ | _ | _
  · exact hsettled
  · exact absurd hleft (hfate.left contents)
  · exact settled_of_active (show native.active = true from hfate.torn contents saves hleft)
  · exact run_settled hlegal
  · exact fun _ => rfl

/-- Whatever becomes of a control, the connection stays settled, and its committed contents are
what the log says. -/
theorem control_base (hlegal : native.Legal control) (hsettled : native.Settled)
    (hfate : fate.OfControl meter native control) (hbase : native.committed = nested.base)
    (hcontents : control = .commit → ∃ rest, nested.frames = native.contents :: rest) :
    (native.control control .granted fate).1.Settled ∧
      (native.control control .granted fate).1.committed =
        (nested.run (native.event (some control) .granted fate)).base := by
  have hcommit : control = .commit → (nested.follow .committed).base = native.contents := by
    intro heq
    obtain ⟨rest, hframes⟩ := hcontents heq
    rcases nested with ⟨base, frames⟩
    obtain rfl : frames = native.contents :: rest := hframes
    rfl
  rcases hresult : fate.result with code | step
  · have hstep : native.control control .granted fate =
        (native.leave (native.run control) fate.left, .error code) := by
      simp [Native.control, hlegal, hresult]
    rw [hstep]
    refine ⟨leave_settled hlegal hsettled hfate, ?_⟩
    rcases hleft : fate.left with _ | contents | ⟨contents, saves⟩ | _ | _
    · cases control <;> simpa [event, hleft, hresult, leave] using hbase
    · exact absurd hleft (hfate.left contents)
    · cases control <;> simpa [event, hleft, hresult, leave] using hbase
    · cases control with
      | commit =>
        rw [event, if_neg (by simpa using hlegal), hresult, hleft, Nested.run_cons, Nested.run_nil,
          hcommit rfl]
        rfl
      | _ => simpa [event, leave, run] using hbase
    · cases control <;> simpa [event, hleft, hresult, leave] using hbase
  · have hstep : native.control control .granted fate = (native.run control, .ok .done) := by
      simp [Native.control, hlegal, hresult]
    rw [hstep]
    refine ⟨run_settled hlegal, ?_⟩
    cases control with
    | commit =>
      rw [event, if_neg (by simpa using hlegal), hresult, Nested.run_cons, Nested.run_nil,
        hcommit rfl]
      rfl
    | _ => simpa [event, run] using hbase

/-- Whatever becomes of another statement, too. -/
theorem plain_base (hsettled : native.Settled) (hfate : fate.OfQuery)
    (hbase : native.committed = nested.base)
    (hframes : native.active = false → nested.frames = [])
    (hopen : native.active = true → nested.frames ≠ []) (permission : Permission) :
    (native.plain fate).1.Settled ∧
      (native.plain fate).1.committed = (nested.run (native.event none permission fate)).base := by
  rcases nested with ⟨base, frames⟩
  obtain rfl : native.committed = base := hbase
  rcases hfate.left with hleft | ⟨contents, hleft⟩ | ⟨hleft, -⟩
  · simp only [plain, event, hleft, leave, Nested.run_nil]
    exact ⟨hsettled, trivial⟩
  · simp only [plain, event, hleft, leave, Nested.run_cons, Nested.run_nil]
    rcases hactive : native.active with _ | _
    · obtain rfl : frames = [] := hframes hactive
      exact ⟨fun _ => rfl, rfl⟩
    · rcases frames with _ | ⟨frame, frames⟩
      · exact absurd rfl (hopen hactive)
      · exact ⟨settled_of_active rfl, rfl⟩
  · simp only [plain, event, hleft, leave, Nested.run_nil]
    exact ⟨fun _ => rfl, rfl⟩

end Native

end Cartel.Sqlite.Tx
