import Cartel.Tx.Controls

/-!
# The laws of nested transactions

In every state of a run a control that the cleanup issues is legal, and no savepoint is released
with none counted; with nothing owed and no failure recorded, the counter is the height of the
native stack (`Reached.scopes_nested`). What is committed, and what a statement sees, is what the
program did in its nested scopes, where a scope that was dropped has left nothing
(`Reached.contents_nested`). And no call is told that it runs inside another one
(`Reached.never_reentrant`).
-/

namespace Cartel.Sqlite.Tx

open Cartel.Lib (Event Nested Frames Body)

variable {D : Type} {config : Config} {contents : D} {world : World D} {debt : Debt}

theorem Debt.eq_none_of_word (h : debt.word = Pending.none) : debt = .none := by
  cases debt with
  | none => rfl
  | transaction => exact absurd h (by decide)
  | savepoint target phase => exact absurd h (Pending.encode_ne target phase).1
  | failed => exact absurd h (by decide)

/-- With nothing owed and no failure recorded, the scopes of the program are those of the
connection. -/
theorem Core.level (h : Core contents world .none) (hfailed : world.failed = none) :
    (world.native.active = true ↔ world.scope ≠ none) ∧
      world.work.depth.get = world.native.saves.length ∧
      world.native.contents = (world.nested contents).contents := by
  have hstage := h.stage
  rcases hscope : world.scope with _ | ⟨failed, saves⟩
  · rw [hscope] at hstage
    obtain ⟨hactive, hdepth, hframes⟩ := hstage.exists_idle
    have hbase := h.base
    have hnative := h.settled hactive
    refine ⟨by simp [hactive], ?_, ?_⟩
    · rw [hdepth, hnative]
      rfl
    · rw [Nested.contents, hframes, hnative]
      exact hbase
  · rw [World.failed, hscope] at hfailed
    obtain rfl : failed = none := hfailed
    rw [hscope] at hstage
    obtain ⟨hactive, hdepth, rest, -, hframes⟩ := hstage.exists_running
    refine ⟨by simp [hactive], hdepth, ?_⟩
    rw [Nested.contents, hframes]
    rfl

/-- Every action has a result, every control of the cleanup is legal, and the counter is the height
of the native stack. -/
theorem Reached.scopes_nested (h : Reached config contents world) :
    (∀ act, world.Allowed config act → ∃ world', world.act config act = some world') ∧
    (world.work.pending = Pending.none → world.failed = none →
      (world.native.active = true ↔ world.scope ≠ none) ∧
        world.work.depth.get = world.native.saves.length) ∧
    ∀ cleanup, Pending.control world.work.pending = some cleanup →
      world.native.Legal (Pending.cleanup cleanup) ∧
        (Pending.complete cleanup world.work.depth).isSome ∧
        (Pending.cleanup cleanup = .release → world.work.depth ≠ none) := by
  have hinv := h.inv
  obtain ⟨debt, hcore, -⟩ := hinv.core
  refine ⟨fun act hallowed => ?_, fun hpending hfailed => ?_, fun cleanup hcontrol => ?_⟩
  · obtain ⟨world', hact, -⟩ := hinv.act hallowed
    exact ⟨world', hact⟩
  · obtain rfl := Debt.eq_none_of_word (hcore.word.symm.trans hpending)
    obtain ⟨hactive, hdepth, -⟩ := hcore.level hfailed
    exact ⟨hactive, hdepth⟩
  · rw [hcore.word, Pending.control_word] at hcontrol
    split_ifs at hcontrol with howes
    obtain rfl := Option.some.inj hcontrol
    obtain ⟨hlegal, debt', depth', hcomplete, -⟩ := hcore.cleaned (not_or.mp howes)
    rw [hcore.word] at hlegal hcomplete
    refine ⟨hlegal, by rw [hcomplete]; rfl, fun hrelease hdepth => ?_⟩
    cases debt with
    | none => exact howes (Or.inl rfl)
    | failed => exact howes (Or.inr rfl)
    | transaction => cases hrelease
    | savepoint target phase =>
      have hstage := hcore.stage
      rw [Pending.cleanup_savepoint] at hrelease
      cases phase with
      | rollback => cases hrelease
      | release =>
        obtain ⟨-, current, hcurrent, -⟩ := hstage.clean_release
        cases hdepth.symm.trans hcurrent

/-- No call is told that it runs inside another one. -/
theorem Reached.never_reentrant (h : Reached config contents world) :
    world.reply ≠ some (.error .reentrantQuery) :=
  fun hreply => h.inv.clean.reply _ hreply rfl

/-! ## How long a cleanup takes -/

/-- The cleanup goes on for a number of controls, and all of them succeed. -/
inductive World.Pays (config : Config) : World D → ℕ → World D → Prop where
  | refl (world : World D) : Pays config world 0 world
  | step {world world' world'' : World D} {count : ℕ} {fate : Fate D} {status : Status}
      (hcleans : world.Cleans config fate)
      (hadvance : world.advance config fate = some (world', .ok status))
      (h : Pays config world' count world'') : Pays config world (count + 1) world''

/-- Every control that succeeds is one of those it takes. -/
theorem Core.pays {count : ℕ} {world' : World D} (h : world.Pays config count world')
    (hclean : Clean world) (hcore : Core contents world debt) (hrest : Resting world debt)
    (hfailed : debt ≠ .failed) :
    ∃ debt', Core contents world' debt' ∧ debt' ≠ .failed ∧
      debt'.rounds world'.work.depth.get + count = debt.rounds world.work.depth.get := by
  induction h generalizing debt with
  | refl world => exact ⟨debt, hcore, hfailed, rfl⟩
  | step hcleans hadvance _ ih =>
    rcases hcore.advance hclean hrest hcleans with
      ⟨world₁, status', debt₁, hadvance', -, hclean₁, hcore₁, hrest₁, hfailed₁, hrounds⟩ |
      ⟨world₁, error, hadvance', -⟩
    · obtain ⟨rfl, -⟩ := Prod.mk.inj (Option.some.inj (hadvance.symm.trans hadvance'))
      obtain ⟨debt', hcore', hfailed', hrounds'⟩ := ih hclean₁ hcore₁ hrest₁ hfailed₁
      exact ⟨debt', hcore', hfailed', by omega⟩
    · cases hadvance.symm.trans hadvance'

theorem Debt.eq_transaction_of_word (h : debt.word = Pending.tx) : debt = .transaction := by
  cases debt with
  | transaction => rfl
  | none => exact absurd h (by decide)
  | savepoint target phase => exact absurd h (Pending.encode_ne target phase).2.1
  | failed => exact absurd h (by decide)

theorem Debt.eq_savepoint_of_word {target : Count} {phase : Phase}
    (h : debt.word = Pending.encode target.get phase) : debt = .savepoint target phase := by
  have hne := Pending.encode_ne target phase
  cases debt with
  | none => exact absurd h.symm hne.1
  | transaction => exact absurd h.symm hne.2.1
  | failed => exact absurd h.symm hne.2.2
  | savepoint target' phase' =>
    have htarget : target' = target := by
      refine Count.ext_get ?_
      rw [← Pending.encode_div target' phase', ← Pending.encode_div target phase]
      exact congrArg (· >>> 1) h
    have hphase : phase' = .rollback ↔ phase = .rollback := by
      rw [← Pending.encode_tag target' phase', ← Pending.encode_tag target phase]
      exact Eq.congr_left (congrArg (· &&& Pending.tag) h)
    subst htarget
    cases phase <;> cases phase' <;> simp_all

/-- A debt takes no controls exactly if there is none. -/
theorem Core.rounds_eq_zero (hcore : Core contents world debt) (hfailed : debt ≠ .failed) :
    debt.rounds world.work.depth.get = 0 ↔ world.work.pending = Pending.none := by
  rw [hcore.word]
  refine ⟨fun h => ?_, fun h => ?_⟩
  · cases debt with
    | none => rfl
    | transaction => cases h
    | savepoint target phase => cases phase <;> cases h
    | failed => exact absurd rfl hfailed
  · rw [Debt.eq_none_of_word h]
    rfl

/-- The cleanup of a transaction is one control, that of the savepoints down to a target two for
each, less one if the top one is rolled back already. -/
theorem Reached.cleanup_rounds {world' : World D} {count : ℕ} (h : Reached config contents world)
    (hpays : world.Pays config count world') :
    (world.work.pending = Pending.tx → (world'.work.pending = Pending.none ↔ count = 1)) ∧
    ∀ (target : Count) (phase : Phase), world.work.pending = Pending.encode target.get phase →
      (world'.work.pending = Pending.none ↔
        count = 2 * (world.work.depth.get - target.get) + match phase with
          | .rollback => 2
          | .release => 1) := by
  have hinv := h.inv
  obtain ⟨debt, hcore, hflight⟩ := hinv.core
  have hrest : debt ≠ .none → Resting world debt := by
    intro hne
    unfold Flight at hflight
    split at hflight
    · exact hflight
    · exact hflight.2
    · exact absurd hflight.2.1 hne
  have hcount : debt ≠ .none → debt ≠ .failed →
      (world'.work.pending = Pending.none ↔ count = debt.rounds world.work.depth.get) := by
    intro hne hfailed
    obtain ⟨debt', hcore', hfailed', hrounds⟩ :=
      Core.pays hpays hinv.clean hcore (hrest hne) hfailed
    rw [← hcore'.rounds_eq_zero hfailed']
    omega
  refine ⟨fun hpending => ?_, fun target phase hpending => ?_⟩
  · obtain rfl := Debt.eq_transaction_of_word (hcore.word.symm.trans hpending)
    exact hcount (by simp) (by simp)
  · obtain rfl := Debt.eq_savepoint_of_word (hcore.word.symm.trans hpending)
    have hiff := hcount (by simp) (by simp)
    cases phase <;> exact hiff

/-! ## A run -/

/-- Four savepoints, and ten calls of the progress handler for a call and for a cleanup. -/
def sampleConfig : Config :=
  ⟨⟨4, by decide, by decide⟩, 10, 10, by decide, by decide⟩

/-- One savepoint. -/
def sampleCount : Count :=
  ⟨1, by decide, by decide⟩

/-- A step that is done. -/
def sampleDone (left : Left ℕ) : Fate ℕ :=
  ⟨1, .ok .done, left⟩

/-- A transaction with nothing owed and no call in flight. -/
def sampleWorld (contents : ℕ) (saves : List ℕ) (depth : Depth) (scopes : List Count)
    (log : List (Event ℕ)) : World ℕ :=
  ⟨⟨0, contents, true, saves⟩, ⟨⟨9, .idle, .denied⟩, .new, Pending.none, depth⟩,
    some ⟨none, scopes⟩, none, some (.ok ()), log⟩

/-- A query that waits for the cleanup of a dropped savepoint. -/
def sampleWaiting (contents : ℕ) (saves : List ℕ) (meter : Meter) (pending : ℕ) (depth : Depth) :
    World ℕ :=
  ⟨⟨0, contents, true, saves⟩, ⟨meter, .new, pending, depth⟩, some ⟨none, []⟩,
    some ⟨.query, none⟩, none, [.began, .wrote 1, .opened, .wrote 2, .dropped]⟩

theorem sample_control {meter : Meter} {native : Native ℕ} {control : Control}
    (hstop : (meter.ticks 1).2 = false) : (sampleDone .same).OfControl meter native control := by
  refine ⟨fun h => ?_, by rintro _ ⟨⟩, (by rintro _ h; cases h), (by rintro _ _ h; cases h)⟩
  cases hstop.symm.trans h

theorem sample_query {left : Left ℕ} (h : left = .same ∨ ∃ contents, left = .wrote contents) :
    (sampleDone left).OfQuery :=
  ⟨h.imp id Or.inl⟩

/-- The three actions of a call that succeeds. -/
theorem Reached.succeeds {world₀ world₁ world₂ world₃ : World ℕ} {left : Left ℕ}
    (h : Reached sampleConfig 0 world₀) (call : Call)
    (hcall : world₀.Allowed sampleConfig (.call call)) (hstart : world₀.call call = world₁)
    (hidle : Pending.status world₁.work.pending = .idle)
    (hbind : world₁.start sampleConfig call (.ok ()) = some world₂) (active : Active)
    (hactive : world₂.op = some ⟨call, some active⟩)
    (hleft : (sampleDone left).Sound world₂.work.meter world₂.native active.statement)
    (hop : world₁.op = some ⟨call, none⟩)
    (hstep : world₂.poll call active (sampleDone left) (sampleDone .same) (.ok ()) (.ok ()) =
      world₃) : Reached sampleConfig 0 world₃ := by
  have h₁ : Reached sampleConfig 0 world₁ := h.act hcall (congrArg some hstart)
  have hprepare : world₁.Allowed sampleConfig (.prepare (.ok ())) :=
    ⟨⟨call, hop⟩, hidle, by rintro _ ⟨⟩⟩
  have h₂ : Reached sampleConfig 0 world₂ :=
    h₁.act hprepare (by rw [World.act, hop]; exact hbind)
  have hallowed : world₂.Allowed sampleConfig
      (.step (sampleDone left) (sampleDone .same) (.ok ()) (.ok ())) :=
    ⟨call, active, hactive, hleft, sample_query (Or.inl rfl), by rintro _ ⟨⟩, by rintro _ ⟨⟩⟩
  exact h₂.act hallowed (by rw [World.act, hactive]; exact congrArg some hstep)

theorem sample_done {world : World ℕ} (h : Pending.status world.work.pending = .pending)
    (hstop : ∀ meter, world.work.meter.cleanup sampleConfig.cleanup = .ok meter →
      (meter.ticks 1).2 = false) : world.Cleans sampleConfig (sampleDone .same) :=
  ⟨h, fun meter hmeter => sample_control (hstop meter hmeter)⟩

/-- A savepoint written to and dropped. -/
theorem sample_dropped : Reached sampleConfig 0
    (sampleWaiting 2 [1] ⟨9, .idle, .denied⟩ 2 (some sampleCount)) := by
  have hbegun : Reached sampleConfig 0 (sampleWorld 0 [] none [] [.began]) :=
    Reached.new.succeeds .begin ⟨rfl, rfl⟩ rfl rfl rfl _ rfl (sample_control rfl) rfl rfl
  have hwrote : Reached sampleConfig 0 (sampleWorld 1 [] none [] [.began, .wrote 1]) :=
    hbegun.succeeds .query ⟨rfl, trivial⟩ rfl rfl rfl _ rfl (sample_query (Or.inr ⟨1, rfl⟩)) rfl rfl
  have hopened : Reached sampleConfig 0
      (sampleWorld 1 [1] (some sampleCount) [sampleCount] [.began, .wrote 1, .opened]) :=
    hwrote.succeeds .savepoint ⟨rfl, by rintro ⟨⟩⟩ rfl rfl rfl _ rfl (sample_control rfl) rfl rfl
  have hwrote' : Reached sampleConfig 0
      (sampleWorld 2 [1] (some sampleCount) [sampleCount] [.began, .wrote 1, .opened, .wrote 2]) :=
    hopened.succeeds .query ⟨rfl, trivial⟩ rfl rfl rfl _ rfl (sample_query (Or.inr ⟨2, rfl⟩)) rfl
      rfl
  have hdropped := hwrote'.act
    (show World.Allowed sampleConfig _ .drop from ⟨rfl, by rintro ⟨⟩⟩) rfl
  exact hdropped.act (show World.Allowed sampleConfig _ (.call .query) from ⟨rfl, trivial⟩) rfl

theorem sample_reverts : (sampleWaiting 2 [1] ⟨9, .idle, .denied⟩ 2 (some sampleCount)).Cleans
    sampleConfig (sampleDone .same) :=
  sample_done rfl fun meter h => by obtain rfl := Except.ok.inj h; rfl

theorem sample_releases : (sampleWaiting 1 [1] ⟨9, .cleanup, .denied⟩ 3 (some sampleCount)).Cleans
    sampleConfig (sampleDone .same) :=
  sample_done rfl fun meter h => by obtain rfl := Except.ok.inj h; rfl

/-- The cleanup of the savepoint, and a query after it. -/
theorem sample_run : Reached sampleConfig 0
    (sampleWorld 1 [] none [] [.began, .wrote 1, .opened, .wrote 2, .dropped]) := by
  have hreverted : Reached sampleConfig 0
      (sampleWaiting 1 [1] ⟨9, .cleanup, .denied⟩ 3 (some sampleCount)) :=
    sample_dropped.act (show World.Allowed sampleConfig _ (.clean (sampleDone .same)) from
      ⟨⟨_, rfl⟩, sample_reverts⟩) rfl
  have hreleased : Reached sampleConfig 0 (sampleWaiting 1 [] ⟨8, .idle, .denied⟩ 0 none) :=
    hreverted.act (show World.Allowed sampleConfig _ (.clean (sampleDone .same)) from
      ⟨⟨_, rfl⟩, sample_releases⟩) rfl
  have hbound := hreleased.act (show World.Allowed sampleConfig _ (.prepare (.ok ())) from
    ⟨⟨_, rfl⟩, rfl, by rintro _ ⟨⟩⟩) rfl
  exact hbound.act (show World.Allowed sampleConfig _
    (.step (sampleDone .same) (sampleDone .same) (.ok ()) (.ok ())) from
    ⟨_, _, rfl, sample_query (Or.inl rfl), sample_query (Or.inl rfl), by rintro _ ⟨⟩,
      by rintro _ ⟨⟩⟩) rfl

theorem scopes_nested_sample : ∃ world : World ℕ,
    world.log = [.began, .wrote 1, .opened, .wrote 2, .dropped] ∧
      (world.native.active = true ↔ world.scope ≠ none) ∧
      world.work.depth.get = world.native.saves.length := by
  obtain ⟨-, hlevel, -⟩ := Reached.scopes_nested sample_run
  exact ⟨_, rfl, hlevel rfl rfl⟩

theorem never_reentrant_sample : ∃ world : World ℕ,
    world.log = [.began, .wrote 1, .opened, .wrote 2, .dropped] ∧
      world.reply ≠ some (.error .reentrantQuery) :=
  ⟨_, rfl, Reached.never_reentrant sample_run⟩

theorem cleanup_rounds_sample : ∃ world world' : World ℕ, world.Pays sampleConfig 2 world' ∧
    world.work.pending = Pending.encode 1 .rollback ∧ world.work.depth.get = 1 ∧
    (world'.work.pending = Pending.none ↔ 2 = 2 * (1 - 1) + 2) := by
  have hpays : (sampleWaiting 2 [1] ⟨9, .idle, .denied⟩ 2 (some sampleCount)).Pays sampleConfig 2
      (sampleWaiting 1 [] ⟨8, .idle, .denied⟩ 0 none) :=
    .step sample_reverts rfl (.step sample_releases rfl (.refl _))
  exact ⟨_, _, hpays, rfl, rfl,
    (Reached.cleanup_rounds sample_dropped hpays).2 sampleCount .rollback rfl⟩

end Cartel.Sqlite.Tx
