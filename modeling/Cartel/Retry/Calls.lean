import Cartel.Retry.Slot

/-!
# The retries of a call

A call is polled in rounds, and every step of its statement is noted : whether the call waited
before it, and whether it found the database busy and waits (`Attempt`). What holds of the notes of
every call is that each step behind a busy one was waited for, was made before the deadline of
the first, and in sleep mode not before the interval had passed (`Follows`), and that there are no
more of them than the limit.

The state of the slot follows from the notes (`Tracks`) : the deadline is that of the first busy
step, the fault that of the last one, and what remains of the budget is what the steps behind
busy ones have left of it. Between calls the slot is idle and its alarm is not armed.
-/

namespace Cartel.Sqlite.Retry

variable {α ε : Type}

/-! ## Notes -/

/-- A step : the reading of the clock at which the wait before it ended, if there was one, and the
reading and the fault with which the call waits behind it, if it does. -/
structure Attempt (α : Type) where
  resumed : Option ℕ
  contended : Option (ℕ × Fault α)

/-- With what a turn waits behind its step. -/
def Turn.contended (turn : Turn α ε) : Option (ℕ × Fault α) :=
  match turn.stepped, turn.transaction, turn.guarded with
  | .error (.busy action code), .ok (), true => some (turn.deferred, Fault.new action code)
  | _, _, _ => none

/-- The step of a round, if it gets to it. -/
def attempt (slot : Slot α) (turn : Turn α ε) : Option (Attempt α) :=
  match resume slot turn with
  | (_, .ready (.ok ())) =>
    some ⟨if slot.wait = .pending then some turn.polled else none, turn.contended⟩
  | _ => none

section

variable (log : List (Attempt α))

/-- The first busy moment. -/
def started : Option ℕ :=
  log.findSome? fun a => a.contended.map Prod.fst

/-- The deadline of a call. -/
def deadline (clock : Clock) (limits : Contention) : Option ℕ :=
  (started log).map fun moment => clock.clampAdd moment limits.window

/-- The last step, if it was a busy one. -/
def waiting : Option (ℕ × Fault α) :=
  log.getLast?.bind Attempt.contended

/-- The number of steps that were waited for. -/
def retried : ℕ :=
  (log.filter fun a => a.resumed.isSome).length

end

/-- The interval of the sleep mode. -/
def Slot.sleeps (slot : Slot α) (limits : Contention) : Option ℕ :=
  match slot.alarm, limits.delay with
  | some _, .sleep interval => some interval
  | _, _ => none

/-- A step behind a busy one is made before the deadline, and in sleep mode the interval or what
is left of the time has passed. Behind another one nothing is waited for. -/
def Follows (due sleeps : Option ℕ) (a b : Attempt α) : Prop :=
  match a.contended with
  | none => b.resumed = none
  | some (busy, _) => ∃ now deadline, b.resumed = some now ∧ due = some deadline ∧ busy ≤ now ∧
      now < deadline ∧ ∀ interval, sleeps = some interval →
        min interval (deadline - busy) ≤ now - busy

/-- Every step follows the one before it, and the first one none. -/
structure Lawful (due sleeps : Option ℕ) (log : List (Attempt α)) : Prop where
  first : ∀ a ∈ log.head?, a.resumed = none
  follows : ∀ front a b back, log = front ++ a :: b :: back → Follows due sleeps a b

/-! ## Runs -/

/-- The slot, the last reading of the clock, the steps of the call and whether it goes on. -/
structure World (α : Type) where
  slot : Slot α
  now : ℕ
  log : List (Attempt α)
  active : Bool

namespace World

/-- The lease is given back. -/
def release (world : World α) : World α :=
  { world with slot := Role.call.giveBack world.slot, active := false }

/-- A call that has taken the lease. -/
def enter (world : World α) : World α :=
  { world with log := [], active := true }

/-- A round. The call ends with an error or when the statement is done. -/
def round (clock : Clock) (limits : Contention) (world : World α) (turn : Turn α ε) : World α :=
  let next := Retry.round clock limits world.slot turn
  let polled : World α :=
    ⟨next.1, turn.deferred, world.log ++ (attempt world.slot turn).toList, world.active⟩
  match next.2 with
  | some (.ready (.ok .done)) | some (.ready (.error _)) => polled.release
  | _ => polled

end World

/-- The readings do not go back, and an armed alarm has not fired before its moment. -/
structure Turn.Honest (turn : Turn α ε) (world : World α) : Prop where
  polled : world.now ≤ turn.polled
  deferred : turn.polled ≤ turn.deferred
  fires : turn.fires = true → ∀ moment, world.slot.alarm = some (some moment) →
    moment ≤ turn.polled

/-- The worlds that calls lead to, from a slot that is cleared when the connection is open. A call
can be dropped between two rounds. -/
inductive Reached (ε : Type) (clock : Clock) (config : Config) : World α → Prop
  | start (slot : Slot α) (now : ℕ) : Reached ε clock config ⟨slot.finish, now, [], false⟩
  | enter {world : World α} : Reached ε clock config world → world.active = false →
      Reached ε clock config world.enter
  | round {world : World α} (turn : Turn α ε) : Reached ε clock config world →
      world.active = true → turn.Honest world →
      Reached ε clock config (world.round clock (Role.call.limits config) turn)
  | drop {world : World α} : Reached ε clock config world → world.active = true →
      Reached ε clock config world.release

/-! ## Notes that are added -/

section

variable {log : List (Attempt α)} {a : Attempt α} {clock : Clock} {limits : Contention}
  {due sleeps : Option ℕ}

theorem started_concat : started (log ++ [a]) = (started log).or (a.contended.map Prod.fst) := by
  simp only [started, List.findSome?_append, List.findSome?_singleton]

theorem waiting_concat : waiting (log ++ [a]) = a.contended := by
  simp [waiting]

theorem retried_concat :
    retried (log ++ [a]) = retried log + if a.resumed.isSome then 1 else 0 := by
  unfold retried
  rw [List.filter_append, List.length_append, List.filter_cons, List.filter_nil]
  split_ifs <;> rfl

/-- Steps before the first busy one have no deadline. -/
theorem contended_of_started (h : started log = none) {b : Attempt α} (hb : b ∈ log) :
    b.contended = none := by
  have hnone := List.findSome?_eq_none_iff.mp h b hb
  exact Option.map_eq_none_iff.mp hnone

/-- Behind the first busy step the deadline stays. -/
theorem deadline_concat (h : started log ≠ none) :
    deadline (log ++ [a]) clock limits = deadline log clock limits := by
  obtain ⟨moment, hmoment⟩ := Option.ne_none_iff_exists'.mp h
  rw [deadline, deadline, started_concat, hmoment, Option.some_or]

theorem Lawful.nil : Lawful due sleeps ([] : List (Attempt α)) :=
  ⟨fun a h => (by cases h), fun front a b back h => by simp at h⟩

/-- A note that follows the last one. -/
theorem Lawful.concat (h : Lawful (deadline log clock limits) sleeps log)
    (hfirst : log = [] → a.resumed = none)
    (hlast : ∀ b ∈ log.getLast?, Follows (deadline (log ++ [a]) clock limits) sleeps b a) :
    Lawful (deadline (log ++ [a]) clock limits) sleeps (log ++ [a]) := by
  refine ⟨fun b hb => ?_, fun front b c back hsplit => ?_⟩
  · cases log with
    | nil =>
      cases hb
      exact hfirst rfl
    | cons head log => exact h.first b hb
  · rcases List.eq_nil_or_concat back with rfl | ⟨back, d, rfl⟩
    · have hcut : log ++ [a] = (front ++ [b]) ++ [c] := by rw [hsplit]; simp
      obtain ⟨rfl, hc⟩ := List.append_inj' hcut rfl
      cases hc
      exact hlast b (by simp)
    · have hcut : log ++ [a] = (front ++ b :: c :: back) ++ [d] := by rw [hsplit]; simp
      obtain ⟨hlog, -⟩ := List.append_inj' hcut rfl
      have hold := h.follows front b c back hlog
      by_cases hstarted : started log = none
      · have hmem : b ∈ log := by rw [hlog]; simp
        unfold Follows at hold ⊢
        rw [contended_of_started hstarted hmem] at hold ⊢
        exact hold
      · rw [deadline_concat hstarted]
        exact hold

end

/-! ## The slot and the notes -/

section

variable {log : List (Attempt α)} {a : Attempt α} {clock : Clock} {limits : Contention}
  {slot : Slot α} {budget : Budget α} {turn : Turn α ε} {count now : ℕ} {fault : Fault α}

/-- The budget of a call that waits behind its last step. -/
structure Waits (clock : Clock) (limits : Contention) (log : List (Attempt α)) (busy : ℕ)
    (budget : Budget α) : Prop where
  due : deadline log clock limits = some budget.deadline
  waiting : waiting log = some (busy, budget.fault)
  remaining : budget.remaining + retried log + 1 = limits.retries

/-- A slot that does not wait, `count` steps having been waited for. -/
def Free (clock : Clock) (limits : Contention) (slot : Slot α) (log : List (Attempt α))
    (count : ℕ) : Prop :=
  slot.state = .idle ∧ started log = none ∧ count = 0 ∨
    ∃ budget, slot.state = .ready budget ∧ deadline log clock limits = some budget.deadline ∧
      budget.remaining + count = limits.retries

/-- The state of the slot of a call, by its notes. -/
def Tracks (clock : Clock) (limits : Contention) (slot : Slot α) (log : List (Attempt α))
    (now : ℕ) : Prop :=
  waiting log = none ∧ Free clock limits slot log (retried log) ∨
    ∃ budget busy, Waits clock limits log busy budget ∧ busy ≤ now ∧
      (slot.state = .pendingYield budget ∧ slot.sleeps limits = none ∨
        ∃ interval, slot.state = .pendingSleep budget ∧ slot.sleeps limits = some interval ∧
          slot.alarm = some (some (min (clock.clampAdd busy interval) budget.deadline)))

theorem Free.wait_eq (h : Free clock limits slot log count) : slot.wait = .ready := by
  unfold Slot.wait
  rcases h with ⟨hstate, -⟩ | ⟨budget, hstate, -⟩
  · rw [hstate]
  · rw [hstate]

/-- A busy step that is noted gives the budget from which it is paid. -/
theorem Free.defer_eq (h : Free clock limits slot log count) (fires : Bool)
    (hcontended : a.contended = some (now, fault)) :
    ∃ budget : Budget α, slot.defer (ε := ε) clock limits now fault fires =
        ({ slot with state := .idle } : Slot α).spend clock limits now budget ∧
      budget.fault = fault ∧ deadline (log ++ [a]) clock limits = some budget.deadline ∧
      budget.remaining + count = limits.retries := by
  unfold Slot.defer
  rcases h with ⟨hstate, hstarted, rfl⟩ | ⟨budget, hstate, hdue, hremaining⟩
  · refine ⟨⟨clock.clampAdd now limits.window, fault, limits.retries⟩, ?_, rfl, ?_, rfl⟩
    · obtain ⟨alarm, state⟩ := slot
      cases hstate
      rfl
    · rw [deadline, started_concat, hstarted, hcontended]
      rfl
  · refine ⟨{ budget with fault := fault }, by rw [hstate], rfl, ?_, hremaining⟩
    have hstarted : started log ≠ none := fun hnone => by
      rw [deadline, hnone] at hdue
      cases hdue
    rw [deadline_concat hstarted]
    exact hdue

/-- The slot behind a wait that begins. -/
theorem tracks_spend (slot : Slot α) {budget : Budget α} (hremaining : budget.remaining + count = limits.retries)
    (hcount : retried (log ++ [a]) = count) (hleft : budget.remaining ≠ 0)
    (hdue : deadline (log ++ [a]) clock limits = some budget.deadline) (hlate : now < budget.deadline)
    (hcontended : a.contended = some (now, budget.fault)) :
    ∃ slot', ({ slot with state := .idle } : Slot α).spend (ε := ε) clock limits now budget =
        (slot', .pending) ∧
      Tracks clock limits slot' (log ++ [a]) now ∧ slot'.sleeps limits = slot.sleeps limits := by
  have hwaits : Waits clock limits (log ++ [a]) now { budget with
      remaining := budget.remaining - 1 } := by
    refine ⟨hdue, by rw [waiting_concat, hcontended], ?_⟩
    rw [hcount]
    dsimp only
    omega
  unfold Slot.spend
  rw [if_neg hleft]
  dsimp only
  rw [if_neg (not_le.mpr hlate)]
  cases halarm : slot.alarm with
  | none =>
    refine ⟨_, rfl, Or.inr ⟨_, now, hwaits, le_rfl, Or.inl ⟨rfl, rfl⟩⟩, ?_⟩
    rw [Slot.sleeps, Slot.sleeps, halarm]
  | some alarm =>
    cases hdelay : limits.delay with
    | yield =>
      refine ⟨_, rfl, Or.inr ⟨_, now, hwaits, le_rfl, Or.inl ⟨rfl, ?_⟩⟩, ?_⟩
      · rw [Slot.sleeps, hdelay]
      · rw [Slot.sleeps, Slot.sleeps, halarm, hdelay]
    | sleep interval =>
      refine ⟨_, rfl, Or.inr ⟨_, now, hwaits, le_rfl, Or.inr ⟨interval, rfl, ?_, rfl⟩⟩, ?_⟩
      · rw [Slot.sleeps, hdelay]
      · rw [Slot.sleeps, Slot.sleeps, halarm, hdelay]

/-- A turn that waits behind its step. -/
theorem Turn.contended_eq_some (h : turn.contended = some (now, fault)) :
    ∃ action code, turn.stepped = .error (.busy action code) ∧ turn.transaction = .ok () ∧
      turn.guarded = true ∧ now = turn.deferred ∧ fault = Fault.new action code := by
  unfold Turn.contended at h
  split at h
  · next action code hstepped htransaction hguarded =>
    cases h
    exact ⟨action, code, hstepped, htransaction, hguarded, rfl, rfl⟩
  · cases h

/-- A step that is not waited behind leaves the slot, and ends the call if it was busy. -/
theorem settle_of_not_contended (clock : Clock) (limits : Contention) (slot : Slot α)
    (h : turn.contended = none) :
    ∃ result, settle clock limits slot turn = (slot, some (.ready result)) ∧
      ∀ action code, turn.stepped = .error (.busy action code) → ∃ error, result = .error error := by
  unfold settle
  split
  · next action code hstepped =>
    split
    · exact ⟨_, rfl, fun _ _ _ => ⟨_, rfl⟩⟩
    · next htransaction =>
      split_ifs with hguarded
      · rw [Turn.contended, hstepped, htransaction, hguarded] at h
        cases h
      · exact ⟨_, rfl, fun _ _ _ => ⟨_, rfl⟩⟩
  · next hother => exact ⟨_, rfl, fun action code hbusy => absurd hbusy (hother action code)⟩

/-- A step that is waited behind ends the call when the limit or the deadline is reached, and is
waited for otherwise. -/
theorem settle_of_contended (hfree : Free clock limits slot log (retried (log ++ [a])))
    (hturn : turn.contended = some (now, fault)) (ha : a.contended = some (now, fault)) :
    ∃ due, deadline (log ++ [a]) clock limits = some due ∧
      (settle clock limits slot turn).2 =
        some (if retried (log ++ [a]) = limits.retries then .ready (.error fault.busy)
          else if due ≤ now then .ready (.error fault.timeout) else .pending) ∧
      (settle clock limits slot turn).1.sleeps limits = slot.sleeps limits ∧
      (retried (log ++ [a]) ≠ limits.retries → now < due →
        Tracks clock limits (settle clock limits slot turn).1 (log ++ [a]) now) := by
  obtain ⟨budget, hdefer, rfl, hdue, hremaining⟩ := hfree.defer_eq (ε := ε) turn.refires ha
  obtain ⟨action, code, hstepped, htransaction, hguarded, rfl, hfault⟩ :=
    Turn.contended_eq_some hturn
  have herror : ∀ slot' error, ({ slot with state := .idle } : Slot α).spend clock limits
      turn.deferred budget = (slot', .ready (.error error)) →
        settle clock limits slot turn = (slot', some (.ready (.error error))) := by
    intro slot' error hspend
    rw [settle, hstepped]
    dsimp only
    rw [htransaction]
    dsimp only
    rw [if_pos hguarded, ← hfault, hdefer, hspend]
  have hpending : ∀ slot', ({ slot with state := .idle } : Slot α).spend (ε := ε) clock limits
      turn.deferred budget = (slot', .pending) →
        settle clock limits slot turn = (slot', some .pending) := by
    intro slot' hspend
    rw [settle, hstepped]
    dsimp only
    rw [htransaction]
    dsimp only
    rw [if_pos hguarded, ← hfault, hdefer, hspend]
  refine ⟨budget.deadline, hdue, ?_⟩
  by_cases hleft : budget.remaining = 0
  · have hcount : retried (log ++ [a]) = limits.retries := by omega
    rw [herror { slot with state := .idle } budget.fault.busy (if_pos hleft), if_pos hcount]
    exact ⟨rfl, rfl, fun hne => absurd hcount hne⟩
  have hcount : retried (log ++ [a]) ≠ limits.retries := by omega
  by_cases hlate : budget.deadline ≤ turn.deferred
  · rw [herror { slot with state := .idle } budget.fault.timeout
      ((if_neg hleft).trans (if_pos hlate)), if_neg hcount, if_pos hlate]
    exact ⟨rfl, rfl, fun _ hlt => absurd hlate (not_le.mpr hlt)⟩
  · obtain ⟨slot', hspend, htracks, hsleeps⟩ :=
      tracks_spend (ε := ε) slot hremaining rfl hleft hdue (not_le.mp hlate) ha
    rw [hpending slot' hspend, if_neg hcount, if_neg hlate]
    exact ⟨rfl, hsleeps, fun _ _ => htracks⟩

theorem Slot.sleeps_clear (slot : Slot α) : slot.clear.sleeps limits = slot.sleeps limits := by
  unfold Slot.sleeps Slot.clear
  cases slot.alarm with
  | none => rfl
  | some alarm => cases limits.delay <;> rfl

/-- The front of a round behind a busy step : the call ends when the deadline is reached, and the
wait ends, in sleep mode not before the alarm has fired. -/
theorem resume_of_waits (turn : Turn α ε) {busy : ℕ}
    (hslot : slot.state = .pendingYield budget ∧ slot.sleeps limits = none ∨
      ∃ interval, slot.state = .pendingSleep budget ∧ slot.sleeps limits = some interval ∧
        slot.alarm = some (some (min (clock.clampAdd busy interval) budget.deadline))) :
    slot.wait = .pending ∧
      (budget.deadline ≤ turn.polled → ∃ slot', slot'.sleeps limits = slot.sleeps limits ∧
        resume slot turn = (slot', .ready (.error budget.fault.timeout))) ∧
      (turn.polled < budget.deadline → resume slot turn = (slot, .pending) ∨
        resume slot turn = ({ slot with state := .ready budget }, .ready (.ok ())) ∧
          ∀ interval, slot.sleeps limits = some interval → turn.fires = true ∧
            slot.alarm = some (some (min (clock.clampAdd busy interval) budget.deadline))) := by
  rcases hslot with ⟨hstate, hsleeps⟩ | ⟨interval, hstate, hsleeps, halarm⟩
  · have hwait : slot.wait = .pending := by rw [Slot.wait, hstate]
    have hresume : resume slot turn = slot.poll turn.polled turn.fires := by rw [resume, hwait]
    refine ⟨hwait, fun hdue => ⟨{ slot with state := .idle }, rfl, ?_⟩,
      fun hlt => Or.inr ⟨?_, fun interval h => ?_⟩⟩
    · rw [hresume, Slot.poll, hstate]
      exact if_pos hdue
    · rw [hresume, Slot.poll, hstate]
      exact if_neg (not_le.mpr hlt)
    · rw [hsleeps] at h
      cases h
  · have hwait : slot.wait = .pending := by rw [Slot.wait, hstate]
    have hresume : resume slot turn = slot.poll turn.polled turn.fires := by rw [resume, hwait]
    refine ⟨hwait, fun hdue => ⟨{ slot.clear with state := .idle }, slot.sleeps_clear, ?_⟩,
      fun hlt => ?_⟩
    · rw [hresume, Slot.poll, hstate]
      exact if_pos hdue
    · rw [hresume, Slot.poll, hstate]
      dsimp only
      rw [if_neg (not_le.mpr hlt), halarm]
      cases hfires : turn.fires with
      | false => exact Or.inl rfl
      | true =>
        refine Or.inr ⟨rfl, fun other h => ?_⟩
        rw [hsleeps] at h
        cases h
        exact ⟨rfl, rfl⟩

end

/-! ## What holds of every world -/

/-- The notes are lawful, the slot of a call is as they say, and between calls it is cleared. -/
structure World.Inv (clock : Clock) (limits : Contention) (world : World α) : Prop where
  lawful : Lawful (deadline world.log clock limits) (world.slot.sleeps limits) world.log
  bounded : retried world.log ≤ limits.retries
  tracks : world.active = true → Tracks clock limits world.slot world.log world.now
  cleared : world.active = false → world.slot.state = .idle ∧ ∀ alarm ∈ world.slot.alarm,
    alarm = none

/-- What a round does, by the notes of the call. -/
structure Verdict (clock : Clock) (limits : Contention) (world : World α) (turn : Turn α ε) :
    Prop where
  stops : (round clock limits world.slot turn).2 ≠ none
  steps : waiting world.log = none → attempt world.slot turn ≠ none
  waits : ∀ busy fault, waiting world.log = some (busy, fault) → ∃ due,
    deadline world.log clock limits = some due ∧
      (due ≤ turn.polled → attempt world.slot turn = none ∧
        (round clock limits world.slot turn).2 = some (.ready (.error fault.timeout))) ∧
      (turn.polled < due → attempt world.slot turn = none →
        (round clock limits world.slot turn).2 = some .pending)
  contends : ∀ a, attempt world.slot turn = some a → ∀ now fault, a.contended = some (now, fault) →
    ∃ due, deadline (world.log ++ [a]) clock limits = some due ∧
      (round clock limits world.slot turn).2 =
        some (if retried (world.log ++ [a]) = limits.retries then .ready (.error fault.busy)
          else if due ≤ now then .ready (.error fault.timeout) else .pending)
  passes : ∀ a, attempt world.slot turn = some a → a.contended = none → ∃ result,
    (round clock limits world.slot turn).2 = some (.ready result) ∧
      ∀ action code, turn.stepped = .error (.busy action code) → ∃ error, result = .error error

section

variable {clock : Clock} {limits : Contention} {world : World α} {turn : Turn α ε}

theorem Slot.sleeps_finish (slot : Slot α) : slot.finish.sleeps limits = slot.sleeps limits :=
  slot.sleeps_clear

theorem Slot.cleared_finish (slot : Slot α) :
    slot.finish.state = .idle ∧ ∀ alarm ∈ slot.finish.alarm, alarm = none := by
  refine ⟨rfl, fun alarm h => ?_⟩
  obtain ⟨_, -, rfl⟩ := Option.mem_map.mp h
  rfl

/-- A call that is given back leaves a cleared slot, and its notes. -/
theorem World.Inv.release (hlawful : Lawful (deadline world.log clock limits)
      (world.slot.sleeps limits) world.log) (hbounded : retried world.log ≤ limits.retries) :
    world.release.Inv clock limits := by
  have hsleeps : world.release.slot.sleeps limits = world.slot.sleeps limits :=
    world.slot.sleeps_finish
  refine ⟨?_, hbounded, fun h => (by cases h), fun _ => world.slot.cleared_finish⟩
  rw [hsleeps]
  exact hlawful

theorem World.Inv.start (slot : Slot α) (now : ℕ) :
    World.Inv clock limits ⟨slot.finish, now, [], false⟩ :=
  ⟨.nil, Nat.zero_le _, fun h => (by cases h), fun _ => slot.cleared_finish⟩

theorem World.Inv.enter (h : world.Inv clock limits) (hactive : world.active = false) :
    world.enter.Inv clock limits :=
  ⟨.nil, Nat.zero_le _, fun _ => Or.inl ⟨rfl, Or.inl ⟨(h.cleared hactive).1, rfl, rfl⟩⟩,
    fun h => (by cases h)⟩

theorem Free.concat {slot : Slot α} {log : List (Attempt α)} {a : Attempt α} {count : ℕ}
    (h : Free clock limits slot log count) (ha : a.contended = none) :
    Free clock limits slot (log ++ [a]) count := by
  have hstarted : started (log ++ [a]) = started log := by
    rw [started_concat, ha, Option.map_none, Option.or_none]
  unfold Free deadline at h ⊢
  rw [hstarted]
  exact h

/-- A round that ends the call. -/
theorem World.round_ends {slot : Slot α} {error : Error α ε}
    (h : Retry.round clock limits world.slot turn = (slot, some (.ready (.error error)))) :
    world.round clock limits turn = World.release
      ⟨slot, turn.deferred, world.log ++ (attempt world.slot turn).toList, world.active⟩ := by
  unfold World.round
  rw [h]

/-- A round that waits. -/
theorem World.round_waits {slot : Slot α}
    (h : Retry.round clock limits world.slot turn = (slot, some .pending)) :
    world.round clock limits turn =
      ⟨slot, turn.deferred, world.log ++ (attempt world.slot turn).toList, world.active⟩ := by
  unfold World.round
  rw [h]

/-- A round that gets to its step, from a slot that does not wait. -/
theorem World.Inv.settled (slot : Slot α) {a : Attempt α} (hactive : world.active = true)
    (hattempt : attempt world.slot turn = some a) (ha : a.contended = turn.contended)
    (hround : Retry.round clock limits world.slot turn = settle clock limits slot turn)
    (hfree : Free clock limits slot world.log (retried (world.log ++ [a])))
    (hsleeps : slot.sleeps limits = world.slot.sleeps limits)
    (hbounded : retried (world.log ++ [a]) ≤ limits.retries)
    (hlawful : Lawful (deadline (world.log ++ [a]) clock limits) (world.slot.sleeps limits)
      (world.log ++ [a])) (hwaits : ∀ busy fault, waiting world.log = some (busy, fault) →
        deadline world.log clock limits ≠ none ∧
          ∀ due, deadline world.log clock limits = some due → turn.polled < due) :
    Verdict clock limits world turn ∧ (world.round clock limits turn).Inv clock limits := by
  have hverdict : ∀ result, (Retry.round clock limits world.slot turn).2 = some result →
      (∀ now fault, a.contended = some (now, fault) →
        ∃ due, deadline (world.log ++ [a]) clock limits = some due ∧
          some result =
            some (if retried (world.log ++ [a]) = limits.retries then .ready (.error fault.busy)
              else if due ≤ now then .ready (.error fault.timeout) else .pending)) →
      (a.contended = none → ∃ step, result = .ready step ∧ ∀ action code,
        turn.stepped = .error (.busy action code) → ∃ error, step = .error error) →
      Verdict clock limits world turn := by
    intro result hresult hcontends hpasses
    refine ⟨by rw [hresult]; simp, fun _ => by rw [hattempt]; simp, ?_, ?_, ?_⟩
    · intro busy fault hwaiting
      obtain ⟨hsome, hlate⟩ := hwaits busy fault hwaiting
      obtain ⟨due, hdue⟩ := Option.ne_none_iff_exists'.mp hsome
      refine ⟨due, hdue, fun hle => absurd hle (not_le.mpr (hlate due hdue)), fun _ hnone => ?_⟩
      rw [hattempt] at hnone
      cases hnone
    · intro b hb now fault hcontended
      rw [hattempt] at hb
      cases hb
      rw [hresult]
      exact hcontends now fault hcontended
    · intro b hb hnone
      rw [hattempt] at hb
      cases hb
      obtain ⟨step, rfl, hbusy⟩ := hpasses hnone
      exact ⟨step, hresult, hbusy⟩
  cases hturn : turn.contended with
  | none =>
    obtain ⟨result, hsettle, hbusy⟩ := settle_of_not_contended clock limits slot hturn
    rw [hsettle] at hround
    rw [hturn] at ha
    refine ⟨hverdict _ (by rw [hround]) (fun now fault h => ?_) fun _ => ⟨result, rfl, hbusy⟩, ?_⟩
    · rw [ha] at h
      cases h
    · have hlog : world.log ++ (attempt world.slot turn).toList = world.log ++ [a] := by
        rw [hattempt]
        rfl
      rw [← hsleeps] at hlawful
      unfold World.round
      rw [hround, hlog]
      rcases result with error | _ | _
      · exact World.Inv.release hlawful hbounded
      · refine ⟨hlawful, hbounded, fun _ => Or.inl ⟨?_, hfree.concat ha⟩, fun h => ?_⟩
        · rw [waiting_concat, ha]
        · exact absurd hactive (Bool.eq_false_iff.mp h)
      · exact World.Inv.release hlawful hbounded
  | some pair =>
    obtain ⟨now, fault⟩ := pair
    obtain ⟨due, hdue, hresult, hsame, htracks⟩ :=
      settle_of_contended hfree hturn (ha.trans hturn)
    rw [← hround] at hresult hsame htracks
    have hlog : world.log ++ (attempt world.slot turn).toList = world.log ++ [a] := by
      rw [hattempt]
      rfl
    obtain ⟨_, _, -, -, -, hnow, -⟩ := Turn.contended_eq_some hturn
    rw [← hsleeps, ← hsame] at hlawful
    refine ⟨hverdict _ hresult (fun now' fault' h => ?_) fun hnone => ?_, ?_⟩
    · rw [ha, hturn] at h
      cases h
      exact ⟨due, hdue, rfl⟩
    · rw [ha, hturn] at hnone
      cases hnone
    · rcases hnext : Retry.round clock limits world.slot turn with ⟨slot', result⟩
      rw [hnext] at hresult htracks hlawful
      cases hresult
      split_ifs at hnext with hcount hlate
      · rw [World.round_ends hnext, hlog]
        exact World.Inv.release hlawful hbounded
      · rw [World.round_ends hnext, hlog]
        exact World.Inv.release hlawful hbounded
      · rw [World.round_waits hnext, hlog]
        refine ⟨hlawful, hbounded, fun _ => ?_, fun h => ?_⟩
        · rw [← hnow]
          exact htracks hcount (not_le.mp hlate)
        · exact absurd hactive (Bool.eq_false_iff.mp h)

/-- The deadline is a moment of the clock. -/
theorem deadline_le {log : List (Attempt α)} {due : ℕ}
    (h : deadline log clock limits = some due) : due ≤ clock.last := by
  obtain ⟨moment, -, rfl⟩ := Option.map_eq_some_iff.mp h
  rw [clock.clampAdd_eq]
  exact Nat.min_le_right _ _

/-- A round keeps what holds, and does what the notes say. -/
theorem World.Inv.round (h : world.Inv clock limits) (hactive : world.active = true)
    (hturn : turn.Honest world) :
    Verdict clock limits world turn ∧ (world.round clock limits turn).Inv clock limits := by
  rcases h.tracks hactive with ⟨hwaiting, hfree⟩ | ⟨budget, busy, hwaits, hbusy, hslot⟩
  · -- the call does not wait, and gets to its step
    have hresume : resume world.slot turn = (world.slot, .ready (.ok ())) := by
      rw [resume, hfree.wait_eq]
    have hattempt : attempt world.slot turn = some ⟨none, turn.contended⟩ := by
      rw [attempt, hresume, hfree.wait_eq]
      rfl
    have hcount : retried (world.log ++ [⟨none, turn.contended⟩]) = retried world.log := by
      rw [retried_concat]
      rfl
    refine World.Inv.settled world.slot hactive hattempt rfl (by rw [Retry.round, hresume])
      (by rw [hcount]; exact hfree) rfl (by rw [hcount]; exact h.bounded)
      (h.lawful.concat (fun _ => rfl) fun b hb => ?_) fun busy fault hsome => ?_
    · have hb' : b.contended = none := by
        rw [waiting, hb, Option.bind_some] at hwaiting
        exact hwaiting
      rw [Follows, hb']
    · rw [hwaiting] at hsome
      cases hsome
  -- the call waits behind a busy step
  obtain ⟨hwait, hlate, hearly⟩ := resume_of_waits turn hslot
  have hlog : attempt world.slot turn = none →
      world.log ++ (attempt world.slot turn).toList = world.log := fun hnone => by
    rw [hnone, Option.toList_none, List.append_nil]
  have hverdict : ∀ result, (Retry.round clock limits world.slot turn).2 = some result →
      attempt world.slot turn = none →
      (budget.deadline ≤ turn.polled → result = .ready (.error budget.fault.timeout)) →
      (turn.polled < budget.deadline → result = .pending) → Verdict clock limits world turn := by
    intro result hresult hnone hdue hlt
    refine ⟨by rw [hresult]; simp, fun hnot => ?_, fun busy' fault' hsome => ?_, fun a ha => ?_,
      fun a ha => ?_⟩
    · rw [hwaits.waiting] at hnot
      cases hnot
    · rw [hwaits.waiting] at hsome
      cases hsome
      exact ⟨budget.deadline, hwaits.due, fun hle => ⟨hnone, by rw [hresult, hdue hle]⟩,
        fun hless _ => by rw [hresult, hlt hless]⟩
    · rw [hnone] at ha
      cases ha
    · rw [hnone] at ha
      cases ha
  rcases Nat.lt_or_ge turn.polled budget.deadline with hlt | hge
  · rcases hearly hlt with hresume | ⟨hresume, hfired⟩
    · -- the alarm has not fired
      have hnone : attempt world.slot turn = none := by rw [attempt, hresume]
      have hround : Retry.round clock limits world.slot turn = (world.slot, some .pending) := by
        rw [Retry.round, hresume]
      refine ⟨hverdict .pending (by rw [hround]) hnone (fun hle => absurd hlt (not_lt.mpr hle))
        fun _ => rfl, ?_⟩
      rw [World.round_waits hround, hlog hnone]
      refine ⟨h.lawful, h.bounded, fun _ => ?_, fun hoff => ?_⟩
      · exact Or.inr ⟨budget, busy, hwaits, hbusy.trans (hturn.polled.trans hturn.deferred), hslot⟩
      · exact absurd hactive (Bool.eq_false_iff.mp hoff)
    · -- the wait ends
      have hattempt : attempt world.slot turn = some ⟨some turn.polled, turn.contended⟩ := by
        rw [attempt, hresume, hwait]
        rfl
      have hcount : retried (world.log ++ [⟨some turn.polled, turn.contended⟩]) =
          retried world.log + 1 := by
        rw [retried_concat]
        rfl
      have hremaining := hwaits.remaining
      have hstarted : started world.log ≠ none := fun hnone => by
        have hdue := hwaits.due
        rw [deadline, hnone] at hdue
        cases hdue
      refine World.Inv.settled { world.slot with state := .ready budget } hactive
        hattempt rfl (by rw [Retry.round, hresume]) ?_ rfl (by rw [hcount]; omega)
        (h.lawful.concat (fun hnil => ?_) fun b hb => ?_) fun busy' fault' hsome => ?_
      · rw [hcount]
        exact Or.inr ⟨budget, rfl, hwaits.due, by omega⟩
      · rw [hnil] at hstarted
        exact absurd rfl hstarted
      · have hb' : b.contended = some (busy, budget.fault) := by
          have hwaiting := hwaits.waiting
          rw [waiting, hb, Option.bind_some] at hwaiting
          exact hwaiting
        rw [Follows, hb', deadline_concat hstarted]
        refine ⟨turn.polled, budget.deadline, rfl, hwaits.due, hbusy.trans hturn.polled, hlt,
          fun interval hsleeps => ?_⟩
        obtain ⟨hfires, halarm⟩ := hfired interval hsleeps
        have harmed := hturn.fires hfires _ halarm
        have hlast := deadline_le hwaits.due
        rw [clock.clampAdd_eq] at harmed
        omega
      · rw [hwaits.waiting] at hsome
        cases hsome
        refine ⟨by rw [hwaits.due]; simp, fun due hdue => ?_⟩
        rw [hwaits.due] at hdue
        cases hdue
        exact hlt
  · -- the deadline is reached
    obtain ⟨slot', hsleeps, hresume⟩ := hlate hge
    have hnone : attempt world.slot turn = none := by rw [attempt, hresume]
    have hround : Retry.round clock limits world.slot turn =
        (slot', some (.ready (.error budget.fault.timeout))) := by
      rw [Retry.round, hresume]
    refine ⟨hverdict _ (by rw [hround]) hnone (fun _ => rfl) fun hlt => absurd hge
      (not_le.mpr hlt), ?_⟩
    rw [World.round_ends hround, hlog hnone]
    refine World.Inv.release ?_ h.bounded
    rw [hsleeps]
    exact h.lawful

/-- Every world of a run. -/
theorem Reached.inv {config : Config} (h : Reached ε clock config world) :
    world.Inv clock (Role.call.limits config) := by
  induction h with
  | start slot now => exact .start slot now
  | enter _ hactive ih => exact ih.enter hactive
  | round turn _ hactive hturn ih => exact (ih.round hactive hturn).2
  | drop _ _ ih => exact .release ih.lawful ih.bounded

/-- In every world of a run the steps that were waited for are at most as many as the limit, each
of them follows a busy step as it should, and between calls the slot is idle and its alarm is not
armed. The next round of a call does what its notes say : it ends with the last fault when the
limit or the deadline is reached, and otherwise it waits. -/
theorem Reached.retries_bounded {config : Config} (h : Reached ε clock config world) :
    retried world.log ≤ (Role.call.limits config).retries ∧
      Lawful (deadline world.log clock (Role.call.limits config))
        (world.slot.sleeps (Role.call.limits config)) world.log ∧
      (world.active = false → world.slot.state = .idle ∧ ∀ alarm ∈ world.slot.alarm,
        alarm = none) ∧
      (world.active = true → ∀ turn : Turn α ε, turn.Honest world →
        Verdict clock (Role.call.limits config) world turn) := by
  have hinv := h.inv
  exact ⟨hinv.bounded, hinv.lawful, hinv.cleared,
    fun hactive turn hturn => (hinv.round hactive hturn).1⟩

end

/-- One retry within ten ticks, not before three have passed. -/
def Contention.single : Contention :=
  ⟨10, .sleep 3, 1, Nat.one_pos⟩

/-- A clock that does not reach its last moment. -/
def Clock.plain : Clock where
  clampAdd now duration := min (now + duration) 1000
  last := 1000
  clampAdd_eq _ _ := rfl

/-- A turn of a statement that finds the database busy, and of an alarm that has fired. -/
def Turn.busy (polled deferred : ℕ) (fires : Bool) : Turn Unit Unit :=
  ⟨polled, fires, .error (.busy () 5), .ok (), true, deferred, false⟩

/-- A statement that is busy at five and at eight is stepped twice, and the call has ended. -/
theorem Reached.retries_bounded_twice : ∃ world : World Unit,
    Reached Unit .plain ⟨.single, .single⟩ world ∧ world.log.length = 2 ∧
      retried world.log = 1 ∧ world.active = false ∧ world.slot.state = .idle := by
  have hstart : Reached Unit Clock.plain ⟨.single, .single⟩ _ := .start (α := Unit) Slot.timed 0
  have hfirst := Reached.round (Turn.busy 5 5 false) (hstart.enter rfl) rfl
    ⟨by decide, by decide, fun h => (by cases h)⟩
  have hsecond := Reached.round (Turn.busy 8 8 true) hfirst rfl
    ⟨by decide, by decide, fun _ moment h => by cases h; decide⟩
  exact ⟨_, hsecond, rfl, rfl, rfl, (hsecond.retries_bounded.2.2.1 rfl).1⟩

end Cartel.Sqlite.Retry
