import Cartel.Scheduler.Invariant

/-!
# Leases

The schedule with the leases that are alive. A lease is known by the connection generation
it was granted, and a generation is activated once. `System.Step` is a step of any party :
every entry point of the schedule, the drop of a lease, and the retirement of a connection
that has failed and whose lanes are drained. A reply only comes to an order whose request
has left the queue, so that every queued request of an owned connection has its order.
-/

namespace Cartel.Redis.Scheduler

open Cartel.Lib

variable {n : ℕ}

/-- The entry points that neither activate a connection, nor touch a lease, nor take input. -/
inductive Schedule.Call (s : Schedule n) : Schedule n → Prop
  | markReady (token : Token n) : Call s (s.markReady token).2
  | pool (exhausted : Bool) (answers : Fin n → Registration × Handoff) :
      Call s (s.tryPool exhausted answers).2
  | dispatch (token : Token n) (answer : Handoff) : Call s (s.tryDispatchLease token answer).2
  | drain (token : Token n) (work : ℕ) (reserved : Bool) : Call s (s.drain token work reserved).2
  | fail (token : Token n) (err : Failure) : Call s (s.fail token err).2
  | reconnect (token : Token n) (err : Failure) : Call s (s.reconnect token err)
  | quarantine (token : Token n) (reason : Reason) : Call s (s.quarantine token reason)
  | clearRecv (token : Token n) (work : ℕ) : Call s (s.clearRecv token work).2
  | clearSend (token : Token n) (work : ℕ) : Call s (s.clearSend token work).2
  | retire (token : Token n) (hfailure : s.routes.failure token ≠ none)
      (hresponses : s.responses token.index = []) (hqueue : s.queue token.index = []) :
      Call s (s.retire token)

/-- The schedule, the live leases and the activated generations. -/
structure System (n : ℕ) where
  schedule : Schedule n
  leases : List (Token n)
  activated : List (Token n)

namespace System

/-- No connection, and no lease. -/
def new : System n :=
  ⟨.new, [], []⟩

/-- The schedule of a system replaced. -/
def setSchedule (σ : System n) (schedule : Schedule n) : System n :=
  { σ with schedule }

variable (σ : System n)

/-- `Schedule::activate` of a new generation. -/
def activate (token : Token n) (positioned : Bool) : System n :=
  ⟨(σ.schedule.activate token positioned).2, σ.leases, token :: σ.activated⟩

/-- `Schedule::try_lease`. -/
def lease : System n :=
  ⟨σ.schedule.tryLease.2, σ.schedule.tryLease.1.toList ++ σ.leases, σ.activated⟩

/-- The drop of a lease. -/
def drop (token : Token n) : System n :=
  ⟨σ.schedule.release token, σ.leases.erase token, σ.activated⟩

/-- One step of any party. -/
inductive Step (σ : System n) : System n → Prop
  | activate (token : Token n) (positioned : Bool) (hfresh : token ∉ σ.activated) :
      Step σ (σ.activate token positioned)
  | call {schedule : Schedule n} (h : σ.schedule.Call schedule) : Step σ (σ.setSchedule schedule)
  | reply (token : Token n) (answer : Insert)
      (howed : (σ.schedule.routes.conns token.index).Owned →
        ∀ order ∈ (σ.schedule.tryReply token answer).2.queue token.index,
          order ∈ (σ.schedule.tryReply token answer).2.responses token.index) :
      Step σ (σ.setSchedule (σ.schedule.tryReply token answer).2)
  | received (token : Token n) (cutoff : Cutoff) (hasPrefix : Bool) :
      Step σ (σ.setSchedule (σ.schedule.received token cutoff hasPrefix))
  | lease : Step σ σ.lease
  | drop (token : Token n) (hlive : token ∈ σ.leases) : Step σ (σ.drop token)

/-- The systems a run reaches. A capacity is a `usize`. -/
inductive Reached : System n → Prop
  | new (h : n < 2 ^ 64) : Reached new
  | step {σ σ' : System n} (h : σ.Reached) (hstep : σ.Step σ') : Reached σ'

/-! ## What a call does to the phases -/

/-- A phase that no lease has moved : its generation stays, it becomes shared from
initializing only, and exclusive never. -/
structure Settles (phase phase' : State n) : Prop where
  bound : ∀ {token}, phase'.bound = some token → phase.bound = some token
  exclusive : ∀ {token}, phase'.access = some (token, .exclusive) →
    phase.access = some (token, .exclusive)
  shared : ∀ {token}, phase'.access = some (token, .shared) →
    phase.access = some (token, .shared) ∨ phase = .initializing token
  initializing : ∀ {token}, phase' = .initializing token → phase = .initializing token

theorem Settles.refl (phase : State n) : Settles phase phase :=
  ⟨id, id, Or.inl, id⟩

theorem Settles.trans {first mid last : State n} (h : Settles first mid)
    (h' : Settles mid last) : Settles first last := by
  refine ⟨fun hb => h.bound (h'.bound hb), fun ha => h.exclusive (h'.exclusive ha), fun ha => ?_,
    fun hi => h.initializing (h'.initializing hi)⟩
  rcases h'.shared ha with ha | hi
  · exact h.shared ha
  · exact Or.inr (h.initializing hi)

/-- A phase without access or initialization settles anything of its generation. -/
theorem Settles.closed {phase phase' : State n}
    (hbound : ∀ {token}, phase'.bound = some token → phase.bound = some token)
    (haccess : phase'.access = none) (hunused : ∀ token, phase' ≠ .initializing token) :
    Settles phase phase' := by
  refine ⟨hbound, fun ha => ?_, fun ha => ?_, fun hi => absurd hi (hunused _)⟩
  · rw [haccess] at ha
    cases ha
  · rw [haccess] at ha
    cases ha

theorem settles_withFrontier (phase : State n) (token : Token n) (apply : Frontier → Frontier) :
    Settles phase (phase.withFrontier token apply) := by
  refine ⟨fun hb => ?_, fun ha => ?_, fun ha => ?_, fun hi => ?_⟩
  · rwa [State.bound_withFrontier] at hb
  · rwa [State.access_withFrontier] at ha
  · rw [State.access_withFrontier] at ha
    exact Or.inl ha
  · cases phase <;> simp_all [State.withFrontier]

theorem settles_set {conns : Fin n → State n} {i : Fin n} {phase : State n}
    (h : Settles (conns i) phase) (j : Fin n) :
    Settles (conns j) (Function.update conns i phase j) := by
  by_cases hj : j = i
  · subst hj
    rwa [Function.update_self]
  · rw [Function.update_of_ne hj]
    exact .refl _

theorem settles_fail (s : Schedule n) (token : Token n) (err : Failure) (j : Fin n) :
    Settles (s.routes.conns j) ((s.fail token err).2.routes.conns j) := by
  unfold Schedule.fail
  split
  · exact .refl _
  · next routes hroutes =>
    obtain ⟨hbound, rfl⟩ := Routes.fail_eq_some hroutes
    have hclosed : Settles (s.routes.conns token.index) (.closing token err) :=
      .closed (fun h => hbound.trans h) rfl (by simp)
    rw [Schedule.conns_withdraw]
    exact settles_set hclosed j

/-- No call moves a lease. -/
theorem settles_call {s s' : Schedule n} (hinv : s.Inv) (h : s.Call s') (j : Fin n) :
    Settles (s.routes.conns j) (s'.routes.conns j) := by
  cases h with
  | markReady token =>
    unfold Schedule.markReady Routes.markReady
    cases hphase : (s.routes.conns token.index).markReady token with
    | none => exact .refl _
    | some phase =>
      obtain ⟨hinit, rfl⟩ := State.markReady_eq_some.mp hphase
      rw [Schedule.conns_publish]
      refine settles_set ⟨fun hb => ?_, fun ha => ?_, fun ha => ?_, fun hi => ?_⟩ j
      · rw [hinit]
        exact hb
      · cases ha
      · obtain ⟨rfl, -⟩ := Prod.mk.inj (Option.some.inj ha)
        exact Or.inr hinit
      · cases hi
  | pool exhausted answers =>
    unfold Schedule.tryPool
    split_ifs
    · exact .refl _
    · obtain ⟨next, ⟨error, heq⟩ | ⟨index, token, -, heq⟩⟩ :=
        Schedule.poolFrom_cases answers n .pool s
      · rw [heq]
        exact .refl _
      · rw [heq]
        simp only [Schedule.admitted, Routes.conns_unlink]
        exact .refl _
  | dispatch token answer =>
    rcases Schedule.tryDispatchLease_cases hinv token answer with heq | ⟨-, heq⟩
    · rw [heq]
      exact .refl _
    · rw [heq]
      simp only [Schedule.admitted, Routes.conns_unlink]
      exact .refl _
  | drain token work reserved =>
    unfold Schedule.drain
    split
    · exact .refl _
    · split_ifs <;> exact .refl _
  | fail token err => exact settles_fail _ _ _ j
  | quarantine token reason => exact settles_fail _ _ _ j
  | reconnect token err =>
    unfold Schedule.reconnect
    split
    · exact .refl _
    · next routes hroutes =>
      obtain ⟨hbound, -, rfl⟩ := Routes.reconnect_eq_some hroutes
      have hclosed : Settles (s.routes.conns token.index) (.reconnecting token err) :=
        .closed (fun h => hbound.trans h) rfl (by simp)
      rw [Schedule.conns_withdraw]
      exact settles_set hclosed j
  | clearRecv token work =>
    unfold Schedule.clearRecv
    split <;> exact .refl _
  | clearSend token work =>
    unfold Schedule.clearSend
    split <;> exact .refl _
  | retire token hfailure hresponses hqueue =>
    exact settles_set (.closed (fun h => by cases h) rfl (by simp)) j

theorem settles_tryReply (s : Schedule n) (token : Token n) (answer : Insert) (j : Fin n) :
    Settles (s.routes.conns j) ((s.tryReply token answer).2.routes.conns j) := by
  rcases s.tryReply_cases token answer with heq | ⟨-, -, last, heq⟩
  · rw [heq]
    exact .refl _
  · rw [heq, Schedule.conns_completed]
    exact settles_set (settles_withFrontier _ _ _) j

theorem inv_call {s s' : Schedule n} (hinv : s.Inv) (h : s.Call s') : s'.Inv := by
  cases h with
  | markReady token => exact hinv.markReady token
  | pool exhausted answers => exact hinv.tryPool exhausted answers
  | dispatch token answer => exact hinv.tryDispatchLease token answer
  | drain token work reserved => exact hinv.drain token work reserved
  | fail token err => exact hinv.fail token err
  | reconnect token err => exact hinv.reconnect token err
  | quarantine token reason => exact hinv.fail token _
  | clearRecv token work => exact hinv.clearRecv token work
  | clearSend token work => exact hinv.clearSend token work
  | retire token hfailure hresponses hqueue => exact hinv.retire hfailure hresponses hqueue

/-! ## The invariant of leases -/

/-- A generation has one lease at most, an exclusive connection has one, and a leased
generation is not back in the pool. -/
structure Inv (σ : System n) : Prop where
  schedule : σ.schedule.Inv
  nodup : σ.leases.Nodup
  activated : ∀ token ∈ σ.leases, token ∈ σ.activated
  bound : ∀ {i token}, (σ.schedule.routes.conns i).bound = some token → token ∈ σ.activated
  exclusive : ∀ {i token}, (σ.schedule.routes.conns i).access = some (token, .exclusive) →
    token ∈ σ.leases
  away : ∀ token ∈ σ.leases, (σ.schedule.routes.conns token.index).access ≠ some (token, .shared)
  ready : ∀ token ∈ σ.leases, σ.schedule.routes.conns token.index ≠ .initializing token

/-- A step that settles every phase keeps the leases. -/
theorem Inv.settled {σ : System n} (h : σ.Inv) {s : Schedule n} (hinv : s.Inv)
    (hsettles : ∀ i, Settles (σ.schedule.routes.conns i) (s.routes.conns i)) :
    (σ.setSchedule s).Inv := by
  refine ⟨hinv, h.nodup, h.activated, fun hb => h.bound ((hsettles _).bound hb),
    fun ha => h.exclusive ((hsettles _).exclusive ha), fun token hlease ha => ?_,
    fun token hlease hi => h.ready token hlease ((hsettles _).initializing hi)⟩
  rcases (hsettles _).shared ha with ha | hi
  · exact h.away token hlease ha
  · exact h.ready token hlease hi

/-- An activation initializes its slot, or is refused. -/
theorem conns_activate (s : Schedule n) (token : Token n) (positioned : Bool) :
    (s.activate token positioned).2.routes.conns =
        Function.update s.routes.conns token.index (.initializing token) ∨
      (s.activate token positioned).2 = s := by
  unfold Schedule.activate
  split_ifs
  · cases hphase : (s.routes.conns token.index).bind token with
    | none => exact Or.inr rfl
    | some phase =>
      obtain ⟨-, rfl⟩ := State.bind_eq_some.mp hphase
      exact Or.inl rfl
  · exact Or.inr rfl

theorem Inv.activate {σ : System n} (h : σ.Inv) {token : Token n} (positioned : Bool)
    (hfresh : token ∉ σ.activated) : (σ.activate token positioned).Inv := by
  have hinv := h.schedule.activate token positioned
  rcases conns_activate σ.schedule token positioned with hconns | heq
  · refine ⟨hinv, h.nodup, fun other hlease => List.mem_cons_of_mem _ (h.activated other hlease),
      fun {i other} hb => ?_, fun {i other} ha => ?_, fun other hlease => ?_,
      fun other hlease => ?_⟩
    · dsimp only [System.activate] at hb
      rw [hconns] at hb
      by_cases hi : i = token.index
      · subst hi
        rw [Function.update_self] at hb
        obtain rfl := Option.some.inj hb
        exact List.mem_cons_self
      · rw [Function.update_of_ne hi] at hb
        exact List.mem_cons_of_mem _ (h.bound hb)
    · dsimp only [System.activate] at ha
      rw [hconns] at ha
      by_cases hi : i = token.index
      · subst hi
        rw [Function.update_self] at ha
        cases ha
      · rw [Function.update_of_ne hi] at ha
        exact h.exclusive ha
    · dsimp only [System.activate]
      rw [hconns]
      by_cases hi : other.index = token.index
      · rw [hi, Function.update_self]
        simp [State.access]
      · rw [Function.update_of_ne hi]
        exact h.away other hlease
    · dsimp only [System.activate]
      rw [hconns]
      by_cases hi : other.index = token.index
      · rw [hi, Function.update_self]
        intro heq
        obtain rfl := State.initializing.inj heq
        exact hfresh (h.activated _ hlease)
      · rw [Function.update_of_ne hi]
        exact h.ready other hlease
  · unfold System.activate
    rw [heq]
    exact ⟨h.schedule, h.nodup, fun other hlease => List.mem_cons_of_mem _ (h.activated other hlease),
      fun hb => List.mem_cons_of_mem _ (h.bound hb), h.exclusive, h.away, h.ready⟩

theorem Inv.lease {σ : System n} (h : σ.Inv) : σ.lease.Inv := by
  unfold System.lease
  rcases h.schedule.tryLease_cases with heq | ⟨token, frontier, s', heq, hinv, hphase, -, -, hconns,
    -, -, -⟩
  · obtain ⟨hinv, hrelinked, -⟩ := h.schedule.refresh
    rw [heq]
    refine ⟨hinv, h.nodup, h.activated, fun hb => ?_, fun ha => ?_, fun token hlease => ?_,
      fun token hlease => ?_⟩
    · rw [hrelinked.conns] at hb
      exact h.bound hb
    · rw [hrelinked.conns] at ha
      exact h.exclusive ha
    · dsimp only
      rw [hrelinked.conns]
      exact h.away token hlease
    · dsimp only
      rw [hrelinked.conns]
      exact h.ready token hlease
  · have haccess : (σ.schedule.routes.conns token.index).access = some (token, .shared) := by
      rw [hphase]
      rfl
    have hnew : token ∉ σ.leases := fun hlease => h.away token hlease haccess
    rw [heq]
    refine ⟨hinv, List.nodup_cons.mpr ⟨hnew, h.nodup⟩, fun other hlease => ?_,
      fun {i other} hb => ?_, fun {i other} ha => ?_, fun other hlease => ?_,
      fun other hlease => ?_⟩
    · rcases List.mem_cons.mp hlease with rfl | hlease
      · exact h.bound (State.bound_of_access haccess)
      · exact h.activated other hlease
    · rw [hconns] at hb
      by_cases hi : i = token.index
      · subst hi
        rw [Function.update_self] at hb
        obtain rfl := Option.some.inj hb
        exact h.bound (State.bound_of_access haccess)
      · rw [Function.update_of_ne hi] at hb
        exact h.bound hb
    · rw [hconns] at ha
      by_cases hi : i = token.index
      · subst hi
        rw [Function.update_self] at ha
        obtain ⟨rfl, -⟩ := Prod.mk.inj (Option.some.inj ha)
        exact List.mem_cons_self
      · rw [Function.update_of_ne hi] at ha
        exact List.mem_cons_of_mem _ (h.exclusive ha)
    · dsimp only
      rw [hconns]
      by_cases hi : other.index = token.index
      · rw [hi, Function.update_self]
        simp [State.access]
      · rw [Function.update_of_ne hi]
        rcases List.mem_cons.mp hlease with rfl | hlease
        · exact absurd rfl hi
        · exact h.away other hlease
    · dsimp only
      rw [hconns]
      by_cases hi : other.index = token.index
      · rw [hi, Function.update_self]
        simp
      · rw [Function.update_of_ne hi]
        rcases List.mem_cons.mp hlease with rfl | hlease
        · exact absurd rfl hi
        · exact h.ready other hlease

/-- A drop returns its connection if that is still exclusive, and nothing else changes. -/
theorem conns_release (s : Schedule n) (token : Token n) :
    (∃ frontier, s.routes.conns token.index = .exclusive token frontier ∧
      (s.release token).routes.conns =
        Function.update s.routes.conns token.index (.shared token frontier)) ∨
      ((s.routes.conns token.index).access ≠ some (token, .exclusive) ∧ s.release token = s) := by
  unfold Schedule.release
  cases hphase : (s.routes.conns token.index).release token with
  | none =>
    refine Or.inr ⟨fun haccess => ?_, rfl⟩
    cases hconn : s.routes.conns token.index <;> simp_all [State.release, State.access]
  | some phase =>
    obtain ⟨frontier, hexclusive, rfl⟩ := State.release_eq_some.mp hphase
    exact Or.inl ⟨frontier, hexclusive, by simp [Routes.set]⟩

theorem Inv.drop {σ : System n} (h : σ.Inv) (token : Token n) : (σ.drop token).Inv := by
  have hinv := h.schedule.release token
  have hmem : ∀ {other}, other ∈ σ.leases.erase token → other ∈ σ.leases :=
    List.mem_of_mem_erase
  have hself : token ∉ σ.leases.erase token := h.nodup.not_mem_erase
  have hkeep : ∀ {other}, other ∈ σ.leases → other ≠ token → other ∈ σ.leases.erase token :=
    fun hother hne => (List.mem_erase_of_ne hne).mpr hother
  rcases conns_release σ.schedule token with ⟨frontier, hphase, hconns⟩ | ⟨haccess, heq⟩
  · have hbound : (σ.schedule.routes.conns token.index).bound = some token := by
      rw [hphase]
      rfl
    refine ⟨hinv, h.nodup.erase token, fun other hlease => h.activated other (hmem hlease),
      fun {i other} hb => ?_, fun {i other} ha => ?_, fun other hlease => ?_,
      fun other hlease => ?_⟩
    · dsimp only [System.drop] at hb
      rw [hconns] at hb
      by_cases hi : i = token.index
      · subst hi
        rw [Function.update_self] at hb
        obtain rfl := Option.some.inj hb
        exact h.bound hbound
      · rw [Function.update_of_ne hi] at hb
        exact h.bound hb
    · dsimp only [System.drop] at ha
      rw [hconns] at ha
      by_cases hi : i = token.index
      · subst hi
        rw [Function.update_self] at ha
        cases ha
      · rw [Function.update_of_ne hi] at ha
        refine hkeep (h.exclusive ha) ?_
        rintro rfl
        exact hi ((h.schedule.slot i).index (State.bound_of_access ha)).symm
    · dsimp only [System.drop]
      rw [hconns]
      by_cases hi : other.index = token.index
      · rw [hi, Function.update_self]
        intro ha
        obtain ⟨rfl, -⟩ := Prod.mk.inj (Option.some.inj ha)
        exact hself hlease
      · rw [Function.update_of_ne hi]
        exact h.away other (hmem hlease)
    · dsimp only [System.drop]
      rw [hconns]
      by_cases hi : other.index = token.index
      · rw [hi, Function.update_self]
        simp
      · rw [Function.update_of_ne hi]
        exact h.ready other (hmem hlease)
  · unfold System.drop
    rw [heq]
    refine ⟨h.schedule, h.nodup.erase token, fun other hlease => h.activated other (hmem hlease),
      h.bound, fun {i other} ha => hkeep (h.exclusive ha) ?_,
      fun other hlease => h.away other (hmem hlease),
      fun other hlease => h.ready other (hmem hlease)⟩
    rintro rfl
    obtain rfl := (h.schedule.slot i).index (State.bound_of_access ha)
    exact haccess ha

theorem Inv.step {σ σ' : System n} (h : σ.Inv) (hstep : σ.Step σ') : σ'.Inv := by
  cases hstep with
  | activate token positioned hfresh => exact h.activate positioned hfresh
  | call hcall => exact h.settled (inv_call h.schedule hcall) (settles_call h.schedule hcall)
  | reply token answer howed =>
    exact h.settled (h.schedule.tryReply token answer howed) (settles_tryReply _ token answer)
  | received token cutoff hasPrefix =>
    exact h.settled (h.schedule.received token cutoff hasPrefix)
      (settles_set (settles_withFrontier _ _ _))
  | lease => exact h.lease
  | drop token hlive => exact h.drop token

theorem Reached.inv {σ : System n} (h : σ.Reached) : σ.Inv := by
  induction h with
  | new h =>
    refine ⟨Schedule.inv_new h, List.nodup_nil, fun _ hlease => ?_, fun hb => ?_, fun ha => ?_,
      fun _ hlease => ?_, fun _ hlease => ?_⟩
    · cases hlease
    · cases hb
    · cases ha
    · cases hlease
    · cases hlease
  | step _ hstep ih => exact ih.step hstep

/-! ## Scheduling -/

/-- A step that makes a leased connection shared is the drop of its lease. -/
theorem Inv.returned {σ σ' : System n} (h : σ.Inv) (hstep : σ.Step σ') {i : Fin n}
    {token : Token n} (hbefore : (σ.schedule.routes.conns i).access = some (token, .exclusive))
    (hafter : (σ'.schedule.routes.conns i).access = some (token, .shared)) :
    token ∈ σ.leases ∧ σ' = σ.drop token := by
  obtain rfl := (h.schedule.slot i).index (State.bound_of_access hbefore)
  refine ⟨h.exclusive hbefore, ?_⟩
  have hsettled : ∀ {phase : State n}, Settles (σ.schedule.routes.conns token.index) phase →
      phase.access = some (token, .shared) → False := by
    intro phase hsettles haccess
    rcases hsettles.shared haccess with ha | hi
    · rw [hbefore] at ha
      cases ha
    · rw [hi] at hbefore
      cases hbefore
  cases hstep with
  | call hcall => exact (hsettled (settles_call h.schedule hcall _) hafter).elim
  | reply other answer howed => exact (hsettled (settles_tryReply _ other answer _) hafter).elim
  | received other cutoff hasPrefix =>
    exact (hsettled (settles_set (settles_withFrontier _ _ _) _) hafter).elim
  | activate other positioned hfresh =>
    dsimp only [System.activate] at hafter
    rcases conns_activate σ.schedule other positioned with hconns | heq
    · rw [hconns] at hafter
      by_cases hi : token.index = other.index
      · rw [hi, Function.update_self] at hafter
        cases hafter
      · rw [Function.update_of_ne hi, hbefore] at hafter
        cases hafter
    · rw [heq, hbefore] at hafter
      cases hafter
  | lease =>
    dsimp only [System.lease] at hafter
    rcases h.schedule.tryLease_cases with heq | ⟨other, frontier, s', heq, -, -, -, -, hconns, -⟩
    · rw [heq, h.schedule.refresh.2.1.conns, hbefore] at hafter
      cases hafter
    · rw [heq, hconns] at hafter
      by_cases hi : token.index = other.index
      · rw [hi, Function.update_self] at hafter
        cases hafter
      · rw [Function.update_of_ne hi, hbefore] at hafter
        cases hafter
  | drop other hlive =>
    dsimp only [System.drop] at hafter
    rcases conns_release σ.schedule other with ⟨frontier, hphase, hconns⟩ | ⟨-, heq⟩
    · rw [hconns] at hafter
      by_cases hi : token.index = other.index
      · rw [hi, hphase] at hbefore
        obtain ⟨rfl, -⟩ := Prod.mk.inj (Option.some.inj hbefore)
        rfl
      · rw [Function.update_of_ne hi, hbefore] at hafter
        cases hafter
    · rw [heq, hbefore] at hafter
      cases hafter

/-- In every reached system the count is that of the owned connections, the idle queue
leads to connections with nothing in flight, a generation is leased once and returned by its
lease only, and every shared connection with nothing in flight is linked. -/
theorem Reached.scheduling {σ : System n} (h : σ.Reached) :
    σ.schedule.routes.active =
        (Finset.univ.filter fun i => (σ.schedule.routes.conns i).Owned).card ∧
      ((∀ token ∈ σ.schedule.routes.queues .idle,
          (σ.schedule.routes.conns token.index).access = some (token, .shared) ∧
            σ.schedule.responses token.index = [] ∧ σ.schedule.queue token.index = []) ∧
        ∀ token s', σ.schedule.tryLease = (some token, s') →
          (σ.schedule.routes.conns token.index).access = some (token, .shared) ∧
            σ.schedule.responses token.index = [] ∧ σ.schedule.queue token.index = [] ∧
            (s'.routes.conns token.index).access = some (token, .exclusive)) ∧
      (σ.leases.Nodup ∧ ∀ σ' i token, σ.Step σ' →
        (σ.schedule.routes.conns i).access = some (token, .exclusive) →
        (σ'.schedule.routes.conns i).access = some (token, .shared) →
          token ∈ σ.leases ∧ σ' = σ.drop token) ∧
      ∀ i token, (σ.schedule.routes.conns i).access = some (token, .shared) →
        σ.schedule.responses i = [] → σ.schedule.queue i = [] →
          token ∈ σ.schedule.routes.queues .idle ∨
            token ∈ σ.schedule.routes.queues .released := by
  have hinv := h.inv
  refine ⟨?_, ⟨fun token hmem => ?_, fun token s' hlease => ?_⟩,
    ⟨hinv.nodup, fun σ' i token hstep hbefore hafter => hinv.returned hstep hbefore hafter⟩,
    fun i token haccess hr hq => ?_⟩
  · rw [hinv.schedule.active, Finset.card_filter]
    rfl
  · have hslot := hinv.schedule.slot token.index
    exact ⟨hslot.linked hmem rfl, hslot.idle hmem rfl⟩
  · rcases hinv.schedule.tryLease_cases with heq | ⟨other, frontier, s, heq, -, hphase, hr, hq,
      hconns, -⟩
    · rw [hlease] at heq
      cases heq
    · rw [hlease] at heq
      obtain ⟨htoken, rfl⟩ := Prod.mk.inj heq
      obtain rfl := Option.some.inj htoken
      refine ⟨?_, hr, hq, ?_⟩
      · rw [hphase]
        rfl
      · rw [hconns, Function.update_self]
        rfl
  · obtain ⟨queue, hmem⟩ := (hinv.schedule.slot i).listed haccess hr hq
    cases queue with
    | idle => exact Or.inl hmem
    | released => exact Or.inr hmem

/-- The first generation of the first of two connections. -/
def origin : Token 2 :=
  ⟨⟨0, Nat.zero_lt_two⟩, 0⟩

/-- A connection that is ready and has answered one request. -/
def served : System 2 :=
  let σ := (new : System 2).activate origin true
  let σ := σ.setSchedule (σ.schedule.markReady origin).2
  let σ := σ.setSchedule (σ.schedule.tryPool false fun _ => (.available, .published)).2
  let σ := σ.setSchedule (σ.schedule.drain origin 1 true).2
  let σ := σ.setSchedule (σ.schedule.received origin (some 0) false)
  σ.setSchedule (σ.schedule.tryReply origin .stored).2

theorem served_reached : served.Reached := by
  have hactivate : ((new : System 2).activate origin true).Reached :=
    (Reached.new (by decide)).step (.activate origin true (by decide))
  have hready := hactivate.step (.call (.markReady origin))
  have hpool := hready.step (.call (.pool false fun _ => (.available, .published)))
  have hdrain := hpool.step (.call (.drain origin 1 true))
  have hreceived := hdrain.step (.received origin (some 0) false)
  exact hreceived.step (.reply origin .stored fun _ _ horder => nomatch horder)

theorem Reached.scheduling_served : served.schedule.routes.queues .idle = [origin] ∧
    served.schedule.responses 0 = [] ∧ served.schedule.routes.active =
      (Finset.univ.filter fun i => (served.schedule.routes.conns i).Owned).card := by
  have hidle : served.schedule.routes.queues .idle = [origin] := rfl
  obtain ⟨hactive, ⟨hfree, -⟩, -⟩ := served_reached.scheduling
  exact ⟨hidle, (hfree origin (by simp [hidle])).2.1, hactive⟩

end System

end Cartel.Redis.Scheduler
