import Cartel.Scheduler.Leases

/-!
# The other parties of a connection

What the schedule does for the other connections, the pool, the leases and the retirement of
connections, as one connection sees it (`Schedule.Apart`). Such a step changes the phase of one
slot at most (`Apart.conns`), so the connection is not initializing and not served without having
been so before (`Apart.keeps`).
-/

namespace Cartel.Redis.Scheduler

variable {n : ℕ} {token : Token n}

/-- The connection is being initialized. -/
def Schedule.Opening (s : Schedule n) (token : Token n) : Prop :=
  s.routes.conns token.index = .initializing token

/-- The connection is ready. The pool and the leases hand requests to such connections only. -/
def Schedule.Serving (s : Schedule n) (token : Token n) : Prop :=
  ∃ kind, (s.routes.conns token.index).access = some (token, kind)

/-- Every slot is bound to a token of its own. -/
def Schedule.Indexed (s : Schedule n) : Prop :=
  ∀ i other, (s.routes.conns i).bound = some other → other.index = i

/-- A step of another party, that does not mark the connection ready nor take its input. -/
inductive Schedule.Apart (token : Token n) (s : Schedule n) : Schedule n → Prop
  | activate (other : Token n) (positioned : Bool) (h : other ≠ token) :
      Apart token s (s.activate other positioned).2
  | call {s' : Schedule n} (h : s.Call s') (hready : s' ≠ (s.markReady token).2) : Apart token s s'
  | reply (other : Token n) (answer : Insert) (h : other ≠ token) :
      Apart token s (s.tryReply other answer).2
  | received (other : Token n) (cutoff : Cutoff) (hasPrefix : Bool) (h : other ≠ token) :
      Apart token s (s.received other cutoff hasPrefix)
  | lease : Apart token s s.tryLease.2
  | drop (other : Token n) : Apart token s (s.release other)

/-! ## Phases -/

namespace State

/-- A transition of a slot for `other`, that is none of the initialization and the input of
`token`. -/
inductive Change (token other : Token n) : State n → State n → Prop
  | same (phase : State n) : Change token other phase phase
  | bind (h : other ≠ token) : Change token other .vacant (.initializing other)
  | ready (h : other ≠ token) (frontier : Frontier) :
      Change token other (.initializing other) (.shared other frontier)
  | acquire (frontier : Frontier) :
      Change token other (.shared other frontier) (.exclusive other frontier)
  | release (frontier : Frontier) :
      Change token other (.exclusive other frontier) (.shared other frontier)
  | input (h : other ≠ token) (phase : State n) (apply : Frontier → Frontier) :
      Change token other phase (phase.withFrontier other apply)
  | closing (phase : State n) (failure : Failure) :
      Change token other phase (.closing other failure)
  | reconnecting (phase : State n) (failure : Failure) :
      Change token other phase (.reconnecting other failure)
  | vacant (phase : State n) : Change token other phase .vacant

variable {other : Token n} {phase phase' : State n}

/-- A slot is bound as before, or to the token of the transition. -/
theorem Change.bound (h : Change token other phase phase') {bound : Token n}
    (hbound : phase'.bound = some bound) : bound = other ∨ phase.bound = some bound := by
  cases h with
  | same => exact Or.inr hbound
  | bind => exact Or.inl (Option.some.inj hbound).symm
  | ready => exact Or.inl (Option.some.inj hbound).symm
  | acquire => exact Or.inl (Option.some.inj hbound).symm
  | release => exact Or.inl (Option.some.inj hbound).symm
  | input =>
    rw [bound_withFrontier] at hbound
    exact Or.inr hbound
  | closing => exact Or.inl (Option.some.inj hbound).symm
  | reconnecting => exact Or.inl (Option.some.inj hbound).symm
  | vacant => cases hbound

/-- Input for another token leaves the frontier of a slot alone. -/
theorem frontier_withFrontier (h : other ≠ token) (apply : Frontier → Frontier)
    (hbound : phase.bound = some token) :
    (phase.withFrontier other apply).frontier = phase.frontier := by
  cases phase with
  | shared bound frontier =>
    obtain rfl := Option.some.inj hbound
    simp [withFrontier, State.frontier, Ne.symm h]
  | exclusive bound frontier =>
    obtain rfl := Option.some.inj hbound
    simp [withFrontier, State.frontier, Ne.symm h]
  | _ => rfl

/-- A connection that is served was served before, with the same frontier. -/
theorem Change.access (h : Change token other phase phase') {kind : Access}
    (haccess : phase'.access = some (token, kind)) :
    (∃ kind, phase.access = some (token, kind)) ∧ phase'.frontier = phase.frontier := by
  cases h with
  | same => exact ⟨⟨_, haccess⟩, rfl⟩
  | bind => cases haccess
  | ready h => exact absurd (Prod.mk.inj (Option.some.inj haccess)).1 h
  | acquire =>
    obtain ⟨rfl, -⟩ := Prod.mk.inj (Option.some.inj haccess)
    exact ⟨⟨_, rfl⟩, rfl⟩
  | release =>
    obtain ⟨rfl, -⟩ := Prod.mk.inj (Option.some.inj haccess)
    exact ⟨⟨_, rfl⟩, rfl⟩
  | input h _ apply =>
    rw [access_withFrontier] at haccess
    exact ⟨⟨_, haccess⟩, frontier_withFrontier h apply (bound_of_access haccess)⟩
  | closing => cases haccess
  | reconnecting => cases haccess
  | vacant => cases haccess

/-- A connection that is being initialized was so before. -/
theorem Change.initializing (h : Change token other phase phase')
    (hphase : phase' = .initializing token) : phase = .initializing token := by
  cases h with
  | same => exact hphase
  | bind h => exact absurd (initializing.inj hphase) h
  | input h phase apply =>
    cases phase with
    | initializing => exact hphase
    | _ => cases hphase
  | _ => cases hphase

end State

/-! ## Steps -/

namespace Schedule

variable {s s' : Schedule n}

/-- One slot changes for its token. -/
def Changed (token : Token n) (s s' : Schedule n) : Prop :=
  ∃ other phase, s'.routes.conns = Function.update s.routes.conns other.index phase ∧
    State.Change token other (s.routes.conns other.index) phase

/-- No slot changes. -/
theorem changed_of_conns (token : Token n) (h : s'.routes.conns = s.routes.conns) :
    Changed token s s' :=
  ⟨token, _, by rw [h, Function.update_eq_self], .same _⟩

/-- The slot of a token changes by the routes. -/
theorem changed_of_set {other : Token n} {phase : State n}
    (h : s'.routes.conns = (s.routes.set other.index phase).conns)
    (hchange : State.Change token other (s.routes.conns other.index) phase) :
    Changed token s s' :=
  ⟨other, phase, h, hchange⟩

theorem changed_fail (token other : Token n) (err : Failure) :
    Changed token s (s.fail other err).2 := by
  unfold Schedule.fail
  cases hfail : s.routes.fail other err with
  | none => exact changed_of_conns token rfl
  | some routes =>
    obtain ⟨-, rfl⟩ := Routes.fail_eq_some hfail
    exact changed_of_set conns_withdraw (.closing _ err)

/-- `refresh` changes no phase and no lane. -/
theorem relinked_refreshFrom : ∀ (work : ℕ) (deferred : Option (Token n)) (s : Schedule n),
    s.Relinked (refreshFrom work deferred s)
  | 0, _, s => ⟨rfl, rfl, rfl, rfl⟩
  | work + 1, deferred, s => by
    unfold refreshFrom
    split_ifs with hfront
    · exact ⟨rfl, rfl, rfl, rfl⟩
    · cases hpop : s.routes.pop .released with
      | none => exact ⟨rfl, rfl, rfl, rfl⟩
      | some popped =>
        obtain ⟨token, routes⟩ := popped
        have hconns : routes.conns = s.routes.conns := by
          unfold Routes.pop at hpop
          split at hpop
          · cases hpop
          · cases hpop
            rfl
        have hpopped : s.Relinked { s with routes } := ⟨hconns, rfl, rfl, rfl⟩
        dsimp only
        by_cases haccess : (routes.conns token.index).access = some (token, .shared)
        · rw [if_pos haccess]
          rcases publish_eq { s with routes } token with ⟨-, heq⟩ | ⟨-, heq⟩
          · rw [heq]
            exact (hpopped.trans (relinked_schedule _ .released token)).trans
              (relinked_refreshFrom work _ _)
          · rw [heq]
            exact (hpopped.trans (relinked_schedule _ .idle token)).trans
              (relinked_refreshFrom work _ _)
        · rw [if_neg haccess]
          exact hpopped.trans (relinked_refreshFrom work _ _)

/-- A lease takes one shared connection at most, and leaves the lanes alone. -/
theorem changed_leaseFrom (token : Token n) : ∀ (work : ℕ) (s : Schedule n),
    Changed token s (leaseFrom work s).2 ∧ (leaseFrom work s).2.responses = s.responses
  | 0, _ => ⟨changed_of_conns token rfl, rfl⟩
  | work + 1, s => by
    unfold leaseFrom
    cases hpop : s.routes.pop .idle with
    | none => exact ⟨changed_of_conns token rfl, rfl⟩
    | some popped =>
      obtain ⟨other, routes⟩ := popped
      have hconns : routes.conns = s.routes.conns := by
        unfold Routes.pop at hpop
        split at hpop
        · cases hpop
        · cases hpop
          rfl
      dsimp only
      cases hacquire : (routes.conns other.index).acquire other with
      | none =>
        obtain ⟨⟨slot, phase, hslot, hchange⟩, hresponses⟩ :=
          changed_leaseFrom token work { s with routes }
        dsimp only at hslot hchange
        rw [hconns] at hslot hchange
        exact ⟨⟨slot, phase, hslot, hchange⟩, hresponses⟩
      | some phase =>
        obtain ⟨frontier, hshared, rfl⟩ := State.acquire_eq_some.mp hacquire
        refine ⟨⟨other, .exclusive other frontier, ?_, ?_⟩, rfl⟩
        · dsimp only [Routes.set]
          rw [hconns]
        · rw [← hconns, hshared]
          exact .acquire frontier

theorem changed_call (h : s.Call s') (hready : s' ≠ (s.markReady token).2) :
    Changed token s s' := by
  cases h with
  | markReady other =>
    have hne : other ≠ token := by
      rintro rfl
      exact hready rfl
    unfold Schedule.markReady Routes.markReady
    cases hphase : (s.routes.conns other.index).markReady other with
    | none => exact changed_of_conns token rfl
    | some phase =>
      obtain ⟨hinit, rfl⟩ := State.markReady_eq_some.mp hphase
      refine changed_of_set (conns_publish : _ = (s.routes.set other.index (.shared other ⟨none, none⟩)).conns) ?_
      rw [hinit]
      exact .ready hne _
  | pool exhausted answers =>
    unfold Schedule.tryPool
    split_ifs
    · exact changed_of_conns token rfl
    · obtain ⟨next, ⟨error, heq⟩ | ⟨index, other, -, heq⟩⟩ := poolFrom_cases answers n .pool s
      · rw [heq]
        exact changed_of_conns token rfl
      · rw [heq]
        exact changed_of_conns token Routes.conns_unlink
  | dispatch other answer =>
    unfold Schedule.tryDispatchLease
    split_ifs
    · cases answer <;> exact changed_of_conns token rfl
    · exact changed_of_conns token rfl
  | drain other work reserved =>
    unfold Schedule.drain
    split
    · exact changed_of_conns token rfl
    · split_ifs <;> exact changed_of_conns token rfl
  | fail other err => exact changed_fail token other err
  | quarantine other reason => exact changed_fail token other _
  | reconnect other err =>
    unfold Schedule.reconnect
    cases hroutes : s.routes.reconnect other err with
    | none => exact changed_of_conns token rfl
    | some routes =>
      obtain ⟨-, -, rfl⟩ := Routes.reconnect_eq_some hroutes
      refine ⟨other, .reconnecting other err, ?_, .reconnecting _ err⟩
      rw [conns_withdraw]
      rfl
  | clearRecv other work =>
    unfold Schedule.clearRecv
    split <;> exact changed_of_conns token rfl
  | clearSend other work =>
    unfold Schedule.clearSend
    split <;> exact changed_of_conns token rfl
  | retire other hfailure hresponses hqueue => exact changed_of_set rfl (.vacant _)

/-- What a step of another party does to the phases. -/
theorem Apart.conns (h : Apart token s s') : Changed token s s' := by
  cases h with
  | activate other positioned hne =>
    unfold Schedule.activate
    split_ifs
    · cases hphase : (s.routes.conns other.index).bind other with
      | none => exact changed_of_conns token rfl
      | some phase =>
        obtain ⟨hvacant, rfl⟩ := State.bind_eq_some.mp hphase
        refine ⟨other, .initializing other, rfl, ?_⟩
        rw [hvacant]
        exact .bind hne
    · exact changed_of_conns token rfl
  | call hcall hready => exact changed_call hcall hready
  | reply other answer hne =>
    rcases s.tryReply_cases other answer with heq | ⟨-, -, last, heq⟩
    · rw [heq]
      exact changed_of_conns token rfl
    · rw [heq]
      exact changed_of_set (conns_completed last) (.input hne _ _)
  | received other cutoff hasPrefix hne => exact changed_of_set rfl (.input hne _ _)
  | lease =>
    obtain ⟨hconns, -⟩ := relinked_refreshFrom (s.routes.queues .released).length none s
    obtain ⟨⟨other, phase, hslot, hchange⟩, -⟩ := changed_leaseFrom token n s.refresh
    replace hconns : s.refresh.routes.conns = s.routes.conns := hconns
    rw [hconns] at hslot hchange
    exact ⟨other, phase, hslot, hchange⟩
  | drop other =>
    rcases s.release_cases other with heq | ⟨frontier, hphase, heq⟩
    · rw [heq]
      exact changed_of_conns token rfl
    · rw [heq]
      refine changed_of_set Routes.conns_schedule ?_
      rw [hphase]
      exact .release frontier

theorem Changed.indexed (h : Changed token s s') (hindexed : s.Indexed) : s'.Indexed := by
  obtain ⟨other, phase, hconns, hchange⟩ := h
  intro i bound hbound
  rw [hconns] at hbound
  by_cases hi : i = other.index
  · subst hi
    rw [Function.update_self] at hbound
    rcases hchange.bound hbound with rfl | hbound
    · rfl
    · exact hindexed _ _ hbound
  · rw [Function.update_of_ne hi] at hbound
    exact hindexed _ _ hbound

theorem Changed.serving (h : Changed token s s') (hserving : s'.Serving token) :
    s.Serving token ∧
      (s'.routes.conns token.index).frontier = (s.routes.conns token.index).frontier := by
  obtain ⟨other, phase, hconns, hchange⟩ := h
  obtain ⟨kind, haccess⟩ := hserving
  unfold Serving
  rw [hconns] at haccess ⊢
  by_cases hi : token.index = other.index
  · rw [hi, Function.update_self] at haccess ⊢
    exact hchange.access haccess
  · rw [Function.update_of_ne hi] at haccess ⊢
    exact ⟨⟨kind, haccess⟩, rfl⟩

theorem Changed.opening (h : Changed token s s') (hopening : s'.Opening token) :
    s.Opening token := by
  obtain ⟨other, phase, hconns, hchange⟩ := h
  unfold Opening at hopening ⊢
  rw [hconns] at hopening
  by_cases hi : token.index = other.index
  · rw [hi, Function.update_self] at hopening
    rw [hi]
    exact hchange.initializing hopening
  · rwa [Function.update_of_ne hi] at hopening

/-- Orders are only added for connections that are served. -/
theorem responses_admitted {other : Token n} (hopening : s.Opening token)
    {i : Fin n} {kind : Access} (haccess : (s.routes.conns i).access = some (other, kind))
    (hindexed : s.Indexed) (routes : Routes n) :
    (admitted { s with routes } other).responses token.index = s.responses token.index := by
  have hi := hindexed i other (State.bound_of_access haccess)
  have hne : token.index ≠ other.index := by
    rintro heq
    rw [← hi, ← heq, hopening] at haccess
    cases haccess
  exact Function.update_of_ne hne _ _

/-- Nothing is in flight of a connection that is being initialized. -/
theorem Apart.responses (h : Apart token s s') (hindexed : s.Indexed) (hopening : s.Opening token)
    (hlane : s.responses token.index = []) : s'.responses token.index = [] := by
  cases h with
  | activate other positioned hne =>
    unfold Schedule.activate
    split_ifs
    · cases (s.routes.conns other.index).bind other <;> exact hlane
    · exact hlane
  | call hcall hready =>
    cases hcall with
    | markReady other =>
      unfold Schedule.markReady
      cases s.routes.markReady other with
      | none => exact hlane
      | some routes => exact (congrFun responses_publish _).trans hlane
    | pool exhausted answers =>
      unfold Schedule.tryPool
      split_ifs
      · exact hlane
      · obtain ⟨next, ⟨error, heq⟩ | ⟨index, other, haccess, heq⟩⟩ := poolFrom_cases answers n .pool s
        · rw [heq]
          exact hlane
        · rw [heq]
          exact (responses_admitted hopening haccess hindexed _).trans hlane
    | dispatch other answer =>
      unfold Schedule.tryDispatchLease
      split_ifs with hexclusive
      · have haccess : (s.routes.conns other.index).access = some (other, .exclusive) :=
          of_decide_eq_true hexclusive
        cases answer with
        | published => exact (responses_admitted hopening haccess hindexed s.routes).trans hlane
        | _ => exact hlane
      · exact hlane
    | drain other work reserved =>
      unfold Schedule.drain
      split
      · exact hlane
      · split_ifs <;> exact hlane
    | fail other err =>
      unfold Schedule.fail
      split <;> exact hlane
    | quarantine other reason =>
      unfold Schedule.quarantine Schedule.fail
      split <;> exact hlane
    | reconnect other err =>
      unfold Schedule.reconnect
      split <;> exact hlane
    | clearRecv other work =>
      unfold Schedule.clearRecv
      split
      · exact hlane
      · dsimp only
        by_cases hi : token.index = other.index
        · rw [hi, Function.update_self, ← hi, hlane, List.drop_nil]
        · rw [Function.update_of_ne hi]
          exact hlane
    | clearSend other work =>
      unfold Schedule.clearSend
      split <;> exact hlane
    | retire other hfailure hresponses hqueue => exact hlane
  | reply other answer hne =>
    rcases s.tryReply_cases other answer with heq | ⟨hbound, -, last, heq⟩
    · rw [heq]
      exact hlane
    · rw [heq, responses_completed]
      have hi : token.index ≠ other.index := by
        intro hi
        rw [← hi, hopening] at hbound
        exact hne (Option.some.inj hbound).symm
      rw [Function.update_of_ne hi]
      exact hlane
  | received other cutoff hasPrefix hne => exact hlane
  | lease =>
    have hrefresh := (relinked_refreshFrom (s.routes.queues .released).length none s).responses
    have hlease := (changed_leaseFrom token n s.refresh).2
    change (leaseFrom n s.refresh).2.responses token.index = []
    rw [hlease]
    exact (congrFun hrefresh _).trans hlane
  | drop other =>
    rcases s.release_cases other with heq | ⟨frontier, -, heq⟩
    · rw [heq]
      exact hlane
    · rw [heq]
      exact hlane

end Schedule

end Cartel.Redis.Scheduler
