import Cartel.Pool.Invariant
import Mathlib.Logic.Relation

/-!
# Transactions

A lease of a connection is a transaction : a connection and a generation, compared wherever it
is used. Each call takes the lifecycle of one slot one step on (`Next`), and a transaction is
handed out by one kind of step only. From there generations of a connection increase, and a
transaction that is no longer current never is again.
-/

namespace Cartel.Pg.Pool

variable {n top : ℕ} {φ : Type}
variable {links : Links n} {index index' : Index n top φ} {i : Fin n}

/-! ## Generations -/

/-- The generation an access is for. -/
def Access.generation : Access → Option Generation
  | .reserved generation | .held generation | .finalizing generation => some generation
  | .shared _ | .draining => none

/-- No generation has been handed out above the access. -/
def Access.Covers (access : Access) (generation : Generation) : Prop :=
  match access with
  | .shared sequence => generation.value.toNat ≤ sequence.value.toNat
  | .reserved current | .held current | .finalizing current =>
    generation.value.toNat ≤ current.value.toNat
  | .draining => True

theorem Sequence.next_eq_some {sequence : Sequence} {generation : Generation}
    (h : sequence.next = some generation) :
    generation.value.toNat = sequence.value.toNat + 1 := by
  unfold next at h
  split_ifs at h with hne
  cases h
  have hlt := sequence.value.toNat_lt
  have hsum : (sequence.value + 1).toNat = (sequence.value.toNat + 1) % 2 ^ 64 := by
    rw [UInt64.toNat_add]
    rfl
  have hnonzero : (sequence.value + 1).toNat ≠ 0 := fun h =>
    hne (UInt64.toNat_inj.mp (h.trans UInt64.toNat_zero.symm))
  dsimp only
  omega

/-- A sequence ends with its last number. -/
theorem Sequence.next_eq_none {sequence : Sequence} :
    sequence.next = none ↔ sequence.value.toNat + 1 = 2 ^ 64 := by
  unfold next
  have hlt := sequence.value.toNat_lt
  have hsum : (sequence.value + 1).toNat = (sequence.value.toNat + 1) % 2 ^ 64 := by
    rw [UInt64.toNat_add]
    rfl
  split_ifs with hne
  · refine iff_of_false (fun h => by cases h) fun h => hne ?_
    apply UInt64.toNat_inj.mp
    rw [hsum, h]
    rfl
  · refine iff_of_true rfl ?_
    rw [not_not] at hne
    rw [hne] at hsum
    have hzero : (0 : UInt64).toNat = 0 := rfl
    omega

/-! ## Uses of a transaction -/

/-- `tx::Access::is_current`. -/
def Index.isCurrent (final : Bool) (id : Transaction n) (index : Index n top φ) : Bool :=
  (index.slots id.conn.index).matches' id.conn &&
    (index.slots id.conn.index).isCurrent final id.generation

/-- What `tx::Access::poll_settled` answers. -/
inductive Settled where
  | pending
  | reusable
  | lost
  deriving DecidableEq

/-- `tx::Access::poll_settled`. -/
def Index.pollSettled (target : Transaction n) (index : Index n top φ) : Settled :=
  match (index.slots target.conn.index).current target.conn with
  | .reserved current | .held current | .finalizing current =>
    if current = target then .pending else .reusable
  | .shared | .draining => .reusable
  | .stale | .handshaking | .closing => .lost

/-- `lease::Target`, of a transaction. -/
inductive Target (n : ℕ) where
  | transaction (id : Transaction n)
  | finalization (state : Finalization n)
  deriving DecidableEq

/-- `Finalization::id`. -/
def Finalization.id : Finalization n → Transaction n
  | .pending id | .reusable id | .lost id => id

/-- `Target::current`. -/
def Target.current (index : Index n top φ) : Target n → Option (Token n)
  | .transaction id => if index.isCurrent false id then some id.conn else none
  | .finalization (.pending id) => if index.isCurrent true id then some id.conn else none
  | .finalization (.reusable _) | .finalization (.lost _) => none

/-- `Client::abort`. -/
def Index.abort (target : Target n) (cause : φ) (index : Index n top φ) :
    Option (Index n top φ) :=
  match target.current index with
  | some conn => (index.close conn cause .reconnect).map Prod.fst
  | none => some index

/-- The slot of a transaction is reserved, held or finalizing for it. -/
def Index.Leases (index : Index n top φ) (id : Transaction n) : Prop :=
  ∃ access receiving, (index.slots id.conn.index).phase = .ready id.conn access receiving ∧
    access.generation = some id.generation

/-- Nothing that is asked in the name of a transaction selects, finalizes, awaits or closes its
connection. -/
structure Powerless (index : Index n top φ) (id : Transaction n) : Prop where
  target : index.target id.conn (some id.generation) = (false, none)
  isCurrent : ∀ final, index.isCurrent final id = false
  finalize : index.finalize id = some (index, .reusable id) ∨
    index.finalize id = some (index, .lost id)
  pollSettled : index.pollSettled id ≠ .pending
  abort : ∀ cause, index.abort (.transaction id) cause = some index
  abort_finalization : ∀ cause state, Finalization.id state = id →
    index.abort (.finalization state) cause = some index

theorem isCurrent_eq_false {id : Transaction n} (h : ¬index.Leases id) (final : Bool) :
    index.isCurrent final id = false := by
  rw [Index.isCurrent, Bool.and_eq_false_iff, or_iff_not_imp_left, Bool.not_eq_false]
  intro hmatches
  have hbound := of_decide_eq_true hmatches
  unfold Slot.isCurrent
  rcases hphase : (index.slots id.conn.index).phase with
    _ | bound | ⟨bound, access, receiving⟩ | ⟨bound, failure, fate⟩
  · rfl
  · rfl
  · rw [hphase] at hbound
    obtain rfl : bound = id.conn := Option.some.inj hbound
    have hne : access.generation ≠ some id.generation := fun h' => h ⟨access, receiving, hphase, h'⟩
    cases access with
    | shared | draining => rfl
    | reserved current | held current | finalizing current =>
      have hcurrent : current ≠ id.generation := fun heq => hne (congrArg some heq)
      simp [hcurrent]
  · rfl

/-- A transaction that is not current is powerless. -/
theorem powerless_of_not_leases {id : Transaction n} (hinv : Inv index) (h : ¬index.Leases id) :
    Powerless index id := by
  have hcurrent := isCurrent_eq_false h
  refine ⟨?_, hcurrent, ?_, ?_, fun cause => ?_, fun cause state hstate => ?_⟩
  · have hselect : (index.slots id.conn.index).select id.conn (some id.generation) = false := by
      by_contra hselect
      rw [Bool.not_eq_false] at hselect
      obtain ⟨receiving, hphase⟩ := Slot.select_some hselect
      exact h ⟨_, receiving, hphase, rfl⟩
    rw [Index.target, hselect]
    rfl
  · obtain ⟨index', state, hfinalize, ⟨rfl, rfl | rfl⟩ | ⟨receiving, -, hphase, -⟩⟩ :=
      hinv.finalize id
    · exact Or.inl hfinalize
    · exact Or.inr hfinalize
    · exact absurd ⟨_, receiving, hphase, rfl⟩ h
  · have hphase := Slot.phase_of_current (index.slots id.conn.index) id.conn
    unfold Index.pollSettled
    rcases hcase : (index.slots id.conn.index).current id.conn with
      _ | _ | _ | current | current | current | _ | _
    all_goals rw [hcase] at hphase
    case reserved | held | finalizing =>
      obtain ⟨hconn, receiving, hphase⟩ := hphase
      dsimp only
      rw [if_neg]
      · exact fun h => by cases h
      · rintro rfl
        exact h ⟨_, receiving, hphase, rfl⟩
    all_goals exact fun h => by cases h
  · rw [Index.abort, Target.current, hcurrent]
    rfl
  · cases state with
    | pending id' =>
      obtain rfl : id' = id := hstate
      rw [Index.abort, Target.current, hcurrent]
      rfl
    | reusable | lost => rfl

/-- A selected slot is ready for its token. -/
theorem Slot.select_ready {slot : Slot n φ} {token : Token n} {generation : Option Generation}
    (h : slot.select token generation = true) :
    ∃ access receiving, slot.phase = .ready token access receiving := by
  unfold select at h
  split at h
  · next bound access receiving hphase =>
    split_ifs at h with hbound
    rw [not_not] at hbound
    exact ⟨access, receiving, hbound ▸ hphase⟩
  · cases h

theorem Index.target_source {token : Token n} {generation : Option Generation}
    {source : Source n top} (hinv : Inv index)
    (h : (index.target token generation).2 = some source) :
    (∃ rank sequence, source = .shared ⟨token.index, rank⟩ ∧ generation = none ∧
      (index.slots token.index).phase = .ready token (.shared sequence) false) ∨
    ∃ current, source = .exclusive token.index ∧ generation = some current ∧
      (index.slots token.index).phase = .ready token (.held current) false := by
  have hspec := Index.target_spec h
  unfold target at h
  dsimp only at h
  split_ifs at h with hselect hreceiving hgeneration
  · obtain rfl := Option.some.inj h
    obtain ⟨current, rfl⟩ := Option.isSome_iff_exists.mp hgeneration
    obtain ⟨bound, held, hphase⟩ := hspec
    rw [Bool.not_eq_true', Bool.not_eq_false] at hselect
    obtain ⟨receiving, hphase'⟩ := Slot.select_some hselect
    rw [hphase] at hphase'
    cases hphase'
    exact Or.inr ⟨current, rfl, rfl, hphase⟩
  · obtain ⟨listed, hlisted, rfl⟩ := Option.map_eq_some_iff.mp h
    obtain ⟨hindex, hpriority⟩ := Index.listed_eq_some hlisted
    obtain ⟨bound, sequence, hphase⟩ := hinv.phase_of_priority hpriority
    rw [Bool.not_eq_true', Bool.not_eq_false] at hselect
    obtain ⟨access, receiving, hphase'⟩ := Slot.select_ready hselect
    rw [hindex, hphase'] at hphase
    cases hphase
    rw [Bool.not_eq_true, Option.isSome_eq_false_iff, Option.isNone_iff_eq_none] at hgeneration
    exact Or.inl ⟨listed.rank, sequence, by rw [← hindex], hgeneration, hphase'⟩

/-- A slot is current for one transaction at most. -/
theorem Index.Leases.unique {id id' : Transaction n} (h : index.Leases id) (h' : index.Leases id')
    (hindex : id.conn.index = id'.conn.index) : id = id' := by
  obtain ⟨access, receiving, hphase, hgeneration⟩ := h
  obtain ⟨access', receiving', hphase', hgeneration'⟩ := h'
  rw [hindex, hphase'] at hphase
  obtain ⟨hconn, rfl, -⟩ := Lifecycle.ready.inj hphase
  rw [hgeneration'] at hgeneration
  obtain ⟨conn, generation⟩ := id
  obtain ⟨conn', generation'⟩ := id'
  cases hconn
  cases hgeneration
  rfl

/-! ## Lifecycles -/

/-- What a step of a lifecycle does for others : it binds a token, or hands out a transaction. -/
inductive Label (n : ℕ) where
  | bind (token : Token n)
  | hand (id : Transaction n)
  | quiet
  deriving DecidableEq

/-- The steps of a lifecycle. -/
inductive Next (i : Fin n) : Label n → Lifecycle n φ → Lifecycle n φ → Prop where
  | bind {token} : token.index = i → Next i (.bind token) .vacant (.handshaking token)
  | ready {token} : Next i .quiet (.handshaking token) (.ready token (.shared .initial) false)
  | receive {token access receiving receiving'} :
    Next i .quiet (.ready token access receiving) (.ready token access receiving')
  | reserve {token sequence next} : Sequence.next sequence = some next →
    Next i (.hand ⟨token, next⟩) (.ready token (.shared sequence) false)
      (.ready token (.reserved next) false)
  | drain {token sequence} : Sequence.next sequence = none →
    Next i .quiet (.ready token (.shared sequence) false) (.ready token .draining false)
  | release {token generation receiving} :
    Next i .quiet (.ready token (.reserved generation) receiving)
      (.ready token (.shared generation.sequence) receiving)
  | activate {token generation receiving} :
    Next i .quiet (.ready token (.reserved generation) receiving)
      (.ready token (.held generation) receiving)
  | finalize {token generation receiving} :
    Next i .quiet (.ready token (.held generation) receiving)
      (.ready token (.finalizing generation) receiving)
  | finish {token generation receiving} :
    Next i .quiet (.ready token (.finalizing generation) receiving)
      (.ready token (.shared generation.sequence) receiving)
  | close {phase token failure fate} : Lifecycle.bound phase = some token →
    Next i .quiet phase (.closing token failure fate)
  | retire {token failure fate} : Next i .quiet (.closing token failure fate) .vacant

/-- What a call does for others. -/
def Call.label (call : Call n φ) (after : State n top φ) : Label n :=
  match call, after.hand with
  | .bind token, _ => .bind token
  | .reserve, .reserved reservation => .hand reservation.id
  | _, _ => .quiet

/-- One slot takes a step, and the others stay as they are, or all do. -/
def Steps (label : Label n) (index index' : Index n top φ) : Prop :=
  ((∀ id, label ≠ .hand id) ∧ ∀ j, (index'.slots j).phase = (index.slots j).phase) ∨
    ∃ i, Next i label (index.slots i).phase (index'.slots i).phase ∧
      ∀ j, j ≠ i → (index'.slots j).phase = (index.slots j).phase

theorem Steps.refl {label : Label n} (hlabel : ∀ id, label ≠ .hand id) : Steps label index index :=
  Or.inl ⟨hlabel, fun _ => rfl⟩

theorem Steps.moved {label : Label n} {slot : Slot n φ} {p : Option (Fin (top + 1))}
    (hmoved : Moved index i slot p index') (h : Next i label (index.slots i).phase slot.phase) :
    Steps label index index' := by
  refine Or.inr ⟨i, ?_, fun j hj => ?_⟩
  · rw [hmoved.slots, Function.update_self]
    exact h
  · rw [hmoved.slots, Function.update_of_ne hj]

/-- A slot in the same phase. -/
theorem Steps.same {label : Label n} {slot : Slot n φ} {p : Option (Fin (top + 1))}
    (hlabel : ∀ id, label ≠ .hand id) (hmoved : Moved index i slot p index')
    (h : slot.phase = (index.slots i).phase) : Steps label index index' := by
  refine Or.inl ⟨hlabel, fun j => ?_⟩
  rw [hmoved.slots]
  by_cases hj : j = i
  · subst hj
    rw [Function.update_self, h]
  · rw [Function.update_of_ne hj]

theorem Steps.turned {label : Label n} (hlabel : ∀ id, label ≠ .hand id)
    (h : Turned index index') : Steps label index index' := by
  obtain ⟨ring, -, rfl⟩ := h
  exact .refl hlabel

/-- Each call takes one lifecycle a step on. -/
theorem State.call_steps {state state' : State n top φ} {call : Call n φ} (h : Inv state.index)
    (hholds : Holds state.index state.hand) (hpermits : state.hand.permits call = true)
    (hcall : state.call links call = some state') :
    Steps (call.label state') state.index state'.index := by
  obtain ⟨index, hand⟩ := state
  have hquiet : ∀ id : Transaction n, Label.quiet ≠ .hand id := fun _ h => by cases h
  rcases hand with _ | (⟨i, row⟩ | i) | ⟨i, row, id⟩
  · cases call with
    | drop | reserve | release | publish => cases hpermits
    | bind token =>
      cases hcall
      rcases Slot.bind_cases (index.slots token.index) token with
        ⟨hphase, hbind⟩ | hbind
      · refine .moved h.bind ?_
        rw [hbind, hphase]
        exact .bind rfl
      · exact .same (fun _ h => by cases h) h.bind (by rw [hbind])
    | tryReady token =>
      rcases h.tryReady links token with
        ⟨index', hready, hphase, hmoved⟩ | hready <;> rw [State.call, hready] at hcall <;>
        cases hcall
      · exact .moved hmoved (hphase ▸ .ready)
      · exact .refl hquiet
    | target token generation =>
      cases hcall
      exact .refl hquiet
    | pick policy boundary =>
      obtain ⟨index', listed, hpick, hturned, -⟩ :=
        Index.pick_spec h.linked.toBucketed policy boundary
      rw [State.call, hpick] at hcall
      cases hcall
      exact .turned hquiet hturned
    | pickBegin policy =>
      cases hcall
      exact .turned hquiet (Index.pickWhere_spec h.linked.toBucketed policy _).1
    | tryFinish token =>
      cases hcall
      dsimp only [Index.tryFinish]
      split_ifs
      · split
        · exact .refl hquiet
        · next permit _ => exact .same hquiet (h.commit _ permit) (permit.commit_phase _)
      · exact .refl hquiet
    | flush token =>
      cases hcall
      dsimp only [Index.flush]
      split
      · exact .refl hquiet
      · next permit _ => exact .same hquiet (h.commit _ permit) (permit.commit_phase _)
    | settle token =>
      cases hcall
      exact .same hquiet (h.setSame (Slot.settle_phase _ token)) (Slot.settle_phase _ token)
    | pollReady token status depth =>
      obtain ⟨index', answer, hready, ⟨rfl, -⟩ | ⟨_, _, hphase, hmoved⟩ |
        ⟨_, _, hphase, hmoved⟩⟩ :=
        h.pollReady links token status depth
      all_goals
        rw [State.call] at hcall
        dsimp only at hcall
        rw [hready] at hcall
        cases hcall
      · exact .refl hquiet
      · exact .moved hmoved (hphase ▸ .activate)
      · exact .moved hmoved (hphase ▸ .finish)
    | finalize id =>
      obtain ⟨index', state, hfinalize, ⟨rfl, -⟩ | ⟨receiving, -, hphase, hmoved⟩⟩ :=
        h.finalize id <;> rw [State.call, hfinalize] at hcall <;> cases hcall
      · exact .refl hquiet
      · exact .moved hmoved (hphase ▸ .finalize)
    | close token cause fate =>
      rcases h.close token cause fate with
        ⟨index', _, _, _, hclose, hbound, hmoved⟩ | ⟨-, hclose⟩ <;>
        rw [State.call, hclose] at hcall <;> cases hcall
      · exact .moved hmoved (.close hbound)
      · exact .refl hquiet
    | reindex token depth =>
      obtain ⟨index', drained, hreindex, ⟨rfl, -⟩ | ⟨sequence, -, hmoved⟩⟩ :=
        h.reindex links token depth <;>
        rw [State.call, hreindex] at hcall <;> cases hcall
      · exact .refl hquiet
      · exact .same hquiet hmoved rfl
    | setReceiving token receiving depth =>
      obtain ⟨index', waited, hset, rfl | ⟨access, p, hphase, -, hmoved⟩⟩ :=
        h.setReceiving links token receiving depth <;> rw [State.call, hset] at hcall <;>
        cases hcall
      · exact .refl hquiet
      · exact .moved hmoved (hphase ▸ .receive)
    | tryRetire token =>
      cases hcall
      rcases h.tryRetire token with heq | ⟨_, _, hphase, hmoved⟩
      · dsimp only
        rw [heq]
        exact .refl hquiet
      · exact .moved hmoved (hphase ▸ .retire)
  · cases call with
    | drop =>
      cases hcall
      exact .refl hquiet
    | reserve =>
      obtain ⟨bound, sequence, hphase, ⟨next, index', hnext, hreserve, hmoved⟩ |
        ⟨index', hnext, hreserve, hmoved⟩⟩ := h.reserve hholds
      all_goals
        rw [State.call] at hcall
        dsimp only at hcall
        rw [hreserve] at hcall
        cases hcall
      · exact .moved hmoved (hphase ▸ .reserve hnext)
      · exact .moved hmoved (hphase ▸ .drain hnext)
    | publish boundary depth =>
      obtain ⟨index', hpublish, ⟨-, rfl⟩ | ⟨permit, -, hmoved⟩⟩ :=
        h.publish links boundary depth hholds
      all_goals
        rw [State.call] at hcall
        dsimp only at hcall
        rw [hpublish] at hcall
        cases hcall
      · exact .refl hquiet
      · exact .same hquiet hmoved (permit.commit_phase _)
    | _ => cases hpermits
  · cases call with
    | drop =>
      cases hcall
      exact .refl hquiet
    | publish boundary depth =>
      rcases hreply : (index.slots i).tryReply boundary with error | permit <;>
        simp only [State.call, Index.publish, hreply] at hcall <;> cases hcall
      · exact .refl hquiet
      · exact .same hquiet (h.commit _ permit) (permit.commit_phase _)
    | _ => cases hpermits
  · cases call with
    | release =>
      have hphase : (index.slots i).phase = .ready id.conn (.reserved id.generation) false := hholds
      obtain ⟨index', hrelease, hmoved⟩ := h.release links row hphase
      rw [State.call] at hcall
      dsimp only at hcall
      rw [hrelease] at hcall
      cases hcall
      exact .moved hmoved (hphase ▸ .release)
    | publish boundary depth =>
      rcases hreply : (index.slots i).tryReply boundary with error | permit <;>
        simp only [State.call, hreply] at hcall <;> cases hcall
      · exact .refl hquiet
      · exact .same hquiet (h.commit _ permit) (permit.commit_phase _)
    | _ => cases hpermits

/-! ## Ledgers -/

/-- A pool, the tokens that were to be bound, and the transactions it has handed out, the oldest
first. -/
structure Ledger (n top : ℕ) (φ : Type) where
  state : State n top φ
  tokens : List (Token n)
  handed : List (Transaction n)

/-- The tokens after a step. -/
def Label.tokens (tokens : List (Token n)) : Label n → List (Token n)
  | .bind token => tokens ++ [token]
  | .hand _ | .quiet => tokens

/-- The transactions after a step. -/
def Label.handed (handed : List (Transaction n)) : Label n → List (Transaction n)
  | .hand id => handed ++ [id]
  | .bind _ | .quiet => handed

namespace Ledger

/-- A ledger at its start. -/
def new : Ledger n top φ :=
  ⟨.new, [], []⟩

/-- A ledger after a call. -/
def after (ledger : Ledger n top φ) (call : Call n φ) (state : State n top φ) : Ledger n top φ :=
  ⟨state, (call.label state).tokens ledger.tokens, (call.label state).handed ledger.handed⟩

/-- A call that can be made. The driver binds no token twice. -/
inductive Step (links : Links n) : Ledger n top φ → Ledger n top φ → Prop where
  | call {ledger : Ledger n top φ} {state : State n top φ} (call : Call n φ) :
    (∀ token, call = .bind token → token ∉ ledger.tokens) →
    ledger.state.hand.permits call = true → ledger.state.call links call = some state →
    Step links ledger (ledger.after call state)

/-- A run of a ledger. -/
def Run (links : Links n) : Ledger n top φ → Ledger n top φ → Prop :=
  Relation.ReflTransGen (Step links)

end Ledger

/-- What tokens and transactions a slot is in line with. -/
def Kept (tokens : List (Token n)) (handed : List (Transaction n)) (i : Fin n)
    (phase : Lifecycle n φ) : Prop :=
  (∀ token, phase.bound = some token → token.index = i ∧ token ∈ tokens) ∧
    (∀ bound, phase = .handshaking bound → ∀ id ∈ handed, id.conn ≠ bound) ∧
    ∀ bound access receiving, phase = .ready bound access receiving →
      (∀ id ∈ handed, id.conn = bound → access.Covers id.generation) ∧
      ∀ generation, access.generation = some generation → ⟨bound, generation⟩ ∈ handed

theorem Kept.ready {tokens : List (Token n)} {handed : List (Transaction n)} {token : Token n}
    {access : Access} {receiving : Bool} (hindex : token.index = i) (htoken : token ∈ tokens)
    (hcovers : ∀ id ∈ handed, id.conn = token → access.Covers id.generation)
    (hhanded : ∀ generation, access.generation = some generation → ⟨token, generation⟩ ∈ handed) :
    Kept tokens handed i (.ready token access receiving : Lifecycle n φ) := by
  refine ⟨fun bound hbound => ?_, fun bound h => (by cases h), fun bound access' receiving' h => ?_⟩
  · cases hbound
    exact ⟨hindex, htoken⟩
  · cases h
    exact ⟨hcovers, hhanded⟩

theorem Label.mem_tokens {label : Label n} {tokens : List (Token n)} {token : Token n}
    (h : token ∈ tokens) : token ∈ label.tokens tokens := by
  cases label with
  | bind => exact List.mem_append_left _ h
  | hand | quiet => exact h

theorem Label.mem_handed {label : Label n} {handed : List (Transaction n)} {id : Transaction n}
    (h : id ∈ handed) : id ∈ label.handed handed := by
  cases label with
  | hand => exact List.mem_append_left _ h
  | bind | quiet => exact h

section

variable {label : Label n} {phase phase' : Lifecycle n φ} {tokens : List (Token n)}
  {handed : List (Transaction n)}

/-- A slot that takes a step stays in line. -/
theorem Next.kept (h : Next i label phase phase') (hkept : Kept tokens handed i phase)
    (hfresh : ∀ token, label = .bind token → token ∉ tokens)
    (htokens : ∀ id ∈ handed, id.conn ∈ tokens) :
    Kept (label.tokens tokens) (label.handed handed) i phase' := by
  obtain ⟨hbound, hhandshaking, hready⟩ := hkept
  cases h with
  | @bind token hindex =>
    refine ⟨fun token' h => ?_, fun bound h id hid hconn => ?_, fun _ _ _ h => (by cases h)⟩
    · cases h
      exact ⟨hindex, List.mem_append_right _ (List.mem_singleton_self _)⟩
    · cases h
      exact hfresh token rfl (hconn ▸ htokens id hid)
  | @ready token =>
    obtain ⟨hindex, htoken⟩ := hbound token rfl
    refine .ready hindex htoken (fun id hid hconn => ?_) fun _ h => by cases h
    exact absurd hconn (hhandshaking token rfl id hid)
  | @receive token access receiving receiving' =>
    obtain ⟨hindex, htoken⟩ := hbound token rfl
    obtain ⟨hcovers, hhanded⟩ := hready token access receiving rfl
    exact .ready hindex htoken hcovers hhanded
  | @reserve token sequence next hnext =>
    obtain ⟨hindex, htoken⟩ := hbound token rfl
    obtain ⟨hcovers, -⟩ := hready token _ _ rfl
    have hvalue := Sequence.next_eq_some hnext
    refine .ready hindex htoken (fun id hid hconn => ?_) fun generation h => ?_
    · rcases List.mem_append.mp hid with hid | hid
      · have hle : id.generation.value.toNat ≤ sequence.value.toNat := hcovers id hid hconn
        exact hle.trans (hvalue ▸ Nat.le_succ _)
      · rw [List.mem_singleton.mp hid]
        exact le_refl next.value.toNat
    · cases h
      exact List.mem_append_right _ (List.mem_singleton_self _)
  | @drain token sequence hnext =>
    obtain ⟨hindex, htoken⟩ := hbound token rfl
    exact .ready hindex htoken (fun _ _ _ => trivial) fun _ h => by cases h
  | @release token generation receiving =>
    obtain ⟨hindex, htoken⟩ := hbound token rfl
    exact .ready hindex htoken (hready token _ _ rfl).1 fun _ h => by cases h
  | @activate token generation receiving =>
    obtain ⟨hindex, htoken⟩ := hbound token rfl
    exact .ready hindex htoken (hready token _ _ rfl).1 (hready token _ _ rfl).2
  | @finalize token generation receiving =>
    obtain ⟨hindex, htoken⟩ := hbound token rfl
    exact .ready hindex htoken (hready token _ _ rfl).1 (hready token _ _ rfl).2
  | @finish token generation receiving =>
    obtain ⟨hindex, htoken⟩ := hbound token rfl
    exact .ready hindex htoken (hready token _ _ rfl).1 fun _ h => by cases h
  | @close _ token failure fate hold =>
    refine ⟨fun token' h => ?_, fun _ h => (by cases h), fun _ _ _ h => (by cases h)⟩
    cases h
    exact hbound token hold
  | retire =>
    exact ⟨fun _ h => (by cases h), fun _ h => (by cases h), fun _ _ _ h => (by cases h)⟩

/-- A transaction is handed out of a slot that is shared. -/
theorem Next.hand {id : Transaction n} (h : Next i (.hand id) phase phase') :
    ∃ sequence, sequence.next = some id.generation ∧
      phase = .ready id.conn (.shared sequence) false ∧
      phase' = .ready id.conn (.reserved id.generation) false := by
  cases h with
  | reserve hnext => exact ⟨_, hnext, rfl, rfl⟩

/-- A step leads out of draining only where the connection closes. -/
theorem Next.drained {token : Token n} (h : Next i label phase phase')
    (hbind : ∀ token', label = .bind token' → token' ≠ token)
    (hold : phase ≠ .handshaking token ∧
      ∀ access receiving, phase = .ready token access receiving → access = .draining) :
    phase' ≠ .handshaking token ∧
      ∀ access receiving, phase' = .ready token access receiving → access = .draining := by
  obtain ⟨hhandshaking, hready⟩ := hold
  cases h with
  | bind hindex =>
    refine ⟨fun h => ?_, fun _ _ h => by cases h⟩
    cases h
    exact hbind token rfl rfl
  | ready =>
    refine ⟨fun h => (by cases h), fun access receiving h => ?_⟩
    cases h
    exact absurd rfl hhandshaking
  | receive =>
    refine ⟨fun h => (by cases h), fun access receiving h => ?_⟩
    cases h
    exact hready _ _ rfl
  | drain => exact ⟨fun h => (by cases h), fun access receiving h => (by cases h; rfl)⟩
  | reserve | release | activate | finalize | finish =>
    refine ⟨fun h => (by cases h), fun access receiving h => ?_⟩
    cases h
    cases hready _ _ rfl
  | close | retire => exact ⟨fun h => (by cases h), fun _ _ h => (by cases h)⟩

/-- A slot that takes no step stays in line. -/
theorem Kept.other (hkept : Kept tokens handed i phase)
    (hhand : ∀ id, label = .hand id → phase.bound ≠ some id.conn) :
    Kept (label.tokens tokens) (label.handed handed) i phase := by
  obtain ⟨hbound, hhandshaking, hready⟩ := hkept
  have hconn : ∀ id ∈ label.handed handed, phase.bound = some id.conn → id ∈ handed := by
    intro id hid hconn
    cases label with
    | hand id' =>
      rcases List.mem_append.mp hid with hid | hid
      · exact hid
      · obtain rfl := List.mem_singleton.mp hid
        exact absurd hconn (hhand id rfl)
    | bind | quiet => exact hid
  refine ⟨fun token h => ?_, fun bound h id hid heq => ?_, fun bound access receiving h => ?_⟩
  · exact ⟨(hbound token h).1, Label.mem_tokens (hbound token h).2⟩
  · exact hhandshaking bound h id (hconn id hid (by rw [h, heq]; rfl)) heq
  · obtain ⟨hcovers, hhanded⟩ := hready bound access receiving h
    exact ⟨fun id hid heq => hcovers id (hconn id hid (by rw [h, heq]; rfl)) heq,
      fun generation hgeneration => Label.mem_handed (hhanded generation hgeneration)⟩

/-- A step is a transaction's own, if the slot is current for it after the step and was not
before. -/
theorem Next.not_leases {id : Transaction n} {access : Access} {receiving : Bool}
    (h : Next i label phase phase') (hkept : Kept tokens handed i phase) (hid : id ∈ handed)
    (hphase : phase' = .ready id.conn access receiving)
    (hgeneration : access.generation = some id.generation) :
    ∃ access receiving, phase = .ready id.conn access receiving ∧
      access.generation = some id.generation := by
  cases h <;> cases hphase <;> try cases hgeneration
  case receive => exact ⟨_, _, rfl, hgeneration⟩
  case reserve sequence hnext =>
    have hle : id.generation.value.toNat ≤ sequence.value.toNat :=
      (hkept.2.2 _ _ _ rfl).1 id hid rfl
    have hvalue := Sequence.next_eq_some hnext
    omega
  case activate => exact ⟨_, _, rfl, rfl⟩
  case finalize => exact ⟨_, _, rfl, rfl⟩

end

namespace Ledger

variable {ledger ledger' : Ledger n top φ}

/-- The invariant of a ledger : its slots are in line with its tokens and transactions, and the
generations of a connection increase. -/
structure Inv (links : Links n) (ledger : Ledger n top φ) : Prop where
  reached : Reached links ledger.state
  kept : ∀ i, Kept ledger.tokens ledger.handed i (ledger.state.index.slots i).phase
  tokens : ∀ id ∈ ledger.handed, id.conn ∈ ledger.tokens
  increasing : ledger.handed.Pairwise fun id id' => id.conn = id'.conn →
    id.generation.value.toNat < id'.generation.value.toNat

theorem Inv.new : Inv links (Ledger.new : Ledger n top φ) :=
  ⟨.new, fun _ => ⟨fun _ h => (by cases h), fun _ h => (by cases h), fun _ _ _ h => (by cases h)⟩,
    fun _ h => (by cases h), List.Pairwise.nil⟩

/-- The tokens that a call binds are new. -/
theorem label_fresh {call : Call n φ} (state : State n top φ) {tokens : List (Token n)}
    (h : ∀ token, call = .bind token → token ∉ tokens) (token : Token n)
    (hlabel : call.label state = .bind token) : token ∉ tokens := by
  unfold Call.label at hlabel
  split at hlabel
  · cases hlabel
    exact h _ rfl
  · cases hlabel
  · cases hlabel

theorem Inv.step (h : Inv links ledger) (hstep : Step links ledger ledger') :
    Inv links ledger' := by
  cases hstep with
  | @call state call hfresh hpermits hcall =>
  have hlabel := fun token => label_fresh state hfresh token
  obtain ⟨hinv, hholds⟩ := h.reached.inv
  have hsteps := State.call_steps hinv hholds hpermits hcall
  -- Where a transaction is handed out its slot was shared, and covers those before.
  have hhand : ∀ id, call.label state = .hand id → ∃ i sequence,
      (ledger.state.index.slots i).phase = .ready id.conn (.shared sequence) false ∧
        sequence.next = some id.generation := by
    intro id hid
    rcases hsteps with ⟨hquiet, -⟩ | ⟨j, hnext, -⟩
    · exact absurd hid (hquiet id)
    · rw [hid] at hnext
      obtain ⟨sequence, hsequence, hphase, -⟩ := hnext.hand
      exact ⟨j, sequence, hphase, hsequence⟩
  refine ⟨h.reached.call call hpermits hcall, fun i => ?_, ?_, ?_⟩
  · rcases hsteps with ⟨hquiet, hsame⟩ | ⟨j, hnext, hother⟩
    · dsimp only [after]
      rw [hsame]
      exact (h.kept i).other fun id hid => absurd hid (hquiet id)
    · by_cases hi : i = j
      · subst hi
        exact hnext.kept (h.kept i) hlabel h.tokens
      · dsimp only [after]
        rw [hother i hi]
        refine (h.kept i).other fun id hid hbound => hi ?_
        rw [hid] at hnext
        obtain ⟨sequence, -, hphase, -⟩ := hnext.hand
        rw [← ((h.kept i).1 _ hbound).1, ((h.kept j).1 id.conn (by rw [hphase]; rfl)).1]
  · dsimp only [after]
    rcases hcase : call.label state with token | id' | _
    · exact fun id hid => List.mem_append_left _ (h.tokens id hid)
    · obtain ⟨i, sequence, hphase, -⟩ := hhand id' hcase
      intro id hid
      rcases List.mem_append.mp hid with hid | hid
      · exact h.tokens id hid
      · obtain rfl := List.mem_singleton.mp hid
        exact ((h.kept i).1 id.conn (by rw [hphase]; rfl)).2
    · exact h.tokens
  · dsimp only [after]
    rcases hcase : call.label state with token | id' | _
    · exact h.increasing
    · obtain ⟨i, sequence, hphase, hnext⟩ := hhand id' hcase
      refine List.pairwise_append.mpr ⟨h.increasing, List.pairwise_singleton _ _, ?_⟩
      intro id hid id'' hid'' hconn
      obtain rfl := List.mem_singleton.mp hid''
      have hle : id.generation.value.toNat ≤ sequence.value.toNat :=
        ((h.kept i).2.2 _ _ _ hphase).1 id hid hconn
      have hvalue := Sequence.next_eq_some hnext
      omega
    · exact h.increasing

/-- A transaction that has been handed out and is not current does not become so. -/
theorem Inv.not_leases {id : Transaction n} (h : Inv links ledger)
    (hstep : Step links ledger ledger') (hid : id ∈ ledger.handed)
    (hleases : ¬ledger.state.index.Leases id) : ¬ledger'.state.index.Leases id := by
  cases hstep with
  | @call state call hfresh hpermits hcall =>
  obtain ⟨hinv, hholds⟩ := h.reached.inv
  rintro ⟨access, receiving, hphase, hgeneration⟩
  apply hleases
  rcases State.call_steps hinv hholds hpermits hcall with ⟨-, hsame⟩ | ⟨i, hnext, hother⟩
  · exact ⟨access, receiving, hsame id.conn.index ▸ hphase, hgeneration⟩
  · by_cases hi : id.conn.index = i
    · subst hi
      exact hnext.not_leases (h.kept _) hid hphase hgeneration
    · exact ⟨access, receiving, hother _ hi ▸ hphase, hgeneration⟩

/-- A slot that drains stays so until it closes, and its token is not bound again. -/
def Drained (ledger : Ledger n top φ) (token : Token n) : Prop :=
  token ∈ ledger.tokens ∧ ∀ i, (ledger.state.index.slots i).phase ≠ .handshaking token ∧
    ∀ access receiving, (ledger.state.index.slots i).phase = .ready token access receiving →
      access = .draining

theorem Inv.drained {token : Token n} (h : Inv links ledger) (hstep : Step links ledger ledger')
    (hdrained : ledger.Drained token) : ledger'.Drained token := by
  cases hstep with
  | @call state call hfresh hpermits hcall =>
  obtain ⟨hinv, hholds⟩ := h.reached.inv
  obtain ⟨htoken, hslots⟩ := hdrained
  refine ⟨Label.mem_tokens htoken, fun j => ?_⟩
  rcases State.call_steps hinv hholds hpermits hcall with ⟨-, hsame⟩ | ⟨i, hnext, hother⟩
  · dsimp only [after]
    rw [hsame]
    exact hslots j
  · by_cases hj : j = i
    · subst hj
      have hold := hslots j
      dsimp only [after]
      refine hnext.drained (fun token' hbind heq => ?_) hold
      exact label_fresh _ hfresh token' hbind (heq ▸ htoken)
    · dsimp only [after]
      rw [hother j hj]
      exact hslots j

theorem Inv.run (h : Inv links ledger) (hrun : Run links ledger ledger') : Inv links ledger' := by
  induction hrun with
  | refl => exact h
  | tail _ hstep ih => exact ih.step hstep

/-- A transaction that is handed out and not current stays powerless. -/
theorem Inv.powerless {id : Transaction n} (h : Inv links ledger) (hrun : Run links ledger ledger')
    (hid : id ∈ ledger.handed) (hleases : ¬ledger.state.index.Leases id) :
    Powerless ledger'.state.index id := by
  have hends : id ∈ ledger'.handed ∧ ¬ledger'.state.index.Leases id := by
    induction hrun with
    | refl => exact ⟨hid, hleases⟩
    | tail hrun hstep ih =>
      refine ⟨?_, (h.run hrun).not_leases hstep ih.1 ih.2⟩
      cases hstep with
      | call call _ _ _ => exact Label.mem_handed ih.1
  exact powerless_of_not_leases (h.run hrun).reached.inv.1 hends.2

theorem Inv.drains {token : Token n} (h : Inv links ledger) (hrun : Run links ledger ledger')
    (hdrained : ledger.Drained token) : ledger'.Drained token := by
  induction hrun with
  | refl => exact hdrained
  | tail hrun hstep ih => exact (h.run hrun).drained hstep ih

/-- What is exclusive about the leases of a pool. -/
structure Exclusive (links : Links n) (ledger : Ledger n top φ) : Prop where
  /-- The generations of a connection increase in the order they are handed out. -/
  increasing : ledger.handed.Pairwise fun id id' => id.conn = id'.conn →
    id.generation.value.toNat < id'.generation.value.toNat
  /-- A slot is reserved, held or finalizing for one transaction, which was handed out. -/
  unique : ∀ id id', ledger.state.index.Leases id → ledger.state.index.Leases id' →
    id.conn.index = id'.conn.index → id = id'
  handed : ∀ id, ledger.state.index.Leases id → id ∈ ledger.handed
  /-- A transaction is not current after it is released. -/
  release : ∀ reservation state, ledger.state.hand = .reserved reservation →
    ledger.state.call links .release = some state → ¬state.index.Leases reservation.id
  /-- A transaction is not current after it is finished. -/
  finish : ∀ id depth state, ledger.state.hand = .free →
    (ledger.state.index.slots id.conn.index).current id.conn = .finalizing id →
    ledger.state.call links (.pollReady id.conn .idle depth) = some state →
    ¬state.index.Leases id
  /-- A transaction is not current after its connection is closed. -/
  close : ∀ id cause fate state, ledger.state.hand = .free →
    ledger.state.call links (.close id.conn cause fate) = some state → ¬state.index.Leases id
  /-- A transaction that is no longer current never selects, finalizes, awaits or closes again. -/
  powerless : ∀ id ∈ ledger.handed, ¬ledger.state.index.Leases id →
    ∀ ledger', Run links ledger ledger' → Powerless ledger'.state.index id
  /-- A request without a target is given a connection that is shared. -/
  untargeted : ∀ policy boundary index listed,
    ledger.state.index.pick policy boundary = some (index, some listed) ∨
      ledger.state.index.pickBegin policy = (index, some listed) →
    ∃ bound sequence,
      (ledger.state.index.slots listed.index).phase = .ready bound (.shared sequence) false
  /-- A request with a target is given the target : a connection that is shared, or held for the
  transaction that is the target. -/
  targeted : ∀ token generation source,
    (ledger.state.index.target token generation).2 = some source →
    (∃ rank sequence, source = .shared ⟨token.index, rank⟩ ∧ generation = none ∧
      (ledger.state.index.slots token.index).phase = .ready token (.shared sequence) false) ∨
    ∃ current, source = .exclusive token.index ∧ generation = some current ∧
      (ledger.state.index.slots token.index).phase = .ready token (.held current) false
  /-- A sequence that ends drains its connection, and hands out no transaction. -/
  exhausted : ∀ listed bound sequence state,
    ledger.state.hand = .selected (.shared listed) →
    (ledger.state.index.slots listed.index).phase = .ready bound (.shared sequence) false →
    sequence.value.toNat + 1 = 2 ^ 64 → ledger.state.call links .reserve = some state →
    state.hand = .free ∧ (state.index.slots listed.index).phase = .ready bound .draining false
  /-- A connection that drains hands out no transaction before it is closed. -/
  draining : ∀ i bound receiving,
    (ledger.state.index.slots i).phase = .ready bound .draining receiving →
    ∀ ledger', Run links ledger ledger' → ∀ j access receiving,
      (ledger'.state.index.slots j).phase = .ready bound access receiving → access = .draining

/-- A slot that is shared or closing is current for no transaction. -/
theorem not_leases_of_phase {id : Transaction n} {phase : Lifecycle n φ}
    (index : Index n top φ) (hphase : (index.slots id.conn.index).phase = phase)
    (h : ∀ access receiving, phase = .ready id.conn access receiving → access.generation = none) :
    ¬index.Leases id := by
  rintro ⟨access, receiving, hready, hgeneration⟩
  rw [h access receiving (hphase.symm.trans hready)] at hgeneration
  cases hgeneration

theorem Inv.leased (h : Inv links ledger) : Exclusive links ledger := by
  obtain ⟨hinv, hholds⟩ := h.reached.inv
  refine ⟨h.increasing, fun _ _ => Index.Leases.unique, fun id hid => ?_,
    fun reservation state hhand hcall => ?_,
    fun id depth state hhand hcurrent hcall => ?_, fun id cause fate state hhand hcall => ?_,
    fun id hid hleases ledger' hrun => h.powerless hrun hid hleases,
    fun policy boundary index listed hpick => ?_,
    fun token generation source => Index.target_source hinv,
    fun listed bound sequence state hhand hphase hlast hcall => ?_,
    fun i bound receiving hphase ledger' hrun j access receiving' hready => ?_⟩
  · obtain ⟨access, receiving, hphase, hgeneration⟩ := hid
    exact ((h.kept id.conn.index).2.2 _ _ _ hphase).2 _ hgeneration
  · obtain ⟨i, row, id⟩ := reservation
    rw [hhand] at hholds
    have hphase : (ledger.state.index.slots i).phase =
      .ready id.conn (.reserved id.generation) false := hholds
    obtain ⟨index', hrelease, hmoved⟩ := hinv.release links row hphase
    rw [State.call, hhand] at hcall
    dsimp only at hcall
    rw [hrelease] at hcall
    cases hcall
    obtain rfl : id.conn.index = i := ((h.kept i).1 id.conn (by rw [hphase]; rfl)).1
    refine not_leases_of_phase index' (by rw [hmoved.slots, Function.update_self]) ?_
    intro access receiving heq
    cases heq
    rfl
  · have hphase := Slot.phase_of_current (ledger.state.index.slots id.conn.index)
      id.conn
    rw [hcurrent] at hphase
    obtain ⟨-, receiving, hphase⟩ := hphase
    obtain ⟨index', answer, hready, ⟨-, hne⟩ | ⟨_, _, hother, -⟩ |
      ⟨generation, _, hfinal, hmoved⟩⟩ := hinv.pollReady links id.conn .idle depth
    · exact absurd hphase (hne rfl _ _)
    · rw [hphase] at hother
      cases hother
    · rw [State.call, hready] at hcall
      cases hcall
      refine not_leases_of_phase index' (by rw [hmoved.slots, Function.update_self]) ?_
      intro access receiving heq
      cases heq
      rfl
  · rcases hinv.close id.conn cause fate with
      ⟨index', _, _, _, hclose, -, hmoved⟩ | ⟨hmatches, hclose⟩ <;>
      rw [State.call, hclose] at hcall <;> cases hcall
    · refine not_leases_of_phase index' (by rw [hmoved.slots, Function.update_self]) ?_
      intro access receiving heq
      cases heq
    · rintro ⟨access, receiving, hphase, -⟩
      rw [Slot.matches', hphase] at hmatches
      exact absurd rfl (of_decide_eq_false hmatches)
  · have hpriority : ledger.state.index.priority listed.index = some listed.rank := by
      rcases hpick with hpick | hpick
      · obtain ⟨index', listed', hpick', -, hlisted⟩ :=
          Index.pick_spec hinv.linked.toBucketed policy boundary
        rw [hpick] at hpick'
        cases hpick'
        exact hlisted listed rfl
      · exact (Index.pickWhere_spec hinv.linked.toBucketed policy _).2 listed
          (congrArg Prod.snd hpick)
    exact hinv.phase_of_priority hpriority
  · obtain ⟨i, row⟩ := listed
    rw [hhand] at hholds
    have hrow : ledger.state.index.priority i = some row := hholds
    obtain ⟨bound', sequence', hphase', ⟨next, _, hnext, -⟩ | ⟨index', -, hreserve, hmoved⟩⟩ :=
      hinv.reserve hrow
    all_goals
      rw [hphase] at hphase'
      cases hphase'
    · rw [Sequence.next_eq_none.mpr hlast] at hnext
      cases hnext
    · rw [State.call, hhand] at hcall
      dsimp only at hcall
      rw [hreserve] at hcall
      cases hcall
      refine ⟨rfl, ?_⟩
      dsimp only
      rw [hmoved.slots, Function.update_self]
  · have hbound := (h.kept i).1 bound (by rw [hphase]; rfl)
    have hdrained : ledger.Drained bound :=
      ⟨hbound.2, fun k => ⟨fun hshaking => ?_, fun access receiving hk => ?_⟩⟩
    · exact ((h.drains hrun hdrained).2 j).2 access receiving' hready
    · obtain rfl : k = i := ((h.kept k).1 bound (by rw [hshaking]; rfl)).1.symm.trans hbound.1
      rw [hphase] at hshaking
      cases hshaking
    · obtain rfl : k = i := ((h.kept k).1 bound (by rw [hk]; rfl)).1.symm.trans hbound.1
      rw [hphase] at hk
      cases hk
      rfl

/-- The leases of a pool are exclusive in every run. -/
theorem Run.exclusive (h : Run links (Ledger.new : Ledger n top φ) ledger) :
    Exclusive links ledger :=
  (Inv.new.run h).leased

/-- A connection that is reserved for a first transaction. -/
theorem Run.exclusive_reserved : ∃ ledger : Ledger 1 0 Unit,
    Run (.front 1) Ledger.new ledger ∧ ledger.handed.length = 1 ∧
      Exclusive (.front 1) ledger := by
  have hnobind : ∀ (call : Call 1 Unit) (tokens : List (Token 1)),
      (∀ token, call ≠ .bind token) → ∀ token, call = .bind token → token ∉ tokens :=
    fun _ _ h token heq => absurd heq (h token)
  have hnew : Run (.front 1) (Ledger.new : Ledger 1 0 Unit) Ledger.new := .refl
  have hbind := hnew.tail
    (.call (.bind (.zero 0)) (fun _ _ h => (by cases h)) rfl rfl)
  have hready := hbind.tail
    (.call (.tryReady (.zero 0)) (hnobind _ _ fun _ h => (by cases h)) rfl rfl)
  have hpick := hready.tail
    (.call (.pickBegin .roundRobin) (hnobind _ _ fun _ h => (by cases h)) rfl rfl)
  have hreserve := hpick.tail (.call .reserve (hnobind _ _ fun _ h => (by cases h)) rfl rfl)
  exact ⟨_, hreserve, rfl, Run.exclusive hreserve⟩

end Ledger

end Cartel.Pg.Pool
