import Cartel.Lib.Fifo
import Mathlib.Data.Finset.Card
import Mathlib.Data.Fintype.Basic
import Mathlib.Data.PNat.Basic
import Mathlib.Logic.Function.Basic

/-!
# Routes of the scheduler

The slots of the connections, with the phase of each, the idle and the released FIFO, and
the count of active connections. A connection is known by its `Token`, the slot and the
generation bound to it. An order of a reply lane is known by its number, and a cutoff is
the order it names, if there was one.
-/

namespace Cartel.Redis.Scheduler

open Cartel.Lib

/-- `conn::Id`. -/
structure Token (n : ℕ) where
  index : Fin n
  epoch : ℕ
  deriving DecidableEq

/-- An order of a reply lane. -/
abbrev Order :=
  ℕ

/-- `order::Cutoff`. `none` is `Cutoff::EMPTY`. -/
abbrev Cutoff :=
  Option Order

/-- The two cutoffs of a phase : of the frame being received, and of the last receipt. -/
structure Frontier where
  first : Cutoff
  last : Cutoff
  deriving DecidableEq

/-- `order::Front`. -/
inductive Front where
  | empty
  | opened
  | detached
  | denied
  deriving DecidableEq

/-- `close::Reason`. -/
inductive Reason where
  | remote
  | transport
  | protocol
  | timeout
  | capacity
  | localOrigin
  deriving DecidableEq

/-- `protocol::Error`. -/
inductive Fault where
  | number
  | length
  | marker
  | depth
  | terminator
  | values
  | unparsed
  | truncated
  deriving DecidableEq

/-- `client::Failure`. -/
inductive Failure where
  | input
  | closed (reason : Reason)
  | receive
  | transmit
  | timeout
  | requestTimeout
  | protocol (error : Fault)
  | handshake
  | unexpectedResponse
  | responseCapacity
  | responseFront (front : Front)
  | request
  | requestEgress
  | requestReserve
  | responseFrameCapacity
  | responseRetention
  | responseValueCapacity
  deriving DecidableEq

/-- `Failure::from_close`. -/
def Failure.fromClose : Reason → Failure
  | .timeout => .timeout
  | reason => .closed reason

/-- `routes::State`. -/
inductive State (n : ℕ) where
  | vacant
  | initializing (bound : Token n)
  | shared (bound : Token n) (frontier : Frontier)
  | exclusive (bound : Token n) (frontier : Frontier)
  | closing (bound : Token n) (failure : Failure)
  | reconnecting (bound : Token n) (failure : Failure)
  deriving DecidableEq

/-- `routes::Access`. -/
inductive Access where
  | shared
  | exclusive
  deriving DecidableEq

variable {n : ℕ}

namespace State

/-- `State::bound`. -/
def bound : State n → Option (Token n)
  | vacant => none
  | initializing bound => some bound
  | shared bound _ => some bound
  | exclusive bound _ => some bound
  | closing bound _ => some bound
  | reconnecting bound _ => some bound

/-- The frontier `Conn::bound` copies. -/
def frontier : State n → Option Frontier
  | shared _ frontier => some frontier
  | exclusive _ frontier => some frontier
  | _ => none

/-- `Conn::bind`. -/
def bind (position : Token n) : State n → Option (State n)
  | vacant => some (initializing position)
  | _ => none

/-- `Conn::mark_ready`. -/
def markReady (token : Token n) : State n → Option (State n)
  | initializing bound => if bound = token then some (shared bound ⟨none, none⟩) else none
  | _ => none

/-- `Conn::access`. -/
def access : State n → Option (Token n × Access)
  | shared bound _ => some (bound, .shared)
  | exclusive bound _ => some (bound, .exclusive)
  | _ => none

/-- The phase `Conn::with_frontier` leaves. -/
def withFrontier (token : Token n) (apply : Frontier → Frontier) : State n → State n
  | shared bound frontier => shared bound (if bound = token then apply frontier else frontier)
  | exclusive bound frontier =>
    exclusive bound (if bound = token then apply frontier else frontier)
  | phase => phase

/-- `Conn::acquire`. -/
def acquire (token : Token n) : State n → Option (State n)
  | shared bound frontier => if bound = token then some (exclusive bound frontier) else none
  | _ => none

/-- `Conn::release`. -/
def release (token : Token n) : State n → Option (State n)
  | exclusive bound frontier => if bound = token then some (shared bound frontier) else none
  | _ => none

/-- `Conn::failure`. -/
def failure (token : Token n) : State n → Option Failure
  | closing bound failure => if bound = token then some failure else none
  | reconnecting bound failure => if bound = token then some failure else none
  | _ => none

/-- `Conn::retry_reason`, without the reason. -/
def retries (token : Token n) : State n → Bool
  | reconnecting bound _ => bound = token
  | _ => false

/-- A failure that refines a remote close. -/
def refines : Failure → Bool
  | .protocol .truncated => true
  | .protocol .unparsed => true
  | .responseFrameCapacity => true
  | _ => false

/-- The phase `Routes::fail` leaves. -/
def fail (token : Token n) (err : Failure) : State n → Option (State n)
  | closing bound failure =>
    if bound = token ∧ failure = .closed .remote ∧ refines err = true then
      some (closing bound err)
    else none
  | initializing bound => if bound = token then some (closing bound err) else none
  | shared bound _ => if bound = token then some (closing bound err) else none
  | exclusive bound _ => if bound = token then some (closing bound err) else none
  | _ => none

/-- The phase `Routes::reconnect` leaves. -/
def reconnect (token : Token n) (err : Failure) : State n → Option (State n)
  | shared bound _ => if bound = token then some (reconnecting bound err) else none
  | exclusive bound _ => if bound = token then some (reconnecting bound err) else none
  | _ => none

/-- A connection the routes own, counted by `Routes::active`. -/
def Owned : State n → Prop
  | shared _ _ => True
  | exclusive _ _ => True
  | _ => False

instance : DecidablePred (Owned : State n → Prop)
  | shared _ _ | exclusive _ _ => .isTrue trivial
  | vacant | initializing _ | closing _ _ | reconnecting _ _ => .isFalse not_false

/-- `1` if the routes own the connection. -/
def weight (phase : State n) : ℕ :=
  if phase.Owned then 1 else 0

/-- A phase before the connection is ready. -/
def Unused : State n → Prop
  | vacant => True
  | initializing _ => True
  | _ => False

/-! ### What the transitions change -/

variable {phase phase' : State n} {token : Token n}

theorem owned_iff : phase.Owned ↔ ∃ access, phase.access = some access := by
  cases phase <;> simp [Owned, access]

theorem weight_of_access {access : Token n × Access} (h : phase.access = some access) :
    phase.weight = 1 :=
  if_pos (owned_iff.mpr ⟨access, h⟩)

theorem weight_of_none (h : phase.access = none) : phase.weight = 0 :=
  if_neg fun howned => by
    obtain ⟨access, haccess⟩ := owned_iff.mp howned
    rw [h] at haccess
    cases haccess

theorem bound_of_access {kind : Access} (h : phase.access = some (token, kind)) :
    phase.bound = some token := by
  cases phase <;> simp_all [access, bound]

theorem bind_eq_some : phase.bind token = some phase' ↔
    phase = vacant ∧ phase' = initializing token := by
  cases phase <;> simp [bind, eq_comm]

theorem markReady_eq_some : phase.markReady token = some phase' ↔
    phase = initializing token ∧ phase' = shared token ⟨none, none⟩ := by
  cases phase with
  | initializing bound =>
    by_cases hb : bound = token
    · subst hb
      simp [markReady, eq_comm]
    · simp [markReady, hb]
  | _ => simp [markReady]

theorem acquire_eq_some : phase.acquire token = some phase' ↔
    ∃ frontier, phase = shared token frontier ∧ phase' = exclusive token frontier := by
  cases phase with
  | shared bound frontier =>
    by_cases hb : bound = token
    · subst hb
      simp [acquire, eq_comm]
    · simp [acquire, hb]
  | _ => simp [acquire]

theorem release_eq_some : phase.release token = some phase' ↔
    ∃ frontier, phase = exclusive token frontier ∧ phase' = shared token frontier := by
  cases phase with
  | exclusive bound frontier =>
    by_cases hb : bound = token
    · subst hb
      simp [release, eq_comm]
    · simp [release, hb]
  | _ => simp [release]

/-- A failing connection has failed, or was bound and before it. -/
theorem fail_eq_some {err : Failure} (h : phase.fail token err = some phase') :
    phase.bound = some token ∧ phase' = closing token err := by
  cases phase <;> simp [fail] at h <;> simp [bound, ← h]

theorem reconnect_eq_some {err : Failure} (h : phase.reconnect token err = some phase') :
    phase.bound = some token ∧ (∃ kind, phase.access = some (token, kind)) ∧
      phase' = reconnecting token err := by
  cases phase <;> simp [reconnect] at h <;> simp [bound, access, ← h]

/-- A connection with a failure is bound, and neither owned nor unused. -/
theorem failure_ne_none (h : phase.failure token ≠ none) :
    phase.bound = some token ∧ phase.access = none ∧ ¬phase.Unused := by
  cases phase <;> simp_all [failure, bound, access, Unused]

variable {apply : Frontier → Frontier}

@[simp] theorem access_withFrontier : (phase.withFrontier token apply).access = phase.access := by
  cases phase <;> rfl

@[simp] theorem bound_withFrontier : (phase.withFrontier token apply).bound = phase.bound := by
  cases phase <;> rfl

theorem unused_withFrontier : (phase.withFrontier token apply).Unused ↔ phase.Unused := by
  cases phase <;> rfl

end State

/-- The two FIFOs of the slots, `0` and `1` in the source. -/
inductive Queue where
  | idle
  | released
  deriving DecidableEq

/-- `routes::Routes`. -/
structure Routes (n : ℕ) where
  conns : Fin n → State n
  queues : Queue → List (Token n)
  next : ℕ
  active : ℕ

namespace Routes

/-- `Routes::try_new`. -/
def new : Routes n :=
  ⟨fun _ => .vacant, fun _ => [], 0, 0⟩

variable (r : Routes n)

/-- A slot set to a phase. -/
def set (index : Fin n) (phase : State n) : Routes n :=
  { r with conns := Function.update r.conns index phase }

/-- `Routes::next` : the slot at the cursor, which moves on. -/
def advance : Option (Fin n × Routes n) :=
  if h : r.next < n then
    some (⟨r.next, h⟩, { r with next := if r.next + 1 = n then 0 else r.next + 1 })
  else none

/-- `Routes::is_active`. -/
def isActive : Bool :=
  r.active ≠ 0

/-- `Routes::mark_ready`. -/
def markReady (token : Token n) : Option (Routes n) :=
  match (r.conns token.index).markReady token with
  | none => none
  | some phase => some { r.set token.index phase with active := (r.active + 1) % 2 ^ 64 }

/-- `wrapping_sub(1)` of the count. -/
def retract : Routes n :=
  { r with active := (r.active + (2 ^ 64 - 1)) % 2 ^ 64 }

/-- `Routes::fail`. -/
def fail (token : Token n) (err : Failure) : Option (Routes n) :=
  match (r.conns token.index).fail token err with
  | none => none
  | some phase =>
    if (r.conns token.index).Owned then some (r.set token.index phase).retract
    else some (r.set token.index phase)

/-- `Routes::reconnect`. -/
def reconnect (token : Token n) (err : Failure) : Option (Routes n) :=
  match (r.conns token.index).reconnect token err with
  | none => none
  | some phase => some (r.set token.index phase).retract

/-- `Routes::retire`. -/
def retire (token : Token n) : Routes n :=
  r.set token.index .vacant

/-- `Routes::bound` : the frontier of the connection bound to a token. -/
def bound (token : Token n) : Option (Option Frontier) :=
  if (r.conns token.index).bound = some token then some (r.conns token.index).frontier else none

/-- `Routes::exclusive`. -/
def exclusive (token : Token n) : Bool :=
  (r.conns token.index).access = some (token, .exclusive)

/-- `Routes::failure`. -/
def failure (token : Token n) : Option Failure :=
  (r.conns token.index).failure token

/-- `Routes::pop`. -/
def pop (queue : Queue) : Option (Token n × Routes n) :=
  match r.queues queue with
  | [] => none
  | position :: rest => some (position, { r with queues := Function.update r.queues queue rest })

/-- `Routes::front`. -/
def front (queue : Queue) : Option (Token n) :=
  (r.queues queue).head?

/-- `Slot::schedule`. -/
def schedule (queue : Queue) (target : Token n) : Routes n :=
  if Fifo.get Token.index (r.queues queue) target.index = some target then r
  else { r with queues := Function.update r.queues queue (r.queues queue ++ [target]) }

/-- `Slot::unlink`. -/
def unlink (queue : Queue) (target : Token n) : Routes n :=
  if Fifo.get Token.index (r.queues queue) target.index = some target then
    { r with queues :=
        Function.update r.queues queue (Fifo.clear Token.index (r.queues queue) target.index) }
  else r

/-- A failed connection is closing, and no longer counted. -/
theorem fail_eq_some {token : Token n} {err : Failure} {r r' : Routes n}
    (h : r.fail token err = some r') :
    (r.conns token.index).bound = some token ∧
      r' = { r.set token.index (.closing token err) with
        active := if (r.conns token.index).Owned then (r.active + (2 ^ 64 - 1)) % 2 ^ 64
          else r.active } := by
  unfold fail at h
  split at h
  · cases h
  · next phase hphase =>
    obtain ⟨hbound, rfl⟩ := State.fail_eq_some hphase
    refine ⟨hbound, ?_⟩
    split_ifs at h ⊢
    · exact (Option.some.inj h).symm
    · exact (Option.some.inj h).symm

/-- A reconnecting connection was counted, and no longer is. -/
theorem reconnect_eq_some {token : Token n} {err : Failure} {r r' : Routes n}
    (h : r.reconnect token err = some r') :
    (r.conns token.index).bound = some token ∧ (r.conns token.index).Owned ∧
      r' = { r.set token.index (.reconnecting token err) with
        active := (r.active + (2 ^ 64 - 1)) % 2 ^ 64 } := by
  unfold reconnect at h
  split at h
  · cases h
  · next phase hphase =>
    obtain ⟨hbound, ⟨kind, haccess⟩, rfl⟩ := State.reconnect_eq_some hphase
    exact ⟨hbound, State.owned_iff.mpr ⟨_, haccess⟩, (Option.some.inj h).symm⟩

/-! ### The queues -/

variable {r} {queue q : Queue} {target token : Token n}

@[simp] theorem conns_schedule : (r.schedule queue target).conns = r.conns := by
  unfold schedule
  split_ifs <;> rfl

@[simp] theorem active_schedule : (r.schedule queue target).active = r.active := by
  unfold schedule
  split_ifs <;> rfl

@[simp] theorem conns_unlink : (r.unlink queue target).conns = r.conns := by
  unfold unlink
  split_ifs <;> rfl

@[simp] theorem active_unlink : (r.unlink queue target).active = r.active := by
  unfold unlink
  split_ifs <;> rfl

/-- No queue has two connections of a slot. -/
def Unique (r : Routes n) : Prop :=
  ∀ queue, Fifo.Unique Token.index (r.queues queue)

theorem mem_schedule :
    token ∈ (r.schedule queue target).queues q ↔
      token ∈ r.queues q ∨ (q = queue ∧ token = target) := by
  unfold schedule
  split_ifs with hget
  · have hmem := (Fifo.get_some hget).1
    constructor
    · exact Or.inl
    · rintro (h | ⟨rfl, rfl⟩)
      · exact h
      · exact hmem
  · by_cases hq : q = queue
    · subst hq
      simp
    · simp [Function.update_of_ne hq, hq]

theorem Unique.schedule (h : r.Unique)
    (htarget : ∀ token ∈ r.queues queue, token.index = target.index → token = target) :
    (r.schedule queue target).Unique := by
  intro q
  unfold Routes.schedule
  split_ifs with hget
  · exact h q
  · by_cases hq : q = queue
    · subst hq
      simp only [Function.update_self]
      refine (h q).push fun token hmem hindex => hget ?_
      exact (h q).get_eq_some.mpr ⟨htarget token hmem hindex ▸ hmem, rfl⟩
    · simp only [Function.update_of_ne hq]
      exact h q

theorem Unique.mem_unlink (h : r.Unique) :
    token ∈ (r.unlink queue target).queues q ↔
      token ∈ r.queues q ∧ ¬(q = queue ∧ token = target) := by
  unfold Routes.unlink
  split_ifs with hget
  · by_cases hq : q = queue
    · subst hq
      simp only [Function.update_self, Fifo.mem_clear, true_and]
      refine and_congr_right fun hmem => not_congr ⟨fun hindex => ?_, fun heq => heq ▸ rfl⟩
      exact (h q).eq hmem (Fifo.get_some hget).1 hindex
    · simp [Function.update_of_ne hq, hq]
  · refine ⟨fun hmem => ⟨hmem, ?_⟩, And.left⟩
    rintro ⟨rfl, rfl⟩
    exact hget ((h q).get_eq_some.mpr ⟨hmem, rfl⟩)

theorem Unique.unlink (h : r.Unique) : (r.unlink queue target).Unique := by
  intro q
  unfold Routes.unlink
  split_ifs
  · by_cases hq : q = queue
    · subst hq
      simp only [Function.update_self]
      exact (h q).clear _
    · simp only [Function.update_of_ne hq]
      exact h q
  · exact h q

/-- A popped connection was the only one of its slot. -/
theorem Unique.pop (h : r.Unique) {r' : Routes n} (hpop : r.pop queue = some (target, r')) :
    r'.Unique ∧ target ∈ r.queues queue ∧ r'.conns = r.conns ∧ r'.active = r.active ∧
      ∀ q token, token ∈ r'.queues q ↔ token ∈ r.queues q ∧ ¬(q = queue ∧ token = target) := by
  unfold Routes.pop at hpop
  split at hpop
  · cases hpop
  · next position rest hqueue =>
    obtain ⟨rfl, rfl⟩ := Prod.mk.inj (Option.some.inj hpop)
    have hunique := h queue
    rw [hqueue] at hunique
    refine ⟨fun q => ?_, by rw [hqueue]; exact List.mem_cons_self, rfl, rfl, fun q token => ?_⟩
    · by_cases hq : q = queue
      · subst hq
        simp only [Function.update_self]
        exact hunique.tail
      · simp only [Function.update_of_ne hq]
        exact h q
    · by_cases hq : q = queue
      · subst hq
        simp only [Function.update_self, hqueue, List.mem_cons, true_and]
        constructor
        · intro hmem
          exact ⟨Or.inr hmem, fun heq => hunique.front hmem (congrArg Token.index heq)⟩
        · rintro ⟨rfl | hmem, hne⟩
          · exact absurd rfl hne
          · exact hmem
      · simp [Function.update_of_ne hq, hq]

end Routes

end Cartel.Redis.Scheduler
