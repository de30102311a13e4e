import Cartel.Pool.Invariant

/-!
# Loads

A pool with the depths of its reply lanes : the orders of each connection that are not yet
settled. The load of a connection is its orders and its barriers. With `K` shared credits a
lane has one order of its own, and the others are shared, and a barrier stands behind an order
except for the one of the current batch (`Fits`). While that holds the ranks are current : the
least bucket holds a connection of least load.
-/

namespace Cartel.Pg.Pool

open Cartel.Lib

variable {n top K : ℕ} {φ : Type}
variable {links : Links n} {index index' : Index n top φ} {i j : Fin n} {row : Fin (top + 1)}
variable {depth depth' : Fin n → ℕ}

/-- `Plan::new`, as far as the number of its buckets. -/
def Plan.buckets (capacity orderLimit : ℕ) : ℕ :=
  if capacity = 1 then 1 else orderLimit + 3

/-- A pool, and the depths of its reply lanes. -/
structure Traffic (n top : ℕ) (φ : Type) where
  pool : State n top φ
  depth : Fin n → ℕ

/-- `Port::load`, of a connection. -/
def Traffic.load (traffic : Traffic n top φ) (i : Fin n) : ℕ :=
  traffic.depth i + (traffic.pool.index.slots i).barriers

/-- One order of its own for each lane, `K` shared ones in all, and at most one barrier more
than orders. -/
def Traffic.Fits (K : ℕ) (traffic : Traffic n top φ) : Prop :=
  ∑ i, (traffic.depth i - 1) ≤ K ∧
    ∀ i, (traffic.pool.index.slots i).barriers ≤ traffic.depth i + 1

/-- The connection in hand. -/
def Hand.connection : Hand n top → Option (Fin n)
  | .free => none
  | .selected (.shared listed) => some listed.index
  | .selected (.exclusive i) => some i
  | .reserved reservation => some reservation.index

/-- Whether a call leaves the lanes as they are, with the depths it is told. A connection is
retired when it is fenced, with no load. -/
def Call.Quiet (traffic : Traffic n top φ) : Call n φ → Prop
  | .publish boundary _ => ∃ i error, traffic.pool.hand.connection = some i ∧
    (traffic.pool.index.slots i).tryReply boundary = .error error
  | .setReceiving token _ depth => depth = traffic.depth token.index
  | .tryRetire token => traffic.depth token.index = 0
  | .settle _ | .pollReady _ _ _ | .reindex _ _ => False
  | _ => True

/-- What happens to a pool and its lanes. -/
inductive Traffic.Step (links : Links n) : Traffic n top φ → Traffic n top φ → Prop where
  /-- A call that changes no lane. -/
  | call {traffic : Traffic n top φ} {pool : State n top φ} (call : Call n φ) :
    call.Quiet traffic → traffic.pool.hand.permits call = true →
    traffic.pool.call links call = some pool → Step links traffic ⟨pool, traffic.depth⟩
  /-- `Access::try_with` : the lane takes an order. -/
  | publish {traffic : Traffic n top φ} {pool : State n top φ} (boundary : Boundary) (i : Fin n)
    (permit : Permit) : traffic.pool.hand.connection = some i →
    (traffic.pool.index.slots i).tryReply boundary = .ok permit →
    traffic.pool.call links (.publish boundary (traffic.depth i + 1)) = some pool →
    Step links traffic ⟨pool, Function.update traffic.depth i (traffic.depth i + 1)⟩
  /-- `Lane::complete`, `Lane::fail_one` and `Lane::try_fail` : an order may leave its lane. -/
  | reply {traffic : Traffic n top φ} {pool : State n top φ} (token : Token n) (depth : ℕ) :
    traffic.pool.hand = .free →
    (traffic.pool.index.slots token.index).matches' token = true →
    depth ≤ traffic.depth token.index →
    traffic.pool.call links (.reindex token depth) = some pool →
    Step links traffic ⟨pool, Function.update traffic.depth token.index depth⟩
  /-- `Turn::try_settle` of a Sync that is owed. -/
  | settle {traffic : Traffic n top φ} {settled reindexed pool : State n top φ} (token : Token n)
    (status : Status) (depth : ℕ) : traffic.pool.hand = .free →
    (traffic.pool.index.slots token.index).matches' token = true →
    depth ≤ traffic.depth token.index →
    ((traffic.pool.index.slots token.index).settle token).2 = .applied →
    traffic.pool.call links (.settle token) = some settled →
    settled.call links (.reindex token depth) = some reindexed →
    reindexed.call links (.pollReady token status
      (depth + (reindexed.index.slots token.index).barriers)) = some pool →
    Step links traffic ⟨pool, Function.update traffic.depth token.index depth⟩
  /-- `Turn::try_settle` of one that is not : the turn fails. -/
  | unsettled {traffic : Traffic n top φ} {pool : State n top φ} (token : Token n) (depth : ℕ)
    (cause : φ) (fate : Disposition) : traffic.pool.hand = .free →
    (traffic.pool.index.slots token.index).matches' token = true →
    depth ≤ traffic.depth token.index →
    traffic.pool.call links (.close token cause fate) = some pool →
    Step links traffic ⟨pool, Function.update traffic.depth token.index depth⟩
  /-- `Lane::fail` : a lane of a connection that closes is cleared. -/
  | fail {traffic : Traffic n top φ} (token : Token n) (failure : φ) (fate : Disposition)
    (depth : ℕ) :
    (traffic.pool.index.slots token.index).phase = .closing token failure fate →
    depth ≤ traffic.depth token.index →
    Step links traffic ⟨traffic.pool, Function.update traffic.depth token.index depth⟩

/-- The pools and lanes that are reached with `K` shared credits. -/
inductive Traffic.Reached (K : ℕ) (links : Links n) : Traffic n top φ → Prop where
  | new : Reached K links ⟨.new, fun _ => 0⟩
  | step {traffic traffic' : Traffic n top φ} : Reached K links traffic →
    Step links traffic traffic' → traffic'.Fits K → Reached K links traffic'

/-! ## Ranks -/

/-- A slot that is not ready has no barriers, and no orders before it closes. -/
def Slot.Rests (slot : Slot n φ) (depth : ℕ) : Prop :=
  match slot.phase with
  | .vacant | .handshaking _ => depth = 0 ∧ slot.barriers = 0
  | .closing _ _ _ => slot.barriers = 0
  | .ready _ _ _ => True

/-- The rank of an entry is of its load. -/
def RankedAt (index : Index n top φ) (depth : Fin n → ℕ) (i : Fin n) : Prop :=
  (∀ row, index.priority i = some row → row = clamp top (depth i + (index.slots i).barriers)) ∧
    (index.slots i).Rests (depth i)

/-- The rank in hand is of the load in hand. -/
def RankedHand (index : Index n top φ) (depth : Fin n → ℕ) : Hand n top → Prop
  | .reserved reservation => reservation.rank =
    clamp top (depth reservation.index + (index.slots reservation.index).barriers)
  | _ => True

theorem RankedAt.other {slot : Slot n φ} {p : Option (Fin (top + 1))}
    (h : RankedAt index depth j) (hmoved : Moved index i slot p index') (hj : j ≠ i)
    (hdepth : depth' j = depth j) : RankedAt index' depth' j := by
  unfold RankedAt
  rw [hmoved.priority, hmoved.slots, Function.update_of_ne hj, Function.update_of_ne hj, hdepth]
  exact h

theorem RankedAt.own {slot : Slot n φ} {p : Option (Fin (top + 1))}
    (hmoved : Moved index i slot p index')
    (hp : ∀ row, p = some row → row = clamp top (depth' i + slot.barriers))
    (hrests : slot.Rests (depth' i)) : RankedAt index' depth' i := by
  unfold RankedAt
  rw [hmoved.priority, hmoved.slots, Function.update_self, Function.update_self]
  exact ⟨hp, hrests⟩

/-- One slot that moves, with a rank of its load, or none. -/
theorem RankedAt.moved {slot : Slot n φ} {p : Option (Fin (top + 1))}
    (h : ∀ j, RankedAt index depth j) (hmoved : Moved index i slot p index')
    (hp : ∀ row, p = some row → row = clamp top (depth' i + slot.barriers))
    (hrests : slot.Rests (depth' i)) (hdepth : ∀ j, j ≠ i → depth' j = depth j) (j : Fin n) :
    RankedAt index' depth' j := by
  by_cases hj : j = i
  · subst hj
    exact RankedAt.own hmoved hp hrests
  · exact (h j).other hmoved hj (hdepth j hj)

theorem RankedAt.turned (h : RankedAt index depth i) (hturned : Turned index index') :
    RankedAt index' depth i := by
  obtain ⟨ring, -, rfl⟩ := hturned
  exact h

/-! ## Barriers -/

theorem Slot.barriers_congr {slot slot' : Slot n φ} (hsync : slot'.sync = slot.sync)
    (hpending : slot'.pending = slot.pending) : slot'.barriers = slot.barriers := by
  rw [barriers, barriers, isSynced, isSynced, hsync, hpending]

/-- A Sync that is sent for what is open replaces the open barrier. -/
theorem Permit.commit_barriers {slot : Slot n φ} (hsync : slot.sync ≠ .synced) :
    ((slot.permit .synced .close).commit slot).1.barriers = slot.barriers := by
  simp [Permit.commit, Slot.permit, Slot.barriers, Slot.isSynced, hsync]

theorem Slot.tryFinish_barriers {slot : Slot n φ} {permit : Permit}
    (h : slot.tryFinish = .ok permit) : (permit.commit slot).1.barriers = slot.barriers := by
  unfold tryFinish at h
  split at h
  · next depth hsync =>
    cases h
    exact Permit.commit_barriers (by rw [hsync]; exact fun h => by cases h)
  · cases h
  · cases h

theorem Slot.flush_barriers {slot : Slot n φ} {token : Token n} {permit : Permit}
    (h : slot.flush token = some permit) : (permit.commit slot).1.barriers = slot.barriers := by
  unfold flush at h
  split at h
  · next bound access receiving depth hphase hsync =>
    split_ifs at h
    cases h
    exact Permit.commit_barriers (by rw [hsync]; exact fun h => by cases h)
  · cases h

/-! ## Steps -/

/-- The ranks of a pool, and what is in hand, are current. -/
structure Traffic.Current (traffic : Traffic n top φ) : Prop where
  inv : Inv traffic.pool.index
  holds : Holds traffic.pool.index traffic.pool.hand
  ranked : ∀ i, RankedAt traffic.pool.index traffic.depth i
  hand : RankedHand traffic.pool.index traffic.depth traffic.pool.hand

theorem RankedHand.select {listed : Option (Listed n top)} :
    RankedHand index depth (.select (listed.map .shared)) := by
  cases listed <;> trivial

/-- A slot that is ready rests. -/
theorem Slot.Rests.ready {slot : Slot n φ} {bound : Token n} {access : Access} {receiving : Bool}
    {load : ℕ} (h : slot.phase = .ready bound access receiving) : slot.Rests load := by
  rw [Rests, h]
  trivial

theorem Slot.Rests.congr {slot slot' : Slot n φ} {load : ℕ} (h : slot.Rests load)
    (hphase : slot'.phase = slot.phase) (hbarriers : slot'.barriers = slot.barriers) :
    slot'.Rests load := by
  unfold Rests at h ⊢
  rw [hphase, hbarriers]
  exact h

/-- A slot in another state of the same load, whose entry stays as it is. -/
theorem RankedAt.same {slot : Slot n φ} (h : ∀ j, RankedAt index depth j)
    (hmoved : Moved index i slot (index.priority i) index')
    (hphase : slot.phase = (index.slots i).phase)
    (hbarriers : slot.barriers = (index.slots i).barriers) (j : Fin n) :
    RankedAt index' depth j :=
  RankedAt.moved h hmoved (by rw [hbarriers]; exact (h i).1) ((h i).2.congr hphase hbarriers)
    (fun _ _ => rfl) j

/-- The calls with nothing in hand that change no lane. -/
theorem Traffic.Current.call_free {traffic : Traffic n top φ} {pool : State n top φ}
    {call : Call n φ} (h : traffic.Current) (hfree : traffic.pool.hand = .free)
    (hquiet : call.Quiet traffic) (hpermits : traffic.pool.hand.permits call = true)
    (hcall : traffic.pool.call links call = some pool) :
    (∀ i, RankedAt pool.index traffic.depth i) ∧
      RankedHand pool.index traffic.depth pool.hand := by
  obtain ⟨⟨index, hand⟩, depth⟩ := traffic
  obtain ⟨hinv, -, hranked, -⟩ := h
  dsimp only at hfree hinv hranked hquiet hcall ⊢
  subst hfree
  cases call with
  | drop | reserve | release | publish => cases hpermits
  | settle | pollReady | reindex => cases hquiet
  | bind token =>
    cases hcall
    refine ⟨RankedAt.moved hranked hinv.bind ?_ ?_ fun _ _ => rfl, trivial⟩
    · rcases Slot.bind_cases (index.slots token.index) token with
        ⟨-, hbind⟩ | hbind <;> rw [hbind] <;> exact (hranked token.index).1
    · have hrests := (hranked token.index).2
      rcases Slot.bind_cases (index.slots token.index) token with
        ⟨hphase, hbind⟩ | hbind <;> rw [hbind]
      · unfold Slot.Rests at hrests ⊢
        rw [hphase] at hrests
        exact hrests
      · exact hrests
  | tryReady token =>
    rcases hinv.tryReady links token with
      ⟨index', hready, hphase, hmoved⟩ | hready <;> rw [State.call, hready] at hcall <;> cases hcall
    · have hrests := (hranked token.index).2
      rw [Slot.Rests, hphase] at hrests
      refine ⟨RankedAt.moved hranked hmoved (fun row hrow => ?_) (Slot.Rests.ready rfl)
        fun _ _ => rfl, trivial⟩
      cases hrow
      congr 1
      exact (Nat.add_eq_zero_iff.mpr hrests).symm
    · exact ⟨hranked, trivial⟩
  | target token generation =>
    cases hcall
    refine ⟨hranked, ?_⟩
    dsimp only
    rcases (index.target token generation).2 with _ | _ | _ <;> trivial
  | pick policy boundary =>
    obtain ⟨index', listed, hpick, hturned, -⟩ :=
      Index.pick_spec hinv.linked.toBucketed policy boundary
    rw [State.call, hpick] at hcall
    cases hcall
    exact ⟨fun i => (hranked i).turned hturned, RankedHand.select⟩
  | pickBegin policy =>
    cases hcall
    exact ⟨fun i => (hranked i).turned
      (Index.pickWhere_spec hinv.linked.toBucketed policy Slot.canBegin).1, RankedHand.select⟩
  | tryFinish token =>
    cases hcall
    refine ⟨?_, trivial⟩
    dsimp only [Index.tryFinish]
    split_ifs
    · split
      · exact hranked
      · next permit hpermit =>
        exact RankedAt.same hranked (hinv.commit _ permit) (permit.commit_phase _)
          (Slot.tryFinish_barriers hpermit)
    · exact hranked
  | flush token =>
    cases hcall
    refine ⟨?_, trivial⟩
    dsimp only [Index.flush]
    split
    · exact hranked
    · next permit hpermit =>
      exact RankedAt.same hranked (hinv.commit _ permit) (permit.commit_phase _)
        (Slot.flush_barriers hpermit)
  | finalize id =>
    obtain ⟨index', state, hfinalize, ⟨heq, -⟩ | ⟨receiving, -, -, hmoved⟩⟩ :=
      hinv.finalize id <;> rw [State.call, hfinalize] at hcall <;> cases hcall
    · exact ⟨heq ▸ hranked, trivial⟩
    · exact ⟨RankedAt.moved hranked hmoved (fun row hrow => by cases hrow) (Slot.Rests.ready rfl)
        fun _ _ => rfl, trivial⟩
  | close token cause fate =>
    rcases hinv.close token cause fate with
      ⟨index', _, _, _, hclose, -, hmoved⟩ | ⟨-, hclose⟩ <;>
        rw [State.call, hclose] at hcall <;> cases hcall
    · exact ⟨RankedAt.moved hranked hmoved (fun row hrow => by cases hrow) rfl fun _ _ => rfl,
        trivial⟩
    · exact ⟨hranked, trivial⟩
  | setReceiving token receiving depth' =>
    obtain ⟨index', waited, hset, heq | ⟨access, p, -, hp, hmoved⟩⟩ :=
      hinv.setReceiving links token receiving depth' <;> rw [State.call, hset] at hcall <;>
      cases hcall
    · exact ⟨heq ▸ hranked, trivial⟩
    · refine ⟨RankedAt.moved hranked hmoved (fun row hrow => ?_) (Slot.Rests.ready rfl)
        fun _ _ => rfl, trivial⟩
      rcases hp with rfl | rfl
      · cases hrow
      · obtain rfl : depth' = depth token.index := hquiet
        exact (Option.some.inj hrow).symm
  | tryRetire token =>
    cases hcall
    refine ⟨?_, trivial⟩
    rcases hinv.tryRetire token with heq | ⟨_, _, hphase, hmoved⟩
    · dsimp only
      rw [heq]
      exact hranked
    · have hrests := (hranked token.index).2
      rw [Slot.Rests, hphase] at hrests
      exact RankedAt.moved hranked hmoved (fun row hrow => by cases hrow) ⟨hquiet, hrests⟩
        fun _ _ => rfl

/-- An entry of a slot that is not listed has no rank to be current. -/
theorem RankedAt.commit {permit : Permit} (hinv : Inv index) (h : ∀ j, RankedAt index depth j)
    {bound : Token n} {access : Access} {receiving : Bool}
    (hphase : (index.slots i).phase = .ready bound access receiving)
    (hlisted : (index.slots i).isListed = false) (hdepth : ∀ j, j ≠ i → depth' j = depth j)
    (j : Fin n) : RankedAt (index.commit i permit) depth' j := by
  refine RankedAt.moved h (hinv.commit i permit) (fun row hrow => ?_)
    (Slot.Rests.ready ((permit.commit_phase _).trans hphase)) hdepth j
  rw [hinv.unlisted hlisted] at hrow
  cases hrow

/-- The calls with a connection in hand that change no lane. -/
theorem Traffic.Current.call_taken {traffic : Traffic n top φ} {pool : State n top φ}
    {call : Call n φ} (h : traffic.Current) (hfree : traffic.pool.hand ≠ .free)
    (hquiet : call.Quiet traffic) (hpermits : traffic.pool.hand.permits call = true)
    (hcall : traffic.pool.call links call = some pool) :
    (∀ i, RankedAt pool.index traffic.depth i) ∧
      RankedHand pool.index traffic.depth pool.hand := by
  obtain ⟨⟨index, hand⟩, depth⟩ := traffic
  obtain ⟨hinv, hholds, hranked, hhand⟩ := h
  dsimp only at hfree hinv hranked hquiet hcall hholds hhand ⊢
  rcases hand with _ | (⟨i, row⟩ | i) | ⟨i, row, id⟩
  · exact absurd rfl hfree
  · cases call with
    | drop =>
      cases hcall
      exact ⟨hranked, trivial⟩
    | reserve =>
      have hrow : index.priority i = some row := hholds
      obtain ⟨bound, sequence, hphase, ⟨next, index', -, hreserve, hmoved⟩ |
        ⟨index', -, hreserve, hmoved⟩⟩ := hinv.reserve hrow
      all_goals
        rw [State.call] at hcall
        dsimp only at hcall
        rw [hreserve] at hcall
        cases hcall
        have hmoves : ∀ j, RankedAt index' depth j := RankedAt.moved hranked hmoved
          (fun row hrow => by cases hrow) (Slot.Rests.ready rfl) fun _ _ => rfl
      · refine ⟨hmoves, ?_⟩
        change row = clamp top (depth i + (index'.slots i).barriers)
        rw [hmoved.slots, Function.update_self]
        exact (hranked i).1 row hrow
      · exact ⟨hmoves, trivial⟩
    | publish boundary told =>
      obtain ⟨j, error, hj, herror⟩ := hquiet
      obtain rfl : i = j := Option.some.inj hj
      simp only [State.call, Index.publish, herror] at hcall
      cases hcall
      exact ⟨hranked, trivial⟩
    | _ => cases hpermits
  · cases call with
    | drop =>
      cases hcall
      exact ⟨hranked, trivial⟩
    | publish boundary told =>
      obtain ⟨j, error, hj, herror⟩ := hquiet
      obtain rfl : i = j := Option.some.inj hj
      simp only [State.call, Index.publish, herror] at hcall
      cases hcall
      exact ⟨hranked, trivial⟩
    | _ => cases hpermits
  · cases call with
    | release =>
      have hphase : (index.slots i).phase = .ready id.conn (.reserved id.generation) false := hholds
      obtain ⟨index', hrelease, hmoved⟩ := hinv.release links row hphase
      rw [State.call] at hcall
      dsimp only at hcall
      rw [hrelease] at hcall
      cases hcall
      refine ⟨RankedAt.moved hranked hmoved (fun row' hrow => ?_) (Slot.Rests.ready rfl)
        fun _ _ => rfl, trivial⟩
      cases hrow
      exact hhand
    | publish boundary told =>
      obtain ⟨j, error, hj, herror⟩ := hquiet
      obtain rfl : i = j := Option.some.inj hj
      simp only [State.call, herror] at hcall
      cases hcall
      exact ⟨hranked, hhand⟩
    | _ => cases hpermits

/-- A request that is published. -/
theorem Traffic.Current.publish {traffic : Traffic n top φ} {pool : State n top φ}
    {boundary : Boundary} {permit : Permit} (h : traffic.Current)
    (hi : traffic.pool.hand.connection = some i)
    (hpermit : (traffic.pool.index.slots i).tryReply boundary = .ok permit)
    (hcall : traffic.pool.call links (.publish boundary (traffic.depth i + 1)) = some pool) :
    (∀ j, RankedAt pool.index (Function.update traffic.depth i (traffic.depth i + 1)) j) ∧
      RankedHand pool.index (Function.update traffic.depth i (traffic.depth i + 1)) pool.hand := by
  obtain ⟨⟨index, hand⟩, depth⟩ := traffic
  obtain ⟨hinv, hholds, hranked, -⟩ := h
  dsimp only at hinv hranked hcall hholds hi hpermit ⊢
  have hdepth : ∀ j, j ≠ i → Function.update depth i (depth i + 1) j = depth j :=
    fun j hj => Function.update_of_ne hj _ _
  rcases hand with _ | (⟨k, row⟩ | k) | ⟨k, row, id⟩
  · cases hi
  · obtain rfl : k = i := Option.some.inj hi
    have hrow : index.priority k = some row := hholds
    obtain ⟨bound, sequence, hphase⟩ := hinv.phase_of_priority hrow
    obtain ⟨index', hpublish, ⟨⟨error, herror⟩, -⟩ | ⟨permit', hpermit', hmoved⟩⟩ :=
      hinv.publish links boundary (depth k + 1) hrow
    · rw [hpermit] at herror
      cases herror
    · rw [hpermit] at hpermit'
      cases hpermit'
      rw [State.call] at hcall
      dsimp only at hcall
      rw [hpublish] at hcall
      cases hcall
      refine ⟨RankedAt.moved hranked hmoved (fun row' hrow' => ?_)
        (Slot.Rests.ready ((permit.commit_phase _).trans hphase)) hdepth, trivial⟩
      rw [Function.update_self]
      exact (Option.some.inj hrow').symm
  · obtain rfl : k = i := Option.some.inj hi
    obtain ⟨bound, generation, hphase⟩ := hholds
    simp only [State.call, Index.publish, hpermit] at hcall
    cases hcall
    exact ⟨RankedAt.commit hinv hranked hphase (by simp [Slot.isListed, hphase]) hdepth, trivial⟩
  · obtain rfl : k = i := Option.some.inj hi
    have hphase : (index.slots k).phase = .ready id.conn (.reserved id.generation) false := hholds
    simp only [State.call, hpermit] at hcall
    cases hcall
    exact ⟨RankedAt.commit hinv hranked hphase (by simp [Slot.isListed, hphase]) hdepth, trivial⟩

/-- A slot that rests still does with fewer orders. -/
theorem Slot.Rests.mono {slot : Slot n φ} {load load' : ℕ} (h : slot.Rests load)
    (hle : load' ≤ load) : slot.Rests load' := by
  unfold Rests at h ⊢
  split at h
  · exact ⟨Nat.eq_zero_of_le_zero (h.1 ▸ hle), h.2⟩
  · exact ⟨Nat.eq_zero_of_le_zero (h.1 ▸ hle), h.2⟩
  · exact h
  · trivial

/-- A reindexed connection, of which only the others are known to be current. -/
theorem RankedAt.reindexed {token : Token n} {told : ℕ} {drained : Option (Token n)}
    (hinv : Inv index) (hmatches : (index.slots token.index).matches' token = true)
    (hother : ∀ j, j ≠ token.index → RankedAt index depth j)
    (hrests : (index.slots token.index).Rests told)
    (hcall : index.reindex links token told = some (index', drained)) (j : Fin n) :
    RankedAt index' (Function.update depth token.index told) j := by
  have hdepth : ∀ j, j ≠ token.index → Function.update depth token.index told j = depth j :=
    fun j hj => Function.update_of_ne hj _ _
  obtain ⟨index'', drained', hreindex, ⟨rfl, hne⟩ | ⟨sequence, hphase, hmoved⟩⟩ :=
    hinv.reindex links token told <;>
    rw [hcall] at hreindex <;> cases hreindex
  · by_cases hj : j = token.index
    · subst hj
      have hlisted : (index'.slots token.index).isListed = false := by
        rw [← Bool.not_eq_true, Slot.isListed_iff]
        rintro ⟨bound, sequence, hphase⟩
        rw [Slot.matches', hphase] at hmatches
        obtain rfl : bound = token := Option.some.inj (of_decide_eq_true hmatches)
        exact hne sequence hphase
      refine ⟨fun row hrow => ?_, ?_⟩
      · rw [hinv.unlisted hlisted] at hrow
        cases hrow
      · rw [Function.update_self]
        exact hrests
    · unfold RankedAt
      rw [hdepth j hj]
      exact hother j hj
  · by_cases hj : j = token.index
    · subst hj
      refine RankedAt.own hmoved (fun row hrow => ?_) ?_
      · rw [Function.update_self]
        exact (Option.some.inj hrow).symm
      · rw [Function.update_self]
        exact hrests
    · exact (hother j hj).other hmoved hj (hdepth j hj)

/-- A Sync that was owed is of a slot that is ready. -/
theorem Slot.settle_applied {slot : Slot n φ} {token : Token n}
    (h : (slot.settle token).2 = .applied) :
    ∃ access receiving, slot.phase = .ready token access receiving := by
  unfold settle at h
  dsimp only at h
  split at h
  · next bound access receiving hphase =>
    split_ifs at h with hbound hpending
    exact ⟨access, receiving, hbound ▸ hphase⟩
  · split_ifs at h
  · cases h

/-- A settled connection. -/
theorem Traffic.Current.settle {token : Token n} {status : Status} {told : ℕ}
    {settled reindexed pool : State n top φ} (h : Traffic.Current ⟨⟨index, .free⟩, depth⟩)
    (happlied : ((index.slots token.index).settle token).2 = .applied)
    (hsettled : State.call links ⟨index, .free⟩ (.settle token) = some settled)
    (hreindexed : settled.call links (.reindex token told) = some reindexed)
    (hcall : reindexed.call links (.pollReady token status
      (told + (reindexed.index.slots token.index).barriers)) = some pool) :
    (∀ j, RankedAt pool.index (Function.update depth token.index told) j) ∧
      RankedHand pool.index (Function.update depth token.index told) pool.hand := by
  obtain ⟨hinv, -, hranked, -⟩ := h
  dsimp only at hinv hranked
  cases hsettled
  obtain ⟨access, receiving, hphase⟩ := Slot.settle_applied happlied
  have hmoved := hinv.setSame (Slot.settle_phase (index.slots token.index) token)
  have hslot : (index.settle token).slots token.index =
      ((index.slots token.index).settle token).1 := by
    rw [Index.settle, hmoved.slots, Function.update_self]
  have hphase' : ((index.settle token).slots token.index).phase = .ready token access receiving :=
    hslot ▸ (Slot.settle_phase _ token).trans hphase
  have hmatches : ((index.settle token).slots token.index).matches' token = true := by
    rw [Slot.matches', hphase']
    exact decide_eq_true rfl
  obtain ⟨index', drained, hreindex, hmid⟩ := (hinv.moved hmoved).reindex links token told
  have hreindex' : (index.settle token).reindex links token told = some (index', drained) :=
    hreindex
  rw [State.call] at hreindexed
  dsimp only at hreindexed
  rw [hreindex'] at hreindexed
  cases hreindexed
  have hranked' := RankedAt.reindexed (hinv.moved hmoved) hmatches
    (fun j hj => (hranked j).other hmoved hj rfl) (Slot.Rests.ready hphase') hreindex'
  have hinv' : Inv index' := by
    rcases hmid with ⟨rfl, -⟩ | ⟨_, -, hre⟩
    · exact hinv.moved hmoved
    · exact (hinv.moved hmoved).moved hre
  obtain ⟨index'', answer, hready, ⟨heq, -⟩ | ⟨_, _, -, hpolled⟩ | ⟨_, receiving', -, hpolled⟩⟩ :=
    hinv'.pollReady links token status (told + (index'.slots token.index).barriers)
  all_goals
    rw [State.call] at hcall
    dsimp only at hcall
    rw [hready] at hcall
    cases hcall
  · exact ⟨heq ▸ hranked', trivial⟩
  · exact ⟨RankedAt.moved hranked' hpolled (fun row hrow => by cases hrow) (Slot.Rests.ready rfl)
      fun _ _ => rfl, trivial⟩
  · refine ⟨RankedAt.moved hranked' hpolled (fun row hrow => ?_) (Slot.Rests.ready rfl)
      fun _ _ => rfl, trivial⟩
    rw [Function.update_self]
    split_ifs at hrow
    exact (Option.some.inj hrow).symm

theorem Traffic.Current.step {traffic traffic' : Traffic n top φ} (h : traffic.Current)
    (hstep : Traffic.Step links traffic traffic') : traffic'.Current := by
  cases hstep with
  | call call hquiet hpermits hcall =>
    obtain ⟨pool, hpool, hinv, hholds⟩ :=
      State.call_spec links _ _ h.inv h.holds hpermits
    rw [hcall] at hpool
    cases hpool
    by_cases hfree : traffic.pool.hand = .free
    · obtain ⟨hranked, hhand⟩ := h.call_free hfree hquiet hpermits hcall
      exact ⟨hinv, hholds, hranked, hhand⟩
    · obtain ⟨hranked, hhand⟩ := h.call_taken hfree hquiet hpermits hcall
      exact ⟨hinv, hholds, hranked, hhand⟩
  | publish boundary i permit hi hpermit hcall =>
    have hpermits : traffic.pool.hand.permits
        (.publish boundary (traffic.depth i + 1) : Call n φ) = true := by
      rcases hhand : traffic.pool.hand with _ | (_ | _) | _
      · rw [hhand] at hi
        cases hi
      · rfl
      · rfl
      · rfl
    obtain ⟨pool, hpool, hinv, hholds⟩ :=
      State.call_spec links _ _ h.inv h.holds hpermits
    rw [hcall] at hpool
    cases hpool
    obtain ⟨hranked, hhand⟩ := h.publish hi hpermit hcall
    exact ⟨hinv, hholds, hranked, hhand⟩
  | reply token told hfree hmatches hle hcall =>
    obtain ⟨⟨index, hand⟩, depth⟩ := traffic
    obtain ⟨hinv, -, hranked, -⟩ := h
    dsimp only at hfree hinv hranked hmatches hle hcall
    subst hfree
    obtain ⟨pool, hpool, hinv', hholds⟩ := State.call_spec links
      ⟨index, .free⟩ (.reindex token told) hinv trivial rfl
    rw [hcall] at hpool
    cases hpool
    obtain ⟨⟨index', drained⟩, hreindex, hpool⟩ := Option.bind_eq_some_iff.mp hcall
    cases hpool
    exact ⟨hinv', hholds, RankedAt.reindexed hinv hmatches (fun j _ => hranked j)
      ((hranked token.index).2.mono hle) hreindex, trivial⟩
  | @settle settled reindexed _ token status told hfree hmatches hle happlied hsettled hreindexed
      hcall =>
    obtain ⟨⟨index, hand⟩, depth⟩ := traffic
    dsimp only at hfree hmatches hle happlied hsettled hreindexed hcall
    subst hfree
    obtain ⟨hranked, hhand⟩ := h.settle happlied hsettled hreindexed hcall
    obtain ⟨_, hset, hinv₁, hholds₁⟩ := State.call_spec links
      ⟨index, .free⟩ (.settle token) h.inv trivial rfl
    rw [hsettled] at hset
    cases hset
    have hhand₁ : settled.hand = .free := by
      cases hsettled
      rfl
    obtain ⟨_, hre, hinv₂, hholds₂⟩ := State.call_spec links settled
      (.reindex token told) hinv₁ hholds₁ (by rw [hhand₁]; rfl)
    rw [hreindexed] at hre
    cases hre
    have hhand₂ : reindexed.hand = .free := by
      obtain ⟨_, -, h⟩ := Option.bind_eq_some_iff.mp hreindexed
      cases h
      exact hhand₁
    obtain ⟨_, hpoll, hinv₃, hholds₃⟩ := State.call_spec links reindexed
      (.pollReady token status (told + (reindexed.index.slots token.index).barriers))
      hinv₂ hholds₂ (by rw [hhand₂]; rfl)
    rw [hcall] at hpoll
    cases hpoll
    exact ⟨hinv₃, hholds₃, hranked, hhand⟩
  | unsettled token told cause fate hfree hmatches hle hcall =>
    obtain ⟨⟨index, hand⟩, depth⟩ := traffic
    obtain ⟨hinv, -, hranked, -⟩ := h
    dsimp only at hfree hinv hranked hmatches hle hcall
    subst hfree
    obtain ⟨pool, hpool, hinv', hholds⟩ := State.call_spec links
      ⟨index, .free⟩ (.close token cause fate) hinv trivial rfl
    rw [hcall] at hpool
    cases hpool
    rcases hinv.close token cause fate with
      ⟨index', state, failure, fate', hclose, -, hmoved⟩ | ⟨hnot, -⟩
    · rw [State.call] at hcall
      dsimp only at hcall
      rw [hclose] at hcall
      cases hcall
      refine ⟨hinv', hholds, RankedAt.moved hranked hmoved (fun row hrow => by cases hrow) rfl
        fun j hj => Function.update_of_ne hj _ _, trivial⟩
    · rw [hmatches] at hnot
      cases hnot
  | fail token failure fate told hphase hle =>
    refine ⟨h.inv, h.holds, fun j => ?_, ?_⟩
    · by_cases hj : j = token.index
      · subst hj
        refine ⟨fun row hrow => ?_, ?_⟩
        · obtain ⟨bound, sequence, hshared⟩ := h.inv.phase_of_priority hrow
          rw [hphase] at hshared
          cases hshared
        · dsimp only
          rw [Function.update_self]
          exact (h.ranked token.index).2.mono hle
      · unfold RankedAt
        dsimp only
        rw [Function.update_of_ne hj]
        exact h.ranked j
    · have hhand := h.hand
      have hholds := h.holds
      rcases hcase : traffic.pool.hand with _ | (_ | _) | reservation
      · trivial
      · trivial
      · trivial
      · rw [hcase] at hhand hholds
        have hne : reservation.index ≠ token.index := by
          intro heq
          have hreserved : (traffic.pool.index.slots reservation.index).phase =
            .ready reservation.id.conn (.reserved reservation.id.generation) false := hholds
          rw [heq, hphase] at hreserved
          cases hreserved
        dsimp only
        rw [RankedHand, Function.update_of_ne hne]
        exact hhand

theorem Traffic.Reached.current {traffic : Traffic n top φ} (h : Traffic.Reached K links traffic) :
    traffic.Current ∧ traffic.Fits K := by
  induction h with
  | new =>
    refine ⟨⟨.new, trivial, fun i => ⟨fun row hrow => (by cases hrow), rfl, rfl⟩, trivial⟩, ?_⟩
    exact ⟨(Finset.sum_eq_zero fun _ _ => rfl).trans_le (Nat.zero_le K), fun _ => Nat.zero_le _⟩
  | step _ hstep hfits ih => exact ⟨ih.1.step hstep, hfits⟩

/-! ## Least loads -/

/-- Two connections share at most `K` orders. -/
theorem Traffic.Fits.load_add_load {traffic : Traffic n top φ} (h : traffic.Fits K) (hne : i ≠ j) :
    traffic.load i + traffic.load j ≤ 2 * (K + 3) := by
  have hpair : ∑ k ∈ {i, j}, (traffic.depth k - 1) ≤ ∑ k, (traffic.depth k - 1) :=
    Finset.sum_le_sum_of_subset (Finset.subset_univ _)
  rw [Finset.sum_pair hne] at hpair
  have hshared := h.1
  have hi := h.2 i
  have hj := h.2 j
  unfold Traffic.load
  omega

/-- Of two connections in the last bucket neither has a lesser load, and of others the one in
the lower bucket. -/
theorem Traffic.Fits.load_le {traffic : Traffic n top φ} (h : traffic.Fits K) (htop : top = K + 3)
    (hle : clamp top (traffic.load i) ≤ clamp top (traffic.load j)) :
    traffic.load i ≤ traffic.load j := by
  by_cases hne : i = j
  · rw [hne]
  · have hsum := h.load_add_load hne
    have hmin : min (traffic.load i) top ≤ min (traffic.load j) top := Fin.le_def.mp hle
    omega

namespace Index

/-- A search from a row finds the first entry that is eligible, in the first row of one. -/
theorem leastFrom_spec (eligible : Slot n φ → Bool) (h : Bucketed index) {rows : ℕ}
    (hrows : top + 1 ≤ row.val + rows) :
    (∀ listed, index.leastFrom eligible rows row = some listed → ∀ i other,
      i ∈ index.heads other → eligible (index.slots i) = true → row ≤ other →
        listed.rank ≤ other) ∧
    (index.leastFrom eligible rows row = none → ∀ i other, i ∈ index.heads other → row ≤ other →
      eligible (index.slots i) = false) := by
  induction rows generalizing row with
  | zero =>
    have hlt := row.isLt
    omega
  | succ rows ih =>
    have hrow : ∀ i, (index.heads row).find? (fun i => eligible (index.slots i)) = none →
        i ∈ index.heads row → eligible (index.slots i) = false := fun i hnone hi => by
      simpa using List.find?_eq_none.mp hnone i hi
    -- Behind a row without one the search goes on at the next row that is not empty.
    have hbehind : ∀ i other, i ∈ index.heads other → row < other →
        ∃ next, Bitmap.find index.bits (row.val + 1) = some next ∧ next ≤ other := by
      intro i other hi hlt
      have hbit : index.bits other = true := (h.bits other).mpr (List.ne_nil_of_mem hi)
      rcases hfind : Bitmap.find index.bits (row.val + 1) with _ | next
      · rw [Bitmap.find_eq_none] at hfind
        rw [hfind other (Fin.lt_def.mp hlt)] at hbit
        cases hbit
      · exact ⟨next, rfl, (Bitmap.find_eq_some.mp hfind).2.2 other (Fin.lt_def.mp hlt) hbit⟩
    rw [leastFrom]
    rcases hfirst : (index.heads row).find? (fun i => eligible (index.slots i)) with _ | first
    · rcases hfind : Bitmap.find index.bits (row.val + 1) with _ | next
      · refine ⟨fun _ h => (by cases h), fun _ i other hi hle => ?_⟩
        rcases hle.lt_or_eq with hlt | rfl
        · obtain ⟨next, hnext, -⟩ := hbehind i other hi hlt
          rw [hfind] at hnext
          cases hnext
        · exact hrow i hfirst hi
      · have hnext := (Bitmap.find_eq_some.mp hfind).1
        obtain ⟨hsome, hnone⟩ := ih (show top + 1 ≤ next.val + rows by omega)
        have hle : ∀ i other, i ∈ index.heads other → row < other → next ≤ other := by
          intro i other hi hlt
          obtain ⟨next', hfind', hle⟩ := hbehind i other hi hlt
          rw [hfind] at hfind'
          exact Option.some.inj hfind' ▸ hle
        refine ⟨fun listed hlisted i other hi heligible hother => ?_,
          fun hlisted i other hi hother => ?_⟩
        · rcases hother.lt_or_eq with hlt | rfl
          · exact hsome listed hlisted i other hi heligible (hle i other hi hlt)
          · rw [hrow i hfirst hi] at heligible
            cases heligible
        · rcases hother.lt_or_eq with hlt | rfl
          · exact hnone hlisted i other hi (hle i other hi hlt)
          · exact hrow i hfirst hi
    · refine ⟨fun listed hlisted i other _ _ hother => ?_, fun h => by cases h⟩
      cases hlisted
      exact hother

/-- What is found is eligible and in a first bucket of one ; nothing is found where none is. -/
theorem leastWhere_spec (h : Bucketed index) (eligible : Slot n φ → Bool) :
    (∀ listed, index.leastWhere eligible = some listed →
      listed.index ∈ index.heads listed.rank ∧ eligible (index.slots listed.index) = true ∧
      ∀ i other, i ∈ index.heads other → eligible (index.slots i) = true → listed.rank ≤ other) ∧
    (index.leastWhere eligible = none → ∀ i other, i ∈ index.heads other →
      eligible (index.slots i) = false) := by
  unfold leastWhere
  rcases hminimum : index.minimum with _ | row
  · refine ⟨fun _ h => (by cases h), fun _ i other hi => ?_⟩
    rw [h.minimum_eq_none.mp hminimum other] at hi
    cases hi
  · have hle : ∀ i other, i ∈ index.heads other → row ≤ other := fun i other hi =>
      (h.minimum_eq_some.mp hminimum).2 other (List.ne_nil_of_mem hi)
    obtain ⟨hsome, hnone⟩ := leastFrom_spec eligible h
      (show top + 1 ≤ row.val + (top + 1) by omega)
    refine ⟨fun listed hlisted => ?_, fun hlisted i other hi => ?_⟩
    · obtain ⟨hmem, heligible⟩ := leastFrom_eq_some hlisted
      exact ⟨hmem, heligible, fun i other hi heligible' =>
        hsome listed hlisted i other hi heligible' (hle i other hi)⟩
    · exact hnone hlisted i other hi (hle i other hi)

end Index

/-- An entry is in the bucket of its load. -/
theorem Traffic.Current.mem_heads {traffic : Traffic n top φ} (h : traffic.Current) :
    i ∈ traffic.pool.index.heads row ↔
      (traffic.pool.index.slots i).isListed = true ∧ clamp top (traffic.load i) = row := by
  rw [h.inv.linked.mem, ← h.inv.listed]
  constructor
  · intro hrow
    exact ⟨by rw [hrow]; rfl, ((h.ranked i).1 row hrow).symm⟩
  · rintro ⟨hlisted, rfl⟩
    obtain ⟨row, hrow⟩ := Option.isSome_iff_exists.mp hlisted
    rw [hrow, (h.ranked i).1 row hrow]
    rfl

end Cartel.Pg.Pool
