import Cartel.Pool.Moves

/-!
# The invariant of the pool

In every state that calls lead to, the index keeps its invariant, and what is in hand is what
the index lists or holds of it. Every call that can be made from there has a result.
-/

namespace Cartel.Pg.Pool

open Cartel.Lib

variable {n top : ℕ} {φ : Type}
variable {links : Links n} {index index' : Index n top φ} {i : Fin n} {row : Fin (top + 1)}
variable {token : Token n}

/-! ## Selections -/

/-- A transaction is selected while it is held. -/
theorem Slot.select_some {slot : Slot n φ} {generation : Generation}
    (h : slot.select token (some generation) = true) :
    ∃ receiving, slot.phase = .ready token (.held generation) receiving := by
  unfold select at h
  split at h
  · next bound access receiving hphase =>
    split_ifs at h with hbound
    rw [not_not] at hbound
    subst hbound
    cases access with
    | held current => exact ⟨receiving, by rw [hphase, of_decide_eq_true h]⟩
    | _ => cases h
  · cases h

/-- The index with its ring in another order. -/
def Turned (index index' : Index n top φ) : Prop :=
  ∃ ring, ring.Perm index.ring ∧ index' = { index with ring }

theorem Turned.refl : Turned index index :=
  ⟨index.ring, List.Perm.refl _, rfl⟩

theorem Inv.turned (h : Inv index) (hturned : Turned index index') : Inv index' := by
  obtain ⟨ring, hring, rfl⟩ := hturned
  exact ⟨h.linked.reorder hring, h.listed, h.live, h.blockers⟩

namespace Index

theorem listed_eq_some {listed : Listed n top} (h : index.listed i = some listed) :
    listed.index = i ∧ index.priority listed.index = some listed.rank := by
  obtain ⟨rank, hrank, rfl⟩ := Option.map_eq_some_iff.mp h
  exact ⟨rfl, hrank⟩

theorem next_spec : Turned index index.next.1 ∧ ∀ listed, index.next.2 = some listed →
    index.priority listed.index = some listed.rank := by
  unfold next
  split
  · exact ⟨.refl, fun _ h => by cases h⟩
  · next first ring hring =>
    exact ⟨⟨ring ++ [first], hring ▸ List.perm_append_singleton first ring, rfl⟩,
      fun listed h => (listed_eq_some h).2⟩

theorem search_perm (eligible : Fin n → Bool) (before behind : List (Fin n)) :
    (search eligible before behind).1.Perm (before ++ behind) := by
  induction behind generalizing before with
  | nil => rw [search, List.append_nil]
  | cons first behind ih =>
    rw [search, List.append_cons before first behind]
    split_ifs
    · exact List.perm_append_comm
    · exact ih (before ++ [first])

theorem search_eq_some {eligible : Fin n → Bool} {before behind : List (Fin n)}
    (h : (search eligible before behind).2 = some i) : i ∈ behind ∧ eligible i = true := by
  induction behind generalizing before with
  | nil => cases h
  | cons first behind ih =>
    rw [search] at h
    split_ifs at h with hfirst
    · cases h
      exact ⟨List.mem_cons_self, hfirst⟩
    · obtain ⟨hmem, hi⟩ := ih h
      exact ⟨List.mem_cons_of_mem first hmem, hi⟩

theorem nextWhere_spec {eligible : Slot n φ → Bool} : Turned index (index.nextWhere eligible).1 ∧
    ∀ listed, (index.nextWhere eligible).2 = some listed →
      index.priority listed.index = some listed.rank := by
  refine ⟨⟨_, search_perm _ [] index.ring, rfl⟩, fun listed h => ?_⟩
  obtain ⟨i, -, hi⟩ := Option.bind_eq_some_iff.mp h
  exact (listed_eq_some hi).2

theorem leastFrom_eq_some {eligible : Slot n φ → Bool} {rows : ℕ} {listed : Listed n top}
    (h : index.leastFrom eligible rows row = some listed) :
    listed.index ∈ index.heads listed.rank ∧ eligible (index.slots listed.index) = true := by
  induction rows generalizing row with
  | zero => cases h
  | succ rows ih =>
    rw [leastFrom] at h
    split at h
    · next first hfirst =>
      cases h
      exact ⟨List.mem_of_find?_eq_some hfirst,
        List.find?_some (p := fun i => eligible (index.slots i)) hfirst⟩
    · split at h
      · cases h
      · exact ih h

theorem least_spec (h : Bucketed index) : ∃ listed, index.least = some listed ∧
    ∀ l, listed = some l → index.minimum = some l.rank ∧ l.index ∈ index.heads l.rank := by
  unfold least
  split
  · exact ⟨none, rfl, fun _ h => by cases h⟩
  · next rank hrank =>
    obtain ⟨first, behind, hheads⟩ :=
      List.exists_cons_of_ne_nil (h.minimum_eq_some.mp hrank).1
    rw [hheads]
    refine ⟨some ⟨first, rank⟩, rfl, fun l hl => ?_⟩
    cases hl
    exact ⟨hrank, hheads ▸ List.mem_cons_self⟩

theorem pickWhere_spec (h : Bucketed index) (policy : PickPolicy) (eligible : Slot n φ → Bool) :
    Turned index (index.pickWhere policy eligible).1 ∧
      ∀ listed, (index.pickWhere policy eligible).2 = some listed →
        index.priority listed.index = some listed.rank := by
  cases policy with
  | roundRobin => exact nextWhere_spec
  | leastInflight =>
    refine ⟨.refl, fun listed hlisted => ?_⟩
    obtain ⟨row, -, hrow⟩ := Option.bind_eq_some_iff.mp hlisted
    exact (h.mem _ _).mp (leastFrom_eq_some hrow).1

theorem pick_spec (h : Bucketed index) (policy : PickPolicy) (boundary : Boundary) :
    ∃ index' listed, index.pick policy boundary = some (index', listed) ∧ Turned index index' ∧
      ∀ l, listed = some l → index.priority l.index = some l.rank := by
  have hleast : ∃ index' listed, (index.least.map fun listed => (index, listed)) =
      some (index', listed) ∧ Turned index index' ∧
        ∀ l, listed = some l → index.priority l.index = some l.rank := by
    obtain ⟨listed, hlisted, hmem⟩ := least_spec h
    exact ⟨index, listed, by rw [hlisted]; rfl, .refl, fun l hl =>
      (h.mem _ _).mp (hmem l hl).2⟩
  unfold pick
  split
  · exact ⟨_, _, rfl, pickWhere_spec h policy Slot.isSynced⟩
  · exact ⟨_, _, rfl, next_spec⟩
  · exact hleast

theorem target_spec {generation : Option Generation} {source : Source n top}
    (h : (index.target token generation).2 = some source) :
    match source with
    | .shared listed => index.priority listed.index = some listed.rank
    | .exclusive i => ∃ bound generation,
      (index.slots i).phase = .ready bound (.held generation) false := by
  unfold target at h
  dsimp only at h
  split_ifs at h with hselect hreceiving hgeneration
  · obtain rfl := Option.some.inj h
    obtain ⟨generation, rfl⟩ := Option.isSome_iff_exists.mp hgeneration
    rw [Bool.not_eq_true', Bool.not_eq_false] at hselect
    obtain ⟨receiving, hphase⟩ := Slot.select_some hselect
    rw [hphase] at hreceiving
    cases receiving with
    | true => exact absurd rfl hreceiving
    | false => exact ⟨token, generation, hphase⟩
  · obtain ⟨listed', hlisted, heq⟩ := Option.map_eq_some_iff.mp h
    cases heq
    exact (listed_eq_some hlisted).2

end Index

/-! ## Publications -/

theorem Permit.commit_phase (permit : Permit) (slot : Slot n φ) :
    (permit.commit slot).1.phase = slot.phase := by
  unfold Permit.commit
  dsimp only
  split <;> rfl

theorem Slot.settle_phase (slot : Slot n φ) (token : Token n) :
    (slot.settle token).1.phase = slot.phase := by
  unfold Slot.settle
  dsimp only
  split
  · split_ifs <;> rfl
  · split_ifs <;> rfl
  · rfl

namespace Inv

theorem commit (h : Inv index) (i : Fin n) (permit : Permit) :
    Moved index i (permit.commit (index.slots i)).1 (index.priority i) (index.commit i permit) :=
  h.setSame (permit.commit_phase _)

theorem publish (h : Inv index) (links : Links n) (boundary : Boundary) (depth : ℕ)
    (hi : index.priority i = some row) : ∃ index',
    index.publish links (.shared ⟨i, row⟩) boundary depth = some index' ∧
      ((∃ error, (index.slots i).tryReply boundary = .error error) ∧ index' = index ∨
      ∃ permit, (index.slots i).tryReply boundary = .ok permit ∧
        Moved index i (permit.commit (index.slots i)).1
          (some (clamp top (depth + (permit.commit (index.slots i)).1.barriers))) index') := by
  unfold Index.publish
  dsimp only
  rcases hreply : (index.slots i).tryReply boundary with error | permit
  · exact ⟨index, rfl, Or.inl ⟨⟨error, rfl⟩, rfl⟩⟩
  · have hcommit := h.commit i permit
    have hslot : (index.commit i permit).slots i = (permit.commit (index.slots i)).1 := by
      rw [hcommit.slots, Function.update_self]
    obtain ⟨index', hre, hrelisted⟩ := hcommit.linked.reprioritizeListed
      links hi (depth + ((index.commit i permit).slots i).barriers)
    refine ⟨index', hre, Or.inr ⟨permit, rfl, hrelisted.linked,
      hrelisted.slots.trans hcommit.slots, ?_, ?_, ?_, ?_⟩⟩
    · rw [hrelisted.priority, hslot]
      rfl
    · rw [← hcommit.listed, hi]
      rfl
    · rw [hrelisted.live]
      exact hcommit.live
    · rw [hrelisted.blockers]
      exact hcommit.blockers

end Inv

/-! ## Runs -/

/-- What is in hand is what the index lists, or holds a transaction of. -/
def Holds (index : Index n top φ) : Hand n top → Prop
  | .free => True
  | .selected (.shared listed) => index.priority listed.index = some listed.rank
  | .selected (.exclusive i) => ∃ bound generation,
    (index.slots i).phase = .ready bound (.held generation) false
  | .reserved reservation => (index.slots reservation.index).phase =
    .ready reservation.id.conn (.reserved reservation.id.generation) false

theorem Holds.select {listed : Option (Listed n top)} {index : Index n top φ}
    (h : ∀ l, listed = some l → index.priority l.index = some l.rank) :
    Holds index (.select (listed.map .shared)) := by
  cases listed with
  | none => trivial
  | some l => exact h l rfl

/-- A call that can be made has a result, and keeps the invariant. -/
theorem State.call_spec (links : Links n) (state : State n top φ) (call : Call n φ)
    (h : Inv state.index) (hhand : Holds state.index state.hand)
    (hpermits : state.hand.permits call = true) :
    ∃ state', state.call links call = some state' ∧ Inv state'.index ∧
      Holds state'.index state'.hand := by
  obtain ⟨index, hand⟩ := state
  cases hand with
  | free =>
    cases call with
    | drop | reserve | release | publish => cases hpermits
    | bind token => exact ⟨_, rfl, h.moved h.bind, trivial⟩
    | tryReady token =>
      rcases h.tryReady links token with
        ⟨index', hready, -, hmoved⟩ | hready
      · exact ⟨⟨index', .free⟩, by rw [State.call, hready]; rfl, h.moved hmoved, trivial⟩
      · exact ⟨⟨index, .free⟩, by rw [State.call, hready]; rfl, h, trivial⟩
    | target token generation =>
      refine ⟨_, rfl, h, ?_⟩
      dsimp only
      rcases htarget : (index.target token generation).2 with _ | _ | _
      · trivial
      · exact Index.target_spec htarget
      · exact Index.target_spec htarget
    | pick policy boundary =>
      obtain ⟨index', listed, hpick, hturned, hlisted⟩ :=
        Index.pick_spec h.linked.toBucketed policy boundary
      refine ⟨⟨index', .select (listed.map .shared)⟩, by rw [State.call, hpick]; rfl,
        h.turned hturned, Holds.select fun l hl => ?_⟩
      obtain ⟨ring, -, rfl⟩ := hturned
      exact hlisted l hl
    | pickBegin policy =>
      obtain ⟨hturned, hlisted⟩ := Index.pickWhere_spec h.linked.toBucketed policy
        Slot.canBegin
      refine ⟨_, rfl, h.turned hturned, Holds.select fun l hl => ?_⟩
      obtain ⟨ring, -, hring⟩ := hturned
      dsimp only [Index.pickBegin]
      rw [hring]
      exact hlisted l hl
    | tryFinish token =>
      refine ⟨_, rfl, ?_, trivial⟩
      dsimp only [Index.tryFinish]
      split_ifs
      · split
        · exact h
        · exact h.moved (h.commit _ _)
      · exact h
    | flush token =>
      refine ⟨_, rfl, ?_, trivial⟩
      dsimp only [Index.flush]
      split
      · exact h
      · exact h.moved (h.commit _ _)
    | settle token => exact ⟨_, rfl, h.moved (h.setSame (Slot.settle_phase _ token)), trivial⟩
    | pollReady token status depth =>
      obtain ⟨index', answer, hready, ⟨heq, -⟩ | ⟨_, _, _, hmoved⟩ | ⟨_, _, _, hmoved⟩⟩ :=
        h.pollReady links token status depth
      all_goals refine ⟨⟨index', .free⟩, by rw [State.call, hready]; rfl, ?_, trivial⟩
      · exact heq ▸ h
      · exact h.moved hmoved
      · exact h.moved hmoved
    | finalize id =>
      obtain ⟨index', answer, hfinalize, ⟨heq, -⟩ | ⟨_, _, _, hmoved⟩⟩ := h.finalize id
      all_goals refine ⟨⟨index', .free⟩, by rw [State.call, hfinalize]; rfl, ?_, trivial⟩
      · exact heq ▸ h
      · exact h.moved hmoved
    | close token cause fate =>
      rcases h.close token cause fate with
        ⟨index', _, _, _, hclose, -, hmoved⟩ | ⟨-, hclose⟩
      · exact ⟨⟨index', .free⟩, by rw [State.call, hclose]; rfl, h.moved hmoved, trivial⟩
      · exact ⟨⟨index, .free⟩, by rw [State.call, hclose]; rfl, h, trivial⟩
    | reindex token depth =>
      obtain ⟨index', answer, hreindex, ⟨heq, -⟩ | ⟨_, -, hmoved⟩⟩ :=
        h.reindex links token depth
      all_goals refine ⟨⟨index', .free⟩, by rw [State.call, hreindex]; rfl, ?_, trivial⟩
      · exact heq ▸ h
      · exact h.moved hmoved
    | setReceiving token receiving depth =>
      obtain ⟨index', answer, hset, heq | ⟨_, _, -, -, hmoved⟩⟩ :=
        h.setReceiving links token receiving depth
      all_goals refine ⟨⟨index', .free⟩, by rw [State.call, hset]; rfl, ?_, trivial⟩
      · exact heq ▸ h
      · exact h.moved hmoved
    | tryRetire token =>
      refine ⟨_, rfl, ?_, trivial⟩
      rcases h.tryRetire token with heq | ⟨_, _, -, hmoved⟩
      · exact heq.symm ▸ h
      · exact h.moved hmoved
  | selected source =>
    rcases source with ⟨i, row⟩ | i
    · cases call with
      | drop => exact ⟨⟨index, .free⟩, rfl, h, trivial⟩
      | reserve =>
        obtain ⟨bound, sequence, hphase, ⟨next, index', -, hreserve, hmoved⟩ |
          ⟨index', -, hreserve, hmoved⟩⟩ := h.reserve hhand
        · refine ⟨⟨index', .reserved ⟨i, row, ⟨bound, next⟩⟩⟩, ?_, h.moved hmoved, ?_⟩
          · rw [State.call]
            dsimp only
            rw [hreserve]
            rfl
          · change (index'.slots i).phase = _
            rw [hmoved.slots, Function.update_self]
        · refine ⟨⟨index', .free⟩, ?_, h.moved hmoved, trivial⟩
          rw [State.call]
          dsimp only
          rw [hreserve]
          rfl
      | publish boundary depth =>
        obtain ⟨index', hpublish, ⟨-, rfl⟩ | ⟨_, -, hmoved⟩⟩ :=
          h.publish links boundary depth hhand
        · exact ⟨⟨index', .free⟩, by rw [State.call]; dsimp only; rw [hpublish]; rfl, h, trivial⟩
        · exact ⟨⟨index', .free⟩, by rw [State.call]; dsimp only; rw [hpublish]; rfl,
            h.moved hmoved, trivial⟩
      | _ => cases hpermits
    · cases call with
      | drop => exact ⟨⟨index, .free⟩, rfl, h, trivial⟩
      | publish boundary depth =>
        rcases hreply : (index.slots i).tryReply boundary with error | permit
        · exact ⟨⟨index, .free⟩, by rw [State.call]; simp only [Index.publish, hreply]; rfl, h,
            trivial⟩
        · exact ⟨⟨index.commit i permit, .free⟩,
            by rw [State.call]; simp only [Index.publish, hreply]; rfl,
            h.moved (h.commit _ _), trivial⟩
      | _ => cases hpermits
  | reserved reservation =>
    obtain ⟨i, row, id⟩ := reservation
    cases call with
    | release =>
      have hindex : (index.slots i).phase = .ready id.conn (.reserved id.generation) false := hhand
      obtain ⟨index', hrelease, hmoved⟩ := h.release links row hindex
      exact ⟨⟨index', .free⟩, by rw [State.call]; dsimp only; rw [hrelease]; rfl,
        h.moved hmoved, trivial⟩
    | publish boundary depth =>
      rcases hreply : (index.slots i).tryReply boundary with error | permit
      · exact ⟨⟨index, .reserved ⟨i, row, id⟩⟩, by rw [State.call]; simp only [hreply], h, hhand⟩
      · exact ⟨⟨index.commit i permit, .free⟩, by rw [State.call]; simp only [hreply],
          h.moved (h.commit _ _), trivial⟩
    | _ => cases hpermits

/-- The invariant of every state of a pool. -/
theorem Reached.inv {state : State n top φ} (h : Reached links state) :
    Inv state.index ∧ Holds state.index state.hand := by
  induction h with
  | new => exact ⟨.new, trivial⟩
  | call call _ hpermits hcall ih =>
    obtain ⟨state', hstate, hinv⟩ := State.call_spec links _ call ih.1 ih.2 hpermits
    rw [hcall] at hstate
    cases hstate
    exact hinv

/-- The counters of a pool count its slots, its lists list exactly the slots that are shared and
do not receive, each in the bucket of its rank, the bitmap and the minimum are those of the
buckets, and no call that can be made links twice, unlinks what is not linked, or counts below
zero. -/
theorem Reached.listing {state : State n top φ} (h : Reached links state) :
    state.index.live = (Finset.univ.filter fun i => (state.index.slots i).isReady = true).card ∧
      state.index.blockers =
        (Finset.univ.filter fun i => (state.index.slots i).isBlocker = true).card ∧
      state.index.ring.Nodup ∧ (∀ row, (state.index.heads row).Nodup) ∧
      (∀ i, i ∈ state.index.ring ↔ (state.index.slots i).isListed = true) ∧
      (∀ i, (state.index.slots i).isListed = true → ∃! row, i ∈ state.index.heads row) ∧
      (∀ i row, i ∈ state.index.heads row ↔
        (state.index.slots i).isListed = true ∧ state.index.priority i = some row) ∧
      (∀ row, state.index.bits row = true ↔ state.index.heads row ≠ []) ∧
      (∀ row, state.index.minimum = some row ↔ state.index.heads row ≠ [] ∧
        ∀ other, state.index.heads other ≠ [] → row ≤ other) ∧
      (state.index.minimum = none ↔ ∀ row, state.index.heads row = []) ∧
      ∀ call, state.hand.permits call = true → (state.call links call).isSome = true := by
  obtain ⟨hinv, hholds⟩ := h.inv
  have hmem : ∀ i row, i ∈ state.index.heads row ↔
      (state.index.slots i).isListed = true ∧ state.index.priority i = some row := by
    intro i row
    rw [hinv.linked.mem, ← hinv.listed]
    exact ⟨fun h => ⟨by rw [h]; rfl, h⟩, fun h => h.2⟩
  refine ⟨?_, ?_, hinv.linked.ring_nodup, hinv.linked.nodup, ?_, ?_, hmem, hinv.linked.bits,
    fun row => hinv.linked.minimum_eq_some, hinv.linked.minimum_eq_none, ?_⟩
  · rw [hinv.live, Finset.card_filter]
    rfl
  · rw [hinv.blockers, Finset.card_filter]
    rfl
  · intro i
    rw [hinv.linked.mem_ring, hinv.listed]
  · intro i hlisted
    obtain ⟨row, hrow⟩ := hinv.exists_priority hlisted
    refine ⟨row, (hmem i row).mpr ⟨hlisted, hrow⟩, fun other hother => ?_⟩
    exact Option.some.inj (((hmem i other).mp hother).2.symm.trans hrow)
  · intro call hpermits
    obtain ⟨state', hstate, -, -⟩ := State.call_spec links state call hinv hholds hpermits
    rw [hstate]
    rfl

/-- Links at the front of a list. -/
def Links.front (n : ℕ) : Links n :=
  ⟨List.cons, List.cons, fun _ _ => .refl _, fun _ _ => .refl _⟩

/-- The token of a first connection. -/
def Token.zero (n : ℕ) : Token (n + 1) :=
  ⟨0, 0⟩

/-- A connection that is bound and ready is counted and listed. -/
theorem Reached.listing_ready : ∃ state : State 2 4 Unit, Reached (.front 2) state ∧
    state.index.ring = [0] ∧
    state.index.live = (Finset.univ.filter fun i => (state.index.slots i).isReady = true).card :=
  have hnew : Reached (.front 2) (State.new : State 2 4 Unit) := .new
  have hbind := Reached.call (.bind (.zero 1)) hnew rfl rfl
  have hready := Reached.call (.tryReady (.zero 1)) hbind rfl rfl
  ⟨_, hready, rfl, hready.listing.1⟩

end Cartel.Pg.Pool
