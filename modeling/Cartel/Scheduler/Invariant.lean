import Cartel.Lib.Count
import Cartel.Scheduler.Schedule
import Mathlib.Algebra.Order.BigOperators.Group.Finset

/-!
# The invariant of the schedule

`Schedule.Inv` ties the count of active connections, the two queues and the lanes to the
phases of the slots. An entry point changes one slot, so it keeps the invariant if it keeps
what the invariant says of that slot (`Inv.update`), except for `refresh` and `try_lease`,
which only move connections between the queues before they grant one.
-/

namespace Cartel.Redis.Scheduler.Schedule

open Cartel.Lib

variable {n : ℕ}

/-- What holds of a slot at any time : the queues link it only while it is shared, and the
idle queue only with nothing in flight. -/
structure Loose (s : Schedule n) (i : Fin n) : Prop where
  index : ∀ {token}, (s.routes.conns i).bound = some token → token.index = i
  linked : ∀ {queue token}, token ∈ s.routes.queues queue → token.index = i →
    (s.routes.conns i).access = some (token, .shared)
  idle : ∀ {token}, token ∈ s.routes.queues .idle → token.index = i →
    s.responses i = [] ∧ s.queue i = []
  owed : (s.routes.conns i).Owned → ∀ order ∈ s.queue i, order ∈ s.responses i
  unused : (s.routes.conns i).Unused → s.responses i = [] ∧ s.queue i = []

/-- Between the entry points a queue links every shared slot with nothing in flight. -/
structure Slot (s : Schedule n) (i : Fin n) : Prop extends s.Loose i where
  listed : ∀ {token}, (s.routes.conns i).access = some (token, .shared) → s.responses i = [] →
    s.queue i = [] → ∃ queue, token ∈ s.routes.queues queue

/-- The invariant of the schedule. -/
structure Inv (s : Schedule n) : Prop where
  capacity : n < 2 ^ 64
  active : s.routes.active = ∑ i, (s.routes.conns i).weight
  unique : s.routes.Unique
  slot : ∀ i, s.Slot i

theorem inv_new (h : n < 2 ^ 64) : (new : Schedule n).Inv where
  capacity := h
  active := by simp [new, Routes.new, State.weight, State.Owned]
  unique _ := Fifo.unique_nil
  slot i := by
    refine ⟨⟨fun h => ?_, fun h => ?_, fun h => ?_, fun h => ?_, fun _ => ⟨rfl, rfl⟩⟩, fun h => ?_⟩
    · cases h
    · cases h
    · cases h
    · cases h
    · cases h

variable {s s' : Schedule n} {token : Token n}

/-- Two schedules that agree on a slot. -/
structure Agree (s s' : Schedule n) (i : Fin n) : Prop where
  conns : s'.routes.conns i = s.routes.conns i
  responses : s'.responses i = s.responses i
  queue : s'.queue i = s.queue i
  mem : ∀ queue token, token.index = i →
    (token ∈ s'.routes.queues queue ↔ token ∈ s.routes.queues queue)

/-- Where schedules agree a slot stays as it was. -/
theorem Slot.congr {i : Fin n} (h : s.Slot i) (hagree : s.Agree s' i) : s'.Slot i := by
  obtain ⟨hconns, hresponses, hqueue, hmem⟩ := hagree
  refine ⟨⟨fun hbound => ?_, fun hlinked hi => ?_, fun hidle hi => ?_, fun howned => ?_,
    fun hunused => ?_⟩, fun haccess hr hq => ?_⟩
  · exact h.index (hconns ▸ hbound)
  · rw [hconns]
    exact h.linked ((hmem _ _ hi).mp hlinked) hi
  · rw [hresponses, hqueue]
    exact h.idle ((hmem _ _ hi).mp hidle) hi
  · rw [hconns] at howned
    rw [hresponses, hqueue]
    exact h.owed howned
  · rw [hconns] at hunused
    rw [hresponses, hqueue]
    exact h.unused hunused
  · rw [hconns] at haccess
    rw [hresponses] at hr
    rw [hqueue] at hq
    obtain ⟨queue, hlisted⟩ := h.listed haccess hr hq
    exact ⟨queue, (hmem _ _ (h.index (State.bound_of_access haccess))).mpr hlisted⟩

/-- An operation on one slot keeps the invariant if it keeps that of the slot. -/
theorem Inv.update (h : s.Inv) (i : Fin n) (hagree : ∀ j, j ≠ i → s.Agree s' j)
    (hunique : s'.routes.Unique)
    (hactive : s'.routes.active + (s.routes.conns i).weight =
      s.routes.active + (s'.routes.conns i).weight)
    (hslot : s'.Slot i) : s'.Inv where
  capacity := h.capacity
  active := by
    have hconns : s'.routes.conns = Function.update s.routes.conns i (s'.routes.conns i) := by
      ext j
      by_cases hj : j = i
      · subst hj
        simp
      · rw [Function.update_of_ne hj, (hagree j hj).conns]
    have hsum := sum_update s.routes.conns State.weight i (s'.routes.conns i)
    rw [← hconns, ← h.active] at hsum
    omega
  unique := hunique
  slot j := by
    by_cases hj : j = i
    · subst hj
      exact hslot
    · exact (h.slot j).congr (hagree j hj)

/-- No queue links a slot that is not shared. -/
theorem Loose.unlinked {i : Fin n} (h : s.Loose i)
    (haccess : ∀ token, (s.routes.conns i).access ≠ some (token, .shared)) {queue : Queue}
    {token : Token n} (hi : token.index = i) : token ∉ s.routes.queues queue := by
  intro hmem
  exact haccess token (h.linked hmem hi)

/-- The queues link a bound slot under its token only. -/
theorem Loose.eq_token {i : Fin n} (h : s.Loose i) (hbound : (s.routes.conns i).bound = some token)
    {queue : Queue} {other : Token n} (hmem : other ∈ s.routes.queues queue)
    (hi : other.index = i) : other = token := by
  have hother := State.bound_of_access (h.linked hmem hi)
  rw [hbound] at hother
  exact (Option.some.inj hother).symm

/-- The count covers an owned connection. -/
theorem Inv.active_pos (h : s.Inv) {i : Fin n} (howned : (s.routes.conns i).Owned) :
    0 < s.routes.active := by
  have hone : (s.routes.conns i).weight = 1 := if_pos howned
  have hle : (s.routes.conns i).weight ≤ ∑ i, (s.routes.conns i).weight :=
    Finset.single_le_sum (f := fun i => (s.routes.conns i).weight) (fun _ _ => Nat.zero_le _)
      (Finset.mem_univ i)
  rw [h.active]
  omega

/-- The count is at most the number of slots. -/
theorem Inv.active_le (h : s.Inv) : s.routes.active ≤ n := by
  rw [h.active]
  calc ∑ i, (s.routes.conns i).weight ≤ ∑ _i : Fin n, 1 := by
        refine Finset.sum_le_sum fun i _ => ?_
        unfold State.weight
        split_ifs <;> omega
    _ = n := by simp

/-- A slot that is not owned leaves room in the count. -/
theorem Inv.active_lt (h : s.Inv) {i : Fin n} (howned : ¬(s.routes.conns i).Owned) :
    s.routes.active < n := by
  rw [h.active]
  calc ∑ i, (s.routes.conns i).weight < ∑ _i : Fin n, 1 := by
        refine Finset.sum_lt_sum (fun i _ => ?_) ⟨i, Finset.mem_univ i, ?_⟩
        · unfold State.weight
          split_ifs <;> omega
        · rw [State.weight, if_neg howned]
          exact Nat.one_pos
    _ = n := by simp

/-! ## What the primitives leave alone -/

variable {i j : Fin n}

theorem Agree.refl (i : Fin n) : s.Agree s i :=
  ⟨rfl, rfl, rfl, fun _ _ _ => Iff.rfl⟩

theorem Agree.trans {s'' : Schedule n} (h : s.Agree s' i) (h' : s'.Agree s'' i) :
    s.Agree s'' i :=
  ⟨h'.conns.trans h.conns, h'.responses.trans h.responses, h'.queue.trans h.queue,
    fun queue token hi => (h'.mem queue token hi).trans (h.mem queue token hi)⟩

theorem agree_set (hj : j ≠ i) (phase : State n) (active : ℕ) :
    s.Agree { s with routes := { s.routes.set i phase with active } } j :=
  ⟨Function.update_of_ne hj _ _, rfl, rfl, fun _ _ _ => Iff.rfl⟩

theorem agree_schedule (hj : j ≠ token.index) (queue : Queue) :
    s.Agree { s with routes := s.routes.schedule queue token } j := by
  refine ⟨by simp, rfl, rfl, fun q other hi => ?_⟩
  rw [Routes.mem_schedule, or_iff_left]
  rintro ⟨-, rfl⟩
  exact hj hi.symm

theorem agree_unlink (hunique : s.routes.Unique) (hj : j ≠ token.index) (queue : Queue) :
    s.Agree { s with routes := s.routes.unlink queue token } j := by
  refine ⟨by simp, rfl, rfl, fun q other hi => ?_⟩
  rw [hunique.mem_unlink, and_iff_left]
  rintro ⟨-, rfl⟩
  exact hj hi.symm

theorem agree_publish (hj : j ≠ token.index) : s.Agree (s.publish token).2 j := by
  unfold publish
  split_ifs
  · exact .refl j
  · exact agree_schedule hj .idle

/-! ## Publishing and withdrawing -/

/-- A shared connection that is published is linked if nothing is in flight. -/
theorem Loose.publish (h : s.Loose token.index)
    (haccess : (s.routes.conns token.index).access = some (token, .shared)) :
    (s.publish token).2.Slot token.index := by
  unfold Schedule.publish
  split_ifs with hbusy
  · refine ⟨h, fun _ hr hq => ?_⟩
    rcases hbusy with hbusy | hbusy
    · exact absurd hr hbusy
    · exact absurd hq hbusy
  · obtain ⟨hr, hq⟩ := not_or.mp hbusy
    refine ⟨⟨fun hbound => ?_, fun hlinked hi => ?_, fun _ _ => ⟨not_not.mp hr, not_not.mp hq⟩,
      fun howned => ?_, fun hunused => ?_⟩, fun haccess' _ _ => ?_⟩
    · rw [Routes.conns_schedule] at hbound
      exact h.index hbound
    · rw [Routes.conns_schedule]
      rcases Routes.mem_schedule.mp hlinked with hlinked | ⟨rfl, rfl⟩
      · exact h.linked hlinked hi
      · exact haccess
    · rw [Routes.conns_schedule] at howned
      exact h.owed howned
    · rw [Routes.conns_schedule] at hunused
      exact h.unused hunused
    · rw [Routes.conns_schedule, haccess] at haccess'
      obtain ⟨rfl, -⟩ := Prod.mk.inj (Option.some.inj haccess')
      exact ⟨.idle, Routes.mem_schedule.mpr (Or.inr ⟨rfl, rfl⟩)⟩

@[simp] theorem conns_publish : (s.publish token).2.routes.conns = s.routes.conns := by
  unfold publish
  split_ifs <;> simp

@[simp] theorem active_publish : (s.publish token).2.routes.active = s.routes.active := by
  unfold publish
  split_ifs <;> simp

theorem Loose.unique_publish (h : s.Loose token.index) (hunique : s.routes.Unique)
    (hbound : (s.routes.conns token.index).bound = some token) :
    (s.publish token).2.routes.Unique := by
  unfold Schedule.publish
  split_ifs
  · exact hunique
  · exact hunique.schedule fun other hmem hi => h.eq_token hbound hmem hi

/-- A withdrawn connection is linked no more, and the others as before. -/
theorem mem_withdraw (hunique : s.routes.Unique) {queue : Queue} {other : Token n} :
    other ∈ (s.withdraw token).routes.queues queue ↔
      other ∈ s.routes.queues queue ∧ other ≠ token := by
  unfold withdraw
  rw [hunique.unlink.mem_unlink, hunique.mem_unlink, and_assoc, ← not_or]
  refine and_congr_right fun _ => not_congr ⟨?_, fun heq => ?_⟩
  · rintro (⟨-, heq⟩ | ⟨-, heq⟩)
    · exact heq
    · exact heq
  · cases queue with
    | idle => exact Or.inl ⟨rfl, heq⟩
    | released => exact Or.inr ⟨rfl, heq⟩

@[simp] theorem conns_withdraw : (s.withdraw token).routes.conns = s.routes.conns := by
  simp [withdraw]

@[simp] theorem active_withdraw : (s.withdraw token).routes.active = s.routes.active := by
  simp [withdraw]

theorem agree_withdraw (hunique : s.routes.Unique) (hj : j ≠ token.index) :
    s.Agree (s.withdraw token) j :=
  (agree_unlink hunique hj .idle).trans (agree_unlink hunique.unlink hj .released)

/-- A connection that stops being owned is withdrawn. -/
theorem Inv.withdraw (h : s.Inv) (hbound : (s.routes.conns token.index).bound = some token)
    (hagree : ∀ j, j ≠ token.index → s.Agree s' j) (hqueues : s'.routes.queues = s.routes.queues)
    (hphase : (s'.routes.conns token.index).bound = some token)
    (haccess : (s'.routes.conns token.index).access = none)
    (hunused : ¬(s'.routes.conns token.index).Unused)
    (hactive : s'.routes.active + (s.routes.conns token.index).weight = s.routes.active) :
    (s'.withdraw token).Inv := by
  have hunique : s'.routes.Unique := by
    intro queue
    rw [hqueues]
    exact h.unique queue
  refine h.update token.index (fun j hj => (hagree j hj).trans (agree_withdraw hunique hj))
    hunique.unlink.unlink ?_ ?_
  · rw [active_withdraw, conns_withdraw, State.weight_of_none haccess]
    exact hactive
  · have hlinked : ∀ {queue other}, other ∈ (s'.withdraw token).routes.queues queue →
        other.index ≠ token.index := by
      intro queue other hmem hi
      obtain ⟨hmem, hne⟩ := (mem_withdraw hunique).mp hmem
      rw [hqueues] at hmem
      exact hne ((h.slot token.index).eq_token hbound hmem hi)
    refine ⟨⟨fun hbound' => ?_, fun hmem hi => absurd hi (hlinked hmem),
      fun hmem hi => absurd hi (hlinked hmem), fun howned => ?_, fun hunused' => ?_⟩,
      fun haccess' => ?_⟩
    · rw [conns_withdraw, hphase] at hbound'
      exact (Option.some.inj hbound') ▸ rfl
    · rw [conns_withdraw] at howned
      obtain ⟨access, haccess'⟩ := State.owned_iff.mp howned
      rw [haccess] at haccess'
      cases haccess'
    · rw [conns_withdraw] at hunused'
      exact absurd hunused' hunused
    · rw [conns_withdraw, haccess] at haccess'
      cases haccess'

/-! ## The entry points -/

/-- `wrapping_sub(1)` of a count that covers a connection. -/
theorem Inv.retract (h : s.Inv) {i : Fin n} (howned : (s.routes.conns i).Owned) :
    (s.routes.active + (2 ^ 64 - 1)) % 2 ^ 64 + (s.routes.conns i).weight = s.routes.active := by
  have hpos := h.active_pos howned
  have hle := h.active_le
  have hcapacity := h.capacity
  have hone : (s.routes.conns i).weight = 1 := if_pos howned
  omega

theorem Inv.fail (h : s.Inv) (token : Token n) (err : Failure) : (s.fail token err).2.Inv := by
  unfold Schedule.fail
  split
  · exact h
  · next routes hroutes =>
    obtain ⟨hbound, rfl⟩ := Routes.fail_eq_some hroutes
    refine h.withdraw hbound (fun j hj => agree_set hj _ _) rfl ?_ ?_ ?_ ?_
    · simp [Routes.set, State.bound]
    · simp [Routes.set, State.access]
    · simp [Routes.set, State.Unused]
    · dsimp only
      split_ifs with howned
      · exact h.retract howned
      · rw [State.weight, if_neg howned, Nat.add_zero]

theorem Inv.reconnect (h : s.Inv) (token : Token n) (err : Failure) :
    (s.reconnect token err).Inv := by
  unfold Schedule.reconnect
  split
  · exact h
  · next routes hroutes =>
    obtain ⟨hbound, howned, rfl⟩ := Routes.reconnect_eq_some hroutes
    refine h.withdraw hbound (fun j hj => agree_set hj _ _) rfl ?_ ?_ ?_ (h.retract howned)
    · simp [Routes.set, State.bound]
    · simp [Routes.set, State.access]
    · simp [Routes.set, State.Unused]

theorem Inv.activate (h : s.Inv) (token : Token n) (positioned : Bool) :
    (s.activate token positioned).2.Inv := by
  unfold Schedule.activate
  split_ifs
  · split
    · exact h
    · next phase hphase =>
      obtain ⟨hvacant, rfl⟩ := State.bind_eq_some.mp hphase
      have hslot := h.slot token.index
      have hunlinked : ∀ {queue other}, other ∈ s.routes.queues queue →
          other.index ≠ token.index := fun hmem hi =>
        hslot.unlinked (by simp [hvacant, State.access]) hi hmem
      refine h.update token.index (fun j hj => agree_set hj _ _) h.unique ?_ ?_
      · simp [Routes.set, hvacant, State.weight, State.Owned]
      · refine ⟨⟨fun hbound => ?_, fun hmem hi => absurd hi (hunlinked hmem),
          fun hmem hi => absurd hi (hunlinked hmem), fun howned => ?_,
          fun _ => hslot.unused (by simp [hvacant, State.Unused])⟩, fun haccess => ?_⟩
        · simp [Routes.set, State.bound] at hbound
          rw [hbound]
        · simp [Routes.set, State.Owned] at howned
        · simp [Routes.set, State.access] at haccess
  · exact h

theorem Inv.markReady (h : s.Inv) (token : Token n) : (s.markReady token).2.Inv := by
  unfold Schedule.markReady Routes.markReady
  cases hphase : (s.routes.conns token.index).markReady token with
  | none => exact h
  | some phase =>
    obtain ⟨hinit, rfl⟩ := State.markReady_eq_some.mp hphase
    have hslot := h.slot token.index
    obtain ⟨hr, hq⟩ := hslot.unused (by simp [hinit, State.Unused])
    have hunlinked : ∀ {queue other}, other ∈ s.routes.queues queue →
        other.index ≠ token.index := fun hmem hi =>
      hslot.unlinked (by simp [hinit, State.access]) hi hmem
    dsimp only
    generalize hs' : ({ s with routes :=
      { s.routes.set token.index (.shared token ⟨none, none⟩) with
        active := (s.routes.active + 1) % 2 ^ 64 } } : Schedule n) = s'
    have hconns : s'.routes.conns token.index = .shared token ⟨none, none⟩ := by
      subst hs'
      simp [Routes.set]
    have hagree : ∀ j, j ≠ token.index → s.Agree s' j := by
      subst hs'
      exact fun j hj => agree_set hj _ _
    have hqueues : s'.routes.queues = s.routes.queues := by
      subst hs'
      rfl
    have hunique : s'.routes.Unique := by
      subst hs'
      exact h.unique
    have hactive : s'.routes.active = s.routes.active + 1 := by
      subst hs'
      have hcapacity := h.capacity
      have hlt := h.active_lt
        (show ¬(s.routes.conns token.index).Owned by simp [hinit, State.Owned])
      exact Nat.mod_eq_of_lt (by omega)
    have hlanes : s'.responses token.index = [] ∧ s'.queue token.index = [] := by
      subst hs'
      exact ⟨hr, hq⟩
    have hloose : s'.Loose token.index := by
      refine ⟨fun hbound => ?_, fun hmem hi => ?_, fun _ _ => hlanes, fun _ => ?_, fun _ => hlanes⟩
      · rw [hconns] at hbound
        exact (Option.some.inj hbound) ▸ rfl
      · rw [hqueues] at hmem
        exact absurd hi (hunlinked hmem)
      · rw [hlanes.2]
        simp
    have haccess : (s'.routes.conns token.index).access = some (token, .shared) := by
      rw [hconns]
      rfl
    refine h.update token.index (fun j hj => (hagree j hj).trans (agree_publish hj))
      (hloose.unique_publish hunique (State.bound_of_access haccess)) ?_ (hloose.publish haccess)
    rw [active_publish, conns_publish, hactive, State.weight_of_access haccess, hinit]
    rfl

/-- Retirement comes after a failure, when the lanes are drained. -/
theorem Inv.retire (h : s.Inv) (hfailure : s.routes.failure token ≠ none)
    (hresponses : s.responses token.index = []) (hqueue : s.queue token.index = []) :
    (s.retire token).Inv := by
  obtain ⟨-, haccess, -⟩ := State.failure_ne_none hfailure
  have hslot := h.slot token.index
  have hunlinked : ∀ {queue other}, other ∈ s.routes.queues queue →
      other.index ≠ token.index := fun hmem hi =>
    hslot.unlinked (by simp [haccess]) hi hmem
  have hvacant : (s.retire token).routes.conns token.index = .vacant := by
    simp [Schedule.retire, Routes.retire, Routes.set]
  refine h.update token.index (fun j hj => agree_set hj _ _) h.unique ?_ ?_
  · rw [State.weight_of_none haccess, hvacant]
    rfl
  · refine ⟨⟨fun hbound => ?_, fun hmem hi => absurd hi (hunlinked hmem),
      fun hmem hi => absurd hi (hunlinked hmem), fun howned => ?_,
      fun _ => ⟨hresponses, hqueue⟩⟩, fun haccess => ?_⟩
    · rw [hvacant] at hbound
      cases hbound
    · rw [hvacant] at howned
      exact howned.elim
    · rw [hvacant] at haccess
      cases haccess

/-- Requests that leave the front of a queue. -/
theorem Inv.drop_queue (h : s.Inv) (i : Fin n) (work : ℕ) :
    Inv { s with queue := Function.update s.queue i ((s.queue i).drop work) } := by
  have hslot := h.slot i
  refine h.update i (fun j hj => ⟨rfl, rfl, Function.update_of_ne hj _ _, fun _ _ _ => Iff.rfl⟩)
    h.unique rfl ?_
  refine ⟨⟨hslot.index, hslot.linked, fun hmem hi => ?_, fun howned => ?_, fun hunused => ?_⟩,
    fun haccess hr hq => ?_⟩
  · obtain ⟨hr, hq⟩ := hslot.idle hmem hi
    exact ⟨hr, by simp [hq]⟩
  · dsimp only
    rw [Function.update_self]
    exact fun order horder => hslot.owed howned order (List.mem_of_mem_drop horder)
  · obtain ⟨hr, hq⟩ := hslot.unused hunused
    exact ⟨hr, by simp [hq]⟩
  · -- Every request has an order, so an empty lane has an empty queue.
    refine hslot.listed haccess hr (List.eq_nil_iff_forall_not_mem.mpr fun order horder => ?_)
    have howed := hslot.owed (State.owned_iff.mpr ⟨_, haccess⟩) order horder
    rw [hr] at howed
    cases howed

theorem Inv.clearSend (h : s.Inv) (token : Token n) (work : ℕ) :
    (s.clearSend token work).2.Inv := by
  unfold Schedule.clearSend
  split
  · exact h
  · exact h.drop_queue token.index work

theorem Inv.drain (h : s.Inv) (token : Token n) (work : ℕ) (reserved : Bool) :
    (s.drain token work reserved).2.Inv := by
  unfold Schedule.drain
  split
  · exact h
  · split_ifs
    · exact h
    · exact h.drop_queue token.index work
    · exact h.drop_queue token.index work

/-- Orders retire only after a failure. -/
theorem Inv.clearRecv (h : s.Inv) (token : Token n) (work : ℕ) :
    (s.clearRecv token work).2.Inv := by
  unfold Schedule.clearRecv
  split
  · exact h
  · next failure hfailure =>
    obtain ⟨-, haccess, hunused⟩ := State.failure_ne_none (by
      unfold Routes.failure at hfailure
      rw [hfailure]
      exact Option.some_ne_none _)
    have hslot := h.slot token.index
    refine h.update token.index
      (fun j hj => ⟨rfl, Function.update_of_ne hj _ _, rfl, fun _ _ _ => Iff.rfl⟩) h.unique rfl ?_
    refine ⟨⟨hslot.index, hslot.linked, fun hmem hi => ?_, fun howned => ?_, fun hunused' => ?_⟩,
      fun haccess' => ?_⟩
    · exact absurd hmem (hslot.unlinked (by simp [haccess]) hi)
    · obtain ⟨access, haccess'⟩ := State.owned_iff.mp howned
      rw [haccess] at haccess'
      cases haccess'
    · exact absurd hunused' hunused
    · rw [haccess] at haccess'
      cases haccess'

/-- A frontier that changes. -/
theorem Loose.withFrontier (h : s.Loose i) {phase : State n} {apply : Frontier → Frontier}
    (hphase : phase = (s.routes.conns i).withFrontier token apply) :
    Loose { s with routes := s.routes.set i phase } i := by
  subst hphase
  have hset : (s.routes.set i ((s.routes.conns i).withFrontier token apply)).conns i =
      (s.routes.conns i).withFrontier token apply := by
    simp [Routes.set]
  refine ⟨fun hbound => ?_, fun hmem hi => ?_, h.idle, fun howned => ?_, fun hunused => ?_⟩
  · rw [hset, State.bound_withFrontier] at hbound
    exact h.index hbound
  · rw [hset, State.access_withFrontier]
    exact h.linked hmem hi
  · rw [hset, State.owned_iff, State.access_withFrontier, ← State.owned_iff] at howned
    exact h.owed howned
  · rw [hset, State.unused_withFrontier] at hunused
    exact h.unused hunused

theorem weight_withFrontier {phase : State n} {apply : Frontier → Frontier} :
    (phase.withFrontier token apply).weight = phase.weight := by
  cases phase <;> rfl

theorem Inv.received (h : s.Inv) (token : Token n) (cutoff : Cutoff) (hasPrefix : Bool) :
    (s.received token cutoff hasPrefix).Inv := by
  have hslot := h.slot token.index
  refine h.update token.index (fun j hj => agree_set hj _ _) h.unique ?_
    ⟨hslot.withFrontier rfl, fun haccess => ?_⟩
  · simp [Schedule.received, Routes.set, weight_withFrontier]
  · simp only [Schedule.received, Routes.set, Function.update_self,
      State.access_withFrontier] at haccess
    exact hslot.listed haccess

/-! ## Replies -/

@[simp] theorem responses_publish : (s.publish token).2.responses = s.responses := by
  unfold publish
  split_ifs <;> rfl

@[simp] theorem queue_publish : (s.publish token).2.queue = s.queue := by
  unfold publish
  split_ifs <;> rfl

theorem responses_completed (last : Bool) : (s.completed token last).responses =
    Function.update s.responses token.index (s.responses token.index).tail := by
  unfold completed
  dsimp only
  split_ifs <;> simp [passed]

theorem queue_completed (last : Bool) : (s.completed token last).queue = s.queue := by
  unfold completed
  dsimp only
  split_ifs <;> simp [passed]

theorem conns_completed (last : Bool) :
    (s.completed token last).routes.conns = (s.passed token last).routes.conns := by
  unfold completed
  dsimp only
  split_ifs <;> simp

/-- The front order leaves, when no request needs it. -/
theorem Inv.completed (h : s.Inv) (hbound : (s.routes.conns token.index).bound = some token)
    (hne : s.responses token.index ≠ [])
    (howed : (s.routes.conns token.index).Owned →
      ∀ order ∈ s.queue token.index, order ∈ (s.responses token.index).tail) (last : Bool) :
    (s.completed token last).Inv := by
  have hslot := h.slot token.index
  unfold Schedule.completed
  dsimp only
  generalize hs' : s.passed token last = s'
  have hagree : ∀ j, j ≠ token.index → s.Agree s' j := by
    subst hs'
    exact fun j hj => ⟨Function.update_of_ne hj _ _, Function.update_of_ne hj _ _, rfl,
      fun _ _ _ => Iff.rfl⟩
  have hqueues : s'.routes.queues = s.routes.queues := by
    subst hs'
    rfl
  have hactive : s'.routes.active + (s.routes.conns token.index).weight =
      s.routes.active + (s'.routes.conns token.index).weight := by
    subst hs'
    simp [passed, Routes.set, weight_withFrontier]
  have haccess : (s'.routes.conns token.index).access = (s.routes.conns token.index).access := by
    subst hs'
    simp [passed, Routes.set]
  have hbound' : (s'.routes.conns token.index).bound = some token := by
    subst hs'
    simpa [passed, Routes.set] using hbound
  have hunused : ¬(s'.routes.conns token.index).Unused := by
    subst hs'
    simp only [passed, Routes.set, Function.update_self, State.unused_withFrontier]
    exact fun hunused => hne (hslot.unused hunused).1
  have hlanes : s'.responses token.index = (s.responses token.index).tail ∧
      s'.queue token.index = s.queue token.index := by
    subst hs'
    exact ⟨Function.update_self .., rfl⟩
  have hunique : s'.routes.Unique := by
    intro queue
    rw [hqueues]
    exact h.unique queue
  have hloose : s'.Loose token.index := by
    refine ⟨fun hother => ?_, fun hmem hi => ?_, fun hmem hi => ?_, fun howned => ?_,
      fun hunused' => absurd hunused' hunused⟩
    · rw [hbound'] at hother
      exact (Option.some.inj hother) ▸ rfl
    · rw [hqueues] at hmem
      rw [haccess]
      exact hslot.linked hmem hi
    · rw [hqueues] at hmem
      exact absurd (hslot.idle hmem hi).1 hne
    · rw [State.owned_iff, haccess, ← State.owned_iff] at howned
      rw [hlanes.1, hlanes.2]
      exact howed howned
  split_ifs with hshared
  · refine h.update token.index (fun j hj => (hagree j hj).trans (agree_publish hj))
      (hloose.unique_publish hunique hbound') ?_ (hloose.publish hshared)
    rwa [active_publish, conns_publish]
  · refine h.update token.index hagree hunique hactive ⟨hloose, fun {other} hother => ?_⟩
    have hsame := State.bound_of_access hother
    rw [hbound'] at hsame
    obtain rfl := Option.some.inj hsame
    exact absurd hother hshared

/-- What `try_reply` does : nothing, or it completes the front order. -/
theorem tryReply_cases (s : Schedule n) (token : Token n) (answer : Insert) :
    (s.tryReply token answer).2 = s ∨
      ((s.routes.conns token.index).bound = some token ∧ s.responses token.index ≠ [] ∧
        ∃ last, (s.tryReply token answer).2 = s.completed token last) := by
  unfold tryReply
  cases hbound : s.routes.bound token with
  | none => exact Or.inl rfl
  | some frontier =>
    have htoken : (s.routes.conns token.index).bound = some token := by
      unfold Routes.bound at hbound
      split_ifs at hbound with h
      exact h
    dsimp only
    split_ifs
    · exact Or.inl rfl
    · by_cases hlane : s.responses token.index = []
      · simp [insert, hlane]
      · rw [insert, if_neg hlane]
        cases answer with
        | stored => exact Or.inr ⟨htoken, hlane, _, rfl⟩
        | backpressure => exact Or.inl rfl
        | capacity => exact Or.inl rfl
        | front front =>
          cases front with
          | detached => exact Or.inr ⟨htoken, hlane, _, rfl⟩
          | _ => exact Or.inl rfl

theorem Inv.tryReply (h : s.Inv) (token : Token n) (answer : Insert)
    (howed : (s.routes.conns token.index).Owned →
      ∀ order ∈ (s.tryReply token answer).2.queue token.index,
        order ∈ (s.tryReply token answer).2.responses token.index) :
    (s.tryReply token answer).2.Inv := by
  rcases s.tryReply_cases token answer with heq | ⟨hbound, hne, last, heq⟩
  · rw [heq]
    exact h
  · rw [heq] at howed ⊢
    rw [responses_completed, queue_completed, Function.update_self] at howed
    exact h.completed hbound hne howed last

/-! ## Admission -/

theorem unlink_of_not_mem {r : Routes n} {queue : Queue} (h : token ∉ r.queues queue) :
    r.unlink queue token = r := by
  unfold Routes.unlink
  exact if_neg fun hget => h (Fifo.get_some hget).1

/-- An owned connection takes an order and a request, off the idle queue. -/
theorem Inv.admitted (h : s.Inv) (howned : (s.routes.conns token.index).Owned)
    (hbound : (s.routes.conns token.index).bound = some token) :
    (Schedule.admitted { s with routes := s.routes.unlink .idle token } token).Inv := by
  have hslot := h.slot token.index
  refine h.update token.index (fun j hj => ?_) h.unique.unlink ?_ ?_
  · refine (agree_unlink h.unique hj .idle).trans ?_
    exact ⟨rfl, Function.update_of_ne hj _ _, Function.update_of_ne hj _ _, fun _ _ _ => Iff.rfl⟩
  · simp [Schedule.admitted]
  · have hconns : (s.routes.unlink .idle token).conns = s.routes.conns := Routes.conns_unlink
    refine ⟨⟨fun hother => ?_, fun hmem hi => ?_, fun hmem hi => ?_, fun _ => ?_,
      fun hunused => ?_⟩, fun _ hr => ?_⟩
    · dsimp only [Schedule.admitted] at hother
      rw [hconns] at hother
      exact hslot.index hother
    · dsimp only [Schedule.admitted] at hmem ⊢
      rw [hconns]
      exact hslot.linked (h.unique.mem_unlink.mp hmem).1 hi
    · obtain ⟨hmem, hne⟩ := h.unique.mem_unlink.mp hmem
      exact absurd ⟨rfl, hslot.eq_token hbound hmem hi⟩ hne
    · dsimp only [Schedule.admitted]
      rw [Function.update_self, Function.update_self]
      intro order horder
      rcases List.mem_append.mp horder with horder | horder
      · exact List.mem_append_left _ (hslot.owed howned order horder)
      · exact List.mem_append_right _ horder
    · dsimp only [Schedule.admitted] at hunused
      rw [hconns] at hunused
      cases hphase : s.routes.conns token.index <;> simp_all [State.Unused, State.Owned]
    · simp [Schedule.admitted] at hr

theorem Inv.next (h : s.Inv) (next : ℕ) : Inv { s with routes := { s.routes with next } } :=
  ⟨h.capacity, h.active, h.unique, fun i =>
    (h.slot i).congr ⟨rfl, rfl, rfl, fun _ _ _ => Iff.rfl⟩⟩

theorem advance_eq_some {r routes : Routes n} {index : Fin n}
    (h : r.advance = some (index, routes)) : ∃ next, routes = { r with next } := by
  unfold Routes.advance at h
  by_cases hlt : r.next < n
  · rw [dif_pos hlt] at h
    exact ⟨_, (Prod.mk.inj (Option.some.inj h)).2.symm⟩
  · rw [dif_neg hlt] at h
    cases h

/-- `try_pool` moves the cursor, and may publish on one shared connection. -/
theorem poolFrom_cases (answers : Fin n → Registration × Handoff) : ∀ (work : ℕ) (blocked : Block)
    (s : Schedule n), ∃ next, (∃ error, poolFrom answers work blocked s =
        (.error error, { s with routes := { s.routes with next } })) ∨
      ∃ index token, (s.routes.conns index).access = some (token, .shared) ∧
        poolFrom answers work blocked s = (.ok token, admitted { s with
          routes := { s.routes with next }.unlink .idle token } token)
  | 0, blocked, s => ⟨s.routes.next, Or.inl ⟨_, rfl⟩⟩
  | work + 1, blocked, s => by
    unfold poolFrom
    cases hadvance : s.routes.advance with
    | none => exact ⟨s.routes.next, Or.inl ⟨_, rfl⟩⟩
    | some moved =>
      obtain ⟨index, routes⟩ := moved
      obtain ⟨next, rfl⟩ := advance_eq_some hadvance
      dsimp only
      have hnext := fun blocked =>
        poolFrom_cases answers work blocked { s with routes := { s.routes with next } }
      dsimp only at hnext
      split
      · next token haccess =>
        split
        · exact hnext _
        · exact ⟨next, Or.inl ⟨_, rfl⟩⟩
        · exact ⟨next, Or.inr ⟨index, token, haccess, rfl⟩⟩
        · exact ⟨next, Or.inl ⟨_, rfl⟩⟩
        · exact hnext _
      · exact hnext _

theorem Inv.tryPool (h : s.Inv) (exhausted : Bool) (answers : Fin n → Registration × Handoff) :
    (s.tryPool exhausted answers).2.Inv := by
  unfold Schedule.tryPool
  split_ifs
  · exact h
  · obtain ⟨next, ⟨error, heq⟩ | ⟨index, token, haccess, heq⟩⟩ :=
      poolFrom_cases answers n .pool s
    · rw [heq]
      exact h.next next
    · have hbound := State.bound_of_access haccess
      obtain rfl := (h.slot index).index hbound
      rw [heq]
      exact (h.next next).admitted (State.owned_iff.mpr ⟨_, haccess⟩) hbound

/-- `try_dispatch_lease` publishes on an exclusive connection, which no queue links. -/
theorem tryDispatchLease_cases (h : s.Inv) (token : Token n) (answer : Handoff) :
    (s.tryDispatchLease token answer).2 = s ∨
      ((s.routes.conns token.index).access = some (token, .exclusive) ∧
        (s.tryDispatchLease token answer).2 =
          Schedule.admitted { s with routes := s.routes.unlink .idle token } token) := by
  unfold tryDispatchLease
  split_ifs with hexclusive
  · have haccess : (s.routes.conns token.index).access = some (token, .exclusive) :=
      of_decide_eq_true hexclusive
    cases answer with
    | published =>
      have hmem : token ∉ s.routes.queues .idle :=
        (h.slot token.index).unlinked (by simp [haccess]) rfl
      exact Or.inr ⟨haccess, by rw [unlink_of_not_mem hmem]⟩
    | _ => exact Or.inl rfl
  · exact Or.inl rfl

theorem Inv.tryDispatchLease (h : s.Inv) (token : Token n) (answer : Handoff) :
    (s.tryDispatchLease token answer).2.Inv := by
  rcases tryDispatchLease_cases h token answer with heq | ⟨haccess, heq⟩
  · rw [heq]
    exact h
  · rw [heq]
    exact h.admitted (State.owned_iff.mpr ⟨_, haccess⟩) (State.bound_of_access haccess)

/-! ## Leases -/

/-- A released connection is shared again, and linked in the released queue. -/
theorem release_cases (s : Schedule n) (token : Token n) :
    s.release token = s ∨ ∃ frontier, s.routes.conns token.index = .exclusive token frontier ∧
      s.release token = { s with routes :=
        (s.routes.set token.index (.shared token frontier)).schedule .released token } := by
  unfold release
  cases hphase : (s.routes.conns token.index).release token with
  | none => exact Or.inl rfl
  | some phase =>
    obtain ⟨frontier, hexclusive, rfl⟩ := State.release_eq_some.mp hphase
    exact Or.inr ⟨frontier, hexclusive, rfl⟩

theorem Inv.release (h : s.Inv) (token : Token n) : (s.release token).Inv := by
  rcases s.release_cases token with heq | ⟨frontier, hphase, heq⟩
  · rw [heq]
    exact h
  · rw [heq]
    have hslot := h.slot token.index
    have hunlinked : ∀ {queue other}, other ∈ s.routes.queues queue →
        other.index ≠ token.index := fun hmem hi =>
      hslot.unlinked (by simp [hphase, State.access]) hi hmem
    have hconns : ((s.routes.set token.index (.shared token frontier)).schedule .released
        token).conns token.index = .shared token frontier := by
      simp [Routes.set]
    have hunique : (s.routes.set token.index (.shared token frontier)).Unique := h.unique
    refine h.update token.index (fun j hj => ?_)
      (hunique.schedule fun other hmem hi => absurd hi (hunlinked hmem)) ?_ ?_
    · exact (agree_set hj _ _).trans (agree_schedule hj .released)
    · dsimp only
      rw [hconns, hphase, Routes.active_schedule]
      rfl
    · refine ⟨⟨fun hbound => ?_, fun hmem hi => ?_, fun hmem hi => ?_, fun _ => ?_,
        fun hunused => ?_⟩, fun haccess _ _ => ?_⟩
      · rw [hconns] at hbound
        exact (Option.some.inj hbound) ▸ rfl
      · rw [hconns]
        rcases Routes.mem_schedule.mp hmem with hmem | ⟨-, rfl⟩
        · exact absurd hi (hunlinked hmem)
        · rfl
      · rcases Routes.mem_schedule.mp hmem with hmem | ⟨hqueue, -⟩
        · exact absurd hi (hunlinked hmem)
        · cases hqueue
      · exact hslot.owed (by simp [hphase, State.Owned])
      · rw [hconns] at hunused
        exact hunused.elim
      · rw [hconns] at haccess
        obtain ⟨rfl, -⟩ := Prod.mk.inj (Option.some.inj haccess)
        exact ⟨.released, Routes.mem_schedule.mpr (Or.inr ⟨rfl, rfl⟩)⟩

/-- A connection with something in flight. -/
def Busy (s : Schedule n) (token : Token n) : Prop :=
  s.responses token.index ≠ [] ∨ s.queue token.index ≠ []

/-- Schedules that differ in what the queues link only. -/
structure Relinked (s s' : Schedule n) : Prop where
  conns : s'.routes.conns = s.routes.conns
  responses : s'.responses = s.responses
  queue : s'.queue = s.queue
  identity : s'.identity = s.identity

theorem Relinked.trans {s'' : Schedule n} (h : s.Relinked s') (h' : s'.Relinked s'') :
    s.Relinked s'' :=
  ⟨h'.conns.trans h.conns, h'.responses.trans h.responses, h'.queue.trans h.queue,
    h'.identity.trans h.identity⟩

theorem Relinked.busy (h : s.Relinked s') : s'.Busy token ↔ s.Busy token := by
  unfold Busy
  rw [h.responses, h.queue]

/-- A connection popped from the released queue leaves its slot loose. -/
theorem Inv.popped (h : s.Inv) {routes : Routes n}
    (hpop : s.routes.pop .released = some (token, routes)) :
    routes.Unique ∧ (s.routes.conns token.index).access = some (token, .shared) ∧
      s.Relinked { s with routes } ∧ Loose { s with routes } token.index ∧
      (∀ j, j ≠ token.index → s.Agree { s with routes } j) ∧
      routes.active = s.routes.active := by
  obtain ⟨hunique, htarget, hconns, hactive, hmem⟩ := h.unique.pop hpop
  have hslot := h.slot token.index
  refine ⟨hunique, hslot.linked htarget rfl, ⟨hconns, rfl, rfl, rfl⟩,
    ⟨fun hbound => ?_, fun hlinked hi => ?_, fun hidle hi => ?_, fun howned => ?_,
      fun hunused => ?_⟩, fun j hj => ⟨by rw [hconns], rfl, rfl, fun queue other hi => ?_⟩, hactive⟩
  · dsimp only at hbound
    rw [hconns] at hbound
    exact hslot.index hbound
  · dsimp only
    rw [hconns]
    exact hslot.linked ((hmem _ _).mp hlinked).1 hi
  · exact hslot.idle ((hmem _ _).mp hidle).1 hi
  · dsimp only at howned
    rw [hconns] at howned
    exact hslot.owed howned
  · dsimp only at hunused
    rw [hconns] at hunused
    exact hslot.unused hunused
  · refine (hmem queue other).trans (and_iff_left ?_)
    rintro ⟨-, rfl⟩
    exact hj hi.symm

/-- A connection is published exactly if it is not busy. -/
theorem publish_eq (s : Schedule n) (token : Token n) :
    (s.Busy token ∧ s.publish token = (false, s)) ∨ (¬s.Busy token ∧
      s.publish token = (true, { s with routes := s.routes.schedule .idle token })) := by
  by_cases hbusy : s.Busy token
  · exact Or.inl ⟨hbusy, if_pos hbusy⟩
  · exact Or.inr ⟨hbusy, if_neg hbusy⟩

theorem relinked_schedule (s : Schedule n) (queue : Queue) (token : Token n) :
    s.Relinked { s with routes := s.routes.schedule queue token } :=
  ⟨Routes.conns_schedule, rfl, rfl, rfl⟩

/-- One round of `refresh` : the front of the released queue moves to the idle queue, or to
the back if it is busy. -/
theorem Inv.refresh_round (h : s.Inv) {token : Token n} {rest : List (Token n)}
    (hqueue : s.routes.queues .released = token :: rest) {deferred : Option (Token n)}
    (hdeferred : some token ≠ deferred) :
    ∃ s', s'.Inv ∧ s.Relinked s' ∧
      ((s.Busy token ∧ s'.routes.queues .released = rest ++ [token] ∧
          ∀ work, refreshFrom (work + 1) deferred s =
            refreshFrom work (deferred.or (some token)) s') ∨
        (s'.routes.queues .released = rest ∧
          ∀ work, refreshFrom (work + 1) deferred s = refreshFrom work deferred s')) := by
  have hfront : s.routes.front .released = some token := by
    rw [Routes.front, hqueue]
    rfl
  have hpop : s.routes.pop .released =
      some (token, { s.routes with queues := Function.update s.routes.queues .released rest }) := by
    unfold Routes.pop
    rw [hqueue]
  obtain ⟨hunique, haccess, hrelinked, hloose, hagree, hactive⟩ := h.popped hpop
  generalize hs1 : ({ s with routes :=
    { s.routes with queues := Function.update s.routes.queues .released rest } } : Schedule n) = s1
    at hrelinked hloose hagree
  have hreleased : s1.routes.queues .released = rest := by
    subst hs1
    simp
  have hconns : s1.routes.conns = s.routes.conns := hrelinked.conns
  have haccess1 : (s1.routes.conns token.index).access = some (token, .shared) := by
    rw [hconns]
    exact haccess
  have hunique1 : s1.routes.Unique := by
    subst hs1
    exact hunique
  have hactive1 : s1.routes.active = s.routes.active := by
    subst hs1
    rfl
  have hbound := State.bound_of_access haccess1
  have hloop : ∀ work, refreshFrom (work + 1) deferred s =
      if (s1.publish token).1 then refreshFrom work deferred (s1.publish token).2
      else refreshFrom work (deferred.or (some token))
        { (s1.publish token).2 with
          routes := (s1.publish token).2.routes.schedule .released token } := by
    intro work
    subst hs1
    conv_lhs => unfold refreshFrom
    rw [hfront, if_neg hdeferred, hpop]
    refine (if_pos haccess).trans ?_
    rcases Schedule.publish _ token with ⟨_ | _, _⟩ <;> rfl
  rcases s1.publish_eq token with ⟨hbusy, hpublish⟩ | ⟨hbusy, hpublish⟩
  · refine ⟨{ s1 with routes := s1.routes.schedule .released token }, ?_,
      hrelinked.trans (relinked_schedule s1 _ _), Or.inl ⟨hrelinked.busy.mp hbusy, ?_, ?_⟩⟩
    · refine h.update token.index
        (fun j hj => (hagree j hj).trans (agree_schedule hj .released))
        (hunique1.schedule fun other hmem hi => hloose.eq_token hbound hmem hi) ?_ ?_
      · dsimp only
        rw [Routes.active_schedule, Routes.conns_schedule, hactive1, hconns]
      · refine ⟨⟨fun hother => ?_, fun hmem hi => ?_, fun hmem hi => ?_, fun howned => ?_,
          fun hunused => ?_⟩, fun hother _ _ => ?_⟩
        · rw [Routes.conns_schedule] at hother
          exact hloose.index hother
        · rw [Routes.conns_schedule]
          rcases Routes.mem_schedule.mp hmem with hmem | ⟨-, rfl⟩
          · exact hloose.linked hmem hi
          · exact haccess1
        · rcases Routes.mem_schedule.mp hmem with hmem | ⟨hqueue, -⟩
          · exact hloose.idle hmem hi
          · cases hqueue
        · rw [Routes.conns_schedule] at howned
          exact hloose.owed howned
        · rw [Routes.conns_schedule] at hunused
          exact hloose.unused hunused
        · rw [Routes.conns_schedule, haccess1] at hother
          obtain ⟨rfl, -⟩ := Prod.mk.inj (Option.some.inj hother)
          exact ⟨.released, Routes.mem_schedule.mpr (Or.inr ⟨rfl, rfl⟩)⟩
    · -- The popped connection was linked once, so it goes to the back.
      have hrest : Fifo.get Token.index (s1.routes.queues .released) token.index ≠ some token := by
        intro hget
        have hmem := (Fifo.get_some hget).1
        rw [hreleased] at hmem
        have hu := h.unique .released
        rw [hqueue] at hu
        exact hu.front hmem rfl
      unfold Routes.schedule
      rw [if_neg hrest, hreleased]
      simp
    · intro work
      rw [hloop, hpublish]
      rfl
  · refine ⟨{ s1 with routes := s1.routes.schedule .idle token }, ?_,
      hrelinked.trans (relinked_schedule s1 _ _), Or.inr ⟨?_, ?_⟩⟩
    · have hslot := hloose.publish haccess1
      have hunique' := hloose.unique_publish hunique1 hbound
      rw [hpublish] at hslot hunique'
      refine h.update token.index (fun j hj => (hagree j hj).trans (agree_schedule hj .idle))
        hunique' ?_ hslot
      dsimp only
      rw [Routes.active_schedule, Routes.conns_schedule, hactive1, hconns]
    · unfold Routes.schedule
      split_ifs
      · exact hreleased
      · simp [hreleased]
    · intro work
      rw [hloop, hpublish]
      rfl

/-- With work for each released connection `refresh` ends : those before `later` are looked at
once, and all that stay are busy. -/
theorem Inv.refreshFrom : ∀ (rest : List (Token n)) {later : List (Token n)} {s : Schedule n},
    s.Inv → s.routes.queues .released = rest ++ later → (∀ token ∈ later, s.Busy token) →
      ∃ s', (∀ work, rest.length ≤ work → refreshFrom work later.head? s = s') ∧ s'.Inv ∧
        s.Relinked s' ∧ ∀ token ∈ s'.routes.queues .released, s'.Busy token
  | [], later, s, h, hqueue, hbusy => by
    refine ⟨s, fun work _ => ?_, h, ⟨rfl, rfl, rfl, rfl⟩, ?_⟩
    · cases work with
      | zero => rfl
      | succ work =>
        unfold Schedule.refreshFrom
        rw [if_pos]
        rw [Routes.front, hqueue, List.nil_append]
    · rw [hqueue]
      exact hbusy
  | token :: rest, later, s, h, hqueue, hbusy => by
    have hunique := h.unique .released
    rw [hqueue] at hunique
    have hdeferred : some token ≠ later.head? := by
      intro heq
      have hmem : token ∈ rest ++ later := List.mem_append_right _ (List.mem_of_head? heq.symm)
      exact hunique.front hmem rfl
    obtain ⟨s1, hinv, hrelinked, ⟨hfirst, hqueue1, hround⟩ | ⟨hqueue1, hround⟩⟩ :=
      h.refresh_round hqueue hdeferred
    · have hlater : ∀ other ∈ later ++ [token], s1.Busy other := by
        intro other hmem
        rw [hrelinked.busy]
        rcases List.mem_append.mp hmem with hmem | hmem
        · exact hbusy other hmem
        · rwa [List.mem_singleton.mp hmem]
      obtain ⟨s', hloop, hinv', hrelinked', hbusy'⟩ :=
        hinv.refreshFrom rest (hqueue1.trans (List.append_assoc ..)) hlater
      refine ⟨s', fun work hwork => ?_, hinv', hrelinked.trans hrelinked', hbusy'⟩
      obtain ⟨work, rfl⟩ := Nat.exists_eq_add_of_lt (Nat.lt_of_lt_of_le (Nat.succ_pos _) hwork)
      rw [Nat.zero_add, hround, ← hloop work (by rw [List.length_cons] at hwork; omega),
        List.head?_append]
      rfl
    · have hlater : ∀ other ∈ later, s1.Busy other := fun other hmem =>
        hrelinked.busy.mpr (hbusy other hmem)
      obtain ⟨s', hloop, hinv', hrelinked', hbusy'⟩ := hinv.refreshFrom rest hqueue1 hlater
      refine ⟨s', fun work hwork => ?_, hinv', hrelinked.trans hrelinked', hbusy'⟩
      obtain ⟨work, rfl⟩ := Nat.exists_eq_add_of_lt (Nat.lt_of_lt_of_le (Nat.succ_pos _) hwork)
      rw [Nat.zero_add, hround, ← hloop work (by rw [List.length_cons] at hwork; omega)]

/-- `refresh` needs no more work than there are released connections. -/
theorem refreshFrom_add (h : s.Inv) (work : ℕ) :
    refreshFrom ((s.routes.queues .released).length + work) none s = s.refresh := by
  obtain ⟨s', hloop, -⟩ :=
    h.refreshFrom (s.routes.queues .released) (List.append_nil _).symm (by simp)
  exact (hloop _ (Nat.le_add_right _ _)).trans (hloop _ le_rfl).symm

/-- After `refresh` every connection still released is busy. -/
theorem Inv.refresh (h : s.Inv) : s.refresh.Inv ∧ s.Relinked s.refresh ∧
    ∀ token ∈ s.refresh.routes.queues .released, s.refresh.Busy token := by
  obtain ⟨s', hloop, hinv, hrelinked, hbusy⟩ :=
    h.refreshFrom (s.routes.queues .released) (List.append_nil _).symm (by simp)
  have heq : s.refresh = s' := hloop _ le_rfl
  rw [heq]
  exact ⟨hinv, hrelinked, hbusy⟩

/-- `try_lease` grants the front of the idle queue, if there is one, after a refresh. It was
shared, with nothing in flight, and becomes exclusive. -/
theorem Inv.tryLease_cases (h : s.Inv) :
    s.tryLease = (none, s.refresh) ∨ ∃ token frontier s',
      s.tryLease = (some token, s') ∧ s'.Inv ∧
        s.routes.conns token.index = .shared token frontier ∧
        s.responses token.index = [] ∧ s.queue token.index = [] ∧
        s'.routes.conns = Function.update s.routes.conns token.index (.exclusive token frontier) ∧
        s'.responses = s.responses ∧ s'.queue = s.queue ∧ s'.identity = s.identity := by
  obtain ⟨hinv, hrelinked, hbusy⟩ := h.refresh
  unfold tryLease
  cases n with
  | zero => exact Or.inl rfl
  | succ k =>
    unfold leaseFrom
    cases hpop : s.refresh.routes.pop .idle with
    | none => exact Or.inl rfl
    | some popped =>
      obtain ⟨token, routes⟩ := popped
      obtain ⟨hunique, htarget, hconns, hactive, hmem⟩ := hinv.unique.pop hpop
      have hslot := hinv.slot token.index
      have haccess := hslot.linked htarget rfl
      obtain ⟨hresponses, hqueue⟩ := hslot.idle htarget rfl
      obtain ⟨frontier, hphase⟩ : ∃ frontier,
          s.refresh.routes.conns token.index = .shared token frontier := by
        cases hphase : s.refresh.routes.conns token.index with
        | shared bound frontier =>
          rw [hphase] at haccess
          obtain ⟨rfl, -⟩ := Prod.mk.inj (Option.some.inj haccess)
          exact ⟨frontier, rfl⟩
        | _ =>
          rw [hphase] at haccess
          cases haccess
      have hacquire : (routes.conns token.index).acquire token =
          some (.exclusive token frontier) := by
        rw [hconns, hphase]
        exact if_pos rfl
      have hset : (routes.set token.index (.exclusive token frontier)).conns token.index =
          .exclusive token frontier := by
        simp [Routes.set]
      refine Or.inr ⟨token, frontier,
        { s.refresh with routes := routes.set token.index (.exclusive token frontier) },
        by simp only [hacquire], ?_, ?_, ?_, ?_, ?_, hrelinked.responses, hrelinked.queue,
        hrelinked.identity⟩
      · have hlinked : ∀ {queue other}, other ∈ routes.queues queue →
            other.index ≠ token.index := by
          intro queue other hother hi
          obtain ⟨hother, hne⟩ := (hmem _ _).mp hother
          obtain rfl := hslot.eq_token (State.bound_of_access haccess) hother hi
          -- The granted connection left the idle queue, and is not busy.
          cases queue with
          | idle => exact hne ⟨rfl, rfl⟩
          | released =>
            rcases hbusy _ hother with hbusy | hbusy
            · exact hbusy hresponses
            · exact hbusy hqueue
        refine hinv.update token.index (fun j hj => ⟨?_, rfl, rfl, fun queue other hi => ?_⟩)
          hunique ?_ ?_
        · dsimp only [Routes.set]
          rw [Function.update_of_ne hj, hconns]
        · refine (hmem queue other).trans (and_iff_left ?_)
          rintro ⟨-, rfl⟩
          exact hj hi.symm
        · dsimp only
          rw [hset, hphase]
          exact congrArg (· + 1) hactive
        · refine ⟨⟨fun hbound => ?_, fun hother hi => absurd hi (hlinked hother),
            fun hother hi => absurd hi (hlinked hother), fun _ => ?_, fun hunused => ?_⟩,
            fun haccess' => ?_⟩
          · rw [hset] at hbound
            exact (Option.some.inj hbound) ▸ rfl
          · exact hslot.owed (by simp [hphase, State.Owned])
          · rw [hset] at hunused
            exact hunused.elim
          · rw [hset] at haccess'
            cases haccess'
      · rw [← hrelinked.conns]
        exact hphase
      · rw [← hrelinked.responses]
        exact hresponses
      · rw [← hrelinked.queue]
        exact hqueue
      · dsimp only [Routes.set]
        rw [hconns, hrelinked.conns]

end Cartel.Redis.Scheduler.Schedule
