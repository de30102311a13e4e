import Cartel.Lib.Count
import Mathlib.Data.List.Nodup
import Mathlib.Logic.Relation
import Mathlib.Tactic.Common

/-!
# The lane gate of the parser storage

At most `lanes` parsers build tapes at one time. A charge of the gate is held by an
access, owned by a `Lane` token, or granted : put in the cell of the slot of a waiter that
has not come back for it yet. `active` counts them. An access that finds no lane free
queues its slot. A charge given up is granted to the oldest waiter, and only without
waiters `active` falls.

`Gate.Balanced` is the invariant of the gate, seen from the registrations : which target
waits at each slot, in the queue or with a grant. Each operation of the gate has one
lemma about it. `Gated` adds the accesses, and `Gated.Inv` ties their phases to the
registrations. The queue is `shared::Fifo`, of which `Fifo` states what is used.
-/

set_option linter.unusedSectionVars false

namespace Cartel.Redis.Parser

/-- `shared::Fifo::push` on the queue of a fifo with a target for each slot : the other
slots keep their entries in order, the slot has one entry, with the target. -/
structure Fifo (conns : ℕ) (T : Type) where
  push : List (Fin conns × T) → Fin conns → T → List (Fin conns × T)
  others : ∀ queue slot target,
    (push queue slot target).filter (·.1 ≠ slot) = queue.filter (·.1 ≠ slot)
  own : ∀ queue slot target, (push queue slot target).filter (·.1 = slot) = [(slot, target)]

/-- A push that replaces the entry of the slot in place. -/
def Fifo.inPlace {conns : ℕ} {T : Type} : Fifo conns T where
  push queue slot target := queue.takeWhile (·.1 ≠ slot) ++
    (slot, target) :: (queue.dropWhile (·.1 ≠ slot)).filter (·.1 ≠ slot)
  others queue slot target := by
    rw [List.filter_append, List.filter_cons_of_neg (by simp), List.filter_filter]
    simp only [Bool.and_self]
    rw [← List.filter_append, List.takeWhile_append_dropWhile]
  own queue slot target := by
    rw [List.filter_append, List.filter_cons_of_pos (by simp), List.filter_filter]
    have htake : (queue.takeWhile (·.1 ≠ slot)).filter (·.1 = slot) = [] :=
      List.filter_eq_nil_iff.mpr fun entry hmem => by
        simpa using List.all_eq_true.mp (List.all_takeWhile (p := (·.1 ≠ slot))) entry hmem
    have hdrop : (queue.dropWhile (·.1 ≠ slot)).filter
        (fun entry => decide (entry.1 = slot) && decide (entry.1 ≠ slot)) = [] :=
      List.filter_eq_nil_iff.mpr fun entry _ => by simp
    rw [htake, hdrop, List.nil_append]

/-- `gate::Gate`, and the state cells of the slots : the target granted a charge. -/
structure Gate (conns : ℕ) (T : Type) where
  active : ℕ
  lanes : ℕ
  waiters : List (Fin conns × T)
  granted : Fin conns → Option T

/-- `gate::Phase`. -/
inductive Phase (conns : ℕ) (T : Type) where
  | idle
  | held
  | waiting (slot : Fin conns) (target : T)
  deriving DecidableEq

namespace Gate

variable {conns : ℕ} {T : Type} [DecidableEq T] (gate : Gate conns T)

/-- `Gate::try_new`. -/
def new (conns lanes : ℕ) : Gate conns T :=
  ⟨0, lanes, [], fun _ => none⟩

/-- `Slot::get`. -/
def get (slot : Fin conns) : Option T :=
  (gate.waiters.find? (·.1 = slot)).map (·.2)

/-- `Slot::clear`. -/
def clear (slot : Fin conns) : Gate conns T :=
  { gate with waiters := gate.waiters.filter (·.1 ≠ slot) }

/-- The drop of a `Lane`. The subtraction wraps. -/
def drop : Gate conns T :=
  match gate.waiters with
  | [] => { gate with active := if 0 < gate.active then gate.active - 1 else 2 ^ 64 - 1 }
  | (slot, target) :: rest =>
    { gate with waiters := rest, granted := Function.update gate.granted slot (some target) }

/-- `Gate::resume`. -/
def resume (slot : Fin conns) (target : T) : Bool × Gate conns T :=
  if gate.granted slot = some target then
    (true, { gate with granted := Function.update gate.granted slot none })
  else if gate.active ≥ gate.lanes then (false, gate)
  else
    let gate := if gate.get slot = some target then gate.clear slot else gate
    (true, { gate with active := gate.active + 1 })

/-- `Gate::cancel`. -/
def cancel (slot : Fin conns) (target : T) : Gate conns T :=
  let gate := if gate.get slot = some target then gate.clear slot else gate
  if gate.granted slot = some target then
    drop { gate with granted := Function.update gate.granted slot none }
  else gate

/-! ## The balance -/

/-- The number of grants no waiter has come back for. -/
def grants : ℕ :=
  ∑ slot, (gate.granted slot).toList.length

/-- The gate with `owned` charges outside the grants. `waits` gives the target registered
at each slot, queued or granted. -/
structure Balanced (waits : Fin conns → Option T) (owned : ℕ) : Prop where
  count : gate.active = owned + gate.grants
  le : gate.active ≤ gate.lanes
  full : gate.waiters ≠ [] → gate.active = gate.lanes
  single : (gate.waiters.map Prod.fst).Nodup
  queued : ∀ {slot target}, (slot, target) ∈ gate.waiters →
    gate.granted slot = none ∧ waits slot = some target
  grant : ∀ {slot target}, gate.granted slot = some target → waits slot = some target
  waiting : ∀ {slot target}, waits slot = some target →
    (slot, target) ∈ gate.waiters ∨ gate.granted slot = some target

theorem grants_update (gate : Gate conns T) (slot : Fin conns) (target : Option T) :
    ∑ x, (Function.update gate.granted slot target x).toList.length +
      (gate.granted slot).toList.length = gate.grants + target.toList.length :=
  Lib.sum_update gate.granted (fun target => target.toList.length) slot target

namespace Balanced

variable {gate} {waits : Fin conns → Option T} {owned : ℕ} {slot : Fin conns} {target : T}

/-- The slot's entry is the one in the queue. -/
theorem get_eq_some (h : gate.Balanced waits owned) :
    gate.get slot = some target ↔ (slot, target) ∈ gate.waiters := by
  unfold get
  rw [Option.map_eq_some_iff]
  constructor
  · rintro ⟨entry, hfind, rfl⟩
    have hslot : entry.1 = slot := by simpa using List.find?_some hfind
    rw [← hslot]
    exact List.mem_of_find?_eq_some hfind
  · intro hmem
    cases hfind : gate.waiters.find? (·.1 = slot) with
    | none => simpa using List.find?_eq_none.mp hfind _ hmem
    | some entry =>
      have hslot : entry.1 = slot := by simpa using List.find?_some hfind
      have heq := List.inj_on_of_nodup_map h.single (List.mem_of_find?_eq_some hfind) hmem hslot
      exact ⟨entry, rfl, by rw [heq]⟩

/-- A charge given up goes to the oldest waiter, or leaves the counter. -/
theorem drop (h : gate.Balanced waits (owned + 1)) : gate.drop.Balanced waits owned := by
  have hcount := h.count
  have hle := h.le
  unfold Gate.drop
  split
  · next hw =>
    rw [if_pos (by omega)]
    exact ⟨by change gate.active - 1 = owned + gate.grants; omega, by dsimp only; omega,
      fun hne => absurd hw hne, h.single, h.queued, h.grant, h.waiting⟩
  · next slot target rest hw =>
    have hsingle := h.single
    rw [hw, List.map_cons, List.nodup_cons] at hsingle
    obtain ⟨hnone, hwaits⟩ := h.queued (hw ▸ List.mem_cons_self : (slot, target) ∈ gate.waiters)
    have hgrants := grants_update gate slot (some target)
    rw [hnone] at hgrants
    refine ⟨?_, hle, fun _ => h.full (by simp [hw]), hsingle.2, fun {s t} hmem => ?_,
      fun {s t} hs => ?_, fun {s t} hs => ?_⟩
    · change gate.active = owned + ∑ x, (Function.update gate.granted slot _ x).toList.length
      simp only [Option.toList_none, Option.toList_some, List.length_nil, List.length_cons] at hgrants
      omega
    · have hne : s ≠ slot := by
        rintro rfl
        exact hsingle.1 (List.mem_map.mpr ⟨(s, t), hmem, rfl⟩)
      dsimp only
      rw [Function.update_of_ne hne]
      exact h.queued (hw ▸ List.mem_cons_of_mem _ hmem)
    · by_cases hs' : s = slot
      · subst hs'
        dsimp only at hs
        rw [Function.update_self] at hs
        rw [hwaits, hs]
      · dsimp only at hs
        rw [Function.update_of_ne hs'] at hs
        exact h.grant hs
    · by_cases hs' : s = slot
      · subst hs'
        refine Or.inr ?_
        dsimp only
        rw [Function.update_self, ← hwaits, hs]
      · dsimp only
        rw [Function.update_of_ne hs']
        refine (h.waiting hs).imp_left fun hmem => ?_
        rw [hw] at hmem
        refine (List.mem_cons.mp hmem).resolve_left fun heq => hs' ?_
        rw [(Prod.mk.inj heq).1]

/-- A free lane is taken. -/
theorem take (h : gate.Balanced waits owned) (hlt : gate.active < gate.lanes) :
    Balanced { gate with active := gate.active + 1 } waits (owned + 1) := by
  have hcount := h.count
  refine ⟨?_, hlt, fun hne => ?_, h.single, h.queued, h.grant, h.waiting⟩
  · change gate.active + 1 = owned + 1 + gate.grants
    omega
  · have := h.full hne
    omega

/-- A waiter comes back for its grant. -/
theorem consume (h : gate.Balanced waits owned) (hslot : gate.granted slot = some target) :
    Balanced { gate with granted := Function.update gate.granted slot none }
      (Function.update waits slot none) (owned + 1) := by
  have hcount := h.count
  have hgrants := grants_update gate slot none
  rw [hslot] at hgrants
  simp only [Option.toList_none, Option.toList_some, List.length_nil, List.length_cons] at hgrants
  refine ⟨?_, h.le, h.full, h.single, fun {s t} hmem => ?_, fun {s t} hs => ?_,
    fun {s t} hs => ?_⟩
  · change gate.active = owned + 1 +
      ∑ x, (Function.update gate.granted slot none x).toList.length
    omega
  · obtain ⟨hnone, hwaits⟩ := h.queued hmem
    have hne : s ≠ slot := by
      rintro rfl
      simp [hnone] at hslot
    dsimp only
    rw [Function.update_of_ne hne, Function.update_of_ne hne]
    exact ⟨hnone, hwaits⟩
  · by_cases hs' : s = slot
    · subst hs'
      simp at hs
    · dsimp only at hs
      rw [Function.update_of_ne hs'] at hs ⊢
      exact h.grant hs
  · by_cases hs' : s = slot
    · subst hs'
      simp at hs
    · rw [Function.update_of_ne hs'] at hs
      dsimp only
      rw [Function.update_of_ne hs']
      exact h.waiting hs

/-- A waiter without a grant leaves the queue. -/
theorem leave (h : gate.Balanced waits owned) (hslot : gate.granted slot = none) :
    (gate.clear slot).Balanced (Function.update waits slot none) owned := by
  refine ⟨h.count, h.le, fun hne => h.full fun hw => hne (by simp [clear, hw]), ?_,
    fun {s t} hmem => ?_, fun {s t} hs => ?_, fun {s t} hs => ?_⟩
  · exact h.single.sublist (List.filter_sublist.map _)
  · obtain ⟨hmem, hne⟩ := List.mem_filter.mp hmem
    have hne : s ≠ slot := by simpa using hne
    rw [Function.update_of_ne hne]
    exact h.queued hmem
  · have hgrant : gate.granted s = some t := hs
    have hne : s ≠ slot := by
      rintro rfl
      rw [hslot] at hgrant
      cases hgrant
    rw [Function.update_of_ne hne]
    exact h.grant hgrant
  · by_cases hs' : s = slot
    · subst hs'
      simp at hs
    · rw [Function.update_of_ne hs'] at hs
      refine (h.waiting hs).imp_left fun hmem => List.mem_filter.mpr ⟨hmem, by simpa using hs'⟩

/-- A target queues at a slot without a grant, in place of the one queued there. -/
theorem enter (fifo : Fifo conns T) (h : gate.Balanced waits owned)
    (hslot : gate.granted slot = none) (hfull : gate.active = gate.lanes) :
    Balanced { gate with waiters := fifo.push gate.waiters slot target }
      (Function.update waits slot (some target)) owned := by
  have hother : ∀ {s t}, s ≠ slot →
      ((s, t) ∈ fifo.push gate.waiters slot target ↔ (s, t) ∈ gate.waiters) := fun {s t} hne => by
    have hfilter := congrArg ((s, t) ∈ ·) (fifo.others gate.waiters slot target)
    simpa [List.mem_filter, hne] using hfilter
  have hown : ∀ {t}, (slot, t) ∈ fifo.push gate.waiters slot target ↔ t = target := fun {t} => by
    have hfilter := congrArg ((slot, t) ∈ ·) (fifo.own gate.waiters slot target)
    simpa [List.mem_filter] using hfilter
  refine ⟨h.count, h.le, fun _ => hfull, ?_, fun {s t} hmem => ?_, fun {s t} hs => ?_,
    fun {s t} hs => ?_⟩
  · rw [List.nodup_iff_count_le_one]
    intro s
    rw [List.count_eq_countP, List.countP_map, List.countP_eq_length_filter]
    by_cases hne : s = slot
    · subst hne
      have hown := fifo.own gate.waiters s target
      have hfilter : (fifo.push gate.waiters s target).filter ((· == s) ∘ Prod.fst) =
          [(s, target)] := by
        rw [← hown]
        exact List.filter_congr fun x _ => beq_eq_decide x.1 s
      simp [hfilter]
    · have hfilter : (fifo.push gate.waiters slot target).filter ((· == s) ∘ Prod.fst) =
          gate.waiters.filter ((· == s) ∘ Prod.fst) := by
        have hothers := congrArg (List.filter ((· == s) ∘ Prod.fst))
          (fifo.others gate.waiters slot target)
        rw [List.filter_filter, List.filter_filter] at hothers
        have hsame : ∀ x : Fin conns × T, (((· == s) ∘ Prod.fst) x && decide (x.1 ≠ slot)) =
            ((· == s) ∘ Prod.fst) x := fun x => by
          by_cases hx : x.1 = s <;> simp [hx, hne]
        simpa only [hsame] using hothers
      rw [hfilter, ← List.countP_eq_length_filter, ← List.countP_map, ← List.count_eq_countP]
      exact List.nodup_iff_count_le_one.mp h.single s
  · by_cases hne : s = slot
    · subst hne
      rw [Function.update_self, hown.mp hmem]
      exact ⟨hslot, rfl⟩
    · rw [Function.update_of_ne hne]
      exact h.queued ((hother hne).mp hmem)
  · have hgrant : gate.granted s = some t := hs
    have hne : s ≠ slot := by
      rintro rfl
      rw [hslot] at hgrant
      cases hgrant
    rw [Function.update_of_ne hne]
    exact h.grant hgrant
  · by_cases hne : s = slot
    · subst hne
      rw [Function.update_self] at hs
      exact Or.inl (hown.mpr (Option.some.inj hs).symm)
    · rw [Function.update_of_ne hne] at hs
      exact (h.waiting hs).imp_left (hother hne).mpr

theorem granted_none (h : gate.Balanced waits owned) (slot : Fin conns) (hwaits : waits slot = none) :
    gate.granted slot = none := by
  cases hgrant : gate.granted slot with
  | none => rfl
  | some t => simpa [hwaits] using h.grant hgrant

/-- A waiter is queued or has a grant, not both. -/
theorem not_queued (h : gate.Balanced waits owned) {t : T} (hslot : gate.granted slot = some t) :
    (slot, target) ∉ gate.waiters := fun hmem => by
  have := (h.queued hmem).1
  rw [hslot] at this
  cases this

/-- A registration queues its target, unless the slot has it queued. -/
theorem register (fifo : Fifo conns T) (target : T) (h : gate.Balanced waits owned)
    (hslot : gate.granted slot = none) (hfull : gate.active = gate.lanes) :
    Balanced (if gate.get slot ≠ some target then
        { gate with waiters := fifo.push gate.waiters slot target } else gate)
      (Function.update waits slot (some target)) owned := by
  split_ifs with hget
  · exact h.enter fifo hslot hfull
  · have hwaits := (h.queued (h.get_eq_some.mp (not_not.mp hget))).2
    rw [← hwaits, Function.update_eq_self]
    exact h

/-- Nothing is left to cancel for a target no longer registered. -/
theorem cancel_stale (h : gate.Balanced waits owned) (hwaits : waits slot ≠ some target) :
    gate.cancel slot target = gate := by
  unfold Gate.cancel
  rw [if_neg (fun hget => hwaits (h.queued (h.get_eq_some.mp hget)).2)]
  exact if_neg fun hgrant => hwaits (h.grant hgrant)

/-- A waiter that cancels takes its entry out of the queue, or gives its grant up. -/
theorem cancel (h : gate.Balanced waits owned) (hwaits : waits slot = some target) :
    (gate.cancel slot target).Balanced (Function.update waits slot none) owned := by
  unfold Gate.cancel
  dsimp only
  rcases h.waiting hwaits with hmem | hgrant
  · have hnone := (h.queued hmem).1
    rw [if_pos (h.get_eq_some.mpr hmem)]
    have hclear : (gate.clear slot).granted slot = none := hnone
    rw [hclear, if_neg (by simp)]
    exact h.leave hnone
  · rw [if_neg (fun hget => h.not_queued hgrant (h.get_eq_some.mp hget)), if_pos hgrant]
    exact (h.consume hgrant).drop

/-- A waiter that comes back is let in exactly on a grant, and a refusal means the lanes
are all taken. -/
theorem resume (h : gate.Balanced waits owned) (hwaits : waits slot = some target) :
    (gate.granted slot = some target ∧ gate.resume slot target =
        (true, { gate with granted := Function.update gate.granted slot none })) ∨
      (gate.granted slot = none ∧ gate.active = gate.lanes ∧
        gate.resume slot target = (false, gate)) := by
  unfold Gate.resume
  rcases h.waiting hwaits with hmem | hgrant
  · have hnone := (h.queued hmem).1
    have hfull := h.full (List.ne_nil_of_mem hmem)
    refine Or.inr ⟨hnone, hfull, ?_⟩
    rw [hnone, if_neg (by simp), if_pos hfull.ge]
  · exact Or.inl ⟨hgrant, if_pos hgrant⟩

end Balanced

/-! ## What the operations leave alone -/

theorem drop_lanes : gate.drop.lanes = gate.lanes := by
  unfold drop
  split <;> rfl

theorem cancel_lanes (slot : Fin conns) (target : T) :
    (gate.cancel slot target).lanes = gate.lanes := by
  unfold cancel clear
  dsimp only
  split_ifs <;> simp [drop_lanes]

theorem resume_lanes (slot : Fin conns) (target : T) :
    (gate.resume slot target).2.lanes = gate.lanes := by
  unfold resume clear
  dsimp only
  split_ifs <;> rfl

variable {gate}

theorem mem_drop {entry : Fin conns × T} (h : entry ∈ gate.drop.waiters) :
    entry ∈ gate.waiters := by
  unfold drop at h
  split at h
  · exact h
  · next hw =>
    rw [hw]
    exact List.mem_cons_of_mem _ h

theorem mem_clear {entry : Fin conns × T} {slot : Fin conns}
    (h : entry ∈ (gate.clear slot).waiters) : entry ∈ gate.waiters :=
  List.mem_of_mem_filter h

theorem mem_cancel {entry : Fin conns × T} {slot : Fin conns} {target : T}
    (h : entry ∈ (gate.cancel slot target).waiters) : entry ∈ gate.waiters := by
  have hclear : entry ∈ (if gate.get slot = some target then gate.clear slot else gate).waiters →
      entry ∈ gate.waiters := fun h => by
    split_ifs at h
    · exact mem_clear h
    · exact h
  unfold cancel at h
  dsimp only at h
  generalize (if gate.get slot = some target then gate.clear slot else gate) = cleared at h hclear
  split_ifs at h
  · have hdrop := mem_drop h
    exact hclear hdrop
  · exact hclear h

theorem mem_resume {entry : Fin conns × T} {slot : Fin conns} {target : T}
    (h : entry ∈ (gate.resume slot target).2.waiters) : entry ∈ gate.waiters := by
  unfold resume at h
  dsimp only at h
  split_ifs at h
  · exact h
  · exact h
  · exact mem_clear h
  · exact h

theorem mem_push (fifo : Fifo conns T) {queue : List (Fin conns × T)} {slot x : Fin conns}
    {target t : T} (h : (x, t) ∈ fifo.push queue slot target) :
    x = slot ∧ t = target ∨ (x, t) ∈ queue := by
  by_cases hx : x = slot
  · have hmem : (x, t) ∈ (fifo.push queue slot target).filter (·.1 = slot) :=
      List.mem_filter.mpr ⟨h, by simpa using hx⟩
    rw [fifo.own, List.mem_singleton, Prod.mk.injEq] at hmem
    exact Or.inl hmem
  · have hmem : (x, t) ∈ (fifo.push queue slot target).filter (·.1 ≠ slot) :=
      List.mem_filter.mpr ⟨h, by simpa using hx⟩
    rw [fifo.others] at hmem
    exact Or.inr (List.mem_of_mem_filter hmem)

end Gate

/-! ## Accesses -/

/-- A gate with its accesses and the number of live `Lane` owners. -/
structure Gated (conns : ℕ) (T ι : Type) where
  gate : Gate conns T
  phases : ι → Phase conns T
  owners : ℕ

namespace Gated

variable {conns : ℕ} {T ι : Type} [DecidableEq T] [DecidableEq ι]

/-- A fresh gate. -/
def new (conns lanes : ℕ) : Gated conns T ι :=
  ⟨.new conns lanes, fun _ => .idle, 0⟩

variable (s : Gated conns T ι)

/-- The access `i` goes to a phase. -/
def goto (i : ι) (phase : Phase conns T) (gate : Gate conns T) : Gated conns T ι :=
  { s with gate, phases := Function.update s.phases i phase }

/-- `Access::acquire`, and whether it acquired. -/
def acquire (i : ι) : Bool × Gated conns T ι :=
  match s.phases i with
  | .idle =>
    if s.gate.active ≥ s.gate.lanes then (false, s)
    else (true, s.goto i .held { s.gate with active := s.gate.active + 1 })
  | .held => (true, s.goto i .held s.gate)
  | .waiting slot target =>
    match s.gate.resume slot target with
    | (false, gate) => (false, { s with gate })
    | (true, gate) => (true, s.goto i .held gate)

/-- `Access::wait`, past its early returns. A slot out of bounds is an error. -/
def register (fifo : Fifo conns T) (i : ι) (index : ℕ) (target : T) :
    Except ℕ (Gated conns T ι) :=
  if h : index < conns then
    let slot : Fin conns := ⟨index, h⟩
    let gate :=
      if s.gate.get slot ≠ some target then
        { s.gate with waiters := fifo.push s.gate.waiters slot target }
      else s.gate
    match s.phases i with
    | .waiting slot' target' => .ok (s.goto i (.waiting slot target) (gate.cancel slot' target'))
    | _ => .ok (s.goto i (.waiting slot target) gate)
  else .error index

/-- `Access::wait`. -/
def wait (fifo : Fifo conns T) (i : ι) (index : ℕ) (target : T) : Except ℕ (Gated conns T ι) :=
  match s.phases i with
  | .held => .ok s
  | .waiting slot target' =>
    if slot.val = index ∧ target' = target then .ok s else s.register fifo i index target
  | .idle => s.register fifo i index target

/-- `Access::release`. -/
def release (i : ι) : Gated conns T ι :=
  match s.phases i with
  | .idle => s.goto i .idle s.gate
  | .held => s.goto i .idle s.gate.drop
  | .waiting slot target => s.goto i .idle (s.gate.cancel slot target)

/-- `Access::finish` : the charge of a held access goes to a `Lane`. -/
def finish (i : ι) : Gated conns T ι :=
  { s with phases := Function.update s.phases i .idle, owners := s.owners + 1 }

/-- The drop of a live `Lane`. -/
def drop : Gated conns T ι :=
  { s with gate := s.gate.drop, owners := s.owners - 1 }

/-- One step, by an access or by the owner of a lane. An access waits after a refused
acquire, which left the gate as it was (`acquire_refused`), at a slot where no other
access waits. -/
inductive Step (fifo : Fifo conns T) : Gated conns T ι → Option ι → Gated conns T ι → Prop
  | acquire (s : Gated conns T ι) (i : ι) : Step fifo s (some i) (s.acquire i).2
  | wait {s s' : Gated conns T ι} {i : ι} (index : ℕ) (target : T) :
      (s.acquire i).1 = false →
      (∀ j slot target, j ≠ i → s.phases j = .waiting slot target → slot.val ≠ index) →
      s.wait fifo i index target = .ok s' → Step fifo s (some i) s'
  | release (s : Gated conns T ι) (i : ι) : Step fifo s (some i) (s.release i)
  | finish {s : Gated conns T ι} {i : ι} : s.phases i = .held → Step fifo s (some i) (s.finish i)
  | drop {s : Gated conns T ι} : 0 < s.owners → Step fifo s none s.drop

/-- The states reached from a fresh gate. -/
inductive Reached (fifo : Fifo conns T) (lanes : ℕ) : Gated conns T ι → Prop
  | new : Reached fifo lanes (.new conns lanes)
  | step {s s' : Gated conns T ι} {who : Option ι} : Reached fifo lanes s → Step fifo s who s' →
      Reached fifo lanes s'

/-- Steps that the access `i` takes no part in. -/
def Elsewhere (fifo : Fifo conns T) (i : ι) : Gated conns T ι → Gated conns T ι → Prop :=
  Relation.ReflTransGen fun s s' => ∃ who, who ≠ some i ∧ Step fifo s who s'

/-! ## The invariant -/

/-- One for a held access. -/
def charge : Phase conns T → ℕ
  | .held => 1
  | _ => 0

/-- Who waits at each slot. -/
def Registers (phases : ι → Phase conns T) (waits : Fin conns → Option (ι × T)) : Prop :=
  ∀ i slot target, phases i = .waiting slot target ↔ waits slot = some (i, target)

/-- The targets of the registrations. -/
def targets (waits : Fin conns → Option (ι × T)) (slot : Fin conns) : Option T :=
  (waits slot).map Prod.snd

theorem targets_update (waits : Fin conns → Option (ι × T)) (slot : Fin conns)
    (entry : Option (ι × T)) :
    targets (Function.update waits slot entry) =
      Function.update (targets waits) slot (entry.map Prod.snd) := by
  funext x
  by_cases hx : x = slot
  · subst hx
    simp [targets]
  · simp [targets, hx]

namespace Registers

variable {phases : ι → Phase conns T} {waits : Fin conns → Option (ι × T)} {i : ι}
  {slot : Fin conns} {target : T} {phase : Phase conns T}

/-- An access that waits nowhere before and after. -/
theorem keep (h : Registers phases waits) (hi : ∀ slot target, phases i ≠ .waiting slot target)
    (hp : ∀ slot target, phase ≠ .waiting slot target) :
    Registers (Function.update phases i phase) waits := by
  intro j slot target
  rw [← h j slot target]
  by_cases hj : j = i
  · subst hj
    simp [hi slot target, hp slot target]
  · rw [Function.update_of_ne hj]

/-- An access that stops to wait. -/
theorem leave (h : Registers phases waits) (hi : phases i = .waiting slot target)
    (hp : ∀ slot target, phase ≠ .waiting slot target) :
    Registers (Function.update phases i phase) (Function.update waits slot none) := by
  have hwaits := (h i slot target).mp hi
  intro j x t
  by_cases hj : j = i
  · subst hj
    rw [Function.update_self]
    refine iff_of_false (hp x t) fun hx => ?_
    by_cases hxs : x = slot
    · simp [hxs] at hx
    · rw [Function.update_of_ne hxs, ← h j x t, hi] at hx
      cases hx
      exact hxs rfl
  · rw [Function.update_of_ne hj, h j x t]
    by_cases hxs : x = slot
    · subst hxs
      simp [hwaits, Ne.symm hj]
    · rw [Function.update_of_ne hxs]

/-- An access that starts to wait, where no other waits. -/
theorem enter (h : Registers phases waits) (i : ι) (slot : Fin conns) (target : T)
    (hi : ∀ slot target, phases i ≠ .waiting slot target)
    (hslot : waits slot = none) :
    Registers (Function.update phases i (.waiting slot target))
      (Function.update waits slot (some (i, target))) := by
  intro j x t
  by_cases hj : j = i
  · subst hj
    rw [Function.update_self]
    by_cases hxs : x = slot
    · subst hxs
      simp
    · rw [Function.update_of_ne hxs, ← h j x t]
      refine iff_of_false (fun heq => ?_) (hi x t)
      cases heq
      exact hxs rfl
  · rw [Function.update_of_ne hj, h j x t]
    by_cases hxs : x = slot
    · subst hxs
      simp [hslot, Ne.symm hj]
    · rw [Function.update_of_ne hxs]

end Registers

variable [Fintype ι] {s}

/-- The registrations tie the phases to the gate, which counts the held accesses and the
owners. -/
def Inv (s : Gated conns T ι) : Prop :=
  ∃ waits, Registers s.phases waits ∧
    s.gate.Balanced (targets waits) (∑ i, charge (s.phases i) + s.owners)

theorem charge_update (phases : ι → Phase conns T) (i : ι) (phase : Phase conns T) :
    ∑ j, charge (Function.update phases i phase j) + charge (phases i) =
      ∑ j, charge (phases j) + charge phase :=
  Lib.sum_update phases charge i phase

theorem charge_keep {phases : ι → Phase conns T} {i : ι} {phase : Phase conns T}
    (h : charge (phases i) = charge phase) :
    ∑ j, charge (Function.update phases i phase j) = ∑ j, charge (phases j) := by
  have := charge_update phases i phase
  omega

theorem inv_new (lanes : ℕ) : (new conns lanes : Gated conns T ι).Inv := by
  refine ⟨fun _ => none, fun i slot target => by simp [new], ?_, ?_, ?_, ?_, ?_, ?_, ?_⟩
  · simp [new, Gate.new, charge, Gate.grants]
  · exact Nat.zero_le _
  · exact fun h => absurd rfl h
  · exact List.nodup_nil
  · exact fun hmem => absurd hmem List.not_mem_nil
  · exact fun h => by cases h
  · exact fun h => by cases h

/-- A refused acquire changes nothing. -/
theorem acquire_refused (h : s.Inv) {i : ι} (hi : (s.acquire i).1 = false) :
    (s.acquire i).2 = s ∧ s.gate.active = s.gate.lanes ∧
      ∀ slot target, s.phases i = .waiting slot target → s.gate.granted slot = none := by
  obtain ⟨waits, hregs, hbal⟩ := h
  have hle := hbal.le
  unfold acquire at hi ⊢
  cases hp : s.phases i with
  | idle =>
    rw [hp] at hi
    dsimp only at hi ⊢
    split_ifs at hi ⊢ with hfull
    exact ⟨rfl, by omega, nofun⟩
  | held => simp [hp] at hi
  | waiting slot target =>
    have hwaits : targets waits slot = some target := by
      unfold targets
      rw [(hregs i slot target).mp hp]
      rfl
    rcases hbal.resume hwaits with ⟨-, hresume⟩ | ⟨hnone, hfull, hresume⟩
    · simp [hp, hresume] at hi
    · simp only [hresume]
      refine ⟨trivial, hfull, fun x t hx => ?_⟩
      cases hx
      exact hnone

theorem acquire_held {i : ι} (hi : (s.acquire i).1 = true) :
    (s.acquire i).2.phases i = .held := by
  unfold acquire at hi ⊢
  split at hi
  · split_ifs at hi ⊢
    exact Function.update_self ..
  · exact Function.update_self ..
  · split at hi
    · cases hi
    · exact Function.update_self ..

theorem inv_acquire (h : s.Inv) (i : ι) : (s.acquire i).2.Inv := by
  cases hi : (s.acquire i).1 with
  | false =>
    rw [(acquire_refused h hi).1]
    exact h
  | true =>
    obtain ⟨waits, hregs, hbal⟩ := h
    have hheld := charge_update s.phases i .held
    unfold acquire at hi ⊢
    cases hp : s.phases i with
    | idle =>
      rw [hp] at hheld
      simp only [hp] at hi ⊢
      split_ifs at hi ⊢ with hfull
      refine ⟨waits, hregs.keep (by simp [hp]) (by simp), ?_⟩
      have htake := hbal.take (by omega)
      rw [show ∑ i, charge (s.phases i) + s.owners + 1 =
        ∑ j, charge (Function.update s.phases i .held j) + s.owners by
          simp only [charge] at hheld ⊢; omega] at htake
      exact htake
    | held =>
      have hsame : Function.update s.phases i .held = s.phases := by
        rw [← hp, Function.update_eq_self]
      dsimp only
      unfold goto
      rw [hsame]
      exact ⟨waits, hregs, hbal⟩
    | waiting slot target =>
      rw [hp] at hheld
      have hwaits : targets waits slot = some target := by
        unfold targets
        rw [(hregs i slot target).mp hp]
        rfl
      rcases hbal.resume hwaits with ⟨hgrant, hresume⟩ | ⟨-, -, hresume⟩
      · simp only [hresume]
        refine ⟨Function.update waits slot none, hregs.leave hp (by simp), ?_⟩
        rw [targets_update]
        have hconsume := hbal.consume hgrant
        rw [show ∑ i, charge (s.phases i) + s.owners + 1 =
          ∑ j, charge (Function.update s.phases i .held j) + s.owners by
            simp only [charge] at hheld ⊢; omega] at hconsume
        exact hconsume
      · simp [hp, hresume] at hi

theorem inv_release (h : s.Inv) (i : ι) : (s.release i).Inv := by
  obtain ⟨waits, hregs, hbal⟩ := h
  have hheld := charge_update s.phases i .idle
  unfold release
  cases hp : s.phases i with
  | idle =>
    have hsame : Function.update s.phases i .idle = s.phases := by
      rw [← hp, Function.update_eq_self]
    dsimp only
    unfold goto
    rw [hsame]
    exact ⟨waits, hregs, hbal⟩
  | held =>
    rw [hp] at hheld
    refine ⟨waits, hregs.keep (by simp [hp]) (by simp), ?_⟩
    rw [show ∑ i, charge (s.phases i) + s.owners =
      ∑ j, charge (Function.update s.phases i .idle j) + s.owners + 1 by
        simp only [charge] at hheld ⊢; omega] at hbal
    exact hbal.drop
  | waiting slot target =>
    rw [hp] at hheld
    have hwaits : targets waits slot = some target := by
      unfold targets
      rw [(hregs i slot target).mp hp]
      rfl
    refine ⟨Function.update waits slot none, hregs.leave hp (by simp), ?_⟩
    rw [targets_update]
    have hcancel := hbal.cancel hwaits
    rw [show ∑ i, charge (s.phases i) + s.owners =
      ∑ j, charge (Function.update s.phases i .idle j) + s.owners by
        simp only [charge] at hheld ⊢; omega] at hcancel
    exact hcancel

theorem inv_finish (h : s.Inv) {i : ι} (hi : s.phases i = .held) : (s.finish i).Inv := by
  obtain ⟨waits, hregs, hbal⟩ := h
  have hheld := charge_update s.phases i .idle
  rw [hi] at hheld
  refine ⟨waits, hregs.keep (by simp [hi]) (by simp), ?_⟩
  rw [show ∑ i, charge (s.phases i) + s.owners =
    ∑ j, charge (Function.update s.phases i .idle j) + (s.owners + 1) by
      simp only [charge] at hheld ⊢; omega] at hbal
  exact hbal

theorem inv_drop (h : s.Inv) (howners : 0 < s.owners) : s.drop.Inv := by
  obtain ⟨waits, hregs, hbal⟩ := h
  refine ⟨waits, hregs, ?_⟩
  rw [show ∑ i, charge (s.phases i) + s.owners =
    ∑ i, charge (s.phases i) + (s.owners - 1) + 1 by omega] at hbal
  exact hbal.drop

/-- A slot where no access waits has no target. -/
theorem Registers.slot_free {waits : Fin conns → Option (ι × T)}
    (h : Registers s.phases waits) (i : ι) (slot : Fin conns) (hi : ∀ target, s.phases i ≠ .waiting slot target)
    (hfree : ∀ j x target, j ≠ i → s.phases j = .waiting x target → x.val ≠ slot.val) :
    waits slot = none := by
  cases hw : waits slot with
  | none => rfl
  | some entry =>
    obtain ⟨j, t⟩ := entry
    have hj := (h j slot t).mpr hw
    by_cases hji : j = i
    · exact absurd (hji ▸ hj) (hi t)
    · exact absurd rfl (hfree j slot t hji hj)

theorem inv_wait {fifo : Fifo conns T} {s' : Gated conns T ι} (h : s.Inv) {i : ι} {index : ℕ}
    {target : T} (hi : (s.acquire i).1 = false)
    (hfree : ∀ j slot target, j ≠ i → s.phases j = .waiting slot target → slot.val ≠ index)
    (hw : s.wait fifo i index target = .ok s') : s'.Inv := by
  obtain ⟨-, hfull, hungranted⟩ := acquire_refused h hi
  obtain ⟨waits, hregs, hbal⟩ := h
  unfold wait register at hw
  cases hp : s.phases i with
  | held =>
    rw [hp] at hw
    cases hw
    exact ⟨waits, hregs, hbal⟩
  | idle =>
    rw [hp] at hw
    dsimp only at hw
    by_cases hindex : index < conns
    · rw [dif_pos hindex] at hw
      cases hw
      have hslot := hregs.slot_free i ⟨index, hindex⟩ (by simp [hp]) hfree
      have hgrant := hbal.granted_none ⟨index, hindex⟩ (by simp [targets, hslot])
      refine ⟨_, hregs.enter i ⟨index, hindex⟩ target (by simp [hp]) hslot, ?_⟩
      rw [targets_update]
      have hwait : ∑ j, charge (Function.update s.phases i (.waiting ⟨index, hindex⟩ target) j) =
          ∑ j, charge (s.phases j) := charge_keep (by rw [hp]; rfl)
      have hregister := hbal.register fifo target hgrant hfull
      rw [← hwait] at hregister
      exact hregister
    · rw [dif_neg hindex] at hw
      cases hw
  | waiting slot' target' =>
    rw [hp] at hw
    dsimp only at hw
    have hmine := (hregs i slot' target').mp hp
    by_cases hsame : slot'.val = index ∧ target' = target
    · rw [if_pos hsame] at hw
      cases hw
      exact ⟨waits, hregs, hbal⟩
    rw [if_neg hsame] at hw
    by_cases hindex : index < conns
    · rw [dif_pos hindex] at hw
      cases hw
      have hwait : ∑ j, charge (Function.update s.phases i (.waiting ⟨index, hindex⟩ target) j) =
          ∑ j, charge (s.phases j) := charge_keep (by rw [hp]; rfl)
      have hidle : Registers (Function.update s.phases i .idle) (Function.update waits slot' none) :=
        hregs.leave hp (by simp)
      by_cases hslot : slot' = ⟨index, hindex⟩
      · -- the new registration took the place of the old, and the cancel finds nothing
        subst hslot
        have hregister := hbal.register fifo target (hungranted _ _ hp) hfull
        refine ⟨Function.update waits ⟨index, hindex⟩ (some (i, target)), ?_, ?_⟩
        · have henter := hidle.enter i ⟨index, hindex⟩ target
            (by simp) (by simp)
          rwa [Function.update_idem, Function.update_idem] at henter
        · rw [targets_update]
          dsimp only [goto]
          rw [hregister.cancel_stale (by simpa using fun heq => hsame ⟨rfl, heq.symm⟩)]
          rw [← hwait] at hregister
          exact hregister
      · have hfreed := hregs.slot_free i ⟨index, hindex⟩
          (fun t ht => hslot (by rw [hp] at ht; cases ht; rfl)) hfree
        have hgrant := hbal.granted_none ⟨index, hindex⟩ (by simp [targets, hfreed])
        have hregister := hbal.register fifo target hgrant hfull
        have hstale : Function.update (targets waits) ⟨index, hindex⟩ (some target) slot' =
            some target' := by
          rw [Function.update_of_ne hslot, targets, hmine]
          rfl
        have hcancel := hregister.cancel hstale
        refine ⟨Function.update (Function.update waits slot' none) ⟨index, hindex⟩
          (some (i, target)), ?_, ?_⟩
        · have henter := hidle.enter i ⟨index, hindex⟩ target
            (by simp) (by rwa [Function.update_of_ne (Ne.symm hslot)])
          rwa [Function.update_idem] at henter
        · rw [targets_update, targets_update, Function.update_comm hslot]
          rw [← hwait] at hcancel
          exact hcancel
    · rw [dif_neg hindex] at hw
      cases hw

theorem inv_step {fifo : Fifo conns T} {s' : Gated conns T ι} {who : Option ι}
    (hstep : Step fifo s who s') (h : s.Inv) : s'.Inv := by
  cases hstep with
  | acquire i => exact inv_acquire h i
  | wait _ _ hi hfree hw => exact inv_wait h hi hfree hw
  | release i => exact inv_release h i
  | finish hi => exact inv_finish h hi
  | drop howners => exact inv_drop h howners

theorem Reached.inv {fifo : Fifo conns T} {lanes : ℕ} (h : Reached fifo lanes s) : s.Inv := by
  induction h with
  | new => exact inv_new lanes
  | step _ hstep ih => exact inv_step hstep ih

/-! ## Hand-over -/

/-- What a wait does : nothing, or the access waits at the slot with the target. -/
theorem wait_cases {fifo : Fifo conns T} {s' : Gated conns T ι} {i : ι} {index : ℕ} {target : T}
    (hw : s.wait fifo i index target = .ok s') :
    s' = s ∨ ∃ slot gate, s' = s.goto i (.waiting slot target) gate ∧
      gate.lanes = s.gate.lanes ∧ ∀ x t, (x, t) ∈ gate.waiters →
        x = slot ∧ t = target ∨ (x, t) ∈ s.gate.waiters := by
  have hregister : s.register fifo i index target = .ok s' →
      ∃ slot gate, s' = s.goto i (.waiting slot target) gate ∧
        gate.lanes = s.gate.lanes ∧ ∀ x t, (x, t) ∈ gate.waiters →
          x = slot ∧ t = target ∨ (x, t) ∈ s.gate.waiters := fun hw => by
    unfold register at hw
    by_cases hindex : index < conns
    · rw [dif_pos hindex] at hw
      have hlanes : (if s.gate.get ⟨index, hindex⟩ ≠ some target then
          { s.gate with waiters := fifo.push s.gate.waiters ⟨index, hindex⟩ target }
          else s.gate).lanes = s.gate.lanes := by split_ifs <;> rfl
      have hmem : ∀ x t, (x, t) ∈ (if s.gate.get ⟨index, hindex⟩ ≠ some target then
          { s.gate with waiters := fifo.push s.gate.waiters ⟨index, hindex⟩ target }
          else s.gate).waiters → x = ⟨index, hindex⟩ ∧ t = target ∨ (x, t) ∈ s.gate.waiters :=
        fun x t hx => by
          split_ifs at hx
          · exact Gate.mem_push fifo hx
          · exact Or.inr hx
      dsimp only at hw
      split at hw
      · cases hw
        exact ⟨_, _, rfl, by rw [Gate.cancel_lanes, hlanes], fun x t hx =>
          hmem x t (Gate.mem_cancel hx)⟩
      · cases hw
        exact ⟨_, _, rfl, hlanes, hmem⟩
    · rw [dif_neg hindex] at hw
      cases hw
  unfold wait at hw
  split at hw
  · cases hw
    exact Or.inl rfl
  · split_ifs at hw
    · cases hw
      exact Or.inl rfl
    · exact Or.inr (hregister hw)
  · exact Or.inr (hregister hw)

theorem acquire_phases {i j : ι} (h : j ≠ i) : (s.acquire i).2.phases j = s.phases j := by
  unfold acquire
  split
  · split_ifs <;> simp [goto, h]
  · simp [goto, h]
  · split <;> simp [goto, h]

theorem release_phases {i j : ι} (h : j ≠ i) : (s.release i).phases j = s.phases j := by
  unfold release
  split <;> simp [goto, h]

/-- A step changes the phase of its access only. -/
theorem step_phases {fifo : Fifo conns T} {s' : Gated conns T ι} {who : Option ι}
    (hstep : Step fifo s who s') {j : ι} (hj : who ≠ some j) : s'.phases j = s.phases j := by
  cases hstep with
  | acquire i => exact acquire_phases fun heq => hj (heq ▸ rfl)
  | @wait _ i _ _ _ _ hw =>
    have hji : j ≠ i := fun heq => hj (heq ▸ rfl)
    rcases wait_cases hw with rfl | ⟨slot, gate, rfl, -, -⟩
    · rfl
    · exact Function.update_of_ne hji _ _
  | release i => exact release_phases fun heq => hj (heq ▸ rfl)
  | @finish i _ =>
    have hji : j ≠ i := fun heq => hj (heq ▸ rfl)
    exact Function.update_of_ne hji _ _
  | drop _ => rfl

theorem acquire_lanes (i : ι) : (s.acquire i).2.gate.lanes = s.gate.lanes := by
  unfold acquire
  split
  · split_ifs <;> rfl
  · rfl
  · next slot target hp =>
    have hlanes := Gate.resume_lanes s.gate slot target
    split
    all_goals
      next hresume =>
      rw [hresume] at hlanes
      exact hlanes

theorem release_lanes (i : ι) : (s.release i).gate.lanes = s.gate.lanes := by
  unfold release
  split
  · rfl
  · exact Gate.drop_lanes s.gate
  · exact Gate.cancel_lanes s.gate _ _

theorem acquire_owners (i : ι) : (s.acquire i).2.owners = s.owners := by
  unfold acquire
  split
  · split_ifs <;> rfl
  · rfl
  · split <;> rfl

theorem release_owners (i : ι) : (s.release i).owners = s.owners := by
  unfold release
  split <;> rfl

theorem wait_owners {fifo : Fifo conns T} {s' : Gated conns T ι} {i : ι} {index : ℕ} {target : T}
    (hw : s.wait fifo i index target = .ok s') : s'.owners = s.owners := by
  rcases wait_cases hw with rfl | ⟨slot, gate, rfl, -, -⟩
  · rfl
  · rfl

theorem step_lanes {fifo : Fifo conns T} {s' : Gated conns T ι} {who : Option ι}
    (hstep : Step fifo s who s') : s'.gate.lanes = s.gate.lanes := by
  cases hstep with
  | acquire i => exact acquire_lanes i
  | wait _ _ _ _ hw =>
    rcases wait_cases hw with rfl | ⟨slot, gate, rfl, hlanes, -⟩
    · rfl
    · exact hlanes
  | release i => exact release_lanes i
  | finish _ => rfl
  | drop _ => exact Gate.drop_lanes s.gate

/-- A target enters the queue in a wait of its access. -/
theorem step_waiters {fifo : Fifo conns T} {s' : Gated conns T ι} {who : Option ι}
    (hstep : Step fifo s who s') {slot : Fin conns} {target : T}
    (hmem : (slot, target) ∈ s'.gate.waiters) :
    (slot, target) ∈ s.gate.waiters ∨ ∃ j, who = some j ∧ s'.phases j = .waiting slot target := by
  cases hstep with
  | acquire i =>
    refine Or.inl ?_
    unfold acquire at hmem
    split at hmem
    · split_ifs at hmem <;> exact hmem
    · exact hmem
    · next x t hp =>
      split at hmem
      all_goals
        next gate hresume =>
        have hgate : gate = (s.gate.resume x t).2 := by rw [hresume]
        have hresumed : (slot, target) ∈ (s.gate.resume x t).2.waiters := by
          rw [← hgate]
          exact hmem
        exact Gate.mem_resume hresumed
  | @wait _ i _ _ _ _ hw =>
    rcases wait_cases hw with rfl | ⟨x, gate, rfl, -, hwaiters⟩
    · exact Or.inl hmem
    · rcases hwaiters slot target hmem with ⟨rfl, rfl⟩ | hmem
      · exact Or.inr ⟨i, rfl, Function.update_self ..⟩
      · exact Or.inl hmem
  | release i =>
    refine Or.inl ?_
    unfold release at hmem
    split at hmem
    · exact hmem
    · exact Gate.mem_drop hmem
    · exact Gate.mem_cancel hmem
  | finish _ => exact Or.inl hmem
  | drop _ => exact Or.inl (Gate.mem_drop hmem)

/-- The access a queued or granted target belongs to. -/
theorem Inv.access (h : s.Inv) {slot : Fin conns} {target : T}
    (hslot : (slot, target) ∈ s.gate.waiters ∨ s.gate.granted slot = some target) :
    ∃ j, s.phases j = .waiting slot target ∧
      ∀ k t, s.phases k = .waiting slot t → k = j := by
  obtain ⟨waits, hregs, hbal⟩ := h
  have hwaits : targets waits slot = some target := by
    rcases hslot with hmem | hgrant
    · exact (hbal.queued hmem).2
    · exact hbal.grant hgrant
  obtain ⟨⟨j, t⟩, hj, rfl⟩ := Option.map_eq_some_iff.mp hwaits
  refine ⟨j, (hregs j slot t).mpr hj, fun k t' hk => ?_⟩
  have hk := (hregs k slot t').mp hk
  rw [hj] at hk
  cases hk
  rfl

/-- A grant stays until its access comes back. -/
theorem granted_stable {fifo : Fifo conns T} {s' : Gated conns T ι} {i : ι} {slot : Fin conns}
    {target : T} (h : s.Inv) (hp : s.phases i = .waiting slot target)
    (hgrant : s.gate.granted slot = some target) (hrun : Elsewhere fifo i s s') :
    s'.Inv ∧ s'.phases i = .waiting slot target ∧ s'.gate.granted slot = some target := by
  induction hrun with
  | refl => exact ⟨h, hp, hgrant⟩
  | @tail a b _ hstep ih =>
    obtain ⟨ha, hpa, hgranta⟩ := ih
    obtain ⟨who, hwho, hstep⟩ := hstep
    have hb := inv_step hstep ha
    have hpb : b.phases i = .waiting slot target := (step_phases hstep hwho).trans hpa
    refine ⟨hb, hpb, ?_⟩
    have hunqueued : (slot, target) ∉ b.gate.waiters := fun hmem => by
      rcases step_waiters hstep hmem with hmem | ⟨j, rfl, hj⟩
      · obtain ⟨waits, -, hbal⟩ := ha
        exact hbal.not_queued hgranta hmem
      · obtain ⟨k, -, hk⟩ := hb.access (Or.inl hmem)
        exact hwho (by rw [hk j target hj, hk i target hpb])
    obtain ⟨waits, hregs, hbal⟩ := hb
    have hwaits : targets waits slot = some target := by
      rw [targets, (hregs i slot target).mp hpb]
      rfl
    exact (hbal.waiting hwaits).resolve_left hunqueued

/-- The acquire of a granted access succeeds. -/
theorem acquire_granted {i : ι} {slot : Fin conns} {target : T}
    (hp : s.phases i = .waiting slot target) (hgrant : s.gate.granted slot = some target) :
    (s.acquire i).1 = true := by
  unfold acquire Gate.resume
  simp [hp, hgrant]

/-- A charge given up between two states : the oldest waiter gets it, and the next acquire
of its one access succeeds, whatever the others do before. Without a waiter the counter
falls by one. -/
def HandedOver (fifo : Fifo conns T) (s s' : Gated conns T ι) : Prop :=
  match s.gate.waiters with
  | [] => s'.gate.active + 1 = s.gate.active ∧ s'.gate.waiters = [] ∧
      ∀ x t, s'.gate.granted x = some t → s.gate.granted x = some t
  | (slot, target) :: rest => s'.gate.active = s.gate.active ∧ s'.gate.waiters = rest ∧
      (∀ x t, x ≠ slot → s'.gate.granted x = some t → s.gate.granted x = some t) ∧
      ∃ j, s.phases j = .waiting slot target ∧
        (∀ k t, s.phases k = .waiting slot t → k = j) ∧
        ∀ s'', Elsewhere fifo j s' s'' → (s''.acquire j).1 = true

/-- The drop of a charge hands it over. -/
theorem handed_over {fifo : Fifo conns T} {s' : Gated conns T ι} {who : Option ι}
    (gate : Gate conns T) (h : s.Inv) (hstep : Step fifo s who s')
    (hwaiters : gate.waiters = s.gate.waiters) (hactive : gate.active = s.gate.active)
    (hpos : 0 < gate.active)
    (hgranted : ∀ x t, gate.granted x = some t → s.gate.granted x = some t)
    (hdrop : s'.gate = gate.drop)
    (hidle : ∀ j, who = some j → ∀ slot target, s'.phases j ≠ .waiting slot target) :
    HandedOver fifo s s' := by
  unfold HandedOver
  unfold Gate.drop at hdrop
  rw [hwaiters] at hdrop
  cases hw : s.gate.waiters with
  | nil =>
    rw [hw] at hdrop
    dsimp only at hdrop ⊢
    rw [if_pos hpos] at hdrop
    rw [hdrop]
    exact ⟨by dsimp only; omega, rfl, hgranted⟩
  | cons entry rest =>
    obtain ⟨slot, target⟩ := entry
    rw [hw] at hdrop
    dsimp only at hdrop ⊢
    have hgrant : s'.gate.granted slot = some target := by
      rw [hdrop]
      exact Function.update_self ..
    have hinv := inv_step hstep h
    obtain ⟨j, hj, -⟩ := hinv.access (Or.inr hgrant)
    have hne : who ≠ some j := fun heq => hidle j heq slot target hj
    have hj' : s.phases j = .waiting slot target := by rw [← step_phases hstep hne, hj]
    have hqueued : (slot, target) ∈ s.gate.waiters := by simp [hw]
    obtain ⟨k, -, hk⟩ := h.access (Or.inl hqueued)
    refine ⟨by rw [hdrop]; exact hactive, by rw [hdrop], fun x t hx hxt => ?_, j, hj',
      fun l t hl => by rw [hk l t hl, hk j target hj'], fun s'' hrun => ?_⟩
    · rw [hdrop] at hxt
      dsimp only at hxt
      rw [Function.update_of_ne hx] at hxt
      exact hgranted x t hxt
    · obtain ⟨-, hp, hstill⟩ := granted_stable hinv hj hgrant hrun
      exact acquire_granted hp hstill

/-- The access has a charge : it is held, or granted and not yet taken. -/
def Charged (s : Gated conns T ι) (i : ι) : Prop :=
  s.phases i = .held ∨
    ∃ slot target, s.phases i = .waiting slot target ∧ s.gate.granted slot = some target

theorem handed_over_release (fifo : Fifo conns T) (h : s.Inv) {i : ι} (hi : s.Charged i) :
    HandedOver fifo s (s.release i) := by
  obtain ⟨waits, hregs, hbal⟩ := id h
  have hcount := hbal.count
  have hidle : ∀ j, some i = some j → ∀ slot target,
      (s.release i).phases j ≠ .waiting slot target := by
    rintro j hj slot target
    cases hj
    unfold release
    split <;> simp [goto]
  rcases hi with hheld | ⟨slot, target, hp, hgrant⟩
  · have hone := charge_update s.phases i .idle
    rw [hheld] at hone
    simp only [charge] at hone
    refine handed_over s.gate h (.release s i) rfl rfl ?_ (fun _ _ hx => hx) ?_ hidle
    · change ∑ j, charge _ + 1 = ∑ j, charge _ + 0 at hone
      omega
    · unfold release
      rw [hheld]
      rfl
  · have hunqueued : s.gate.get slot ≠ some target := fun hget =>
      hbal.not_queued hgrant (hbal.get_eq_some.mp hget)
    have hgrants := Gate.grants_update s.gate slot none
    rw [hgrant] at hgrants
    simp only [Option.toList_some, List.length_cons, List.length_nil, Option.toList_none] at hgrants
    refine handed_over { s.gate with granted := Function.update s.gate.granted slot none } h (.release s i) rfl rfl (by dsimp only; omega) (fun x t hx => ?_) ?_ hidle
    · dsimp only at hx
      by_cases hxs : x = slot
      · subst hxs
        simp at hx
      · rwa [Function.update_of_ne hxs] at hx
    · unfold release Gate.cancel
      simp only [hp, if_neg hunqueued, if_pos hgrant]
      rfl

theorem handed_over_drop (fifo : Fifo conns T) (h : s.Inv) (howners : 0 < s.owners) :
    HandedOver fifo s s.drop := by
  obtain ⟨waits, hregs, hbal⟩ := id h
  have hcount := hbal.count
  exact handed_over s.gate h (.drop howners) rfl rfl (by omega) (fun _ _ hx => hx) rfl
    (fun j hj => nomatch hj)

theorem Reached.lanes {fifo : Fifo conns T} {lanes : ℕ} (h : Reached fifo lanes s) :
    s.gate.lanes = lanes := by
  induction h with
  | new => rfl
  | step _ hstep ih => exact (step_lanes hstep).trans ih

/-- The accesses that are held. -/
def heldOf (s : Gated conns T ι) : Finset ι :=
  Finset.univ.filter fun i => s.phases i = .held

/-- The slots that hold a grant. -/
def grantedOf (s : Gated conns T ι) : Finset (Fin conns) :=
  Finset.univ.filter fun slot => (s.gate.granted slot).isSome

theorem card_heldOf (s : Gated conns T ι) : s.heldOf.card = ∑ i, charge (s.phases i) := by
  rw [heldOf, Finset.card_filter]
  refine Finset.sum_congr rfl fun i _ => ?_
  cases s.phases i <;> simp [charge]

theorem card_grantedOf (s : Gated conns T ι) : s.grantedOf.card = s.gate.grants := by
  rw [grantedOf, Finset.card_filter]
  refine Finset.sum_congr rfl fun slot _ => ?_
  cases s.gate.granted slot <;> simp

/-- In every state reached, `active` counts the held accesses, the live lanes and the
grants. It is within the lanes, and equals them while a waiter is queued. A charge given
up by the release of an access or the drop of a lane is handed over. -/
theorem Reached.conserved {fifo : Fifo conns T} {lanes : ℕ} (h : Reached fifo lanes s) :
    s.gate.active = s.heldOf.card + s.owners + s.grantedOf.card ∧ s.gate.active ≤ lanes ∧
      (s.gate.waiters ≠ [] → s.gate.active = lanes) ∧
      (∀ i, s.Charged i → HandedOver fifo s (s.release i)) ∧
      (0 < s.owners → HandedOver fifo s s.drop) := by
  have hinv := h.inv
  have hlanes := h.lanes
  obtain ⟨waits, hregs, hbal⟩ := id hinv
  refine ⟨?_, hlanes ▸ hbal.le, fun hw => hlanes ▸ hbal.full hw,
    fun i hi => handed_over_release fifo hinv hi, handed_over_drop fifo hinv⟩
  rw [card_heldOf, card_grantedOf]
  exact hbal.count

/-- An access in the one lane, and one that waits for it. -/
def contended : Gated 2 ℕ (Fin 2) :=
  let held := ((new 2 1 : Gated 2 ℕ (Fin 2)).acquire 0).2
  held.goto 1 (.waiting 1 7) { held.gate with waiters := Fifo.inPlace.push [] 1 7 }

theorem conserved_contended :
    contended.gate.active = contended.heldOf.card + contended.owners + contended.grantedOf.card ∧
      HandedOver Fifo.inPlace contended (contended.release 0) := by
  have hreached : Reached Fifo.inPlace 1 contended :=
    .step (.step .new (.acquire _ 0)) (.wait (i := 1) 1 7 rfl
      (fun j slot target hj hp => by
        obtain rfl : j = 0 := by omega
        cases hp) rfl)
  obtain ⟨hcount, -, -, hrelease, -⟩ := hreached.conserved
  exact ⟨hcount, hrelease 0 (Or.inl rfl)⟩

end Gated

end Cartel.Redis.Parser
