import Mathlib.Algebra.BigOperators.Fin
import Mathlib.Data.PNat.Basic
import Cartel.Lib.Outcome

/-!
# Queues of requests

The lanes of an arena share a pool of slots. An entry takes a slot of the pool, and its weight is
charged to its lane. A charge is taken before the entry is prepared, and it is given back when the
preparation fails, when the entry leaves the lane, or when a sink takes it.

The pool and the sink are parameters : the pool says whether a lane gets a slot, and the sink
whether it claims another entry and whether it takes it.
-/

namespace Cartel.Core

open Cartel.Lib

/-! ## Weights -/

/-- `Cause::Overflow`. -/
structure Overflow (ω : Type) where
  held : ω
  requested : ω

/-- `Weight`, with the number that a weight is. -/
class Weight (ω : Type) where
  zero : ω
  value : ω → ℕ
  tryAdd : ω → ω → Except (Overflow ω) ω
  wrappingSub : ω → ω → ω
  value_zero : value zero = 0
  value_tryAdd : ∀ {held other total}, tryAdd held other = .ok total →
    value total = value held + value other
  wrappingSub_tryAdd : ∀ {held other total}, tryAdd held other = .ok total →
    wrappingSub total other = held
  value_wrappingSub : ∀ {held other}, value other ≤ value held →
    value (wrappingSub held other) = value held - value other

/-- The weights of `usize`. -/
instance : Weight UInt64 where
  zero := 0
  value := UInt64.toNat
  tryAdd held other :=
    if held.toNat + other.toNat < 2 ^ 64 then .ok (held + other) else .error ⟨held, other⟩
  wrappingSub held other := held - other
  value_zero := rfl
  value_tryAdd {held other total} h := by
    split_ifs at h with hlt
    cases h
    rw [UInt64.toNat_add, Nat.mod_eq_of_lt hlt]
  wrappingSub_tryAdd {held other total} h := by
    split_ifs at h with hlt
    cases h
    exact UInt64.add_sub_cancel held other
  value_wrappingSub {held other} h := UInt64.toNat_sub_of_le _ _ (UInt64.le_iff_toNat_le.mpr h)

/-- No weights. -/
instance : Weight Unit where
  zero := ()
  value _ := 0
  tryAdd _ _ := .ok ()
  wrappingSub _ _ := ()
  value_zero := rfl
  value_tryAdd _ := rfl
  wrappingSub_tryAdd _ := rfl
  value_wrappingSub _ := rfl

/-! ## Lanes -/

/-- `Entry`. -/
structure Entry (τ ω : Type) where
  value : τ
  weight : ω

/-- A lane : its entries, the weight recorded for it, and the slots it holds. -/
structure Lane (τ ω : Type) where
  entries : List (Entry τ ω)
  state : ω
  held : ℕ

/-- `Arena`. -/
abbrev Arena (n : ℕ) (τ ω : Type) :=
  Fin n → Lane τ ω

/-- `Arena::try_new`. -/
def Arena.new {n : ℕ} {τ ω : Type} [Weight ω] : Arena n τ ω :=
  fun _ => ⟨[], Weight.zero, 0⟩

/-- The pool of slots : whether a lane gets one, by the slots that the lanes hold. It gives out no
more than there are. -/
structure Fair (n : ℕ) (γ : Type) where
  capacity : ℕ
  reserve : (Fin n → ℕ) → Fin n → Except γ Unit
  lt_capacity : ∀ {held lane}, reserve held lane = .ok () → ∑ i, held i < capacity

/-- `Rejection`. -/
inductive Rejection (n : ℕ) (γ ω : Type) where
  | capacity (cause : γ)
  | weight (lane : Fin n) (cause : Overflow ω)

/-- `Rejected`. -/
structure Rejected (n : ℕ) (γ τ ω : Type) where
  value : τ
  cause : Rejection n γ ω

/-- `Front` : a slot of a lane that no entry has, and its charge. -/
structure Front (ω : Type) where
  weight : ω

variable {n : ℕ} {γ τ ω : Type}

/-- `Front::publish`. -/
def Front.publish (front : Front ω) (lane : Lane τ ω) (value : τ) : Lane τ ω :=
  { lane with entries := lane.entries ++ [⟨value, front.weight⟩] }

/-- `Front::restore`. -/
def Front.restore (front : Front ω) (lane : Lane τ ω) (value : τ) : Lane τ ω :=
  { lane with entries := ⟨value, front.weight⟩ :: lane.entries }

/-- `Front::release`. -/
def Front.release [Weight ω] (front : Front ω) (lane : Lane τ ω) : Lane τ ω :=
  { lane with
    state := Weight.wrappingSub lane.state front.weight
    held := lane.held - 1 }

/-- `Lane::try_reserve`. -/
def tryReserve [Weight ω] (fair : Fair n γ) (index : Fin n) (arena : Arena n τ ω) (weight : ω) :
    Except (Rejection n γ ω) (Lane τ ω × Front ω) := do
  let lane := arena index
  let total ← (Weight.tryAdd lane.state weight).mapError (.weight index)
  (fair.reserve (fun i => (arena i).held) index).mapError .capacity
  return ({ lane with state := total, held := lane.held + 1 }, ⟨weight⟩)

/-- `Lane::try_with`. What is outside of the arena is the region, and the preparation works on
it. -/
def tryWith {ρ ι κ π ε r : Type} [Weight ω] (fair : Fair n γ) (convert : Rejection n γ ω → ε)
    (prepare : ρ → ι → ρ × Except (ε × ι) (π × κ)) (build : κ → π → τ × r) (index : Fin n)
    (arena : Arena n τ ω) (region : ρ) (weight : ω) (input : ι) :
    (Arena n τ ω × ρ) × Except (ε × ι) r :=
  match tryReserve fair index arena weight with
  | .error cause => ((arena, region), .error (convert cause, input))
  | .ok (lane, front) =>
    match prepare region input with
    | (region, .error error) =>
      ((Function.update arena index (front.release lane), region), .error error)
    | (region, .ok (proof, input)) =>
      let (item, output) := build input proof
      ((Function.update arena index (front.publish lane item), region), .ok output)

/-- `Lane::try_push`. -/
def tryPush [Weight ω] (fair : Fair n γ) (index : Fin n) (arena : Arena n τ ω) (item : τ)
    (weight : ω) :
    Arena n τ ω × Except (Rejected n γ τ ω) Unit :=
  let ((arena, _), result) := tryWith fair id (fun region item => (region, .ok ((), item)))
    (fun item () => (item, ())) index arena () weight item
  (arena, result.mapError fun error => ⟨error.2, error.1⟩)

/-- `Lane::take_front`. -/
def takeFront (lane : Lane τ ω) : Option ((τ × Front ω) × Lane τ ω) :=
  match lane.entries with
  | [] => none
  | entry :: entries => some ((entry.value, ⟨entry.weight⟩), { lane with entries := entries })

/-- `Lane::pop_front`. -/
def popFront [Weight ω] (lane : Lane τ ω) : Option (τ × Lane τ ω) :=
  (takeFront lane).map fun taken => (taken.1.1, taken.1.2.release taken.2)

/-- `Drain`. -/
inductive Drain where
  | empty
  | exhausted
  deriving DecidableEq

/-- `Lane::clear`, with the work that is left, and the values that were released. -/
def clear [Weight ω] : ℕ → Lane τ ω → Lane τ ω × Drain × List τ
  | 0, lane => (lane, if lane.entries.isEmpty then .empty else .exhausted, [])
  | work + 1, lane =>
    match popFront lane with
    | none => (lane, .empty, [])
    | some (item, lane) =>
      let (lane, outcome, released) := clear work lane
      (lane, outcome, item :: released)

/-! ## Sinks -/

/-- `request::Admission`. The value comes back unless it was taken. -/
inductive Admission (δ : Type) where
  | ready
  | saturated
  | rejected (cause : δ)

/-- `Requests` : whether it claims another entry, and whether it takes it. -/
structure Sink (σ τ δ : Type) where
  claim : σ → Option σ
  accept : σ → τ → σ × Admission δ

theorem takeFront_length {lane : Lane τ ω} {taken : (τ × Front ω) × Lane τ ω}
    (h : takeFront lane = some taken) : taken.2.entries.length < lane.entries.length := by
  unfold takeFront at h
  split at h
  · cases h
  · rename_i entry entries hentries
    cases h
    rw [hentries]
    exact Nat.lt_succ_self _

/-- `Lane::drain`, with the values that the sink took. -/
def drain {σ δ : Type} [Weight ω] (sink : Sink σ τ δ) (lane : Lane τ ω) (state : σ) :
    (Lane τ ω × σ × List τ) × Except δ Unit :=
  match sink.claim state with
  | none => ((lane, state, []), .ok ())
  | some state =>
    match h : takeFront lane with
    | none => ((lane, state, []), .ok ())
    | some ((value, front), left) =>
      have := takeFront_length h
      match sink.accept state value with
      | (state, .ready) =>
        let ((lane, state, taken), result) := drain sink (front.release left) state
        ((lane, state, value :: taken), result)
      | (state, .saturated) => ((front.restore left value, state, []), .ok ())
      | (state, .rejected cause) => ((front.restore left value, state, []), .error cause)
termination_by lane.entries.length

/-! ## Charges -/

/-- The recorded weight is the sum of the weights, and an entry has a slot. -/
structure Lane.Exact [Weight ω] (lane : Lane τ ω) : Prop where
  state : Weight.value lane.state = (lane.entries.map fun entry => Weight.value entry.weight).sum
  held : lane.held = lane.entries.length

section

variable [Weight ω]

theorem Arena.new_exact (index : Fin n) : (Arena.new (τ := τ) (ω := ω) index).Exact :=
  ⟨Weight.value_zero, rfl⟩

theorem tryReserve_eq_ok {fair : Fair n γ} {index : Fin n} {arena : Arena n τ ω} {weight : ω}
    {lane : Lane τ ω} {front : Front ω} :
    tryReserve fair index arena weight = .ok (lane, front) ↔
      ∃ total, Weight.tryAdd (arena index).state weight = .ok total ∧
        fair.reserve (fun i => (arena i).held) index = .ok () ∧
        lane = { arena index with state := total, held := (arena index).held + 1 } ∧
        front = ⟨weight⟩ := by
  unfold tryReserve
  rw [bind_eq_ok]
  constructor
  · rintro ⟨total, htotal, h⟩
    obtain ⟨_, hfair, h⟩ := bind_eq_ok.mp h
    cases h
    exact ⟨total, mapError_eq_ok.mp htotal, mapError_eq_ok.mp hfair, rfl, rfl⟩
  · rintro ⟨total, htotal, hfair, rfl, rfl⟩
    refine ⟨total, mapError_eq_ok.mpr htotal, bind_eq_ok.mpr ⟨(), mapError_eq_ok.mpr hfair, rfl⟩⟩

/-- What `try_with` comes to. -/
theorem tryWith_spec {ρ ι κ π ε r : Type} {fair : Fair n γ} {convert : Rejection n γ ω → ε}
    {prepare : ρ → ι → ρ × Except (ε × ι) (π × κ)} {build : κ → π → τ × r} {index : Fin n}
    {arena : Arena n τ ω} {region : ρ} {weight : ω} {input : ι} {arena' : Arena n τ ω}
    {region' : ρ} {result : Except (ε × ι) r}
    (h : tryWith fair convert prepare build index arena region weight input =
      ((arena', region'), result)) :
    (∃ error, result = .error error ∧ arena' = arena ∧
      (region' = region ∧ error.2 = input ∨ prepare region input = (region', .error error))) ∨
    ∃ proof item total, prepare region input = (region', .ok (proof, item)) ∧
      Weight.tryAdd (arena index).state weight = .ok total ∧
      fair.reserve (fun i => (arena i).held) index = .ok () ∧
      arena' = Function.update arena index
        ⟨(arena index).entries ++ [⟨(build item proof).1, weight⟩], total,
          (arena index).held + 1⟩ ∧
      result = .ok (build item proof).2 := by
  unfold tryWith at h
  rcases hreserve : tryReserve fair index arena weight with cause | ⟨lane, front⟩
  · rw [hreserve] at h
    cases h
    exact .inl ⟨_, rfl, rfl, .inl ⟨rfl, rfl⟩⟩
  · obtain ⟨total, htotal, hfair, rfl, rfl⟩ := tryReserve_eq_ok.mp hreserve
    rw [hreserve] at h
    rcases hprepare : prepare region input with ⟨region₁, error | ⟨proof, item⟩⟩
    · simp only [hprepare] at h
      cases h
      refine .inl ⟨error, rfl, ?_, .inr rfl⟩
      have hback : Front.release ⟨weight⟩
          { arena index with state := total, held := (arena index).held + 1 } = arena index := by
        rw [Front.release, Weight.wrappingSub_tryAdd htotal, Nat.add_sub_cancel]
      rw [hback, Function.update_eq_self]
    · simp only [hprepare] at h
      cases h
      exact .inr ⟨proof, item, total, rfl, htotal, hfair, rfl, rfl⟩

/-- An entry that is published keeps the charges exact. -/
theorem Lane.Exact.publish {lane : Lane τ ω} (h : lane.Exact) {weight total : ω}
    (htotal : Weight.tryAdd lane.state weight = .ok total) (item : τ) :
    (⟨lane.entries ++ [⟨item, weight⟩], total, lane.held + 1⟩ : Lane τ ω).Exact := by
  constructor
  · rw [Weight.value_tryAdd htotal, h.state]
    simp
  · rw [h.held]
    simp

/-- An entry that leaves takes its charge along. -/
theorem Lane.Exact.release {lane : Lane τ ω} (h : lane.Exact) {entry : Entry τ ω}
    {entries : List (Entry τ ω)} (hentries : lane.entries = entry :: entries) :
    (Front.release ⟨entry.weight⟩ { lane with entries := entries }).Exact := by
  obtain ⟨hstate, hheld⟩ := h
  rw [hentries] at hstate hheld
  rw [List.map_cons, List.sum_cons] at hstate
  constructor
  · change Weight.value (Weight.wrappingSub lane.state entry.weight) = _
    rw [Weight.value_wrappingSub (by omega), hstate, Nat.add_sub_cancel_left]
    rfl
  · change lane.held - 1 = entries.length
    rw [hheld, List.length_cons, Nat.add_sub_cancel]

/-- What `pop_front` comes to. -/
theorem Lane.Exact.popFront_spec {lane : Lane τ ω} (h : lane.Exact) :
    (popFront lane = none ↔ lane.entries = []) ∧
    ∀ item lane', popFront lane = some (item, lane') →
      lane'.Exact ∧ ∃ entry, lane.entries = entry :: lane'.entries ∧ item = entry.value := by
  rcases hentries : lane.entries with _ | ⟨entry, entries⟩
  · have hpop : popFront lane = none := by
      rw [popFront, takeFront, hentries]
      rfl
    rw [hpop]
    exact ⟨⟨fun _ => rfl, fun _ => rfl⟩, fun _ _ h => (by cases h)⟩
  · have hpop : popFront lane =
        some (entry.value, Front.release ⟨entry.weight⟩ { lane with entries := entries }) := by
      rw [popFront, takeFront, hentries]
      rfl
    rw [hpop]
    refine ⟨⟨fun h => (by cases h), fun h => (by cases h)⟩, fun item lane' heq => ?_⟩
    cases heq
    exact ⟨h.release hentries, entry, rfl, rfl⟩

/-- What `clear` comes to. -/
theorem Lane.Exact.clear_spec {lane : Lane τ ω} (h : lane.Exact) {work : ℕ} {lane' : Lane τ ω}
    {outcome : Drain} {released : List τ} (hcall : clear work lane = (lane', outcome, released)) :
    lane'.Exact ∧ (outcome = .empty ↔ lane'.entries = []) ∧
      ∃ gone, lane.entries = gone ++ lane'.entries ∧ released = gone.map Entry.value := by
  induction work generalizing lane lane' outcome released with
  | zero =>
    cases hcall
    refine ⟨h, ?_, [], rfl, rfl⟩
    rcases lane.entries with _ | ⟨entry, entries⟩
    · exact ⟨fun _ => rfl, fun _ => rfl⟩
    · exact ⟨fun h => (by cases h), fun h => (by cases h)⟩
  | succ work ih =>
    obtain ⟨hnone, hsome⟩ := h.popFront_spec
    rw [clear] at hcall
    rcases hpop : popFront lane with _ | ⟨item, lane₁⟩
    · rw [hpop] at hcall
      cases hcall
      exact ⟨h, ⟨fun _ => hnone.mp hpop, fun _ => rfl⟩, [], rfl, rfl⟩
    · obtain ⟨hexact, entry, hentries, rfl⟩ := hsome item lane₁ hpop
      rw [hpop] at hcall
      dsimp only at hcall
      rcases hclear : clear work lane₁ with ⟨lane₂, outcome₂, released₂⟩
      rw [hclear] at hcall
      cases hcall
      obtain ⟨hexact', hempty, gone, hgone, rfl⟩ := ih hexact hclear
      refine ⟨hexact', hempty, entry :: gone, ?_, rfl⟩
      rw [hentries, hgone, List.cons_append]

/-- The drain of a lane with an entry that is claimed. -/
theorem drain_cons {σ δ : Type} (sink : Sink σ τ δ) {lane : Lane τ ω} {state claimed : σ}
    (hclaim : sink.claim state = some claimed) {entry : Entry τ ω} {entries : List (Entry τ ω)}
    (hentries : lane.entries = entry :: entries) :
    drain sink lane state = match sink.accept claimed entry.value with
      | (state, .ready) =>
        let ((lane, state, taken), result) :=
          drain sink (Front.release ⟨entry.weight⟩ { lane with entries := entries }) state
        ((lane, state, entry.value :: taken), result)
      | (state, .saturated) => ((lane, state, []), .ok ())
      | (state, .rejected cause) => ((lane, state, []), .error cause) := by
  have htake : takeFront lane =
      some ((entry.value, ⟨entry.weight⟩), { lane with entries := entries }) := by
    rw [takeFront, hentries]
  have hback :
      Front.restore ⟨entry.weight⟩ { lane with entries := entries } entry.value = lane := by
    rw [Front.restore]
    obtain ⟨entries', value, held⟩ := lane
    cases hentries
    rfl
  rw [drain, hclaim]
  dsimp only
  split
  · rename_i hnone
    rw [htake] at hnone
    cases hnone
  · rename_i value front left hsome
    rw [htake] at hsome
    cases hsome
    rw [hback]

/-- What `drain` comes to. -/
theorem Lane.Exact.drain_spec {σ δ : Type} {sink : Sink σ τ δ} {lane : Lane τ ω} (h : lane.Exact)
    {state state' : σ} {lane' : Lane τ ω} {taken : List τ} {result : Except δ Unit}
    (hcall : drain sink lane state = ((lane', state', taken), result)) :
    lane'.Exact ∧ (∃ gone, lane.entries = gone ++ lane'.entries ∧ taken = gone.map Entry.value) ∧
      ∀ cause, result = .error cause → ∃ entry entries before,
        lane'.entries = entry :: entries ∧ (sink.accept before entry.value).2 = .rejected cause := by
  induction hn : lane.entries.length using Nat.strong_induction_on
    generalizing lane lane' state state' taken result with
  | _ n ih =>
    subst hn
    have hstay : ∃ gone, lane.entries = gone ++ lane.entries ∧
        ([] : List τ) = gone.map Entry.value := ⟨[], rfl, rfl⟩
    rcases hclaim : sink.claim state with _ | claimed
    · rw [drain, hclaim] at hcall
      cases hcall
      exact ⟨h, hstay, fun _ h => (by cases h)⟩
    rcases hentries : lane.entries with _ | ⟨entry, entries⟩
    · have htake : takeFront lane = none := by
        rw [takeFront, hentries]
      rw [drain, hclaim] at hcall
      dsimp only at hcall
      split at hcall
      · cases hcall
        exact ⟨h, hentries ▸ hstay, fun _ h => (by cases h)⟩
      · rename_i hsome
        rw [htake] at hsome
        cases hsome
    · rw [drain_cons sink hclaim hentries] at hcall
      rcases haccept : sink.accept claimed entry.value with ⟨state₁, _ | _ | cause⟩
      · rw [haccept] at hcall
        dsimp only at hcall
        rcases hdrain : drain sink (Front.release ⟨entry.weight⟩ { lane with entries := entries })
          state₁ with ⟨⟨lane₂, state₂, taken₂⟩, result₂⟩
        rw [hdrain] at hcall
        cases hcall
        have hshort : entries.length < lane.entries.length := by
          rw [hentries]
          exact Nat.lt_succ_self _
        obtain ⟨hexact, ⟨gone, hgone, rfl⟩, hrejected⟩ :=
          ih entries.length hshort (h.release hentries) hdrain rfl
        refine ⟨hexact, ⟨entry :: gone, ?_, rfl⟩, hrejected⟩
        rw [List.cons_append, ← hgone]
        rfl
      · rw [haccept] at hcall
        cases hcall
        exact ⟨h, hentries ▸ hstay, fun _ h => (by cases h)⟩
      · rw [haccept] at hcall
        cases hcall
        refine ⟨h, hentries ▸ hstay, fun cause' hcause => ?_⟩
        cases hcause
        exact ⟨entry, entries, claimed, hentries, by rw [haccept]⟩

end

end Cartel.Core
