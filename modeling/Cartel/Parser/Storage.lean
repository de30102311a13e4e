import Cartel.Parser.Contract
import Cartel.Parser.Gate
import Cartel.Parser.Resume
import Cartel.Parser.Tapes

/-!
# The parser storage of a port

`Storage` is the node pool and the lane gate that the parsers of a port share. A builder
holds a lane while it has nodes, which is part of the invariant every storage carries. The
builder of one parser (`Storage.builder`) is the scanner's : it keeps the tape a draft
keeps, whatever the other parsers do (`Storage.builder_lawful`).
-/

set_option linter.unusedSectionVars false

namespace Cartel.Redis.Parser

/-- `capacity::Error`. -/
inductive Capacity.Error where
  | lanes (connections values : ℕ)
  | total (lanes retained : ℕ)
  | above (actual maximum : ℕ)
  deriving DecidableEq

/-- `capacity::Capacity`. -/
structure Capacity where
  nodes : ℕ
  connections : ℕ
  lanes : ℕ
  deriving DecidableEq

/-- `Capacity::try_with`. The products and sums are checked in `usize`. -/
def Capacity.tryWith (conns active frame retained : ℕ) : Except Capacity.Error Capacity :=
  if active * frame < 2 ^ 64 then
    let lanes := active * frame
    if lanes + retained < 2 ^ 64 then
      let total := lanes + retained
      let maximum := 2 ^ 32 - 1
      if total > maximum then .error (.above total maximum) else .ok ⟨total, conns, active⟩
    else .error (.total lanes retained)
  else .error (.lanes active frame)

/-- `Capacity::try_new`. -/
def Capacity.tryNew (conns frame retained : ℕ) : Except Capacity.Error Capacity :=
  tryWith conns (min conns 4) frame retained

theorem Capacity.tryWith_eq_ok {conns active frame retained : ℕ} {capacity : Capacity} :
    tryWith conns active frame retained = .ok capacity ↔
      active * frame + retained < 2 ^ 32 ∧
        capacity = ⟨active * frame + retained, conns, active⟩ := by
  unfold tryWith
  dsimp only
  split_ifs
  · simp; omega
  · simp only [Except.ok.injEq, eq_comm (a := capacity)]
    exact (and_iff_right (by omega)).symm
  · simp; omega
  · simp; omega

namespace Tapes

variable {n : ℕ} {ι : Type} {s s' : Tapes n ι} {i : ι}

/-- The recorded lengths are those of the chains. -/
def Exact (s : Tapes n ι) : Prop :=
  ∀ x, x ≠ .free → s.len x = (s.values x).length

/-- The free nodes. -/
def room (s : Tapes n ι) : ℕ :=
  (s.values .free).length

theorem values_eq_nil (h : (s.builders i).tail = none) : s.values (.builder i) = [] := by
  unfold values
  rw [show s.tail (.builder i) = none from h]

variable [DecidableEq ι]

theorem exact_update {x : Handle n ι} {len len' : Handle n ι → ℕ}
    {values values' : Handle n ι → List Kind} {y : Handle n ι} {kinds : List Kind}
    (h : len x = (values x).length) (hvalues : values' x = Function.update values y kinds x)
    (hlen : len' = Function.update len y kinds.length) : len' x = (values' x).length := by
  rw [hvalues, hlen]
  by_cases hxy : x = y
  · subst hxy
    simp
  · rwa [Function.update_of_ne hxy, Function.update_of_ne hxy]

theorem exact_tryPush (h : s.Inv) (hexact : s.Exact) {slot : Slot} {value : Kind}
    (hslot : slot.get = (s.builders i).len + 1) (hpush : s.tryPush i slot value = some s') :
    s'.Exact := fun x hx => by
  have hi : (s.builders i).len = (s.values (.builder i)).length :=
    hexact (.builder i) (by simp)
  refine exact_update (hexact x hx) ((inv_tryPush h hpush).2 x hx) ?_
  rw [len_tryPush hpush, hslot, hi, List.length_append]
  rfl

theorem exact_reset (h : s.Inv) (hexact : s.Exact) (i : ι) : (s.reset i).Exact := fun x hx =>
  exact_update (hexact x hx) ((inv_reset h i).2 x hx) (len_reset s i)

theorem exact_drop (h : s.Inv) (hexact : s.Exact) (t : Fin n) : (s.drop t).Exact := fun x hx =>
  exact_update (hexact x hx) ((inv_drop h t).2 x hx) (len_drop s t)

theorem exact_finish (h : s.Inv) (hexact : s.Exact) {t : Fin n}
    (ht : (s.builders i).tail = some t) : (s.finish i).Exact := fun x hx => by
  have hi : s.len (.builder i) = (s.values (.builder i)).length := hexact _ (by simp)
  have hmoved : (Function.update s.len (.tape t) (s.len (.builder i))) x =
      (Function.update s.values (.tape t) (s.values (.builder i)) x).length := by
    rw [hi]
    exact exact_update (hexact x hx) rfl rfl
  exact exact_update hmoved ((inv_finish h ht).2 x) (len_finish ht)

/-- In every pool reached the recorded lengths are those of the chains. -/
theorem Reached.exact {ledger : Handle n ι → List Kind} (h : Reached s ledger) : s.Exact :=
  fun x hx => by
    obtain ⟨hvalues, hlen⟩ := h.records.agrees x hx
    rw [hvalues, hlen]

/-- A push takes one free node. -/
theorem room_tryPush (h : s.Inv) {slot : Slot} {value : Kind}
    (hpush : s.tryPush i slot value = some s') : s.room = s'.room + 1 := by
  obtain ⟨lists, h⟩ := h
  obtain ⟨key, rest, hlist, h', -⟩ := h.tryPush hpush
  unfold room
  rw [h.values_eq, h'.values_eq, hlist]
  simp

/-- A push changes its builder only. -/
theorem builders_tryPush {slot : Slot} {value : Kind}
    (hpush : s.tryPush i slot value = some s') :
    ∃ t, s'.builders = Function.update s.builders i ⟨some t, slot.get⟩ ∧ s'.tapes = s.tapes := by
  unfold tryPush at hpush
  split at hpush
  · cases hpush
  · cases hpush
    exact ⟨_, rfl, rfl⟩

theorem builders_finish {t : Fin n} (ht : (s.builders i).tail = some t) :
    (s.finish i).builders = Function.update s.builders i ⟨none, 0⟩ := by
  unfold finish
  rw [ht]

/-- Only a pool without free nodes is full. -/
theorem room_of_full {slot : Slot} {value : Kind}
    (hpush : s.tryPush i slot value = none) : s.room = 0 := by
  unfold tryPush at hpush
  split at hpush
  · next hfree =>
    unfold room values
    rw [show s.tail .free = none from hfree]
    rfl
  · cases hpush

end Tapes

/-- `storage::Storage` with its builders, completed tapes and live lanes. -/
structure Store (n conns : ℕ) (T ι : Type) where
  tapes : Tapes n ι
  gated : Gated conns T ι

namespace Store

variable {n conns : ℕ} {T ι : Type} [DecidableEq T] [DecidableEq ι]

/-- `Storage::try_new`. -/
def new (capacity : Capacity) : Store capacity.nodes capacity.connections T ι :=
  ⟨.new, .new capacity.connections capacity.lanes⟩

variable (s : Store n conns T ι)

/-- `Builder::try_push`. -/
def tryPush (i : ι) (slot : Slot) (value : Kind) : Push × Store n conns T ι :=
  match s.gated.acquire i with
  | (true, gated) =>
    match s.tapes.tryPush i slot value with
    | none => (.full, { s with gated })
    | some tapes => (.stored, ⟨tapes, gated⟩)
  | (false, gated) => (.blocked, { s with gated })

/-- `Builder::reset` and the drop of a builder. -/
def reset (i : ι) : Store n conns T ι :=
  ⟨s.tapes.reset i, s.gated.release i⟩

/-- `Stored::finish`. Without a stored value there is nothing to finish. -/
def finish (i : ι) : Option (Fin n) × Store n conns T ι :=
  match (s.tapes.builders i).tail with
  | none => (none, s)
  | some tail => (some tail, ⟨s.tapes.finish i, s.gated.finish i⟩)

/-- A builder with nodes holds a lane. -/
structure Inv [Fintype ι] (s : Store n conns T ι) : Prop where
  tapes : s.tapes.Inv
  gated : s.gated.Inv
  held : ∀ i, (s.tapes.builders i).tail ≠ none → s.gated.phases i = .held
  fresh : ∀ i, (s.tapes.builders i).tail = none → (s.tapes.builders i).len = 0

variable [Fintype ι] {s} {i : ι}

theorem Inv.new (capacity : Capacity) :
    (Store.new capacity : Store capacity.nodes capacity.connections T ι).Inv :=
  ⟨Tapes.inv_new, Gated.inv_new _, fun _ h => absurd rfl h, fun _ _ => rfl⟩

/-- A push stores its value, finds the pool full, or is blocked at the gate. -/
theorem tryPush_cases (s : Store n conns T ι) (i : ι) (slot : Slot) (value : Kind) :
    (∃ tapes, s.tapes.tryPush i slot value = some tapes ∧ (s.gated.acquire i).1 = true ∧
        s.tryPush i slot value = (.stored, ⟨tapes, (s.gated.acquire i).2⟩)) ∨
      (s.tapes.tryPush i slot value = none ∧ (s.gated.acquire i).1 = true ∧
        s.tryPush i slot value = (.full, ⟨s.tapes, (s.gated.acquire i).2⟩)) ∨
      ((s.gated.acquire i).1 = false ∧
        s.tryPush i slot value = (.blocked, ⟨s.tapes, (s.gated.acquire i).2⟩)) := by
  unfold tryPush
  obtain ⟨acquired, gated⟩ := s.gated.acquire i
  cases acquired with
  | true =>
    cases s.tapes.tryPush i slot value with
    | none => exact Or.inr (Or.inl ⟨rfl, rfl, rfl⟩)
    | some tapes => exact Or.inl ⟨tapes, rfl, rfl, rfl⟩
  | false => exact Or.inr (Or.inr ⟨rfl, rfl⟩)

/-- The accesses after an acquire hold what their builders need. -/
theorem held_acquire (h : s.Inv) (i : ι) :
    ∀ j, (s.tapes.builders j).tail ≠ none → (s.gated.acquire i).2.phases j = .held := by
  intro j hj
  by_cases hji : j = i
  · subst hji
    unfold Gated.acquire
    rw [h.held j hj]
    exact Function.update_self ..
  · rw [Gated.acquire_phases hji]
    exact h.held j hj

theorem Inv.tryPush (h : s.Inv) (i : ι) (slot : Slot) (value : Kind) :
    (s.tryPush i slot value).2.Inv := by
  have hgated := Gated.inv_acquire h.gated i
  have hheld := held_acquire h i
  rcases s.tryPush_cases i slot value with ⟨tapes, hpush, hacquire, heq⟩ | ⟨-, -, heq⟩ | ⟨-, heq⟩
  · obtain ⟨t, hbuilders, -⟩ := Tapes.builders_tryPush hpush
    rw [heq]
    refine ⟨(Tapes.inv_tryPush h.tapes hpush).1, hgated, fun j hj => ?_, fun j hj => ?_⟩
    · by_cases hji : j = i
      · rw [hji]
        exact Gated.acquire_held hacquire
      · dsimp only at hj
        rw [hbuilders, Function.update_of_ne hji] at hj
        exact hheld j hj
    · dsimp only at hj ⊢
      rw [hbuilders] at hj ⊢
      by_cases hji : j = i
      · subst hji
        simp at hj
      · rw [Function.update_of_ne hji] at hj ⊢
        exact h.fresh j hj
  · rw [heq]
    exact ⟨h.tapes, hgated, hheld, h.fresh⟩
  · rw [heq]
    exact ⟨h.tapes, hgated, hheld, h.fresh⟩

theorem finish_none (ht : (s.tapes.builders i).tail = none) : s.finish i = (none, s) := by
  unfold finish
  rw [ht]

theorem finish_some {t : Fin n} (ht : (s.tapes.builders i).tail = some t) :
    s.finish i = (some t, ⟨s.tapes.finish i, s.gated.finish i⟩) := by
  unfold finish
  rw [ht]

theorem Inv.reset (h : s.Inv) (i : ι) : (s.reset i).Inv := by
  refine ⟨(Tapes.inv_reset h.tapes i).1, Gated.inv_release h.gated i, fun j hj => ?_,
    fun j hj => ?_⟩
  · by_cases hji : j = i
    · subst hji
      simp [Store.reset, Tapes.reset] at hj
    · simp only [Store.reset, Tapes.reset, Function.update_of_ne hji] at hj
      exact (Gated.release_phases hji).trans (h.held j hj)
  · by_cases hji : j = i
    · subst hji
      simp [Store.reset, Tapes.reset]
    · simp only [Store.reset, Tapes.reset, Function.update_of_ne hji] at hj ⊢
      exact h.fresh j hj

theorem Inv.finish (h : s.Inv) (i : ι) : (s.finish i).2.Inv := by
  unfold Store.finish
  split
  · exact h
  · next t ht =>
    have hheld : s.gated.phases i = .held := h.held i (by simp [ht])
    have hbuilders := Tapes.builders_finish ht
    refine ⟨(Tapes.inv_finish h.tapes ht).1, Gated.inv_finish h.gated hheld, fun j hj => ?_,
      fun j hj => ?_⟩
    · dsimp only at hj
      rw [hbuilders] at hj
      by_cases hji : j = i
      · subst hji
        simp at hj
      · rw [Function.update_of_ne hji] at hj
        exact (Function.update_of_ne hji _ _).trans (h.held j hj)
    · dsimp only at hj ⊢
      rw [hbuilders] at hj ⊢
      by_cases hji : j = i
      · subst hji
        simp
      · rw [Function.update_of_ne hji] at hj ⊢
        exact h.fresh j hj

end Store

/-- A store, with its invariant. -/
structure Storage (n conns : ℕ) (T ι : Type) [DecidableEq T] [DecidableEq ι] [Fintype ι] where
  val : Store n conns T ι
  inv : val.Inv

namespace Storage

variable {n conns : ℕ} {T ι : Type} [DecidableEq T] [DecidableEq ι] [Fintype ι]

/-- The builder of the parser `i`. A finished tape is known by its tail. -/
def builder (i : ι) : Builder (Storage n conns T ι) (Option (Fin n)) where
  len s := (s.val.tapes.builders i).len
  tryPush s slot value :=
    ((s.val.tryPush i slot value).1,
      ⟨(s.val.tryPush i slot value).2, s.inv.tryPush i slot value⟩)
  reset s := ⟨s.val.reset i, s.inv.reset i⟩
  finish s := ((s.val.finish i).1, ⟨(s.val.finish i).2, s.inv.finish i⟩)

/-- The tape of a builder in progress. -/
def draft (i : ι) (s : Storage n conns T ι) : Draft :=
  ⟨s.val.tapes.values (.builder i), (s.val.tapes.builders i).len⟩

/-- The values of a finished tape. -/
def kinds (s : Storage n conns T ι) : Option (Fin n) → List Kind
  | none => []
  | some t => s.val.tapes.values (.tape t)

/-- The storage keeps a draft for each parser. -/
def builder_lawful (i : ι) : (builder i : Builder (Storage n conns T ι) _).Lawful where
  draft := draft i
  kinds := kinds
  len_eq _ := rfl
  stored s slot value hstored := by
    rcases s.val.tryPush_cases i slot value with ⟨tapes, hpush, -, heq⟩ | ⟨-, -, heq⟩ | ⟨-, heq⟩
    · obtain ⟨t, hbuilders, -⟩ := Tapes.builders_tryPush hpush
      have hvalues := (Tapes.inv_tryPush s.inv.tapes hpush).2 (.builder i) (by simp)
      rw [Function.update_self] at hvalues
      simp only [draft, builder, heq, Draft.push, hvalues, hbuilders, Function.update_self]
    · simp [builder, heq] at hstored
    · simp [builder, heq] at hstored
  refused s slot value hrefused := by
    rcases s.val.tryPush_cases i slot value with ⟨tapes, hpush, -, heq⟩ | ⟨-, -, heq⟩ | ⟨-, heq⟩
    · simp [builder, heq] at hrefused
    · simp only [draft, builder, heq]
    · simp only [draft, builder, heq]
  reset s := by
    have hvalues := (Tapes.inv_reset s.inv.tapes i).2 (.builder i) (by simp)
    rw [Function.update_self] at hvalues
    change Draft.mk ((s.val.tapes.reset i).values (.builder i)) _ = Draft.empty
    rw [hvalues]
    simp [builder, Store.reset, Tapes.reset, Draft.empty]
  finish s := by
    change kinds ⟨(s.val.finish i).2, s.inv.finish i⟩ (s.val.finish i).1 = _
    cases ht : (s.val.tapes.builders i).tail with
    | none =>
      simp only [Store.finish_none ht, kinds]
      exact (Tapes.values_eq_nil ht).symm
    | some t =>
      have hvalues := (Tapes.inv_finish s.inv.tapes ht).2 (.tape t)
      rw [Function.update_of_ne (by simp), Function.update_self] at hvalues
      simp only [Store.finish_some ht, kinds]
      exact hvalues
  finish_draft s := by
    change Draft.mk ((s.val.finish i).2.tapes.values (.builder i))
      ((s.val.finish i).2.tapes.builders i).len = Draft.mk [] 0
    cases ht : (s.val.tapes.builders i).tail with
    | none => rw [Store.finish_none ht, Tapes.values_eq_nil ht, s.inv.fresh i ht]
    | some t =>
      have hvalues := (Tapes.inv_finish s.inv.tapes ht).2 (.builder i)
      rw [Function.update_self] at hvalues
      rw [Store.finish_some ht]
      dsimp only
      rw [hvalues, Tapes.builders_finish ht, Function.update_self]

/-! ## Storage with room -/

/-- Storage that has a free node for each value within the limit, and a lane for the
parser. -/
def Unblocked (s : Storage n conns T ι) (i : ι) (limit : ℕ) : Prop :=
  limit ≤ s.val.tapes.room ∧ (s.val.gated.acquire i).1 = true

/-- Storage with room for the values still missing to the limit. -/
structure Roomy (i : ι) (limit : ℕ) (s : Storage n conns T ι) : Prop where
  exact : s.val.tapes.Exact
  room : limit ≤ s.val.tapes.room + (s.val.tapes.builders i).len
  lane : (s.val.gated.acquire i).1 = true

/-- Storage with room stores every value within the limit. -/
theorem Roomy.tryPush {i : ι} {limit : ℕ} {s : Storage n conns T ι} (h : s.Roomy i limit)
    {slot : Slot} (value : Kind) (hslot : (builder i).Numbered limit s slot) :
    ∃ tapes, s.val.tapes.tryPush i slot value = some tapes ∧
      s.val.tryPush i slot value = (.stored, ⟨tapes, (s.val.gated.acquire i).2⟩) := by
  obtain ⟨hnumber, hle⟩ := hslot
  have hnumber : slot.get = (s.val.tapes.builders i).len + 1 := hnumber
  have hroom := h.room
  rcases s.val.tryPush_cases i slot value with
    ⟨tapes, hpush, -, heq⟩ | ⟨hpush, -, -⟩ | ⟨hacquire, -⟩
  · exact ⟨tapes, hpush, heq⟩
  · have := Tapes.room_of_full hpush
    omega
  · rw [h.lane] at hacquire
    cases hacquire

theorem Roomy.push {i : ι} {limit : ℕ} {s : Storage n conns T ι} (h : s.Roomy i limit)
    {slot : Slot} (value : Kind) (hslot : (builder i).Numbered limit s slot) :
    Roomy i limit ((builder i).tryPush s slot value).2 := by
  obtain ⟨tapes, hpush, heq⟩ := h.tryPush value hslot
  obtain ⟨t, hbuilders, -⟩ := Tapes.builders_tryPush hpush
  have hnumber : slot.get = (s.val.tapes.builders i).len + 1 := hslot.1
  have hroom := Tapes.room_tryPush s.inv.tapes hpush
  have hlimit := h.room
  have hheld := Gated.acquire_held h.lane
  have hval : ((builder i).tryPush s slot value).2.val = ⟨tapes, (s.val.gated.acquire i).2⟩ :=
    congrArg Prod.snd heq
  refine ⟨?_, ?_, ?_⟩
  · rw [hval]
    exact Tapes.exact_tryPush s.inv.tapes h.exact hnumber hpush
  · rw [hval]
    dsimp only
    rw [hbuilders, Function.update_self]
    dsimp only
    omega
  · rw [hval]
    dsimp only
    unfold Gated.acquire at hheld ⊢
    rw [hheld]

/-- A refused push leaves the recorded lengths. -/
theorem len_refused {i : ι} {s : Storage n conns T ι} {slot : Slot} {value : Kind}
    (hrefused : ((builder i).tryPush s slot value).1 ≠ .stored) :
    (builder i).len ((builder i).tryPush s slot value).2 = (builder i).len s := by
  rcases s.val.tryPush_cases i slot value with ⟨tapes, -, -, heq⟩ | ⟨-, -, heq⟩ | ⟨-, heq⟩
  · exact absurd (congrArg Prod.fst heq) hrefused
  · exact congrArg (fun s => (s.2.tapes.builders i).len) heq
  · exact congrArg (fun s => (s.2.tapes.builders i).len) heq

theorem exact_finish {s : Storage n conns T ι} (h : s.val.tapes.Exact) (i : ι) :
    ((builder i).finish s).2.val.tapes.Exact := by
  change (s.val.finish i).2.tapes.Exact
  cases ht : (s.val.tapes.builders i).tail with
  | none =>
    rw [Store.finish_none ht]
    exact h
  | some t =>
    rw [Store.finish_some ht]
    exact Tapes.exact_finish s.inv.tapes h ht

/-- Storage with room stores the values of a whole call. -/
theorem roomy_keeps (i : ι) (limit : ℕ) :
    (builder i : Builder (Storage n conns T ι) _).Keeps limit (· = .stored) (Roomy i limit)
      fun s => s.val.tapes.Exact where
  answer value h hslot := by
    obtain ⟨tapes, -, heq⟩ := h.tryPush value hslot
    exact congrArg Prod.fst heq
  push value h hslot := h.push value hslot
  refused _ _ _ := len_refused
  weaken h := h.exact
  finish {s slot} value h hslot _ := exact_finish (h.push value hslot).exact i

end Storage

end Cartel.Redis.Parser
