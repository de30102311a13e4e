import Cartel.Parser.Storage
import Mathlib.Algebra.Order.BigOperators.Group.Finset
import Mathlib.Algebra.BigOperators.Ring.Finset

/-!
# The accounts of the node pool

The pool of a port has a node for each value its lanes can have in progress and each value
the reply arena retains. A node in use is covered by one of three accounts : a builder that
holds a lane, a finished tape that still owns one, or an admitted tape within the arena's
credit (`Accounts`). The accounts hold in every state of a port's run (`Port.Reached`), and
the capacity leaves a free node for every push (`Port.Reached.never_full`).
-/

set_option linter.unusedSectionVars false

namespace Cartel.Redis.Parser

open Cartel.Lib

variable {n conns : ℕ} {T ι ε : Type} [DecidableEq T] [DecidableEq ι] [Fintype ι]

/-! ## Tapes and lanes -/

namespace Store

section Drops

variable (s : Store n conns T ι)

/-- The drop of a tape. -/
def dropTape (t : Fin n) : Store n conns T ι :=
  { s with tapes := s.tapes.drop t }

/-- The drop of a lane. -/
def dropLane : Store n conns T ι :=
  { s with gated := s.gated.drop }

variable {s}

theorem Inv.dropTape (h : s.Inv) (t : Fin n) : (s.dropTape t).Inv :=
  ⟨(Tapes.inv_drop h.tapes t).1, h.gated, h.held, h.fresh⟩

theorem Inv.dropLane (h : s.Inv) (howners : 0 < s.gated.owners) : s.dropLane.Inv :=
  ⟨h.tapes, Gated.inv_drop h.gated howners, h.held, h.fresh⟩

/-- A wait of an access that was refused. -/
theorem Inv.wait {fifo : Fifo conns T} {i : ι} {index : ℕ} {target : T} {gated : Gated conns T ι}
    (h : s.Inv) (hrefused : (s.gated.acquire i).1 = false)
    (hfree : ∀ j slot target, j ≠ i → s.gated.phases j = .waiting slot target → slot.val ≠ index)
    (hw : s.gated.wait fifo i index target = .ok gated) : Inv { s with gated } := by
  refine ⟨h.tapes, Gated.inv_wait h.gated hrefused hfree hw, fun j hj => ?_, h.fresh⟩
  have hheld := h.held j hj
  by_cases hji : j = i
  · subst hji
    unfold Gated.acquire at hrefused
    simp [hheld] at hrefused
  · exact (Gated.step_phases (.wait index target hrefused hfree hw)
      (by simpa using Ne.symm hji)).trans hheld

end Drops

/-- The finished tapes that are not admitted. -/
def laned (s : Store n conns T ι) (admitted : Finset (Fin n)) : Finset (Fin n) :=
  Finset.univ.filter fun t => (s.tapes.tapes t).isSome ∧ t ∉ admitted

/-- The accounts of a store : a lane owner for each tape that is not admitted, the credit
of the admitted ones, and the bound of each chain. -/
structure Covered (lanes limit retained : ℕ) (admitted : Finset (Fin n))
    (s : Store n conns T ι) : Prop where
  exact : s.tapes.Exact
  lanes : s.gated.gate.lanes = lanes
  owners : s.gated.owners = (s.laned admitted).card
  live : ∀ t ∈ admitted, (s.tapes.tapes t).isSome
  credit : ∑ t ∈ admitted, s.tapes.len (.tape t) ≤ retained
  builder : ∀ i, (s.tapes.builders i).len ≤ limit
  tape : ∀ t, s.tapes.len (.tape t) ≤ limit

/-- The nodes in use are those of the builders and the tapes. -/
theorem nodes_le {s : Store n conns T ι} (h : s.Inv) (hexact : s.tapes.Exact)
    (hroom : s.tapes.room = 0) :
    n ≤ ∑ i, (s.tapes.builders i).len + ∑ t, s.tapes.len (.tape t) := by
  obtain ⟨lists, hholds⟩ := h.tapes
  have hlength : ∀ x, x ≠ .free → (lists x).length = s.tapes.len x := fun x hx => by
    rw [hexact x hx, hholds.values_eq, List.length_map]
  have hfree : lists .free = [] := by
    unfold Tapes.room at hroom
    rw [hholds.values_eq, List.length_map] at hroom
    exact List.eq_nil_of_length_eq_zero hroom
  have hcover : (Finset.univ : Finset (Fin n)) ⊆
      Finset.univ.biUnion (fun i => (lists (.builder i)).toFinset) ∪
        Finset.univ.biUnion fun t => (lists (.tape t)).toFinset := by
    intro k _
    obtain ⟨x, hx⟩ := hholds.covered k
    cases x with
    | free => simp [hfree] at hx
    | builder i =>
      exact Finset.mem_union_left _ (Finset.mem_biUnion.mpr ⟨i, Finset.mem_univ i, by simpa using hx⟩)
    | tape t =>
      exact Finset.mem_union_right _ (Finset.mem_biUnion.mpr ⟨t, Finset.mem_univ t, by simpa using hx⟩)
  have hcard := Finset.card_le_card hcover
  rw [Finset.card_univ, Fintype.card_fin] at hcard
  have hbuilders : (Finset.univ.biUnion fun i => (lists (.builder i)).toFinset).card ≤
      ∑ i, (s.tapes.builders i).len :=
    Finset.card_biUnion_le.trans (Finset.sum_le_sum fun i _ =>
      (List.toFinset_card_le _).trans (hlength (.builder i) (by simp)).le)
  have htapes : (Finset.univ.biUnion fun t => (lists (.tape t)).toFinset).card ≤
      ∑ t, s.tapes.len (.tape t) :=
    Finset.card_biUnion_le.trans (Finset.sum_le_sum fun t _ =>
      (List.toFinset_card_le _).trans (hlength (.tape t) (by simp)).le)
  have hunion := Finset.card_union_le
    (Finset.univ.biUnion fun i => (lists (.builder i)).toFinset)
    (Finset.univ.biUnion fun t => (lists (.tape t)).toFinset)
  omega

/-- The builders in progress, and a value of one of them still to push, fit in the held
lanes. -/
theorem builders_le {s : Store n conns T ι} (h : s.Inv) {limit : ℕ} {i : ι}
    (hle : ∀ j, (s.tapes.builders j).len ≤ limit) (hi : s.gated.phases i = .held)
    (hlt : (s.tapes.builders i).len < limit) :
    ∑ j, (s.tapes.builders j).len + 1 ≤ (∑ j, Gated.charge (s.gated.phases j)) * limit := by
  have hone : ∑ j, (if j = i then 1 else 0) = 1 := by simp
  rw [Finset.sum_mul, ← hone, ← Finset.sum_add_distrib]
  refine Finset.sum_le_sum fun j _ => ?_
  by_cases hji : j = i
  · subst hji
    rw [if_pos rfl, hi]
    simp only [Gated.charge]
    omega
  · rw [if_neg hji]
    cases htail : (s.tapes.builders j).tail with
    | none =>
      rw [h.fresh j htail]
      exact Nat.zero_le _
    | some t =>
      have hheld := h.held j (by simp [htail])
      have hlej := hle j
      rw [hheld]
      simp only [Gated.charge]
      omega

section Covered

variable {s : Store n conns T ι} {lanes limit retained : ℕ} {admitted : Finset (Fin n)}

/-- The finished tapes are covered by the credit and the owned lanes. -/
theorem Covered.tapes_le (h : s.Covered lanes limit retained admitted) :
    ∑ t, s.tapes.len (.tape t) ≤ retained + s.gated.owners * limit := by
  have hsplit : ∀ t, s.tapes.len (.tape t) ≤
      (if t ∈ admitted then s.tapes.len (.tape t) else 0) +
        if t ∈ s.laned admitted then limit else 0 := fun t => by
    have hle := h.tape t
    by_cases hadmitted : t ∈ admitted
    · rw [if_pos hadmitted]
      exact Nat.le_add_right _ _
    · rw [if_neg hadmitted]
      by_cases hlive : (s.tapes.tapes t).isSome
      · have hlaned : t ∈ s.laned admitted :=
          Finset.mem_filter.mpr ⟨Finset.mem_univ t, hlive, hadmitted⟩
        rw [if_pos hlaned]
        omega
      · have hlen : s.tapes.len (.tape t) = 0 := by
          change (s.tapes.tapes t).getD 0 = 0
          rw [Option.not_isSome_iff_eq_none.mp hlive]
          rfl
        omega
  have hsum := Finset.sum_le_sum fun t (_ : t ∈ Finset.univ) => hsplit t
  rw [Finset.sum_add_distrib, Finset.sum_ite_mem, Finset.sum_ite_mem, Finset.univ_inter,
    Finset.univ_inter, Finset.sum_const, Nat.nsmul_eq_mul, ← h.owners] at hsum
  have hcredit := h.credit
  omega

/-- A pool with a node for every account has one for the next push. -/
theorem Covered.not_full (h : s.Covered lanes limit retained admitted) (hinv : s.Inv)
    (hn : lanes * limit + retained ≤ n) {i : ι} (hlt : (s.tapes.builders i).len < limit)
    (slot : Slot) (value : Kind) : (s.tryPush i slot value).1 ≠ .full := by
  have hpushed := hinv.tryPush i slot value
  rcases s.tryPush_cases i slot value with ⟨tapes, -, -, heq⟩ | ⟨hpush, hacquire, heq⟩ | ⟨-, heq⟩
  · rw [heq]
    simp
  · exfalso
    rw [heq] at hpushed
    have hheld := Gated.acquire_held hacquire
    obtain ⟨waits, -, hbal⟩ := hpushed.gated
    have hcount := hbal.count
    have hactive := hbal.le
    have hbuilders := builders_le hpushed h.builder hheld hlt
    have htapes := h.tapes_le
    have hnodes := nodes_le hinv h.exact (Tapes.room_of_full hpush)
    dsimp only at hcount hactive hbuilders
    rw [Gated.acquire_lanes, h.lanes] at hactive
    rw [Gated.acquire_owners] at hcount
    have hmul : (∑ j, Gated.charge ((s.gated.acquire i).2.phases j) + s.gated.owners) * limit ≤
        lanes * limit := Nat.mul_le_mul_right _ (by omega)
    rw [Nat.add_mul] at hmul
    omega
  · rw [heq]
    simp

variable (h : s.Covered lanes limit retained admitted)
include h

/-- The accounts do not depend on the phases. -/
theorem Covered.gated {gated : Gated conns T ι} (hlanes : gated.gate.lanes = s.gated.gate.lanes)
    (howners : gated.owners = s.gated.owners) :
    Covered lanes limit retained admitted { s with gated } :=
  ⟨h.exact, hlanes.trans h.lanes, howners.trans h.owners, h.live, h.credit, h.builder, h.tape⟩

theorem Covered.tryPush (hinv : s.Inv) {i : ι} {slot : Slot} (value : Kind)
    (hnumber : slot.get = (s.tapes.builders i).len + 1) (hle : slot.get ≤ limit) :
    (s.tryPush i slot value).2.Covered lanes limit retained admitted := by
  have hgated := h.gated (s.gated.acquire_lanes i) (s.gated.acquire_owners i)
  rcases s.tryPush_cases i slot value with ⟨tapes, hpush, -, heq⟩ | ⟨-, -, heq⟩ | ⟨-, heq⟩
  · obtain ⟨t, hbuilders, htapes⟩ := Tapes.builders_tryPush hpush
    have hlen : ∀ u, tapes.len (.tape u) = s.tapes.len (.tape u) := fun u => by
      change (tapes.tapes u).getD 0 = (s.tapes.tapes u).getD 0
      rw [htapes]
    rw [heq]
    refine ⟨Tapes.exact_tryPush hinv.tapes h.exact hnumber hpush, hgated.lanes, ?_, ?_, ?_, ?_, ?_⟩
    · rw [hgated.owners]
      unfold laned
      dsimp only
      rw [htapes]
    · dsimp only
      rw [htapes]
      exact h.live
    · dsimp only
      simp only [hlen]
      exact h.credit
    · intro j
      dsimp only
      rw [hbuilders]
      by_cases hji : j = i
      · subst hji
        rw [Function.update_self]
        exact hle
      · rw [Function.update_of_ne hji]
        exact h.builder j
    · intro u
      dsimp only
      rw [hlen]
      exact h.tape u
  · rw [heq]
    exact hgated
  · rw [heq]
    exact hgated

theorem Covered.reset (hinv : s.Inv) (i : ι) :
    (s.reset i).Covered lanes limit retained admitted := by
  refine ⟨Tapes.exact_reset hinv.tapes h.exact i, (Gated.release_lanes i).trans h.lanes,
    (Gated.release_owners i).trans h.owners, h.live, h.credit, fun j => ?_, h.tape⟩
  by_cases hji : j = i
  · subst hji
    simp [Store.reset, Tapes.reset]
  · simp only [Store.reset, Tapes.reset, Function.update_of_ne hji]
    exact h.builder j

theorem Covered.finish (hinv : s.Inv) (i : ι) :
    (s.finish i).2.Covered lanes limit retained admitted := by
  cases ht : (s.tapes.builders i).tail with
  | none =>
    rw [finish_none ht]
    exact h
  | some t =>
    obtain ⟨lists, hholds⟩ := id hinv.tapes
    have hnone := hholds.tape_eq_none ht
    have hout : t ∉ admitted := fun hmem => by
      have hlive := h.live t hmem
      rw [hnone] at hlive
      cases hlive
    have htapes : (s.tapes.finish i).tapes =
        Function.update s.tapes.tapes t (some (s.tapes.builders i).len) := by
      unfold Tapes.finish
      rw [ht]
    have hlen : ∀ u, u ≠ t → (s.tapes.finish i).len (.tape u) = s.tapes.len (.tape u) :=
      fun u hu => by
        change ((s.tapes.finish i).tapes u).getD 0 = (s.tapes.tapes u).getD 0
        rw [htapes, Function.update_of_ne hu]
    rw [finish_some ht]
    refine ⟨Tapes.exact_finish hinv.tapes h.exact ht, h.lanes, ?_, fun u hu => ?_, ?_, fun j => ?_,
      fun u => ?_⟩
    · have hlaned : (⟨s.tapes.finish i, s.gated.finish i⟩ : Store n conns T ι).laned admitted =
          insert t (s.laned admitted) := by
        unfold laned
        dsimp only
        rw [htapes]
        ext u
        simp only [Finset.mem_filter, Finset.mem_univ, true_and, Finset.mem_insert]
        by_cases hu : u = t
        · subst hu
          simp [hout]
        · simp [hu]
      rw [hlaned, Finset.card_insert_of_notMem (by simp [laned, hnone]), ← h.owners]
      rfl
    · have hu' : u ≠ t := fun heq => hout (heq ▸ hu)
      dsimp only
      rw [htapes, Function.update_of_ne hu']
      exact h.live u hu
    · refine (Finset.sum_congr rfl fun u hu => ?_).trans_le h.credit
      exact hlen u fun heq => hout (heq ▸ hu)
    · dsimp only
      rw [Tapes.builders_finish ht]
      by_cases hji : j = i
      · subst hji
        simp
      · rw [Function.update_of_ne hji]
        exact h.builder j
    · by_cases hu : u = t
      · subst hu
        change ((s.tapes.finish i).tapes u).getD 0 ≤ limit
        rw [htapes, Function.update_self]
        exact h.builder i
      · dsimp only
        rw [hlen u hu]
        exact h.tape u

/-- A tape leaves together with its lane. -/
theorem Covered.discard (hinv : s.Inv) {t : Fin n} (ht : (s.tapes.tapes t).isSome)
    (hout : t ∉ admitted) : (s.dropTape t).dropLane.Covered lanes limit retained admitted := by
  have hlen := Tapes.len_drop s.tapes t
  have hlive : ∀ u, u ≠ t → (s.dropTape t).dropLane.tapes.tapes u = s.tapes.tapes u :=
    fun u hu => Function.update_of_ne hu _ _
  refine ⟨Tapes.exact_drop hinv.tapes h.exact t, (Gate.drop_lanes _).trans h.lanes, ?_,
    fun u hu => ?_, ?_, h.builder, fun u => ?_⟩
  · have hlaned : (s.dropTape t).dropLane.laned admitted = (s.laned admitted).erase t := by
      ext u
      simp only [laned, Finset.mem_filter, Finset.mem_univ, true_and, Finset.mem_erase]
      by_cases hu : u = t
      · subst hu
        simp [dropTape, dropLane, Tapes.drop]
      · rw [hlive u hu]
        simp [hu]
    have hmem : t ∈ s.laned admitted := Finset.mem_filter.mpr ⟨Finset.mem_univ t, ht, hout⟩
    rw [hlaned, Finset.card_erase_of_mem hmem, ← h.owners]
    rfl
  · rw [hlive u fun heq => hout (heq ▸ hu)]
    exact h.live u hu
  · refine (Finset.sum_congr rfl fun u hu => ?_).trans_le h.credit
    change (s.tapes.drop t).len (.tape u) = _
    have hu' : u ≠ t := fun heq => hout (heq ▸ hu)
    rw [hlen, Function.update_of_ne (by simpa using hu')]
  · change (s.tapes.drop t).len (.tape u) ≤ limit
    rw [hlen]
    by_cases hu : u = t
    · subst hu
      simp
    · rw [Function.update_of_ne (by simpa using hu)]
      exact h.tape u

/-- A tape is admitted within the credit, and gives its lane up. -/
theorem Covered.retain {t : Fin n} (ht : (s.tapes.tapes t).isSome) (hout : t ∉ admitted)
    (hcredit : ∑ u ∈ insert t admitted, s.tapes.len (.tape u) ≤ retained) :
    s.dropLane.Covered lanes limit retained (insert t admitted) := by
  refine ⟨h.exact, (Gate.drop_lanes _).trans h.lanes, ?_, fun u hu => ?_, hcredit, h.builder,
    h.tape⟩
  · have hlaned : s.dropLane.laned (insert t admitted) = (s.laned admitted).erase t := by
      ext u
      simp only [laned, dropLane, Finset.mem_filter, Finset.mem_univ, true_and, Finset.mem_erase,
        Finset.mem_insert, not_or]
      exact and_left_comm
    have hmem : t ∈ s.laned admitted := Finset.mem_filter.mpr ⟨Finset.mem_univ t, ht, hout⟩
    rw [hlaned, Finset.card_erase_of_mem hmem, ← h.owners]
    rfl
  · rcases Finset.mem_insert.mp hu with rfl | hu
    · exact ht
    · exact h.live u hu

/-- An admitted tape leaves. -/
theorem Covered.release (hinv : s.Inv) {t : Fin n} (ht : t ∈ admitted) :
    (s.dropTape t).Covered lanes limit retained (admitted.erase t) := by
  have hlen := Tapes.len_drop s.tapes t
  have hlive : ∀ u, u ≠ t → (s.dropTape t).tapes.tapes u = s.tapes.tapes u :=
    fun u hu => Function.update_of_ne hu _ _
  refine ⟨Tapes.exact_drop hinv.tapes h.exact t, h.lanes, ?_, fun u hu => ?_, ?_, h.builder,
    fun u => ?_⟩
  · have hlaned : (s.dropTape t).laned (admitted.erase t) = s.laned admitted := by
      ext u
      simp only [laned, Finset.mem_filter, Finset.mem_univ, true_and, Finset.mem_erase]
      by_cases hu : u = t
      · subst hu
        simp [dropTape, Tapes.drop, ht]
      · rw [hlive u hu]
        simp [hu]
    rw [hlaned]
    exact h.owners
  · obtain ⟨hne, hu⟩ := Finset.mem_erase.mp hu
    rw [hlive u hne]
    exact h.live u hu
  · have hsame : ∑ u ∈ admitted.erase t, (s.dropTape t).tapes.len (.tape u) =
        ∑ u ∈ admitted.erase t, s.tapes.len (.tape u) := Finset.sum_congr rfl fun u hu => by
      change (s.tapes.drop t).len (.tape u) = _
      rw [hlen, Function.update_of_ne (by simpa using Finset.ne_of_mem_erase hu)]
    rw [hsame]
    exact (Finset.sum_le_sum_of_subset (Finset.erase_subset t admitted)).trans h.credit
  · change (s.tapes.drop t).len (.tape u) ≤ limit
    rw [hlen]
    by_cases hu : u = t
    · subst hu
      simp
    · rw [Function.update_of_ne (by simpa using hu)]
      exact h.tape u

end Covered

theorem covered_new (capacity : Capacity) (limit retained : ℕ) :
    (Store.new capacity : Store capacity.nodes capacity.connections T ι).Covered
      capacity.lanes limit retained ∅ := by
  refine ⟨Tapes.Reached.new.exact, rfl, ?_, fun t ht => absurd ht (Finset.notMem_empty t),
    by simp, fun i => Nat.zero_le _, fun t => Nat.zero_le _⟩
  simp [laned, Store.new, Tapes.new, Gated.new]

end Store

/-! ## Scans -/

namespace Storage

/-- The accounts, with the builders other than `i` as they were. -/
structure Steady (i : ι) (lanes limit retained : ℕ) (admitted : Finset (Fin n))
    (origin s : Storage n conns T ι) : Prop where
  covered : s.val.Covered lanes limit retained admitted
  others : ∀ j, j ≠ i → s.val.tapes.builders j = origin.val.tapes.builders j

variable {i : ι} {lanes limit retained : ℕ} {admitted : Finset (Fin n)}
  {origin s : Storage n conns T ι}

theorem Steady.push (h : Steady i lanes limit retained admitted origin s) {slot : Slot}
    (value : Kind) (hslot : (builder i).Numbered limit s slot) :
    Steady i lanes limit retained admitted origin ((builder i).tryPush s slot value).2 := by
  refine ⟨h.covered.tryPush s.inv value hslot.1 hslot.2, fun j hj => ?_⟩
  rw [← h.others j hj]
  change (s.val.tryPush i slot value).2.tapes.builders j = _
  rcases s.val.tryPush_cases i slot value with ⟨tapes, hpush, -, heq⟩ | ⟨-, -, heq⟩ | ⟨-, heq⟩
  · obtain ⟨t, hbuilders, -⟩ := Tapes.builders_tryPush hpush
    rw [heq]
    dsimp only
    rw [hbuilders, Function.update_of_ne hj]
  · rw [heq]
  · rw [heq]

theorem Steady.reset (h : Steady i lanes limit retained admitted origin s) :
    Steady i lanes limit retained admitted origin ((builder i).reset s) :=
  ⟨h.covered.reset s.inv i, fun j hj => (Function.update_of_ne hj _ _).trans (h.others j hj)⟩

theorem Steady.finish (h : Steady i lanes limit retained admitted origin s) :
    Steady i lanes limit retained admitted origin ((builder i).finish s).2 := by
  refine ⟨h.covered.finish s.inv i, fun j hj => ?_⟩
  rw [← h.others j hj]
  change (s.val.finish i).2.tapes.builders j = _
  cases ht : (s.val.tapes.builders i).tail with
  | none => rw [Store.finish_none ht]
  | some t =>
    rw [Store.finish_some ht]
    dsimp only
    rw [Tapes.builders_finish ht, Function.update_of_ne hj]

/-- A scan keeps the accounts, and finds a free node for every push. -/
theorem steady_keeps (i : ι) (admitted : Finset (Fin n)) (origin : Storage n conns T ι)
    (hn : lanes * limit + retained ≤ n) :
    (builder i : Builder (Storage n conns T ι) _).Keeps limit (· ≠ .full)
      (Steady i lanes limit retained admitted origin)
      (Steady i lanes limit retained admitted origin) where
  answer {s slot} value h hslot := by
    have hnumber : slot.get = (s.val.tapes.builders i).len + 1 := hslot.1
    have hle := hslot.2
    exact h.covered.not_full s.inv hn (by omega) slot value
  push value h hslot := h.push value hslot
  refused _ _ _ := len_refused
  weaken h := h
  finish {s slot} value h hslot _ := (h.push value hslot).finish

end Storage

/-! ## Runs of a port -/

/-- The parsers of a port over its storage, and the tapes admitted to the reply arena. -/
structure Port (n conns : ℕ) (T ι : Type) [DecidableEq T] [DecidableEq ι] [Fintype ι] where
  storage : Storage n conns T ι
  parsers : ι → State
  admitted : Finset (Fin n)

namespace Port

/-- A fresh port. -/
def new (capacity : Capacity) : Port capacity.nodes capacity.connections T ι :=
  ⟨⟨.new capacity, .new capacity⟩, fun _ => .new, ∅⟩

/-- One step of a port with the value limit `nodeMax` and `retained` values of arena
credit. A finished tape keeps its lane until it is discarded or admitted. -/
inductive Step (fifo : Fifo conns T) (nodeMax : Bound Value) (retained : ℕ) (ε : Type) :
    Port n conns T ι → Port n conns T ι → Prop
  | scan (p : Port n conns T ι) (i : ι) (c : Call (Storage n conns T ι) (Option (Fin n)) ε) :
      c.builder = Storage.builder i → c.nodeMax = nodeMax →
      Step fifo nodeMax retained ε p
        { p with
          storage := (c.scan (p.parsers i) p.storage).2.2
          parsers := Function.update p.parsers i (c.scan (p.parsers i) p.storage).2.1 }
  | reset (p : Port n conns T ι) (i : ι) : Step fifo nodeMax retained ε p
      { p with
        storage := (Storage.builder i).reset p.storage
        parsers := Function.update p.parsers i .new }
  | wait (p : Port n conns T ι) {i : ι} {index : ℕ} {target : T} {gated : Gated conns T ι}
      (hrefused : (p.storage.val.gated.acquire i).1 = false)
      (hfree : ∀ j slot target, j ≠ i →
        p.storage.val.gated.phases j = .waiting slot target → slot.val ≠ index)
      (hw : p.storage.val.gated.wait fifo i index target = .ok gated) :
      Step fifo nodeMax retained ε p
        { p with storage := ⟨{ p.storage.val with gated }, p.storage.inv.wait hrefused hfree hw⟩ }
  | discard (p : Port n conns T ι) {t : Fin n} (howners : 0 < p.storage.val.gated.owners) :
      (p.storage.val.tapes.tapes t).isSome → t ∉ p.admitted →
      Step fifo nodeMax retained ε p
        { p with storage :=
          ⟨(p.storage.val.dropTape t).dropLane, (p.storage.inv.dropTape t).dropLane howners⟩ }
  | retain (p : Port n conns T ι) {t : Fin n} (howners : 0 < p.storage.val.gated.owners) :
      (p.storage.val.tapes.tapes t).isSome → t ∉ p.admitted →
      ∑ u ∈ insert t p.admitted, p.storage.val.tapes.len (.tape u) ≤ retained →
      Step fifo nodeMax retained ε p
        { p with
          storage := ⟨p.storage.val.dropLane, p.storage.inv.dropLane howners⟩
          admitted := insert t p.admitted }
  | release (p : Port n conns T ι) {t : Fin n} : t ∈ p.admitted →
      Step fifo nodeMax retained ε p
        { p with
          storage := ⟨p.storage.val.dropTape t, p.storage.inv.dropTape t⟩
          admitted := p.admitted.erase t }

/-- The states reached from a fresh port. -/
inductive Reached (capacity : Capacity) (fifo : Fifo capacity.connections T)
    (nodeMax : Bound Value) (retained : ℕ) (ε : Type) :
    Port capacity.nodes capacity.connections T ι → Prop
  | new : Reached capacity fifo nodeMax retained ε (.new capacity)
  | step {p p' : Port capacity.nodes capacity.connections T ι} :
      Reached capacity fifo nodeMax retained ε p → Step fifo nodeMax retained ε p p' →
      Reached capacity fifo nodeMax retained ε p'

/-- The accounts of a port, and the slots its parsers keep. -/
structure Accounts (lanes limit retained : ℕ) (p : Port n conns T ι) : Prop where
  covered : p.storage.val.Covered lanes limit retained p.admitted
  sized : ∀ i, (p.parsers i).Sized (Storage.builder i) limit p.storage

theorem accounts_step {fifo : Fifo conns T} {nodeMax : Bound Value} {lanes retained : ℕ}
    {p p' : Port n conns T ι} (hn : lanes * nodeMax.value + retained ≤ n)
    (hstep : Step fifo nodeMax retained ε p p') (h : p.Accounts lanes nodeMax.value retained) :
    p'.Accounts lanes nodeMax.value retained := by
  cases hstep with
  | scan i c hbuilder hmax =>
    obtain ⟨B, source, byteMax, limit, bytes⟩ := c
    dsimp only at hbuilder hmax
    subst hbuilder hmax
    have hsteady : Storage.Steady i lanes limit.value retained p.admitted p.storage p.storage :=
      ⟨h.covered, fun _ _ => rfl⟩
    obtain ⟨-, hsized, hleft⟩ := Call.scan_keeps
      (c := ⟨Storage.builder i, source, byteMax, limit, bytes⟩)
      (Storage.steady_keeps i p.admitted p.storage hn) hsteady.reset hsteady (h.sized i)
    refine ⟨hleft.covered, fun j => ?_⟩
    by_cases hji : j = i
    · subst hji
      dsimp only
      rw [Function.update_self]
      exact hsized
    · dsimp only
      rw [Function.update_of_ne hji]
      exact (h.sized j).congr (congrArg Progress.len (hleft.others j hji))
  | reset i =>
    refine ⟨h.covered.reset p.storage.inv i, fun j => ?_⟩
    by_cases hji : j = i
    · subst hji
      dsimp only
      rw [Function.update_self]
      trivial
    · dsimp only
      rw [Function.update_of_ne hji]
      exact (h.sized j).congr (congrArg Progress.len (Function.update_of_ne hji _ _))
  | wait hrefused hfree hw =>
    have hlanes := Gated.step_lanes (.wait _ _ hrefused hfree hw)
    exact ⟨h.covered.gated hlanes (Gated.wait_owners hw), fun j => (h.sized j).congr rfl⟩
  | discard howners ht hout =>
    exact ⟨h.covered.discard p.storage.inv ht hout, fun j => (h.sized j).congr rfl⟩
  | retain howners ht hout hcredit =>
    exact ⟨h.covered.retain ht hout hcredit, fun j => (h.sized j).congr rfl⟩
  | release ht =>
    exact ⟨h.covered.release p.storage.inv ht, fun j => (h.sized j).congr rfl⟩

theorem accounts_new (capacity : Capacity) (limit retained : ℕ) :
    (new capacity : Port capacity.nodes capacity.connections T ι).Accounts
      capacity.lanes limit retained :=
  ⟨Store.covered_new capacity limit retained, fun _ => trivial⟩

variable {capacity : Capacity} {fifo : Fifo capacity.connections T} {nodeMax : Bound Value}
  {retained : ℕ} {p : Port capacity.nodes capacity.connections T ι}

/-- The accounts hold in every state reached. -/
theorem Reached.accounts (hn : capacity.lanes * nodeMax.value + retained ≤ capacity.nodes)
    (h : Reached capacity fifo nodeMax retained ε p) :
    p.Accounts capacity.lanes nodeMax.value retained := by
  induction h with
  | new => exact accounts_new capacity nodeMax.value retained
  | step _ hstep ih => exact accounts_step hn hstep ih

/-- A port built from an accepted capacity never fills its pool : no scan of a parser asks
for more capacity, and no push of a value within the limit finds the pool full. -/
theorem Reached.never_full {conns lanes frame : ℕ}
    (hcapacity : Capacity.tryWith conns lanes frame retained = .ok capacity)
    (hframe : nodeMax.value = frame) (h : Reached capacity fifo nodeMax retained ε p) (i : ι) :
    (∀ c : Call (Storage capacity.nodes capacity.connections T ι) (Option (Fin capacity.nodes)) ε,
      c.builder = Storage.builder i → c.nodeMax = nodeMax →
        (c.scan (p.parsers i) p.storage).1 ≠ .retainCapacity) ∧
      ∀ slot value, (Storage.builder i).Numbered frame p.storage slot →
        ((Storage.builder i).tryPush p.storage slot value).1 ≠ .full := by
  obtain ⟨-, hnodes⟩ := Capacity.tryWith_eq_ok.mp hcapacity
  have hn : capacity.lanes * nodeMax.value + retained ≤ capacity.nodes := by
    rw [hframe, hnodes]
  have haccounts := h.accounts hn
  have hsteady : Storage.Steady i capacity.lanes nodeMax.value retained p.admitted
      p.storage p.storage := ⟨haccounts.covered, fun _ _ => rfl⟩
  have hkeeps := Storage.steady_keeps i p.admitted p.storage hn
  refine ⟨fun c hbuilder hmax hfull => ?_, fun slot value hslot => ?_⟩
  · obtain ⟨B, source, byteMax, limit, bytes⟩ := c
    dsimp only at hbuilder hmax
    subst hbuilder hmax
    obtain ⟨hanswers, -, -⟩ := Call.scan_keeps
      (c := ⟨Storage.builder i, source, byteMax, limit, bytes⟩)
      hkeeps hsteady.reset hsteady (haccounts.sized i)
    rw [hfull] at hanswers
    exact hanswers rfl
  · exact hkeeps.answer value hsteady (hframe ▸ hslot)

/-- `*1\r\n:7\r\n`, for a port of one lane with frames of two values and credit for two. -/
def pairCall : Call (Storage 4 1 ℕ Bool) (Option (Fin 4)) Unit :=
  ⟨Storage.builder false, .exact, ⟨62, by decide, by decide⟩, ⟨2, by decide, by decide⟩,
    [42, 49, 13, 10, 58, 55, 13, 10]⟩

theorem never_full_pair :
    ∃ p : Port 4 1 ℕ Bool, Reached ⟨4, 1, 1⟩ .inPlace pairCall.nodeMax 2 Unit p ∧
      p.admitted = {1} ∧ (pairCall.scan (p.parsers false) p.storage).1 ≠ .retainCapacity := by
  have hnew : Reached ⟨4, 1, 1⟩ .inPlace pairCall.nodeMax 2 Unit
    (new ⟨4, 1, 1⟩ : Port 4 1 ℕ Bool) := .new
  have hadmit := (hnew.step (.scan _ false pairCall rfl rfl)).step
    (.retain _ (t := 1) (by decide) rfl (by decide) (by decide))
  have hcapacity : Capacity.tryWith 1 1 2 2 = .ok ⟨4, 1, 1⟩ := rfl
  exact ⟨_, hadmit, rfl, (Reached.never_full hcapacity rfl hadmit false).1 pairCall rfl rfl⟩

end Port

end Cartel.Redis.Parser
