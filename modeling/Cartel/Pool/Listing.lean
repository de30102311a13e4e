import Cartel.Pool.Index

/-!
# What the index lists

The ring, the buckets, the bitmap and the minimum of an index are made for the priorities of
its entries (`Linked`). A change of the lists is a change of priorities : `Relisted` says that
an index has the lists for new priorities, and everything else as before.
-/

namespace Cartel.Pg.Pool

open Cartel.Lib

variable {n top : ℕ} {φ : Type}
variable {links : Links n} {index index' : Index n top φ} {i : Fin n} {row : Fin (top + 1)}

/-- The buckets, the bitmap and the minimum are those of the priorities. -/
structure Bucketed (index : Index n top φ) : Prop where
  nodup : ∀ row, (index.heads row).Nodup
  mem : ∀ row i, i ∈ index.heads row ↔ index.priority i = some row
  bits : ∀ row, index.bits row = true ↔ index.heads row ≠ []
  minimum : index.minimum = Bitmap.find index.bits 0

/-- The ring and the buckets are those of the priorities. -/
structure Linked (index : Index n top φ) : Prop extends Bucketed index where
  ring_nodup : index.ring.Nodup
  mem_ring : ∀ i, i ∈ index.ring ↔ (index.priority i).isSome

/-- An index with other buckets, for other priorities. -/
structure Rebucketed (index : Index n top φ) (priority : Fin n → Option (Fin (top + 1)))
    (index' : Index n top φ) : Prop where
  bucketed : Bucketed index'
  priority : index'.priority = priority
  ring : index'.ring = index.ring
  slots : index'.slots = index.slots
  live : index'.live = index.live
  blockers : index'.blockers = index.blockers

/-- An index with other lists, for other priorities. -/
structure Relisted (index : Index n top φ) (priority : Fin n → Option (Fin (top + 1)))
    (index' : Index n top φ) : Prop where
  linked : Linked index'
  priority : index'.priority = priority
  slots : index'.slots = index.slots
  live : index'.live = index.live
  blockers : index'.blockers = index.blockers

/-! ## Buckets -/

theorem Bucketed.not_mem (h : Bucketed index) (hi : index.priority i = none) :
    i ∉ index.heads row := by
  rw [h.mem, hi]
  exact fun h => by cases h

theorem Bucketed.attach (h : Bucketed index) (links : Links n) (row : Fin (top + 1))
    (hi : index.priority i = none) :
    ∃ index', index.attach links i row = some index' ∧
      Rebucketed index (Function.update index.priority i (some row)) index' := by
  have hfree : ((List.finRange (top + 1)).any fun row => decide (i ∈ index.heads row)) = false :=
    List.any_eq_false.mpr fun row _ => by simpa using h.not_mem hi
  have hlink := links.linkRaw_perm i (index.heads row)
  simp only [Index.attach, hfree, Bool.false_eq_true, if_false]
  refine ⟨_, rfl, ⟨?_, ?_, ?_, ?_⟩, rfl, rfl, rfl, rfl, rfl⟩
  · intro other
    by_cases hrow : other = row
    · subst hrow
      simp only [Function.update_self]
      rw [hlink.nodup_iff, List.nodup_cons]
      exact ⟨h.not_mem hi, h.nodup other⟩
    · simp only [Function.update_of_ne hrow]
      exact h.nodup other
  · intro other j
    have hother : Function.update index.priority i (some row) j = some other ↔
        (j = i ∧ row = other) ∨ index.priority j = some other := by
      by_cases hj : j = i
      · subst hj
        simp [hi]
      · simp [hj]
    dsimp only
    rw [hother]
    by_cases hrow : other = row
    · subst hrow
      rw [Function.update_self, hlink.mem_iff, List.mem_cons, h.mem]
      simp
    · rw [Function.update_of_ne hrow, h.mem]
      simp [Ne.symm hrow]
  · intro other
    dsimp only
    by_cases hrow : other = row
    · subst hrow
      have hne : links.linkRaw i (index.heads other) ≠ [] := by
        intro hnil
        have := hlink.length_eq
        simp [hnil] at this
      rw [Function.update_self]
      split_ifs with hempty
      · simp [hne]
      · simp [hne, (h.bits other).mpr hempty]
    · rw [Function.update_of_ne hrow, ← h.bits other]
      split_ifs
      · rw [Function.update_of_ne hrow]
      · rfl
  · dsimp only
    by_cases hempty : index.heads row = []
    · have hbit : index.bits row = false := by
        rw [← Bool.not_eq_true, h.bits]
        exact not_not.mpr hempty
      simp only [hempty, true_and, if_true]
      rw [Bitmap.find_set hbit, h.minimum]
    · simp only [hempty, false_and, if_false]
      exact h.minimum

theorem Bucketed.detach (h : Bucketed index) (hi : index.priority i = some row) :
    ∃ index', index.detach i row = some index' ∧
      Rebucketed index (Function.update index.priority i none) index' := by
  have hmem : i ∈ index.heads row := (h.mem row i).mpr hi
  simp only [Index.detach, not_not.mpr hmem, if_false]
  refine ⟨_, rfl, ⟨?_, ?_, ?_, ?_⟩, rfl, rfl, rfl, rfl, rfl⟩
  · intro other
    by_cases hrow : other = row
    · subst hrow
      simp only [Function.update_self]
      exact (h.nodup other).erase i
    · simp only [Function.update_of_ne hrow]
      exact h.nodup other
  · intro other j
    dsimp only
    by_cases hrow : other = row
    · subst hrow
      rw [Function.update_self, (h.nodup other).mem_erase_iff, h.mem]
      by_cases hj : j = i
      · subst hj
        simp
      · simp [hj]
    · rw [Function.update_of_ne hrow, h.mem]
      by_cases hj : j = i
      · subst hj
        simp [hi, Ne.symm hrow]
      · simp [hj]
  · intro other
    dsimp only
    by_cases hrow : other = row
    · subst hrow
      rw [Function.update_self]
      split_ifs with hempty
      · simp [hempty]
      · simp [hempty, (h.bits other).mpr (List.ne_nil_of_mem hmem)]
    · rw [Function.update_of_ne hrow, ← h.bits other]
      split_ifs
      · rw [Function.update_of_ne hrow]
      · rfl
  · dsimp only
    by_cases hempty : (index.heads row).erase i = []
    · simp only [hempty, true_and, if_true]
      rw [Bitmap.find_clear, h.minimum]
    · simp only [hempty, false_and, if_false]
      exact h.minimum

/-! ## Lists -/

theorem Linked.insertRank (h : Linked index) (links : Links n) (row : Fin (top + 1))
    (hi : index.priority i = none) :
    ∃ index', index.insertRank links i row = some index' ∧
      Relisted index (Function.update index.priority i (some row)) index' := by
  have hring : i ∉ index.ring := by
    rw [h.mem_ring, hi]
    exact Bool.false_ne_true
  have hpush := links.cyclePush_perm i index.ring
  have hbucketed : Bucketed { index with ring := links.cyclePush i index.ring } :=
    ⟨h.nodup, h.mem, h.bits, h.minimum⟩
  obtain ⟨index', hattach, hre⟩ := hbucketed.attach links row hi
  refine ⟨index', by rw [Index.insertRank, if_neg hring, hattach], ⟨hre.bucketed, ?_, ?_⟩,
    hre.priority, hre.slots, hre.live, hre.blockers⟩
  · rw [hre.ring, hpush.nodup_iff, List.nodup_cons]
    exact ⟨hring, h.ring_nodup⟩
  · intro j
    rw [hre.ring, hpush.mem_iff, List.mem_cons, h.mem_ring, hre.priority]
    by_cases hj : j = i
    · subst hj
      simp
    · simp [hj]

theorem Linked.remove (h : Linked index) (hi : index.priority i = some row) :
    ∃ index', index.remove ⟨i, row⟩ = some index' ∧
      Relisted index (Function.update index.priority i none) index' := by
  have hring : i ∈ index.ring := by
    rw [h.mem_ring, hi]
    rfl
  have hbucketed : Bucketed { index with ring := index.ring.erase i } :=
    ⟨h.nodup, h.mem, h.bits, h.minimum⟩
  obtain ⟨index', hdetach, hre⟩ := hbucketed.detach hi
  refine ⟨index', by rw [Index.remove, if_neg (not_not.mpr hring), hdetach],
    ⟨hre.bucketed, ?_, ?_⟩, hre.priority, hre.slots, hre.live, hre.blockers⟩
  · rw [hre.ring]
    exact h.ring_nodup.erase i
  · intro j
    rw [hre.ring, h.ring_nodup.mem_erase_iff, h.mem_ring, hre.priority]
    by_cases hj : j = i
    · subst hj
      simp
    · simp [hj]

/-- An entry moved to its own bucket may stay where it is. -/
theorem Linked.reprioritizeListed (h : Linked index) (links : Links n)
    (hi : index.priority i = some row) (depth : ℕ) :
    ∃ index', index.reprioritizeListed links ⟨i, row⟩ depth = some index' ∧
      Relisted index (Function.update index.priority i (some (clamp top depth))) index' := by
  unfold Index.reprioritizeListed
  dsimp only
  split_ifs with hstay
  · refine ⟨index, rfl, h, ?_, rfl, rfl, rfl⟩
    rw [← hstay.1, ← hi, Function.update_eq_self]
  · obtain ⟨middle, hdetach, hde⟩ := h.toBucketed.detach hi
    have hfree : middle.priority i = none := by rw [hde.priority, Function.update_self]
    obtain ⟨index', hattach, hat⟩ := hde.bucketed.attach links (clamp top depth) hfree
    have hpriority : index'.priority =
        Function.update index.priority i (some (clamp top depth)) := by
      rw [hat.priority, hde.priority, Function.update_idem]
    refine ⟨index', by rw [hdetach]; exact hattach, ⟨hat.bucketed, ?_, ?_⟩, hpriority,
      hat.slots.trans hde.slots, hat.live.trans hde.live, hat.blockers.trans hde.blockers⟩
    · rw [hat.ring, hde.ring]
      exact h.ring_nodup
    · intro j
      rw [hat.ring, hde.ring, h.mem_ring, hpriority]
      by_cases hj : j = i
      · subst hj
        simp [hi]
      · simp [hj]

/-- A list in another order lists the same. -/
theorem Linked.reorder (h : Linked index) {ring : List (Fin n)} (hring : ring.Perm index.ring) :
    Linked { index with ring } :=
  ⟨⟨h.nodup, h.mem, h.bits, h.minimum⟩, hring.nodup_iff.mpr h.ring_nodup, fun i =>
    hring.mem_iff.trans (h.mem_ring i)⟩

theorem Linked.congr (h : Linked index) (hring : index'.ring = index.ring)
    (hheads : index'.heads = index.heads) (hbits : index'.bits = index.bits)
    (hpriority : index'.priority = index.priority) (hminimum : index'.minimum = index.minimum) :
    Linked index' := by
  obtain ⟨⟨hnodup, hmem, hset, hleast⟩, hcycle, hcycled⟩ := h
  refine ⟨⟨?_, ?_, ?_, ?_⟩, ?_, ?_⟩ <;> simp only [hring, hheads, hbits, hpriority, hminimum] <;>
    assumption

/-! ## The least bucket -/

theorem Bucketed.minimum_eq_some (h : Bucketed index) : index.minimum = some row ↔
    index.heads row ≠ [] ∧ ∀ other, index.heads other ≠ [] → row ≤ other := by
  rw [h.minimum, Bitmap.find_eq_some]
  simp only [Nat.zero_le, true_and, true_imp_iff, h.bits]

theorem Bucketed.minimum_eq_none (h : Bucketed index) :
    index.minimum = none ↔ ∀ row, index.heads row = [] := by
  rw [h.minimum, Bitmap.find_eq_none]
  simp only [Nat.zero_le, true_imp_iff, ← Bool.not_eq_true, h.bits, not_not]

end Cartel.Pg.Pool
