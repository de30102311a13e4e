import Mathlib.Data.List.Nodup
import Mathlib.Tactic.Common

/-!
# Keyed FIFO queues

A queue whose values are filed under keys, as in an intrusive queue that has one hook for
each key : a value enters at the back, and leaves from the front or by its key. The queue
is unique if no key is filed twice.
-/

set_option linter.unusedSectionVars false

namespace Cartel.Lib.Fifo

variable {κ α : Type*} [DecidableEq κ] {key : α → κ}

/-- The value under a key. -/
def get (key : α → κ) (q : List α) (k : κ) : Option α :=
  q.find? fun a => key a = k

/-- The queue without the value under a key. -/
def clear (key : α → κ) (q : List α) (k : κ) : List α :=
  q.filter fun a => key a ≠ k

/-- No key is filed twice. -/
def Unique (key : α → κ) (q : List α) : Prop :=
  (q.map key).Nodup

variable {q : List α} {k : κ} {a b : α}

theorem unique_nil : Unique key [] :=
  List.nodup_nil

theorem Unique.eq (h : Unique key q) (ha : a ∈ q) (hb : b ∈ q) (heq : key a = key b) : a = b :=
  List.inj_on_of_nodup_map h ha hb heq

theorem get_some (h : get key q k = some a) : a ∈ q ∧ key a = k := by
  unfold get at h
  have hkey := List.find?_some h
  simp only [decide_eq_true_eq] at hkey
  exact ⟨List.mem_of_find?_eq_some h, hkey⟩

theorem Unique.get_eq_some (h : Unique key q) : get key q k = some a ↔ a ∈ q ∧ key a = k := by
  refine ⟨get_some, ?_⟩
  rintro ⟨ha, rfl⟩
  cases hget : get key q (key a) with
  | none =>
    unfold get at hget
    have := List.find?_eq_none.mp hget a ha
    simp at this
  | some b =>
    obtain ⟨hb, hkey⟩ := get_some hget
    rw [h.eq hb ha hkey]

theorem mem_clear : a ∈ clear key q k ↔ a ∈ q ∧ key a ≠ k := by
  simp [clear]

theorem Unique.clear (h : Unique key q) (k : κ) : Unique key (clear key q k) :=
  List.Nodup.sublist (List.Sublist.map key List.filter_sublist) h

theorem Unique.push (h : Unique key q) (hk : ∀ b ∈ q, key b ≠ key a) :
    Unique key (q ++ [a]) := by
  unfold Unique
  rw [List.map_append]
  refine List.Nodup.append h (List.nodup_singleton _) ?_
  intro x hx hxa
  obtain ⟨b, hb, rfl⟩ := List.mem_map.mp hx
  exact hk b hb (List.mem_singleton.mp hxa)

theorem Unique.tail (h : Unique key (a :: q)) : Unique key q :=
  (List.nodup_cons.mp h).2

/-- The front of a unique queue is not behind it. -/
theorem Unique.front (h : Unique key (a :: q)) (hb : b ∈ q) : key b ≠ key a := by
  intro heq
  exact (List.nodup_cons.mp h).1 (heq ▸ List.mem_map_of_mem hb)

end Cartel.Lib.Fifo
