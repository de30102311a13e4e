import Mathlib.Data.List.Basic
import Mathlib.Tactic.Common

/-!
# Stretches of a memory

A memory gives each address a value. `load` reads the values of a stretch and `store` replaces
them. What is stored is what is loaded from the same stretch, and a stretch that does not meet it
is loaded as before.
-/

namespace Cartel.Lib

variable {β : Type} {memory memory' : ℕ → β} {start count other : ℕ} {values : List β}

/-- The values of a stretch. -/
def load (memory : ℕ → β) (start count : ℕ) : List β :=
  (List.range count).map fun i => memory (start + i)

/-- The memory with other values in a stretch. -/
def store (memory : ℕ → β) (start : ℕ) (values : List β) : ℕ → β :=
  fun address => if start ≤ address then values.getD (address - start) (memory address)
    else memory address

@[simp] theorem length_load : (load memory start count).length = count := by
  simp [load]

@[simp] theorem load_zero : load memory start 0 = [] :=
  rfl

theorem load_congr (h : ∀ i < count, memory' (start + i) = memory (start + i)) :
    load memory' start count = load memory start count :=
  List.map_congr_left fun i hi => h i (List.mem_range.mp hi)

/-- Outside of the stretch nothing changes. -/
theorem store_outside {address : ℕ} (h : address < start ∨ start + values.length ≤ address) :
    store memory start values address = memory address := by
  unfold store
  split_ifs with hle
  · rcases h with hlt | hge
    · omega
    · rw [List.getD_eq_getElem?_getD, List.getElem?_eq_none (by omega), Option.getD_none]
  · rfl

/-- What has been stored is loaded. -/
theorem load_store : load (store memory start values) start values.length = values := by
  refine List.ext_getElem (by simp) fun i hi hvalue => ?_
  simp only [load, List.getElem_map, List.getElem_range, store, Nat.le_add_right, if_true,
    Nat.add_sub_cancel_left]
  rw [List.getD_eq_getElem?_getD, List.getElem?_eq_getElem hvalue, Option.getD_some]

theorem load_store_of_length (memory : ℕ → β) (start : ℕ) (h : values.length = count) :
    load (store memory start values) start count = values := by
  subst h
  exact load_store

theorem take_load (h : other ≤ count) :
    (load memory start count).take other = load memory start other := by
  unfold load
  rw [← List.map_take, List.take_range, Nat.min_eq_left h]

/-- One value is replaced. -/
theorem load_store_one {offset : ℕ} (value : β) :
    load (store memory (start + offset) [value]) start count =
      (load memory start count).set offset value := by
  refine List.ext_getElem (by simp) fun i hi hvalue => ?_
  rw [List.getElem_set]
  simp only [load, List.getElem_map, List.getElem_range]
  split_ifs with heq
  · subst heq
    simp [store]
  · exact store_outside (by
      rw [List.length_singleton]
      omega)

/-- A stretch beside it is loaded as before. -/
theorem load_store_beside (h : other + count ≤ start ∨ start + values.length ≤ other) :
    load (store memory start values) other count = load memory other count :=
  load_congr fun i hi => store_outside (by omega)

end Cartel.Lib
