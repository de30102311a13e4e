import Mathlib.Data.List.Nodup
import Mathlib.Logic.Function.Basic
import Mathlib.Tactic.Common

/-!
# Doubly linked lists that share their links

A doubly linked list is addressed by its first node, and every node knows its neighbours
(`Linked`). `Chains` is a family of disjoint lists in one set of nodes, each addressed by the
head its handle holds. A node of no list is put before the head of one (`Chains.push`), and
a node is taken out of the list it is in, wherever it stands there (`Chains.unlink`). Only
the links of the neighbours change.
-/

namespace Cartel.Lib

variable {α ι : Type*} {previous next previous' next' : α → Option α} {key : α} {xs : List α}

/-! ## One list -/

/-- Every node of `xs` has its neighbours there for links. -/
def Linked (previous next : α → Option α) (xs : List α) : Prop :=
  ∀ front a back, xs = front ++ a :: back → previous a = front.getLast? ∧ next a = back.head?

namespace Linked

theorem nil : Linked previous next [] := fun front a back h => by simp at h

theorem congr (h : Linked previous next xs) (hprevious : ∀ a ∈ xs, previous' a = previous a)
    (hnext : ∀ a ∈ xs, next' a = next a) : Linked previous' next' xs := by
  rintro front a back rfl
  rw [hprevious a (by simp), hnext a (by simp)]
  exact h front a back rfl

/-- Put a node before the first. -/
theorem push (h : Linked previous next xs) (hnodup : xs.Nodup) (hkey : previous' key = none)
    (hlink : next' key = xs.head?) (hhead : ∀ a, xs.head? = some a → previous' a = some key)
    (hprevious : ∀ a ∈ xs, xs.head? ≠ some a → previous' a = previous a)
    (hnext : ∀ a ∈ xs, next' a = next a) : Linked previous' next' (key :: xs) := by
  intro front a back hsplit
  rcases List.cons_eq_append_iff.mp hsplit with ⟨rfl, hcons⟩ | ⟨front, rfl, rfl⟩
  · obtain ⟨rfl, rfl⟩ := List.cons.inj hcons
    exact ⟨hkey, hlink⟩
  obtain ⟨hback, hfront⟩ := h front a back rfl
  refine ⟨?_, (hnext a (by simp)).trans hfront⟩
  cases front with
  | nil => exact hhead a rfl
  | cons b front =>
    have hne : b ≠ a := by
      rintro rfl
      simp at hnodup
    rw [hprevious a (by simp) fun heq => hne (Option.some.inj heq), hback, List.getLast?_cons_cons]

/-- Take a node out : its neighbours become neighbours. -/
theorem unlink {front back : List α} (h : Linked previous next (front ++ key :: back))
    (hnodup : (front ++ key :: back).Nodup)
    (hleft : ∀ u, front.getLast? = some u → next' u = back.head?)
    (hright : ∀ v, back.head? = some v → previous' v = front.getLast?)
    (hprevious : ∀ a ∈ front ++ back, back.head? ≠ some a → previous' a = previous a)
    (hnext : ∀ a ∈ front ++ back, front.getLast? ≠ some a → next' a = next a) :
    Linked previous' next' (front ++ back) := by
  intro left a right hsplit
  rcases List.append_eq_append_iff.mp hsplit with ⟨mid, rfl, rfl⟩ | ⟨mid, rfl, hmid⟩
  · -- the node stands behind the one taken out
    obtain ⟨hp, hn⟩ := h (front ++ key :: mid) a right (by simp)
    have hne : front.getLast? ≠ some a := fun hlast => by
      have hmem := List.mem_of_getLast? hlast
      exact (List.nodup_append.mp hnodup).2.2 a hmem a (by simp) rfl
    refine ⟨?_, (hnext a (by simp) hne).trans hn⟩
    cases mid with
    | nil =>
      rw [List.append_nil]
      exact hright a rfl
    | cons b mid =>
      have hne' : b ≠ a := by
        rintro rfl
        have hrest := (List.nodup_cons.mp (List.nodup_append.mp hnodup).2.1).2
        simp at hrest
      rw [hprevious a (by simp) fun heq => hne' (Option.some.inj heq), hp, List.getLast?_append,
        List.getLast?_append, List.getLast?_cons_cons]
  · cases mid with
    | nil =>
      rw [List.nil_append] at hmid
      subst hmid
      obtain ⟨hp, hn⟩ := h (left ++ [key]) a right (by simp)
      rw [List.append_nil] at *
      have hne : left.getLast? ≠ some a := fun hlast => by
        have hmem := List.mem_of_getLast? hlast
        exact (List.nodup_append.mp hnodup).2.2 a hmem a (by simp) rfl
      exact ⟨hright a rfl, (hnext a (by simp) hne).trans hn⟩
    | cons b mid =>
      -- the node stands before the one taken out
      obtain ⟨rfl, rfl⟩ := List.cons.inj hmid
      obtain ⟨hp, hn⟩ := h left a (mid ++ key :: back) (by simp)
      have hne : back.head? ≠ some a := fun hhead => by
        have hmem := List.mem_of_mem_head? hhead
        exact (List.nodup_append.mp hnodup).2.2 a (by simp) a
          (List.mem_cons_of_mem _ hmem) rfl
      refine ⟨(hprevious a (by simp) hne).trans hp, ?_⟩
      cases mid with
      | nil =>
        exact hleft a (by simp)
      | cons b mid =>
        have hlast : (left ++ a :: b :: mid).getLast? ≠ some a := fun hlast => by
          rw [List.getLast?_append, List.getLast?_cons_cons] at hlast
          have hmem : a ∈ b :: mid := by
            cases hb : (b :: mid).getLast? with
            | none => simp at hb
            | some last =>
              rw [hb] at hlast
              obtain rfl : last = a := by simpa using hlast
              exact List.mem_of_getLast? hb
          have hsub := (List.nodup_append.mp (List.nodup_append.mp hnodup).1).2.1
          exact (List.nodup_cons.mp hsub).1 hmem
        rw [hnext a (by simp) hlast, hn]
        rfl

end Linked

/-! ## Lists with a handle each -/

variable {heads heads' : ι → Option α} {lists : ι → List α} {i : ι}

/-- Disjoint doubly linked lists, each addressed by the head of its handle. -/
structure Chains (previous next : α → Option α) (heads : ι → Option α) (lists : ι → List α) :
    Prop where
  head : ∀ i, heads i = (lists i).head?
  linked : ∀ i, Linked previous next (lists i)
  nodup : ∀ i, (lists i).Nodup
  disjoint : ∀ {i j k}, k ∈ lists i → k ∈ lists j → i = j

namespace Chains

theorem empty : Chains previous next (fun _ : ι => none) fun _ => [] :=
  ⟨fun _ => rfl, fun _ => .nil, fun _ => List.nodup_nil, fun h => absurd h List.not_mem_nil⟩

theorem mem_head (h : Chains previous next heads lists) (hi : heads i = some key) :
    key ∈ lists i :=
  List.mem_of_mem_head? ((h.head i).symm.trans hi)

/-- The links of a node lead to nodes of its list. -/
theorem links_mem (h : Chains previous next heads lists) (hkey : key ∈ lists i) :
    (∀ a, previous key = some a → a ∈ lists i) ∧ ∀ a, next key = some a → a ∈ lists i := by
  obtain ⟨front, back, hsplit⟩ := List.append_of_mem hkey
  obtain ⟨hprevious, hnext⟩ := h.linked i front key back hsplit
  rw [hprevious, hnext, hsplit]
  exact ⟨fun a ha => List.mem_append_left _ (List.mem_of_getLast? ha),
    fun a ha => List.mem_append_right _ (List.mem_cons_of_mem _ (List.mem_of_mem_head? ha))⟩

variable [DecidableEq ι]

/-- Put a node of no list before the head of one. -/
theorem push (h : Chains previous next heads lists) (hkey : ∀ j, key ∉ lists j)
    (hhead : heads' i = some key) (hheads : ∀ j, j ≠ i → heads' j = heads j)
    (hfirst : previous' key = none) (hlink : next' key = heads i)
    (hback : ∀ a, heads i = some a → previous' a = some key)
    (hprevious : ∀ j, ∀ a ∈ lists j, heads i ≠ some a → previous' a = previous a)
    (hnext : ∀ j, ∀ a ∈ lists j, next' a = next a) :
    Chains previous' next' heads' (Function.update lists i (key :: lists i)) := by
  have hne : ∀ j, ∀ a ∈ lists j, a ≠ key := by
    rintro j a ha rfl
    exact hkey j ha
  have hmem : ∀ j a, a ∈ Function.update lists i (key :: lists i) j →
      a ∈ lists j ∨ a = key ∧ j = i := fun j a ha => by
    by_cases hj : j = i
    · subst hj
      rw [Function.update_self] at ha
      rcases List.mem_cons.mp ha with ha | ha
      · exact Or.inr ⟨ha, rfl⟩
      · exact Or.inl ha
    · rw [Function.update_of_ne hj] at ha
      exact Or.inl ha
  refine ⟨fun j => ?_, fun j => ?_, fun j => ?_, fun {j j' a} ha ha' => ?_⟩
  · by_cases hj : j = i
    · subst hj
      rw [Function.update_self, hhead]
      rfl
    · rw [Function.update_of_ne hj, hheads j hj, h.head]
  · by_cases hj : j = i
    · subst hj
      rw [Function.update_self]
      rw [h.head] at hlink hback hprevious
      exact (h.linked j).push (h.nodup j) hfirst hlink hback
        (hprevious j) (hnext j)
    · rw [Function.update_of_ne hj]
      exact (h.linked j).congr
        (fun a ha => hprevious j a ha fun hi => hj (h.disjoint ha (h.mem_head hi))) (hnext j)
  · by_cases hj : j = i
    · subst hj
      rw [Function.update_self]
      exact List.nodup_cons.mpr ⟨hkey j, h.nodup j⟩
    · rw [Function.update_of_ne hj]
      exact h.nodup j
  · rcases hmem j a ha with ha | ⟨heq, hj⟩ <;> rcases hmem j' a ha' with ha' | ⟨heq', hj'⟩
    · exact h.disjoint ha ha'
    · exact absurd heq' (hne j a ha)
    · exact absurd heq (hne j' a ha')
    · exact hj.trans hj'.symm

/-- Take a node out of its list. -/
theorem unlink [DecidableEq α] (h : Chains previous next heads lists) (hkey : key ∈ lists i)
    (hhead : heads' i = if previous key = none then next key else heads i)
    (hheads : ∀ j, j ≠ i → heads' j = heads j)
    (hleft : ∀ u, previous key = some u → next' u = next key)
    (hright : ∀ v, next key = some v → previous' v = previous key)
    (hprevious : ∀ j, ∀ a ∈ lists j, a ≠ key → next key ≠ some a → previous' a = previous a)
    (hnext : ∀ j, ∀ a ∈ lists j, a ≠ key → previous key ≠ some a → next' a = next a) :
    Chains previous' next' heads' (Function.update lists i ((lists i).erase key)) := by
  obtain ⟨front, back, hsplit⟩ := List.append_of_mem hkey
  obtain ⟨hp, hn⟩ := h.linked i front key back hsplit
  have hnodup := h.nodup i
  have hnotin : key ∉ front := fun hmem => by
    rw [hsplit] at hnodup
    exact (List.nodup_append.mp hnodup).2.2 key hmem key (by simp) rfl
  have herase : (lists i).erase key = front ++ back := by
    rw [hsplit, List.erase_append_right _ hnotin, List.erase_cons_head]
  have hmem : ∀ j a, a ∈ Function.update lists i ((lists i).erase key) j → a ∈ lists j :=
      fun j a ha => by
    by_cases hj : j = i
    · subst hj
      rw [Function.update_self] at ha
      exact List.mem_of_mem_erase ha
    · rwa [Function.update_of_ne hj] at ha
  obtain ⟨hinto, honto⟩ := h.links_mem hkey
  refine ⟨fun j => ?_, fun j => ?_, fun j => ?_, fun ha ha' => h.disjoint (hmem _ _ ha)
    (hmem _ _ ha')⟩
  · by_cases hj : j = i
    · subst hj
      rw [Function.update_self, herase, hhead, hp, hn, h.head, hsplit]
      cases front with
      | nil => rfl
      | cons b front => rw [if_neg (by simp)]; rfl
    · rw [Function.update_of_ne hj, hheads j hj, h.head]
  · by_cases hj : j = i
    · subst hj
      rw [Function.update_self, herase]
      rw [hp] at hleft hright hnext
      rw [hn] at hleft hright hprevious
      have hother : ∀ a ∈ front ++ back, a ∈ lists j ∧ a ≠ key := fun a ha => by
        rw [← herase] at ha
        exact ⟨List.mem_of_mem_erase ha, (hnodup.mem_erase_iff.mp ha).1⟩
      exact (hsplit ▸ h.linked j).unlink (hsplit ▸ hnodup) hleft hright
        (fun a ha => hprevious j a (hother a ha).1 (hother a ha).2)
        fun a ha => hnext j a (hother a ha).1 (hother a ha).2
    · rw [Function.update_of_ne hj]
      have hne : ∀ a ∈ lists j, a ≠ key := by
        rintro a ha rfl
        exact hj (h.disjoint ha hkey)
      exact (h.linked j).congr
        (fun a ha => hprevious j a ha (hne a ha) fun hlink => hj (h.disjoint ha (honto a hlink)))
        fun a ha => hnext j a ha (hne a ha) fun hlink => hj (h.disjoint ha (hinto a hlink))
  · by_cases hj : j = i
    · subst hj
      rw [Function.update_self]
      exact hnodup.erase key
    · rw [Function.update_of_ne hj]
      exact h.nodup j

end Chains

end Cartel.Lib
