import Mathlib.Data.List.Chain
import Mathlib.Data.List.Nodup
import Mathlib.Tactic.Common

/-!
# Circular lists that share their links

A circular list is addressed by its last node, the tail : the node after the tail is its
first (`Ring`). It is read by following the links from there (`Ring.walk_eq`).

`Rings` is a family of disjoint circular lists in one set of nodes, each addressed by
the tail its handle holds. A node is taken from the front of a list (`Rings.pop`), put
after the tail of another (`Rings.push`), and one list is spliced into another by
exchanging the links of the two tails (`Rings.splice`). No other list changes.
-/

namespace Cartel.Lib

variable {α : Type*} {next next' : α → α} {t key : α} {xs ys : List α}

/-! ## One circular list -/

/-- From `t` the links go through `xs`, back to `t` at its end. -/
structure Ring (next : α → α) (t : α) (xs : List α) : Prop where
  chain : xs.IsChain (next · = ·)
  last : xs.getLast? = some t
  first : xs.head? = some (next t)
  nodup : xs.Nodup

/-- The nodes met from `a` on. -/
def walk (next : α → α) : ℕ → α → List α
  | 0, _ => []
  | n + 1, a => a :: walk next n (next a)

theorem length_walk (next : α → α) : ∀ (n : ℕ) (a : α), (walk next n a).length = n
  | 0, _ => rfl
  | n + 1, a => congrArg (· + 1) (length_walk next n (next a))

/-- Only the links of the inner nodes count for the chain. -/
theorem isChain_relink (h : xs.IsChain (next · = ·)) (hlast : xs.getLast? = some t)
    (hnodup : xs.Nodup) (hlinks : ∀ k ∈ xs, k ≠ t → next' k = next k) :
    xs.IsChain (next' · = ·) := by
  rw [List.isChain_iff_forall_rel_of_append_cons_cons] at h ⊢
  rintro a b front back rfl
  rw [hlinks a (by simp), h rfl]
  rintro rfl
  have hmem : a ∈ b :: back := by
    rw [List.getLast?_append, List.getLast?_cons_cons] at hlast
    cases hb : (b :: back).getLast? with
    | none => simp at hb
    | some last =>
      rw [hb] at hlast
      obtain rfl : last = a := by simpa using hlast
      exact List.mem_of_getLast? hb
  exact (List.nodup_cons.mp (List.nodup_append.mp hnodup).2.1).1 hmem

/-- The nodes met from `a` on, up to `t`. -/
def walkTo [DecidableEq α] (next : α → α) (t : α) : ℕ → α → List α
  | 0, _ => []
  | n + 1, a => if a = t then [a] else a :: walkTo next t n (next a)

namespace Ring

theorem ne_nil (h : Ring next t xs) : xs ≠ [] := by
  rintro rfl
  simpa using h.last

theorem tail_mem (h : Ring next t xs) : t ∈ xs :=
  List.mem_of_getLast? h.last

theorem congr (h : Ring next t xs) (hlinks : ∀ k ∈ xs, next' k = next k) : Ring next' t xs :=
  ⟨isChain_relink h.chain h.last h.nodup fun k hk _ => hlinks k hk, h.last,
    by rw [hlinks t h.tail_mem, h.first], h.nodup⟩

/-- A tail linked to itself is the whole list. -/
theorem eq_singleton (h : Ring next t xs) (ht : next t = t) : xs = [t] := by
  have hfirst := h.first
  have hlast := h.last
  have hnodup := h.nodup
  rw [ht] at hfirst
  cases xs with
  | nil => simp at hfirst
  | cons x rest =>
    obtain rfl : x = t := by simpa using hfirst
    cases rest with
    | nil => rfl
    | cons y rest =>
      rw [List.getLast?_cons_cons] at hlast
      exact absurd (List.mem_of_getLast? hlast) (List.nodup_cons.mp hnodup).1

theorem singleton (ht : next t = t) : Ring next t [t] :=
  ⟨List.isChain_singleton t, rfl, by simp [ht], List.nodup_singleton t⟩

/-- Take the first node off a list of more than one. -/
theorem pop (h : Ring next t xs) (ht : next t ≠ t) (hlink : next' t = next (next t))
    (hlinks : ∀ k ∈ xs, k ≠ t → next' k = next k) :
    ∃ rest, xs = next t :: rest ∧ Ring next' t rest := by
  have hfirst := h.first
  cases xs with
  | nil => simp at hfirst
  | cons x rest =>
    obtain rfl : x = next t := by simpa using hfirst
    cases rest with
    | nil =>
      have hlast := h.last
      exact absurd (by simpa using hlast) ht
    | cons y rest =>
      have hlast : (y :: rest).getLast? = some t := by rw [← h.last, List.getLast?_cons_cons]
      have hnodup := (List.nodup_cons.mp h.nodup).2
      obtain ⟨hxy, hchain⟩ := List.isChain_cons_cons.mp h.chain
      exact ⟨_, rfl, isChain_relink hchain hlast hnodup fun k hk => hlinks k (by simp [hk]), hlast,
        by simp [hlink, hxy], hnodup⟩

/-- Put a new node after the tail. -/
theorem push (h : Ring next t xs) (hkey : key ∉ xs) (hlink : next' key = next t)
    (htail : next' t = key) (hlinks : ∀ k ∈ xs, k ≠ t → next' k = next k) :
    Ring next' key (xs ++ [key]) := by
  refine ⟨?_, by simp, ?_, ?_⟩
  · refine List.isChain_append.mpr ⟨isChain_relink h.chain h.last h.nodup hlinks,
      List.isChain_singleton key, fun a ha b hb => ?_⟩
    obtain rfl : t = a := by simpa [h.last] using ha
    obtain rfl : key = b := by simpa using hb
    exact htail
  · rw [List.head?_append, h.first, hlink]
    rfl
  · exact List.nodup_append.mpr ⟨h.nodup, List.nodup_singleton key, fun a ha b hb => by
      rintro rfl
      exact hkey (List.mem_singleton.mp hb ▸ ha)⟩

/-- Exchange the links of two tails : the lists become one, with the second in front. -/
theorem splice {u : α} (h : Ring next t xs) (h' : Ring next u ys) (hd : List.Disjoint xs ys)
    (ht : next' t = next u) (hu : next' u = next t)
    (hlinks : ∀ k, k ≠ t → k ≠ u → next' k = next k) : Ring next' t (ys ++ xs) := by
  refine ⟨?_, ?_, ?_, ?_⟩
  · have hxs : xs.IsChain (next' · = ·) := isChain_relink h.chain h.last h.nodup fun k hk hne =>
      hlinks k hne fun hku => hd (hku ▸ hk) h'.tail_mem
    have hys : ys.IsChain (next' · = ·) := isChain_relink h'.chain h'.last h'.nodup fun k hk hne =>
      hlinks k (fun hkt => hd h.tail_mem (hkt ▸ hk)) hne
    refine List.isChain_append.mpr ⟨hys, hxs, fun a ha b hb => ?_⟩
    obtain rfl : u = a := by simpa [h'.last] using ha
    obtain rfl : next t = b := by simpa [h.first] using hb
    exact hu
  · rw [List.getLast?_append, h.last]
    rfl
  · rw [List.head?_append, h'.first, ht]
    rfl
  · exact List.nodup_append.mpr ⟨h'.nodup, h.nodup, fun a ha b hb => by
      rintro rfl
      exact hd hb ha⟩

theorem walk_of_isChain : ∀ {xs : List α} {a : α}, xs.IsChain (next · = ·) → xs.head? = some a →
    walk next xs.length a = xs
  | [], a, _, h => by simp at h
  | [x], a, _, h => by
    obtain rfl : x = a := by simpa using h
    rfl
  | x :: y :: xs, a, hchain, h => by
    obtain rfl : x = a := by simpa using h
    obtain ⟨hxy, hchain⟩ := List.isChain_cons_cons.mp hchain
    rw [List.length_cons, walk, walk_of_isChain hchain (by simp [hxy])]

/-- Walking from the node after the tail lists the nodes. -/
theorem walk_eq (h : Ring next t xs) : walk next xs.length (next t) = xs :=
  walk_of_isChain h.chain h.first

theorem walkTo_of_isChain [DecidableEq α] : ∀ {xs : List α} {a : α} {n : ℕ},
    xs.IsChain (next · = ·) → xs.head? = some a → xs.getLast? = some t → xs.Nodup →
      xs.length ≤ n → walkTo next t n a = xs
  | [], a, _, _, h, _, _, _ => by simp at h
  | x :: xs, a, 0, _, _, _, _, hn => by simp at hn
  | [x], a, n + 1, _, h, hlast, _, _ => by
    obtain rfl : x = a := by simpa using h
    obtain rfl : x = t := by simpa using hlast
    rw [walkTo, if_pos rfl]
  | x :: y :: xs, a, n + 1, hchain, h, hlast, hnodup, hn => by
    obtain rfl : x = a := by simpa using h
    obtain ⟨hxy, hchain⟩ := List.isChain_cons_cons.mp hchain
    rw [List.getLast?_cons_cons] at hlast
    obtain ⟨hnotin, hnodup⟩ := List.nodup_cons.mp hnodup
    have hne : x ≠ t := by
      rintro rfl
      exact hnotin (List.mem_of_getLast? hlast)
    rw [walkTo, if_neg hne, walkTo_of_isChain hchain (by simp [hxy]) hlast hnodup (by simpa using hn)]

/-- The walk from the node after the tail to the tail lists the nodes. -/
theorem walkTo_eq [DecidableEq α] (h : Ring next t xs) {n : ℕ} (hn : xs.length ≤ n) :
    walkTo next t n (next t) = xs :=
  walkTo_of_isChain h.chain h.first h.last h.nodup hn

end Ring

/-! ## Circular lists with a handle each -/

variable {ι : Type*} {tails tails' : ι → Option α} {lists lists' : ι → List α} {i f : ι}

/-- Disjoint circular lists, each addressed by the tail of its handle. -/
structure Rings (next : α → α) (tails : ι → Option α) (lists : ι → List α) : Prop where
  ring : ∀ {i t}, tails i = some t → Ring next t (lists i)
  empty : ∀ {i}, tails i = none → lists i = []
  disjoint : ∀ {i j k}, k ∈ lists i → k ∈ lists j → i = j

namespace Rings

theorem tail_eq_none (h : Rings next tails lists) (hi : lists i = []) : tails i = none := by
  cases ht : tails i with
  | none => rfl
  | some t => exact absurd hi (h.ring ht).ne_nil

/-- Lists whose nodes and links stay are lists of the changed links. -/
theorem ring_of_agree (h : Rings next tails lists) {j : ι} (htail : tails j = some t)
    (hlinks : ∀ k ∈ lists j, next' k = next k) : Ring next' t (lists j) :=
  (h.ring htail).congr hlinks

variable [DecidableEq ι]

/-- Take the first node of a list away. -/
theorem pop [DecidableEq α] (h : Rings next tails lists) (hf : tails f = some t)
    (htail : tails' f = if next t = t then none else some t)
    (htails : ∀ j, j ≠ f → tails' j = tails j)
    (hlink : next t ≠ t → next' t = next (next t))
    (hlinks : ∀ k, k ≠ t → next' k = next k) :
    ∃ rest, lists f = next t :: rest ∧ next t ∉ rest ∧
      Rings next' tails' (Function.update lists f rest) := by
  have hring := h.ring hf
  obtain ⟨rest, hlist, hrest⟩ : ∃ rest, lists f = next t :: rest ∧
      ∀ u, tails' f = some u → u = t ∧ Ring next' t rest := by
    by_cases ht : next t = t
    · refine ⟨[], by rw [hring.eq_singleton ht, ht], fun u hu => ?_⟩
      simp [htail, ht] at hu
    · obtain ⟨rest, hlist, hrest⟩ := hring.pop ht (hlink ht) fun k _ hk => hlinks k hk
      refine ⟨rest, hlist, fun u hu => ⟨?_, hrest⟩⟩
      rw [htail, if_neg ht] at hu
      exact (Option.some.inj hu).symm
  have hnotin := (List.nodup_cons.mp (hlist ▸ hring.nodup)).1
  have hsub : ∀ j k, k ∈ Function.update lists f rest j → k ∈ lists j := fun j k hk => by
    by_cases hj : j = f
    · subst hj
      rw [Function.update_self] at hk
      exact hlist ▸ List.mem_cons_of_mem _ hk
    · rwa [Function.update_of_ne hj] at hk
  refine ⟨rest, hlist, hnotin, fun {j u} hu => ?_, fun {j} hj => ?_, fun {j j' k} hk hk' => ?_⟩
  · by_cases hj : j = f
    · subst hj
      obtain ⟨rfl, hr⟩ := hrest u hu
      rw [Function.update_self]
      exact hr
    · rw [Function.update_of_ne hj]
      refine h.ring_of_agree (htails j hj ▸ hu) fun k hk => hlinks k ?_
      rintro rfl
      exact hj (h.disjoint hk hring.tail_mem)
  · by_cases hjf : j = f
    · subst hjf
      rw [Function.update_self]
      by_cases ht : next t = t
      · have hone := hring.eq_singleton ht
        rw [hlist] at hone
        exact (List.cons.inj hone).2
      · simp [htail, ht] at hj
    · rw [Function.update_of_ne hjf]
      exact h.empty (htails j hjf ▸ hj)
  · exact h.disjoint (hsub j k hk) (hsub j' k hk')

/-- Put a node of no list at the end of one. -/
theorem push (h : Rings next tails lists) (hkey : ∀ j, key ∉ lists j)
    (htail : tails' i = some key) (htails : ∀ j, j ≠ i → tails' j = tails j)
    (hempty : tails i = none → next' key = key)
    (hlink : ∀ t, tails i = some t → next' key = next t ∧ next' t = key)
    (hlinks : ∀ k, k ≠ key → tails i ≠ some k → next' k = next k) :
    Rings next' tails' (Function.update lists i (lists i ++ [key])) := by
  have hmem : ∀ j k, k ∈ Function.update lists i (lists i ++ [key]) j →
      k ∈ lists j ∨ k = key ∧ j = i := fun j k hk => by
    by_cases hj : j = i
    · subst hj
      rw [Function.update_self] at hk
      rcases List.mem_append.mp hk with hk | hk
      · exact Or.inl hk
      · exact Or.inr ⟨List.mem_singleton.mp hk, rfl⟩
    · rw [Function.update_of_ne hj] at hk
      exact Or.inl hk
  refine ⟨fun {j u} hu => ?_, fun {j} hj => ?_, fun {j j' k} hk hk' => ?_⟩
  · by_cases hj : j = i
    · subst hj
      rw [htail] at hu
      obtain rfl : key = u := Option.some.inj hu
      rw [Function.update_self]
      cases ht : tails j with
      | none =>
        rw [h.empty ht]
        exact Ring.singleton (hempty ht)
      | some t =>
        obtain ⟨hkey', htail'⟩ := hlink t ht
        refine (h.ring ht).push (hkey j) hkey' htail' fun k hk hne => hlinks k ?_ ?_
        · rintro rfl
          exact hkey j hk
        · rw [ht]
          exact fun hk => hne (Option.some.inj hk).symm
    · rw [Function.update_of_ne hj]
      refine h.ring_of_agree (htails j hj ▸ hu) fun k hk => hlinks k ?_ fun hk' => ?_
      · rintro rfl
        exact hkey j hk
      · exact hj (h.disjoint hk (h.ring hk').tail_mem)
  · by_cases hji : j = i
    · subst hji
      simp [htail] at hj
    · rw [Function.update_of_ne hji]
      exact h.empty (htails j hji ▸ hj)
  · rcases hmem j k hk with hj | ⟨hj, hji⟩ <;> rcases hmem j' k hk' with hj' | ⟨hj', hji'⟩
    · exact h.disjoint hj hj'
    · exact absurd (hj' ▸ hj) (hkey j)
    · exact absurd (hj ▸ hj') (hkey j')
    · rw [hji, hji']

/-- Hand a list over to a handle without one. -/
theorem move (h : Rings next tails lists) (hne : i ≠ f) (htail : tails' f = tails i) (hnone : tails' i = none)
    (htails : ∀ j, j ≠ i → j ≠ f → tails' j = tails j) :
    Rings next tails' (Function.update (Function.update lists f (lists i)) i []) := by
  have hlists : ∀ j, j ≠ i → j ≠ f →
      Function.update (Function.update lists f (lists i)) i [] j = lists j := fun j hi hf => by
    rw [Function.update_of_ne hi, Function.update_of_ne hf]
  have hlistf : Function.update (Function.update lists f (lists i)) i [] f = lists i := by
    rw [Function.update_of_ne hne.symm, Function.update_self]
  have hlisti : Function.update (Function.update lists f (lists i)) i [] i = [] :=
    Function.update_self ..
  -- the list a node is in now, and the one it was in before
  have hmem : ∀ j k, k ∈ Function.update (Function.update lists f (lists i)) i [] j →
      ∃ j', k ∈ lists j' ∧ j' ≠ f ∧ j = if j' = i then f else j' := fun j k hk => by
    by_cases hji : j = i
    · rw [hji, hlisti] at hk
      simp at hk
    · by_cases hjf : j = f
      · rw [hjf, hlistf] at hk
        exact ⟨i, hk, hne, by simp [hjf]⟩
      · rw [hlists j hji hjf] at hk
        exact ⟨j, hk, hjf, by simp [hji]⟩
  refine ⟨fun {j u} hu => ?_, fun {j} hj => ?_, fun {j j' k} hk hk' => ?_⟩
  · by_cases hji : j = i
    · simp [hji, hnone] at hu
    · by_cases hjf : j = f
      · rw [hjf, hlistf]
        exact h.ring (by rw [← htail, ← hjf, hu])
      · rw [hlists j hji hjf]
        exact h.ring (htails j hji hjf ▸ hu)
  · by_cases hji : j = i
    · rw [hji, hlisti]
    · by_cases hjf : j = f
      · rw [hjf, hlistf]
        exact h.empty (by rw [← htail, ← hjf, hj])
      · rw [hlists j hji hjf]
        exact h.empty (htails j hji hjf ▸ hj)
  · obtain ⟨a, ha, -, rfl⟩ := hmem j k hk
    obtain ⟨b, hb, -, rfl⟩ := hmem j' k hk'
    rw [h.disjoint ha hb]

/-- Splice a list behind another one, by exchanging the links of their tails. -/
theorem splice {u : α} (h : Rings next tails lists) (hne : i ≠ f) (hf : tails f = some u)
    (hi : tails i = some t) (htail : tails' f = some t) (hnone : tails' i = none)
    (htails : ∀ j, j ≠ i → j ≠ f → tails' j = tails j)
    (ht : next' t = next u) (hu : next' u = next t)
    (hlinks : ∀ k, k ≠ t → k ≠ u → next' k = next k) :
    Rings next' tails' (Function.update (Function.update lists f (lists f ++ lists i)) i []) := by
  have hd : List.Disjoint (lists i) (lists f) := fun k hk hk' => hne (h.disjoint hk hk')
  have hlists : ∀ j, j ≠ i → j ≠ f →
      Function.update (Function.update lists f (lists f ++ lists i)) i [] j = lists j :=
    fun j hi hf => by rw [Function.update_of_ne hi, Function.update_of_ne hf]
  have hlistf : Function.update (Function.update lists f (lists f ++ lists i)) i [] f =
      lists f ++ lists i := by
    rw [Function.update_of_ne hne.symm, Function.update_self]
  have hlisti : Function.update (Function.update lists f (lists f ++ lists i)) i [] i = [] :=
    Function.update_self ..
  have hmem : ∀ j k, k ∈ Function.update (Function.update lists f (lists f ++ lists i)) i [] j →
      ∃ j', k ∈ lists j' ∧ j = if j' = i then f else j' := fun j k hk => by
    by_cases hji : j = i
    · rw [hji, hlisti] at hk
      simp at hk
    · by_cases hjf : j = f
      · rw [hjf, hlistf] at hk
        rcases List.mem_append.mp hk with hk | hk
        · exact ⟨f, hk, by simp [hjf, hne.symm]⟩
        · exact ⟨i, hk, by simp [hjf]⟩
      · rw [hlists j hji hjf] at hk
        exact ⟨j, hk, by simp [hji]⟩
  refine ⟨fun {j v} hv => ?_, fun {j} hj => ?_, fun {j j' k} hk hk' => ?_⟩
  · by_cases hji : j = i
    · simp [hji, hnone] at hv
    · by_cases hjf : j = f
      · rw [hjf, htail] at hv
        obtain rfl : t = v := Option.some.inj hv
        rw [hjf, hlistf]
        exact (h.ring hi).splice (h.ring hf) hd ht hu hlinks
      · rw [hlists j hji hjf]
        refine h.ring_of_agree (htails j hji hjf ▸ hv) fun k hk => hlinks k ?_ ?_
        · rintro rfl
          exact hji (h.disjoint hk (h.ring hi).tail_mem)
        · rintro rfl
          exact hjf (h.disjoint hk (h.ring hf).tail_mem)
  · by_cases hji : j = i
    · rw [hji, hlisti]
    · by_cases hjf : j = f
      · simp [hjf, htail] at hj
      · rw [hlists j hji hjf]
        exact h.empty (htails j hji hjf ▸ hj)
  · obtain ⟨a, ha, rfl⟩ := hmem j k hk
    obtain ⟨b, hb, rfl⟩ := hmem j' k hk'
    rw [h.disjoint ha hb]

end Rings

/-! ## No node is lost -/

section Covers

variable [DecidableEq ι]

/-- The first node of a list at the end of another : every node is still in a list. -/
theorem covers_push {rest : List α} (h : ∀ k, ∃ x, k ∈ lists x) (hne : i ≠ f)
    (hf : lists f = key :: rest) (k : α) :
    ∃ x, k ∈ Function.update (Function.update lists f rest) i (lists i ++ [key]) x := by
  obtain ⟨x, hx⟩ := h k
  by_cases hxi : x = i
  · subst hxi
    exact ⟨x, by simp [hx]⟩
  · by_cases hxf : x = f
    · subst hxf
      rw [hf] at hx
      rcases List.mem_cons.mp hx with rfl | hx
      · exact ⟨i, by simp⟩
      · exact ⟨x, by simpa [Function.update_of_ne hxi] using hx⟩
    · exact ⟨x, by simpa [Function.update_of_ne hxi, Function.update_of_ne hxf] using hx⟩

/-- One list behind another : every node is still in a list. -/
theorem covers_splice (h : ∀ k, ∃ x, k ∈ lists x) (hne : i ≠ f) (k : α) :
    ∃ x, k ∈ Function.update (Function.update lists f (lists f ++ lists i)) i [] x := by
  obtain ⟨x, hx⟩ := h k
  by_cases hxi : x = i
  · subst hxi
    exact ⟨f, by simp [Function.update_of_ne hne.symm, hx]⟩
  · by_cases hxf : x = f
    · subst hxf
      exact ⟨x, by simp [Function.update_of_ne hxi, hx]⟩
    · exact ⟨x, by simpa [Function.update_of_ne hxi, Function.update_of_ne hxf] using hx⟩

end Covers

end Cartel.Lib
