import Mathlib.Data.List.Chain
import Mathlib.Data.List.Range
import Mathlib.Logic.Relation

/-!
# Reordering by exchanges

Two neighbours are exchanged when the second has a rank, and a smaller one than the first
(`Exchanges`). A list without such neighbours is settled. Every list settles to exactly one
list (`eq_reorder`) : the elements of rank zero stay where they are, and between them the
others are sorted by rank, stable among equals. `reorder` computes it by insertion. A run
with no inner element of rank zero is reordered by counting (`buckets_eq_reorder`).
-/

namespace Cartel.Lib

variable {α : Type*} (rank : α → ℕ)

/-! ## Exchanges -/

/-- One exchange of neighbours. -/
def Exchanges (xs ys : List α) : Prop :=
  ∃ front a b back, xs = front ++ a :: b :: back ∧ ys = front ++ b :: a :: back ∧
    0 < rank b ∧ rank b < rank a

/-- No neighbours to exchange. -/
def Settled (xs : List α) : Prop :=
  xs.IsChain fun a b => rank b = 0 ∨ rank a ≤ rank b

instance (xs : List α) : Decidable (Settled rank xs) :=
  inferInstanceAs (Decidable (List.IsChain ..))

/-- Moves an element behind those it is exchanged with. -/
def settle (a : α) : List α → List α
  | [] => [a]
  | b :: rest => if 0 < rank b ∧ rank b < rank a then b :: settle a rest else a :: b :: rest

/-- The settled list. -/
def reorder : List α → List α
  | [] => []
  | a :: rest => settle rank a (reorder rest)

variable {rank}

theorem Exchanges.cons {xs ys : List α} (a : α) (h : Exchanges rank xs ys) :
    Exchanges rank (a :: xs) (a :: ys) := by
  obtain ⟨front, b, c, back, rfl, rfl, hrank⟩ := h
  exact ⟨a :: front, b, c, back, rfl, rfl, hrank⟩

theorem exchanges_cons {xs ys : List α} (a : α)
    (h : Relation.ReflTransGen (Exchanges rank) xs ys) :
    Relation.ReflTransGen (Exchanges rank) (a :: xs) (a :: ys) := by
  induction h with
  | refl => exact .refl
  | tail _ hstep ih => exact ih.tail (hstep.cons a)

theorem exchanges_settle (a : α) : ∀ xs : List α,
    Relation.ReflTransGen (Exchanges rank) (a :: xs) (settle rank a xs)
  | [] => .refl
  | b :: rest => by
    rw [settle]
    split_ifs with h
    · exact .head ⟨[], a, b, rest, rfl, rfl, h⟩ (exchanges_cons b (exchanges_settle a rest))
    · exact .refl

/-- A list is reordered by exchanges. -/
theorem exchanges_reorder : ∀ xs : List α,
    Relation.ReflTransGen (Exchanges rank) xs (reorder rank xs)
  | [] => .refl
  | a :: rest => (exchanges_cons a (exchanges_reorder rest)).trans (exchanges_settle a _)

/-! ## The settled list -/

theorem settled_cons_settle {a b : α} (hab : rank b = 0 ∨ rank a ≤ rank b) {xs : List α}
    (h : Settled rank (a :: xs)) : Settled rank (a :: settle rank b xs) := by
  induction xs generalizing a with
  | nil => exact List.isChain_pair.mpr hab
  | cons c rest ih =>
    obtain ⟨hac, hrest⟩ := List.isChain_cons_cons.mp h
    rw [settle]
    split_ifs with hrank
    · exact List.isChain_cons_cons.mpr ⟨hac, ih (Or.inr hrank.2.le) hrest⟩
    · refine List.isChain_cons_cons.mpr ⟨hab, List.isChain_cons_cons.mpr ⟨?_, hrest⟩⟩
      omega

theorem settled_settle (a : α) {xs : List α} (h : Settled rank xs) :
    Settled rank (settle rank a xs) := by
  cases xs with
  | nil => exact List.isChain_singleton a
  | cons b rest =>
    rw [settle]
    split_ifs with hrank
    · exact settled_cons_settle (Or.inr hrank.2.le) h
    · refine List.isChain_cons_cons.mpr ⟨?_, h⟩
      omega

theorem settled_reorder : ∀ xs : List α, Settled rank (reorder rank xs)
  | [] => .nil
  | a :: rest => settled_settle a (settled_reorder rest)

/-- A settled list stays as it is. -/
theorem reorder_of_settled {xs : List α} (h : Settled rank xs) : reorder rank xs = xs := by
  induction xs with
  | nil => rfl
  | cons a rest ih =>
    rw [reorder, ih h.tail]
    cases rest with
    | nil => rfl
    | cons b rest =>
      have hab := (List.isChain_cons_cons.mp h).1
      exact if_neg (by omega)

/-- Two elements that are exchanged settle in either order. -/
theorem settle_comm {a b : α} (hb : 0 < rank b) (hab : rank b < rank a) : ∀ xs : List α,
    settle rank a (settle rank b xs) = settle rank b (settle rank a xs)
  | [] => by
    change (if _ then b :: settle rank a [] else _) = (if _ then a :: settle rank b [] else _)
    rw [if_pos ⟨hb, hab⟩, if_neg (by omega)]
    rfl
  | c :: rest => by
    have ih := settle_comm hb hab rest
    by_cases hcb : 0 < rank c ∧ rank c < rank b
    · have hca : 0 < rank c ∧ rank c < rank a := ⟨hcb.1, by omega⟩
      rw [settle, if_pos hcb, settle, if_pos hca, settle, if_pos hca, settle, if_pos hcb, ih]
    · rw [settle, if_neg hcb, settle, if_pos ⟨hb, hab⟩, settle]
      split_ifs with hca
      · rw [settle, if_neg hcb]
      · rw [settle, if_neg (by omega)]

theorem reorder_of_exchanges {xs ys : List α} (h : Exchanges rank xs ys) :
    reorder rank xs = reorder rank ys := by
  obtain ⟨front, a, b, back, rfl, rfl, hb, hab⟩ := h
  induction front with
  | nil => exact settle_comm hb hab _
  | cons c front ih => exact congrArg (settle rank c) ih

/-- Whatever the exchanges, a list that is settled in the end is the reordered one. -/
theorem eq_reorder {xs ys : List α} (h : Relation.ReflTransGen (Exchanges rank) xs ys)
    (hys : Settled rank ys) : ys = reorder rank xs := by
  have hreorder : reorder rank xs = reorder rank ys := by
    clear hys
    induction h with
    | refl => rfl
    | tail _ hstep ih => exact ih.trans (reorder_of_exchanges hstep)
  rw [hreorder, reorder_of_settled hys]

theorem length_settle (a : α) (xs : List α) : (settle rank a xs).length = xs.length + 1 := by
  induction xs with
  | nil => rfl
  | cons b xs ih =>
    rw [settle]
    split_ifs
    · rw [List.length_cons, ih, List.length_cons]
    · rfl

@[simp] theorem length_reorder (xs : List α) : (reorder rank xs).length = xs.length := by
  induction xs with
  | nil => rfl
  | cons a xs ih => rw [reorder, length_settle, ih, List.length_cons]

/-! ## Runs -/

theorem settle_append {a s : α} (hs : rank s = 0) (xs ys : List α) :
    settle rank a (xs ++ s :: ys) = settle rank a xs ++ s :: ys := by
  induction xs with
  | nil => exact if_neg (by omega)
  | cons b xs ih =>
    rw [List.cons_append, settle, settle, ih]
    split_ifs <;> rfl

/-- An element of rank zero stays in front. -/
theorem reorder_cons_zero {s : α} (hs : rank s = 0) (ys : List α) :
    ∃ rest, reorder rank (s :: ys) = s :: rest := by
  rw [reorder]
  cases reorder rank ys with
  | nil => exact ⟨[], rfl⟩
  | cons b rest => exact ⟨b :: rest, if_neg (by omega)⟩

/-- Nothing moves across an element of rank zero. -/
theorem reorder_append {s : α} (hs : rank s = 0) (xs ys : List α) :
    reorder rank (xs ++ s :: ys) = reorder rank xs ++ reorder rank (s :: ys) := by
  obtain ⟨rest, hrest⟩ := reorder_cons_zero hs ys
  induction xs with
  | nil => rfl
  | cons a xs ih =>
    rw [List.cons_append, reorder, ih, hrest, settle_append hs]
    rfl

/-- An element settles in front of the first that is not below it. -/
theorem settle_above {a : α} {xs ys : List α} (hxs : ∀ x ∈ xs, 0 < rank x ∧ rank x < rank a)
    (hys : ∀ y ∈ ys, rank a ≤ rank y) : settle rank a (xs ++ ys) = xs ++ a :: ys := by
  induction xs with
  | nil =>
    cases ys with
    | nil => rfl
    | cons y ys =>
      have hy := hys y List.mem_cons_self
      exact if_neg (by omega)
  | cons x xs ih =>
    rw [List.cons_append, settle, if_pos (hxs x List.mem_cons_self),
      ih fun x hx => hxs x (List.mem_cons_of_mem _ hx)]
    rfl

/-! ## Counting -/

variable (rank)

/-- The elements of one rank. -/
def ofRank (k : ℕ) (xs : List α) : List α :=
  xs.filter fun x => rank x = k

/-- The elements of the ranks below `count`, rank by rank. -/
def buckets (count : ℕ) (xs : List α) : List α :=
  (List.range count).flatMap fun k => ofRank rank k xs

variable {rank}

theorem buckets_succ (count : ℕ) (xs : List α) :
    buckets rank (count + 1) xs = buckets rank count xs ++ ofRank rank count xs := by
  unfold buckets
  rw [List.range_succ, List.flatMap_append, List.flatMap_singleton]

theorem buckets_nil (count : ℕ) : buckets rank count ([] : List α) = [] :=
  List.flatMap_eq_nil_iff.mpr fun _ _ => rfl

theorem mem_ofRank {k : ℕ} {xs : List α} {x : α} : x ∈ ofRank rank k xs ↔ x ∈ xs ∧ rank x = k := by
  rw [ofRank, List.mem_filter, decide_eq_true_iff]

theorem mem_buckets {count : ℕ} {xs : List α} {x : α} :
    x ∈ buckets rank count xs ↔ x ∈ xs ∧ rank x < count := by
  unfold buckets
  rw [List.mem_flatMap]
  constructor
  · rintro ⟨k, hk, hx⟩
    obtain ⟨hmem, hrank⟩ := mem_ofRank.mp hx
    exact ⟨hmem, hrank ▸ List.mem_range.mp hk⟩
  · rintro ⟨hx, hlt⟩
    exact ⟨rank x, List.mem_range.mpr hlt, mem_ofRank.mpr ⟨hx, rfl⟩⟩

theorem buckets_cons_of_le {count : ℕ} {a : α} (h : count ≤ rank a) (xs : List α) :
    buckets rank count (a :: xs) = buckets rank count xs := by
  induction count with
  | zero => rfl
  | succ count ih =>
    rw [buckets_succ, buckets_succ, ih (by omega)]
    exact congrArg _ (List.filter_cons_of_neg (by simpa using (by omega : rank a ≠ count)))

/-- A new element of some rank comes in front of the others of its rank. -/
theorem buckets_cons (count : ℕ) (a : α) (xs : List α) (ha : rank a < count) :
    ∃ above, buckets rank count xs = buckets rank (rank a) xs ++ above ∧
      buckets rank count (a :: xs) = buckets rank (rank a) xs ++ a :: above ∧
      ∀ x ∈ above, rank a ≤ rank x := by
  induction count, ha using Nat.le_induction with
  | base =>
    refine ⟨ofRank rank (rank a) xs, buckets_succ .., ?_, fun x hx => (mem_ofRank.mp hx).2.ge⟩
    rw [buckets_succ, buckets_cons_of_le le_rfl]
    exact congrArg _ (List.filter_cons_of_pos (by simp))
  | succ count hcount ih =>
    obtain ⟨above, hxs, hcons, habove⟩ := ih
    refine ⟨above ++ ofRank rank count xs, ?_, ?_, ?_⟩
    · rw [buckets_succ, hxs, List.append_assoc]
    · rw [buckets_succ, hcons, List.append_assoc, List.cons_append]
      exact congrArg _ (congrArg _ (congrArg _
        (List.filter_cons_of_neg (by simpa using (by omega : rank a ≠ count)))))
    · intro x hx
      rcases List.mem_append.mp hx with hx | hx
      · exact habove x hx
      · rw [(mem_ofRank.mp hx).2]
        omega

variable (rank) in
theorem length_buckets_le (count : ℕ) (xs : List α) :
    (buckets rank count xs).length ≤ xs.length := by
  induction xs with
  | nil => rw [buckets_nil]
  | cons a xs ih =>
    rcases Nat.lt_or_ge (rank a) count with hlt | hge
    · obtain ⟨above, hxs, hcons, -⟩ := buckets_cons count a xs hlt
      rw [hxs, List.length_append] at ih
      rw [hcons, List.length_append, List.length_cons, List.length_cons]
      omega
    · rw [buckets_cons_of_le hge, List.length_cons]
      omega

theorem length_buckets {count : ℕ} {xs : List α} (h : ∀ x ∈ xs, rank x < count) :
    (buckets rank count xs).length = xs.length := by
  induction xs with
  | nil => rw [buckets_nil]
  | cons a xs ih =>
    obtain ⟨above, hxs, hcons, -⟩ := buckets_cons count a xs (h a List.mem_cons_self)
    have hlen := ih fun x hx => h x (List.mem_cons_of_mem _ hx)
    rw [hxs, List.length_append] at hlen
    rw [hcons, List.length_append, List.length_cons, List.length_cons]
    omega

/-- Counting reorders a run. -/
theorem buckets_eq_reorder {count : ℕ} {xs : List α} (hcount : ∀ x ∈ xs, rank x < count)
    (hrun : ∀ x ∈ xs.tail, rank x ≠ 0) : buckets rank count xs = reorder rank xs := by
  induction xs with
  | nil => exact buckets_nil count
  | cons a xs ih =>
    rw [List.tail_cons] at hrun
    obtain ⟨above, hxs, hcons, habove⟩ := buckets_cons count a xs (hcount a List.mem_cons_self)
    rw [reorder, ← ih (fun x hx => hcount x (List.mem_cons_of_mem _ hx))
      (fun x hx => hrun x (List.mem_of_mem_tail hx)), hxs, hcons, settle_above _ habove]
    intro x hx
    obtain ⟨hx, hlt⟩ := mem_buckets.mp hx
    exact ⟨Nat.pos_of_ne_zero (hrun x hx), hlt⟩

/-- Every place is in one bucket. -/
theorem exists_bucket {count i : ℕ} {xs : List α} (h : i < (buckets rank count xs).length) :
    ∃ k j, k < count ∧ j < (ofRank rank k xs).length ∧ i = (buckets rank k xs).length + j := by
  induction count with
  | zero => exact absurd h (Nat.not_lt_zero i)
  | succ count ih =>
    rw [buckets_succ, List.length_append] at h
    rcases Nat.lt_or_ge i (buckets rank count xs).length with hlt | hge
    · obtain ⟨k, j, hk, hj, hi⟩ := ih hlt
      exact ⟨k, j, by omega, hj, hi⟩
    · exact ⟨count, i - (buckets rank count xs).length, by omega, by omega, by omega⟩

/-- The element at a place of a bucket. -/
theorem getElem?_buckets {count k j : ℕ} {xs : List α} (hk : k < count)
    (hj : j < (ofRank rank k xs).length) :
    (buckets rank count xs)[(buckets rank k xs).length + j]? = (ofRank rank k xs)[j]? := by
  induction count, hk using Nat.le_induction with
  | base => rw [buckets_succ, List.getElem?_append_right (by omega), Nat.add_sub_cancel_left]
  | succ count hcount ih =>
    rw [buckets_succ, List.getElem?_append_left, ih]
    by_contra hge
    rw [List.getElem?_eq_none (by omega), List.getElem?_eq_getElem hj] at ih
    exact absurd ih (by simp)

theorem ofRank_snoc (k : ℕ) (xs : List α) (a : α) :
    ofRank rank k (xs ++ [a]) = ofRank rank k xs ++ if rank a = k then [a] else [] := by
  unfold ofRank
  rw [List.filter_append]
  split_ifs with h
  · rw [List.filter_cons_of_pos (by simpa using h), List.filter_nil]
  · rw [List.filter_cons_of_neg (by simpa using h), List.filter_nil]

/-- Buckets do not overlap. -/
theorem bucket_inj {xs : List α} {k k' j j' : ℕ}
    (hj : j < (ofRank rank k xs).length) (hj' : j' < (ofRank rank k' xs).length)
    (h : (buckets rank k xs).length + j = (buckets rank k' xs).length + j') : k = k' := by
  have hmono : ∀ {a b : ℕ}, a < b →
      (buckets rank a xs).length + (ofRank rank a xs).length ≤ (buckets rank b xs).length := by
    intro a b hab
    induction b, hab using Nat.le_induction with
    | base => rw [buckets_succ, List.length_append]
    | succ b hb ih =>
      rw [buckets_succ, List.length_append]
      omega
  rcases Nat.lt_trichotomy k k' with hlt | heq | hgt
  · have hle := hmono hlt
    omega
  · exact heq
  · have hle := hmono hgt
    omega

end Cartel.Lib
