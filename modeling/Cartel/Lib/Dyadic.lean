import Mathlib

/-!
# Dyadic blocks

A block of order `k` is `2 ^ k` units from a multiple of `2 ^ k` on. Two blocks are disjoint
or one contains the other (`extent_subset`), and a block and its buddy, the block of the same
order whose first unit differs in bit `k`, make up one block of the next order
(`extent_parent`).

`Tiles` says that a set of blocks covers a region exactly. A tiling in which no two buddies
stand side by side (`Coalesced`) has a block as large as any block that fits the region
(`Tiles.exists_le`).

A `Partition` cuts a region up in free and taken blocks, the free ones coalesced. Four moves
keep it : take a free block, give one back, halve a taken one, and merge a taken one with its
free buddy. What is taken determines what is free (`Partition.mem_free_iff`).
-/

namespace Cartel.Lib.Dyadic

/-- A block : its first unit and its order. -/
abbrev Block := ℕ × ℕ

/-- The units of a block. -/
def extent (b : Block) : Set ℕ :=
  Set.Ico b.1 (b.1 + 2 ^ b.2)

/-- The first unit is a multiple of the size. -/
def Aligned (b : Block) : Prop :=
  2 ^ b.2 ∣ b.1

/-- The first unit of the block of order `k` with the unit `u`. -/
def floor (k u : ℕ) : ℕ :=
  u / 2 ^ k * 2 ^ k

variable {a b : Block} {i j k u n : ℕ} {R S : Set ℕ} {B C : Set Block}

/-! ## Blocks and their units -/

theorem mem_extent : u ∈ extent b ↔ b.1 ≤ u ∧ u < b.1 + 2 ^ b.2 :=
  Iff.rfl

theorem start_mem (b : Block) : b.1 ∈ extent b :=
  ⟨le_rfl, Nat.lt_add_of_pos_right (Nat.two_pow_pos _)⟩

theorem aligned_floor (k u : ℕ) : Aligned (floor k u, k) :=
  Dvd.intro_left _ rfl

theorem mem_floor (k u : ℕ) : u ∈ extent (floor k u, k) := by
  have hmod := Nat.mod_lt u (Nat.two_pow_pos k)
  have hdiv := Nat.div_add_mod' u (2 ^ k)
  rw [mem_extent]
  dsimp only [floor]
  omega

theorem floor_of_dvd (h : 2 ^ k ∣ u) : floor k u = u :=
  Nat.div_mul_cancel h

/-- A unit has one block of each order. -/
theorem floor_eq (hb : Aligned b) (hu : u ∈ extent b) : floor b.2 u = b.1 := by
  obtain ⟨q, hq⟩ := hb
  obtain ⟨hle, hlt⟩ := hu
  rw [hq, mul_comm] at hle hlt
  have hdiv : u / 2 ^ b.2 = q := by
    rw [← Nat.succ_mul] at hlt
    exact Nat.div_eq_of_lt_le hle hlt
  rw [floor, hdiv, hq, mul_comm]

theorem floor_floor (h : j ≤ k) : floor k (floor j u) = floor k u := by
  obtain ⟨d, rfl⟩ := Nat.exists_eq_add_of_le h
  have hpow : 2 ^ (j + d) = 2 ^ j * 2 ^ d := pow_add 2 j d
  unfold floor
  rw [hpow, ← Nat.div_div_eq_div_mul, Nat.mul_div_cancel _ (Nat.two_pow_pos j),
    Nat.div_div_eq_div_mul]

/-- Of two blocks with a unit in common, the larger contains the smaller. -/
theorem extent_subset (ha : Aligned a) (hb : Aligned b) (hua : u ∈ extent a) (hub : u ∈ extent b)
    (hle : a.2 ≤ b.2) : extent a ⊆ extent b := by
  intro v hv
  have hfloor : floor b.2 v = b.1 := by
    rw [← floor_floor hle, floor_eq ha hv, ← floor_eq ha hua, floor_floor hle, floor_eq hb hub]
  have hmem := mem_floor b.2 v
  rwa [hfloor] at hmem

/-! ## Buddies -/

theorem two_pow_mul_xor (k q : ℕ) : q * 2 ^ k ^^^ 2 ^ k = (q ^^^ 1) * 2 ^ k := by
  have h := Nat.shiftLeft_xor_distrib (i := k) (a := q) (b := 1)
  rw [Nat.shiftLeft_eq, Nat.shiftLeft_eq, Nat.shiftLeft_eq, one_mul] at h
  exact h.symm

/-- The buddy is the block next to it, on the side that makes up the block above. -/
theorem buddy_cases (h : 2 ^ k ∣ i) :
    (2 ^ (k + 1) ∣ i ∧ i ^^^ 2 ^ k = i + 2 ^ k) ∨
      ∃ j, 2 ^ (k + 1) ∣ j ∧ i = j + 2 ^ k ∧ i ^^^ 2 ^ k = j := by
  obtain ⟨q, rfl⟩ := h
  rw [mul_comm, two_pow_mul_xor]
  rcases Nat.even_or_odd q with heven | hodd
  · left
    rw [Nat.xor_one_of_even heven, Nat.succ_mul]
    obtain ⟨r, rfl⟩ := heven.two_dvd
    exact ⟨⟨r, by ring⟩, rfl⟩
  · right
    rw [Nat.xor_one_of_odd hodd]
    obtain ⟨r, rfl⟩ := hodd
    exact ⟨2 * r * 2 ^ k, ⟨r, by ring⟩, by ring, by rw [Nat.add_sub_cancel]⟩

theorem buddy_buddy (i k : ℕ) : i ^^^ 2 ^ k ^^^ 2 ^ k = i := by
  rw [Nat.xor_assoc, Nat.xor_self, Nat.xor_zero]

theorem buddy_ne (h : 2 ^ k ∣ i) : i ^^^ 2 ^ k ≠ i := by
  have hpos := Nat.two_pow_pos k
  rcases buddy_cases h with ⟨-, hbuddy⟩ | ⟨j, -, rfl, hbuddy⟩ <;> omega

theorem aligned_buddy (h : 2 ^ k ∣ i) : 2 ^ k ∣ i ^^^ 2 ^ k := by
  rcases buddy_cases h with ⟨-, hbuddy⟩ | ⟨j, hj, -, hbuddy⟩
  · rw [hbuddy]
    exact Nat.dvd_add h (dvd_refl _)
  · rw [hbuddy]
    exact (pow_dvd_pow 2 (Nat.le_succ k)).trans hj

/-- The upper half of a block is the buddy of its lower half. -/
theorem buddy_upper (h : 2 ^ (k + 1) ∣ i) : (i + 2 ^ k) ^^^ 2 ^ k = i := by
  have hk : 2 ^ k ∣ i := (pow_dvd_pow 2 (Nat.le_succ k)).trans h
  rcases buddy_cases hk with ⟨-, hbuddy⟩ | ⟨j, hj, hi, -⟩
  · rw [← hbuddy, buddy_buddy]
  · rw [hi] at h
    have hdvd := (Nat.dvd_add_right hj).mp h
    have hle := Nat.le_of_dvd (Nat.two_pow_pos k) hdvd
    have hlt := Nat.pow_lt_pow_right (a := 2) (by omega) (Nat.lt_succ_self k)
    omega

theorem extent_halves (i k : ℕ) : extent (i, k + 1) = extent (i, k) ∪ extent (i + 2 ^ k, k) := by
  ext u
  have hpow : 2 ^ (k + 1) = 2 ^ k + 2 ^ k := by ring
  simp only [Set.mem_union, mem_extent, hpow]
  omega

theorem disjoint_halves (i k : ℕ) : Disjoint (extent (i, k)) (extent (i + 2 ^ k, k)) := by
  rw [Set.disjoint_left]
  rintro u ⟨-, hlt⟩ ⟨hle, -⟩
  exact absurd hle (not_le.mpr hlt)

/-- The block above starts with the lower of the two buddies. -/
theorem aligned_parent (h : 2 ^ k ∣ i) : 2 ^ (k + 1) ∣ min i (i ^^^ 2 ^ k) := by
  rcases buddy_cases h with ⟨hi, hbuddy⟩ | ⟨j, hj, rfl, hbuddy⟩
  · rwa [hbuddy, min_eq_left (Nat.le_add_right _ _)]
  · rwa [hbuddy, min_eq_right (Nat.le_add_right _ _)]

theorem extent_parent (h : 2 ^ k ∣ i) :
    extent (min i (i ^^^ 2 ^ k), k + 1) = extent (i, k) ∪ extent (i ^^^ 2 ^ k, k) := by
  rcases buddy_cases h with ⟨hi, hbuddy⟩ | ⟨j, hj, rfl, hbuddy⟩
  · rw [hbuddy, min_eq_left (Nat.le_add_right _ _), extent_halves]
  · rw [hbuddy, min_eq_right (Nat.le_add_right _ _), extent_halves, Set.union_comm]

theorem disjoint_buddy (h : 2 ^ k ∣ i) : Disjoint (extent (i, k)) (extent (i ^^^ 2 ^ k, k)) := by
  rcases buddy_cases h with ⟨hi, hbuddy⟩ | ⟨j, hj, rfl, hbuddy⟩
  · rw [hbuddy]
    exact disjoint_halves i k
  · rw [hbuddy]
    exact (disjoint_halves j k).symm

/-- The block of a unit and its buddy make up the block above of that unit. -/
theorem floor_succ (k u : ℕ) : floor (k + 1) u = min (floor k u) (floor k u ^^^ 2 ^ k) := by
  have hdvd : 2 ^ k ∣ floor k u := aligned_floor k u
  have hmem : u ∈ extent (min (floor k u) (floor k u ^^^ 2 ^ k), k + 1) := by
    rw [extent_parent hdvd]
    exact Or.inl (mem_floor k u)
  exact floor_eq (b := (_, k + 1)) (aligned_parent hdvd) hmem

theorem floor_xor (k u : ℕ) : floor k (u ^^^ 2 ^ k) = floor k u ^^^ 2 ^ k := by
  have hself : 2 ^ k / 2 ^ k = 1 := Nat.div_self (Nat.two_pow_pos k)
  unfold floor
  rw [Nat.xor_div_two_pow, hself, two_pow_mul_xor]

/-- Clearing the low bits of a machine word gives the block it lies in. -/
theorem and_mask (hk : k ≤ n) (hu : u < 2 ^ n) :
    u &&& (2 ^ n - 1 ^^^ (2 ^ k - 1)) = floor k u := by
  apply Nat.eq_of_testBit_eq
  intro bit
  rw [floor, Nat.testBit_and, Nat.testBit_xor, Nat.testBit_two_pow_sub_one,
    Nat.testBit_two_pow_sub_one, Nat.testBit_mul_two_pow, Nat.testBit_div_two_pow]
  by_cases hlow : bit < k
  · simp [hlow, show bit < n by omega]
  · by_cases hhigh : bit < n
    · simp [hlow, hhigh, show k ≤ bit by omega]
    · have hzero : u.testBit bit = false :=
        Nat.testBit_lt_two_pow (hu.trans_le (Nat.pow_le_pow_right (by omega) (by omega)))
      simp [hlow, hhigh, show k ≤ bit by omega, hzero]

/-! ## Tilings -/

/-- The blocks of `B` cover the region `R`, each unit once. -/
structure Tiles (R : Set ℕ) (B : Set Block) : Prop where
  aligned : ∀ {b}, b ∈ B → Aligned b
  within : ∀ {b}, b ∈ B → extent b ⊆ R
  cover : ∀ {u}, u ∈ R → ∃ b ∈ B, u ∈ extent b
  unique : ∀ {a b u}, a ∈ B → b ∈ B → u ∈ extent a → u ∈ extent b → a = b

namespace Tiles

theorem empty : Tiles ∅ ∅ :=
  ⟨fun h => absurd h (Set.notMem_empty _), fun h => absurd h (Set.notMem_empty _),
    fun h => absurd h (Set.notMem_empty _), fun h => absurd h (Set.notMem_empty _)⟩

theorem notMem (h : Tiles R B) (hu : u ∉ R) (k : ℕ) : (u, k) ∉ B :=
  fun hmem => hu (h.within hmem (start_mem (u, k)))

theorem disjoint (h : Tiles R B) (ha : a ∈ B) (hb : b ∈ B) (hne : a ≠ b) :
    Disjoint (extent a) (extent b) :=
  Set.disjoint_left.mpr fun _ hua hub => hne (h.unique ha hb hua hub)

theorem union (h : Tiles R B) (h' : Tiles S C) (hd : Disjoint R S) : Tiles (R ∪ S) (B ∪ C) where
  aligned := fun hb => hb.elim h.aligned h'.aligned
  within := fun hb => hb.elim (fun hb => (h.within hb).trans Set.subset_union_left)
    fun hb => (h'.within hb).trans Set.subset_union_right
  cover := fun hu => by
    rcases hu with hu | hu
    · obtain ⟨b, hb, hmem⟩ := h.cover hu
      exact ⟨b, Or.inl hb, hmem⟩
    · obtain ⟨b, hb, hmem⟩ := h'.cover hu
      exact ⟨b, Or.inr hb, hmem⟩
  unique := fun {a b u} ha hb hua hub => by
    have hapart : u ∈ R → u ∉ S := fun hR hS => Set.disjoint_left.mp hd hR hS
    rcases ha with ha | ha <;> rcases hb with hb | hb
    · exact h.unique ha hb hua hub
    · exact absurd (h'.within hb hub) (hapart (h.within ha hua))
    · exact absurd (h'.within ha hua) (hapart (h.within hb hub))
    · exact h'.unique ha hb hua hub

theorem singleton (hb : Aligned b) : Tiles (extent b) {b} where
  aligned := by
    rintro _ rfl
    exact hb
  within := by
    rintro _ rfl
    exact subset_rfl
  cover := fun hu => ⟨b, rfl, hu⟩
  unique := by
    rintro _ _ _ rfl rfl - -
    rfl

/-- Add a block beside the region. -/
theorem add (h : Tiles R B) (hb : Aligned b) (hd : Disjoint R (extent b)) :
    Tiles (R ∪ extent b) (insert b B) := by
  rw [Set.insert_eq, Set.union_comm {b}]
  exact h.union (singleton hb) hd

/-- Take a block away. -/
theorem erase (h : Tiles R B) (hb : b ∈ B) : Tiles (R \ extent b) (B \ {b}) where
  aligned := fun ha => h.aligned ha.1
  within := fun {a} ha => Set.subset_sdiff.mpr ⟨h.within ha.1, h.disjoint ha.1 hb ha.2⟩
  cover := fun hu => by
    obtain ⟨a, ha, hmem⟩ := h.cover hu.1
    refine ⟨a, ⟨ha, ?_⟩, hmem⟩
    rintro rfl
    exact hu.2 hmem
  unique := fun ha hb => h.unique ha.1 hb.1

end Tiles

/-! ## Coalesced tilings -/

/-- No two buddies stand side by side. -/
def Coalesced (B : Set Block) : Prop :=
  ∀ ⦃i k⦄, (i, k) ∈ B → (i ^^^ 2 ^ k, k) ∉ B

namespace Coalesced

theorem empty : Coalesced ∅ := fun _ _ h => absurd h (Set.notMem_empty _)

theorem mono (h : Coalesced B) (hsub : C ⊆ B) : Coalesced C :=
  fun _ _ hmem hbuddy => h (hsub hmem) (hsub hbuddy)

theorem add (h : Coalesced B) (hi : 2 ^ k ∣ i) (hbuddy : (i ^^^ 2 ^ k, k) ∉ B) :
    Coalesced (insert (i, k) B) := by
  intro j l hmem hmem'
  rcases Set.mem_insert_iff.mp hmem with heq | hj
  · obtain ⟨rfl, rfl⟩ := Prod.mk.inj heq
    rcases Set.mem_insert_iff.mp hmem' with heq | hj'
    · exact buddy_ne hi (Prod.mk.inj heq).1
    · exact hbuddy hj'
  · rcases Set.mem_insert_iff.mp hmem' with heq | hj'
    · obtain ⟨hx, rfl⟩ := Prod.mk.inj heq
      rw [← hx, buddy_buddy] at hbuddy
      exact hbuddy hj
    · exact h hj hj'

end Coalesced

/-- A coalesced tiling has a block as large as any block inside the region, around it. -/
theorem Tiles.exists_le (h : Tiles R B) (hc : Coalesced B) :
    ∀ {k i}, 2 ^ k ∣ i → extent (i, k) ⊆ R → ∃ b ∈ B, k ≤ b.2 ∧ i ∈ extent b
  | 0, i, _, hsub => by
    obtain ⟨b, hb, hmem⟩ := h.cover (hsub (start_mem (i, 0)))
    exact ⟨b, hb, Nat.zero_le _, hmem⟩
  | k + 1, i, hi, hsub => by
    have hk : 2 ^ k ∣ i := (pow_dvd_pow 2 (Nat.le_succ k)).trans hi
    rw [extent_halves] at hsub
    obtain ⟨b, hb, hle, hmem⟩ := h.exists_le hc hk (Set.subset_union_left.trans hsub)
    obtain ⟨c, hb', hle', hmem'⟩ := h.exists_le hc (k := k) (i := i + 2 ^ k)
      (Nat.dvd_add hk (dvd_refl _)) (Set.subset_union_right.trans hsub)
    rcases hle.lt_or_eq with hlt | heq
    · exact ⟨b, hb, hlt, hmem⟩
    have hstart : b.1 = i := by rw [← floor_eq (h.aligned hb) hmem, ← heq, floor_of_dvd hk]
    rcases hle'.lt_or_eq with hlt' | heq'
    · -- a larger block at the upper half also has the lower half
      refine ⟨c, hb', hlt', ?_⟩
      have hup : i + 2 ^ k ∈ extent (i, k + 1) := by
        rw [extent_halves]
        exact Or.inr (start_mem (i + 2 ^ k, k))
      exact extent_subset (a := (i, k + 1)) hi (h.aligned hb') hup hmem' hlt'
        (start_mem (i, k + 1))
    · have hstart' : c.1 = i + 2 ^ k := by
        rw [← floor_eq (h.aligned hb') hmem', ← heq',
          floor_of_dvd (Nat.dvd_add hk (dvd_refl _))]
      have hb0 : (i, k) ∈ B := by rwa [← hstart, heq]
      have hc0 : (i + 2 ^ k, k) ∈ B := by rwa [← hstart', heq']
      refine absurd hb0 ?_
      rw [← buddy_upper hi]
      exact hc hc0

/-! ## Halves and buddies in a tiling -/

namespace Tiles

/-- Some blocks of a tiling tile what they cover. -/
theorem restrict (h : Tiles R B) (hsub : C ⊆ B) : Tiles {u | ∃ b ∈ C, u ∈ extent b} C where
  aligned := fun hb => h.aligned (hsub hb)
  within := fun {b} hb _ hu => ⟨b, hb, hu⟩
  cover := id
  unique := fun ha hb => h.unique (hsub ha) (hsub hb)

/-- Replace a block by its halves. -/
theorem halve (h : Tiles R B) (hb : (i, k + 1) ∈ B) :
    Tiles R (insert (i + 2 ^ k, k) (insert (i, k) (B \ {(i, k + 1)}))) := by
  have hi : 2 ^ (k + 1) ∣ i := h.aligned hb
  have hk : 2 ^ k ∣ i := (pow_dvd_pow 2 (Nat.le_succ k)).trans hi
  have hsub := h.within hb
  rw [extent_halves] at hsub
  have hout : Disjoint (R \ extent (i, k + 1)) (extent (i, k)) := by
    refine Set.disjoint_sdiff_left.mono_right ?_
    rw [extent_halves]
    exact Set.subset_union_left
  have hout' : Disjoint (R \ extent (i, k + 1) ∪ extent (i, k)) (extent (i + 2 ^ k, k)) := by
    refine Disjoint.union_left (Set.disjoint_sdiff_left.mono_right ?_) (disjoint_halves i k)
    rw [extent_halves]
    exact Set.subset_union_right
  have htiles := ((h.erase hb).add (show Aligned (i, k) from hk) hout).add
    (show Aligned (i + 2 ^ k, k) from Nat.dvd_add hk (dvd_refl _)) hout'
  rwa [Set.union_assoc, ← extent_halves, Set.sdiff_union_of_subset (h.within hb)] at htiles

/-- Replace two buddies by the block they make up. -/
theorem merge (h : Tiles R B) (hb : (i, k) ∈ B) (hbuddy : (i ^^^ 2 ^ k, k) ∈ B) :
    Tiles R (insert (min i (i ^^^ 2 ^ k), k + 1) ((B \ {(i ^^^ 2 ^ k, k)}) \ {(i, k)})) := by
  have hi : 2 ^ k ∣ i := h.aligned hb
  have hne : (i, k) ≠ (i ^^^ 2 ^ k, k) := fun heq => buddy_ne hi (Prod.mk.inj heq).1.symm
  have hparent := extent_parent hi
  have hrest := (h.erase hbuddy).erase ⟨hb, hne⟩
  have hsub : extent (i, k) ∪ extent (i ^^^ 2 ^ k, k) ⊆ R :=
    Set.union_subset (h.within hb) (h.within hbuddy)
  have hregion : (R \ extent (i ^^^ 2 ^ k, k)) \ extent (i, k) =
      R \ extent (min i (i ^^^ 2 ^ k), k + 1) := by
    rw [hparent, Set.sdiff_sdiff, Set.union_comm]
  rw [hregion] at hrest
  have hup : Aligned (min i (i ^^^ 2 ^ k), k + 1) := aligned_parent hi
  have htiles := hrest.add hup Set.disjoint_sdiff_left
  rwa [Set.sdiff_union_of_subset (hparent ▸ hsub)] at htiles

end Tiles

/-! ## Free and taken blocks -/

/-- A region cut up in free and taken blocks, no two free buddies side by side. -/
structure Partition (R : Set ℕ) (F L : Set Block) : Prop where
  tiles : Tiles R (F ∪ L)
  apart : Disjoint F L
  coalesced : Coalesced F

namespace Partition

variable {F L : Set Block}

theorem notMem_taken (h : Partition R F L) (hb : b ∈ F) : b ∉ L :=
  Set.disjoint_left.mp h.apart hb

theorem notMem_free (h : Partition R F L) (hb : b ∈ L) : b ∉ F :=
  Set.disjoint_right.mp h.apart hb

/-- A taken block has no unit of a free one. -/
theorem disjoint (h : Partition R F L) (ha : a ∈ F) (hb : b ∈ L) :
    Disjoint (extent a) (extent b) := by
  refine h.tiles.disjoint (Or.inl ha) (Or.inr hb) ?_
  rintro rfl
  exact h.notMem_taken ha hb

/-- Take a free block. -/
theorem take (h : Partition R F L) (hb : b ∈ F) : Partition R (F \ {b}) (insert b L) where
  tiles := by
    have hunion : F \ {b} ∪ insert b L = F ∪ L := by
      rw [Set.union_insert, ← Set.insert_union, Set.insert_sdiff_singleton,
        Set.insert_eq_of_mem hb]
    rw [hunion]
    exact h.tiles
  apart := by
    rw [Set.disjoint_left]
    rintro a ⟨ha, hne⟩ (rfl | hL)
    · exact hne rfl
    · exact h.notMem_taken ha hL
  coalesced := h.coalesced.mono Set.sdiff_subset

/-- Give a taken block back whose buddy is not free. -/
theorem give (h : Partition R F L) (hb : (i, k) ∈ L) (hbuddy : (i ^^^ 2 ^ k, k) ∉ F) :
    Partition R (insert (i, k) F) (L \ {(i, k)}) where
  tiles := by
    have hunion : insert (i, k) F ∪ L \ {(i, k)} = F ∪ L := by
      rw [Set.insert_union, ← Set.union_insert, Set.insert_sdiff_singleton,
        Set.insert_eq_of_mem hb]
    rw [hunion]
    exact h.tiles
  apart := by
    rw [Set.disjoint_left]
    rintro a (rfl | hF) ⟨hL, hne⟩
    · exact hne rfl
    · exact h.notMem_taken hF hL
  coalesced := h.coalesced.add (h.tiles.aligned (Or.inr hb)) hbuddy

/-- Halve a taken block, and give the upper half back. -/
theorem halve (h : Partition R F L) (hb : (i, k + 1) ∈ L) :
    Partition R (insert (i + 2 ^ k, k) F) (insert (i, k) (L \ {(i, k + 1)})) := by
  have hi : 2 ^ (k + 1) ∣ i := h.tiles.aligned (Or.inr hb)
  have hfree := h.notMem_free hb
  -- neither half is a block yet, the whole covers them
  have hhalf : ∀ {j}, extent (j, k) ⊆ extent (i, k + 1) → (j, k) ∉ F ∪ L := fun {j} hsub hmem => by
    have heq := h.tiles.unique hmem (Or.inr hb) (start_mem (j, k)) (hsub (start_mem (j, k)))
    exact absurd (Prod.mk.inj heq).2 (by omega)
  have hlower : (i, k) ∉ F ∪ L := hhalf (by rw [extent_halves]; exact Set.subset_union_left)
  have hupper : (i + 2 ^ k, k) ∉ F ∪ L :=
    hhalf (by rw [extent_halves]; exact Set.subset_union_right)
  refine ⟨?_, ?_, ?_⟩
  · have hunion : insert (i + 2 ^ k, k) F ∪ insert (i, k) (L \ {(i, k + 1)}) =
        insert (i + 2 ^ k, k) (insert (i, k) ((F ∪ L) \ {(i, k + 1)})) := by
      rw [Set.insert_union, Set.union_insert, Set.union_sdiff_distrib,
        Set.sdiff_singleton_eq_self hfree]
    rw [hunion]
    exact h.tiles.halve (Or.inr hb)
  · rw [Set.disjoint_left]
    rintro a (rfl | hF) (heq | hL)
    · have hpos := Nat.two_pow_pos k
      have heq := (Prod.mk.inj heq).1
      omega
    · exact hupper (Or.inr hL.1)
    · exact hlower (Or.inl (heq ▸ hF))
    · exact h.notMem_taken hF hL.1
  · have hk : 2 ^ k ∣ i := (pow_dvd_pow 2 (Nat.le_succ k)).trans hi
    refine h.coalesced.add (Nat.dvd_add hk (dvd_refl _)) ?_
    rw [buddy_upper hi]
    exact fun hF => hlower (Or.inl hF)

/-- Merge a taken block with its free buddy. -/
theorem merge (h : Partition R F L) (hb : (i, k) ∈ L) (hbuddy : (i ^^^ 2 ^ k, k) ∈ F) :
    Partition R (F \ {(i ^^^ 2 ^ k, k)})
      (insert (min i (i ^^^ 2 ^ k), k + 1) (L \ {(i, k)})) := by
  have hi : 2 ^ k ∣ i := h.tiles.aligned (Or.inr hb)
  have hL := h.notMem_taken hbuddy
  have hF := h.notMem_free hb
  refine ⟨?_, ?_, h.coalesced.mono Set.sdiff_subset⟩
  · have hunion : F \ {(i ^^^ 2 ^ k, k)} ∪ insert (min i (i ^^^ 2 ^ k), k + 1) (L \ {(i, k)}) =
        insert (min i (i ^^^ 2 ^ k), k + 1) (((F ∪ L) \ {(i ^^^ 2 ^ k, k)}) \ {(i, k)}) := by
      have hsdiff : (F ∪ L) \ {(i ^^^ 2 ^ k, k)} = F \ {(i ^^^ 2 ^ k, k)} ∪ L := by
        rw [Set.union_sdiff_distrib, Set.sdiff_singleton_eq_self hL]
      have hself : (F \ {(i ^^^ 2 ^ k, k)}) \ {(i, k)} = F \ {(i ^^^ 2 ^ k, k)} :=
        Set.sdiff_singleton_eq_self fun hmem => hF hmem.1
      rw [hsdiff, Set.union_sdiff_distrib, hself, Set.union_insert]
    rw [hunion]
    exact h.tiles.merge (Or.inr hb) (Or.inl hbuddy)
  · rw [Set.disjoint_left]
    rintro a ⟨hfree, -⟩ (rfl | hmem)
    · -- the block above has a unit of the taken one
      have hu : i ∈ extent (min i (i ^^^ 2 ^ k), k + 1) := by
        rw [extent_parent hi]
        exact Or.inl (start_mem (i, k))
      have heq := h.tiles.unique (Or.inl hfree) (Or.inr hb) hu (start_mem (i, k))
      exact absurd (Prod.mk.inj heq).2 (by omega)
    · exact h.notMem_taken hfree hmem.1

/-- A unit is in a free block exactly if it is in no taken one. -/
theorem mem_free_iff (h : Partition R F L) :
    (∃ b ∈ F, u ∈ extent b) ↔ u ∈ R ∧ ¬ ∃ b ∈ L, u ∈ extent b := by
  constructor
  · rintro ⟨b, hb, hu⟩
    refine ⟨h.tiles.within (Or.inl hb) hu, ?_⟩
    rintro ⟨c, hc, hu'⟩
    exact Set.disjoint_left.mp (h.disjoint hb hc) hu hu'
  · rintro ⟨hR, hnot⟩
    obtain ⟨b, hb | hb, hu⟩ := h.tiles.cover hR
    · exact ⟨b, hb, hu⟩
    · exact absurd ⟨b, hb, hu⟩ hnot

/-- The free blocks tile what is not taken. -/
theorem free (h : Partition R F L) : Tiles {u | u ∈ R ∧ ¬ ∃ b ∈ L, u ∈ extent b} F := by
  have hregion : {u | ∃ b ∈ F, u ∈ extent b} = {u | u ∈ R ∧ ¬ ∃ b ∈ L, u ∈ extent b} :=
    Set.ext fun u => h.mem_free_iff
  rw [← hregion]
  exact h.tiles.restrict Set.subset_union_left

/-- Around a block of which nothing is taken there is a free one. -/
theorem exists_free (h : Partition R F L) (hi : 2 ^ k ∣ i) (hR : extent (i, k) ⊆ R)
    (hL : ∀ b ∈ L, Disjoint (extent (i, k)) (extent b)) :
    ∃ b ∈ F, k ≤ b.2 ∧ i ∈ extent b := by
  refine h.free.exists_le h.coalesced hi fun u hu => ⟨hR hu, ?_⟩
  rintro ⟨b, hb, hmem⟩
  exact Set.disjoint_left.mp (hL b hb) hu hmem

/-- The free blocks are the largest blocks of which nothing is taken. -/
theorem mem_iff (h : Partition R F L) :
    (i, k) ∈ F ↔ 2 ^ k ∣ i ∧
      (∀ u ∈ extent (i, k), u ∈ R ∧ ¬ ∃ b ∈ L, u ∈ extent b) ∧
      ¬ ∀ u ∈ extent (floor (k + 1) i, k + 1), u ∈ R ∧ ¬ ∃ b ∈ L, u ∈ extent b := by
  constructor
  · intro hmem
    have hi : 2 ^ k ∣ i := h.free.aligned hmem
    refine ⟨hi, fun u hu => h.free.within hmem hu, fun hparent => ?_⟩
    -- a free block around the one above would have its units
    obtain ⟨c, hc, hle, hstart⟩ := h.free.exists_le h.coalesced
      (aligned_floor (k + 1) i) fun u hu => hparent u hu
    have hsub := extent_subset (show Aligned (floor (k + 1) i, k + 1) from aligned_floor (k + 1) i)
      (h.free.aligned hc) (start_mem _) hstart hle
    have heq := h.free.unique hmem hc (start_mem (i, k)) (hsub (mem_floor (k + 1) i))
    have horder : k + 1 ≤ k := hle.trans (congrArg Prod.snd heq).ge
    omega
  · rintro ⟨hi, hfree, hparent⟩
    obtain ⟨c, hc, hle, hmem⟩ := h.free.exists_le h.coalesced hi fun u hu => hfree u hu
    rcases hle.lt_or_eq with hlt | heq
    · refine absurd (fun u hu => h.free.within hc ?_) hparent
      exact extent_subset (show Aligned (floor (k + 1) i, k + 1) from aligned_floor (k + 1) i)
        (h.free.aligned hc) (mem_floor (k + 1) i) hmem hlt hu
    · have hstart : c.1 = i := by rw [← floor_eq (h.free.aligned hc) hmem, ← heq, floor_of_dvd hi]
      have hc' : c = (i, k) := Prod.ext hstart heq.symm
      rwa [← hc']

end Partition

end Cartel.Lib.Dyadic
