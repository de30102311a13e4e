import Cartel.Heap.Lists
import Cartel.Lib.Dyadic

/-!
# Free and taken blocks

`Holds` says that the free lists of an arena are a set `F` of blocks and that, with the taken
blocks `L`, they partition its units. Each edit of the lists is one of the moves of a partition,
and reserving, recycling and absorbing buddies are runs of these moves. A block on its way
between the two counts as taken.
-/

namespace Cartel.Sqlite.Heap

open Cartel.Lib (load store)
open Cartel.Lib.Dyadic (Block extent Partition Tiles Aligned Coalesced extent_halves
  extent_parent extent_subset start_mem mem_extent floor mem_floor floor_of_dvd aligned_floor
  floor_succ floor_xor buddy_ne aligned_buddy and_mask)

variable {M : Type}

/-! ## Sets of blocks -/

/-- The blocks on some lists. -/
def blocks (lists : Level → List ℕ) : Set Block :=
  {b | ∃ k : Level, k.val = b.2 ∧ b.1 ∈ lists k}

/-- The units of some blocks. -/
def units (B : Set Block) : Set ℕ :=
  {u | ∃ b ∈ B, u ∈ extent b}

/-- The units of an arena. -/
def Arena.region (arena : Arena M) : Set ℕ :=
  Set.Ico 0 arena.units

variable {arena arena' arena'' : Arena M} {F F' L B C : Set Block} {lists : Level → List ℕ}
  {i j u : ℕ} {k : Level} {o n : ℕ} {b : Block} {cells touched : Set ℕ}

theorem mem_blocks : (i, k.val) ∈ blocks lists ↔ i ∈ lists k := by
  refine ⟨fun ⟨j, hj, hmem⟩ => ?_, fun h => ⟨k, rfl, h⟩⟩
  rwa [Fin.ext hj] at hmem

theorem starts_subset : Lists.starts lists ⊆ units (blocks lists) :=
  fun u ⟨k, hk⟩ => ⟨(u, k.val), mem_blocks.mpr hk, start_mem _⟩

theorem units_mono (h : B ⊆ C) : units B ⊆ units C :=
  fun _ ⟨b, hb, hu⟩ => ⟨b, h hb, hu⟩

theorem units_insert (b : Block) (B : Set Block) : units (insert b B) = extent b ∪ units B := by
  ext u
  constructor
  · rintro ⟨c, rfl | hc, hu⟩
    · exact Or.inl hu
    · exact Or.inr ⟨c, hc, hu⟩
  · rintro (hu | ⟨c, hc, hu⟩)
    · exact ⟨b, Or.inl rfl, hu⟩
    · exact ⟨c, Or.inr hc, hu⟩

theorem extent_subset_units (hb : b ∈ B) : extent b ⊆ units B :=
  fun _ hu => ⟨b, hb, hu⟩

theorem blocks_cons :
    blocks (Function.update lists k (i :: lists k)) = insert (i, k.val) (blocks lists) := by
  ext ⟨a, l⟩
  constructor
  · rintro ⟨j, rfl, hj⟩
    by_cases hk : j = k
    · subst hk
      rw [Function.update_self] at hj
      rcases List.mem_cons.mp hj with heq | hj
      · exact Or.inl (Prod.ext heq rfl)
      · exact Or.inr ⟨j, rfl, hj⟩
    · rw [Function.update_of_ne hk] at hj
      exact Or.inr ⟨j, rfl, hj⟩
  · rintro (heq | ⟨j, rfl, hj⟩)
    · obtain ⟨rfl, rfl⟩ := Prod.mk.inj heq
      exact ⟨k, rfl, by rw [Function.update_self]; exact List.mem_cons_self⟩
    · by_cases hk : j = k
      · subst hk
        exact ⟨j, rfl, by rw [Function.update_self]; exact List.mem_cons_of_mem _ hj⟩
      · exact ⟨j, rfl, by rwa [Function.update_of_ne hk]⟩

theorem Lists.blocks_erase (h : Lists arena lists) (hi : i ∈ lists k) :
    blocks (Function.update lists k ((lists k).erase i)) = blocks lists \ {(i, k.val)} := by
  ext ⟨a, l⟩
  constructor
  · rintro ⟨j, rfl, hj⟩
    obtain ⟨hj, hne⟩ := (h.mem_update_erase hi).mp hj
    exact ⟨⟨j, rfl, hj⟩, fun heq => hne (Prod.mk.inj heq).1⟩
  · rintro ⟨⟨j, rfl, hj⟩, hne⟩
    refine ⟨j, rfl, (h.mem_update_erase hi).mpr ⟨hj, ?_⟩⟩
    intro heq
    dsimp only at heq hj
    subst heq
    exact hne (Prod.ext rfl (congrArg Fin.val (h.chains.disjoint hj hi)))

/-! ## An arena and its blocks -/

/-- The lists of an arena and the taken blocks partition its units. -/
structure Holds (arena : Arena M) (F L : Set Block) : Prop where
  lists : ∃ lists, Lists arena lists ∧ F = blocks lists
  split : Partition arena.region F L

namespace Holds

theorem small (h : Holds arena F L) : arena.units < 2 ^ 26 := by
  obtain ⟨lists, hlists, -⟩ := h.lists
  exact hlists.small

theorem end_le (h : Holds arena F L) (hb : b ∈ F ∪ L) : b.1 + 2 ^ b.2 ≤ arena.units := by
  have hpos := Nat.two_pow_pos b.2
  have hlast : b.1 + 2 ^ b.2 - 1 ∈ extent b := by
    rw [mem_extent]
    omega
  have hlt := (h.split.tiles.within hb hlast).2
  omega

theorem order_lt (h : Holds arena F L) (hb : b ∈ F ∪ L) : b.2 < 26 := by
  have hle := h.end_le hb
  have hsmall := h.small
  exact (Nat.pow_lt_pow_iff_right (by decide : 1 < 2)).mp (by omega : 2 ^ b.2 < 2 ^ 26)

theorem start_lt (h : Holds arena F L) (hb : b ∈ F ∪ L) : b.1 < arena.units := by
  have hle := h.end_le hb
  have hpos := Nat.two_pow_pos b.2
  omega

/-- A unit of a taken block starts no free one. -/
theorem notMem_of_taken (h : Holds arena F L) (hb : b ∈ L) (hu : u ∈ extent b) (n : ℕ) :
    (u, n) ∉ F :=
  fun hmem => Set.disjoint_left.mp (h.split.disjoint hmem hb) (start_mem (u, n)) hu

/-- The control byte of a unit tells whether a free block of the order starts there. -/
theorem free_eq (h : Holds arena F L) (hi : i < arena.units) (k : Level) :
    ((i, k.val) ∈ F ∧ arena.free i k = some (some ⟨i, k, arena.previous i, arena.next i⟩)) ∨
      (i, k.val) ∉ F ∧ arena.free i k = some none := by
  obtain ⟨lists, hlists, rfl⟩ := h.lists
  rw [hlists.free_eq hi, mem_blocks]
  by_cases hmem : i ∈ lists k
  · exact Or.inl ⟨hmem, by rw [if_pos hmem]⟩
  · exact Or.inr ⟨hmem, by rw [if_neg hmem]⟩

theorem head_eq (h : Holds arena F L) (k : Level) :
    (∃ i, arena.heads k = some i ∧ (i, k.val) ∈ F) ∨
      arena.heads k = none ∧ ∀ i, (i, k.val) ∉ F := by
  obtain ⟨lists, hlists, rfl⟩ := h.lists
  cases hhead : arena.heads k with
  | some i => exact Or.inl ⟨i, rfl, mem_blocks.mpr (hlists.chains.mem_head hhead)⟩
  | none =>
    refine Or.inr ⟨rfl, fun i hi => ?_⟩
    have hnil : lists k = [] := List.head?_eq_none_iff.mp ((hlists.chains.head k).symm.trans hhead)
    rw [mem_blocks, hnil] at hi
    exact absurd hi List.not_mem_nil

/-- A write outside of the free blocks and of the control bytes leaves the lists. -/
theorem congr (h : Holds arena F L) (hheads : arena'.heads = arena.heads)
    (hwrote : Wrote cells arena arena')
    (hcells : ∀ a ∈ cells, a < arena.capacity ∧ a / 32 ∉ units F) : Holds arena' F L := by
  obtain ⟨lists, hlists, rfl⟩ := h.lists
  have hcap := arena.capacity_eq
  have hstart : ∀ {k a}, a ∈ lists k → a ∈ units (blocks lists) := fun hmem =>
    starts_subset ⟨_, hmem⟩
  refine ⟨⟨lists, ⟨?_, ?_, ?_, ?_, ?_⟩, rfl⟩, ?_⟩
  · rw [hwrote.units]
    exact h.small
  · refine ⟨fun k => ?_, fun k => ?_, hlists.chains.nodup, hlists.chains.disjoint⟩
    · rw [hheads]
      exact hlists.chains.head k
    · refine (hlists.chains.linked k).congr (fun a ha => ?_) fun a ha => ?_
      · refine hwrote.previous fun c hge hlt hmem => (hcells c hmem).2 ?_
        rw [show c / 32 = a by omega]
        exact hstart ha
      · refine hwrote.next fun c hge hlt hmem => (hcells c hmem).2 ?_
        rw [show c / 32 = a by omega]
        exact hstart ha
  · intro k a ha
    rw [hwrote.units]
    exact hlists.within ha
  · intro k a ha
    rw [hwrote.capacity, ← hlists.marked ha]
    exact hwrote.memory _ fun hmem => absurd (hcells _ hmem).1 (by omega)
  · intro a ha hnot
    rw [hwrote.units] at ha
    rw [hwrote.capacity, ← hlists.cleared ha hnot]
    exact hwrote.memory _ fun hmem => absurd (hcells _ hmem).1 (by omega)
  · rw [Arena.region, hwrote.units]
    exact h.split

/-! ## The four moves -/

/-- Take a free block off its list. -/
theorem take (h : Holds arena F L) (hb : (i, k.val) ∈ F) :
    ∃ arena', arena.unlink ⟨i, k, arena.previous i, arena.next i⟩ = some arena' ∧
      Holds arena' (F \ {(i, k.val)}) (insert (i, k.val) L) ∧
      Frame (units F) arena arena' := by
  obtain ⟨lists, hlists, rfl⟩ := h.lists
  have hi := mem_blocks.mp hb
  obtain ⟨arena', hunlink, hlists', hframe⟩ := hlists.unlink hi
  refine ⟨arena', hunlink, ⟨⟨_, hlists', (hlists.blocks_erase hi).symm⟩, ?_⟩,
    hframe.mono starts_subset⟩
  rw [Arena.region, hframe.units]
  exact h.split.take hb

/-- Put the taken block back that has no free buddy. -/
theorem give (h : Holds arena F L) (hb : (i, k.val) ∈ L) (hbuddy : (i ^^^ 2 ^ k.val, k.val) ∉ F) :
    ∃ arena', arena.link i k = some arena' ∧
      Holds arena' (insert (i, k.val) F) (L \ {(i, k.val)}) ∧
      Frame (units F ∪ extent (i, k.val)) arena arena' := by
  obtain ⟨lists, hlists, rfl⟩ := h.lists
  have hout : ∀ j : Level, i ∉ lists j := fun j hj =>
    h.notMem_of_taken hb (start_mem (i, k.val)) j.val (mem_blocks.mpr hj)
  obtain ⟨arena', hlink, hlists', hframe⟩ := hlists.link (h.start_lt (Or.inr hb)) hout k
  refine ⟨arena', hlink, ⟨⟨_, hlists', blocks_cons.symm⟩, ?_⟩, hframe.mono ?_⟩
  · rw [Arena.region, hframe.units]
    exact h.split.give hb hbuddy
  · refine Set.insert_subset_iff.mpr ⟨Or.inr (start_mem (i, k.val)), ?_⟩
    exact starts_subset.trans Set.subset_union_left

/-- Put the upper half of a taken block on its list. -/
theorem halve (h : Holds arena F L) (hb : (i, k.val + 1) ∈ L) :
    ∃ arena', arena.link (i + 2 ^ k.val) k = some arena' ∧
      Holds arena' (insert (i + 2 ^ k.val, k.val) F)
        (insert (i, k.val) (L \ {(i, k.val + 1)})) ∧
      Frame (units F ∪ extent (i, k.val + 1)) arena arena' := by
  obtain ⟨lists, hlists, rfl⟩ := h.lists
  have hmem : i + 2 ^ k.val ∈ extent (i, k.val + 1) := by
    rw [extent_halves]
    exact Or.inr (start_mem (i + 2 ^ k.val, k.val))
  have hout : ∀ j : Level, i + 2 ^ k.val ∉ lists j := fun j hj =>
    h.notMem_of_taken hb hmem j.val (mem_blocks.mpr hj)
  have hlt : i + 2 ^ k.val < arena.units := (h.split.tiles.within (Or.inr hb) hmem).2
  obtain ⟨arena', hlink, hlists', hframe⟩ := hlists.link hlt hout k
  refine ⟨arena', hlink, ⟨⟨_, hlists', blocks_cons.symm⟩, ?_⟩, hframe.mono ?_⟩
  · rw [Arena.region, hframe.units]
    exact h.split.halve hb
  · exact Set.insert_subset_iff.mpr ⟨Or.inr hmem, starts_subset.trans Set.subset_union_left⟩

/-- Take the free buddy of a taken block, which makes up the block above with it. -/
theorem merge (h : Holds arena F L) (hb : (i, k.val) ∈ L)
    (hbuddy : (i ^^^ 2 ^ k.val, k.val) ∈ F) :
    ∃ arena', arena.unlink ⟨i ^^^ 2 ^ k.val, k, arena.previous (i ^^^ 2 ^ k.val),
        arena.next (i ^^^ 2 ^ k.val)⟩ = some arena' ∧
      Holds arena' (F \ {(i ^^^ 2 ^ k.val, k.val)})
        (insert (min i (i ^^^ 2 ^ k.val), k.val + 1) (L \ {(i, k.val)})) ∧
      Frame (units F) arena arena' := by
  obtain ⟨arena', hunlink, hholds, hframe⟩ := h.take hbuddy
  refine ⟨arena', hunlink, ⟨hholds.lists, ?_⟩, hframe⟩
  rw [Arena.region, hframe.units]
  exact h.split.merge hb hbuddy

/-! ## Reserving -/

/-- A part of a taken block is no taken block of another order. -/
theorem notMem_order (h : Holds arena F L) (hb : b ∈ L) (hu : u ∈ extent b)
    (hne : b ≠ (u, n)) : (u, n) ∉ L :=
  fun hmem => hne (h.split.tiles.unique (Or.inr hb) (Or.inr hmem) hu (start_mem (u, n)))

theorem cut (h : Holds arena F L) (hlt : o + n < 32) (hb : (i, o + n) ∈ L) :
    ∃ arena' F', (List.range' o n).reverse.foldlM (fun arena position =>
        let level := Level.mask position
        arena.link (i + 2 ^ level.val) level) arena = some arena' ∧
      Holds arena' F' (insert (i, o) (L \ {(i, o + n)})) ∧
      Frame (units F ∪ extent (i, o + n)) arena arena' := by
  induction n generalizing arena F L with
  | zero =>
    refine ⟨arena, F, rfl, ?_, .refl arena⟩
    rwa [Nat.add_zero, Set.insert_sdiff_singleton, Set.insert_eq_of_mem (by simpa using hb)]
  | succ n ih =>
    have hval : (Level.mask (o + n)).val = o + n := val_mask (by omega)
    obtain ⟨one, hlink, hholds, hframe⟩ := h.halve (k := Level.mask (o + n)) (by rwa [hval])
    rw [hval] at hlink hholds hframe
    have hnot : (i, o + n) ∉ L := by
      refine h.notMem_order hb (start_mem (i, o + (n + 1))) fun heq => ?_
      have := (Prod.mk.inj heq).2
      omega
    obtain ⟨arena', F', hfold, hholds', hframe'⟩ := ih hholds (by omega) (Or.inl rfl)
    refine ⟨arena', F', ?_, ?_, hframe.trans (hframe'.mono ?_)⟩
    · rw [List.range'_concat, List.reverse_append, List.reverse_singleton, List.singleton_append,
        List.foldlM_cons]
      simp only [Nat.one_mul, hval]
      rw [hlink]
      exact hfold
    · rwa [Set.insert_sdiff_self_of_notMem fun hmem => hnot hmem.1] at hholds'
    · rw [units_insert, extent_halves]
      intro u hu
      rcases hu with (hu | hu) | hu
      · exact Or.inr (Or.inr hu)
      · exact Or.inl hu
      · exact Or.inr (Or.inl hu)

/-- What reserving a block of an order does. -/
inductive Reserves (arena : Arena M) (F L : Set Block) (order : Order) :
    Option (Arena M × ℕ) → Prop where
  | refused (h : ∀ b ∈ F, b.2 < order.val) : Reserves arena F L order none
  | reserved {arena' : Arena M} {i : ℕ} {F' : Set Block} {b : Block} (hb : b ∈ F)
      (hle : order.val ≤ b.2)
      (hsub : extent (i, order.val) ⊆ extent b)
      (holds : Holds arena' F' (insert (i, order.val) L)) (notMem : (i, order.val) ∉ L)
      (frame : Frame (units F) arena arena') : Reserves arena F L order (some (arena', i))

theorem extent_mono {n m : ℕ} (h : n ≤ m) (i : ℕ) : extent (i, n) ⊆ extent (i, m) := by
  intro u hu
  have hle : 2 ^ n ≤ 2 ^ m := Nat.pow_le_pow_right (by decide) h
  rw [mem_extent] at hu ⊢
  dsimp only at hu ⊢
  omega

theorem scan (h : Holds arena F L) (order : Order) (hlow : ∀ b ∈ F, b.2 < o → b.2 < order.val)
    (hle : order.val ≤ o) (hend : o + n = 26) :
    ∃ result, arena.scan order (List.range' o n) = some result ∧
      Reserves arena F L order result := by
  induction n generalizing o with
  | zero =>
    refine ⟨none, rfl, .refused fun b hb => hlow b hb ?_⟩
    have := h.order_lt (Or.inl hb)
    omega
  | succ n ih =>
    have hval : (Level.mask o).val = o := val_mask (by omega)
    rw [List.range'_succ, Arena.scan]
    rcases h.head_eq (Level.mask o) with ⟨i, hhead, hmem⟩ | ⟨hhead, hnone⟩
    · rw [hval] at hmem
      have hmask : (i, (Level.mask o).val) ∈ F := by rwa [hval]
      obtain ⟨one, hunlink, hholds, hframe⟩ := h.take hmask
      rw [hval] at hholds
      have hsum : order.val + (o - order.val) = o := by omega
      obtain ⟨arena', F', hfold, hholds', hframe'⟩ :=
        hholds.cut (o := order.val) (n := o - order.val) (i := i) (by omega) (by
          rw [hsum]
          exact Or.inl rfl)
      rw [hsum, Set.insert_sdiff_self_of_notMem (h.split.notMem_taken hmem)] at hholds'
      rw [hsum] at hframe'
      refine ⟨some (arena', i), ?_, .reserved hmem hle (extent_mono hle i) hholds' ?_
        (hframe.trans (hframe'.mono ?_))⟩
      · simp only [hhead]
        rw [Arena.readFree_eq (h.start_lt (Or.inl hmem))]
        simp only [Option.bind_eq_bind, Option.bind_some, hunlink, Arena.cut, hval, hfold]
        rfl
      · intro hL
        exact Set.disjoint_left.mp (h.split.disjoint hmem hL) (start_mem (i, o))
          (start_mem (i, order.val))
      · refine Set.union_subset (units_mono Set.sdiff_subset) (extent_subset_units hmem)
    · simp only [hhead]
      refine ih (fun b hb hlt => ?_) (by omega) (by omega)
      rcases Nat.lt_succ_iff_lt_or_eq.mp hlt with hlt | heq
      · exact hlow b hb hlt
      · refine absurd hb ?_
        have := hnone b.1
        rwa [hval, ← heq] at this

theorem reserve (h : Holds arena F L) (order : Order) :
    ∃ result, arena.reserve order = some result ∧ Reserves arena F L order result := by
  have hlt := order.isLt
  unfold Arena.reserve maxOrder
  exact h.scan order (fun _ _ h => h) le_rfl (by omega)

/-! ## Recycling -/

theorem recycle (h : Holds arena F L) (hb : (i, k.val) ∈ L) :
    ∃ arena' F', arena.recycle i k = some arena' ∧ Holds arena' F' (L \ {(i, k.val)}) ∧
      Frame (units F ∪ extent (i, k.val)) arena arena' := by
  induction hd : 32 - k.val using Nat.strong_induction_on generalizing arena F L i k with
  | _ d ih =>
  subst hd
  have hk := h.order_lt (Or.inr hb)
  have hnext : Level.new (k.val + 1) = some ⟨k.val + 1, by dsimp only at hk; omega⟩ :=
    dif_pos (by dsimp only at hk; omega)
  have hsmall := h.small
  have hdvd : 2 ^ k.val ∣ i := h.split.tiles.aligned (Or.inr hb)
  rw [Arena.recycle]
  split
  · rename_i heq
    rw [hnext] at heq
    exact absurd heq (by simp)
  rename_i next heq
  rw [hnext] at heq
  obtain rfl := Option.some.inj heq
  by_cases hlt : i ^^^ 2 ^ k.val < arena.units
  · have hindex : Index.new (i ^^^ 2 ^ k.val) arena.units = some (i ^^^ 2 ^ k.val) := by
      unfold Index.new fit
      rw [if_neg (by omega), if_pos (by omega)]
      rfl
    simp only [hindex]
    rcases h.free_eq hlt k with ⟨hmem, hfree⟩ | ⟨hmem, hfree⟩
    · -- the buddy is free : the two are merged
      obtain ⟨one, hunlink, hholds, hframe⟩ := h.merge hb hmem
      have hnot : (min i (i ^^^ 2 ^ k.val), k.val + 1) ∉ L := fun hL => by
        have hsub : i ∈ extent (min i (i ^^^ 2 ^ k.val), k.val + 1) := by
          rw [extent_parent hdvd]
          exact Or.inl (start_mem (i, k.val))
        refine h.notMem_order hL hsub (fun heq => ?_) hb
        have := (Prod.mk.inj heq).2
        omega
      obtain ⟨arena', F', hrecycle, hholds', hframe'⟩ :=
        ih (32 - (k.val + 1)) (by dsimp only at hk; omega) (k := ⟨k.val + 1, _⟩) hholds
          (Or.inl rfl) rfl
      refine ⟨arena', F', ?_, ?_, hframe.mono Set.subset_union_left |>.trans (hframe'.mono ?_)⟩
      · simp only [hfree, hunlink]
        exact hrecycle
      · rwa [Set.insert_sdiff_self_of_notMem fun hmem => hnot hmem.1] at hholds'
      · refine Set.union_subset ((units_mono Set.sdiff_subset).trans Set.subset_union_left) ?_
        rw [extent_parent hdvd]
        exact Set.union_subset Set.subset_union_right
          ((extent_subset_units hmem).trans Set.subset_union_left)
    · obtain ⟨arena', hlink, hholds, hframe⟩ := h.give hb hmem
      refine ⟨arena', _, ?_, hholds, hframe⟩
      simp only [hfree]
      exact hlink
  · have hindex : Index.new (i ^^^ 2 ^ k.val) arena.units = none := if_pos (not_lt.mp hlt)
    have hmem : (i ^^^ 2 ^ k.val, k.val) ∉ F := fun hmem => hlt (h.start_lt (Or.inl hmem))
    obtain ⟨arena', hlink, hholds, hframe⟩ := h.give hb hmem
    refine ⟨arena', _, ?_, hholds, hframe⟩
    simp only [hindex]
    exact hlink

end Holds

/-! ## A new arena -/

/-- The blocks of a list with their levels. -/
def listed (list : List (ℕ × Level)) : Set Block :=
  {b | ∃ c ∈ list, b = (c.1, c.2.val)}

theorem listed_cons (c : ℕ × Level) (list : List (ℕ × Level)) :
    listed (c :: list) = insert (c.1, c.2.val) (listed list) := by
  ext b
  constructor
  · rintro ⟨d, hd, rfl⟩
    rcases List.mem_cons.mp hd with rfl | hd
    · exact Or.inl rfl
    · exact Or.inr ⟨d, hd, rfl⟩
  · rintro (rfl | ⟨d, hd, rfl⟩)
    · exact ⟨c, List.mem_cons_self, rfl⟩
    · exact ⟨d, List.mem_cons_of_mem _ hd, rfl⟩

/-- The partition of a stretch covers it with blocks of falling orders. -/
theorem partition_tiles {m offset left : ℕ} (hm : m ≤ 32) (hlt : left < 2 ^ m)
    (hdvd : 2 ^ m ∣ offset) :
    Tiles (Set.Ico offset (offset + left)) (listed (Arena.partition offset left)) ∧
      (∀ c ∈ Arena.partition offset left, c.2.val < m) ∧
      (Arena.partition offset left).Pairwise fun c d => c.2 ≠ d.2 := by
  induction m generalizing offset left with
  | zero =>
    obtain rfl : left = 0 := by omega
    rw [Arena.partition, dif_pos rfl, Nat.add_zero, Set.Ico_self]
    refine ⟨?_, fun c hc => absurd hc List.not_mem_nil, List.Pairwise.nil⟩
    have hnone : listed [] = ∅ := by
      ext b
      exact ⟨fun ⟨c, hc, _⟩ => absurd hc List.not_mem_nil, fun hb => absurd hb (Set.notMem_empty b)⟩
    rw [hnone]
    exact .empty
  | succ m ih =>
    have hpow : 2 ^ (m + 1) = 2 ^ m + 2 ^ m := by ring
    have hdvd' : 2 ^ m ∣ offset := (pow_dvd_pow 2 (Nat.le_succ m)).trans hdvd
    by_cases hsmall : left < 2 ^ m
    · obtain ⟨htiles, horders, hpairs⟩ := ih (by omega) hsmall hdvd'
      exact ⟨htiles, fun c hc => (horders c hc).trans (Nat.lt_succ_self m), hpairs⟩
    · have hpos := Nat.two_pow_pos m
      have hlog : left.log2 = m := (Nat.log2_eq_iff (by omega)).mpr ⟨by omega, hlt⟩
      have hval : (Level.mask m).val = m := val_mask (by omega)
      obtain ⟨htiles, horders, hpairs⟩ := ih (by omega)
        (show left - 2 ^ m < 2 ^ m by omega)
        (show 2 ^ m ∣ offset + 2 ^ m from Nat.dvd_add hdvd' (dvd_refl _))
      rw [Arena.partition, dif_neg (by omega)]
      simp only [hlog, hval]
      refine ⟨?_, ?_, List.pairwise_cons.mpr ⟨fun c hc heq => ?_, hpairs⟩⟩
      · rw [listed_cons]
        have hregion : Set.Ico offset (offset + left) =
            Set.Ico (offset + 2 ^ m) (offset + 2 ^ m + (left - 2 ^ m)) ∪ extent (offset, m) := by
          ext u
          rw [Set.mem_union, Set.mem_Ico, Set.mem_Ico, mem_extent]
          dsimp only
          omega
        rw [hregion]
        simp only [hval]
        refine htiles.add (show Aligned (offset, m) from hdvd') ?_
        rw [Set.disjoint_left]
        intro u hu hu'
        rw [Set.mem_Ico] at hu
        rw [mem_extent] at hu'
        dsimp only at hu'
        omega
      · intro c hc
        rcases List.mem_cons.mp hc with rfl | hc
        · dsimp only
          rw [hval]
          exact Nat.lt_succ_self m
        · exact (horders c hc).trans (Nat.lt_succ_self m)
      · have hlow := horders c hc
        rw [← heq, hval] at hlow
        omega

/-- Link the blocks of a list, all of different orders, and of no order that is free. -/
theorem Holds.linkAll (h : Holds arena F L) {list : List (ℕ × Level)} (hL : L = listed list)
    (hpairs : list.Pairwise fun c d => c.2 ≠ d.2)
    (hfresh : ∀ b ∈ F, ∀ c ∈ list, b.2 ≠ c.2.val) :
    ∃ arena', list.foldlM (fun arena block => arena.link block.1 block.2) arena = some arena' ∧
      Holds arena' (F ∪ L) ∅ ∧ Frame Set.univ arena arena' := by
  induction list generalizing arena F L with
  | nil =>
    have hnone : L = ∅ := by
      rw [hL]
      ext b
      exact ⟨fun ⟨c, hc, _⟩ => absurd hc List.not_mem_nil, fun hb => absurd hb (Set.notMem_empty b)⟩
    subst hnone
    exact ⟨arena, rfl, by rwa [Set.union_empty], .refl arena⟩
  | cons c list ih =>
    obtain ⟨i, k⟩ := c
    obtain ⟨hfirst, hrest⟩ := List.pairwise_cons.mp hpairs
    rw [listed_cons] at hL
    have hmem : (i, k.val) ∈ L := hL ▸ Or.inl rfl
    obtain ⟨one, hlink, hholds, hframe⟩ := h.give hmem fun hbuddy =>
      hfresh _ hbuddy (i, k) List.mem_cons_self rfl
    have hnot : (i, k.val) ∉ listed list := by
      rintro ⟨d, hd, heq⟩
      exact hfirst d hd (Fin.ext (Prod.mk.inj heq).2)
    have hL' : L \ {(i, k.val)} = listed list := by
      rw [hL, Set.insert_sdiff_self_of_notMem hnot]
    obtain ⟨arena', hfold, hholds', hframe'⟩ := ih hholds hL' hrest fun b hb d hd => by
      rcases hb with rfl | hb
      · exact fun heq => hfirst d hd (Fin.ext heq)
      · exact hfresh b hb d (List.mem_cons_of_mem _ hd)
    have hunion : insert (i, k.val) F ∪ L \ {(i, k.val)} = F ∪ L := by
      rw [Set.insert_union, ← Set.union_insert, Set.insert_sdiff_singleton,
        Set.insert_eq_of_mem hmem]
    rw [hunion] at hholds'
    refine ⟨arena', ?_, hholds', (hframe.mono (Set.subset_univ _)).trans hframe'⟩
    rw [List.foldlM_cons, hlink]
    exact hfold

/-- A new arena is one free stretch, cut up in blocks. -/
theorem init_holds {layout : Layout} (hunits : layout.units < 2 ^ 26) (address : ℕ) (backing : M)
    (memory : ℕ → UInt8) :
    ∃ arena F, Arena.init address layout backing memory = some arena ∧ Holds arena F ∅ ∧
      arena.address = address ∧ arena.units = layout.units ∧ arena.references = 1 ∧
      arena.backing = some backing := by
  obtain ⟨htiles, horders, hpairs⟩ := partition_tiles (by decide : 26 ≤ 32) hunits
    (show 2 ^ 26 ∣ 0 from Nat.dvd_zero _)
  rw [Nat.zero_add] at htiles
  let start : Arena M :=
    { address := address
      units := layout.units
      heads := fun _ => none
      references := 1
      backing := some backing
      memory := store memory (layout.units * Layout.unitBytes) (List.replicate layout.units 0) }
  have hstart : Holds start ∅ (listed (Arena.partition 0 layout.units)) := by
    refine ⟨⟨fun _ => [], ⟨hunits, .empty, ?_, ?_, ?_⟩, ?_⟩, ?_⟩
    · exact fun hmem => absurd hmem List.not_mem_nil
    · exact fun hmem => absurd hmem List.not_mem_nil
    · intro u hu hnot
      have hcap : start.capacity = layout.units * Layout.unitBytes := rfl
      have hlt : u < (List.replicate layout.units (0 : UInt8)).length := by
        rw [List.length_replicate]
        exact hu
      rw [hcap]
      simp only [start, store]
      rw [if_pos (Nat.le_add_right _ _), Nat.add_sub_cancel_left, List.getD_eq_getElem?_getD,
        List.getElem?_eq_getElem hlt, Option.getD_some, List.getElem_replicate]
    · ext b
      refine ⟨fun hb => absurd hb (Set.notMem_empty b), ?_⟩
      rintro ⟨k, _, hmem⟩
      exact absurd hmem List.not_mem_nil
    · refine ⟨?_, Set.empty_disjoint _, .empty⟩
      rw [Set.empty_union]
      exact htiles
  obtain ⟨arena, hfold, hholds, hframe⟩ := hstart.linkAll rfl hpairs fun b hb =>
    absurd hb (Set.notMem_empty b)
  exact ⟨arena, _, hfold, hholds, hframe.address, hframe.units, hframe.references, hframe.backing⟩

end Cartel.Sqlite.Heap
