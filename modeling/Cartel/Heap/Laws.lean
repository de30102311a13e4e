import Cartel.Heap.Run

/-!
# What a heap keeps

The results for every state of every run. The free and the live blocks partition the arena, with
the lists, the control bytes and the owners in agreement (`Reached.partitioned`). What is free is
determined by what is live (`Reached.free_largest`), and a request is refused only for want of room
(`Reached.malloc_refused_iff`, `Reached.realloc_refused_iff`). To its users the heap is a set of
separate allocations whose bytes only their owners change (`Reached.contents_kept`).
-/

namespace Cartel.Sqlite.Heap

open Cartel.Lib (load store load_congr length_load take_load)
open Cartel.Lib.Dyadic (Block extent Partition Aligned start_mem mem_extent floor mem_floor floor_eq
  floor_of_dvd floor_succ aligned_floor aligned_buddy extent_parent disjoint_buddy extent_subset)

variable {M : Type} {layout : Layout} {address : ℕ} {backing : M} {world world' : World M}
  {arena : Arena M} {F L : Set Block} {i s p o : ℕ} {order : Order} {l : Live}
  {lists : Level → List ℕ}

/-! ## Room for a request -/

/-- No free block has the order exactly if each block of that order meets a taken one. -/
theorem Holds.full_iff (h : Holds arena F L) (o : ℕ) :
    (∀ b ∈ F, b.2 < o) ↔ ∀ i, 2 ^ o ∣ i → i + 2 ^ o ≤ arena.units →
      ∃ b ∈ L, ¬ Disjoint (extent (i, o)) (extent b) := by
  constructor
  · intro hfree i hi hend
    by_contra hnone
    have hL : ∀ b ∈ L, Disjoint (extent (i, o)) (extent b) := fun b hb => by
      by_contra hmeet
      exact hnone ⟨b, hb, hmeet⟩
    obtain ⟨b, hb, hle, -⟩ := h.split.exists_free hi (fun u hu => by
      rw [mem_extent] at hu
      dsimp only at hu
      exact ⟨Nat.zero_le u, by omega⟩) hL
    exact absurd (hfree b hb) (not_lt.mpr hle)
  · intro hmeet b hb
    by_contra hle
    rw [not_lt] at hle
    have haligned : 2 ^ b.2 ∣ b.1 := h.split.tiles.aligned (Or.inl hb)
    have hend := h.end_le (Or.inl hb)
    have hpow : 2 ^ o ≤ 2 ^ b.2 := Nat.pow_le_pow_right (by decide) hle
    obtain ⟨c, hc, hnot⟩ := hmeet b.1 ((pow_dvd_pow 2 hle).trans haligned) (by omega)
    exact hnot ((h.split.disjoint hb hc).mono_left (extent_mono hle b.1))

/-- The buddies up to an order are free exactly if nothing else is taken around the block. -/
theorem Holds.beside_iff (h : Holds arena F L) (hb : (s, p) ∈ L) (hle : p ≤ o)
    (hend : floor o s + 2 ^ o ≤ arena.units) :
    Beside F s p o ↔ ∀ b ∈ L, b ≠ (s, p) → Disjoint (extent (floor o s, o)) (extent b) := by
  have hself : floor p s = s := floor_of_dvd (h.split.tiles.aligned (Or.inr hb))
  constructor
  · intro hfree b hbL hne
    -- the block around is made up of the block and of its buddies
    have hcover : ∀ n, p + n ≤ o →
        extent (floor (p + n) s, p + n) ⊆ units F ∪ extent (s, p) := by
      intro n
      induction n with
      | zero =>
        intro _
        rw [Nat.add_zero, hself]
        exact Set.subset_union_right
      | succ n ih =>
        intro hn
        rw [← Nat.add_assoc, floor_succ, extent_parent (aligned_floor (p + n) s)]
        exact Set.union_subset (ih (by omega)) ((extent_subset_units
          (hfree (p + n) (Nat.le_add_right p n) (by omega))).trans Set.subset_union_left)
    have hsum := hcover (o - p) (by omega)
    rw [Nat.add_sub_cancel' hle] at hsum
    exact (h.apart hbL hb hne).symm.mono_left hsum
  · intro hapart q hge hlt
    have hparent := extent_floor_mono (show q + 1 ≤ o by omega) s
    have hin : extent (floor q s ^^^ 2 ^ q, q) ⊆ extent (floor (q + 1) s, q + 1) := by
      rw [floor_succ, extent_parent (aligned_floor q s)]
      exact Set.subset_union_right
    have hown : extent (s, p) ⊆ extent (floor q s, q) := by
      have hsub := extent_floor_mono hge s
      rwa [hself] at hsub
    obtain ⟨b, hbF, hle', hmem⟩ := h.split.exists_free
      (aligned_buddy (aligned_floor q s)) (fun u hu => by
        have hu' := hparent (hin hu)
        rw [mem_extent] at hu'
        dsimp only at hu'
        exact ⟨Nat.zero_le u, by omega⟩) fun c hc => by
        by_cases hc' : c = (s, p)
        · rw [hc']
          exact (disjoint_buddy (aligned_floor q s)).symm.mono_right hown
        · exact (hapart c hc hc').mono_left (hin.trans hparent)
    rcases hle'.lt_or_eq with hlt' | heq
    · -- a larger free block there would have the block itself
      have hup : floor q s ^^^ 2 ^ q ∈ extent (floor (q + 1) s, q + 1) := floor_xor_mem q s
      have hsub := extent_subset (show Aligned (floor (q + 1) s, q + 1) from
        aligned_floor (q + 1) s) (h.split.tiles.aligned (Or.inl hbF)) hup hmem hlt'
      exact absurd (hsub (mem_floor (q + 1) s)) fun hs =>
        Set.disjoint_left.mp (h.split.disjoint hbF hb) hs (start_mem (s, p))
    · have hstart : b.1 = floor q s ^^^ 2 ^ q := by
        rw [← floor_eq (h.split.tiles.aligned (Or.inl hbF)) hmem, ← heq]
        exact floor_of_dvd
          (aligned_buddy (aligned_floor q s))
      have hblock : b = (floor q s ^^^ 2 ^ q, q) := Prod.ext hstart heq.symm
      rwa [← hblock]

/-! ## A run -/

/-- A run with one live allocation. -/
theorem sample_reached : ∃ world : World Unit,
    Reached ⟨65536, by decide, by decide⟩ 4096 () world ∧ world.returned = none ∧
      world.current = some world.arena.address ∧
      ∃ l ∈ world.live, l.request.bytes = 100 ∧ l.request.size = 112 := by
  let layout : Layout := ⟨65536, by decide, by decide⟩
  have hcapacity : layout.capacity < 2 ^ 31 := by decide
  obtain ⟨arena, F, hinit, hholds, haddress, hunits, hreferences, hbacking⟩ :=
    init_holds (Layout.units_lt hcapacity) 4096 () fun _ => 0
  have hstart : Reached layout 4096 () ⟨arena, [], true, none, none, none⟩ :=
    .start hcapacity (by decide) hinit
  have henter : Reached layout 4096 () ⟨arena, [], true, some 4096, none, none⟩ :=
    .step hstart (.enter 4096) (fun _ => rfl) rfl
  have hlen : Len.new 100 = some ⟨100, by decide, by decide⟩ := rfl
  have hclass : Len.class ⟨100, by decide, by decide⟩ = some 2 :=
    Len.class_eq_some_iff.mpr ⟨by decide, by decide⟩
  obtain ⟨result, hmalloc, hresult⟩ := hholds.malloc (by rw [hreferences]; decide) 100
  rcases hresult with hnone | ⟨hlen', hnone⟩ | ⟨hlen', hclass', hgets⟩
  · exact absurd (hlen.symm.trans hnone) (by simp)
  · obtain rfl := Option.some.inj (hlen.symm.trans hlen')
    exact absurd (hclass.symm.trans hnone) (by simp)
  obtain rfl := Option.some.inj (hlen.symm.trans hlen')
  obtain rfl := Option.some.inj (hclass.symm.trans hclass')
  rcases hgets with hfree | ⟨hb, hle, hholds', hnot, hheaded, hframe⟩
  · obtain ⟨b, hb, -⟩ := (hholds.full_iff 2).mp hfree 0 (Nat.dvd_zero _) (by
      rw [hunits]
      decide)
    exact absurd hb (Set.notMem_empty b)
  · rename_i one i F' b
    let arena' := one.own (arena.references + 1) arena.backing
    have hstep : World.step ⟨arena, [], true, some 4096, none, none⟩ (.malloc 100) =
        some ⟨arena', [arena'.live (i * 32 + 16) ⟨100, by decide, by decide⟩], true, some 4096,
          none, some (i * 32 + 16)⟩ := by
      simp only [World.step, World.malloc]
      rw [if_pos (congrArg some haddress.symm), hmalloc]
      rfl
    refine ⟨_, .step henter (.malloc 100) trivial hstep, rfl, ?_, _, List.mem_cons_self, rfl,
      Len.size_eq hclass⟩
    exact congrArg some (haddress.symm.trans hframe.address.symm)

/-! ## The partition -/

/-- The free lists and the live blocks partition the arena, and the owners are counted. -/
theorem Reached.partitioned (h : Reached layout address backing world) :
    (world.returned = none → ∃ lists, Lists world.arena lists ∧
      Partition (Set.Ico 0 layout.units) (blocks lists) world.taken ∧
      ∀ b ∈ blocks lists ∪ world.taken, b.2 ≤ maxOrder) ∧
    world.arena.references = world.live.length + (if world.runtime then 1 else 0) ∧
    world.returned = (if world.arena.references = 0 then some backing else none) := by
  have hinv := h.inv
  refine ⟨fun hreturned => ?_, hinv.references, ?_⟩
  · obtain ⟨F, hholds⟩ := hinv.holds hreturned
    obtain ⟨lists, hlists, rfl⟩ := hholds.lists
    refine ⟨lists, hlists, ?_, fun b hb => Nat.le_of_lt_succ (hholds.order_lt hb)⟩
    rw [← hinv.units]
    exact hholds.split
  · split_ifs with hzero
    · exact (hinv.returned hzero).1
    · exact (hinv.owned hzero).1

theorem partitioned_sample : ∃ world : World Unit, world.live ≠ [] ∧
    (∃ lists, Lists world.arena lists ∧
      Partition (Set.Ico 0 1985) (blocks lists) world.taken ∧
      ∀ b ∈ blocks lists ∪ world.taken, b.2 ≤ maxOrder) ∧
    world.arena.references = world.live.length + (if world.runtime then 1 else 0) := by
  obtain ⟨world, h, hreturned, -, l, hl, -⟩ := sample_reached
  obtain ⟨hlists, hreferences, -⟩ := Reached.partitioned h
  exact ⟨world, List.ne_nil_of_mem hl, hlists hreturned, hreferences⟩

/-- The free blocks are the largest blocks of which nothing is live. -/
theorem Reached.free_largest (h : Reached layout address backing world)
    (hreturned : world.returned = none) (hlists : Lists world.arena lists) (k : Level) (i : ℕ) :
    i ∈ lists k ↔ 2 ^ k.val ∣ i ∧
      (∀ u ∈ extent (i, k.val), u ∈ Set.Ico 0 layout.units ∧ ¬ ∃ b ∈ world.taken, u ∈ extent b) ∧
      ¬ ∀ u ∈ extent (floor (k.val + 1) i, k.val + 1),
        u ∈ Set.Ico 0 layout.units ∧ ¬ ∃ b ∈ world.taken, u ∈ extent b := by
  have hinv := h.inv
  obtain ⟨F, hholds⟩ := hinv.holds hreturned
  obtain ⟨lists', hlists', rfl⟩ := hholds.lists
  -- the control bytes tell which lists they are
  have hsame : i ∈ lists k ↔ i ∈ lists' k := by
    constructor
    · intro hmem
      exact (hlists'.control_eq_mark_iff (hlists.within hmem)).mp
        ((hlists.control_eq_mark_iff (hlists.within hmem)).mpr hmem)
    · intro hmem
      exact (hlists.control_eq_mark_iff (hlists'.within hmem)).mp
        ((hlists'.control_eq_mark_iff (hlists'.within hmem)).mpr hmem)
  rw [hsame, ← mem_blocks, ← hinv.units]
  exact hholds.split.mem_iff

theorem free_largest_sample : ∃ (world : World Unit) (lists : Level → List ℕ), world.live ≠ [] ∧
    Lists world.arena lists ∧ ∀ (k : Level) (i : ℕ), i ∈ lists k ↔ 2 ^ k.val ∣ i ∧
      (∀ u ∈ extent (i, k.val), u ∈ Set.Ico 0 1985 ∧ ¬ ∃ b ∈ world.taken, u ∈ extent b) ∧
      ¬ ∀ u ∈ extent (floor (k.val + 1) i, k.val + 1),
        u ∈ Set.Ico 0 1985 ∧ ¬ ∃ b ∈ world.taken, u ∈ extent b := by
  obtain ⟨world, h, hreturned, -, l, hl, -⟩ := sample_reached
  obtain ⟨F, hholds⟩ := h.inv.holds hreturned
  obtain ⟨lists, hlists, -⟩ := hholds.lists
  exact ⟨world, lists, List.ne_nil_of_mem hl, hlists, Reached.free_largest h hreturned hlists⟩

/-! ## Refusals -/

/-- A request is refused exactly if every block of its order meets a live one. -/
theorem Reached.malloc_refused_iff (h : Reached layout address backing world)
    (hscope : world.current = some world.arena.address) {bytes : Int32} {len : Len}
    (hlen : Len.new bytes = some len) (hclass : len.class = some order) :
    ∃ arena result, world.arena.malloc bytes = some (arena, result) ∧
      (result = none ↔ ∀ i, 2 ^ order.val ∣ i → i + 2 ^ order.val ≤ layout.units →
        ∃ b ∈ world.taken, ¬ Disjoint (extent (i, order.val)) (extent b)) ∧
      (result = none → arena = world.arena) := by
  have hinv := h.inv
  have hreferences := hinv.references
  rw [hinv.scope hscope, if_pos rfl] at hreferences
  obtain ⟨hreturned, -⟩ := hinv.owned (by omega)
  obtain ⟨F, hholds⟩ := hinv.holds hreturned
  have hlength := hinv.length_lt hreturned
  obtain ⟨result, hmalloc, hresult⟩ := hholds.malloc (by omega) bytes
  have hfull := hholds.full_iff order.val
  rw [hinv.units] at hfull
  refine ⟨result.1, result.2, hmalloc, ?_⟩
  rcases hresult with hnone | ⟨hlen', hnone⟩ | ⟨hlen', hclass', hgets⟩
  · rw [hlen] at hnone
    exact absurd hnone (by simp)
  · obtain rfl := Option.some.inj (hlen.symm.trans hlen')
    rw [hclass] at hnone
    exact absurd hnone (by simp)
  obtain rfl := Option.some.inj (hlen.symm.trans hlen')
  obtain rfl := Option.some.inj (hclass.symm.trans hclass')
  rw [← hfull]
  rcases hgets with hfree | ⟨hb, hle, -, -, -, -⟩
  · exact ⟨⟨fun _ => hfree, fun _ => rfl⟩, fun _ => rfl⟩
  · refine ⟨⟨fun hnone => absurd hnone (by simp), fun hfree => ?_⟩, fun hnone => absurd hnone
      (by simp)⟩
    exact absurd (hfree _ hb) (not_lt.mpr hle)

theorem malloc_refused_sample : ∃ (world : World Unit) (arena : Arena Unit) (result : Option ℕ),
    world.live ≠ [] ∧ world.arena.malloc 100 = some (arena, result) ∧
      (result = none ↔ ∀ i, 2 ^ 2 ∣ i → i + 2 ^ 2 ≤ 1985 →
        ∃ b ∈ world.taken, ¬ Disjoint (extent (i, 2)) (extent b)) ∧
      (result = none → arena = world.arena) := by
  obtain ⟨world, h, -, hscope, l, hl, -⟩ := sample_reached
  have hlen : Len.new 100 = some ⟨100, by decide, by decide⟩ := rfl
  have hclass : Len.class ⟨100, by decide, by decide⟩ = some 2 :=
    Len.class_eq_some_iff.mpr ⟨by decide, by decide⟩
  obtain ⟨arena, result, hall⟩ := Reached.malloc_refused_iff h hscope hlen hclass
  exact ⟨world, arena, result, List.ne_nil_of_mem hl, hall⟩

/-- A growth is refused exactly if every block of its order meets a live one, and the block of
that order around the old one has another, or does not fit. -/
theorem Reached.realloc_refused_iff (h : Reached layout address backing world)
    (hl : l ∈ world.live) {bytes : Int32} {len : Len} (hlen : Len.new bytes = some len)
    (hclass : len.class = some order) (hlt : l.request.size < len.bytes) :
    ∃ s previous arena result, l.pointer = s * 32 + 16 ∧ l.request.class = some previous ∧
      world.arena.realloc l.pointer bytes = some (arena, result) ∧
      (result = none ↔
        (∀ i, 2 ^ order.val ∣ i → i + 2 ^ order.val ≤ layout.units →
          ∃ b ∈ world.taken, ¬ Disjoint (extent (i, order.val)) (extent b)) ∧
        ¬ (floor order.val s + 2 ^ order.val ≤ layout.units ∧
          ∀ b ∈ world.taken, b ≠ (s, previous.val) →
            Disjoint (extent (floor order.val s, order.val)) (extent b))) ∧
      (result = none → arena = world.arena) := by
  have hinv := h.inv
  obtain ⟨s, previous, hstands⟩ := hinv.stands l hl
  obtain ⟨hreturned, -⟩ := hinv.owned (hinv.owned_of_live hl)
  obtain ⟨F, hholds⟩ := hinv.holds hreturned
  have hmem := hstands.mem_taken hl
  have haddress : world.arena.address < 2 ^ 64 := hinv.address ▸ hinv.address_lt
  obtain ⟨result, hresize, hresult⟩ := hholds.resize hmem hstands.headed haddress len
  have hfull := hholds.full_iff order.val
  rw [hinv.units] at hfull
  refine ⟨s, previous, result.1, result.2, hstands.pointer, hstands.request, ?_, ?_⟩
  · unfold Arena.realloc
    rw [hlen, hstands.pointer]
    exact hresize
  rw [Len.size_eq hstands.request] at hlt
  rw [← hfull]
  rcases hresult with hfits | hnone | ⟨hclass', hlt', hgrows⟩
  · exact absurd hfits (not_le.mpr hlt)
  · rw [hclass] at hnone
    exact absurd hnone (by simp)
  obtain rfl := Option.some.inj (hclass.symm.trans hclass')
  have hle : previous.val ≤ order.val := (show previous.val < order.val from hlt').le
  have haround : (floor order.val s + 2 ^ order.val ≤ world.arena.units ∧
      Beside F s previous.val order.val) ↔ floor order.val s + 2 ^ order.val ≤ layout.units ∧
        ∀ b ∈ world.taken, b ≠ (s, previous.val) →
          Disjoint (extent (floor order.val s, order.val)) (extent b) := by
    rw [← hinv.units]
    exact and_congr_right fun hend => hholds.beside_iff hmem hle hend
  rw [← haround]
  rcases hgrows with ⟨hfree, hbeside⟩ | ⟨hroom, hgrown⟩
  · exact ⟨⟨fun _ => ⟨hfree, hbeside⟩, fun _ => rfl⟩, fun _ => rfl⟩
  · refine ⟨⟨fun hnone => absurd hnone (by simp), fun hboth => ?_⟩, fun hnone => absurd hnone
      (by simp)⟩
    rcases hroom with ⟨b, hb, hle'⟩ | hbeside
    · exact absurd (hboth.1 b hb) (not_lt.mpr hle')
    · exact absurd hbeside hboth.2

theorem realloc_refused_sample : ∃ (world : World Unit) (l : Live) (s : ℕ) (previous : Order)
    (arena : Arena Unit) (result : Option ℕ), l ∈ world.live ∧ l.pointer = s * 32 + 16 ∧
      world.arena.realloc l.pointer 200 = some (arena, result) ∧
      (result = none ↔
        (∀ i, 2 ^ 3 ∣ i → i + 2 ^ 3 ≤ 1985 →
          ∃ b ∈ world.taken, ¬ Disjoint (extent (i, 3)) (extent b)) ∧
        ¬ (floor 3 s + 2 ^ 3 ≤ 1985 ∧ ∀ b ∈ world.taken, b ≠ (s, previous.val) →
          Disjoint (extent (floor 3 s, 3)) (extent b))) := by
  obtain ⟨world, h, -, -, l, hl, -, hsize⟩ := sample_reached
  have hlen : Len.new 200 = some ⟨200, by decide, by decide⟩ := rfl
  have hclass : Len.class ⟨200, by decide, by decide⟩ = some 3 :=
    Len.class_eq_some_iff.mpr ⟨by decide, by decide⟩
  obtain ⟨s, previous, arena, result, hpointer, -, hrealloc, hiff, -⟩ :=
    Reached.realloc_refused_iff h hl hlen hclass (by rw [hsize]; decide)
  exact ⟨world, l, s, previous, arena, result, hl, hpointer, hrealloc, hiff⟩

/-! ## Separate allocations -/

/-- Neither payload reaches the header of the other. -/
def Live.Apart (l m : Live) : Prop :=
  l.pointer + l.bytes.length + headerBytes ≤ m.pointer ∨
    m.pointer + m.bytes.length + headerBytes ≤ l.pointer

/-- What an action does to separate allocations : `reply` is the pointer it returns. -/
inductive Keeps (live : List Live) (reply : Option ℕ) : Action → List Live → Prop where
  | enter (owner : ℕ) : Keeps live reply (.enter owner) live
  | finish : Keeps live reply .finish live
  | retire : Keeps live reply .retire live
  | refused {bytes : Int32} (h : reply = none) : Keeps live reply (.malloc bytes) live
  | allocated {bytes : Int32} {l : Live} (h : reply = some l.pointer)
      (request : Len.new bytes = some l.request) (room : l.request.bytes ≤ l.bytes.length)
      (apart : ∀ m ∈ live, l.Apart m) : Keeps live reply (.malloc bytes) (l :: live)
  | freed (pointer : ℕ) :
      Keeps live reply (.free pointer) (live.filter fun l => l.pointer ≠ pointer)
  | null {pointer : ℕ} {bytes : Int32} (h : reply = none) :
      Keeps live reply (.realloc pointer bytes) live
  | fits {bytes : Int32} {l : Live} {len : Len} (hl : l ∈ live) (h : reply = some l.pointer)
      (request : Len.new bytes = some len) (room : len.bytes ≤ l.bytes.length) :
      Keeps live reply (.realloc l.pointer bytes) live
  | moved {bytes : Int32} {l l' : Live} (hl : l ∈ live) (h : reply = some l'.pointer)
      (request : Len.new bytes = some l'.request) (room : l'.request.bytes ≤ l'.bytes.length)
      (copied : l'.bytes.take l.bytes.length = l.bytes)
      (apart : ∀ m ∈ live, m.pointer ≠ l.pointer → l'.Apart m) :
      Keeps live reply (.realloc l.pointer bytes)
        (live.map fun m => if m.pointer = l.pointer then l' else m)
  | filled (pointer offset : ℕ) (byte : UInt8) :
      Keeps live reply (.fill pointer offset byte) (live.map fun l =>
        if l.pointer = pointer then { l with bytes := l.bytes.set offset byte } else l)

theorem Inv.apart (h : Inv layout address backing world) {l m : Live} (hl : l ∈ world.live)
    (hm : m ∈ world.live) (hne : l.pointer ≠ m.pointer) : l.Apart m := by
  obtain ⟨hreturned, -⟩ := h.owned (h.owned_of_live hl)
  obtain ⟨F, hholds⟩ := h.holds hreturned
  obtain ⟨i, k, hstands⟩ := h.stands l hl
  obtain ⟨j, n, hstands'⟩ := h.stands m hm
  have hblock : (i, k.val) ≠ (j, n.val) := fun heq => hne (by
    rw [hstands.pointer, hstands'.pointer, (Prod.mk.inj heq).1])
  have hapart := hholds.split.tiles.disjoint (Or.inr (hstands.mem_taken hl))
    (Or.inr (hstands'.mem_taken hm)) hblock
  have hroom := room_add k.val
  have hroom' := room_add n.val
  have hmem := Set.disjoint_left.mp hapart (start_mem (i, k.val))
  have hmem' := Set.disjoint_right.mp hapart (start_mem (j, n.val))
  rw [mem_extent] at hmem hmem'
  dsimp only at hmem hmem'
  rw [Live.Apart, hstands.pointer, hstands'.pointer, hstands.bytes, hstands'.bytes, length_payload,
    length_payload, headerBytes]
  omega

theorem Inv.keeps_malloc (h : Inv layout address backing world) {bytes : Int32}
    (hstep : world.malloc bytes = some world') (h' : Inv layout address backing world') :
    Keeps world.live world'.reply (.malloc bytes) world'.live := by
  unfold World.malloc at hstep
  by_cases hscope : world.current = some world.arena.address
  case neg =>
    rw [if_neg hscope] at hstep
    obtain rfl := Option.some.inj hstep
    exact .refused rfl
  rw [if_pos hscope] at hstep
  have hreferences := h.references
  rw [h.scope hscope, if_pos rfl] at hreferences
  obtain ⟨hreturned, -⟩ := h.owned (by omega)
  obtain ⟨F, hholds⟩ := h.holds hreturned
  have hlength := h.length_lt hreturned
  obtain ⟨result, hmalloc, hresult⟩ := hholds.malloc (by omega) bytes
  rw [hmalloc, Option.bind_eq_bind, Option.bind_some] at hstep
  rcases hresult with hnone | ⟨hlen, hclass⟩ | ⟨hlen, hclass, hgets⟩
  · obtain rfl := Option.some.inj hstep
    exact .refused rfl
  · obtain rfl := Option.some.inj hstep
    exact .refused rfl
  rcases hgets with hfree | ⟨hb, hle, hholds', hnot, hheaded, hframe⟩
  · obtain rfl := Option.some.inj hstep
    exact .refused rfl
  · rename_i len order one i F' b
    dsimp only at hstep
    rw [hlen] at hstep
    obtain rfl := Option.some.inj hstep
    refine .allocated rfl hlen ?_ fun m hm => ?_
    · exact (Len.le_size hclass).trans_eq (length_load).symm
    · refine h'.apart List.mem_cons_self (List.mem_cons_of_mem _ hm) fun heq => ?_
      have hnodup := (List.nodup_cons.mp h'.nodup).1
      exact hnodup (heq ▸ List.mem_map_of_mem hm)

theorem Inv.keeps_realloc (h : Inv layout address backing world) (hl : l ∈ world.live)
    {bytes : Int32} (hstep : world.realloc l.pointer bytes = some world')
    (h' : Inv layout address backing world') :
    Keeps world.live world'.reply (.realloc l.pointer bytes) world'.live ∧
      (world'.reply = none → world'.arena = world.arena) := by
  obtain ⟨i, order, hstands⟩ := h.stands l hl
  obtain ⟨hreturned, -⟩ := h.owned (h.owned_of_live hl)
  obtain ⟨F, hholds⟩ := h.holds hreturned
  have haddress : world.arena.address < 2 ^ 64 := h.address ▸ h.address_lt
  have hlength : l.bytes.length = room order.val := by rw [hstands.bytes, length_payload]
  unfold World.realloc Arena.realloc at hstep
  cases hlen : Len.new bytes with
  | none =>
    rw [hlen] at hstep
    obtain rfl := Option.some.inj hstep
    exact ⟨.null rfl, fun _ => rfl⟩
  | some len =>
    rw [hlen] at hstep
    dsimp only at hstep
    obtain ⟨result, hresize, hresult⟩ :=
      hholds.resize (hstands.mem_taken hl) hstands.headed haddress len
    rw [← hstands.pointer] at hresize
    rw [hresize, Option.bind_eq_bind, Option.bind_some] at hstep
    rcases hresult with hfits | hclass | ⟨hclass, hlt, hgrows⟩
    · have hmap : (world.live.map fun m => if m.pointer = l.pointer ∧ m.request.size < len.bytes
          then world.arena.live (i * 32 + 16) len else m) = world.live := by
        refine (List.map_congr_left fun m hm => if_neg fun hboth => ?_).trans (List.map_id _)
        obtain rfl := World.eq_of_pointer h.nodup hm hl hboth.1
        rw [Len.size_eq hstands.request] at hboth
        exact absurd hboth.2 (not_lt.mpr hfits)
      obtain rfl := Option.some.inj hstep
      refine ⟨?_, fun hnone => absurd hnone (by simp)⟩
      simp only [hmap]
      exact .fits hl (congrArg some hstands.pointer.symm) hlen (hfits.trans_eq hlength.symm)
    · obtain rfl := Option.some.inj hstep
      exact ⟨.null rfl, fun _ => rfl⟩
    · rename_i next
      rcases hgrows with _ | ⟨-, hgrown⟩
      · obtain rfl := Option.some.inj hstep
        exact ⟨.null rfl, fun _ => rfl⟩
      · rename_i arena' j F'
        have hsize : room order.val < len.bytes :=
          (Len.class_eq_some_iff.mp hclass).2 order.val hlt
        have hmap : (world.live.map fun m => if m.pointer = l.pointer ∧
            m.request.size < len.bytes then arena'.live (j * 32 + 16) len else m) =
            world.live.map fun m =>
              if m.pointer = l.pointer then arena'.live (j * 32 + 16) len else m := by
          refine List.map_congr_left fun m hm => ?_
          by_cases hpointer : m.pointer = l.pointer
          · obtain rfl := World.eq_of_pointer h.nodup hm hl hpointer
            rw [Len.size_eq hstands.request, if_pos ⟨rfl, hsize⟩, if_pos rfl]
          · rw [if_neg fun hboth => hpointer hboth.1, if_neg hpointer]
        obtain rfl := Option.some.inj hstep
        refine ⟨?_, fun hnone => absurd hnone (by simp)⟩
        simp only [hmap] at h' ⊢
        have hnew : arena'.live (j * 32 + 16) len ∈ world.live.map fun m =>
            if m.pointer = l.pointer then arena'.live (j * 32 + 16) len else m :=
          List.mem_map.mpr ⟨l, hl, if_pos rfl⟩
        refine .moved hl rfl hlen ?_ ?_ fun m hm hne => ?_
        · exact (Len.le_size hclass).trans_eq (length_load).symm
        · have hle : room order.val ≤ len.size := by
            rw [Len.size_eq hclass]
            exact room_strictMono.monotone (show order.val < next.val from hlt).le
          rw [hlength, hstands.bytes, ← hgrown.copied]
          exact take_load hle
        · have hkept : m ∈ world.live.map fun m =>
              if m.pointer = l.pointer then arena'.live (j * 32 + 16) len else m :=
            List.mem_map.mpr ⟨m, hm, if_neg hne⟩
          refine h'.apart hnew hkept fun heq => hne ?_
          have hnodup := h'.nodup
          rw [List.map_map] at hnodup
          have hsame : m = l := List.inj_on_of_nodup_map hnodup hm hl (by
            simp only [Function.comp, if_neg hne, if_true]
            exact heq.symm)
          rw [hsame]

/-- To its users the heap is a set of separate allocations. No action goes wrong, each payload
stands in the arena behind its own header, and a refused growth changes nothing. -/
theorem Reached.contents_kept (h : Reached layout address backing world) {action : Action}
    (hallowed : world.Allowed action) :
    ∃ world', world.step action = some world' ∧
      Keeps world.live world'.reply action world'.live ∧
      (∀ l ∈ world'.live, ∃ i order, l.Stands world'.arena i order ∧
        i + 2 ^ order.val ≤ layout.units) ∧
      (world'.live.Pairwise Live.Apart) ∧
      (∀ pointer bytes, action = .realloc pointer bytes → world'.reply = none →
        world'.arena = world.arena) := by
  obtain ⟨world', hstep, hinv'⟩ := h.inv.step hallowed
  have hstands : ∀ l ∈ world'.live, ∃ i order, l.Stands world'.arena i order ∧
      i + 2 ^ order.val ≤ layout.units := by
    intro l hl
    obtain ⟨i, order, hstands⟩ := hinv'.stands l hl
    obtain ⟨hreturned, -⟩ := hinv'.owned (hinv'.owned_of_live hl)
    obtain ⟨F, hholds⟩ := hinv'.holds hreturned
    exact ⟨i, order, hstands, hinv'.units ▸ hholds.end_le (Or.inr (hstands.mem_taken hl))⟩
  have hapart : world'.live.Pairwise Live.Apart := by
    refine (List.pairwise_map.mp hinv'.nodup).imp_of_mem fun hl hm hne => ?_
    exact hinv'.apart hl hm hne
  refine ⟨world', hstep, ?_, hstands, hapart, ?_⟩
  · cases action with
    | enter owner =>
      unfold World.step Scope.enter at hstep
      split_ifs at hstep
      · obtain rfl := Option.some.inj hstep
        exact .enter owner
      · obtain rfl := Option.some.inj hstep
        exact .enter owner
    | finish =>
      obtain rfl := Option.some.inj hstep
      exact .finish
    | malloc bytes => exact h.inv.keeps_malloc hstep hinv'
    | free pointer =>
      obtain ⟨result, -, hrest⟩ := Option.bind_eq_some_iff.mp hstep
      obtain rfl := Option.some.inj hrest
      exact .freed pointer
    | realloc pointer bytes =>
      obtain ⟨l, hl, rfl⟩ := hallowed
      exact (h.inv.keeps_realloc hl hstep hinv').1
    | fill pointer offset byte =>
      obtain ⟨arena, -, hrest⟩ := Option.bind_eq_some_iff.mp hstep
      obtain rfl := Option.some.inj hrest
      exact .filled pointer offset byte
    | retire =>
      obtain ⟨result, -, hrest⟩ := Option.bind_eq_some_iff.mp hstep
      obtain rfl := Option.some.inj hrest
      exact .retire
  · rintro pointer bytes rfl hnone
    obtain ⟨l, hl, rfl⟩ := hallowed
    exact (h.inv.keeps_realloc hl hstep hinv').2 hnone

theorem contents_kept_sample : ∃ (world world' : World Unit) (l : Live), l ∈ world.live ∧
    world.step (.realloc l.pointer 200) = some world' ∧
    Keeps world.live world'.reply (.realloc l.pointer 200) world'.live ∧
    (world'.reply = none → world'.arena = world.arena) := by
  obtain ⟨world, h, -, -, l, hl, -⟩ := sample_reached
  obtain ⟨world', hstep, hkeeps, -, -, hnull⟩ :=
    Reached.contents_kept h (show world.Allowed (.realloc l.pointer 200) from ⟨l, hl, rfl⟩)
  exact ⟨world, world', l, hl, hstep, hkeeps, hnull l.pointer 200 rfl⟩

/-! ## Reported sizes -/

theorem Reached.size_eq (h : Reached layout address backing world) (hl : l ∈ world.live) :
    world.arena.size l.pointer = roundup (Int32.ofNat l.request.bytes) ∧
      world.arena.size l.pointer = some (Int.ofNat l.request.size) := by
  have hinv := h.inv
  obtain ⟨i, order, hstands⟩ := hinv.stands l hl
  obtain ⟨hreturned, -⟩ := hinv.owned (hinv.owned_of_live hl)
  obtain ⟨F, hholds⟩ := hinv.holds hreturned
  have haddress : world.arena.address < 2 ^ 64 := hinv.address ▸ hinv.address_lt
  have hsize := hstands.headed.size (hholds.start_lt (Or.inr (hstands.mem_taken hl))) haddress
  rw [← hstands.pointer] at hsize
  refine ⟨hsize.trans (roundup_eq l.request.new_ofNat hstands.request).symm, hsize.trans ?_⟩
  rw [Len.size_eq hstands.request]

/-- The order of a block changes exactly if it grows. -/
theorem Reached.size_kept_iff (h : Reached layout address backing world) (hl : l ∈ world.live)
    {bytes : Int32} {len : Len} (hlen : Len.new bytes = some len) :
    ∃ arena result, world.arena.realloc l.pointer bytes = some (arena, result) ∧
      (arena.size (result.getD l.pointer) = world.arena.size l.pointer ↔
        len.bytes ≤ l.request.size ∨ result = none) := by
  have hinv := h.inv
  obtain ⟨i, order, hstands⟩ := hinv.stands l hl
  obtain ⟨hreturned, -⟩ := hinv.owned (hinv.owned_of_live hl)
  obtain ⟨F, hholds⟩ := hinv.holds hreturned
  have haddress : world.arena.address < 2 ^ 64 := hinv.address ▸ hinv.address_lt
  have hmem := hstands.mem_taken hl
  obtain ⟨result, hresize, hresult⟩ := hholds.resize hmem hstands.headed haddress len
  have hrealloc : world.arena.realloc l.pointer bytes = some result := by
    unfold Arena.realloc
    rw [hlen, hstands.pointer]
    exact hresize
  refine ⟨result.1, result.2, hrealloc, ?_⟩
  rw [Len.size_eq hstands.request]
  rcases hresult with hfits | hnone | ⟨hclass, hlt, hgrows⟩
  · refine ⟨fun _ => Or.inl hfits, fun _ => ?_⟩
    rw [Option.getD_some, hstands.pointer]
  · exact ⟨fun _ => Or.inr rfl, fun _ => rfl⟩
  · rename_i next
    rcases hgrows with _ | ⟨-, hgrown⟩
    · exact ⟨fun _ => Or.inr rfl, fun _ => rfl⟩
    · rename_i arena j F'
      have hsize := hstands.headed.size (hholds.start_lt (Or.inr hmem)) haddress
      have hsize' := hgrown.headed.size (hgrown.holds.start_lt (Or.inr (Or.inl rfl)))
        (hgrown.frame.address.symm ▸ haddress)
      have hroom : room order.val < room next.val := room_strictMono hlt
      have hlarge := (Len.class_eq_some_iff.mp hclass).2 order.val hlt
      simp only [Option.getD_some]
      rw [hsize', hstands.pointer, hsize]
      constructor
      · intro heq
        have := Int.ofNat.inj (Option.some.inj heq)
        omega
      · rintro (hle | hnone)
        · omega
        · exact absurd hnone (by simp)

theorem roundup_request {bytes : Int32} {len : Len} (hlen : Len.new bytes = some len) :
    roundup (Int32.ofNat len.bytes) = roundup bytes := by
  unfold roundup
  rw [hlen, len.new_ofNat]

/-- The block that a request gets is reported with its rounded size. -/
theorem Reached.reply_size (h : Reached layout address backing world) {bytes : Int32}
    (hstep : world.step (.malloc bytes) = some world') {pointer : ℕ}
    (hreply : world'.reply = some pointer) : world'.arena.size pointer = roundup bytes := by
  have h' : Reached layout address backing world' :=
    .step h (.malloc bytes) trivial hstep
  have hkeeps := h.inv.keeps_malloc hstep h'.inv
  generalize hlive : world'.live = live at hkeeps
  rcases hkeeps with _ | _ | _ | hnone | ⟨hsome, hrequest, -, -⟩
  · rw [hreply] at hnone
    exact absurd hnone (by simp)
  · rename_i l
    have hpointer : l.pointer = pointer := Option.some.inj (hsome.symm.trans hreply)
    have hl : l ∈ world'.live := hlive ▸ List.mem_cons_self
    rw [← hpointer, (h'.size_eq hl).1, roundup_request hrequest]

/-- A block that has grown for a request is reported with its rounded size. -/
theorem Reached.grown_size (h : Reached layout address backing world) (hl : l ∈ world.live)
    {bytes : Int32} (hstep : world.step (.realloc l.pointer bytes) = some world') {len : Len}
    (hlen : Len.new bytes = some len) (hlt : l.request.size < len.bytes) {pointer : ℕ}
    (hreply : world'.reply = some pointer) : world'.arena.size pointer = roundup bytes := by
  have h' : Reached layout address backing world' :=
    .step h (.realloc l.pointer bytes) ⟨l, hl, rfl⟩ hstep
  have hkeeps := (h.inv.keeps_realloc hl hstep h'.inv).1
  obtain ⟨i, order, hstands⟩ := h.inv.stands l hl
  generalize hpointer : l.pointer = p at hkeeps
  generalize hlive : world'.live = live at hkeeps
  rcases hkeeps with _ | _ | _ | _ | _ | _ | hnone | ⟨hm, hsome, hrequest, hroom⟩ |
    ⟨hm, hsome, hrequest, hroom, hcopied, hapart⟩
  · rw [hreply] at hnone
    exact absurd hnone (by simp)
  · -- it would not have fitted
    rename_i m len'
    obtain rfl := World.eq_of_pointer h.inv.nodup hl hm hpointer
    obtain rfl := Option.some.inj (hlen.symm.trans hrequest)
    rw [Len.size_eq hstands.request] at hlt
    rw [hstands.bytes, length_payload] at hroom
    exact absurd hroom (not_le.mpr hlt)
  · rename_i m m'
    have hpointer' : m'.pointer = pointer := Option.some.inj (hsome.symm.trans hreply)
    have hm' : m' ∈ world'.live := hlive ▸ List.mem_map.mpr ⟨m, hm, if_pos rfl⟩
    rw [← hpointer', (h'.size_eq hm').1, roundup_request hrequest]

end Cartel.Sqlite.Heap
