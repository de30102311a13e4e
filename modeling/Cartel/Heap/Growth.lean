import Cartel.Heap.Blocks

/-!
# Headers, copies and growth

A live block holds its owner and order (`Headed`) before its payload. Growing a block absorbs the
buddies that are free, in place or down to the start of the merged block, or moves the payload to
a reserved block, or is refused (`Holds.grow`). What is copied has no byte in common with where it
goes, and no byte of another taken block changes.
-/

namespace Cartel.Sqlite.Heap

open Cartel.Lib (load store load_congr load_store_of_length length_load)
open Cartel.Lib.Dyadic (Block extent Partition Aligned extent_parent extent_subset start_mem
  mem_extent floor mem_floor floor_of_dvd aligned_floor floor_succ floor_xor aligned_buddy and_mask)

variable {M : Type} {arena arena' arena'' : Arena M} {F F' L : Set Block} {i j s u : ℕ}
  {k n o p q : ℕ} {b : Block} {cells touched : Set ℕ}

/-! ## Headers and payloads -/

/-- The header of a live block. -/
structure Headed (arena : Arena M) (i k : ℕ) : Prop where
  owner : load arena.memory (i * 32) 8 = word arena.address
  order : arena.memory (i * 32 + 8) = .ofNat k

/-- The payload of a block. -/
def Arena.payload (arena : Arena M) (i k : ℕ) : List UInt8 :=
  load arena.memory (i * 32 + 16) (room k)

@[simp] theorem length_payload : (arena.payload i k).length = room k :=
  length_load

/-- A byte of a block lies in one of its units. -/
theorem div_mem_extent {a : ℕ} (hge : i * 32 ≤ a) (hlt : a < (i + 2 ^ k) * 32) :
    a / 32 ∈ extent (i, k) := by
  rw [mem_extent]
  dsimp only
  omega

theorem Frame.memory_eq (h : Frame touched arena arena') (hend : i + 2 ^ k ≤ arena.units)
    (hout : Disjoint (extent (i, k)) touched) {a : ℕ} (hge : i * 32 ≤ a)
    (hlt : a < (i + 2 ^ k) * 32) : arena'.memory a = arena.memory a := by
  refine h.memory a ?_ fun hmem => ?_
  · rw [arena.capacity_eq]
    omega
  · exact Set.disjoint_left.mp hout (div_mem_extent hge hlt) hmem

/-- A block that is not touched keeps its header. -/
theorem Frame.headed (h : Frame touched arena arena') (hend : i + 2 ^ k ≤ arena.units)
    (hout : Disjoint (extent (i, k)) touched) (hheaded : Headed arena i n) :
    Headed arena' i n := by
  have hpos := Nat.two_pow_pos k
  refine ⟨?_, ?_⟩
  · rw [h.address, ← hheaded.owner]
    exact load_congr fun _ hd => h.memory_eq hend hout (by omega) (by omega)
  · rw [← hheaded.order]
    exact h.memory_eq hend hout (by omega) (by omega)

/-- A block that is not touched keeps its payload. -/
theorem Frame.payload (h : Frame touched arena arena') (hend : i + 2 ^ k ≤ arena.units)
    (hout : Disjoint (extent (i, k)) touched) : arena'.payload i k = arena.payload i k := by
  have hroom := room_add k
  exact load_congr fun _ hd => h.memory_eq hend hout (by omega) (by omega)

namespace Arena

theorem writeOrder_spec (arena : Arena M) (hi : i < arena.units) (order : Order) :
    ∃ arena', arena.writeOrder i order = some arena' ∧ arena'.heads = arena.heads ∧
      arena'.memory (i * 32 + 8) = .ofNat order.val ∧
      Wrote (Set.Ico (i * 32 + 8) (i * 32 + 9)) arena arena' := by
  have hcap := arena.capacity_eq
  have hwrote := arena.wrote_store (i * 32 + 8) [.ofNat order.val]
  refine ⟨_, write_eq ?_, rfl, ?_, hwrote⟩
  · rw [List.length_singleton, hcap]
    simp only [block, Layout.unitBytes]
    omega
  · simp [store, block, Layout.unitBytes]

theorem writeBlock_spec (arena : Arena M) (hi : i < arena.units) (order : Order) :
    ∃ arena', arena.writeBlock i order = some arena' ∧ arena'.heads = arena.heads ∧
      Headed arena' i order.val ∧ Wrote (Set.Ico (i * 32) (i * 32 + 9)) arena arena' := by
  have hcap := arena.capacity_eq
  have hwrote := arena.wrote_store (i * 32) (word arena.address)
  rw [length_word] at hwrote
  let one : Arena M := { arena with memory := store arena.memory (i * 32) (word arena.address) }
  obtain ⟨two, htwo, hheads, horder, hwrote'⟩ := one.writeOrder_spec hi order
  have hboth := hwrote.trans hwrote'
  refine ⟨two, ?_, hheads, ⟨?_, horder⟩, hboth.address, hboth.units, hboth.references,
    hboth.backing, fun a ha => hboth.memory a fun hmem => ha ?_⟩
  · unfold writeBlock
    rw [write_eq (by
      rw [length_word, hcap]
      simp only [block, Layout.unitBytes]
      omega)]
    exact htwo
  · rw [hboth.address, ← load_store_of_length arena.memory (i * 32) (length_word arena.address)]
    refine load_congr fun d hd => hwrote'.memory _ fun hmem => ?_
    rw [Set.mem_Ico] at hmem
    omega
  · rw [Set.mem_union, Set.mem_Ico, Set.mem_Ico] at hmem
    rw [Set.mem_Ico]
    omega

theorem copy_spec (arena : Arena M) {source destination count : ℕ}
    (hsource : source + count ≤ arena.capacity)
    (hdestination : destination + count ≤ arena.capacity)
    (hapart : source + count ≤ destination ∨ destination + count ≤ source) :
    ∃ arena', arena.copy source destination count = some arena' ∧ arena'.heads = arena.heads ∧
      load arena'.memory destination count = load arena.memory source count ∧
      Wrote (Set.Ico destination (destination + count)) arena arena' := by
  have hwrote := arena.wrote_store destination (load arena.memory source count)
  rw [length_load] at hwrote
  let bytes := load arena.memory source count
  refine ⟨{ arena with memory := store arena.memory destination bytes }, ?_, rfl, ?_, hwrote⟩
  · unfold copy read
    rw [if_pos hsource, Option.bind_eq_bind, Option.bind_some, if_pos hapart]
    exact write_eq (by rwa [length_load])
  · exact load_store_of_length arena.memory destination length_load

end Arena

/-! ## Absorbing buddies -/

theorem clearLow_eq (hk : k ≤ 64) (hu : u < 2 ^ 64) : Arena.clearLow k u = floor k u :=
  and_mask hk hu

theorem floor_le (k u : ℕ) : floor k u ≤ u :=
  (mem_floor k u).1

theorem buddies_eq (hs : s < 2 ^ 26) (previous order : Order) :
    Arena.buddies s previous order = (List.range' previous.val (order.val - previous.val)).map
      fun position => (floor position s ^^^ 2 ^ position, Level.mask position) := by
  refine List.map_congr_left fun position hposition => Prod.ext ?_ rfl
  have hlt : position < 26 := by
    have := List.mem_range'_1.mp hposition
    have := order.isLt
    omega
  have hpow : 2 ^ position < 2 ^ 26 := Nat.pow_lt_pow_right (by decide) hlt
  have hxor := Nat.xor_lt_two_pow hs hpow
  rw [← floor_xor]
  exact clearLow_eq (by omega) (by omega)

/-- The blocks beside a block, up to the block of order `o` around it. -/
def Beside (F : Set Block) (s p o : ℕ) : Prop :=
  ∀ q, p ≤ q → q < o → (floor q s ^^^ 2 ^ q, q) ∈ F

theorem floor_xor_mem (q u : ℕ) : floor q u ^^^ 2 ^ q ∈ extent (floor (q + 1) u, q + 1) := by
  rw [floor_succ, extent_parent (aligned_floor q u)]
  exact Or.inr (start_mem (floor q u ^^^ 2 ^ q, q))

theorem extent_floor_mono (h : p ≤ o) (u : ℕ) :
    extent (floor p u, p) ⊆ extent (floor o u, o) :=
  extent_subset (aligned_floor p u) (aligned_floor o u) (mem_floor p u) (mem_floor o u) h

namespace Holds

theorem allFree (h : Holds arena F L) {list : List (ℕ × Level)}
    (hlt : ∀ b ∈ list, b.1 < arena.units) :
    (arena.allFree list = some true ∧ ∀ b ∈ list, (b.1, b.2.val) ∈ F) ∨
      arena.allFree list = some false ∧ ∃ b ∈ list, (b.1, b.2.val) ∉ F := by
  induction list with
  | nil => exact Or.inl ⟨rfl, fun b hb => absurd hb List.not_mem_nil⟩
  | cons b list ih =>
    obtain ⟨a, level⟩ := b
    rw [Arena.allFree]
    rcases h.free_eq (hlt (a, level) List.mem_cons_self) level with ⟨hmem, hfree⟩ | ⟨hmem, hfree⟩
    · rw [hfree, Option.bind_eq_bind, Option.bind_some]
      dsimp only
      rcases ih fun b hb => hlt b (List.mem_cons_of_mem _ hb) with ⟨hall, hF⟩ | ⟨hall, b, hb, hF⟩
      · exact Or.inl ⟨hall, List.forall_mem_cons.mpr ⟨hmem, hF⟩⟩
      · exact Or.inr ⟨hall, b, List.mem_cons_of_mem _ hb, hF⟩
    · rw [hfree, Option.bind_eq_bind, Option.bind_some]
      exact Or.inr ⟨rfl, (a, level), List.mem_cons_self, hmem⟩

/-- Absorb the buddies of a block, one order after the other. -/
theorem unlinkAll (h : Holds arena F L) (hlt : q + n < 32) (hb : (floor q s, q) ∈ L)
    (hfree : Beside F s q (q + n)) :
    ∃ arena' F', arena.unlinkAll ((List.range' q n).map fun position =>
        (floor position s ^^^ 2 ^ position, Level.mask position)) = some arena' ∧
      Holds arena' F' (insert (floor (q + n) s, q + n) (L \ {(floor q s, q)})) ∧
      Frame (units F) arena arena' ∧
      extent (floor (q + n) s, q + n) ⊆ units F ∪ extent (floor q s, q) := by
  induction n generalizing arena F L q with
  | zero =>
    refine ⟨arena, F, rfl, ?_, .refl arena, Set.subset_union_right⟩
    rwa [Nat.add_zero, Set.insert_sdiff_singleton, Set.insert_eq_of_mem hb]
  | succ n ih =>
    have hval : (Level.mask q).val = q := val_mask (by omega)
    have hmem := hfree q le_rfl (by omega)
    obtain ⟨one, hunlink, hholds, hframe⟩ := h.merge (k := Level.mask q) (by rwa [hval])
      (by rwa [hval])
    rw [hval, ← floor_succ] at hholds
    rw [hval] at hunlink
    have hnot : (floor (q + 1) s, q + 1) ∉ L := fun hL => by
      refine h.notMem_order hL (extent_floor_mono (Nat.le_succ q) s (start_mem (floor q s, q)))
        (fun heq => ?_) hb
      have := (Prod.mk.inj heq).2
      omega
    have hrest : Beside (F \ {(floor q s ^^^ 2 ^ q, q)}) s (q + 1) (q + 1 + n) := by
      intro r hge hlt'
      refine ⟨hfree r (by omega) (by omega), fun heq => ?_⟩
      have := (Prod.mk.inj heq).2
      omega
    obtain ⟨arena', F', hall, hholds', hframe', hsub⟩ := ih hholds (by omega) (Or.inl rfl) hrest
    have horder : q + 1 + n = q + (n + 1) := by omega
    rw [horder] at hholds' hsub
    rw [Set.insert_sdiff_self_of_notMem fun hmem => hnot hmem.1] at hholds'
    refine ⟨arena', F', ?_, hholds', hframe.trans (hframe'.mono (units_mono Set.sdiff_subset)), ?_⟩
    · rw [List.range'_succ, List.map_cons]
      unfold Arena.unlinkAll at hall ⊢
      rw [List.foldlM_cons, Arena.readFree_eq (h.start_lt (Or.inl hmem))]
      simp only [Option.bind_eq_bind, Option.bind_some, hunlink]
      exact hall
    · refine hsub.trans (Set.union_subset ((units_mono Set.sdiff_subset).trans
        Set.subset_union_left) ?_)
      rw [floor_succ, extent_parent (aligned_floor q s)]
      exact Set.union_subset Set.subset_union_right
        ((extent_subset_units hmem).trans Set.subset_union_left)

/-- A write inside a taken block. -/
theorem write (h : Holds arena F L) (hb : (i, k) ∈ L) (hheads : arena'.heads = arena.heads)
    (hwrote : Wrote cells arena arena')
    (hcells : ∀ a ∈ cells, i * 32 ≤ a ∧ a < (i + 2 ^ k) * 32) :
    Holds arena' F L ∧ Frame (extent (i, k)) arena arena' := by
  have hend := h.end_le (Or.inr hb)
  refine ⟨h.congr hheads hwrote fun a ha => ?_, hwrote.frame fun a ha _ =>
    div_mem_extent (hcells a ha).1 (hcells a ha).2⟩
  obtain ⟨hge, hlt⟩ := hcells a ha
  refine ⟨by rw [arena.capacity_eq]; dsimp only at hend; omega, ?_⟩
  rintro ⟨c, hc, hmem⟩
  exact Set.disjoint_left.mp (h.split.disjoint hc hb) hmem (div_mem_extent hge hlt)

end Holds

/-! ## Growing -/

/-- A block has grown : it is taken at its new order, its header is there, and its payload starts
with the old one. -/
structure Grown (arena arena' : Arena M) (F F' L : Set Block) (s p i o : ℕ) : Prop where
  holds : Holds arena' F' (insert (i, o) (L \ {(s, p)}))
  headed : Headed arena' i o
  fresh : (i, o) ∉ L \ {(s, p)}
  copied : load arena'.memory (i * 32 + 16) (room p) = arena.payload s p
  frame : Frame (units F ∪ extent (s, p)) arena arena'

namespace Holds

theorem growAdjacent (h : Holds arena F L) {previous order : Order} (hlt : previous < order)
    (hb : (s, previous.val) ∈ L) (hheaded : Headed arena s previous.val) :
    (arena.growAdjacent s previous order = some none ∧
        ¬ (floor order.val s + 2 ^ order.val ≤ arena.units ∧
          Beside F s previous.val order.val)) ∨
      ∃ arena' F', arena.growAdjacent s previous order =
          some (some (arena', arena.pointer (floor order.val s))) ∧
        (floor order.val s + 2 ^ order.val ≤ arena.units ∧
          Beside F s previous.val order.val) ∧
        Grown arena arena' F F' L s previous.val (floor order.val s) order.val := by
  have hsmall := h.small
  have hs := h.start_lt (Or.inr hb)
  have hend := h.end_le (Or.inr hb)
  have hdvd : 2 ^ previous.val ∣ s := h.split.tiles.aligned (Or.inr hb)
  have hself : floor previous.val s = s := floor_of_dvd hdvd
  have horder := order.isLt
  dsimp only at hs hend
  have hbase : Arena.clearLow order.val s = floor order.val s := clearLow_eq (by omega) (by omega)
  have hle := floor_le order.val s
  unfold Arena.growAdjacent
  have hrest : less arena.units (floor order.val s) =
      some (arena.units - floor order.val s) := less_eq (by omega)
  simp only [hbase, hrest, Option.bind_eq_bind, Option.bind_some]
  by_cases hroom : arena.units - floor order.val s < 2 ^ order.val
  · exact Or.inl ⟨if_pos hroom, fun hfits => by omega⟩
  rw [if_neg hroom, buddies_eq (by omega)]
  have hfits : floor order.val s + 2 ^ order.val ≤ arena.units := by omega
  have hin : ∀ b ∈ (List.range' previous.val (order.val - previous.val)).map (fun position =>
      (floor position s ^^^ 2 ^ position, Level.mask position)), b.1 < arena.units := by
    intro b hmem
    obtain ⟨position, hposition, rfl⟩ := List.mem_map.mp hmem
    have hrange := List.mem_range'_1.mp hposition
    have hinside := extent_floor_mono (show position + 1 ≤ order.val by omega) s
      (floor_xor_mem position s)
    rw [mem_extent] at hinside
    dsimp only at hinside ⊢
    omega
  have hbeside : (∀ b ∈ (List.range' previous.val (order.val - previous.val)).map (fun position =>
      (floor position s ^^^ 2 ^ position, Level.mask position)), (b.1, b.2.val) ∈ F) ↔
      Beside F s previous.val order.val := by
    refine ⟨fun hall q hge hlt' => ?_, fun hall b hmem => ?_⟩
    · have hmem := hall _ (List.mem_map.mpr ⟨q, List.mem_range'_1.mpr ⟨hge, by omega⟩, rfl⟩)
      rwa [val_mask (by omega)] at hmem
    · obtain ⟨position, hposition, rfl⟩ := List.mem_map.mp hmem
      have hrange := List.mem_range'_1.mp hposition
      dsimp only
      rw [val_mask (by omega)]
      exact hall position hrange.1 (by omega)
  rcases h.allFree hin with ⟨hall, hF⟩ | ⟨hall, b, hmem, hF⟩
  · right
    have hclear := hbeside.mp hF
    have hsum : previous.val + (order.val - previous.val) = order.val := by
      have : previous.val < order.val := hlt
      omega
    obtain ⟨one, F', hone, hholds, hframe, hsub⟩ :=
      h.unlinkAll (q := previous.val) (n := order.val - previous.val) (s := s) (by omega)
        (by rwa [hself]) (by rwa [hsum])
    rw [hsum, hself] at hholds hsub
    have hend' : floor order.val s + 2 ^ order.val ≤ one.units := by rw [hframe.units]; exact hfits
    have hapart : Disjoint (extent (s, previous.val)) (units F) := by
      rw [Set.disjoint_left]
      rintro u hu ⟨c, hc, hmem⟩
      exact Set.disjoint_left.mp (h.split.disjoint hc hb) hmem hu
    have hheaded₁ := hframe.headed hend hapart hheaded
    have hpayload₁ := hframe.payload hend hapart
    have htaken : (floor order.val s, order.val) ∈
        insert (floor order.val s, order.val) (L \ {(s, previous.val)}) := Or.inl rfl
    have hnew : (floor order.val s, order.val) ∉ L \ {(s, previous.val)} := fun hmem => by
      refine h.notMem_order hmem.1 (mem_floor order.val s) (fun heq => ?_) hb
      have horder := (Prod.mk.inj heq).2
      have : previous.val < order.val := hlt
      omega
    have hpos := Nat.two_pow_pos order.val
    rw [hall, Option.bind_some]
    simp only [Bool.not_true, Bool.false_eq_true, if_false]
    rw [hone, Option.bind_some]
    by_cases hstart : floor order.val s = s
    · -- the block keeps its start : only the order is written
      rw [hstart] at hholds hsub hend' htaken hnew ⊢
      obtain ⟨two, htwo, hheads, hbyte, hwrote⟩ :=
        one.writeOrder_spec (show s < one.units by omega) order
      obtain ⟨hholds', hframe'⟩ := hholds.write htaken hheads hwrote fun a ha => by
        rw [Set.mem_Ico] at ha
        omega
      refine ⟨two, F', ?_, ⟨by rwa [hstart] at hfits, hclear⟩, hholds', ⟨?_, hbyte⟩, hnew, ?_,
        (hframe.mono Set.subset_union_left).trans (hframe'.mono hsub)⟩
      · rw [if_pos rfl, htwo]
        rfl
      · rw [hwrote.address, ← hheaded₁.owner]
        refine load_congr fun d hd => hwrote.memory _ fun hmem => ?_
        rw [Set.mem_Ico] at hmem
        omega
      · rw [← hpayload₁]
        refine load_congr fun d hd => hwrote.memory _ fun hmem => ?_
        rw [Set.mem_Ico] at hmem
        omega
    · -- the payload moves down : its old place starts behind the end of the new one
      have hbelow : floor order.val s + 2 ^ previous.val ≤ s := by
        have hdvd' : 2 ^ previous.val ∣ floor order.val s :=
          (pow_dvd_pow 2 (by have : previous.val < order.val := hlt; omega)).trans
            (aligned_floor order.val s)
        have hdiff := Nat.dvd_sub hdvd hdvd'
        have := Nat.le_of_dvd (by omega) hdiff
        omega
      have hroom := room_add previous.val
      have hpos' := Nat.two_pow_pos previous.val
      have hpow : 2 ^ previous.val ≤ 2 ^ order.val :=
        Nat.pow_le_pow_right (by decide) (show previous.val < order.val from hlt).le
      obtain ⟨two, htwo, hheads, hheaded₂, hwrote⟩ :=
        one.writeBlock_spec (show floor order.val s < one.units by omega) order
      obtain ⟨hholds₂, hframe₂⟩ := hholds.write htaken hheads hwrote fun a ha => by
        rw [Set.mem_Ico] at ha
        omega
      have hunits₂ : two.units = arena.units := hframe₂.units.trans hframe.units
      have hcap₂ : two.capacity = arena.units * 32 := by rw [two.capacity_eq, hunits₂]
      obtain ⟨three, hthree, hheads₃, hload, hwrote₃⟩ :=
        two.copy_spec (show s * 32 + 16 + room previous.val ≤ two.capacity by omega)
          (show floor order.val s * 32 + 16 + room previous.val ≤ two.capacity by omega)
          (by omega)
      obtain ⟨hholds₃, hframe₃⟩ := hholds₂.write htaken hheads₃ hwrote₃ fun a ha => by
        rw [Set.mem_Ico] at ha
        omega
      refine ⟨three, F', ?_, ⟨hfits, hclear⟩, hholds₃, ⟨?_, ?_⟩, hnew, ?_,
        (hframe.mono Set.subset_union_left).trans
          ((hframe₂.mono hsub).trans (hframe₃.mono hsub))⟩
      · rw [if_neg hstart, htwo, Option.bind_some, payloadBytes_eq, Option.bind_some]
        exact congrArg (fun result => result >>= fun arena' =>
          some (some (arena', arena.pointer (floor order.val s)))) hthree
      · rw [hwrote₃.address, ← hheaded₂.owner]
        refine load_congr fun d hd => hwrote₃.memory _ fun hmem => ?_
        rw [Set.mem_Ico] at hmem
        omega
      · rw [← hheaded₂.order]
        refine hwrote₃.memory _ fun hmem => ?_
        rw [Set.mem_Ico] at hmem
        omega
      · rw [hload, ← hpayload₁]
        refine load_congr fun d hd => hwrote.memory _ fun hmem => ?_
        rw [Set.mem_Ico] at hmem
        omega
  · left
    refine ⟨?_, fun hclear => hF (hbeside.mpr hclear.2 b hmem)⟩
    rw [hall]
    rfl

/-- A unit is free exactly if no taken block has it. -/
theorem mem_units (h : Holds arena F L) :
    u ∈ units F ↔ u < arena.units ∧ ¬ ∃ b ∈ L, u ∈ extent b := by
  have hiff := h.split.mem_free_iff (u := u)
  exact hiff.trans (and_congr_left fun _ => ⟨fun hR => hR.2, fun hlt => ⟨Nat.zero_le u, hlt⟩⟩)

/-- With more blocks taken there is less free. -/
theorem units_subset (h : Holds arena F L) {L' : Set Block} (h' : Holds arena' F' L')
    (hunits : arena'.units = arena.units) (hsub : L ⊆ L') : units F' ⊆ units F := by
  intro u hu
  obtain ⟨hlt, hnot⟩ := h'.mem_units.mp hu
  refine h.mem_units.mpr ⟨hunits ▸ hlt, ?_⟩
  rintro ⟨b, hb, hmem⟩
  exact hnot ⟨b, hsub hb, hmem⟩

theorem disjoint_units (h : Holds arena F L) (hb : b ∈ L) : Disjoint (extent b) (units F) := by
  rw [Set.disjoint_left]
  rintro u hu hfree
  exact (h.mem_units.mp hfree).2 ⟨b, hb, hu⟩

/-- A taken block stands apart from the free ones and from another taken one. -/
theorem apart (h : Holds arena F L) {a : Block} (ha : a ∈ L) (hb : b ∈ L) (hne : a ≠ b) :
    Disjoint (extent a) (units F ∪ extent b) :=
  Disjoint.union_right (h.disjoint_units ha)
    (h.split.tiles.disjoint (Or.inr ha) (Or.inr hb) hne)

/-- Copy a block to a larger one that has been reserved, and recycle it. -/
theorem replace (h : Holds arena F L) {previous order : Order} (hlt : previous < order)
    (hb : (s, previous.val) ∈ L) (hnew : (i, order.val) ∈ L)
    (hne : (i, order.val) ≠ (s, previous.val)) :
    ∃ arena' F', arena.replace i order s previous = some (arena', arena.pointer i) ∧
      Holds arena' F' (L \ {(s, previous.val)}) ∧ Headed arena' i order.val ∧
      load arena'.memory (i * 32 + 16) (room previous.val) = arena.payload s previous.val ∧
      Frame (units F ∪ extent (s, previous.val) ∪ extent (i, order.val)) arena arena' := by
  have hend := h.end_le (Or.inr hb)
  have hend' := h.end_le (Or.inr hnew)
  have hapart : Disjoint (extent (i, order.val)) (extent (s, previous.val)) :=
    h.split.tiles.disjoint (Or.inr hnew) (Or.inr hb) hne
  have hpos := Nat.two_pow_pos previous.val
  have hpos' := Nat.two_pow_pos order.val
  have hroom := room_add previous.val
  have hpow : 2 ^ previous.val ≤ 2 ^ order.val :=
    Nat.pow_le_pow_right (by decide) (show previous.val < order.val from hlt).le
  have hcap := arena.capacity_eq
  have hbeside : i + 2 ^ order.val ≤ s ∨ s + 2 ^ previous.val ≤ i := by
    have hmem := Set.disjoint_left.mp hapart (start_mem (i, order.val))
    have hmem' := Set.disjoint_right.mp hapart (start_mem (s, previous.val))
    rw [mem_extent] at hmem hmem'
    dsimp only at hmem hmem'
    omega
  dsimp only at hend hend'
  obtain ⟨one, hone, hheads₁, hheaded₁, hwrote₁⟩ :=
    arena.writeBlock_spec (show i < arena.units by omega) order
  obtain ⟨hholds₁, hframe₁⟩ := h.write hnew hheads₁ hwrote₁ fun a ha => by
    rw [Set.mem_Ico] at ha
    omega
  have hcap₁ : one.capacity = arena.units * 32 := by rw [one.capacity_eq, hframe₁.units]
  obtain ⟨two, htwo, hheads₂, hload, hwrote₂⟩ :=
    one.copy_spec (show s * 32 + 16 + room previous.val ≤ one.capacity by omega)
      (show i * 32 + 16 + room previous.val ≤ one.capacity by omega) (by omega)
  obtain ⟨hholds₂, hframe₂⟩ := hholds₁.write hnew hheads₂ hwrote₂ fun a ha => by
    rw [Set.mem_Ico] at ha
    omega
  have hheaded₂ : Headed two i order.val := by
    refine ⟨?_, ?_⟩
    · rw [hwrote₂.address, ← hheaded₁.owner]
      refine load_congr fun d hd => hwrote₂.memory _ fun hmem => ?_
      rw [Set.mem_Ico] at hmem
      omega
    · rw [← hheaded₁.order]
      refine hwrote₂.memory _ fun hmem => ?_
      rw [Set.mem_Ico] at hmem
      omega
  obtain ⟨three, F', hthree, hholds₃, hframe₃⟩ :=
    hholds₂.recycle (k := previous.widen) (i := s) hb
  -- recycling the old block does not reach the new one
  have hout : Disjoint (extent (i, order.val)) (units F ∪ extent (s, previous.val)) :=
    Disjoint.union_right (hholds₂.disjoint_units hnew) hapart
  have hend₂ : i + 2 ^ order.val ≤ two.units := by
    rw [hframe₂.units, hframe₁.units]
    exact hend'
  refine ⟨three, F', ?_, hholds₃, hframe₃.headed hend₂ hout hheaded₂, ?_,
    (hframe₁.mono Set.subset_union_right).trans
      ((hframe₂.mono Set.subset_union_right).trans (hframe₃.mono Set.subset_union_left))⟩
  · unfold Arena.replace
    rw [hone, Option.bind_eq_bind, Option.bind_some, payloadBytes_eq]
    simp only [Option.bind_eq_bind, Option.bind_some]
    rw [show one.copy (one.pointer s) (one.pointer i) (room previous.val) = some two from htwo]
    simp only [Option.bind_some]
    rw [hthree]
    rfl
  · have hkept : load three.memory (i * 32 + 16) (room previous.val) =
        load two.memory (i * 32 + 16) (room previous.val) :=
      load_congr fun d hd => hframe₃.memory_eq hend₂ hout (by omega) (by omega)
    rw [hkept, hload]
    refine load_congr fun d hd => hwrote₁.memory _ fun hmem => ?_
    rw [Set.mem_Ico] at hmem
    omega

/-- What growing a block does. -/
inductive Grows (arena : Arena M) (F L : Set Block) (s : ℕ) (previous order : Order) :
    Arena M × Option ℕ → Prop where
  | refused (hfree : ∀ b ∈ F, b.2 < order.val)
      (hbeside : ¬ (floor order.val s + 2 ^ order.val ≤ arena.units ∧
        Beside F s previous.val order.val)) : Grows arena F L s previous order (arena, none)
  | grown {arena' : Arena M} {i : ℕ} {F' : Set Block}
      (room : (∃ b ∈ F, order.val ≤ b.2) ∨ floor order.val s + 2 ^ order.val ≤ arena.units ∧
        Beside F s previous.val order.val)
      (h : Grown arena arena' F F' L s previous.val i order.val) :
      Grows arena F L s previous order (arena', some (i * 32 + 16))

theorem grow (h : Holds arena F L) {previous order : Order} (hlt : previous < order)
    (hb : (s, previous.val) ∈ L) (hheaded : Headed arena s previous.val) :
    ∃ result, arena.grow s previous order = some result ∧
      Grows arena F L s previous order result := by
  unfold Arena.grow
  rcases h.growAdjacent hlt hb hheaded with ⟨hgrow, hbeside⟩ | ⟨arena', F', hgrow, hclear, hgrown⟩
  · rw [hgrow, Option.bind_eq_bind, Option.bind_some]
    obtain ⟨result, hreserve, hresult⟩ := h.reserve order
    dsimp only
    rw [hreserve, Option.bind_some]
    rcases hresult with hfree | ⟨hfree, hle, hsub, hholds, hnot, hframe⟩
    · exact ⟨_, rfl, .refused hfree hbeside⟩
    · rename_i one i F₁ b
      have hne : (i, order.val) ≠ (s, previous.val) := fun heq => by
        have horder := (Prod.mk.inj heq).2
        have : previous.val < order.val := hlt
        omega
      obtain ⟨two, F', hreplace, hholds', hheaded', hcopied, hframe'⟩ :=
        hholds.replace hlt (Or.inr hb) (Or.inl rfl) hne
      have hend := h.end_le (Or.inr hb)
      have hpayload := hframe.payload hend (h.disjoint_units hb)
      have hnot' : (i, order.val) ∉ ({(s, previous.val)} : Set Block) := hne
      rw [Set.insert_sdiff_of_notMem _ hnot'] at hholds'
      refine ⟨(two, some (i * 32 + 16)), ?_, .grown (Or.inl ⟨b, hfree, hle⟩)
        ⟨hholds', hheaded', fun hmem => hnot hmem.1, hcopied.trans hpayload, ?_⟩⟩
      · dsimp only
        rw [hreplace]
        rfl
      · refine (hframe.mono Set.subset_union_left).trans (hframe'.mono ?_)
        refine Set.union_subset (Set.union_subset_union_left _ ?_) ?_
        · exact h.units_subset hholds hframe.units (Set.subset_insert _ _)
        · exact hsub.trans ((extent_subset_units hfree).trans Set.subset_union_left)
  · exact ⟨(arena', some (floor order.val s * 32 + 16)), by rw [hgrow]; rfl,
      .grown (Or.inr hclear) hgrown⟩

end Holds

end Cartel.Sqlite.Heap
