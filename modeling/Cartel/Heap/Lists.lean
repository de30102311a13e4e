import Cartel.Heap.Raw
import Cartel.Lib.Linked
import Mathlib.Data.Set.Basic

/-!
# The free lists in memory

`Lists` says that the links and the control bytes of an arena spell some disjoint lists of free
blocks, one for each level. `Lists.link` and `Lists.unlink` put a block on a list and take it off,
and change no byte of a block outside of the free ones (`Frame`).
-/

namespace Cartel.Sqlite.Heap

open Cartel.Lib (load store load_congr store_outside load_store_of_length Chains
  ofBigEndian_bigEndian length_bigEndian)

variable {M : Type}

/-! ## Words, links and marks -/

@[simp] theorem length_word (n : ℕ) : (word n).length = 8 := by
  rw [word, List.length_reverse, length_bigEndian]

theorem ofWord_word {n : ℕ} (h : n < 2 ^ 64) : ofWord (word n) = n := by
  rw [ofWord, word, List.reverse_reverse, ofBigEndian_bigEndian]
  exact Nat.mod_eq_of_lt h

@[simp] theorem length_encodeIndex (link : Option ℕ) : (encodeIndex link).length = 8 := by
  cases link <;> exact length_word _

theorem decodeIndex_encodeIndex {link : Option ℕ} (h : ∀ i, link = some i → i + 1 < 2 ^ 64) :
    decodeIndex (encodeIndex link) = link := by
  unfold decodeIndex encodeIndex
  cases link with
  | none => rw [ofWord_word (by decide)]
  | some i => rw [ofWord_word (h i rfl)]

theorem mark_toNat (order : Level) : (mark order).toNat = 128 + order.val := by
  have hlt := order.isLt
  rw [mark, UInt8.toNat_ofNat']
  omega

theorem mark_injective {j k : Level} (h : mark j = mark k) : j = k := by
  have heq := congrArg UInt8.toNat h
  rw [mark_toNat, mark_toNat] at heq
  exact Fin.ext (by omega)

theorem mark_ne_zero (order : Level) : mark order ≠ 0 := by
  intro h
  have heq := congrArg UInt8.toNat h
  rw [mark_toNat, UInt8.toNat_zero] at heq
  omega

theorem val_mask {n : ℕ} (h : n < 32) : (Level.mask n).val = n :=
  Nat.mod_eq_of_lt h

/-! ## What a write leaves -/

/-- The arena with other bytes at most in the given cells. -/
structure Wrote (cells : Set ℕ) (arena arena' : Arena M) : Prop where
  address : arena'.address = arena.address
  units : arena'.units = arena.units
  references : arena'.references = arena.references
  backing : arena'.backing = arena.backing
  memory : ∀ a ∉ cells, arena'.memory a = arena.memory a

/-- No byte of a block outside of the touched units changes. -/
structure Frame (touched : Set ℕ) (arena arena' : Arena M) : Prop where
  address : arena'.address = arena.address
  units : arena'.units = arena.units
  references : arena'.references = arena.references
  backing : arena'.backing = arena.backing
  memory : ∀ a < arena.capacity, a / 32 ∉ touched → arena'.memory a = arena.memory a

variable {cells cells' touched touched' : Set ℕ} {arena arena' arena'' : Arena M} {i j : ℕ}
  {k : Level}

namespace Wrote

theorem trans (h : Wrote cells arena arena') (h' : Wrote cells' arena' arena'') :
    Wrote (cells ∪ cells') arena arena'' where
  address := h'.address.trans h.address
  units := h'.units.trans h.units
  references := h'.references.trans h.references
  backing := h'.backing.trans h.backing
  memory := fun a ha => (h'.memory a fun hmem => ha (Or.inr hmem)).trans
    (h.memory a fun hmem => ha (Or.inl hmem))

theorem capacity (h : Wrote cells arena arena') : arena'.capacity = arena.capacity := by
  unfold Arena.capacity
  rw [h.units]

theorem previous (h : Wrote cells arena arena')
    (hout : ∀ a, j * 32 ≤ a → a < j * 32 + 8 → a ∉ cells) : arena'.previous j = arena.previous j :=
  congrArg decodeIndex (load_congr fun _ hd => h.memory _ (hout _ (Nat.le_add_right _ _)
    (Nat.add_lt_add_left hd _)))

theorem next (h : Wrote cells arena arena')
    (hout : ∀ a, j * 32 + 8 ≤ a → a < j * 32 + 16 → a ∉ cells) : arena'.next j = arena.next j :=
  congrArg decodeIndex (load_congr fun _ _ => h.memory _ (hout _ (Nat.le_add_right _ _)
    (by simp only [Arena.block, Layout.unitBytes]; omega)))

end Wrote

namespace Frame

theorem refl (arena : Arena M) : Frame touched arena arena :=
  ⟨rfl, rfl, rfl, rfl, fun _ _ _ => rfl⟩

theorem capacity (h : Frame touched arena arena') : arena'.capacity = arena.capacity := by
  unfold Arena.capacity
  rw [h.units]

theorem trans (h : Frame touched arena arena') (h' : Frame touched arena' arena'') :
    Frame touched arena arena'' where
  address := h'.address.trans h.address
  units := h'.units.trans h.units
  references := h'.references.trans h.references
  backing := h'.backing.trans h.backing
  memory := fun a ha hout => (h'.memory a (h.capacity.symm ▸ ha) hout).trans (h.memory a ha hout)

theorem mono (h : Frame touched arena arena') (hsub : touched ⊆ touched') :
    Frame touched' arena arena' :=
  ⟨h.address, h.units, h.references, h.backing, fun a ha hout => h.memory a ha fun hmem =>
    hout (hsub hmem)⟩

end Frame

/-- A write to first bytes of touched units and to control bytes. -/
theorem Wrote.frame (h : Wrote cells arena arena')
    (hcells : ∀ a ∈ cells, a < arena.capacity → a / 32 ∈ touched) : Frame touched arena arena' :=
  ⟨h.address, h.units, h.references, h.backing, fun a ha hout => h.memory a fun hmem =>
    hout (hcells a hmem ha)⟩

namespace Arena

theorem capacity_eq (arena : Arena M) : arena.capacity = arena.units * 32 :=
  rfl

theorem write_eq {start : ℕ} {bytes : List UInt8} (h : start + bytes.length ≤ arena.capacity) :
    arena.write start bytes = some { arena with memory := store arena.memory start bytes } :=
  if_pos h

theorem wrote_store (arena : Arena M) (start : ℕ) (bytes : List UInt8) :
    Wrote (Set.Ico start (start + bytes.length)) arena
      { arena with memory := store arena.memory start bytes } where
  address := rfl
  units := rfl
  references := rfl
  backing := rfl
  memory := fun a ha => store_outside (by
    rw [Set.mem_Ico, not_and_or] at ha
    omega)

/-- A link that fits a word. -/
def Fits (link : Option ℕ) : Prop :=
  ∀ i, link = some i → i + 1 < 2 ^ 64

theorem setPrevious_spec (arena : Arena M) (hi : i < arena.units) {link : Option ℕ}
    (hlink : Fits link) :
    ∃ arena', arena.setPrevious i link = some arena' ∧ arena'.heads = arena.heads ∧
      arena'.previous i = link ∧ Wrote (Set.Ico (i * 32) (i * 32 + 8)) arena arena' := by
  have hcap := arena.capacity_eq
  have hwrite := arena.wrote_store (i * 32) (encodeIndex link)
  rw [length_encodeIndex] at hwrite
  refine ⟨_, write_eq ?_, rfl, ?_, hwrite⟩
  · rw [length_encodeIndex, hcap]
    simp only [block, Layout.unitBytes]
    omega
  · have hload := load_store_of_length arena.memory (i * 32) (length_encodeIndex link)
    exact (congrArg decodeIndex hload).trans (decodeIndex_encodeIndex hlink)

theorem setNext_spec (arena : Arena M) (hi : i < arena.units) {link : Option ℕ}
    (hlink : Fits link) :
    ∃ arena', arena.setNext i link = some arena' ∧ arena'.heads = arena.heads ∧
      arena'.next i = link ∧ Wrote (Set.Ico (i * 32 + 8) (i * 32 + 16)) arena arena' := by
  have hcap := arena.capacity_eq
  have hwrite := arena.wrote_store (i * 32 + 8) (encodeIndex link)
  rw [length_encodeIndex] at hwrite
  refine ⟨_, write_eq ?_, rfl, ?_, hwrite⟩
  · rw [length_encodeIndex, hcap]
    simp only [block, Layout.unitBytes]
    omega
  · have hload := load_store_of_length arena.memory (i * 32 + 8) (length_encodeIndex link)
    exact (congrArg decodeIndex hload).trans (decodeIndex_encodeIndex hlink)

theorem setControl_spec (arena : Arena M) (hi : i < arena.units) (value : UInt8) :
    ∃ arena', arena.setControl i value = some arena' ∧ arena'.heads = arena.heads ∧
      arena'.memory (arena.capacity + i) = value ∧
      Wrote {arena.capacity + i} arena arena' := by
  have hwrite := arena.wrote_store (arena.capacity + i) [value]
  have hcells : Set.Ico (arena.capacity + i) (arena.capacity + i + [value].length) =
      {arena.capacity + i} := by
    ext a
    rw [Set.mem_Ico, Set.mem_singleton_iff, List.length_singleton]
    omega
  rw [hcells] at hwrite
  refine ⟨_, if_pos hi, rfl, ?_, hwrite⟩
  simp [store]

/-- The cells of the first link of a block, if there is one. -/
def backCells (next : Option ℕ) : Set ℕ :=
  {a | ∃ n, next = some n ∧ n * 32 ≤ a ∧ a < n * 32 + 8}

/-- The cells of the second link of a block, if there is one. -/
def forwardCells (previous : Option ℕ) : Set ℕ :=
  {a | ∃ n, previous = some n ∧ n * 32 + 8 ≤ a ∧ a < n * 32 + 16}

theorem setBack_spec (arena : Arena M) {next link : Option ℕ}
    (hnext : ∀ n, next = some n → n < arena.units) (hlink : Fits link) :
    ∃ arena', arena.setBack next link = some arena' ∧ arena'.heads = arena.heads ∧
      (∀ n, next = some n → arena'.previous n = link) ∧
      Wrote (backCells next) arena arena' := by
  cases next with
  | none =>
    exact ⟨arena, rfl, rfl, fun n hn => absurd hn (by simp), ⟨rfl, rfl, rfl, rfl, fun _ _ => rfl⟩⟩
  | some n =>
    obtain ⟨arena', hset, hheads, hprev, hwrote⟩ := arena.setPrevious_spec (hnext n rfl) hlink
    refine ⟨arena', hset, hheads, fun m hm => Option.some.inj hm ▸ hprev, ?_⟩
    have hcells : backCells (some n) = Set.Ico (n * 32) (n * 32 + 8) := by
      ext a
      simp [backCells]
    rwa [hcells]

theorem setForward_spec (arena : Arena M) {previous link : Option ℕ}
    (hprevious : ∀ n, previous = some n → n < arena.units) (hlink : Fits link) (k : Level) :
    ∃ arena', arena.setForward k previous link = some arena' ∧
      arena'.heads = (if previous = none then Function.update arena.heads k link
        else arena.heads) ∧
      (∀ n, previous = some n → arena'.next n = link) ∧
      Wrote (forwardCells previous) arena arena' := by
  cases previous with
  | none =>
    exact ⟨_, rfl, rfl, fun n hn => absurd hn (by simp), ⟨rfl, rfl, rfl, rfl, fun _ _ => rfl⟩⟩
  | some n =>
    obtain ⟨arena', hset, hheads, hnext, hwrote⟩ := arena.setNext_spec (hprevious n rfl) hlink
    refine ⟨arena', hset, by rw [hheads, if_neg (by simp)], fun m hm => Option.some.inj hm ▸ hnext,
      ?_⟩
    have hcells : forwardCells (some n) = Set.Ico (n * 32 + 8) (n * 32 + 16) := by
      ext a
      simp [forwardCells]
    rwa [hcells]

theorem readFree_eq (hi : i < arena.units) :
    arena.readFree i k = some ⟨i, k, arena.previous i, arena.next i⟩ := by
  have hread : arena.read (arena.block i) 16 = some (load arena.memory (arena.block i) 16) := by
    refine if_pos ?_
    rw [capacity_eq]
    simp only [block, Layout.unitBytes]
    omega
  rw [readFree, hread]
  rfl

end Arena

/-! ## What linking and unlinking write -/

/-- The cells that linking a block writes. -/
def linkCells (arena : Arena M) (i : ℕ) (next : Option ℕ) : Set ℕ :=
  {a | (i * 32 ≤ a ∧ a < i * 32 + 16) ∨ a ∈ Arena.backCells next ∨ a = arena.capacity + i}

/-- The cells that unlinking a block writes. -/
def unlinkCells (arena : Arena M) (i : ℕ) (previous next : Option ℕ) : Set ℕ :=
  {a | a ∈ Arena.forwardCells previous ∨ a ∈ Arena.backCells next ∨ a = arena.capacity + i}

theorem Arena.link_effect (hi : i < arena.units)
    (hhead : ∀ n, arena.heads k = some n → n < arena.units ∧ n ≠ i) (hfits : Fits (some i))
    (hnext : Fits (arena.heads k)) :
    ∃ arena', arena.link i k = some arena' ∧
      arena'.heads = Function.update arena.heads k (some i) ∧ arena'.previous i = none ∧
      arena'.next i = arena.heads k ∧
      (∀ n, arena.heads k = some n → arena'.previous n = some i) ∧
      arena'.memory (arena.capacity + i) = mark k ∧
      Wrote (linkCells arena i (arena.heads k)) arena arena' := by
  have hcap := arena.capacity_eq
  obtain ⟨one, hone, hheads₁, hprev₁, hwrote₁⟩ :=
    arena.setPrevious_spec hi (show Fits none from fun _ h => absurd h (by simp))
  obtain ⟨two, htwo, hheads₂, hnext₂, hwrote₂⟩ :=
    one.setNext_spec (hwrote₁.units ▸ hi) hnext
  have hunits₂ : two.units = arena.units := hwrote₂.units.trans hwrote₁.units
  obtain ⟨three, hthree, hheads₃, hback, hwrote₃⟩ :=
    two.setBack_spec (fun n hn => hunits₂ ▸ (hhead n hn).1) hfits
  have hunits₃ : three.units = arena.units := hwrote₃.units.trans hunits₂
  obtain ⟨four, hfour, hheads₄, hcontrol, hwrote₄⟩ :=
    three.setControl_spec (hunits₃ ▸ hi) (mark k)
  have hcap₃ : three.capacity = arena.capacity := by rw [capacity_eq, hunits₃, hcap]
  rw [hcap₃] at hcontrol hwrote₄
  have hwrote := (hwrote₁.trans hwrote₂).trans (hwrote₃.trans hwrote₄)
  -- no write after the second reaches the links of the block itself
  have hout : ∀ a, i * 32 ≤ a → a < i * 32 + 16 → a ∉ backCells (arena.heads k) ∪
      {arena.capacity + i} := by
    rintro a hge hlt (⟨n, hn, hge', hlt'⟩ | hcell)
    · have := (hhead n hn).2
      omega
    · rw [Set.mem_singleton_iff] at hcell
      omega
  have hlate := hwrote₃.trans hwrote₄
  refine ⟨{ four with heads := Function.update four.heads k (some i) }, ?_, ?_, ?_, ?_, ?_,
    hcontrol, hwrote.address, hwrote.units, hwrote.references, hwrote.backing, ?_⟩
  · unfold link
    simp only [Option.bind_eq_bind, hone, htwo, hthree, hfour, Option.bind_some]
    rfl
  · simp only [hheads₄, hheads₃, hheads₂, hheads₁]
  · refine (hlate.previous fun a hge hlt => hout a hge (by omega)).trans ?_
    refine (hwrote₂.previous fun a hge hlt hmem => ?_).trans hprev₁
    rw [Set.mem_Ico] at hmem
    omega
  · exact (hlate.next fun a hge hlt => hout a (by omega) hlt).trans hnext₂
  · intro n hn
    refine (hwrote₄.previous fun a hge hlt hmem => ?_).trans (hback n hn)
    have := (hhead n hn).1
    rw [Set.mem_singleton_iff] at hmem
    omega
  · intro a ha
    refine hwrote.memory a fun hmem => ha ?_
    rcases hmem with (⟨hge, hlt⟩ | ⟨hge, hlt⟩) | (hmem | hcell)
    · exact Or.inl ⟨hge, by omega⟩
    · exact Or.inl ⟨by omega, hlt⟩
    · exact Or.inr (Or.inl hmem)
    · exact Or.inr (Or.inr hcell)

theorem Arena.unlink_effect (hi : i < arena.units) {previous next : Option ℕ}
    (hprevious : ∀ n, previous = some n → n < arena.units)
    (hnext : ∀ n, next = some n → n < arena.units) (hfits : Fits previous)
    (hfits' : Fits next) :
    ∃ arena', arena.unlink ⟨i, k, previous, next⟩ = some arena' ∧
      arena'.heads = (if previous = none then Function.update arena.heads k next
        else arena.heads) ∧
      (∀ n, previous = some n → arena'.next n = next) ∧
      (∀ n, next = some n → arena'.previous n = previous) ∧
      arena'.memory (arena.capacity + i) = 0 ∧
      Wrote (unlinkCells arena i previous next) arena arena' := by
  have hcap := arena.capacity_eq
  obtain ⟨one, hone, hheads₁, hnext₁, hwrote₁⟩ := arena.setForward_spec hprevious hfits' k
  obtain ⟨two, htwo, hheads₂, hprev₂, hwrote₂⟩ :=
    one.setBack_spec (fun n hn => hwrote₁.units ▸ hnext n hn) hfits
  have hunits₂ : two.units = arena.units := hwrote₂.units.trans hwrote₁.units
  obtain ⟨three, hthree, hheads₃, hcontrol, hwrote₃⟩ :=
    two.setControl_spec (hunits₂ ▸ hi) 0
  have hcap₂ : two.capacity = arena.capacity := by rw [capacity_eq, hunits₂, hcap]
  rw [hcap₂] at hcontrol hwrote₃
  have hwrote := hwrote₁.trans (hwrote₂.trans hwrote₃)
  refine ⟨three, ?_, ?_, ?_, ?_, hcontrol, hwrote.address, hwrote.units, hwrote.references,
    hwrote.backing, ?_⟩
  · unfold unlink
    simp only [Option.bind_eq_bind, hone, htwo, Option.bind_some]
    exact hthree
  · rw [hheads₃, hheads₂, hheads₁]
  · intro n hn
    refine ((hwrote₂.trans hwrote₃).next fun a hge hlt hmem => ?_).trans (hnext₁ n hn)
    have := hprevious n hn
    rcases hmem with ⟨m, -, hge', hlt'⟩ | hcell
    · omega
    · rw [Set.mem_singleton_iff] at hcell
      omega
  · intro n hn
    refine (hwrote₃.previous fun a hge hlt hmem => ?_).trans (hprev₂ n hn)
    have := hnext n hn
    rw [Set.mem_singleton_iff] at hmem
    omega
  · intro a ha
    refine hwrote.memory a fun hmem => ha ?_
    rcases hmem with hmem | (hmem | hcell)
    · exact Or.inl hmem
    · exact Or.inr (Or.inl hmem)
    · exact Or.inr (Or.inr hcell)

/-! ## The lists -/

/-- The links and control bytes spell disjoint lists of free blocks. -/
structure Lists (arena : Arena M) (lists : Level → List ℕ) : Prop where
  small : arena.units < 2 ^ 26
  chains : Chains arena.previous arena.next arena.heads lists
  within : ∀ {k i}, i ∈ lists k → i < arena.units
  marked : ∀ {k i}, i ∈ lists k → arena.memory (arena.capacity + i) = mark k
  cleared : ∀ {i}, i < arena.units → (∀ k, i ∉ lists k) → arena.memory (arena.capacity + i) = 0

namespace Lists

variable {lists : Level → List ℕ}

/-- The units with the links of a free block. -/
def starts (lists : Level → List ℕ) : Set ℕ :=
  {u | ∃ k, u ∈ lists k}

theorem control_eq_mark_iff (h : Lists arena lists) (hi : i < arena.units) :
    arena.control i = some (mark k) ↔ i ∈ lists k := by
  rw [Arena.control, if_pos hi, Option.some.injEq]
  refine ⟨fun hmark => ?_, h.marked⟩
  by_cases hmem : ∃ j, i ∈ lists j
  · obtain ⟨j, hj⟩ := hmem
    rwa [← mark_injective ((h.marked hj).symm.trans hmark)]
  · rw [h.cleared hi fun j hj => hmem ⟨j, hj⟩] at hmark
    exact absurd hmark.symm (mark_ne_zero k)

/-- `State::free` finds exactly the blocks of the list. -/
theorem free_eq (h : Lists arena lists) (hi : i < arena.units) (k : Level) :
    arena.free i k =
      some (if i ∈ lists k then some ⟨i, k, arena.previous i, arena.next i⟩ else none) := by
  have hmark := h.control_eq_mark_iff (k := k) hi
  rw [Arena.control, if_pos hi, Option.some.injEq] at hmark
  unfold Arena.free
  rw [Arena.control, if_pos hi, Option.bind_eq_bind, Option.bind_some]
  by_cases hmem : i ∈ lists k
  · rw [if_neg (not_not.mpr (hmark.mpr hmem)), if_pos hmem, Arena.readFree_eq hi]
    rfl
  · rw [if_pos fun heq => hmem (hmark.mp heq), if_neg hmem]
    rfl

theorem fits_of_lt (h : Lists arena lists) (hi : i < arena.units) : Arena.Fits (some i) := by
  intro n hn
  have := h.small
  have := Option.some.inj hn
  omega

theorem fits_head (h : Lists arena lists) (k : Level) : Arena.Fits (arena.heads k) := by
  intro i hi
  exact h.fits_of_lt (h.within (h.chains.mem_head hi)) i rfl

theorem mem_update_cons {a : ℕ} :
    (∃ j, a ∈ Function.update lists k (i :: lists k) j) ↔ a = i ∨ ∃ j, a ∈ lists j := by
  constructor
  · rintro ⟨j, hj⟩
    by_cases hk : j = k
    · subst hk
      rw [Function.update_self] at hj
      exact (List.mem_cons.mp hj).imp id fun hj => ⟨j, hj⟩
    · rw [Function.update_of_ne hk] at hj
      exact Or.inr ⟨j, hj⟩
  · rintro (rfl | ⟨j, hj⟩)
    · exact ⟨k, by rw [Function.update_self]; exact List.mem_cons_self⟩
    · by_cases hk : j = k
      · subst hk
        exact ⟨j, by rw [Function.update_self]; exact List.mem_cons_of_mem _ hj⟩
      · exact ⟨j, by rwa [Function.update_of_ne hk]⟩

/-- Put a block on a list. -/
theorem link (h : Lists arena lists) (hi : i < arena.units) (hout : ∀ j, i ∉ lists j)
    (k : Level) :
    ∃ arena', arena.link i k = some arena' ∧
      Lists arena' (Function.update lists k (i :: lists k)) ∧
      Frame (insert i (starts lists)) arena arena' := by
  have hcap := arena.capacity_eq
  have hne : ∀ {j a}, a ∈ lists j → a ≠ i := by
    rintro j a ha rfl
    exact hout j ha
  have hhead : ∀ n, arena.heads k = some n → n ∈ lists k := fun n => h.chains.mem_head
  obtain ⟨arena', hlink, hheads, hfirst, hnext, hback, hcontrol, hwrote⟩ :=
    Arena.link_effect hi (fun n hn => ⟨h.within (hhead n hn), hne (hhead n hn)⟩)
      (h.fits_of_lt hi) (h.fits_head k)
  have hcap' : arena'.capacity = arena.capacity := hwrote.capacity
  refine ⟨arena', hlink, ⟨?_, ?_, ?_, ?_, ?_⟩, hwrote.frame ?_⟩
  · rw [hwrote.units]
    exact h.small
  · refine h.chains.push hout (by rw [hheads, Function.update_self]) (fun j hj => ?_) hfirst hnext
      hback (fun j a ha hhead => ?_) fun j a ha => ?_
    · rw [hheads, Function.update_of_ne hj]
    · have hlt := h.within ha
      have hai := hne ha
      refine hwrote.previous fun b hge hlt' hmem => ?_
      rcases hmem with hmem | ⟨n, hn, hge', hlt''⟩ | hcell
      · omega
      · have : a ≠ n := by
          rintro rfl
          exact hhead hn
        omega
      · omega
    · have hlt := h.within ha
      have hai := hne ha
      refine hwrote.next fun b hge hlt' hmem => ?_
      rcases hmem with hmem | ⟨n, hn, hge', hlt''⟩ | hcell
      · omega
      · omega
      · omega
  · intro j a ha
    rw [hwrote.units]
    rcases mem_update_cons.mp ⟨j, ha⟩ with rfl | ⟨j', hj'⟩
    · exact hi
    · exact h.within hj'
  · intro j a ha
    rw [hcap']
    have hold : a ∈ lists j ∨ a = i ∧ j = k := by
      by_cases hk : j = k
      · subst hk
        rw [Function.update_self] at ha
        exact (List.mem_cons.mp ha).symm.imp id fun ha => ⟨ha, rfl⟩
      · rw [Function.update_of_ne hk] at ha
        exact Or.inl ha
    rcases hold with ha | ⟨rfl, rfl⟩
    · rw [← h.marked ha]
      refine hwrote.memory _ fun hmem => ?_
      have hai := hne ha
      rcases hmem with hmem | ⟨n, hn, hge', hlt''⟩ | hcell
      · omega
      · have := h.within (hhead n hn)
        omega
      · omega
    · exact hcontrol
  · intro a ha hnot
    rw [hcap']
    rw [hwrote.units] at ha
    have hnot' : ¬ (a = i ∨ ∃ j, a ∈ lists j) := fun hmem =>
      (mem_update_cons.mpr hmem).elim fun j hj => hnot j hj
    rw [not_or] at hnot'
    rw [← h.cleared ha fun j hj => hnot'.2 ⟨j, hj⟩]
    refine hwrote.memory _ fun hmem => ?_
    rcases hmem with hmem | ⟨n, hn, hge', hlt''⟩ | hcell
    · omega
    · have := h.within (hhead n hn)
      omega
    · exact hnot'.1 (by omega)
  · intro a hmem ha
    rcases hmem with hmem | ⟨n, hn, hge', hlt''⟩ | hcell
    · exact Or.inl (by omega)
    · exact Or.inr ⟨k, by rw [show a / 32 = n by omega]; exact hhead n hn⟩
    · omega

theorem mem_update_erase (h : Lists arena lists) (hi : i ∈ lists k) {j : Level} {a : ℕ} :
    a ∈ Function.update lists k ((lists k).erase i) j ↔ a ∈ lists j ∧ a ≠ i := by
  by_cases hk : j = k
  · subst hk
    rw [Function.update_self, (h.chains.nodup j).mem_erase_iff, and_comm]
  · rw [Function.update_of_ne hk]
    refine ⟨fun ha => ⟨ha, ?_⟩, fun ha => ha.1⟩
    rintro rfl
    exact hk (h.chains.disjoint ha hi)

/-- Take a block off its list. -/
theorem unlink (h : Lists arena lists) (hi : i ∈ lists k) :
    ∃ arena', arena.unlink ⟨i, k, arena.previous i, arena.next i⟩ = some arena' ∧
      Lists arena' (Function.update lists k ((lists k).erase i)) ∧
      Frame (starts lists) arena arena' := by
  have hcap := arena.capacity_eq
  have hlt := h.within hi
  obtain ⟨hprevmem, hnextmem⟩ := h.chains.links_mem hi
  have hprevlt : ∀ n, arena.previous i = some n → n < arena.units := fun n hn =>
    h.within (hprevmem n hn)
  have hnextlt : ∀ n, arena.next i = some n → n < arena.units := fun n hn =>
    h.within (hnextmem n hn)
  obtain ⟨arena', hunlink, hheads, hleft, hright, hcontrol, hwrote⟩ :=
    Arena.unlink_effect (k := k) hlt hprevlt hnextlt
      (fun n hn => h.fits_of_lt (hprevlt n hn) n rfl)
      fun n hn => h.fits_of_lt (hnextlt n hn) n rfl
  have hcap' : arena'.capacity = arena.capacity := hwrote.capacity
  refine ⟨arena', hunlink, ⟨?_, ?_, ?_, ?_, ?_⟩, hwrote.frame ?_⟩
  · rw [hwrote.units]
    exact h.small
  · refine h.chains.unlink hi ?_ (fun j hj => ?_) hleft hright (fun j a ha hai hlink => ?_)
      fun j a ha hai hlink => ?_
    · rw [hheads]
      split_ifs
      · rw [Function.update_self]
      · rfl
    · rw [hheads]
      split_ifs
      · rw [Function.update_of_ne hj]
      · rfl
    · have hltA := h.within ha
      refine hwrote.previous fun b hge hlt' hmem => ?_
      rcases hmem with ⟨n, hn, hge', hlt''⟩ | ⟨n, hn, hge', hlt''⟩ | hcell
      · omega
      · have : a ≠ n := by
          rintro rfl
          exact hlink hn
        omega
      · omega
    · have hltA := h.within ha
      refine hwrote.next fun b hge hlt' hmem => ?_
      rcases hmem with ⟨n, hn, hge', hlt''⟩ | ⟨n, hn, hge', hlt''⟩ | hcell
      · have : a ≠ n := by
          rintro rfl
          exact hlink hn
        omega
      · omega
      · omega
  · intro j a ha
    rw [hwrote.units]
    exact h.within ((h.mem_update_erase hi).mp ha).1
  · intro j a ha
    obtain ⟨ha, hai⟩ := (h.mem_update_erase hi).mp ha
    rw [hcap', ← h.marked ha]
    refine hwrote.memory _ fun hmem => ?_
    rcases hmem with ⟨n, hn, hge', hlt''⟩ | ⟨n, hn, hge', hlt''⟩ | hcell
    · have := hprevlt n hn
      omega
    · have := hnextlt n hn
      omega
    · omega
  · intro a ha hnot
    rw [hcap']
    rw [hwrote.units] at ha
    by_cases hai : a = i
    · rw [hai]
      exact hcontrol
    · rw [← h.cleared ha fun j hj => hnot j ((h.mem_update_erase hi).mpr ⟨hj, hai⟩)]
      refine hwrote.memory _ fun hmem => ?_
      rcases hmem with ⟨n, hn, hge', hlt''⟩ | ⟨n, hn, hge', hlt''⟩ | hcell
      · have := hprevlt n hn
        omega
      · have := hnextlt n hn
        omega
      · omega
  · intro a hmem ha
    rcases hmem with ⟨n, hn, hge', hlt''⟩ | ⟨n, hn, hge', hlt''⟩ | hcell
    · exact ⟨k, by rw [show a / 32 = n by omega]; exact hprevmem n hn⟩
    · exact ⟨k, by rw [show a / 32 = n by omega]; exact hnextmem n hn⟩
    · omega

end Lists

end Cartel.Sqlite.Heap
