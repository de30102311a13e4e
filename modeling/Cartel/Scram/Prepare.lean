import Cartel.Scram.Compose

/-!
# Preparing a password fits its buffers

The first pass knows of the characters decomposed so far the run they end in, and the
scratch that the runs before it need (`Measured`). So the allocation has room for all of
them and for each disordered run, and `compose_all` never leaves it (`prepared`). The
password that comes out is the normalization form NFKC of the mapped one, unless that is
empty, not admitted or not in one direction.
-/

namespace Cartel.Pg.Scram

open Cartel.Lib

variable (T : Tables) (M : Machine)

/-! ## The first pass -/

/-- What is known after the characters `xs`. -/
structure Measured (m : Measure) (xs : List Char) : Prop where
  length : m.length = some xs.length
  start : m.start = 0 ∨ ∃ ch, xs[m.start]? = some ch ∧ T.canonicalCombiningClass ch = 0
  run : ∀ ch ∈ (xs.drop m.start).tail, T.canonicalCombiningClass ch ≠ 0
  last : m.last = ((xs.drop m.start).getLast?.map T.canonicalCombiningClass).getD 0
  disordered : m.disordered = true ↔ ¬Settled T.canonicalCombiningClass (xs.drop m.start)
  fits : Fits (T := T) (m.total xs.length) xs

variable {T M} {m : Measure} {xs : List Char}

theorem Measured.start_le (h : Measured T m xs) : m.start ≤ xs.length := by
  rcases h.start with hzero | ⟨ch, hch, -⟩
  · omega
  · exact (List.getElem?_eq_some_iff.mp hch).1.le

/-- A run ends before the last character, or with it. -/
theorem split_snoc {front run back : List Char} {ch : Char} (h : xs ++ [ch] = front ++ run ++ back) :
    (∃ back', xs = front ++ run ++ back') ∨ (run ≠ [] → ∃ run', run = run' ++ [ch] ∧
      xs = front ++ run') := by
  rcases List.eq_nil_or_concat back with rfl | ⟨back', c, rfl⟩
  · refine Or.inr fun hrun => ?_
    rcases List.eq_nil_or_concat run with rfl | ⟨run', c, rfl⟩
    · exact absurd rfl hrun
    · rw [List.append_nil, List.concat_eq_append, ← List.append_assoc] at h
      obtain ⟨hxs, hch⟩ := List.append_inj' h rfl
      exact ⟨run', by rw [List.concat_eq_append, List.singleton_inj.mp hch], hxs⟩
  · rw [List.concat_eq_append, ← List.append_assoc] at h
    exact Or.inl ⟨back', (List.append_inj' h rfl).1⟩

theorem settled_snoc {run : List Char} {ch : Char} :
    Settled T.canonicalCombiningClass (run ++ [ch]) ↔ Settled T.canonicalCombiningClass run ∧
      ∀ c ∈ run.getLast?, T.canonicalCombiningClass ch = 0 ∨
        T.canonicalCombiningClass c ≤ T.canonicalCombiningClass ch := by
  rw [Settled, Settled, List.isChain_append]
  simp

/-- A starter begins a new run. -/
theorem Measured.starter (h : Measured T m xs) {ch : Char}
    (hclass : T.canonicalCombiningClass ch = 0) :
    Measured T ⟨some (xs.length + 1), xs.length, 0, false, m.total xs.length⟩ (xs ++ [ch]) := by
  have hdrop : (xs ++ [ch]).drop xs.length = [ch] := List.drop_left
  refine ⟨?_, Or.inr ⟨ch, ?_, hclass⟩, ?_, ?_, ?_, ?_⟩
  · rw [List.length_append]
    rfl
  · rw [List.getElem?_append_right le_rfl, Nat.sub_self]
    rfl
  · rw [hdrop]
    exact nofun
  · rw [hdrop]
    exact hclass.symm
  · rw [hdrop]
    exact ⟨nofun, fun hnot => absurd (List.isChain_singleton ch) hnot⟩
  · intro front run back hsplit htail hnot
    rcases split_snoc hsplit with ⟨back', hxs⟩ | hlast
    · exact h.fits front run back' hxs htail hnot
    · obtain ⟨run', rfl, -⟩ := hlast (by rintro rfl; exact hnot .nil)
      cases run' with
      | nil => exact absurd (List.isChain_singleton ch) hnot
      | cons c run' =>
        exact absurd hclass (htail ch (List.mem_append_right _ List.mem_cons_self))

/-- Any other character goes on with the run. -/
theorem Measured.mark (h : Measured T m xs) {ch : Char}
    (hclass : T.canonicalCombiningClass ch ≠ 0) :
    Measured T ⟨some (xs.length + 1), m.start, T.canonicalCombiningClass ch,
      m.disordered || m.last > T.canonicalCombiningClass ch, m.scratch⟩ (xs ++ [ch]) := by
  have hle := h.start_le
  have hdrop : (xs ++ [ch]).drop m.start = xs.drop m.start ++ [ch] :=
    List.drop_append_of_le_length hle
  have hdisordered : (m.disordered || decide (m.last > T.canonicalCombiningClass ch)) = true ↔
      ¬Settled T.canonicalCombiningClass ((xs ++ [ch]).drop m.start) := by
    rw [hdrop, settled_snoc, not_and_or, Bool.or_eq_true, h.disordered, h.last,
      decide_eq_true_iff]
    refine or_congr_right ?_
    cases (xs.drop m.start).getLast? with
    | none => simp
    | some c => simp [hclass]
  refine ⟨?_, ?_, ?_, ?_, hdisordered, ?_⟩
  · rw [List.length_append]
    rfl
  · rcases h.start with hzero | ⟨c, hc, hstarter⟩
    · exact Or.inl hzero
    · have hlt := (List.getElem?_eq_some_iff.mp hc).1
      exact Or.inr ⟨c, by rw [List.getElem?_append_left hlt, hc], hstarter⟩
  · rw [hdrop]
    intro c hc
    cases hcur : xs.drop m.start with
    | nil =>
      rw [hcur] at hc
      cases hc
    | cons d cur =>
      have hrun := h.run
      rw [hcur] at hc hrun
      rcases List.mem_append.mp hc with hc | hc
      · exact hrun c hc
      · rwa [List.mem_singleton.mp hc]
  · rw [hdrop, List.getLast?_concat]
    rfl
  · intro front run back hsplit htail hnot
    have htotal : m.total xs.length ≤
        Measure.total ⟨some (xs.length + 1), m.start, T.canonicalCombiningClass ch,
          m.disordered || m.last > T.canonicalCombiningClass ch, m.scratch⟩
          (xs ++ [ch]).length := by
      unfold Measure.total
      rw [List.length_append, List.length_singleton]
      dsimp only
      split_ifs with hold hnew hnew
      · omega
      · rw [hold, Bool.true_or] at hnew
        exact absurd rfl hnew
      · omega
      · exact le_rfl
    rcases split_snoc hsplit with ⟨back', hxs⟩ | hlast
    · exact (h.fits front run back' hxs htail hnot).trans htotal
    obtain ⟨run', rfl, rfl⟩ := hlast (by rintro rfl; exact hnot .nil)
    -- the run does not reach over the starter of the last one
    have hfront : m.start ≤ front.length := by
      by_contra hlt
      rcases h.start with hzero | ⟨c, hc, hstarter⟩
      · omega
      rw [List.getElem?_append_right (by omega)] at hc
      obtain ⟨hindex, hget⟩ := List.getElem?_eq_some_iff.mp hc
      refine htail c ?_ hstarter
      cases run' with
      | nil => exact absurd hindex (Nat.not_lt_zero _)
      | cons d run' =>
        refine List.mem_append_left _ ?_
        obtain ⟨k, hk⟩ : ∃ k, m.start - front.length = k + 1 :=
          ⟨m.start - front.length - 1, by omega⟩
        rw [hk, List.getElem?_cons_succ] at hc
        exact List.mem_of_getElem? hc
    have hbad : ¬Settled T.canonicalCombiningClass ((front ++ run' ++ [ch]).drop m.start) := by
      intro hsettled
      refine hnot ?_
      have hsuffix : run' ++ [ch] <:+ (front ++ run' ++ [ch]).drop m.start := by
        refine ⟨front.drop m.start, ?_⟩
        rw [List.append_assoc, List.drop_append_of_le_length hfront]
      exact hsettled.suffix hsuffix
    unfold Measure.total
    dsimp only
    rw [if_pos (hdisordered.mpr hbad)]
    simp only [List.length_append, List.length_singleton]
    omega

theorem visit_eq {len : ℕ} (hlength : m.length = some len) (ch : Char) : m.visit T M ch =
    if T.canonicalCombiningClass ch = 0 then
      ⟨if len + 1 ≤ M.usizeMax then some (len + 1) else none, len, T.canonicalCombiningClass ch,
        false, m.total len⟩
    else
      ⟨if len + 1 ≤ M.usizeMax then some (len + 1) else none, m.start,
        T.canonicalCombiningClass ch, m.disordered || m.last > T.canonicalCombiningClass ch,
        m.scratch⟩ := by
  rw [Measure.visit, hlength]
  rfl

/-- The measure of characters that a word can count. -/
theorem measured_foldl (hlen : xs.length ≤ M.usizeMax) :
    Measured T (xs.foldl (Measure.visit T M) {}) xs := by
  induction xs using List.reverseRecOn with
  | nil =>
    refine ⟨rfl, Or.inl rfl, nofun, rfl, ⟨nofun, fun hnot => absurd .nil hnot⟩, ?_⟩
    intro front run back hsplit _ hnot
    rw [List.append_assoc] at hsplit
    obtain rfl := (List.append_eq_nil_iff.mp (List.append_eq_nil_iff.mp hsplit.symm).2).1
    exact absurd .nil hnot
  | append_singleton xs ch ih =>
    rw [List.length_append, List.length_singleton] at hlen
    have h := ih (by omega)
    rw [List.foldl_append, List.foldl_cons, List.foldl_nil, visit_eq h.length, if_pos hlen]
    by_cases hclass : T.canonicalCombiningClass ch = 0
    · rw [if_pos hclass, hclass]
      exact h.starter hclass
    · rw [if_neg hclass]
      exact h.mark hclass

/-- More characters have no measure. -/
theorem length_foldl (xs : List Char) : (xs.foldl (Measure.visit T M) {}).length =
    if xs.length ≤ M.usizeMax then some xs.length else none := by
  induction xs using List.reverseRecOn with
  | nil => rfl
  | append_singleton xs ch ih =>
    rw [List.foldl_append, List.foldl_cons, List.foldl_nil, List.length_append,
      List.length_singleton]
    by_cases hle : xs.length ≤ M.usizeMax
    · rw [if_pos hle] at ih
      rw [visit_eq ih]
      split_ifs <;> rfl
    · rw [if_neg hle] at ih
      rw [Measure.visit, ih, if_neg (by omega)]
      exact ih

/-- The scratch that is asked for has room for every disordered run. -/
theorem fits_total (hlen : xs.length ≤ M.usizeMax) :
    Fits (T := T) ((xs.foldl (Measure.visit T M) {}).total xs.length) xs :=
  (measured_foldl hlen).fits

/-- Without scratch there is nothing to reorder. -/
theorem settled_of_fits : ∀ {xs : List Char}, Fits (T := T) 0 xs →
    Settled T.canonicalCombiningClass xs
  | [], _ => .nil
  | [ch], _ => List.isChain_singleton ch
  | a :: b :: rest, h => by
    have hright : Fits (T := T) 0 ([a] ++ b :: rest) := h
    refine List.isChain_cons_cons.mpr ⟨?_, settled_of_fits hright.right⟩
    by_contra hab
    rw [not_or] at hab
    refine absurd (h [] [a, b] rest rfl ?_ ?_) (Nat.not_succ_le_zero 1)
    · intro ch hch
      rw [List.mem_singleton.mp hch]
      exact hab.1
    · intro hsettled
      have hpair := (List.isChain_cons_cons.mp hsettled).1
      omega

/-! ## The passes over the password -/

/-- What the first pass finds. -/
theorem inspect_eq : ∀ (xs : List Char) (self : Inspection), inspect T M self xs =
    if xs.any fun ch => isProhibited T ch || T.unassignedCodePoint ch then none
    else some ⟨(xs.getLast?.map right).getD self.lastRight, self.right || xs.any right,
      self.left || xs.any left,
      (xs.flatMap T.decomposeCompatible).foldl (Measure.visit T M) self.measure⟩
  | [], self => by
    rw [inspect]
    simp
  | ch :: xs, self => by
    rw [inspect, List.any_cons]
    split_ifs with hch hall hall
    · rfl
    · simp [hch] at hall
    · rw [inspect_eq xs, if_pos (by simpa [hch] using hall)]
    · rw [inspect_eq xs, if_neg (by simpa [hch] using hall), List.flatMap_cons, List.foldl_append,
        List.any_cons, List.any_cons, Bool.or_assoc, Bool.or_assoc, List.getLast?_cons]
      cases xs.getLast? <;> rfl

/-- The second pass fills the allocation from `len` on. -/
theorem decomposeFrom_spec : ∀ {xs : List Char} {cells : Cells} {len : ℕ},
    len + xs.length ≤ cells.cap → ∃ filled, decomposeFrom xs cells len = some filled ∧
      filled.cap = cells.cap ∧ (∀ i < len, filled.cell i = cells.cell i) ∧
      ∀ i < xs.length, filled.cell (len + i) = xs[i]?
  | [], cells, len, _ => ⟨cells, rfl, rfl, fun _ _ => rfl, fun i hi => absurd hi (Nat.not_lt_zero i)⟩
  | ch :: xs, cells, len, hcap => by
    rw [List.length_cons] at hcap
    have hroom : len + 1 + xs.length ≤ (cells.put len ch).cap := by
      change len + 1 + xs.length ≤ cells.cap
      omega
    obtain ⟨filled, hfilled, hcap', hkept, hcells⟩ := decomposeFrom_spec hroom
    refine ⟨filled, ?_, hcap', fun i hi => ?_, fun i hi => ?_⟩
    · rw [decomposeFrom, Cells.write_eq (by omega)]
      exact hfilled
    · rw [hkept i (by omega), Cells.put_of_ne _ (by omega)]
    · cases i with
      | zero =>
        rw [Nat.add_zero, hkept len (Nat.lt_succ_self len), Cells.put_self]
        rfl
      | succ i =>
        rw [List.getElem?_cons_succ, ← hcells i (Nat.lt_of_succ_lt_succ hi)]
        exact congrArg filled.cell (by omega)

theorem utf8_cons (ch : Char) (xs : List Char) :
    utf8 (ch :: xs) = String.utf8EncodeChar ch ++ utf8 xs :=
  List.flatMap_cons

theorem copyFrom_eq {bytes : ℕ} : ∀ {xs : List Char} {output : List UInt8},
    output.length + (utf8 xs).length = bytes → copyFrom bytes xs output = some (output ++ utf8 xs)
  | [], output, h => by
    rw [utf8, List.flatMap_nil, List.append_nil]
    exact if_pos h
  | ch :: xs, output, h => by
    rw [utf8_cons, List.length_append] at h
    rw [copyFrom, utf8_cons]
    rw [if_pos (by omega), copyFrom_eq (by rw [List.length_append]; omega), List.append_assoc]

theorem length_utf8 (xs : List Char) : (utf8 xs).length = (xs.map Char.utf8Size).sum := by
  induction xs with
  | nil => rfl
  | cons ch xs ih =>
    rw [utf8_cons, List.length_append, ih, String.length_utf8EncodeChar, List.map_cons,
      List.sum_cons]

/-- The encoded password fills its allocation. -/
theorem encode_eq (xs : List Char) (capacity : ℕ) : encode M xs capacity =
    some (if capacity = (utf8 xs).length ∨ M.grants (utf8 xs).length then .ok (utf8 xs)
      else .error .allocation) := by
  unfold encode
  rw [length_utf8]
  dsimp only
  split_ifs with h
  · rw [copyFrom_eq (by rw [length_utf8]; exact Nat.zero_add _)]
    rfl
  · rfl

/-! ## Normalization -/

variable (T M) (value : List Char)

/-- The form NFKC : the full decomposition in canonical order, composed. -/
def Nfkc (xs normal : List Char) : Prop :=
  ∃ ordered, Relation.ReflTransGen (Exchanges T.canonicalCombiningClass)
      (xs.flatMap T.decomposeCompatible) ordered ∧
    Settled T.canonicalCombiningClass ordered ∧ normal = canonicalComposition T ordered

/-- The form NFKC, computed. -/
def nfkc (xs : List Char) : List Char :=
  canonicalComposition T (reorder T.canonicalCombiningClass (xs.flatMap T.decomposeCompatible))

variable {T} in
/-- There is one canonical order, so there is one form NFKC. -/
theorem nfkc_iff {xs normal : List Char} : Nfkc T xs normal ↔ normal = nfkc T xs := by
  constructor
  · rintro ⟨ordered, hpath, hsettled, rfl⟩
    rw [eq_reorder hpath hsettled]
    rfl
  · rintro rfl
    exact ⟨_, exchanges_reorder _, settled_reorder _, rfl⟩

/-- A string in which the directions are mixed : with a character from the right, none is
from the left, and the ends are from the right. -/
def MixesDirections (xs : List Char) : Prop :=
  (∃ ch ∈ xs, right ch) ∧
    ((∃ ch ∈ xs, left ch) ∨ (∃ ch ∈ xs.head?, ¬right ch) ∨ ∃ ch ∈ xs.getLast?, ¬right ch)

/-- The mapped strings that are not normalized. -/
def Rejected (xs : List Char) : Prop :=
  xs = [] ∨ (∃ ch ∈ xs, isProhibited T ch ∨ T.unassignedCodePoint ch) ∨ MixesDirections xs

/-- What preparing an admitted string comes to : its normal form, unless it has too many
characters or an allocation is refused. -/
inductive Prepared (xs : List Char) (capacity : ℕ) :
    Option (Except ConfigError (List UInt8)) → Prop
  | done {normal : List Char} : Nfkc T xs normal →
      Prepared xs capacity (some (.ok (utf8 normal)))
  | long : M.usizeMax < (xs.flatMap T.decomposeCompatible).length →
      Prepared xs capacity (some (.error .passwordCapacity))
  | reserve : M.reserve (min ((xs.flatMap T.decomposeCompatible).length +
        ((xs.flatMap T.decomposeCompatible).foldl (Measure.visit T M) {}).total
          (xs.flatMap T.decomposeCompatible).length) M.usizeMax) = none →
      Prepared xs capacity (some (.error .allocation))
  | output {normal : List Char} : Nfkc T xs normal → capacity ≠ (utf8 normal).length →
      M.grants (utf8 normal).length = false →
      Prepared xs capacity (some (.error .allocation))

/-- What is relied on of the allocator : a capacity is what was asked for at least, and less
than the largest word. -/
structure Machine.Lawful : Prop where
  reserve_le : ∀ request cap, M.reserve request = some cap → request ≤ cap ∧ cap < M.usizeMax

variable {T M value}

theorem mixesDirections_iff {head : Char} {rest : List Char} :
    MixesDirections (head :: rest) ↔
      ((head :: rest).any right && ((head :: rest).any left || !right head ||
        !((head :: rest).getLast?.map right).getD false)) = true := by
  unfold MixesDirections
  rw [List.getLast?_cons]
  cases rest.getLast? <;> simp [or_assoc]

theorem refuses_iff {xs : List Char} :
    (xs.any fun ch => isProhibited T ch || T.unassignedCodePoint ch) = true ↔
      ∃ ch ∈ xs, isProhibited T ch ∨ T.unassignedCodePoint ch := by
  simp only [List.any_eq_true, Bool.or_eq_true]

/-! ## Preparation -/

/-- A password whose mapped string is rejected is kept. -/
theorem prepare_rejected (h : Rejected T (mapped T value)) (capacity : ℕ) :
    prepare T M value capacity = some (.ok (utf8 value)) := by
  unfold prepare
  cases hxs : mapped T value with
  | nil => rfl
  | cons head rest =>
    rw [hxs] at h
    dsimp only
    rw [inspect_eq]
    split_ifs with hrefuses
    · rfl
    · rcases h with hnil | hbad | hmixes
      · exact absurd hnil (List.cons_ne_nil _ _)
      · exact absurd (refuses_iff.mpr hbad) hrefuses
      · exact if_pos (mixesDirections_iff.mp hmixes)

/-- Any other is decomposed and normalized. -/
theorem prepare_eq (h : ¬Rejected T (mapped T value)) (capacity : ℕ) :
    prepare T M value capacity =
      let source := (mapped T value).flatMap T.decomposeCompatible
      if source.length ≤ M.usizeMax then
        normalize T M source source.length
          ((source.foldl (Measure.visit T M) {}).total source.length) capacity
      else some (.error .passwordCapacity) := by
  unfold prepare
  cases hxs : mapped T value with
  | nil =>
    rw [hxs] at h
    exact absurd (Or.inl rfl) h
  | cons head rest =>
    rw [hxs, Rejected, not_or, not_or, ← refuses_iff, mixesDirections_iff] at h
    dsimp only
    rw [inspect_eq, if_neg h.2.1]
    refine (if_neg h.2.2).trans ?_
    dsimp only
    rw [length_foldl]
    split_ifs <;> rfl

/-- An allocation of the size that was measured holds the characters and the scratch. -/
theorem normalize_eq (hT : T.Lawful) (hM : M.Lawful) {source : List Char}
    (hlen : source.length ≤ M.usizeMax) (capacity : ℕ) :
    normalize T M source source.length ((source.foldl (Measure.visit T M) {}).total source.length)
        capacity =
      match M.reserve (min (source.length + (source.foldl (Measure.visit T M) {}).total
        source.length) M.usizeMax) with
      | none => some (.error .allocation)
      | some _ =>
        encode M (canonicalComposition T (reorder T.canonicalCombiningClass source)) capacity := by
  have hfits := @fits_total T M source hlen
  generalize (source.foldl (Measure.visit T M) {}).total source.length = scratch at hfits ⊢
  unfold normalize
  cases hreserve : M.reserve (min (source.length + scratch) M.usizeMax) with
  | none => rfl
  | some cap =>
    obtain ⟨hle, hlt⟩ := hM.reserve_le _ _ hreserve
    have hcap : source.length + scratch ≤ cap := by omega
    obtain ⟨cells, hcells, hcap', -, hsource⟩ :=
      @decomposeFrom_spec source ⟨cap, fun _ => none⟩ 0 (by dsimp only; omega)
    have hordered : cells.cap = source.length → Settled T.canonicalCombiningClass source := by
      intro hexact
      obtain rfl : scratch = 0 := by
        rw [hcap'] at hexact
        dsimp only at hexact
        omega
      exact settled_of_fits hfits
    have hcomposed := composeAll_eq hT (fun i hi => by rw [← hsource i hi, Nat.zero_add])
      (by rw [hcap']; exact hcap) hfits hordered
    dsimp only
    rw [hcells]
    change (composeAll T cells source.length).bind _ = _
    rw [hcomposed]
    rfl

/-- What an admitted password comes to. -/
theorem prepare_admitted (hT : T.Lawful) (hM : M.Lawful) (h : ¬Rejected T (mapped T value))
    (capacity : ℕ) : Prepared T M (mapped T value) capacity (prepare T M value capacity) := by
  have hnormal : Nfkc T (mapped T value) (nfkc T (mapped T value)) := nfkc_iff.mpr rfl
  rw [prepare_eq h]
  dsimp only
  split_ifs with hlen
  · rw [normalize_eq hT hM hlen]
    split
    · rename_i hreserve
      exact .reserve hreserve
    · rw [encode_eq]
      split_ifs with hgrants
      · exact .done hnormal
      · rw [not_or] at hgrants
        exact .output hnormal hgrants.1 (Bool.not_eq_true _ ▸ hgrants.2)
  · exact .long (Nat.lt_of_not_le hlen)

/-! ## Passwords in ASCII -/

/-- What the tables say of the printable characters of ASCII. -/
structure Tables.Ascii (T : Tables) : Prop where
  space : ∀ ch, ch.toNat < 128 → T.nonAsciiSpaceCharacter ch = false
  nothing : ∀ ch, ch.toNat < 128 → T.commonlyMappedToNothing ch = false
  admitted : ∀ ch, ch.toNat < 128 → T.asciiControlCharacter ch = false →
    isProhibited T ch = false ∧ T.unassignedCodePoint ch = false
  decompose : ∀ ch, ch.toNat < 128 → T.decomposeCompatible ch = [ch]
  cls : ∀ ch, ch.toNat < 128 → T.canonicalCombiningClass ch = 0
  compose : ∀ base ch, ch.toNat < 128 → T.compose base ch = none

/-- Printable characters of ASCII only. -/
def Printable (T : Tables) (value : List Char) : Prop :=
  ∀ ch ∈ value, ch.toNat < 128 ∧ T.asciiControlCharacter ch = false

theorem mapped_printable (hA : T.Ascii) (h : Printable T value) : mapped T value = value := by
  induction value with
  | nil => rfl
  | cons ch value ih =>
    obtain ⟨hascii, -⟩ := h ch List.mem_cons_self
    have hrest := ih fun c hc => h c (List.mem_cons_of_mem _ hc)
    unfold mapped at hrest ⊢
    rw [List.map_cons, hA.space ch hascii, if_neg Bool.false_ne_true,
      List.filter_cons_of_pos (by rw [hA.nothing ch hascii]; rfl), hrest]

theorem decompose_printable (hA : T.Ascii) (h : Printable T value) :
    value.flatMap T.decomposeCompatible = value := by
  induction value with
  | nil => rfl
  | cons ch value ih =>
    rw [List.flatMap_cons, hA.decompose ch (h ch List.mem_cons_self).1,
      ih fun c hc => h c (List.mem_cons_of_mem _ hc)]
    rfl

theorem settled_printable (hA : T.Ascii) (h : Printable T value) :
    Settled T.canonicalCombiningClass value := by
  induction value with
  | nil => exact .nil
  | cons ch value ih =>
    have hrest := ih fun c hc => h c (List.mem_cons_of_mem _ hc)
    cases value with
    | nil => exact List.isChain_singleton ch
    | cons c value =>
      have hc := (h c (List.mem_cons_of_mem _ List.mem_cons_self)).1
      exact List.isChain_cons_cons.mpr ⟨Or.inl (hA.cls c hc), hrest⟩

/-- Nothing is joined with a character of ASCII. -/
theorem compositionStep_ascii (hA : T.Ascii) {ch : Char} (h : ch.toNat < 128)
    (rev : List Char) : compositionStep T rev ch = ch :: rev := by
  unfold compositionStep
  cases upTo T rev with
  | nil => rfl
  | cons base before =>
    dsimp only
    rw [hA.compose base ch h, ite_self]

theorem composition_printable (hA : T.Ascii) (h : Printable T value) :
    canonicalComposition T value = value := by
  have hfold : ∀ {xs rev : List Char}, Printable T xs →
      xs.foldl (compositionStep T) rev = xs.reverse ++ rev := by
    intro xs
    induction xs with
    | nil => exact fun _ => rfl
    | cons ch xs ih =>
      intro rev hxs
      rw [List.foldl_cons, compositionStep_ascii hA (hxs ch List.mem_cons_self).1,
        ih fun c hc => hxs c (List.mem_cons_of_mem _ hc), List.reverse_cons, List.append_assoc]
      rfl
  rw [canonicalComposition, hfold h, List.append_nil, List.reverse_reverse]

theorem nfkc_printable (hA : T.Ascii) (h : Printable T value) : nfkc T value = value := by
  rw [nfkc, decompose_printable hA h, reorder_of_settled (settled_printable hA h),
    composition_printable hA h]

/-- No character of ASCII is written from the right. -/
theorem right_ascii {ch : Char} (h : ch.toNat < 128) : right ch = false := by
  have hranges : ∀ range ∈ rightRanges, 128 ≤ range.1 := by decide
  unfold right contains
  rw [List.any_eq_false]
  intro range hrange
  have hle := hranges range hrange
  simp only [decide_eq_true_eq, not_and]
  omega

theorem not_rejected (hA : T.Ascii) (h : Printable T value) (hne : value ≠ []) :
    ¬Rejected T value := by
  rintro (hnil | ⟨ch, hch, hbad⟩ | ⟨⟨ch, hch, hright⟩, -⟩)
  · exact hne hnil
  · obtain ⟨hascii, hcontrol⟩ := h ch hch
    obtain ⟨hprohibited, hunassigned⟩ := hA.admitted ch hascii hcontrol
    rw [hprohibited, hunassigned] at hbad
    simp at hbad
  · rw [right_ascii (h ch hch).1] at hright
    exact Bool.false_ne_true hright

theorem all_printable_iff :
    (value.all fun ch => ch.toNat < 128 && !T.asciiControlCharacter ch) = true ↔
      Printable T value := by
  simp [Printable]

/-- The full path keeps printable characters of ASCII. -/
theorem prepare_printable (hT : T.Lawful) (hA : T.Ascii) (hM : M.Lawful) (h : Printable T value)
    (capacity : ℕ) : prepare T M value capacity = some (.ok (utf8 value)) ∨
      Prepared T M value capacity (prepare T M value capacity) ∧
        ∀ normal, Nfkc T value normal → normal = value := by
  have hmapped := mapped_printable hA h
  by_cases hne : value = []
  · refine Or.inl (prepare_rejected (Or.inl ?_) capacity)
    rw [hmapped, hne]
  · have hadmitted := not_rejected hA h hne
    rw [← hmapped] at hadmitted
    have hprepared := @prepare_admitted T M value hT hM hadmitted capacity
    rw [hmapped] at hprepared
    refine Or.inr ⟨hprepared, fun normal hnormal => ?_⟩
    rw [nfkc_iff.mp hnormal, nfkc_printable hA h]

theorem tryPrepare_printable (h : Printable T value) (capacity : ℕ) :
    tryPrepare T M value capacity = some (.ok (utf8 value)) :=
  if_pos (all_printable_iff.mpr h)

theorem tryPrepare_eq (h : ¬Printable T value) (capacity : ℕ) :
    tryPrepare T M value capacity = prepare T M value capacity :=
  if_neg fun hall => h (all_printable_iff.mp hall)

/-- What a password that is not rejected comes to. -/
theorem tryPrepare_admitted (hT : T.Lawful) (hA : T.Ascii) (hM : M.Lawful)
    (h : ¬Rejected T (mapped T value)) (capacity : ℕ) :
    Prepared T M (mapped T value) capacity (tryPrepare T M value capacity) := by
  by_cases hprintable : Printable T value
  · rw [tryPrepare_printable hprintable, mapped_printable hA hprintable]
    exact .done (nfkc_iff.mpr (nfkc_printable hA hprintable).symm)
  · rw [tryPrepare_eq hprintable]
    exact prepare_admitted hT hM h capacity

theorem tryPrepare_rejected (h : Rejected T (mapped T value)) (capacity : ℕ) :
    tryPrepare T M value capacity = some (.ok (utf8 value)) := by
  by_cases hprintable : Printable T value
  · exact tryPrepare_printable hprintable capacity
  · rw [tryPrepare_eq hprintable]
    exact prepare_rejected h capacity

/-- Characters of any origin are reordered and composed within the measured allocation. -/
theorem composeAll_measured (hT : T.Lawful) {source : List Char} {cells : Cells}
    (hlen : source.length ≤ M.usizeMax) (hcap : source.length +
      (source.foldl (Measure.visit T M) {}).total source.length ≤ cells.cap)
    (hcells : ∀ i < source.length, cells.cell i = source[i]?) :
    composeAll T cells source.length =
      some (canonicalComposition T (reorder T.canonicalCombiningClass source)) := by
  have hfits := @fits_total T M source hlen
  refine composeAll_eq hT hcells hcap hfits fun hexact => ?_
  rw [show (source.foldl (Measure.visit T M) {}).total source.length = 0 by omega] at hfits
  exact settled_of_fits hfits

/-! ## The result -/

/-- A password is kept, or replaced by its normal form, and the loops never leave their
buffers. The shortcut for ASCII is what the full path comes to. Characters of any origin are
put in canonical order and composed in the measured allocation. -/
theorem prepared (hT : T.Lawful) (hA : T.Ascii) (hM : M.Lawful) :
    (∀ value capacity,
      (Rejected T (mapped T value) → tryPrepare T M value capacity = some (.ok (utf8 value))) ∧
      (¬Rejected T (mapped T value) →
        Prepared T M (mapped T value) capacity (tryPrepare T M value capacity)) ∧
      (Printable T value → tryPrepare T M value capacity = some (.ok (utf8 value)) ∧
        (prepare T M value capacity = some (.ok (utf8 value)) ∨
          Prepared T M value capacity (prepare T M value capacity) ∧
            ∀ normal, Nfkc T value normal → normal = value))) ∧
    ∀ (source : List Char) (cells : Cells), source.length ≤ M.usizeMax →
      source.length + (source.foldl (Measure.visit T M) {}).total source.length ≤ cells.cap →
      (∀ i < source.length, cells.cell i = source[i]?) →
      ∃ ordered, Relation.ReflTransGen (Exchanges T.canonicalCombiningClass) source ordered ∧
        Settled T.canonicalCombiningClass ordered ∧
        composeAll T cells source.length = some (canonicalComposition T ordered) := by
  refine ⟨fun value capacity => ⟨fun h => tryPrepare_rejected h capacity,
    fun h => tryPrepare_admitted hT hA hM h capacity, fun h => ⟨tryPrepare_printable h capacity,
      prepare_printable hT hA hM h capacity⟩⟩, ?_⟩
  intro source cells hlen hcap hcells
  exact ⟨_, exchanges_reorder source, settled_reorder source,
    composeAll_measured hT hlen hcap hcells⟩

/-- The tables of one accented letter. -/
def acute : Tables where
  asciiControlCharacter ch := ch.toNat < 32 || ch.toNat = 127
  nonAsciiControlCharacter _ := false
  privateUse _ := false
  nonCharacterCodePoint _ := false
  surrogateCode _ := false
  inappropriateForPlainText _ := false
  inappropriateForCanonicalRepresentation _ := false
  changeDisplayPropertiesOrDeprecated _ := false
  taggingCharacter _ := false
  unassignedCodePoint _ := false
  nonAsciiSpaceCharacter _ := false
  commonlyMappedToNothing _ := false
  canonicalCombiningClass ch := if ch.toNat = 769 then 230 else 0
  decomposeCompatible ch := if ch.toNat = 233 then [.ofNat 101, .ofNat 769] else [ch]
  compose base ch := if base.toNat = 101 ∧ ch.toNat = 769 then some (.ofNat 233) else none

/-- An allocator of exact capacities. -/
def frugal : Machine :=
  ⟨4294967295, fun request => if request < 4294967295 then some request else none, fun _ => true⟩

theorem lawful_acute : acute.Lawful := by
  refine ⟨fun ch => ?_, fun base ch joined _ hjoined => ?_⟩
  · unfold acute
    dsimp only
    split_ifs <;> omega
  · unfold acute at hjoined
    dsimp only at hjoined
    split_ifs at hjoined
    cases hjoined
    decide

theorem ascii_acute : acute.Ascii := by
  refine ⟨fun _ _ => rfl, fun _ _ => rfl, fun ch _ hcontrol => ⟨?_, rfl⟩, fun ch h => ?_,
    fun ch h => ?_, fun base ch h => ?_⟩
  · unfold isProhibited
    rw [hcontrol]
    rfl
  · exact if_neg (by omega)
  · exact if_neg (by omega)
  · exact if_neg (by omega)

theorem lawful_frugal : frugal.Lawful := by
  refine ⟨fun request cap hcap => ?_⟩
  unfold frugal at hcap ⊢
  dsimp only at hcap ⊢
  split_ifs at hcap with hlt
  cases hcap
  exact ⟨le_rfl, hlt⟩

/-- A letter and an accent are put together. -/
theorem prepared_acute :
    tryPrepare acute frugal [.ofNat 101, .ofNat 769] 3 = some (.ok [195, 169]) := by
  have hmapped : mapped acute [.ofNat 101, .ofNat 769] = [.ofNat 101, .ofNat 769] := rfl
  have hadmitted : ¬Rejected acute (mapped acute [.ofNat 101, .ofNat 769]) := by
    rw [hmapped]
    rintro (hnil | ⟨ch, hch, hbad⟩ | ⟨⟨ch, hch, hright⟩, -⟩)
    · cases hnil
    · rcases List.mem_pair.mp hch with rfl | rfl
      · exact absurd hbad (by decide)
      · exact absurd hbad (by decide)
    · rcases List.mem_pair.mp hch with rfl | rfl
      · exact absurd hright (by decide)
      · exact absurd hright (by decide)
  have hprepared := ((prepared lawful_acute ascii_acute lawful_frugal).1 _ 3).2.1 hadmitted
  generalize tryPrepare acute frugal [.ofNat 101, .ofNat 769] 3 = outcome at hprepared
  cases hprepared with
  | done hnormal =>
    rw [nfkc_iff.mp hnormal]
    decide
  | long h => exact absurd h (by decide)
  | reserve h => exact absurd h (by decide)
  | output _ _ h => cases h

end Cartel.Pg.Scram
