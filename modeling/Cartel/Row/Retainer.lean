import Cartel.Lib.Bytes
import Mathlib.Data.PNat.Basic

/-!
# Rows and their bytes in one span

The rows of a result are written from the front of a span, and the bytes they refer to from its
back. `front` is where the next row is written, except for rows without a size : then it counts
them, and they are written at the start. A row that was not pushed because one of its texts was
refused leaves the texts before it.

What the source takes for granted has no result here : a subtraction below zero, a count that
does not fit a word, and a write outside of the span. That a row can be written to memory and read
back is part of the row type (`Shape`).
-/

namespace Cartel.Sqlite.Row

open Cartel.Lib

variable {T : Type}

/-! ## The code -/

/-- The layout of a row type. -/
structure Shape (T : Type) where
  size : ℕ
  align : ℕ
  encode : T → List UInt8
  decode : List UInt8 → T
  length_encode : ∀ value, (encode value).length = size
  decode_encode : ∀ value, decode (encode value) = value
  multiple : align ∣ size

/-- `runtime::raw::Span`, with what it holds. -/
structure Span where
  memory : ℕ → UInt8
  len : ℕ

/-- `Span::ALIGNMENT`. -/
def Span.alignment : ℕ :=
  64

/-- The errors of `crate::Error` that a retainer reports. -/
inductive Error where
  | rowLayout (required available : ℕ)
  | collectValueBytes (required available : ℕ)
  | collectRows (required available : ℕ)
  | collectRowBytes (required available : ℕ)
  deriving DecidableEq

/-- A returned slice : where it starts, and its length. -/
structure Slice where
  start : ℕ
  len : ℕ
  deriving DecidableEq

/-- `retainer::Retainer`, with the span behind `base`. -/
structure Retainer where
  span : Span
  front : ℕ
  back : ℕ
  items : ℕ

namespace Retainer

/-- `Retainer::new`. -/
def new (shape : Shape T) (storage : Span) (items : ℕ) : Except Error Retainer :=
  if Span.alignment < shape.align then .error (.rowLayout shape.align Span.alignment)
  else .ok ⟨storage, 0, storage.len, items⟩

/-- Where the rows end. -/
def offset (shape : Shape T) (retainer : Retainer) : ℕ :=
  if shape.size = 0 then 0 else retainer.front

/-- The number of rows. -/
def used (shape : Shape T) (retainer : Retainer) : ℕ :=
  if shape.size = 0 then retainer.front else retainer.front / shape.size

/-- A write inside the span. -/
def write (retainer : Retainer) (start : ℕ) (bytes : List UInt8) : Option Span :=
  if start + bytes.length ≤ retainer.span.len then
    some { retainer.span with memory := store retainer.span.memory start bytes }
  else none

/-- `Retainer::bytes`. -/
def bytes (shape : Shape T) (retainer : Retainer) (value : List UInt8) :
    Option (Retainer × Except Error Slice) :=
  let offset := retainer.offset shape
  if retainer.back < offset then none
  else if retainer.back - offset < value.length then
    some (retainer, .error (.collectValueBytes value.length (retainer.back - offset)))
  else
    let start := retainer.back - value.length
    (retainer.write start value).map fun span =>
      ({ retainer with span := span, back := start }, .ok ⟨start, value.length⟩)

/-- `Retainer::text`. -/
def text (shape : Shape T) (retainer : Retainer) (value : String) :
    Option (Retainer × Except Error Slice) :=
  retainer.bytes shape value.toUTF8.toList

/-- `Retainer::push`. -/
def push (shape : Shape T) (retainer : Retainer) (value : T) :
    Option (Retainer × Except Error Unit) :=
  let required := retainer.used shape + 1
  if 2 ^ 64 ≤ required then none
  else if retainer.items < required then
    some (retainer, .error (.collectRows required retainer.items))
  else
    let offset := retainer.offset shape
    if retainer.back < offset then none
    else if retainer.back - offset < shape.size then
      some (retainer, .error (.collectRowBytes shape.size (retainer.back - offset)))
    else
      (retainer.write offset (shape.encode value)).map fun span =>
        ({ retainer with
            span := span
            front := if shape.size = 0 then required else retainer.front + shape.size }, .ok ())

/-- `Retainer::finish`. -/
def finish (shape : Shape T) (retainer : Retainer) : List T :=
  (List.range (retainer.used shape)).map fun i =>
    shape.decode (load retainer.span.memory (i * shape.size) shape.size)

end Retainer

/-- The texts of a row are retained one after another. The first that is refused ends it. -/
def retain (shape : Shape T) : Retainer → List (List UInt8) → List Slice →
    Option (Retainer × Except Error (List Slice))
  | retainer, [], slices => some (retainer, .ok slices)
  | retainer, value :: values, slices =>
    (retainer.bytes shape value).bind fun
      | (retainer, .error error) => some (retainer, .error error)
      | (retainer, .ok slice) => retain shape retainer values (slices ++ [slice])

/-- `All::row`, for a row of `fields` that is built from where they are retained. -/
def row (shape : Shape T) (retainer : Retainer) (fields : List (List UInt8))
    (build : List Slice → T) : Option (Retainer × Except Error Unit) :=
  (retain shape retainer fields []).bind fun
    | (retainer, .error error) => some (retainer, .error error)
    | (retainer, .ok slices) => retainer.push shape (build slices)

/-! ## Runs -/

/-- Two stretches do not meet. -/
def Slice.Apart (a b : Slice) : Prop :=
  a.start + a.len ≤ b.start ∨ b.start + b.len ≤ a.start

/-- A retainer, the rows that it has accepted, the slices that it has returned with the bytes they
were made from, and the number of rows that have been scanned. -/
structure World (T : Type) where
  retainer : Retainer
  rows : List T
  kept : List (Slice × List UInt8)
  scanned : ℕ

namespace World

/-- The bytes of the slices that were returned. -/
def total (kept : List (Slice × List UInt8)) : ℕ :=
  (kept.map fun pair => pair.2.length).sum

/-- What is left of the span. -/
def gap (shape : Shape T) (world : World T) : ℕ :=
  world.retainer.span.len - world.rows.length * shape.size - total world.kept

/-- The world after a retention. -/
def retained (world : World T) (value : List UInt8) (retainer : Retainer) :
    Except Error Slice → World T
  | .error _ => { world with retainer := retainer }
  | .ok slice => { world with retainer := retainer, kept := world.kept ++ [(slice, value)] }

/-- The world after a push. -/
def pushed (world : World T) (value : T) (retainer : Retainer) : Except Error Unit → World T
  | .error _ => { world with retainer := retainer, scanned := world.scanned + 1 }
  | .ok () =>
    { world with
      retainer := retainer
      rows := world.rows ++ [value]
      scanned := world.scanned + 1 }

end World

/-- The worlds that retentions and pushes lead to, at most `credit` rows having been scanned. -/
inductive Reached (shape : Shape T) (storage : Span) (items credit : ℕ) : World T → Prop
  | new {retainer : Retainer} : Retainer.new shape storage items = .ok retainer →
      Reached shape storage items credit ⟨retainer, [], [], 0⟩
  | bytes {world : World T} {retainer : Retainer} {result : Except Error Slice}
      (value : List UInt8) : Reached shape storage items credit world →
      world.retainer.bytes shape value = some (retainer, result) →
      Reached shape storage items credit (world.retained value retainer result)
  | text {world : World T} {retainer : Retainer} {result : Except Error Slice}
      (value : String) : Reached shape storage items credit world →
      world.retainer.text shape value = some (retainer, result) →
      Reached shape storage items credit (world.retained value.toUTF8.toList retainer result)
  | push {world : World T} {retainer : Retainer} {result : Except Error Unit} (value : T) :
      Reached shape storage items credit world → world.scanned < credit →
      world.retainer.push shape value = some (retainer, result) →
      Reached shape storage items credit (world.pushed value retainer result)

/-! ## What holds of every world -/

/-- The span from the front holds the rows, from the back the bytes, and they do not meet. -/
structure World.Inv (shape : Shape T) (storage : Span) (items credit : ℕ) (world : World T) :
    Prop where
  len : world.retainer.span.len = storage.len
  configured : world.retainer.items = items
  front : world.retainer.front =
    if shape.size = 0 then world.rows.length else world.rows.length * shape.size
  room : world.rows.length * shape.size ≤ world.retainer.back
  account : world.retainer.back + World.total world.kept = storage.len
  limit : world.rows.length ≤ items
  rows : ∀ i value, world.rows[i]? = some value →
    load world.retainer.span.memory (i * shape.size) shape.size = shape.encode value
  kept : ∀ pair ∈ world.kept, world.retainer.back ≤ pair.1.start ∧
    pair.1.start + pair.1.len ≤ storage.len ∧
      load world.retainer.span.memory pair.1.start pair.1.len = pair.2
  apart : world.kept.Pairwise fun a b => a.1.Apart b.1
  accepted : world.rows.length ≤ world.scanned
  scanned : world.scanned ≤ credit

namespace World

variable {shape : Shape T} {storage : Span} {items credit : ℕ} {world : World T}

theorem total_append (kept : List (Slice × List UInt8)) (slice : Slice) (value : List UInt8) :
    total (kept ++ [(slice, value)]) = total kept + value.length := by
  simp [total]

theorem Inv.new {retainer : Retainer}
    (h : Retainer.new shape storage items = .ok retainer) :
    Inv shape storage items credit ⟨retainer, [], [], 0⟩ := by
  unfold Retainer.new at h
  split_ifs at h
  cases h
  exact ⟨rfl, rfl, by simp, by simp, rfl, Nat.zero_le _, by simp, by simp, .nil, le_rfl,
    Nat.zero_le _⟩

/-- Where the rows end. -/
theorem Inv.offset_eq (h : world.Inv shape storage items credit) :
    world.retainer.offset shape = world.rows.length * shape.size := by
  unfold Retainer.offset
  have hfront := h.front
  split_ifs at hfront ⊢ with hzero
  · rw [hzero, Nat.mul_zero]
  · exact hfront

/-- The next row is written at an offset that its type admits. -/
theorem Inv.aligned (h : world.Inv shape storage items credit) :
    shape.align ∣ world.retainer.offset shape := by
  rw [h.offset_eq]
  exact shape.multiple.mul_left _

theorem Inv.used_eq (h : world.Inv shape storage items credit) :
    world.retainer.used shape = world.rows.length := by
  unfold Retainer.used
  have hfront := h.front
  split_ifs at hfront ⊢ with hzero
  · exact hfront
  · rw [hfront, Nat.mul_div_cancel _ (Nat.pos_of_ne_zero hzero)]

/-- What is left lies between the rows and the bytes. -/
theorem Inv.gap_eq (h : world.Inv shape storage items credit) :
    world.retainer.back - world.retainer.offset shape = world.gap shape := by
  have haccount := h.account
  rw [h.offset_eq, gap, h.len]
  omega

/-- A write inside the span has a result. -/
theorem Inv.write_eq (h : world.Inv shape storage items credit) {start : ℕ} {bytes : List UInt8}
    (hend : start + bytes.length ≤ storage.len) :
    world.retainer.write start bytes =
      some { world.retainer.span with memory := store world.retainer.span.memory start bytes } :=
  if_pos (by rw [h.len]; exact hend)

/-- A retention has a result : bytes that fit are put before those that are there. -/
theorem Inv.bytes_eq (h : world.Inv shape storage items credit) (value : List UInt8) :
    world.retainer.bytes shape value =
      if world.gap shape < value.length then
        some (world.retainer, .error (.collectValueBytes value.length (world.gap shape)))
      else
        some ({ world.retainer with
          span := { world.retainer.span with
            memory := store world.retainer.span.memory (world.retainer.back - value.length) value }
          back := world.retainer.back - value.length },
          .ok ⟨world.retainer.back - value.length, value.length⟩) := by
  have hroom := h.room
  have haccount := h.account
  have hgap := h.gap_eq
  unfold Retainer.bytes
  dsimp only
  rw [hgap, if_neg (by rw [h.offset_eq]; omega)]
  rw [h.offset_eq] at hgap
  split_ifs with hless
  · rfl
  · rw [h.write_eq (by omega), Option.map_some]

/-- A push has a result : a row that fits is put behind those that are there. -/
theorem Inv.push_eq (h : world.Inv shape storage items credit)
    (hcredit : world.scanned + 1 < 2 ^ 64) (value : T) :
    world.retainer.push shape value =
      if items < world.rows.length + 1 then
        some (world.retainer, .error (.collectRows (world.rows.length + 1) items))
      else if world.gap shape < shape.size then
        some (world.retainer, .error (.collectRowBytes shape.size (world.gap shape)))
      else
        some ({ world.retainer with
          span := { world.retainer.span with
            memory := store world.retainer.span.memory (world.rows.length * shape.size)
              (shape.encode value) }
          front := if shape.size = 0 then world.rows.length + 1
            else world.retainer.front + shape.size }, .ok ()) := by
  have hroom := h.room
  have haccount := h.account
  have haccepted := h.accepted
  have hgap := h.gap_eq
  unfold Retainer.push
  dsimp only
  rw [h.used_eq, h.configured, if_neg (by omega)]
  by_cases hitems : items < world.rows.length + 1
  · rw [if_pos hitems, if_pos hitems]
  · have hback : ¬world.retainer.back < world.retainer.offset shape := by
      rw [h.offset_eq]
      omega
    rw [if_neg hitems, if_neg hitems, if_neg hback, hgap]
    by_cases hless : world.gap shape < shape.size
    · rw [if_pos hless, if_pos hless]
    · rw [h.offset_eq] at hgap
      rw [if_neg hless, if_neg hless, h.offset_eq, h.write_eq (by rw [shape.length_encode]; omega),
        Option.map_some]

/-- A retention keeps what is there. -/
theorem Inv.retained (h : world.Inv shape storage items credit) {value : List UInt8}
    {retainer : Retainer} {result : Except Error Slice}
    (hbytes : world.retainer.bytes shape value = some (retainer, result)) :
    (world.retained value retainer result).Inv shape storage items credit := by
  have haccount := h.account
  have hgap := h.gap_eq
  have hroom := h.room
  rw [h.offset_eq] at hgap
  rw [h.bytes_eq] at hbytes
  split_ifs at hbytes with hless
  · cases hbytes
    exact h
  · cases hbytes
    have hback : world.retainer.back - value.length + value.length = world.retainer.back := by
      omega
    have hbeside : ∀ start count, start + count ≤ world.rows.length * shape.size ∨
        world.retainer.back ≤ start →
        load (store world.retainer.span.memory (world.retainer.back - value.length) value) start
          count = load world.retainer.span.memory start count :=
      fun start count hor => load_store_beside (by omega)
    refine ⟨h.len, h.configured, h.front, ?_, ?_, h.limit, ?_, ?_, ?_, h.accepted, h.scanned⟩
    · simp only [World.retained]
      omega
    · simp only [World.retained, total_append]
      omega
    · intro i row hrow
      have hi : i < world.rows.length := (List.getElem?_eq_some_iff.mp hrow).1
      have hend : i * shape.size + shape.size ≤ world.rows.length * shape.size := by
        rw [← Nat.succ_mul]
        exact Nat.mul_le_mul_right _ hi
      exact (hbeside _ _ (Or.inl hend)).trans (h.rows i row hrow)
    · intro pair hpair
      rcases List.mem_append.mp hpair with hold | hnew
      · obtain ⟨hstart, hend, hload⟩ := h.kept pair hold
        exact ⟨(Nat.sub_le _ _).trans hstart, hend, (hbeside _ _ (Or.inr hstart)).trans hload⟩
      · rw [List.mem_singleton.mp hnew]
        exact ⟨le_rfl, by dsimp only; omega, load_store⟩
    · refine List.pairwise_append.mpr ⟨h.apart, List.pairwise_singleton _ _, ?_⟩
      intro pair hpair new hnew
      obtain ⟨hstart, -, -⟩ := h.kept pair hpair
      rw [List.mem_singleton.mp hnew]
      exact Or.inr (by dsimp only; omega)

/-- A push keeps what is there. -/
theorem Inv.pushed (h : world.Inv shape storage items credit) (hcredit : world.scanned < credit)
    (hfits : credit < 2 ^ 64) {value : T} {retainer : Retainer} {result : Except Error Unit}
    (hpush : world.retainer.push shape value = some (retainer, result)) :
    (world.pushed value retainer result).Inv shape storage items credit := by
  have haccount := h.account
  have hgap := h.gap_eq
  have hroom := h.room
  have haccepted := h.accepted
  rw [h.offset_eq] at hgap
  have hrefused : ∀ error, (world.pushed value world.retainer (.error error)).Inv shape storage
      items credit := fun error =>
    { h with
      accepted := Nat.le_succ_of_le haccepted
      scanned := hcredit }
  rw [h.push_eq (by omega)] at hpush
  by_cases hitems : items < world.rows.length + 1
  · rw [if_pos hitems] at hpush
    cases hpush
    exact hrefused _
  rw [if_neg hitems] at hpush
  by_cases hless : world.gap shape < shape.size
  · rw [if_pos hless] at hpush
    cases hpush
    exact hrefused _
  rw [if_neg hless] at hpush
  cases hpush
  have hend : (world.rows.length + 1) * shape.size =
      world.rows.length * shape.size + shape.size := Nat.succ_mul _ _
  have hbeside : ∀ start count, start + count ≤ world.rows.length * shape.size ∨
      world.retainer.back ≤ start →
      load (store world.retainer.span.memory (world.rows.length * shape.size)
        (shape.encode value)) start count = load world.retainer.span.memory start count :=
    fun start count hor => load_store_beside (by rw [shape.length_encode]; omega)
  refine ⟨h.len, h.configured, ?_, ?_, haccount, ?_, ?_, ?_, h.apart, ?_, hcredit⟩
  · have hfront := h.front
    simp only [World.pushed, List.length_append, List.length_singleton]
    split_ifs at hfront ⊢ with hzero
    · rfl
    · rw [hfront, hend]
  · simp only [World.pushed, List.length_append, List.length_singleton]
    omega
  · simp only [World.pushed, List.length_append, List.length_singleton]
    omega
  · intro i row hrow
    simp only [World.pushed] at hrow ⊢
    rcases Nat.lt_or_ge i world.rows.length with hlt | hge
    · rw [List.getElem?_append_left hlt] at hrow
      have hle : i * shape.size + shape.size ≤ world.rows.length * shape.size := by
        rw [← Nat.succ_mul]
        exact Nat.mul_le_mul_right _ hlt
      exact (hbeside _ _ (Or.inl hle)).trans (h.rows i row hrow)
    · rw [List.getElem?_append_right hge, List.getElem?_singleton] at hrow
      split_ifs at hrow with hi
      cases hrow
      obtain rfl : i = world.rows.length := by omega
      rw [← shape.length_encode value]
      exact load_store
  · intro pair hpair
    obtain ⟨hstart, hlen, hload⟩ := h.kept pair hpair
    exact ⟨hstart, hlen, (hbeside _ _ (Or.inr hstart)).trans hload⟩
  · simp only [World.pushed, List.length_append, List.length_singleton]
    omega

/-- The rows that are read back are those that were accepted. -/
theorem Inv.finish_eq (h : world.Inv shape storage items credit) :
    world.retainer.finish shape = world.rows := by
  unfold Retainer.finish
  rw [h.used_eq]
  refine List.ext_getElem (by simp) fun i _ hi => ?_
  rw [List.getElem_map, List.getElem_range, h.rows i _ (List.getElem?_eq_getElem hi),
    shape.decode_encode]

end World

section

variable {shape : Shape T} {storage : Span} {items credit : ℕ} {world : World T}

theorem Reached.inv (hcredit : credit < 2 ^ 64) (h : Reached shape storage items credit world) :
    world.Inv shape storage items credit := by
  induction h with
  | new hnew => exact .new hnew
  | bytes value _ hbytes ih => exact ih.retained hbytes
  | text value _ htext ih => exact ih.retained htext
  | push value _ hscanned hpush ih => exact ih.pushed hscanned hcredit hpush

/-- The texts of a row are retentions. -/
theorem Reached.retain : ∀ {values : List (List UInt8)} {slices : List Slice} {world : World T}
    {retainer : Retainer} {result : Except Error (List Slice)},
    Reached shape storage items credit world →
    retain shape world.retainer values slices = some (retainer, result) →
    ∃ world', Reached shape storage items credit world' ∧ world'.retainer = retainer ∧
      world'.rows = world.rows ∧ world'.scanned = world.scanned
  | [], _, world, _, _, h, hretain => by
    cases hretain
    exact ⟨world, h, rfl, rfl, rfl⟩
  | value :: values, slices, world, retainer, result, h, hretain => by
    obtain ⟨⟨next, outcome⟩, hbytes, hrest⟩ := Option.bind_eq_some_iff.mp hretain
    have hnext := Reached.bytes value h hbytes
    cases outcome with
    | error error =>
      cases hrest
      exact ⟨_, hnext, rfl, rfl, rfl⟩
    | ok slice =>
      obtain ⟨world', hworld, hretainer, hrows, hscanned⟩ := Reached.retain hnext hrest
      exact ⟨world', hworld, hretainer, hrows, hscanned⟩

/-- A row that is collected is retentions and a push, or only retentions : then it is not there. -/
theorem Reached.row {fields : List (List UInt8)} {build : List Slice → T} {retainer : Retainer}
    {result : Except Error Unit} (h : Reached shape storage items credit world)
    (hscanned : world.scanned < credit)
    (hrow : row shape world.retainer fields build = some (retainer, result)) :
    ∃ world', Reached shape storage items credit world' ∧ world'.retainer = retainer ∧
      (result ≠ .ok () → world'.rows = world.rows) := by
  obtain ⟨⟨next, outcome⟩, hretain, hrest⟩ := Option.bind_eq_some_iff.mp hrow
  obtain ⟨world', hworld, rfl, hrows, hsame⟩ := Reached.retain h hretain
  cases outcome with
  | error error =>
    cases hrest
    exact ⟨world', hworld, rfl, fun _ => hrows⟩
  | ok slices =>
    refine ⟨_, .push (build slices) hworld (hsame ▸ hscanned) hrest, ?_, fun hne => ?_⟩
    · cases result <;> rfl
    · cases result with
      | error error => exact hrows
      | ok => exact absurd rfl hne

/-- The rows and the bytes of every world lie apart in the span, and are read back as they were
given. A push or a retention is refused exactly when the limit is reached or what is left of the
span is too short, and then changes nothing. -/
theorem Reached.exact_apart (hcredit : credit < 2 ^ 64)
    (h : Reached shape storage items credit world) :
    world.retainer.offset shape ≤ world.retainer.back ∧
      shape.align ∣ world.retainer.offset shape ∧
      (world.kept.map Prod.fst).Pairwise Slice.Apart ∧
      (∀ pair ∈ world.kept, pair.1.start + pair.1.len ≤ storage.len ∧
        pair.1.Apart ⟨0, world.rows.length * shape.size⟩ ∧
        load world.retainer.span.memory pair.1.start pair.1.len = pair.2) ∧
      world.rows.length * shape.size ≤ storage.len ∧
      world.retainer.finish shape = world.rows ∧
      world.rows.length ≤ items ∧
      (∀ value, ∃ retainer result, world.retainer.bytes shape value = some (retainer, result) ∧
        ((∃ error, result = .error error) ↔ world.gap shape < value.length) ∧
        ((∃ error, result = .error error) → retainer = world.retainer)) ∧
      (∀ value : String, ∃ retainer result,
        world.retainer.text shape value = some (retainer, result) ∧
        ((∃ error, result = .error error) ↔ world.gap shape < value.toUTF8.toList.length) ∧
        ((∃ error, result = .error error) → retainer = world.retainer)) ∧
      (world.scanned < credit → ∀ value, ∃ retainer result,
        world.retainer.push shape value = some (retainer, result) ∧
        ((∃ error, result = .error error) ↔
          world.rows.length = items ∨ world.gap shape < shape.size) ∧
        ((∃ error, result = .error error) → retainer = world.retainer)) := by
  have hinv := h.inv hcredit
  have haccount := hinv.account
  have hroom := hinv.room
  have hlimit := hinv.limit
  have hbytes : ∀ value, ∃ retainer result,
      world.retainer.bytes shape value = some (retainer, result) ∧
      ((∃ error, result = .error error) ↔ world.gap shape < value.length) ∧
      ((∃ error, result = .error error) → retainer = world.retainer) := by
    intro value
    rw [hinv.bytes_eq]
    split_ifs with hless
    · exact ⟨_, _, rfl, ⟨fun _ => hless, fun _ => ⟨_, rfl⟩⟩, fun _ => rfl⟩
    · refine ⟨_, _, rfl, ⟨?_, fun h => absurd h hless⟩, ?_⟩
      · rintro ⟨error, herror⟩
        cases herror
      · rintro ⟨error, herror⟩
        cases herror
  refine ⟨by rw [hinv.offset_eq]; exact hroom, hinv.aligned, ?_, ?_, by omega, hinv.finish_eq, hlimit, hbytes,
    fun value => hbytes _, fun hscanned value => ?_⟩
  · exact List.pairwise_map.mpr hinv.apart
  · intro pair hpair
    obtain ⟨hstart, hend, hload⟩ := hinv.kept pair hpair
    exact ⟨hend, Or.inr (by dsimp only; omega), hload⟩
  · rw [hinv.push_eq (by omega)]
    by_cases hitems : items < world.rows.length + 1
    · rw [if_pos hitems]
      exact ⟨_, _, rfl, ⟨fun _ => Or.inl (by omega), fun _ => ⟨_, rfl⟩⟩, fun _ => rfl⟩
    rw [if_neg hitems]
    by_cases hless : world.gap shape < shape.size
    · rw [if_pos hless]
      exact ⟨_, _, rfl, ⟨fun _ => Or.inr hless, fun _ => ⟨_, rfl⟩⟩, fun _ => rfl⟩
    rw [if_neg hless]
    refine ⟨_, _, rfl, ⟨?_, ?_⟩, ?_⟩
    · rintro ⟨error, herror⟩
      cases herror
    · rintro (heq | hlt)
      · omega
      · exact absurd hlt hless
    · rintro ⟨error, herror⟩
      cases herror

end

/-- Bytes as rows. -/
def Shape.byte : Shape UInt8 where
  size := 1
  align := 1
  encode value := [value]
  decode bytes := bytes.headD 0
  length_encode _ := rfl
  decode_encode _ := rfl
  multiple := Nat.dvd_refl 1

/-- In a span of two bytes, a row and a byte leave no room for a second row. -/
theorem Reached.exact_apart_byte : ∃ world : World UInt8,
    Reached .byte ⟨fun _ => 0, 2⟩ 8 9 world ∧ world.retainer.finish .byte = [7] ∧
      ∃ retainer error, world.retainer.push .byte 9 = some (retainer, .error error) := by
  have hnew : Reached Shape.byte ⟨fun _ => 0, 2⟩ 8 9 _ := .new rfl
  have hpush := Reached.push 7 hnew (by decide) rfl
  have hbytes := Reached.bytes [5] hpush rfl
  have hspec := hbytes.exact_apart (by decide)
  exact ⟨_, hbytes, hspec.2.2.2.2.2.1, _, _, rfl⟩

end Cartel.Sqlite.Row
