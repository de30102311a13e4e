import Cartel.Scram.Standard
import Cartel.Lib.Outcome
import Mathlib.Data.List.DropRight

/-!
# The salt

The salt is decoded four characters at a time, and the bytes of each group are written at once.
A text is valid when it is the text of some bytes (`padded`). What the engine does with one
group of at most four characters is assumed (`Engine.Groups`), and what the loop does with all
of them is proven : it decodes exactly the valid texts, writes their bytes in groups of three,
and reports the places of its errors within the whole text.
-/

namespace Cartel.Pg.Scram

open Cartel.Lib Standard

/-! ## The standard -/

/-- The padded text of bytes. -/
def padded : List UInt8 → List UInt8
  | [] => []
  | [a] => internalEncode [a] ++ [61, 61]
  | [a, b] => internalEncode [a, b] ++ [61]
  | a :: b :: c :: rest => internalEncode [a, b, c] ++ padded rest

/-- A group of at most four characters is decoded as the standard says : it has to be the text of
its bytes. An error in it has its place within the group. -/
structure Engine.Groups (engine : Engine) : Prop where
  ok : ∀ chunk bytes, chunk ≠ [] → chunk.length ≤ 4 →
    (engine.decodeSlice chunk 3 = .ok bytes ↔ padded bytes = chunk)
  invalidByte : ∀ chunk index byte, chunk ≠ [] → chunk.length ≤ 4 →
    engine.decodeSlice chunk 3 = .error (.invalidByte index byte) →
      chunk[index]? = some byte ∧ byte ∉ alphabet
  invalidLength : ∀ chunk length, chunk ≠ [] → chunk.length ≤ 4 →
    engine.decodeSlice chunk 3 = .error (.invalidLength length) →
      length = chunk.length ∧ length % 4 = 1
  invalidLastSymbol : ∀ chunk offset symbol value, chunk ≠ [] → chunk.length ≤ 4 →
    engine.decodeSlice chunk 3 = .error (.invalidLastSymbol offset symbol value) →
      chunk[offset]? = some symbol ∧ symbol ∈ alphabet
  room : ∀ chunk, chunk ≠ [] → chunk.length ≤ 4 →
    engine.decodeSlice chunk 3 ≠ .error .outputSliceTooSmall

/-- The bytes in groups of three. -/
def triples (bytes : List UInt8) : List (List UInt8) :=
  blocks 3 ((bytes.length + 2) / 3) bytes

/-- The place an error reports is one of the text. -/
def Reports (text : List UInt8) : Error → Prop
  | .serverFirst (.saltPadding offset) =>
    text[offset]? = some 61 ∧ offset / 4 * 4 + 4 < text.length
  | .serverFirstBase64 (.invalidByte offset byte) => text[offset]? = some byte ∧ byte ∉ alphabet
  | .serverFirstBase64 (.invalidLastSymbol offset symbol _) =>
    text[offset]? = some symbol ∧ symbol ∈ alphabet
  | .serverFirstBase64 (.invalidLength length) => length = text.length
  | .serverFirstBase64 .invalidPadding => True
  | _ => False

/-! ## Groups -/

theorem blocks_cons {width : ℕ} (hwidth : 0 < width) {xs : List UInt8} (h : xs ≠ []) :
    blocks width ((xs.length + (width - 1)) / width) xs =
      xs.take width :: blocks width (((xs.drop width).length + (width - 1)) / width)
        (xs.drop width) := by
  have hpos : 0 < xs.length := List.length_pos_iff.mpr h
  have hcount : (xs.length + (width - 1)) / width =
      (xs.length - width + (width - 1)) / width + 1 := by
    rcases le_total width xs.length with hle | hle
    · rw [← Nat.add_div_right _ hwidth]
      congr 1
      omega
    · have hlast : width - 1 < width := by omega
      rw [Nat.sub_eq_zero_of_le hle, Nat.zero_add, Nat.div_eq_of_lt hlast]
      exact Nat.div_eq_of_lt_le (by omega) (by omega)
  rw [hcount, List.length_drop]
  rfl

theorem quanta_cons {text : List UInt8} (h : text ≠ []) :
    quanta text = text.take 4 :: quanta (text.drop 4) :=
  blocks_cons (by decide) h

theorem triples_cons {bytes : List UInt8} (h : bytes ≠ []) :
    triples bytes = bytes.take 3 :: triples (bytes.drop 3) :=
  blocks_cons (by decide) h

theorem quanta_eq_nil {text : List UInt8} : quanta text = [] ↔ text = [] := by
  constructor
  · intro h
    by_contra hne
    rw [quanta_cons hne] at h
    cases h
  · rintro rfl
    rfl

/-- The groups of three make up the bytes. -/
theorem flatten_triples (bytes : List UInt8) : (triples bytes).flatten = bytes := by
  induction h : bytes.length using Nat.strong_induction_on generalizing bytes with
  | _ n ih =>
    rcases eq_or_ne bytes [] with rfl | hne
    · rfl
    · have hpos : 0 < bytes.length := List.length_pos_iff.mpr hne
      rw [triples_cons hne, List.flatten_cons,
        ih (bytes.drop 3).length (by rw [List.length_drop]; omega) _ rfl, List.take_append_drop]

theorem symbol_mem (n : ℕ) : symbol n ∈ alphabet := by
  have hlt : n % 64 < alphabet.length := Nat.mod_lt n (by decide)
  unfold symbol
  rw [List.getD_eq_getElem _ _ hlt]
  exact List.getElem_mem hlt

theorem not_mem_alphabet_pad : (61 : UInt8) ∉ alphabet := by decide

theorem symbol_ne_pad (n : ℕ) : symbol n ≠ 61 := fun h =>
  not_mem_alphabet_pad (h ▸ symbol_mem n)

theorem length_triple (a b c : UInt8) : (internalEncode [a, b, c]).length = 4 := by
  rw [length_internalEncode]
  simp only [List.length_cons, List.length_nil]

theorem pad_notMem_triple (a b c : UInt8) : (61 : UInt8) ∉ internalEncode [a, b, c] := by
  intro h
  rw [internalEncode, internalEncode] at h
  simp only [List.append_nil, List.mem_cons, List.not_mem_nil, or_false] at h
  rcases h with h | h | h | h <;> exact symbol_ne_pad _ h.symm

/-- A text longer than a group starts with the text of three bytes. -/
theorem padded_split {bytes chunk rest : List UInt8} (h : padded bytes = chunk ++ rest)
    (hchunk : chunk.length = 4) (hrest : rest ≠ []) :
    ∃ a b c more, bytes = a :: b :: c :: more ∧ chunk = internalEncode [a, b, c] ∧
      rest = padded more := by
  have hpos : 0 < rest.length := List.length_pos_iff.mpr hrest
  have hlength := congrArg List.length h
  rw [List.length_append, hchunk] at hlength
  match bytes, h, hlength with
  | [], h, hlength =>
    rw [padded, List.length_nil] at hlength
    omega
  | [a], h, hlength =>
    rw [padded, List.length_append, length_internalEncode] at hlength
    simp only [List.length_cons, List.length_nil] at hlength
    omega
  | [a, b], h, hlength =>
    rw [padded, List.length_append, length_internalEncode] at hlength
    simp only [List.length_cons, List.length_nil] at hlength
    omega
  | a :: b :: c :: more, h, hlength =>
    rw [padded] at h
    obtain ⟨hfirst, hmore⟩ := List.append_inj h ((length_triple a b c).trans hchunk.symm)
    exact ⟨a, b, c, more, rfl, hfirst.symm, hmore.symm⟩

/-- A group without padding is the text of three bytes. -/
theorem padded_full {bytes chunk : List UInt8} (h : padded bytes = chunk)
    (hchunk : chunk.length = 4) (hpad : (61 : UInt8) ∉ chunk) :
    ∃ a b c, bytes = [a, b, c] ∧ chunk = internalEncode [a, b, c] := by
  subst h
  match bytes, hchunk, hpad with
  | [], hchunk, _ => cases hchunk
  | [a], _, hpad => exact absurd (by rw [padded]; simp) hpad
  | [a, b], _, hpad => exact absurd (by rw [padded]; simp) hpad
  | a :: b :: c :: more, hchunk, _ =>
    rw [padded, List.length_append, length_triple] at hchunk
    have hmore : padded more = [] := List.length_eq_zero_iff.mp (by omega)
    match more, hmore with
    | [], _ => exact ⟨a, b, c, rfl, by rw [padded, padded, List.append_nil]⟩
    | [a'], hmore => rw [padded] at hmore; simp at hmore
    | [a', b'], hmore => rw [padded] at hmore; simp at hmore
    | a' :: b' :: c' :: more, hmore =>
      rw [padded, List.append_eq_nil_iff] at hmore
      have := length_triple a' b' c'
      rw [hmore.1] at this
      cases this

theorem length_le_of_padded {bytes chunk : List UInt8} (h : padded bytes = chunk)
    (hchunk : chunk.length ≤ 4) : bytes.length ≤ 3 := by
  subst h
  match bytes, hchunk with
  | [], _ | [a], _ | [a, b], _ | [a, b, c], _ => simp
  | a :: b :: c :: d :: more, hchunk =>
    have hpos : 0 < (padded (d :: more)).length := by
      match more with
      | [] | [e] => rw [padded]; simp
      | e :: f :: more => rw [padded, List.length_append, length_triple]; omega
    rw [padded, List.length_append, length_triple] at hchunk
    omega

/-! ## The loop -/

section

variable {engine : Engine} {σ : Type} {write : σ → List UInt8 → σ}

/-- The last group. -/
theorem decodeFrom_last {encoded : List UInt8} (hne : encoded ≠ []) (hlast : encoded.length ≤ 4)
    (index : ℕ) (state : σ) :
    decodeFrom engine write index (quanta encoded) state =
      ((engine.decodeSlice encoded 3).mapError fun error =>
        .serverFirstBase64 (error.shift (index * 4))).map (write state) := by
  rw [quanta_cons hne, List.take_of_length_le hlast, List.drop_of_length_le hlast,
    quanta_eq_nil.mpr rfl, decodeFrom, if_pos rfl]
  rcases engine.decodeSlice encoded 3 with error | bytes
  · rfl
  · rfl

theorem quanta_append {chunk rest : List UInt8} (hchunk : chunk.length = 4) :
    quanta (chunk ++ rest) = chunk :: quanta rest := by
  have hne : chunk ++ rest ≠ [] := by
    intro h
    rw [List.append_eq_nil_iff] at h
    rw [h.1] at hchunk
    cases hchunk
  rw [quanta_cons hne, List.take_left' hchunk, List.drop_left' hchunk]

/-- A group before the last one, without padding. -/
theorem decodeFrom_more {chunk rest : List UInt8} (hchunk : chunk.length = 4) (hrest : rest ≠ [])
    (hpad : (61 : UInt8) ∉ chunk) (index : ℕ) (state : σ) :
    decodeFrom engine write index (quanta (chunk ++ rest)) state =
      ((engine.decodeSlice chunk 3).mapError fun error =>
        Error.serverFirstBase64 (error.shift (index * 4))) >>= fun bytes =>
          decodeFrom engine write (index + 1) (quanta rest) (write state bytes) := by
  have hnone : chunk.findIdx? (· = (61 : UInt8)) = none := by
    rw [List.findIdx?_eq_none_iff]
    intro byte hbyte
    exact decide_eq_false fun h => hpad (h ▸ hbyte)
  rw [quanta_append hchunk, decodeFrom, if_neg fun h => hrest (quanta_eq_nil.mp h), hnone]
  rcases engine.decodeSlice chunk 3 with error | bytes
  · rfl
  · rfl

/-- A group before the last one, with padding. -/
theorem decodeFrom_padded (write : σ → List UInt8 → σ) {chunk rest : List UInt8}
    (hchunk : chunk.length = 4) (hrest : rest ≠ []) (hpad : (61 : UInt8) ∈ chunk) (index : ℕ)
    (state : σ) :
    ∃ position, chunk[position]? = some 61 ∧
      decodeFrom engine write index (quanta (chunk ++ rest)) state =
        .error (.serverFirst (.saltPadding (index * 4 + position))) := by
  have hsome : chunk.findIdx? (· = (61 : UInt8)) ≠ none := by
    rw [Ne, List.findIdx?_eq_none_iff]
    intro h
    exact absurd (h 61 hpad) (by decide)
  obtain ⟨position, hposition⟩ := Option.ne_none_iff_exists'.mp hsome
  refine ⟨position, ?_, ?_⟩
  · obtain ⟨hlt, hbyte, -⟩ := List.findIdx?_eq_some_iff_getElem.mp hposition
    rw [List.getElem?_eq_getElem hlt]
    exact congrArg some (of_decide_eq_true hbyte)
  · rw [quanta_append hchunk, decodeFrom, if_neg fun h => hrest (quanta_eq_nil.mp h), hposition]

/-- Either a text is one group, or there is a group before the last one. -/
theorem exists_split {encoded : List UInt8} (hlast : ¬ encoded.length ≤ 4) :
    ∃ chunk rest, encoded = chunk ++ rest ∧ chunk.length = 4 ∧ rest ≠ [] ∧
      rest.length < encoded.length := by
  refine ⟨encoded.take 4, encoded.drop 4, (List.take_append_drop 4 encoded).symm, ?_, ?_, ?_⟩
  · rw [List.length_take]
    omega
  · intro h
    have := congrArg List.length h
    rw [List.length_drop, List.length_nil] at this
    omega
  · rw [List.length_drop]
    omega

theorem padded_eq_nil {bytes : List UInt8} : padded bytes = [] ↔ bytes = [] := by
  constructor
  · intro h
    match bytes, h with
    | [], _ => rfl
    | [a], h | [a, b], h => rw [padded] at h; simp at h
    | a :: b :: c :: more, h =>
      have := congrArg List.length h
      rw [padded, List.length_append, length_triple] at this
      simp at this
  · rintro rfl
    rfl

/-- The loop decodes exactly the texts of bytes, and writes these in groups of three. -/
theorem decodeFrom_ok (hengine : engine.Groups) {encoded : List UInt8} {index : ℕ}
    {state state' : σ} :
    decodeFrom engine write index (quanta encoded) state = .ok state' ↔
      ∃ bytes, padded bytes = encoded ∧ state' = (triples bytes).foldl write state := by
  induction h : encoded.length using Nat.strong_induction_on generalizing encoded index state with
  | _ n ih =>
    subst h
    rcases eq_or_ne encoded [] with rfl | hne
    · constructor
      · intro h
        cases h
        exact ⟨[], rfl, rfl⟩
      · rintro ⟨bytes, hbytes, rfl⟩
        rw [padded_eq_nil.mp hbytes]
        rfl
    by_cases hlast : encoded.length ≤ 4
    · have hone : ∀ bytes, padded bytes = encoded → triples bytes = [bytes] := by
        intro bytes hbytes
        have hlength := length_le_of_padded hbytes hlast
        have hsome : bytes ≠ [] := fun hnil => hne (hbytes ▸ padded_eq_nil.mpr hnil)
        rw [triples_cons hsome, List.take_of_length_le hlength, List.drop_of_length_le hlength]
        rfl
      rw [decodeFrom_last hne hlast, map_eq_ok]
      constructor
      · rintro ⟨bytes, hbytes, rfl⟩
        have hencode := (hengine.ok encoded bytes hne hlast).mp (mapError_eq_ok.mp hbytes)
        refine ⟨bytes, hencode, ?_⟩
        rw [hone bytes hencode]
        rfl
      · rintro ⟨bytes, hencode, rfl⟩
        refine ⟨bytes, mapError_eq_ok.mpr ((hengine.ok encoded bytes hne hlast).mpr hencode), ?_⟩
        rw [hone bytes hencode]
        rfl
    obtain ⟨chunk, rest, rfl, hchunk, hrest, hlt⟩ := exists_split hlast
    have hsome : chunk ≠ [] := by
      rintro rfl
      cases hchunk
    by_cases hpad : (61 : UInt8) ∈ chunk
    · obtain ⟨position, -, herror⟩ := decodeFrom_padded write hchunk hrest hpad index state
      rw [herror]
      constructor
      · intro h
        cases h
      · rintro ⟨bytes, hencode, -⟩
        obtain ⟨a, b, c, more, -, rfl, -⟩ := padded_split hencode hchunk hrest
        exact absurd hpad (pad_notMem_triple a b c)
    · rw [decodeFrom_more hchunk hrest hpad, bind_eq_ok]
      have hcons : ∀ a b c more, triples (a :: b :: c :: more) = [a, b, c] :: triples more :=
        fun a b c more => triples_cons (List.cons_ne_nil _ _)
      constructor
      · rintro ⟨head, hhead, hmore⟩
        have hencode := (hengine.ok chunk head hsome hchunk.le).mp (mapError_eq_ok.mp hhead)
        obtain ⟨a, b, c, rfl, rfl⟩ := padded_full hencode hchunk hpad
        obtain ⟨more, rfl, rfl⟩ := (ih _ hlt rfl).mp hmore
        exact ⟨a :: b :: c :: more, by rw [padded], by rw [hcons, List.foldl_cons]⟩
      · rintro ⟨bytes, hencode, hstate⟩
        obtain ⟨a, b, c, more, rfl, rfl, rfl⟩ := padded_split hencode hchunk hrest
        have hthree : padded [a, b, c] = internalEncode [a, b, c] := by
          rw [padded, padded, List.append_nil]
        refine ⟨[a, b, c], mapError_eq_ok.mpr ((hengine.ok _ _ hsome hchunk.le).mpr hthree), ?_⟩
        refine (ih _ hlt rfl).mpr ⟨more, rfl, ?_⟩
        rw [hstate, hcons, List.foldl_cons]

/-- The error of a group has its place within the whole text. -/
theorem reports_shift (hengine : engine.Groups) {front chunk back : List UInt8} {index : ℕ}
    (hfront : front.length = index * 4) (hne : chunk ≠ []) (hchunk : chunk.length ≤ 4)
    (hback : chunk.length < 4 → back = []) {error : Base64}
    (h : engine.decodeSlice chunk 3 = .error error) :
    Reports (front ++ chunk ++ back) (.serverFirstBase64 (error.shift (index * 4))) := by
  have hplace : ∀ i byte, chunk[i]? = some byte →
      (front ++ chunk ++ back)[i + index * 4]? = some byte := by
    intro i byte hi
    obtain ⟨hlt, -⟩ := List.getElem?_eq_some_iff.mp hi
    rw [List.append_assoc, List.getElem?_append_right (by omega),
      show i + index * 4 - front.length = i by omega, List.getElem?_append_left hlt, hi]
  match error, h with
  | .invalidByte i byte, h =>
    obtain ⟨hi, hbyte⟩ := hengine.invalidByte chunk i byte hne hchunk h
    exact ⟨hplace i byte hi, hbyte⟩
  | .invalidLastSymbol i symbol value, h =>
    obtain ⟨hi, hsymbol⟩ := hengine.invalidLastSymbol chunk i symbol value hne hchunk h
    exact ⟨hplace i symbol hi, hsymbol⟩
  | .invalidLength length, h =>
    obtain ⟨rfl, hodd⟩ := hengine.invalidLength chunk length hne hchunk h
    have hnil := hback (by omega)
    subst hnil
    change chunk.length + index * 4 = (front ++ chunk ++ []).length
    rw [List.append_nil, List.length_append, hfront, Nat.add_comm]
  | .invalidPadding, _ => exact trivial
  | .outputSliceTooSmall, h => exact absurd h (hengine.room chunk hne hchunk)

/-- Every error of the loop has its place within the whole text. -/
theorem decodeFrom_error (hengine : engine.Groups) (front : List UInt8) {encoded : List UInt8}
    {index : ℕ} {state : σ} {error : Error} (hfront : front.length = index * 4)
    (h : decodeFrom engine write index (quanta encoded) state = .error error) :
    Reports (front ++ encoded) error := by
  induction hn : encoded.length using Nat.strong_induction_on
    generalizing front encoded index state with
  | _ n ih =>
    subst hn
    rcases eq_or_ne encoded [] with rfl | hne
    · cases h
    by_cases hlast : encoded.length ≤ 4
    · rw [decodeFrom_last hne hlast, map_eq_error, mapError_eq_error] at h
      obtain ⟨cause, hcause, rfl⟩ := h
      have := reports_shift hengine hfront hne hlast (fun _ => rfl) hcause
      rwa [List.append_nil] at this
    obtain ⟨chunk, rest, rfl, hchunk, hrest, hlt⟩ := exists_split hlast
    have hsome : chunk ≠ [] := by
      rintro rfl
      cases hchunk
    rw [← List.append_assoc]
    by_cases hpad : (61 : UInt8) ∈ chunk
    · obtain ⟨position, hposition, herror⟩ :=
        decodeFrom_padded write hchunk hrest hpad index state
      rw [herror] at h
      cases h
      obtain ⟨hbound, -⟩ := List.getElem?_eq_some_iff.mp hposition
      have hpos : 0 < rest.length := List.length_pos_iff.mpr hrest
      refine ⟨?_, ?_⟩
      · rw [List.append_assoc, List.getElem?_append_right (by omega),
          show index * 4 + position - front.length = position by omega,
          List.getElem?_append_left hbound, hposition]
      · rw [List.length_append, List.length_append]
        omega
    · rw [decodeFrom_more hchunk hrest hpad, bind_eq_error] at h
      rcases h with h | ⟨bytes, -, h⟩
      · obtain ⟨cause, hcause, rfl⟩ := mapError_eq_error.mp h
        exact reports_shift hengine hfront hsome hchunk.le (fun hshort => by omega) hcause
      · refine ih _ hlt _ ?_ h rfl
        rw [List.length_append, hfront, hchunk]
        omega

/-- The text of bytes has padding in its last group only. -/
theorem padded_padding {bytes : List UInt8} {offset : ℕ}
    (h : (padded bytes)[offset]? = some 61) :
    (padded bytes).length ≤ offset / 4 * 4 + 4 := by
  induction bytes using padded.induct generalizing offset with
  | case1 => cases h
  | case2 a =>
    rw [padded, List.length_append, length_internalEncode]
    simp only [List.length_cons, List.length_nil]
    omega
  | case3 a b =>
    rw [padded, List.length_append, length_internalEncode]
    simp only [List.length_cons, List.length_nil]
    omega
  | case4 a b c rest ih =>
    have hfour := length_triple a b c
    rw [padded] at h ⊢
    rcases Nat.lt_or_ge offset 4 with hlt | hge
    · rw [List.getElem?_append_left (by omega)] at h
      exact absurd (List.mem_of_getElem? h) (pad_notMem_triple a b c)
    · rw [List.getElem?_append_right (by omega), hfour] at h
      have := ih h
      rw [List.length_append]
      omega

/-- A text is the text of one list of bytes at most. -/
theorem padded_injective (hengine : engine.Groups) {bytes bytes' : List UInt8}
    (h : padded bytes = padded bytes') : bytes = bytes' := by
  let push : List (List UInt8) → List UInt8 → List (List UInt8) := fun out piece => out ++ [piece]
  have hpieces : ∀ pieces front : List (List UInt8), pieces.foldl push front = front ++ pieces := by
    intro pieces
    induction pieces with
    | nil => simp
    | cons piece pieces ih => simp [push, ih]
  have hone : decodeFrom engine push 0 (quanta (padded bytes')) [] =
      .ok ((triples bytes).foldl push []) := (decodeFrom_ok hengine).mpr ⟨bytes, h, rfl⟩
  have htwo : decodeFrom engine push 0 (quanta (padded bytes')) [] =
      .ok ((triples bytes').foldl push []) := (decodeFrom_ok hengine).mpr ⟨bytes', rfl, rfl⟩
  rw [hone] at htwo
  have := Except.ok.inj htwo
  rw [hpieces, hpieces, List.nil_append, List.nil_append] at this
  rw [← flatten_triples bytes, this, flatten_triples]

end

/-! ## The engine of the standard -/

namespace Standard

theorem symbol_idxOf {byte : UInt8} (h : byte ∈ alphabet) :
    symbol (alphabet.idxOf byte) = byte := by
  have hlt : alphabet.idxOf byte < alphabet.length := List.idxOf_lt_length_of_mem h
  rw [symbol, Nat.mod_eq_of_lt (show _ < 64 from hlt), List.getD_eq_getElem _ _ hlt,
    List.getElem_idxOf hlt]

theorem idxOf_symbol (n : ℕ) : alphabet.idxOf (symbol n) = n % 64 := by
  have hall : ∀ m ∈ List.range 64, alphabet.idxOf (symbol m) = m := by decide +kernel
  have := hall (n % 64) (List.mem_range.mpr (Nat.mod_lt n (by decide)))
  rwa [symbol, Nat.mod_mod] at this

theorem idxOf_lt {byte : UInt8} (h : byte ∈ alphabet) : alphabet.idxOf byte < 64 :=
  List.idxOf_lt_length_of_mem h

theorem symbol_eq {byte : UInt8} (h : byte ∈ alphabet) {n : ℕ}
    (hn : n % 64 = alphabet.idxOf byte) : symbol n = byte := by
  rw [← symbol_idxOf h, ← hn, symbol, symbol, Nat.mod_mod]

theorem ofNat_eq (byte : UInt8) {n : ℕ} (h : n % 256 = byte.toNat) : UInt8.ofNat n = byte := by
  rw [← UInt8.toNat_inj, UInt8.toNat_ofNat', h]

/-- The symbols of a group, without its padding. -/
def stripped (chunk : List UInt8) : List UInt8 :=
  (chunk.reverse.dropWhile (· = 61)).reverse

theorem stripped_isPrefix (chunk : List UInt8) : ∃ pad, stripped chunk ++ pad = chunk :=
  List.rdropWhile_prefix (· = (61 : UInt8)) chunk

/-- Only padding is dropped. -/
theorem stripped_append (chunk : List UInt8) :
    stripped chunk ++ List.replicate (chunk.length - (stripped chunk).length) 61 = chunk := by
  have hsplit := List.takeWhile_append_dropWhile (p := (· = (61 : UInt8))) (l := chunk.reverse)
  have hpad : chunk.reverse.takeWhile (· = (61 : UInt8)) =
      List.replicate (chunk.reverse.takeWhile (· = (61 : UInt8))).length 61 := by
    refine List.eq_replicate_of_mem fun byte hbyte => ?_
    exact of_decide_eq_true (List.mem_takeWhile_imp (p := (· = (61 : UInt8))) hbyte)
  have hwhole : stripped chunk ++ (chunk.reverse.takeWhile (· = (61 : UInt8))).reverse = chunk := by
    rw [stripped, ← List.reverse_append, hsplit, List.reverse_reverse]
  have hlength := congrArg List.length hwhole
  rw [List.length_append, List.length_reverse] at hlength
  rw [hpad, List.reverse_replicate] at hwhole
  rw [show chunk.length - (stripped chunk).length =
    (chunk.reverse.takeWhile (· = (61 : UInt8))).length by omega, hwhole]

theorem getElem?_stripped {chunk : List UInt8} {index : ℕ} {byte : UInt8}
    (h : (stripped chunk)[index]? = some byte) : chunk[index]? = some byte := by
  obtain ⟨pad, hpad⟩ := stripped_isPrefix chunk
  obtain ⟨hlt, -⟩ := List.getElem?_eq_some_iff.mp h
  rw [← hpad, List.getElem?_append_left hlt, h]

theorem length_lastBytes {values : List ℕ} {bytes : List UInt8}
    (h : lastBytes values = some bytes) : bytes.length ≤ 3 := by
  unfold lastBytes at h
  split at h
  · split_ifs at h
    cases h
    simp
  · split_ifs at h
    cases h
    simp
  · cases h
    simp
  · cases h

/-- What becomes of one group. -/
theorem decodeSlice_cases {chunk : List UInt8} (hne : chunk ≠ []) (hchunk : chunk.length ≤ 4) :
    ((chunk.length < 4 ∨ (stripped chunk).length < 2) ∧
      engine.decodeSlice chunk 3 = .error .invalidPadding) ∨
    (∃ index byte, (stripped chunk)[index]? = some byte ∧ byte ∉ alphabet ∧
      engine.decodeSlice chunk 3 = .error (.invalidByte index byte)) ∨
    (chunk.length = 4 ∧ 2 ≤ (stripped chunk).length ∧ (∀ byte ∈ stripped chunk, byte ∈ alphabet) ∧
      ((lastBytes ((stripped chunk).map (alphabet.idxOf ·)) = none ∧
        ∃ value, engine.decodeSlice chunk 3 = .error (.invalidLastSymbol
          ((stripped chunk).length - 1) ((stripped chunk).getLastD 0) value)) ∨
      ∃ bytes, lastBytes ((stripped chunk).map (alphabet.idxOf ·)) = some bytes ∧
        engine.decodeSlice chunk 3 = .ok bytes)) := by
  have hquanta : quanta chunk = [chunk] := by
    rw [quanta_cons hne, List.take_of_length_le hchunk, List.drop_of_length_le hchunk]
    rfl
  have hengine : engine.decodeSlice chunk 3 = (decodeQuanta [chunk] >>= fun bytes =>
      if 3 < bytes.length then .error .outputSliceTooSmall else .ok bytes) := by
    rw [← hquanta]
    rfl
  rw [hengine, decodeQuanta, if_pos rfl]
  change _ ∨ _ ∨ _
  by_cases hshort : chunk.length < 4 ∨ (stripped chunk).length < 2
  · refine .inl ⟨hshort, ?_⟩
    rw [stripped] at hshort
    rw [if_pos hshort]
    rfl
  obtain ⟨hfour, htwo⟩ := not_or.mp hshort
  refine .inr ?_
  have hstripped : (chunk.reverse.dropWhile (· = 61)).reverse = stripped chunk := rfl
  simp only [hstripped]
  rw [if_neg hshort]
  rcases hfind : (stripped chunk).findIdx? (· ∉ alphabet) with _ | index
  · have hall : ∀ byte ∈ stripped chunk, byte ∈ alphabet := by
      intro byte hbyte
      have := List.findIdx?_eq_none_iff.mp hfind byte hbyte
      exact not_not.mp (of_decide_eq_false this)
    refine .inr ⟨by omega, by omega, hall, ?_⟩
    rcases hlast : lastBytes ((stripped chunk).map (alphabet.idxOf ·)) with _ | bytes
    · exact .inl ⟨rfl, _, rfl⟩
    · refine .inr ⟨bytes, rfl, ?_⟩
      have hroom := length_lastBytes hlast
      change (if 3 < (bytes ++ []).length then _ else _) = _
      rw [List.append_nil, if_neg (by omega)]
  · obtain ⟨hlt, hbyte, -⟩ := List.findIdx?_eq_some_iff_getElem.mp hfind
    refine .inl ⟨index, (stripped chunk)[index], List.getElem?_eq_getElem hlt,
      of_decide_eq_true hbyte, ?_⟩
    change Except.error (Base64.invalidByte index ((stripped chunk).getD index 0)) = _
    rw [List.getD_eq_getElem _ _ hlt]

/-- The bytes of the last symbols have these symbols, and no other bits are set. -/
theorem padded_lastBytes {symbols bytes : List UInt8} (hall : ∀ byte ∈ symbols, byte ∈ alphabet)
    (h : lastBytes (symbols.map (alphabet.idxOf ·)) = some bytes) :
    padded bytes = symbols ++ List.replicate (4 - symbols.length) 61 := by
  match symbols, hall, h with
  | [], _, h | [_], _, h => cases h
  | [w, x], hall, h =>
    simp only [List.mem_cons, List.not_mem_nil, or_false, forall_eq_or_imp, forall_eq] at hall
    obtain ⟨hw, hx⟩ := hall
    have hw' := idxOf_lt hw
    have hx' := idxOf_lt hx
    simp only [List.map_cons, List.map_nil, lastBytes] at h
    split_ifs at h with hlow
    cases h
    rw [padded, internalEncode, symbol_eq hw, symbol_eq hx]
    · rfl
    · rw [UInt8.toNat_ofNat']
      omega
    · rw [UInt8.toNat_ofNat']
      omega
  | [w, x, y], hall, h =>
    simp only [List.mem_cons, List.not_mem_nil, or_false, forall_eq_or_imp, forall_eq] at hall
    obtain ⟨hw, hx, hy⟩ := hall
    have hw' := idxOf_lt hw
    have hx' := idxOf_lt hx
    have hy' := idxOf_lt hy
    simp only [List.map_cons, List.map_nil, lastBytes] at h
    split_ifs at h with hlow
    cases h
    rw [padded, internalEncode, symbol_eq hw, symbol_eq hx, symbol_eq hy]
    · rfl
    · rw [UInt8.toNat_ofNat']
      omega
    · rw [UInt8.toNat_ofNat', UInt8.toNat_ofNat']
      omega
    · rw [UInt8.toNat_ofNat']
      omega
  | [w, x, y, z], hall, h =>
    simp only [List.mem_cons, List.not_mem_nil, or_false, forall_eq_or_imp, forall_eq] at hall
    obtain ⟨hw, hx, hy, hz⟩ := hall
    have hw' := idxOf_lt hw
    have hx' := idxOf_lt hx
    have hy' := idxOf_lt hy
    have hz' := idxOf_lt hz
    simp only [List.map_cons, List.map_nil, lastBytes] at h
    cases h
    rw [padded, internalEncode, internalEncode, symbol_eq hw, symbol_eq hx, symbol_eq hy,
      symbol_eq hz]
    · rfl
    · rw [UInt8.toNat_ofNat']
      omega
    · rw [UInt8.toNat_ofNat', UInt8.toNat_ofNat']
      omega
    · rw [UInt8.toNat_ofNat', UInt8.toNat_ofNat']
      omega
    · rw [UInt8.toNat_ofNat']
      omega
  | _ :: _ :: _ :: _ :: _ :: _, _, h => cases h

/-- A text of one group is made of symbols that stand for its bytes, and padding. -/
theorem stripped_padded {bytes chunk : List UInt8} (h : padded bytes = chunk) (hne : chunk ≠ [])
    (hchunk : chunk.length ≤ 4) :
    chunk.length = 4 ∧ 2 ≤ (stripped chunk).length ∧ (∀ byte ∈ stripped chunk, byte ∈ alphabet) ∧
      lastBytes ((stripped chunk).map (alphabet.idxOf ·)) = some bytes := by
  have hlength := length_le_of_padded h hchunk
  subst h
  match bytes, hne, hlength with
  | [], hne, _ => exact absurd rfl hne
  | [a], _, _ =>
    have hsymbols : stripped (padded [a]) = internalEncode [a] := by
      simp [stripped, padded, internalEncode, symbol_ne_pad]
    have ha := a.toNat_lt
    rw [hsymbols]
    refine ⟨rfl, le_refl 2, ?_, ?_⟩
    · simp [internalEncode, symbol_mem]
    · simp only [internalEncode, List.map_cons, List.map_nil, idxOf_symbol, lastBytes]
      rw [if_pos (by omega), ofNat_eq a (by omega)]
  | [a, b], _, _ =>
    have hsymbols : stripped (padded [a, b]) = internalEncode [a, b] := by
      simp [stripped, padded, internalEncode, symbol_ne_pad]
    have ha := a.toNat_lt
    have hb := b.toNat_lt
    rw [hsymbols]
    refine ⟨rfl, Nat.le_succ 2, ?_, ?_⟩
    · simp [internalEncode, symbol_mem]
    · simp only [internalEncode, List.map_cons, List.map_nil, idxOf_symbol, lastBytes]
      rw [if_pos (by omega), ofNat_eq a (by omega), ofNat_eq b (by omega)]
  | [a, b, c], _, _ =>
    have hsymbols : stripped (padded [a, b, c]) = internalEncode [a, b, c] := by
      simp [stripped, padded, internalEncode, symbol_ne_pad]
    have ha := a.toNat_lt
    have hb := b.toNat_lt
    have hc := c.toNat_lt
    rw [hsymbols]
    refine ⟨rfl, Nat.le_add_left 2 2, ?_, ?_⟩
    · simp [internalEncode, symbol_mem]
    · simp only [internalEncode, List.append_nil, List.map_cons, List.map_nil, idxOf_symbol,
        lastBytes]
      rw [ofNat_eq a (by omega), ofNat_eq b (by omega), ofNat_eq c (by omega)]
  | _ :: _ :: _ :: _ :: more, _, hlength =>
    simp only [List.length_cons] at hlength
    omega

/-- The engine of the standard treats each group as the standard says. -/
theorem engine_groups : engine.Groups where
  ok chunk bytes hne hchunk := by
    constructor
    · intro h
      rcases decodeSlice_cases hne hchunk with
        ⟨-, hresult⟩ | ⟨_, _, -, -, hresult⟩ |
        ⟨hfour, htwo, hall, ⟨-, _, hresult⟩ | ⟨bytes', hlast, hresult⟩⟩
      · rw [hresult] at h
        cases h
      · rw [hresult] at h
        cases h
      · rw [hresult] at h
        cases h
      · rw [hresult] at h
        cases h
        rw [padded_lastBytes hall hlast, ← hfour]
        exact stripped_append chunk
    · intro h
      obtain ⟨hfour, htwo, hall, hbytes⟩ := stripped_padded h hne hchunk
      rcases decodeSlice_cases hne hchunk with
        ⟨hshort, -⟩ | ⟨index, byte, hbyte, hnot, -⟩ |
        ⟨-, -, -, ⟨hlast, -⟩ | ⟨bytes', hlast, hresult⟩⟩
      · omega
      · exact absurd (hall byte (List.mem_of_getElem? hbyte)) hnot
      · rw [hlast] at hbytes
        cases hbytes
      · rw [hlast] at hbytes
        cases hbytes
        exact hresult
  invalidByte chunk index byte hne hchunk h := by
    rcases decodeSlice_cases hne hchunk with
      ⟨-, hresult⟩ | ⟨_, _, hbyte, hnot, hresult⟩ |
      ⟨-, -, -, ⟨-, _, hresult⟩ | ⟨_, -, hresult⟩⟩
    · rw [hresult] at h
      cases h
    · rw [hresult] at h
      cases h
      exact ⟨getElem?_stripped hbyte, hnot⟩
    · rw [hresult] at h
      cases h
    · rw [hresult] at h
      cases h
  invalidLength chunk length hne hchunk h := by
    rcases decodeSlice_cases hne hchunk with
      ⟨-, hresult⟩ | ⟨_, _, -, -, hresult⟩ | ⟨-, -, -, ⟨-, _, hresult⟩ | ⟨_, -, hresult⟩⟩
    all_goals
      rw [hresult] at h
      cases h
  invalidLastSymbol chunk offset symbol value hne hchunk h := by
    rcases decodeSlice_cases hne hchunk with
      ⟨-, hresult⟩ | ⟨_, _, -, -, hresult⟩ |
      ⟨-, htwo, hall, ⟨-, _, hresult⟩ | ⟨_, -, hresult⟩⟩
    · rw [hresult] at h
      cases h
    · rw [hresult] at h
      cases h
    · rw [hresult] at h
      cases h
      have hplace : (stripped chunk)[(stripped chunk).length - 1]? =
          some ((stripped chunk).getLastD 0) := by
        have hlast : (stripped chunk).getLast? ≠ none := by
          intro hnone
          rw [List.getLast?_eq_none_iff] at hnone
          rw [hnone] at htwo
          cases htwo
        obtain ⟨byte, hbyte⟩ := Option.ne_none_iff_exists'.mp hlast
        rw [← List.getLast?_eq_getElem?, List.getLastD_eq_getLast?, hbyte]
        rfl
      exact ⟨getElem?_stripped hplace, hall _ (List.mem_of_getElem? hplace)⟩
    · rw [hresult] at h
      cases h
  room chunk hne hchunk h := by
    rcases decodeSlice_cases hne hchunk with
      ⟨-, hresult⟩ | ⟨_, _, -, -, hresult⟩ | ⟨-, -, -, ⟨-, _, hresult⟩ | ⟨_, -, hresult⟩⟩
    all_goals
      rw [hresult] at h
      cases h

end Standard

/-! ## The whole salt -/

/-- The salt is decoded when it is the text of bytes, which are the concatenation of what is
written. Another salt is refused with a place in it, as is one with padding before the last
group. -/
theorem Engine.Groups.decodeBase64_spec {engine : Engine} (hengine : engine.Groups) {σ : Type}
    (write : σ → List UInt8 → σ) (text : List UInt8) (state : σ) :
    (∀ state', decodeBase64 engine write text state = .ok state' ↔
      ∃ bytes, padded bytes = text ∧ state' = (triples bytes).foldl write state) ∧
    (∀ bytes bytes', padded bytes = text → padded bytes' = text → bytes = bytes') ∧
    (∀ bytes, (triples bytes).flatten = bytes) ∧
    (∀ error, decodeBase64 engine write text state = .error error → Reports text error) ∧
    ∀ offset, text[offset]? = some 61 → offset / 4 * 4 + 4 < text.length →
      ∃ error, decodeBase64 engine write text state = .error error := by
  refine ⟨fun state' => decodeFrom_ok hengine, ?_, flatten_triples, ?_, ?_⟩
  · rintro bytes bytes' rfl h
    exact padded_injective hengine h.symm
  · intro error h
    exact decodeFrom_error hengine [] rfl h
  · intro offset hoffset hbefore
    rcases hresult : decodeBase64 engine write text state with error | state'
    · exact ⟨error, rfl⟩
    · obtain ⟨bytes, rfl, -⟩ := (decodeFrom_ok hengine).mp hresult
      have := padded_padding hoffset
      omega

/-- A salt of four bytes, and one whose first group is padded. -/
theorem Engine.Groups.decodeBase64_padded :
    decodeBase64 Standard.engine (· ++ ·) (ascii "QUJDRA==") [] = .ok [65, 66, 67, 68] ∧
      ∃ error, decodeBase64 Standard.engine (· ++ ·) (ascii "QQ==QUJD") [] = .error error :=
  ⟨((engine_groups.decodeBase64_spec (· ++ ·) _ []).1 _).mpr
      ⟨[65, 66, 67, 68], by decide, by decide⟩,
    (engine_groups.decodeBase64_spec (· ++ ·) _ []).2.2.2.2 2 (by decide) (by decide)⟩

end Cartel.Pg.Scram
