import Cartel.Parser.Limit

/-!
# Finding the end of a header line

`Line.find` resumes the search for a line's CRLF at `scan`. Two facts make resumption
harmless. A line found in a buffer is found in every longer one
(`Line.find_append_some`). When no line is found, the search may be resumed at the last
byte read : it finds what the search from the old position finds (`Line.find_rescan`).

Searched from its own start, a line is a text with its CRLF : every text without CR and
LF is found (`Line.find_of_plain`), and what is found is a text with its CRLF
(`Line.find_split`).
-/

namespace Cartel.Redis.Parser

/-- `bytes.get(start..stop)`. -/
def slice (bytes : List UInt8) (start stop : ℕ) : Option (List UInt8) :=
  if start ≤ stop ∧ stop ≤ bytes.length then some ((bytes.take stop).drop start) else none

/-- `windows(2).position(|pair| pair == b"\r\n")`. -/
def crlf : List UInt8 → Option ℕ
  | a :: b :: rest => if a = cr ∧ b = lf then some 0 else (crlf (b :: rest)).map (· + 1)
  | _ => none

/-- `position(|byte| matches!(byte, b'\r' | b'\n'))`. -/
def breaks (byte : UInt8) : Bool :=
  byte = cr || byte = lf

/-- A byte out of place : its offset, the byte expected there, the byte found. -/
abbrev Misplaced := ℕ × UInt8 × UInt8

namespace Line

/-- The offset of a text line's terminator in `tail`, the bytes from `scan` on. -/
def text (tail : List UInt8) (scan : ℕ) : Except Misplaced (Option ℕ) :=
  match tail.findIdx? breaks with
  | none => .ok none
  | some offset =>
    if tail[offset]? = some lf then .error (scan + offset, cr, lf)
    else
      match tail[offset + 1]? with
      | none => .ok none
      | some actual =>
        if actual ≠ lf then .error (scan + offset + 1, lf, actual) else .ok (some offset)

/-- The offset of a line's terminator in `tail`, the bytes from `scan` on. -/
def terminator (tail : List UInt8) (scan : ℕ) : LineKind → Except Misplaced (Option ℕ)
  | .status | .server => text tail scan
  | .integer | .bulk | .array => .ok (crlf tail)

/-- `Line::find`. -/
def find (bytes : List UInt8) (start : End) (scan : ℕ) (kind : LineKind) :
    Except Misplaced (Option Line) :=
  let begin := start.get
  let scan := max scan begin
  if bytes.length < scan then .ok none
  else
    match terminator (bytes.drop scan) scan kind with
    | .error e => .error e
    | .ok none => .ok none
    | .ok (some offset) => .ok ((slice bytes begin (scan + offset)).map (⟨·, start⟩))

end Line

/-! ## Searching a longer buffer -/

theorem slice_eq_some {bytes value : List UInt8} {start stop : ℕ} :
    slice bytes start stop = some value ↔
      start ≤ stop ∧ stop ≤ bytes.length ∧ value = (bytes.take stop).drop start := by
  unfold slice
  split_ifs with h
  · simp [h, eq_comm]
  · simp only [false_iff]
    exact fun h' => h ⟨h'.1, h'.2.1⟩

theorem slice_append {bytes rest value : List UInt8} {start stop : ℕ}
    (h : slice bytes start stop = some value) : slice (bytes ++ rest) start stop = some value := by
  obtain ⟨hle, hstop, rfl⟩ := slice_eq_some.mp h
  refine slice_eq_some.mpr ⟨hle, by rw [List.length_append]; omega, ?_⟩
  rw [List.take_append_of_le_length hstop]

/-- A slice of two bytes. -/
theorem getElem?_of_slice {bytes : List UInt8} {a b : UInt8} {start stop : ℕ}
    (h : slice bytes start stop = some [a, b]) :
    bytes[start]? = some a ∧ bytes[start + 1]? = some b := by
  obtain ⟨-, hstop, hvalue⟩ := slice_eq_some.mp h
  have hget (i : ℕ) (hi : i < 2) : bytes[start + i]? = ([a, b] : List UInt8)[i]? := by
    have hlen : ([a, b] : List UInt8).length = stop - start := by
      rw [hvalue, List.length_drop, List.length_take, Nat.min_eq_left hstop]
    rw [List.length_cons, List.length_singleton] at hlen
    rw [hvalue, List.getElem?_drop, List.getElem?_take_of_lt (by omega)]
  exact ⟨hget 0 (by omega), hget 1 (by omega)⟩

theorem crlf_eq_some {bytes : List UInt8} {i : ℕ} (h : crlf bytes = some i) :
    bytes[i]? = some cr ∧ bytes[i + 1]? = some lf := by
  induction bytes generalizing i with
  | nil => simp [crlf] at h
  | cons a rest ih =>
    cases rest with
    | nil => simp [crlf] at h
    | cons b rest =>
      rw [crlf] at h
      split_ifs at h with hab
      · obtain rfl : 0 = i := by simpa using h
        simp [hab]
      · obtain ⟨j, hj, rfl⟩ := Option.map_eq_some_iff.mp h
        simpa using ih hj

theorem crlf_append_some {bytes rest : List UInt8} {i : ℕ} (h : crlf bytes = some i) :
    crlf (bytes ++ rest) = some i := by
  induction bytes generalizing i with
  | nil => simp [crlf] at h
  | cons a tail ih =>
    cases tail with
    | nil => simp [crlf] at h
    | cons b tail =>
      simp only [List.cons_append]
      rw [crlf] at h ⊢
      split_ifs at h ⊢ with hab
      · exact h
      · obtain ⟨j, hj, rfl⟩ := Option.map_eq_some_iff.mp h
        rw [← List.cons_append, ih hj]
        rfl

/-- A buffer without a CRLF pair, continued : the pair starts at its last byte or later. -/
theorem crlf_append_none {bytes rest : List UInt8} (h : crlf bytes = none) :
    crlf (bytes ++ rest) =
      (crlf (bytes.drop (bytes.length - 1) ++ rest)).map (· + (bytes.length - 1)) := by
  induction bytes with
  | nil => simp
  | cons a tail ih =>
    cases tail with
    | nil => simp
    | cons b tail =>
      rw [crlf] at h
      split_ifs at h with hab
      have ih := ih (by simpa using h)
      simp only [List.cons_append, List.length_cons, Nat.add_sub_cancel] at ih ⊢
      rw [crlf, if_neg hab, ih, Option.map_map]
      rfl

namespace Line

theorem text_eq_some {tail : List UInt8} {scan offset : ℕ} :
    text tail scan = .ok (some offset) ↔
      tail.findIdx? breaks = some offset ∧ tail[offset]? ≠ some lf ∧
        tail[offset + 1]? = some lf := by
  unfold text
  cases hb : tail.findIdx? breaks with
  | none => simp
  | some i =>
    dsimp only
    split_ifs with hi
    · simp only [Option.some.injEq, false_iff, not_and]
      rintro rfl hne
      exact absurd hi hne
    · split
      · next hn =>
        simp only [Except.ok.injEq, reduceCtorEq, Option.some.injEq, false_iff, not_and]
        rintro rfl -
        simp [hn]
      · next actual hn =>
        split_ifs with ha
        · simp only [Option.some.injEq, false_iff, not_and]
          rintro rfl -
          simpa [hn] using ha
        · simp only [Except.ok.injEq, Option.some.injEq]
          constructor
          · rintro rfl
            exact ⟨rfl, hi, by rw [hn, not_not.mp ha]⟩
          · exact And.left

/-- An unfinished text line has no break before its last byte. -/
theorem findIdx?_of_text_eq_none {tail : List UInt8} {scan : ℕ}
    (h : text tail scan = .ok none) : (tail.take (tail.length - 1)).findIdx? breaks = none := by
  rw [List.findIdx?_eq_none_iff]
  intro byte hbyte
  unfold text at h
  cases hb : tail.findIdx? breaks with
  | none => exact List.findIdx?_eq_none_iff.mp hb byte (List.mem_of_mem_take hbyte)
  | some i =>
    -- the only break allowed is a CR at the very end
    have hend : tail[i + 1]? = none := by
      simp only [hb] at h
      split_ifs at h
      split at h
      · assumption
      · split_ifs at h
        simp at h
    have hlen : tail.length ≤ i + 1 := List.getElem?_eq_none_iff.mp hend
    obtain ⟨j, hj, rfl⟩ := List.getElem_of_mem hbyte
    rw [List.length_take] at hj
    obtain ⟨_, _, hbefore⟩ := List.findIdx?_eq_some_iff_getElem.mp hb
    simpa using hbefore j (by omega)

theorem text_append_of_free {tail : List UInt8} (rest : List UInt8) (scan : ℕ)
    (h : tail.findIdx? breaks = none) :
    text (tail ++ rest) scan =
      (text rest (scan + tail.length)).map (Option.map (· + tail.length)) := by
  unfold text
  rw [List.findIdx?_append, h, Option.none_or]
  cases hr : rest.findIdx? breaks with
  | none => rfl
  | some i =>
    have hget : ∀ n, (tail ++ rest)[i + tail.length + n]? = rest[i + n]? := fun n => by
      rw [List.getElem?_append_right (by omega)]
      congr 1
      omega
    have h0 := hget 0
    simp only [Nat.add_zero] at h0
    simp only [Option.map_some, h0, hget 1]
    split_ifs
    · simp only [Except.map, Except.error.injEq, Prod.mk.injEq, and_true]
      omega
    · cases rest[i + 1]? with
      | none => rfl
      | some actual =>
        dsimp only
        split_ifs
        · simp only [Except.map, Except.error.injEq, Prod.mk.injEq, and_true]
          omega
        · rfl

theorem text_append_some {tail rest : List UInt8} {scan offset : ℕ}
    (h : text tail scan = .ok (some offset)) : text (tail ++ rest) scan = .ok (some offset) := by
  obtain ⟨hb, hne, hlf⟩ := text_eq_some.mp h
  have hlt : offset + 1 < tail.length := (List.getElem?_eq_some_iff.mp hlf).1
  refine text_eq_some.mpr ⟨?_, ?_, ?_⟩
  · rw [List.findIdx?_append, hb]
    rfl
  · rwa [List.getElem?_append_left (by omega)]
  · rwa [List.getElem?_append_left hlt]

theorem terminator_append_some {tail rest : List UInt8} {scan offset : ℕ} {kind : LineKind}
    (h : terminator tail scan kind = .ok (some offset)) :
    terminator (tail ++ rest) scan kind = .ok (some offset) := by
  cases kind with
  | status | server => exact text_append_some h
  | integer | bulk | array =>
    simp only [terminator, Except.ok.injEq] at h ⊢
    exact crlf_append_some h

/-- The search of a longer buffer from `scan` is the search from the last byte read. -/
theorem terminator_append_none {tail : List UInt8} (rest : List UInt8) {scan : ℕ} {kind : LineKind}
    (h : terminator tail scan kind = .ok none) :
    terminator (tail ++ rest) scan kind =
      (terminator (tail.drop (tail.length - 1) ++ rest) (scan + (tail.length - 1)) kind).map
        (Option.map (· + (tail.length - 1))) := by
  have hsplit := List.take_append_drop (tail.length - 1) tail
  have hlen : (tail.take (tail.length - 1)).length = tail.length - 1 := by simp
  have text_none (h : text tail scan = .ok none) :
      text (tail ++ rest) scan =
        (text (tail.drop (tail.length - 1) ++ rest) (scan + (tail.length - 1))).map
          (Option.map (· + (tail.length - 1))) := by
    have := text_append_of_free (tail.drop (tail.length - 1) ++ rest) scan
      (findIdx?_of_text_eq_none h)
    rwa [← List.append_assoc, hsplit, hlen] at this
  cases kind with
  | status | server => exact text_none h
  | integer | bulk | array =>
    simp only [terminator, Except.ok.injEq] at h ⊢
    rw [crlf_append_none h]
    rfl

/-- What ends a line is a CRLF. -/
theorem terminator_pair {tail : List UInt8} {scan offset : ℕ} {kind : LineKind}
    (h : terminator tail scan kind = .ok (some offset)) :
    tail[offset]? = some cr ∧ tail[offset + 1]? = some lf := by
  cases kind with
  | status | server =>
    obtain ⟨hb, hne, hlf⟩ := text_eq_some.mp h
    obtain ⟨hlt, hbreak, -⟩ := List.findIdx?_eq_some_iff_getElem.mp hb
    rw [List.getElem?_eq_getElem hlt] at hne ⊢
    refine ⟨?_, hlf⟩
    simp only [breaks, Bool.or_eq_true, decide_eq_true_eq] at hbreak
    rcases hbreak with hcr | hlf
    · rw [hcr]
    · exact absurd (congrArg some hlf) hne
  | integer | bulk | array => exact crlf_eq_some (Except.ok.inj h)

theorem terminator_le {tail : List UInt8} {scan offset : ℕ} {kind : LineKind}
    (h : terminator tail scan kind = .ok (some offset)) : offset + 2 ≤ tail.length := by
  have := (List.getElem?_eq_some_iff.mp (terminator_pair h).2).1
  omega

theorem text_error_lt {tail : List UInt8} {scan offset : ℕ} {expected actual : UInt8}
    (h : text tail scan = .error (offset, expected, actual)) : offset < scan + tail.length := by
  unfold text at h
  split at h
  · cases h
  · next i hi =>
    have hlt : i < tail.length := (List.findIdx?_eq_some_iff_getElem.mp hi).1
    split_ifs at h
    · cases h
      omega
    · split at h
      · cases h
      · next actual hactual =>
        have hlt := (List.getElem?_eq_some_iff.mp hactual).1
        split_ifs at h
        cases h
        omega

/-- A byte out of place is a byte of the buffer. -/
theorem find_error_lt {bytes : List UInt8} {start : End} {scan offset : ℕ} {kind : LineKind}
    {expected actual : UInt8} (h : find bytes start scan kind = .error (offset, expected, actual)) :
    offset < bytes.length := by
  unfold find at h
  dsimp only at h
  split_ifs at h with hscan
  split at h
  · next e he =>
    cases h
    cases kind with
    | status | server =>
      have := text_error_lt he
      rw [List.length_drop] at this
      omega
    | integer | bulk | array => cases he
  · cases h
  · cases h

/-- Inside the buffer the search is the search of the bytes from `scan` on. -/
theorem find_eq_map {bytes : List UInt8} {start : End} {scan : ℕ} {kind : LineKind}
    (h : max scan start.get ≤ bytes.length) :
    find bytes start scan kind =
      (terminator (bytes.drop (max scan start.get)) (max scan start.get) kind).map
        (Option.map fun offset =>
          ⟨(bytes.take (max scan start.get + offset)).drop start.get, start⟩) := by
  unfold find
  dsimp only
  rw [if_neg (by omega)]
  cases ht : terminator (bytes.drop (max scan start.get)) (max scan start.get) kind with
  | error e => rfl
  | ok found =>
    cases found with
    | none => rfl
    | some offset =>
      have hle := terminator_le ht
      rw [List.length_drop] at hle
      have hs : slice bytes start.get (max scan start.get + offset) = some _ :=
        slice_eq_some.mpr ⟨by omega, by omega, rfl⟩
      simp only [hs]
      rfl

theorem find_eq_some {bytes : List UInt8} {start : End} {scan : ℕ} {kind : LineKind} {line : Line}
    (h : find bytes start scan kind = .ok (some line)) :
    line.start = start ∧ line.stop + 2 ≤ bytes.length ∧
      line.value = (bytes.take line.stop).drop start.get ∧
      max scan start.get ≤ line.stop ∧
      terminator (bytes.drop (max scan start.get)) (max scan start.get) kind =
        .ok (some (line.stop - max scan start.get)) := by
  have hle : max scan start.get ≤ bytes.length := by
    by_contra hlt
    unfold find at h
    dsimp only at h
    rw [if_pos (by omega)] at h
    simp at h
  rw [find_eq_map hle] at h
  cases ht : terminator (bytes.drop (max scan start.get)) (max scan start.get) kind with
  | error e => simp [ht, Except.map] at h
  | ok found =>
    cases found with
    | none => simp [ht, Except.map] at h
    | some offset =>
      have hlen := terminator_le ht
      rw [List.length_drop] at hlen
      simp only [ht, Except.map, Option.map_some, Except.ok.injEq, Option.some.injEq] at h
      subst h
      have hstop : Line.stop ⟨(bytes.take (max scan start.get + offset)).drop start.get, start⟩ =
          max scan start.get + offset := by
        simp only [stop, List.length_drop, List.length_take]
        omega
      rw [hstop]
      refine ⟨rfl, by omega, rfl, by omega, by simp⟩

/-- A line found ends with a CRLF. -/
theorem find_pair {bytes : List UInt8} {start : End} {scan : ℕ} {kind : LineKind} {line : Line}
    (h : find bytes start scan kind = .ok (some line)) :
    bytes[line.stop]? = some cr ∧ bytes[line.stop + 1]? = some lf := by
  obtain ⟨-, -, -, hscan, ht⟩ := find_eq_some h
  obtain ⟨hcr, hlf⟩ := terminator_pair ht
  rw [List.getElem?_drop] at hcr hlf
  rw [← Nat.add_assoc] at hlf
  rw [Nat.add_sub_cancel' hscan] at hcr hlf
  exact ⟨hcr, hlf⟩

/-- A line found in a buffer is found in every longer one. -/
theorem find_append_some {bytes rest : List UInt8} {start : End} {scan : ℕ} {kind : LineKind}
    {line : Line} (h : find bytes start scan kind = .ok (some line)) :
    find (bytes ++ rest) start scan kind = .ok (some line) := by
  obtain ⟨rfl, hstop, hvalue, hscan, ht⟩ := find_eq_some h
  rw [find_eq_map (by rw [List.length_append]; omega), List.drop_append_of_le_length (by omega),
    terminator_append_some ht]
  simp only [Except.map, Option.map_some, Nat.add_sub_cancel' hscan]
  rw [List.take_append_of_le_length (by omega), ← hvalue]

/-- When `bytes` ends inside the line, searching on from its last byte finds what the
search from `scan` finds. -/
theorem find_rescan {bytes rest : List UInt8} {start : End} {scan : ℕ} {kind : LineKind}
    (hstart : start.get ≤ bytes.length) (hscan : scan ≤ max (bytes.length - 1) start.get)
    (h : find bytes start scan kind = .ok none) :
    find (bytes ++ rest) start (max (bytes.length - 1) start.get) kind =
      find (bytes ++ rest) start scan kind := by
  have hpos := start.pos
  have hlen : (bytes ++ rest).length = bytes.length + rest.length := List.length_append
  rw [find_eq_map (by omega)] at h
  rw [find_eq_map (by omega), find_eq_map (by omega)]
  rw [Nat.max_eq_left (Nat.le_max_right _ _)]
  generalize hs : max scan start.get = s at h ⊢
  generalize hs' : max (bytes.length - 1) start.get = s'
  have hle : s ≤ s' := by omega
  have hnone : terminator (bytes.drop s) s kind = .ok none := by
    cases ht : terminator (bytes.drop s) s kind with
    | error e => simp [ht, Except.map] at h
    | ok found =>
      cases found with
      | none => rfl
      | some offset => simp [ht, Except.map] at h
  rcases Nat.eq_or_lt_of_le hle with rfl | hlt
  · rfl
  · -- the old search read up to the last byte, at `s'`
    have htail : (bytes.drop s).length - 1 = s' - s := by
      rw [List.length_drop]
      omega
    have := terminator_append_none rest hnone
    rw [htail, List.drop_drop, Nat.add_sub_cancel' hle] at this
    rw [List.drop_append_of_le_length (by omega), List.drop_append_of_le_length (by omega), this]
    cases terminator (bytes.drop s' ++ rest) s' kind with
    | error e => rfl
    | ok found =>
      cases found with
      | none => rfl
      | some offset =>
        simp only [Except.map, Option.map_some]
        rw [show s + (offset + (s' - s)) = s' + offset by omega]

end Line

/-! ## Lines as texts -/

/-- A text free of CR and LF. -/
def Plain (text : List UInt8) : Prop :=
  ∀ byte ∈ text, byte ≠ cr ∧ byte ≠ lf

instance : DecidablePred Plain := fun text => List.decidableBAll _ text

theorem findIdx?_breaks {text rest : List UInt8} (h : Plain text) :
    (text ++ cr :: rest).findIdx? breaks = some text.length := by
  induction text with
  | nil => rfl
  | cons byte text ih =>
    obtain ⟨hcr, hlf⟩ := h byte List.mem_cons_self
    rw [List.cons_append, List.findIdx?_cons, if_neg (by simp [breaks, hcr, hlf]),
      ih fun b hb => h b (List.mem_cons_of_mem _ hb)]
    rfl

theorem crlf_of_plain {text rest : List UInt8} (h : Plain text) :
    crlf (text ++ cr :: lf :: rest) = some text.length := by
  induction text with
  | nil => rfl
  | cons byte text ih =>
    have ih := ih fun b hb => h b (List.mem_cons_of_mem _ hb)
    obtain ⟨hcr, -⟩ := h byte List.mem_cons_self
    cases text with
    | nil =>
      rw [List.cons_append, List.nil_append, crlf, if_neg fun hc => hcr hc.1]
      rw [List.nil_append] at ih
      rw [ih]
      rfl
    | cons next text =>
      rw [List.cons_append, List.cons_append, crlf, if_neg fun hc => hcr hc.1,
        ← List.cons_append, ih]
      rfl

namespace Line

theorem terminator_of_plain {text rest : List UInt8} {scan : ℕ} {kind : LineKind}
    (h : Plain text) :
    terminator (text ++ cr :: lf :: rest) scan kind = .ok (some text.length) := by
  have htext : Line.text (text ++ cr :: lf :: rest) scan = .ok (some text.length) := by
    refine text_eq_some.mpr ⟨findIdx?_breaks h, ?_, ?_⟩
    · simp [cr, lf]
    · simp
  cases kind with
  | status | server => exact htext
  | integer | bulk | array => exact congrArg Except.ok (crlf_of_plain h)

/-- A plain text with its CRLF is found from its start. -/
theorem find_of_plain {bytes text rest : List UInt8} {start : End} {scan : ℕ} {kind : LineKind}
    (hscan : scan ≤ start.get) (hle : start.get ≤ bytes.length) (h : Plain text)
    (hdrop : bytes.drop start.get = text ++ cr :: lf :: rest) :
    find bytes start scan kind = .ok (some ⟨text, start⟩) := by
  have hmax : max scan start.get = start.get := Nat.max_eq_right hscan
  rw [find_eq_map (by omega), hmax, hdrop, terminator_of_plain h]
  simp only [Except.map, Option.map_some, Except.ok.injEq, Option.some.injEq, mk.injEq, and_true]
  rw [List.drop_take, hdrop, Nat.add_sub_cancel_left, List.take_left']
  rfl

/-- What is found from the start is a text with its CRLF, plain in the text lines. -/
theorem find_split {bytes : List UInt8} {start : End} {scan : ℕ} {kind : LineKind} {line : Line}
    (hscan : scan ≤ start.get) (h : find bytes start scan kind = .ok (some line)) :
    line.start = start ∧
      (∃ rest, bytes.drop start.get = line.value ++ cr :: lf :: rest) ∧
      (kind = .status ∨ kind = .server → Plain line.value) := by
  obtain ⟨hstart, hstop, hvalue, hle, ht⟩ := find_eq_some h
  rw [Nat.max_eq_right hscan] at hle ht
  generalize hn : line.stop - start.get = n at ht
  have hvalue : line.value = (bytes.drop start.get).take n := by
    rw [hvalue, List.drop_take, hn]
  generalize bytes.drop start.get = tail at hvalue ht
  have hpair := terminator_pair ht
  obtain ⟨hcr, hcr'⟩ := List.getElem?_eq_some_iff.mp hpair.1
  obtain ⟨hlf, hlf'⟩ := List.getElem?_eq_some_iff.mp hpair.2
  refine ⟨hstart, ⟨tail.drop (n + 2), ?_⟩, fun hkind byte hbyte => ?_⟩
  · rw [hvalue, ← hlf', ← hcr', ← List.drop_eq_getElem_cons, ← List.drop_eq_getElem_cons,
      List.take_append_drop]
  · have hb : tail.findIdx? breaks = some n := by
      rcases hkind with rfl | rfl <;> exact (text_eq_some.mp ht).1
    obtain ⟨_, -, hbefore⟩ := List.findIdx?_eq_some_iff_getElem.mp hb
    rw [hvalue] at hbyte
    obtain ⟨i, hi, rfl⟩ := List.getElem_of_mem hbyte
    rw [List.length_take] at hi
    have hfree := hbefore i (by omega)
    simpa [breaks] using hfree

end Line

end Cartel.Redis.Parser
