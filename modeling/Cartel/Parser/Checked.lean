import Cartel.Parser.Contract

/-!
# The arithmetic of the scanner in machine words

The scanner computes positions, lengths and limits in `u32` and `usize`. Here it is once
more with every sum, difference and conversion of the source checked : a function with `?`
in its name follows the source as the one without does, and has no value where an operation
overflows, borrows or drops bits. Operations the source wants to wrap or to fail are not
checked (`overflowing_add` of a rejected count, the digits of a number).

`Call.scan?_eq` : on a buffer whose length is a `usize`, a call of a parser that keeps the
slot of its pending value computes the same with checked arithmetic. So no operation of the
scanner or of its bounds leaves its type.
-/

namespace Cartel.Redis.Parser

/-! ## Checked operations -/

/-- The sum, if it has `width` bits. -/
def add? (width a b : ℕ) : Option ℕ :=
  if a + b < 2 ^ width then some (a + b) else none

/-- The difference, if there is no borrow. -/
def sub? (a b : ℕ) : Option ℕ :=
  if b ≤ a then some (a - b) else none

/-- The conversion to `width` bits, if it keeps the value. -/
def cast? (width a : ℕ) : Option ℕ :=
  if a < 2 ^ width then some a else none

theorem add?_eq {width a b : ℕ} (h : a + b < 2 ^ width) : add? width a b = some (a + b) :=
  if_pos h

theorem sub?_eq {a b : ℕ} (h : b ≤ a) : sub? a b = some (a - b) :=
  if_pos h

theorem cast?_eq {width a : ℕ} (h : a < 2 ^ width) : cast? width a = some a :=
  if_pos h

/-! ## Ends and bodies -/

/-- A nonzero `u32`, if the number is one. -/
def End.ofNat? (n : ℕ) : Option End :=
  if h : 0 < n ∧ n < 2 ^ 32 then some ⟨n, h.1, h.2⟩ else none

/-- A nonzero `u32`, if the number is one. -/
def Slot.ofNat? (n : ℕ) : Option Slot :=
  if h : 0 < n ∧ n < 2 ^ 32 then some ⟨n, h.1, h.2⟩ else none

/-- `Body::new`, if its trailing CRLF is within `u32`. -/
def Body.new? (start : End) (stop : ℕ) : Option Body :=
  if h : start.get ≤ stop ∧ stop + 2 < 2 ^ 32 then some ⟨start.get, stop, start.pos, h.1, h.2⟩
  else none

/-- `End::consumed`. -/
def End.consumed? (e : End) : Option ℕ := do
  let rest ← sub? e.get 1
  add? 64 1 rest

/-- `Body::get`. -/
def Body.get? (body : Body) : Option ℕ :=
  add? 64 body.stop 2

/-- `Body::end`. -/
def Body.end? (body : Body) : Option End := do
  let last ← add? 32 body.stop 1
  let finish ← add? 32 1 last
  End.ofNat? finish

/-- `Body::consumed`. -/
def Body.consumed? (body : Body) : Option ℕ := do
  let finish ← body.end?
  finish.consumed?

theorem End.ofNat?_eq (e : End) : End.ofNat? e.get = some e :=
  dif_pos ⟨e.pos, e.lt⟩

theorem Slot.ofNat?_eq (slot : Slot) : Slot.ofNat? slot.get = some slot :=
  dif_pos ⟨slot.pos, slot.lt⟩

theorem Body.new?_eq {start : End} {stop : ℕ} (hle : start.get ≤ stop)
    (hlt : stop + 2 < 2 ^ 32) :
    Body.new? start stop = some ⟨start.get, stop, start.pos, hle, hlt⟩ :=
  dif_pos ⟨hle, hlt⟩

@[simp] theorem End.consumed?_eq (e : End) : e.consumed? = some e.consumed := by
  have hpos := e.pos
  have hlt := e.lt
  have hsub : sub? e.get 1 = some (e.get - 1) := sub?_eq hpos
  have hadd : add? 64 1 (e.get - 1) = some e.consumed := add?_eq (by omega)
  rw [End.consumed?, hsub, Option.bind_eq_bind, Option.bind_some, hadd]

@[simp] theorem Body.get?_eq (body : Body) : body.get? = some body.get :=
  add?_eq (by have := body.lt; omega)

@[simp] theorem Body.end?_eq (body : Body) : body.end? = some body.end := by
  have hlt := body.lt
  have hlast : add? 32 body.stop 1 = some (body.stop + 1) := add?_eq (by omega)
  have hfinish : add? 32 1 (body.stop + 1) = some body.end.get := add?_eq (by omega)
  simp only [Body.end?, hlast, hfinish, End.ofNat?_eq, Option.bind_eq_bind, Option.bind_some]

@[simp] theorem Body.consumed?_eq (body : Body) : body.consumed? = some body.consumed := by
  rw [Body.consumed?, Body.end?_eq, Option.bind_eq_bind, Option.bind_some, End.consumed?_eq]
  rfl

/-! ## Limits -/

namespace Bound

variable {K : Type} (bound : Bound K)

/-- `Bound::consumed`. -/
def consumed? : Option ℕ := do
  let rest ← sub? bound.value 1
  add? 64 1 rest

/-- `Bound::count`. -/
def count? (len added : ℕ) : Option (Except (Exceeded K) ℕ) := do
  let less ← sub? added 1
  if len > bound.value then
    some (.error (bound.exceeded ((len + less) % 2 ^ 64) (2 ^ 64 ≤ len + less)))
  else
    let low ← add? 64 len less
    if low ≥ bound.value then some (.error (bound.exceeded low false))
    else (cast? 32 len).map .ok

@[simp] theorem consumed?_eq : bound.consumed? = some bound.consumed := by
  have hpos := bound.pos
  have hlt := bound.lt
  have hsub : sub? bound.value 1 = some (bound.value - 1) := sub?_eq hpos
  have hadd : add? 64 1 (bound.value - 1) = some bound.consumed := add?_eq (by omega)
  rw [consumed?, hsub, Option.bind_eq_bind, Option.bind_some, hadd]

/-- The count with an overhead that is a nonzero `u64` sum of `u32` values. -/
theorem count?_eq {len added : ℕ} (hpos : 0 < added) (hadded : added < 2 ^ 33) :
    bound.count? len added = some ((bound.count len added).map Subtype.val) := by
  have hlt := bound.lt
  have hless : sub? added 1 = some (added - 1) := sub?_eq hpos
  rw [count?, hless, Option.bind_eq_bind, Option.bind_some]
  unfold count
  split_ifs with hover hfull
  · rfl
  · have hlow : add? 64 len (added - 1) = some (len + (added - 1)) := add?_eq (by omega)
    simp only [hlow, Option.bind_some]
    exact if_pos hfull
  · have hlow : add? 64 len (added - 1) = some (len + (added - 1)) := add?_eq (by omega)
    have hcast : cast? 32 len = some len := cast?_eq (by omega)
    simp only [hlow, hcast, Option.bind_some]
    exact if_neg hfull

end Bound

/-- `Bound<Frame>::check`. -/
def Bound.check? (bound : Bound Frame) (required : ℕ) : Option (Except (Exceeded Frame) Unit) :=
  if required ≤ bound.value then some (.ok ())
  else do
    let required ← cast? 64 required
    let low ← sub? required 1
    some (.error (bound.exceeded low false))

/-- `Bound<Frame>::next`. -/
def Bound.next? (bound : Bound Frame) (used : ℕ) : Option (Except (Exceeded Frame) End) :=
  if used ≥ bound.value then do
    let low ← cast? 64 used
    some (.error (bound.exceeded low false))
  else do
    let used ← cast? 32 used
    let finish ← add? 32 1 used
    (End.ofNat? finish).map .ok

/-- `Line::stop`. -/
def Line.stop? (line : Line) : Option ℕ :=
  add? 64 line.start.get line.value.length

/-- `Bound<Frame>::line`. -/
def Bound.line? (bound : Bound Frame) (line : Line) :
    Option (Except (Exceeded Frame) (End × Body)) := do
  let stop ← line.stop?
  let last ← add? 64 stop 1
  match ← bound.next? last with
  | .error error => some (.error error)
  | .ok finish =>
    let stop ← cast? 32 stop
    let body ← Body.new? line.start stop
    some (.ok (finish, body))

/-- `Bound<Frame>::body`. -/
def Bound.body? (bound : Bound Frame) (start : End) (length : ℕ) :
    Option (Except (Exceeded Frame) Body) := do
  let added ← add? 64 start.get 2
  match ← bound.count? length added with
  | .error error => some (.error error)
  | .ok length =>
    let stop ← add? 32 start.get length
    (Body.new? start stop).map .ok

/-- `Bound<Value>::next`. -/
def Bound.slot? (bound : Bound Value) (used : ℕ) : Option (Except (Exceeded Value) Slot) := do
  let required ← add? 64 used 1
  if required > bound.value then
    let low ← sub? required 1
    some (.error (bound.exceeded low false))
  else
    let slot ← add? 32 1 used
    (Slot.ofNat? slot).map .ok

/-- `Bound<Value>::array`. -/
def Bound.array? (bound : Bound Value) (used declared : ℕ) :
    Option (Except (Exceeded Value) ℕ) := do
  let added ← add? 64 used 1
  bound.count? declared added

theorem Bound.check?_eq (bound : Bound Frame) {required : ℕ} (h : required < 2 ^ 64) :
    bound.check? required = some (bound.check required) := by
  unfold check? check
  split_ifs with hle
  · rfl
  · have hcast : cast? 64 required = some required := cast?_eq h
    have hlow : sub? required 1 = some (required - 1) := sub?_eq (by have := bound.pos; omega)
    simp only [hcast, hlow, Option.bind_eq_bind, Option.bind_some]

theorem Bound.next?_eq (bound : Bound Frame) {used : ℕ} (h : used < 2 ^ 64) :
    bound.next? used = some (bound.next used) := by
  have hlt := bound.lt
  unfold next? next
  split_ifs with hle
  · have hcast : cast? 64 used = some used := cast?_eq h
    rw [hcast, Option.bind_eq_bind, Option.bind_some]
  · have hcast : cast? 32 used = some used := cast?_eq (by omega)
    have hadd : add? 32 1 used = some (1 + used) := add?_eq (by omega)
    simp only [hcast, hadd, Option.bind_eq_bind, Option.bind_some]
    exact congrArg (Option.map Except.ok) (End.ofNat?_eq ⟨1 + used, by omega, by omega⟩)

theorem Bound.line_eq_error {bound : Bound Frame} {line : Line} {error : Exceeded Frame}
    (h : bound.next (line.stop + 1) = .error error) : bound.line line = .error error := by
  unfold Bound.line
  split
  · next hnext =>
    rw [h] at hnext
    cases hnext
    rfl
  · next hnext =>
    rw [h] at hnext
    cases hnext

/-- A line inside a buffer. -/
theorem Bound.line?_eq (bound : Bound Frame) {line : Line} (h : line.stop + 1 < 2 ^ 64) :
    bound.line? line = some (bound.line line) := by
  have hbound := bound.lt
  have hstop : line.stop? = some line.stop := add?_eq (by unfold Line.stop at h; omega)
  have hlast : add? 64 line.stop 1 = some (line.stop + 1) := add?_eq h
  simp only [Bound.line?, hstop, hlast, bound.next?_eq h, Option.bind_eq_bind, Option.bind_some]
  cases hnext : bound.next (line.stop + 1) with
  | error error => rw [Bound.line_eq_error hnext]
  | ok finish =>
    obtain ⟨hlt, hget⟩ := Bound.next_eq_ok.mp hnext
    have hcast : cast? 32 line.stop = some line.stop := cast?_eq (by omega)
    have hle : line.start.get ≤ line.stop := Nat.le_add_right _ _
    have hline : bound.line line = .ok (finish, ⟨line.start.get, line.stop, line.start.pos, hle,
        by omega⟩) := Bound.line_eq_ok.mpr ⟨hlt, hget, rfl, rfl⟩
    simp only [hline, hcast, Option.bind_some]
    rw [Body.new?_eq hle (by omega), Option.bind_some]

theorem Bound.body?_eq (bound : Bound Frame) (start : End) (length : ℕ) :
    bound.body? start length = some (bound.body start length) := by
  have hstart := start.lt
  have hadded : add? 64 start.get 2 = some (start.get + 2) := add?_eq (by omega)
  rw [Bound.body?, hadded, Option.bind_eq_bind, Option.bind_some,
    bound.count?_eq (by omega) (by omega), Option.bind_eq_bind, Option.bind_some]
  unfold Bound.body
  cases bound.count length (start.get + 2) with
  | error error => rfl
  | ok counted =>
    obtain ⟨length, hlength⟩ := counted
    have hlt := bound.lt
    have hstop : add? 32 start.get length = some (start.get + length) := add?_eq (by omega)
    simp only [Except.map, hstop, Option.bind_some]
    rw [Body.new?_eq (Nat.le_add_right _ _) (by omega), Option.map_some]

theorem Bound.slot?_eq (bound : Bound Value) {used : ℕ} (h : used < 2 ^ 32) :
    bound.slot? used = some (bound.slot used) := by
  have hlt := bound.lt
  have hrequired : add? 64 used 1 = some (used + 1) := add?_eq (by omega)
  have hlow : sub? (used + 1) 1 = some (used + 1 - 1) := sub?_eq (by omega)
  rw [Bound.slot?, hrequired, Option.bind_eq_bind, Option.bind_some]
  unfold Bound.slot
  split_ifs with hfull
  · rw [hlow, Option.bind_some]
  · have hslot : add? 32 1 used = some (1 + used) := add?_eq (by omega)
    rw [hslot, Option.bind_some]
    exact congrArg (Option.map Except.ok) (Slot.ofNat?_eq ⟨1 + used, by omega, by omega⟩)

theorem Bound.array?_eq (bound : Bound Value) {used : ℕ} (h : used < 2 ^ 32) (declared : ℕ) :
    bound.array? used declared = some (bound.array used declared) := by
  have hadded : add? 64 used 1 = some (used + 1) := add?_eq (by omega)
  rw [Bound.array?, hadded, Option.bind_eq_bind, Option.bind_some,
    bound.count?_eq (by omega) (by omega)]
  unfold Bound.array
  cases bound.count declared (used + 1) <;> rfl

/-! ## Lines -/

namespace Line

/-- The part of `Line::find` for the text lines. -/
def text? (tail : List UInt8) (scan : ℕ) : Option (Except Misplaced (Option ℕ)) :=
  match tail.findIdx? breaks with
  | none => some (.ok none)
  | some offset =>
    if tail[offset]? = some lf then do
      let place ← add? 64 scan offset
      some (.error (place, cr, lf))
    else do
      let following ← add? 64 offset 1
      match tail[following]? with
      | none => some (.ok none)
      | some actual =>
        if actual ≠ lf then do
          let place ← add? 64 scan offset
          let place ← add? 64 place 1
          some (.error (place, lf, actual))
        else some (.ok (some offset))

/-- The offset of a line's terminator in `tail`, the bytes from `scan` on. -/
def terminator? (tail : List UInt8) (scan : ℕ) :
    LineKind → Option (Except Misplaced (Option ℕ))
  | .status | .server => text? tail scan
  | .integer | .bulk | .array => some (.ok (crlf tail))

/-- `Line::find`. -/
def find? (bytes : List UInt8) (start : End) (scan : ℕ) (kind : LineKind) :
    Option (Except Misplaced (Option Line)) :=
  let begin := start.get
  let scan := max scan begin
  if bytes.length < scan then some (.ok none)
  else do
    match ← terminator? (bytes.drop scan) scan kind with
    | .error e => some (.error e)
    | .ok none => some (.ok none)
    | .ok (some offset) =>
      let stop ← add? 64 scan offset
      some (.ok ((slice bytes begin stop).map (⟨·, start⟩)))

theorem text?_eq {tail : List UInt8} {scan : ℕ} (h : scan + tail.length < 2 ^ 64) :
    text? tail scan = some (text tail scan) := by
  unfold text? text
  cases hfound : tail.findIdx? breaks with
  | none => rfl
  | some offset =>
    have hlt : offset < tail.length := (List.findIdx?_eq_some_iff_getElem.mp hfound).1
    have hplace : add? 64 scan offset = some (scan + offset) := add?_eq (by omega)
    have hfollowing : add? 64 offset 1 = some (offset + 1) := add?_eq (by omega)
    simp only [hplace, hfollowing, Option.bind_eq_bind, Option.bind_some]
    split_ifs
    · rfl
    · cases hnext : tail[offset + 1]? with
      | none => rfl
      | some actual =>
        have hlt := (List.getElem?_eq_some_iff.mp hnext).1
        have hlast : add? 64 (scan + offset) 1 = some (scan + offset + 1) := add?_eq (by omega)
        simp only [hlast, Option.bind_some]
        split_ifs <;> rfl

theorem terminator?_eq {tail : List UInt8} {scan : ℕ} (h : scan + tail.length < 2 ^ 64)
    (kind : LineKind) : terminator? tail scan kind = some (terminator tail scan kind) := by
  cases kind with
  | status | server => exact text?_eq h
  | integer | bulk | array => rfl

/-- The search in a buffer whose length is a `usize`. -/
theorem find?_eq {bytes : List UInt8} (h : bytes.length < 2 ^ 64) (start : End) (scan : ℕ)
    (kind : LineKind) : find? bytes start scan kind = some (find bytes start scan kind) := by
  unfold find? find
  dsimp only
  split_ifs with hscan
  · rfl
  · have htail : max scan start.get + (bytes.drop (max scan start.get)).length < 2 ^ 64 := by
      rw [List.length_drop]
      omega
    rw [terminator?_eq htail, Option.bind_eq_bind, Option.bind_some]
    cases hfound : terminator (bytes.drop (max scan start.get)) (max scan start.get) kind with
    | error e => rfl
    | ok found =>
      cases found with
      | none => rfl
      | some offset =>
        have hle := terminator_le hfound
        have hstop : add? 64 (max scan start.get) offset = some (max scan start.get + offset) :=
          add?_eq (by omega)
        simp only [hstop, Option.bind_eq_bind, Option.bind_some]

end Line

/-! ## Numbers -/

/-- `Number::offset`. -/
def offset? (body : Body) (relative : ℕ) : Option ℕ := do
  let relative ← cast? 32 relative
  add? 32 body.start relative

/-- The loop of `Number::signed` and `Number::unsigned`. -/
def accumulate? (r : Range) (sign : ℤ) (body : Body) :
    ℕ → ℤ → List UInt8 → Option (Except Number ℤ)
  | _, value, [] => some (.ok value)
  | cursor, value, byte :: rest =>
    let digit := byte - 48
    if digit > 9 then do
      let place ← offset? body cursor
      some (.error (.byte place byte))
    else
      match (r.checked (value * 10)).bind fun value => r.checked (value + sign * digit.toNat) with
      | none => do
        let place ← offset? body cursor
        some (.error (.overflow place))
      | some following => do
        let cursor ← add? 64 cursor 1
        accumulate? r sign body cursor following rest

/-- `Number::signed`. -/
def signed? (bytes : List UInt8) (body : Body) : Option (Except Number ℤ) :=
  match bytes with
  | [] => do
    let place ← offset? body 0
    some (.error (.empty place))
  | head :: rest =>
    if head = 45 ∨ head = 43 then
      if rest = [] then do
        let place ← offset? body 1
        some (.error (.missing place))
      else accumulate? i64 (if head = 45 then -1 else 1) body 1 0 rest
    else accumulate? i64 1 body 0 0 bytes

/-- `Number::unsigned`. -/
def unsigned? (bytes : List UInt8) (body : Body) : Option (Except Number ℤ) :=
  if bytes = [] then do
    let place ← offset? body 0
    some (.error (.empty place))
  else accumulate? u64 1 body 0 0 bytes

/-- `Number::length`. -/
def length? (bytes : List UInt8) (body : Body) (line : LineKind) :
    Option (Except Error Length) := do
  if bytes.head? ≠ some 45 then
    match ← unsigned? bytes body with
    | .ok value => some (.ok (.count value.toNat))
    | .error cause => some (.error (.number line cause))
  else
    match ← signed? bytes body with
    | .error cause => some (.error (.number line cause))
    | .ok value =>
      if value = -1 then some (.ok .nil)
      else if value < -1 then some (.error (.length line value))
      else some (.ok (.count value.toNat))

section Numbers

variable {body : Body} {bytes : List UInt8}

/-- Offsets up to the end of the body. -/
theorem offset?_eq {relative : ℕ} (h : body.start + relative ≤ body.stop) :
    offset? body relative = some (offset body relative) := by
  have hlt := body.lt
  have hcast : cast? 32 relative = some relative := cast?_eq (by omega)
  have hadd : add? 32 body.start relative = some (body.start + relative) := add?_eq (by omega)
  rw [offset?, hcast, Option.bind_eq_bind, Option.bind_some, hadd]
  unfold offset
  rw [Nat.mod_eq_of_lt (show relative < 2 ^ 32 by omega), Nat.mod_eq_of_lt (by omega)]

theorem accumulate?_eq (r : Range) (sign : ℤ) {cursor : ℕ} (value : ℤ)
    (h : body.start + cursor + bytes.length ≤ body.stop) :
    accumulate? r sign body cursor value bytes =
      some (accumulate r sign body cursor value bytes) := by
  induction bytes generalizing cursor value with
  | nil => rfl
  | cons byte rest ih =>
    rw [List.length_cons] at h
    have hlt := body.lt
    have hplace : offset? body cursor = some (offset body cursor) := offset?_eq (by omega)
    have hcursor : add? 64 cursor 1 = some (cursor + 1) := add?_eq (by omega)
    unfold accumulate? accumulate
    dsimp only
    rw [hplace, hcursor]
    split_ifs
    · rfl
    · cases (r.checked (value * 10)).bind fun value =>
        r.checked (value + sign * (byte - 48).toNat) with
      | none => rfl
      | some following => exact ih following (by omega)

theorem signed?_eq (h : body.start + bytes.length ≤ body.stop) :
    signed? bytes body = some (signed bytes body) := by
  unfold signed? signed
  cases bytes with
  | nil =>
    rw [offset?_eq (by simpa using h)]
    rfl
  | cons head rest =>
    have hrest : body.start + 1 + rest.length ≤ body.stop := by
      rw [List.length_cons] at h
      omega
    dsimp only
    split_ifs
    · rw [offset?_eq (by omega)]
      rfl
    · exact accumulate?_eq i64 _ 0 hrest
    · exact accumulate?_eq i64 _ 0 hrest
    · exact accumulate?_eq i64 1 0 (by simpa using h)

theorem unsigned?_eq (h : body.start + bytes.length ≤ body.stop) :
    unsigned? bytes body = some (unsigned bytes body) := by
  unfold unsigned? unsigned
  split_ifs
  · rw [offset?_eq (by omega)]
    rfl
  · exact accumulate?_eq u64 1 0 (by simpa using h)

/-- A length read inside its line. -/
theorem length?_eq (h : body.start + bytes.length ≤ body.stop) (line : LineKind) :
    length? bytes body line = some (length bytes body line) := by
  unfold length? length
  rw [unsigned?_eq h, signed?_eq h]
  split_ifs
  · rw [Option.bind_eq_bind, Option.bind_some]
    cases unsigned bytes body <;> rfl
  · rw [Option.bind_eq_bind, Option.bind_some]
    cases signed bytes body with
    | error cause => rfl
    | ok value =>
      dsimp only
      split_ifs <;> rfl

end Numbers

/-! ## The scanner -/

namespace State

/-- The loop of `State::finish_value`. -/
def finishLeft? : List ℕ+ → Option (List ℕ+)
  | [] => some []
  | left :: parents => do
    let rest ← sub? (left : ℕ) 1
    if h : 0 < rest then some (⟨rest, h⟩ :: parents) else finishLeft? parents

/-- `State::finish_value`. -/
def finishValue? (self : State) (finish : End) : Option (Completion × State) := do
  match ← finishLeft? self.left with
  | [] => some (.root, { self with left := [] })
  | left => some (.nested, { self with left := left, mode := .marker finish })

theorem finishLeft?_eq (left : List ℕ+) : finishLeft? left = some (finishLeft left) := by
  induction left with
  | nil => rfl
  | cons left parents ih =>
    have hsub : sub? (left : ℕ) 1 = some ((left : ℕ) - 1) := sub?_eq left.pos
    rw [finishLeft?, hsub, Option.bind_eq_bind, Option.bind_some, finishLeft]
    split_ifs with h
    · rfl
    · exact ih

theorem finishValue?_eq (self : State) (finish : End) :
    self.finishValue? finish = some (self.finishValue finish) := by
  rw [finishValue?, finishLeft?_eq, Option.bind_eq_bind, Option.bind_some, finishValue]
  cases finishLeft self.left <;> rfl

end State

namespace Call

variable {β τ ε : Type} (c : Call β τ ε)

/-- `State::write`, with the code after a stored push. -/
def write? (self : State) (b : β) (slot : Slot) (value : Kind) (restore : Mode)
    (stored : β → Option (Next β τ ε)) : Option (Next β τ ε) :=
  match c.builder.tryPush b slot value with
  | (.stored, b) => stored b
  | (.blocked, b) => some (.ret .blocked { self with mode := restore } b)
  | (.full, b) => some (.ret .retainCapacity { self with mode := restore } b)

/-- A value was stored that ends at `finish`. -/
def close? (self : State) (b : β) (finish : End) : Option (Next β τ ε) := do
  match ← self.finishValue? finish with
  | (.root, self) =>
    let count ← finish.consumed?
    some (c.complete self b count)
  | (.nested, self) => some (.again self b)

/-- The round in modes `Start` and `Marker`. -/
def scanMarker? (self : State) (b : β) (cursor : ℕ) : Option (Next β τ ε) :=
  match c.bytes[cursor]? with
  | none => some (.ret .pending self b)
  | some marker => do
    match ← c.byteMax.next? cursor with
    | .error error =>
      let amount ← c.byteMax.consumed?
      some (.ret (c.consumed amount (.frameCapacity error)) self b)
    | .ok finish =>
      match ← c.nodeMax.slot? (c.builder.len b) with
      | .error error =>
        let amount ← finish.consumed?
        some (.ret (c.consumed amount (.valueCapacity error)) self b)
      | .ok slot =>
        let place ← sub? finish.get 1
        let self := { self with mode := .marker finish, scan := finish.get }
        match lineKind marker with
        | none =>
          let amount ← finish.consumed?
          some (.ret (c.consumed amount (.invalid (.marker place marker))) self b)
        | some kind => some (.again { self with mode := .line kind ⟨finish, slot⟩ } b)

/-- The part of mode `Line` after an array header declared `count` values. -/
def openArray? (self : State) (b : β) (pending : Pending) (finish : End) (count : ℕ) :
    Option (Next β τ ε) := do
  let line := { self with mode := .line .array pending }
  match ← c.nodeMax.array? (c.builder.len b) count with
  | .error error =>
    let amount ← finish.consumed?
    some (.ret (c.consumed amount (.valueCapacity error)) line b)
  | .ok count =>
    if h : 0 < count then
      if self.left.length < maxDepth then
        c.write? self b pending.slot (.array (.ofNat count)) line.mode fun b =>
          some (.again { self with left := ⟨count, h⟩ :: self.left, mode := .marker finish } b)
      else
        let amount ← finish.consumed?
        some (.ret (c.consumed amount (.invalid (.depth (maxDepth + 1) maxDepth count))) line b)
    else
      c.write? self b pending.slot (.array (.ofNat count)) line.mode fun b => c.close? self b finish

/-- The part of mode `Line` after the line was found. -/
def scanFound? (self : State) (b : β) (kind : LineKind) (pending : Pending)
    (value : List UInt8) (finish : End) (body : Body) : Option (Next β τ ε) := do
  let line := { self with mode := .line kind pending }
  let store (value : Kind) : Option (Next β τ ε) :=
    c.write? self b pending.slot value line.mode fun b => c.close? self b finish
  let invalid (error : Error) : Option (Next β τ ε) := do
    let amount ← finish.consumed?
    some (.ret (c.consumed amount (.invalid error)) line b)
  match kind with
  | .status | .server => store (textValue kind value body)
  | .integer =>
    match ← signed? value body with
    | .error cause => invalid (.number .integer cause)
    | .ok integer => store (.integer (.ofInt integer))
  | .bulk =>
    match ← length? value body .bulk with
    | .error error => invalid error
    | .ok .nil => store .nil
    | .ok (.count length) =>
      match ← c.byteMax.body? finish length with
      | .error error =>
        let amount ← finish.consumed?
        some (.ret (c.consumed amount (.frameCapacity error)) line b)
      | .ok body => some (.again { self with mode := .bulk body pending.slot } b)
  | .array =>
    match ← length? value body .array with
    | .error error => invalid error
    | .ok .nil => store .nil
    | .ok (.count count) => c.openArray? self b pending finish count

/-- The round in mode `Line`. -/
def scanLine? (self : State) (b : β) (kind : LineKind) (pending : Pending) :
    Option (Next β τ ε) := do
  let line := { self with mode := .line kind pending }
  let limited (error : Exceeded Frame) (self : State) : Option (Next β τ ε) := do
    let amount ← c.byteMax.consumed?
    some (.ret (c.consumed amount (.frameCapacity error)) self b)
  match ← Line.find? c.bytes pending.start self.scan kind with
  | .ok none =>
    let self := { line with scan := max (c.bytes.length - 1) pending.start.get }
    match ← c.byteMax.check? c.bytes.length with
    | .ok () => some (.ret .pending self b)
    | .error error => limited error self
  | .error (offset, expected, actual) =>
    match ← c.byteMax.next? offset with
    | .ok finish =>
      let amount ← finish.consumed?
      let place ← sub? finish.get 1
      some (.ret (c.consumed amount (.invalid (.terminator place expected actual))) line b)
    | .error error => limited error line
  | .ok (some found) =>
    match ← c.byteMax.line? found with
    | .error error => limited error line
    | .ok (finish, body) => c.scanFound? self b kind pending found.value finish body

/-- The round in mode `Bulk`. -/
def scanBulk? (self : State) (b : β) (finish : Body) (slot : Slot) : Option (Next β τ ε) := do
  let bulk := { self with mode := .bulk finish slot }
  let stop ← finish.get?
  match slice c.bytes finish.stop stop with
  | some [first, second] =>
    if first ≠ cr then
      let amount ← finish.consumed?
      some (.ret (c.consumed amount (.invalid (.terminator finish.stop cr first))) bulk b)
    else if second ≠ lf then
      let place ← add? 32 finish.stop 1
      let amount ← finish.consumed?
      some (.ret (c.consumed amount (.invalid (.terminator place lf second))) bulk b)
    else
      c.write? self b slot (.bulk (.terminated finish)) bulk.mode fun b => do
        let last ← finish.end?
        c.close? self b last
  | _ => some (.ret .pending bulk b)

/-- One round of the loop of `State::scan`. -/
def step? (self : State) (b : β) : Option (Next β τ ε) :=
  let taken := { self with mode := .start }
  match self.mode with
  | .start => c.scanMarker? self b 0
  | .marker finish => c.scanMarker? self b finish.get
  | .line kind pending => c.scanLine? taken b kind pending
  | .bulk finish slot => c.scanBulk? taken b finish slot

/-- The loop of `State::scan`, at most `fuel` rounds of it. -/
def loop? : ℕ → State → β → Option (Scan τ ε × State × β)
  | 0, _, _ => none
  | fuel + 1, self, b => do
    match ← c.step? self b with
    | .ret scan self b => some (scan, self, b)
    | .again self b => loop? fuel self b

/-- `State::scan`. -/
def scan? (self : State) (b : β) : Option (Scan τ ε × State × β) :=
  c.loop? (c.bytes.length + 1) (c.enter self b).1 (c.enter self b).2

section Exact

variable {c} {self : State} {b : β}

theorem write?_eq {slot : Slot} {value : Kind} {restore : Mode}
    {stored? : β → Option (Next β τ ε)} {stored : β → Next β τ ε}
    (h : ∀ b, stored? b = some (stored b)) :
    c.write? self b slot value restore stored? =
      some (c.write self b slot value restore stored) := by
  unfold write? write
  obtain ⟨push, b⟩ := c.builder.tryPush b slot value
  cases push with
  | stored => exact h b
  | blocked => rfl
  | full => rfl

theorem close?_eq (finish : End) : c.close? self b finish = some (c.close self b finish) := by
  rw [close?, State.finishValue?_eq, Option.bind_eq_bind, Option.bind_some, close]
  obtain ⟨completion, self⟩ := self.finishValue finish
  cases completion with
  | root => simp only [End.consumed?_eq, Option.bind_eq_bind, Option.bind_some]
  | nested => rfl

theorem scanMarker?_eq {cursor : ℕ} (hcursor : cursor < 2 ^ 64) (hlen : c.builder.len b < 2 ^ 32) :
    c.scanMarker? self b cursor = some (c.scanMarker self b cursor) := by
  unfold scanMarker? scanMarker
  cases c.bytes[cursor]? with
  | none => rfl
  | some marker =>
    simp only [c.byteMax.next?_eq hcursor, c.nodeMax.slot?_eq hlen, Bound.consumed?_eq,
      Option.bind_eq_bind, Option.bind_some]
    cases c.byteMax.next cursor with
    | error error => rfl
    | ok finish =>
      have hplace : sub? finish.get 1 = some (finish.get - 1) := sub?_eq finish.pos
      simp only [hplace, End.consumed?_eq, Option.bind_some]
      cases c.nodeMax.slot (c.builder.len b) with
      | error error => rfl
      | ok slot => cases lineKind marker <;> rfl

theorem openArray?_eq {pending : Pending} {finish : End} {count : ℕ}
    (hlen : c.builder.len b < 2 ^ 32) :
    c.openArray? self b pending finish count =
      some (c.openArray self b pending finish count) := by
  unfold openArray? openArray
  simp only [c.nodeMax.array?_eq hlen, End.consumed?_eq, Option.bind_eq_bind, Option.bind_some]
  cases c.nodeMax.array (c.builder.len b) count with
  | error error => rfl
  | ok count =>
    dsimp only
    split_ifs
    · exact write?_eq fun b => rfl
    · rfl
    · exact write?_eq fun b => close?_eq finish

theorem scanFound?_eq {kind : LineKind} {pending : Pending} {value : List UInt8} {finish : End}
    {body : Body} (hvalue : body.start + value.length ≤ body.stop)
    (hlen : c.builder.len b < 2 ^ 32) :
    c.scanFound? self b kind pending value finish body =
      some (c.scanFound self b kind pending value finish body) := by
  have store (value : Kind) :
      c.write? self b pending.slot value (.line kind pending) (fun b => c.close? self b finish) =
        some (c.write self b pending.slot value (.line kind pending) fun b =>
          c.close self b finish) :=
    write?_eq fun b => close?_eq finish
  unfold scanFound? scanFound
  cases kind with
  | status | server => exact store _
  | integer =>
    simp only [signed?_eq hvalue, End.consumed?_eq, Option.bind_eq_bind, Option.bind_some]
    cases signed value body with
    | error cause => rfl
    | ok integer => exact store _
  | bulk =>
    simp only [length?_eq hvalue, End.consumed?_eq, Option.bind_eq_bind, Option.bind_some]
    cases length value body .bulk with
    | error error => rfl
    | ok read =>
      cases read with
      | nil => exact store _
      | count length =>
        simp only [c.byteMax.body?_eq, Option.bind_some]
        cases c.byteMax.body finish length <;> rfl
  | array =>
    simp only [length?_eq hvalue, End.consumed?_eq, Option.bind_eq_bind, Option.bind_some]
    cases length value body .array with
    | error error => rfl
    | ok read =>
      cases read with
      | nil => exact store _
      | count count => exact openArray?_eq hlen

theorem scanLine?_eq {kind : LineKind} {pending : Pending} (hbytes : c.bytes.length < 2 ^ 64)
    (hlen : c.builder.len b < 2 ^ 32) :
    c.scanLine? self b kind pending = some (c.scanLine self b kind pending) := by
  unfold scanLine? scanLine
  simp only [Line.find?_eq hbytes, c.byteMax.check?_eq hbytes, Bound.consumed?_eq,
    Option.bind_eq_bind, Option.bind_some]
  cases hfound : Line.find c.bytes pending.start self.scan kind with
  | error misplaced =>
    obtain ⟨offset, expected, actual⟩ := misplaced
    have hoffset : offset < 2 ^ 64 := by
      have := Line.find_error_lt hfound
      omega
    simp only [c.byteMax.next?_eq hoffset, Option.bind_some]
    cases c.byteMax.next offset with
    | error error => rfl
    | ok finish =>
      have hplace : sub? finish.get 1 = some (finish.get - 1) := sub?_eq finish.pos
      simp only [hplace, End.consumed?_eq, Option.bind_some]
  | ok found =>
    cases found with
    | none =>
      dsimp only
      cases c.byteMax.check c.bytes.length <;> rfl
    | some found =>
      have hstop := (Line.find_eq_some hfound).2.1
      simp only [c.byteMax.line?_eq (show found.stop + 1 < 2 ^ 64 by omega), Option.bind_some]
      cases hline : c.byteMax.line found with
      | error error => rfl
      | ok placed =>
        obtain ⟨finish, body⟩ := placed
        obtain ⟨-, -, hstart, hend⟩ := Bound.line_eq_ok.mp hline
        exact scanFound?_eq (by rw [hstart, hend]; exact le_rfl) hlen

theorem scanBulk?_eq {finish : Body} {slot : Slot} :
    c.scanBulk? self b finish slot = some (c.scanBulk self b finish slot) := by
  have hplace : add? 32 finish.stop 1 = some (finish.stop + 1) :=
    add?_eq (by have := finish.lt; omega)
  have store (restore : Mode) :
      c.write? self b slot (.bulk (.terminated finish)) restore
          (fun b => finish.end?.bind fun last => c.close? self b last) =
        some (c.write self b slot (.bulk (.terminated finish)) restore fun b =>
          c.close self b finish.end) :=
    write?_eq fun b => by rw [Body.end?_eq, Option.bind_some, close?_eq]
  unfold scanBulk? scanBulk
  simp only [hplace, Body.get?_eq, Body.consumed?_eq, Option.bind_eq_bind, Option.bind_some]
  rcases slice c.bytes finish.stop finish.get with
    _ | ⟨_ | ⟨first, _ | ⟨second, _ | ⟨third, rest⟩⟩⟩⟩
  · rfl
  · rfl
  · rfl
  · by_cases hfirst : first = cr
    · by_cases hsecond : second = lf
      · simp only [hfirst, hsecond, ne_eq, not_true, or_self, if_false]
        exact store _
      · simp only [hfirst, hsecond, ne_eq, not_true, not_false_eq_true, or_true, if_true, if_false]
    · simp only [hfirst, ne_eq, not_false_eq_true, true_or, if_true]
  · rfl

theorem step?_eq (hbytes : c.bytes.length < 2 ^ 64) (hlen : c.builder.len b < 2 ^ 32) :
    c.step? self b = some (c.step self b) := by
  unfold step? step
  dsimp only
  cases self.mode with
  | start => exact scanMarker?_eq (by omega) hlen
  | marker finish => exact scanMarker?_eq (by have := finish.lt; omega) hlen
  | line kind pending => exact scanLine?_eq hbytes hlen
  | bulk finish slot => exact scanBulk?_eq

end Exact

end Call

/-- The recorded length of a lawful builder is the number of a slot. -/
theorem Builder.Lawful.keeps {β τ : Type} {B : Builder β τ} (L : B.Lawful) (limit : ℕ) :
    B.Keeps limit (fun _ => True) (B.len · < 2 ^ 32) (B.len · < 2 ^ 32) where
  answer _ _ _ := trivial
  push {b slot} value hb _ := by
    by_cases h : (B.tryPush b slot value).1 = .stored
    · rw [L.len_eq, L.stored b slot value h]
      exact slot.lt
    · rw [L.len_eq, L.refused b slot value h, ← L.len_eq]
      exact hb
  refused b slot value h := by rw [L.len_eq, L.refused b slot value h, ← L.len_eq]
  weaken h := h
  finish {b slot} value _ _ _ := by
    rw [L.len_eq, L.finish_draft]
    exact Nat.two_pow_pos 32

namespace Call

variable {β τ ε : Type} {c : Call β τ ε} {self : State} {b : β}

theorem loop?_eq (L : c.builder.Lawful) (hbytes : c.bytes.length < 2 ^ 64) :
    ∀ {fuel : ℕ} {self : State} {b : β} {r : Scan τ ε × State × β},
      self.Sized c.builder c.nodeMax.value b → c.builder.len b < 2 ^ 32 →
        c.loop fuel self b = some r → c.loop? fuel self b = some r
  | 0, _, _, _, _, _, h => by simp [loop] at h
  | fuel + 1, self, b, r, hself, hlen, h => by
    have hkept := kept_step (L.keeps c.nodeMax.value) hlen hself
    rw [loop?, step?_eq hbytes hlen, Option.bind_eq_bind, Option.bind_some]
    rw [loop] at h
    cases hstep : c.step self b with
    | ret scan self' b' =>
      rw [hstep] at h
      exact h
    | again self' b' =>
      rw [hstep] at h hkept
      exact loop?_eq L hbytes hkept.1 hkept.2 h

/-- A call never leaves the types of its positions, lengths and limits. -/
theorem scan?_eq (L : c.builder.Lawful) (hbytes : c.bytes.length < 2 ^ 64)
    (hself : self.Sized c.builder c.nodeMax.value b) (hlen : c.builder.len b < 2 ^ 32) :
    c.scan? self b = some (c.scan self b) := by
  have hloop : c.loop (c.bytes.length + 1) (c.enter self b).1 (c.enter self b).2 =
      some (c.scan self b) := (Option.some_get _).symm
  refine loop?_eq L hbytes ?_ ?_ hloop
  · unfold enter
    split_ifs
    · trivial
    · exact hself
  · unfold enter
    split_ifs
    · rw [L.len_eq, L.reset]
      exact Nat.two_pow_pos 32
    · exact hlen

end Call

end Cartel.Redis.Parser
