import Cartel.Parser.Line
import Cartel.Parser.Number
import Cartel.Parser.Tape

/-!
# The resumable scanner

`State::scan` reads one RESP frame from the front of a buffer. Its state survives the
call : the mode (`Mode`), the offset the search for a line's end resumes at (`scan`),
and the number of values still missing from each open array (`left`, innermost first).
A call ends with an outcome (`Scan`); after `pending`, `blocked` and `retainCapacity`
the next call goes on where this one stopped.

One round of the loop is `Call.step`. Every round that does not end the call moves the
position of the mode forward (`Call.cursor_of_again`), so `bytes.length + 1` rounds are
enough (`Call.loop_isSome`) and `Call.scan` is total.

The receive buffer belongs to the runtime : `Source` stands for its checked consumption.
-/

namespace Cartel.Redis.Parser

/-- `state::Pending`. -/
structure Pending where
  start : End
  slot : Slot

/-- `state::Mode`. -/
inductive Mode where
  | start
  | marker (finish : End)
  | line (kind : LineKind) (pending : Pending)
  | bulk (finish : Body) (slot : Slot)

/-- `state::State`. The head of `left` is the innermost open array. -/
structure State where
  scan : ℕ
  left : List ℕ+
  mode : Mode

/-- `state::Completion`. -/
inductive Completion where
  | root
  | nested

/-- `frame::Parsed` : the frame's bytes and its tape. -/
structure Parsed (τ : Type) where
  frame : List UInt8
  nodes : τ

/-- `parser::Scan` : the outcome of a call. -/
inductive Scan (τ ε : Type) where
  | pending
  | blocked
  | complete (parsed : Parsed τ) (consumed : ℕ)
  | invalid (error : Error) (consumed : ℕ)
  | frameCapacity (error : Exceeded Frame) (consumed : ℕ)
  | valueCapacity (error : Exceeded Value) (consumed : ℕ)
  | retainCapacity
  | source (cause : ε)

/-- The checked consumption of the receive buffer : `try_consumed` and `try_prefix`. -/
structure Source (ε : Type) where
  tryConsumed : List UInt8 → ℕ → Except ε ℕ
  tryPrefix : List UInt8 → ℕ → Except ε (List UInt8 × ℕ)

/-- Consumption that accepts every amount inside the buffer. -/
structure Source.Exact {ε : Type} (source : Source ε) (bytes : List UInt8) : Prop where
  consumed : ∀ amount ≤ bytes.length, source.tryConsumed bytes amount = .ok amount
  taken : ∀ amount ≤ bytes.length,
    source.tryPrefix bytes amount = .ok (bytes.take amount, amount)

/-- Consumption that rejects exactly the amounts past the end of the buffer. -/
def Source.exact : Source Unit where
  tryConsumed bytes amount := if amount ≤ bytes.length then .ok amount else .error ()
  tryPrefix bytes amount :=
    if amount ≤ bytes.length then .ok (bytes.take amount, amount) else .error ()

theorem Source.exact_spec (bytes : List UInt8) : Source.exact.Exact bytes :=
  ⟨fun _ h => if_pos h, fun _ h => if_pos h⟩

/-- The arguments of one call of `State::scan`. -/
structure Call (β τ ε : Type) where
  builder : Builder β τ
  source : Source ε
  byteMax : Bound Frame
  nodeMax : Bound Value
  bytes : List UInt8

/-- How a round of the loop ends : with an outcome, or with another round. -/
inductive Next (β τ ε : Type) where
  | ret (scan : Scan τ ε) (self : State) (b : β)
  | again (self : State) (b : β)

/-- `Mode::cursor`. -/
def Mode.cursor : Mode → ℕ
  | .start => 0
  | .marker finish => finish.get
  | .line _ pending => pending.start.get
  | .bulk finish _ => finish.start

namespace State

/-- `State::new`, and the state `State::reset` leaves. -/
def new : State :=
  ⟨0, [], .start⟩

/-- Count one value against the innermost open array; a full array counts as a value
of its own parent. -/
def finishLeft : List ℕ+ → List ℕ+
  | [] => []
  | left :: parents =>
    if h : 0 < (left : ℕ) - 1 then ⟨left - 1, h⟩ :: parents else finishLeft parents

/-- `State::finish_value`. -/
def finishValue (self : State) (finish : End) : Completion × State :=
  match finishLeft self.left with
  | [] => (.root, { self with left := [] })
  | left => (.nested, { self with left := left, mode := .marker finish })

end State

/-- The markers of the five line kinds. -/
def lineKind (marker : UInt8) : Option LineKind :=
  if marker = 43 then some .status
  else if marker = 45 then some .server
  else if marker = 58 then some .integer
  else if marker = 36 then some .bulk
  else if marker = 42 then some .array
  else none

namespace Call

variable {β τ ε : Type} (c : Call β τ ε)

/-- `State::consumed`. -/
def consumed (amount : ℕ) (build : ℕ → Scan τ ε) : Scan τ ε :=
  match c.source.tryConsumed c.bytes amount with
  | .ok consumed => build consumed
  | .error cause => .source cause

/-- `State::write`, with the code after a stored push. -/
def write (self : State) (b : β) (slot : Slot) (value : Kind) (restore : Mode)
    (stored : β → Next β τ ε) : Next β τ ε :=
  match c.builder.tryPush b slot value with
  | (.stored, b) => stored b
  | (.blocked, b) => .ret .blocked { self with mode := restore } b
  | (.full, b) => .ret .retainCapacity { self with mode := restore } b

/-- `state::complete`. -/
def complete (self : State) (b : β) (count : ℕ) : Next β τ ε :=
  match c.source.tryPrefix c.bytes count with
  | .error cause => .ret (.source cause) self b
  | .ok (frame, consumed) =>
    .ret (.complete ⟨frame, (c.builder.finish b).1⟩ consumed) .new (c.builder.finish b).2

/-- A value was stored that ends at `finish`. -/
def close (self : State) (b : β) (finish : End) : Next β τ ε :=
  match self.finishValue finish with
  | (.root, self) => c.complete self b finish.consumed
  | (.nested, self) => .again self b

/-- The round in modes `Start` and `Marker` : read the marker at `cursor`. -/
def scanMarker (self : State) (b : β) (cursor : ℕ) : Next β τ ε :=
  match c.bytes[cursor]? with
  | none => .ret .pending self b
  | some marker =>
    match c.byteMax.next cursor with
    | .error error => .ret (c.consumed c.byteMax.consumed (.frameCapacity error)) self b
    | .ok finish =>
      match c.nodeMax.slot (c.builder.len b) with
      | .error error => .ret (c.consumed finish.consumed (.valueCapacity error)) self b
      | .ok slot =>
        let self := { self with mode := .marker finish, scan := finish.get }
        match lineKind marker with
        | none =>
          .ret (c.consumed finish.consumed (.invalid (.marker (finish.get - 1) marker))) self b
        | some kind => .again { self with mode := .line kind ⟨finish, slot⟩ } b

/-- The value of a complete `+` or `-` line. -/
def textValue (kind : LineKind) (value : List UInt8) (body : Body) : Kind :=
  match kind with
  | .status => if value = [79, 75] then .ok else .status (.terminated body)
  | _ => .error (.terminated body)

/-- The part of mode `Line` after an array header declared `count` values. -/
def openArray (self : State) (b : β) (pending : Pending) (finish : End) (count : ℕ) :
    Next β τ ε :=
  let line := { self with mode := .line .array pending }
  match c.nodeMax.array (c.builder.len b) count with
  | .error error => .ret (c.consumed finish.consumed (.valueCapacity error)) line b
  | .ok count =>
    if h : 0 < count then
      if self.left.length < maxDepth then
        c.write self b pending.slot (.array (.ofNat count)) line.mode fun b =>
          .again { self with left := ⟨count, h⟩ :: self.left, mode := .marker finish } b
      else
        .ret (c.consumed finish.consumed (.invalid (.depth (maxDepth + 1) maxDepth count))) line b
    else
      c.write self b pending.slot (.array (.ofNat count)) line.mode fun b => c.close self b finish

/-- The part of mode `Line` after the line was found : it ends at `finish`. `self` has
mode `Start`, as the loop takes the mode out of the state. -/
def scanFound (self : State) (b : β) (kind : LineKind) (pending : Pending)
    (value : List UInt8) (finish : End) (body : Body) : Next β τ ε :=
  let line := { self with mode := .line kind pending }
  let store (value : Kind) : Next β τ ε :=
    c.write self b pending.slot value line.mode fun b => c.close self b finish
  match kind with
  | .status | .server => store (textValue kind value body)
  | .integer =>
    match signed value body with
    | .error cause =>
      .ret (c.consumed finish.consumed (.invalid (.number .integer cause))) line b
    | .ok integer => store (.integer (.ofInt integer))
  | .bulk =>
    match length value body .bulk with
    | .error error => .ret (c.consumed finish.consumed (.invalid error)) line b
    | .ok .nil => store .nil
    | .ok (.count length) =>
      match c.byteMax.body finish length with
      | .error error => .ret (c.consumed finish.consumed (.frameCapacity error)) line b
      | .ok body => .again { self with mode := .bulk body pending.slot } b
  | .array =>
    match length value body .array with
    | .error error => .ret (c.consumed finish.consumed (.invalid error)) line b
    | .ok .nil => store .nil
    | .ok (.count count) => c.openArray self b pending finish count

/-- The round in mode `Line`. -/
def scanLine (self : State) (b : β) (kind : LineKind) (pending : Pending) : Next β τ ε :=
  let line := { self with mode := .line kind pending }
  match Line.find c.bytes pending.start self.scan kind with
  | .ok none =>
    let self := { line with scan := max (c.bytes.length - 1) pending.start.get }
    match c.byteMax.check c.bytes.length with
    | .ok () => .ret .pending self b
    | .error error => .ret (c.consumed c.byteMax.consumed (.frameCapacity error)) self b
  | .error (offset, expected, actual) =>
    match c.byteMax.next offset with
    | .ok finish =>
      .ret (c.consumed finish.consumed
        (.invalid (.terminator (finish.get - 1) expected actual))) line b
    | .error error => .ret (c.consumed c.byteMax.consumed (.frameCapacity error)) line b
  | .ok (some found) =>
    match c.byteMax.line found with
    | .error error => .ret (c.consumed c.byteMax.consumed (.frameCapacity error)) line b
    | .ok (finish, body) => c.scanFound self b kind pending found.value finish body

/-- The round in mode `Bulk`. -/
def scanBulk (self : State) (b : β) (finish : Body) (slot : Slot) : Next β τ ε :=
  let bulk := { self with mode := .bulk finish slot }
  match slice c.bytes finish.stop finish.get with
  | some [first, second] =>
    if first ≠ cr ∨ second ≠ lf then
      let error : Error :=
        if first ≠ cr then .terminator finish.stop cr first
        else .terminator (finish.stop + 1) lf second
      .ret (c.consumed finish.consumed (.invalid error)) bulk b
    else
      c.write self b slot (.bulk (.terminated finish)) bulk.mode fun b =>
        c.close self b finish.end
  | _ => .ret .pending bulk b

/-- One round of the loop of `State::scan`. -/
def step (self : State) (b : β) : Next β τ ε :=
  let taken := { self with mode := .start }
  match self.mode with
  | .start => c.scanMarker self b 0
  | .marker finish => c.scanMarker self b finish.get
  | .line kind pending => c.scanLine taken b kind pending
  | .bulk finish slot => c.scanBulk taken b finish slot

/-- The loop of `State::scan`, at most `fuel` rounds of it. -/
def loop : ℕ → State → β → Option (Scan τ ε × State × β)
  | 0, _, _ => none
  | fuel + 1, self, b =>
    match c.step self b with
    | .ret scan self b => some (scan, self, b)
    | .again self b => loop fuel self b

/-- The reset at the entry of `State::scan`, when the buffer is shorter than before. -/
def enter (self : State) (b : β) : State × β :=
  if self.mode.cursor > c.bytes.length ∨ self.scan > c.bytes.length then
    (.new, c.builder.reset b)
  else (self, b)

/-! ## Every round moves forward -/

section Progress

variable {c} {self self' : State} {b b' : β}

theorem scanMarker_again {cursor : ℕ} (h : c.scanMarker self b cursor = .again self' b') :
    cursor < self'.mode.cursor ∧ self'.mode.cursor ≤ c.bytes.length := by
  unfold scanMarker at h
  split at h
  · simp at h
  · next marker hm =>
    have hlt := (List.getElem?_eq_some_iff.mp hm).1
    split at h
    · simp at h
    · next finish hf =>
      obtain ⟨-, hget⟩ := Bound.next_eq_ok.mp hf
      split at h
      · simp at h
      · dsimp only at h
        split at h
        · simp at h
        · simp only [Next.again.injEq] at h
          obtain ⟨rfl, -⟩ := h
          simp only [Mode.cursor]
          omega

theorem write_again {slot : Slot} {value : Kind} {restore : Mode} {stored : β → Next β τ ε}
    (h : c.write self b slot value restore stored = .again self' b') :
    ∃ b₁, c.builder.tryPush b slot value = (.stored, b₁) ∧ stored b₁ = .again self' b' := by
  unfold write at h
  split at h
  · exact ⟨_, by assumption, h⟩
  · simp at h
  · simp at h

theorem close_again {finish : End} (h : c.close self b finish = .again self' b') :
    b' = b ∧ self'.mode = .marker finish ∧ self'.left = State.finishLeft self.left ∧
      self'.left ≠ [] := by
  unfold close at h
  split at h
  · next h' =>
    unfold complete at h
    split at h <;> simp at h
  · next self₁ h' =>
    simp only [Next.again.injEq] at h
    obtain ⟨rfl, rfl⟩ := h
    unfold State.finishValue at h'
    cases hl : State.finishLeft self.left with
    | nil => simp [hl] at h'
    | cons left parents =>
      simp only [hl, Prod.mk.injEq, true_and] at h'
      subst h'
      exact ⟨rfl, rfl, rfl, List.cons_ne_nil _ _⟩

theorem openArray_again {pending : Pending} {finish : End} {count : ℕ}
    (h : c.openArray self b pending finish count = .again self' b') :
    self'.mode = .marker finish := by
  unfold openArray at h
  dsimp only at h
  split at h
  · simp at h
  · split_ifs at h
    · obtain ⟨b₁, -, h⟩ := write_again h
      simp only [Next.again.injEq] at h
      rw [← h.1]
    · obtain ⟨b₁, -, h⟩ := write_again h
      exact (close_again h).2.1

theorem scanFound_again {kind : LineKind} {pending : Pending} {value : List UInt8}
    {finish : End} {body : Body}
    (h : c.scanFound self b kind pending value finish body = .again self' b') :
    self'.mode.cursor = finish.get := by
  have store {value : Kind} {restore : Mode}
      (h : c.write self b pending.slot value restore (fun b => c.close self b finish) =
        .again self' b') : self'.mode.cursor = finish.get := by
    obtain ⟨b₁, -, h⟩ := write_again h
    rw [(close_again h).2.1]
    rfl
  unfold scanFound at h
  dsimp only at h
  split at h
  · exact store h
  · exact store h
  · split at h
    · simp at h
    · exact store h
  · split at h
    · simp at h
    · exact store h
    · split at h
      · simp at h
      · next hb =>
        simp only [Next.again.injEq] at h
        rw [← h.1]
        exact (Bound.body_eq_ok.mp hb).2.1
  · split at h
    · simp at h
    · exact store h
    · rw [openArray_again h]
      rfl

theorem scanLine_again {kind : LineKind} {pending : Pending}
    (h : c.scanLine self b kind pending = .again self' b') :
    pending.start.get < self'.mode.cursor ∧ self'.mode.cursor ≤ c.bytes.length := by
  unfold scanLine at h
  dsimp only at h
  split at h
  · split at h <;> simp at h
  · split at h <;> simp at h
  · next found hfound =>
    obtain ⟨hstart, hstop, -⟩ := Line.find_eq_some hfound
    split at h
    · simp at h
    · next finish body hline =>
      have hget := (Bound.line_eq_ok.mp hline).2.1
      have hle : pending.start.get ≤ found.stop := by
        rw [← hstart]
        exact Nat.le_add_right _ _
      rw [scanFound_again h]
      omega

theorem scanBulk_again {finish : Body} {slot : Slot}
    (h : c.scanBulk self b finish slot = .again self' b') :
    finish.start < self'.mode.cursor ∧ self'.mode.cursor ≤ c.bytes.length := by
  unfold scanBulk at h
  dsimp only at h
  split at h
  · next first second hs =>
    split_ifs at h
    obtain ⟨b₁, -, h⟩ := write_again h
    have hmode := (close_again h).2.1
    have hle := finish.le
    obtain ⟨-, hlen, -⟩ := slice_eq_some.mp hs
    rw [hmode]
    simp only [Mode.cursor, Body.get_end]
    unfold Body.get at hlen ⊢
    omega
  · simp at h

/-- A round that goes on leaves the mode further in the buffer, and inside it. -/
theorem cursor_of_again (h : c.step self b = .again self' b') :
    self.mode.cursor < self'.mode.cursor ∧ self'.mode.cursor ≤ c.bytes.length := by
  unfold step at h
  dsimp only at h
  split at h
  · next hm =>
    rw [hm]
    exact scanMarker_again h
  · next hm =>
    rw [hm]
    exact scanMarker_again h
  · next hm =>
    rw [hm]
    exact scanLine_again h
  · next hm =>
    rw [hm]
    exact scanBulk_again h

end Progress

theorem loop_isSome_of_lt : ∀ (fuel : ℕ) (self : State) (b : β),
    c.bytes.length < fuel + self.mode.cursor → self.mode.cursor ≤ c.bytes.length →
      (c.loop fuel self b).isSome
  | 0, self, b, hlt, hle => by omega
  | fuel + 1, self, b, hlt, hle => by
    rw [loop]
    cases hs : c.step self b with
    | ret => rfl
    | again self' b' =>
      have := cursor_of_again hs
      exact loop_isSome_of_lt fuel self' b' (by omega) this.2

theorem enter_cursor_le (self : State) (b : β) :
    (c.enter self b).1.mode.cursor ≤ c.bytes.length := by
  unfold enter
  split_ifs with h
  · exact Nat.zero_le _
  · exact Nat.le_of_not_lt fun hlt => h (Or.inl hlt)

/-- `bytes.length + 1` rounds end every call. -/
theorem loop_isSome (self : State) (b : β) :
    (c.loop (c.bytes.length + 1) (c.enter self b).1 (c.enter self b).2).isSome :=
  c.loop_isSome_of_lt _ _ _ (by omega) (c.enter_cursor_le self b)

/-- `State::scan` : the outcome, and the parser and builder it leaves. -/
def scan (self : State) (b : β) : Scan τ ε × State × β :=
  (c.loop (c.bytes.length + 1) (c.enter self b).1 (c.enter self b).2).get (c.loop_isSome self b)

/-! ## Runs of rounds -/

/-- The rounds from `self` end with the result `r`. -/
inductive Runs : State → β → Scan τ ε × State × β → Prop
  | ret {self self' : State} {b b' : β} {scan : Scan τ ε} :
      c.step self b = .ret scan self' b' → Runs self b (scan, self', b')
  | again {self self' : State} {b b' : β} {r : Scan τ ε × State × β} :
      c.step self b = .again self' b' → Runs self' b' r → Runs self b r

/-- The rounds that follow `next` end with the result `r`. -/
def Ends : Next β τ ε → Scan τ ε × State × β → Prop
  | .ret scan self b, r => r = (scan, self, b)
  | .again self b, r => c.Runs self b r

variable {c} in
theorem runs_iff {self : State} {b : β} {r : Scan τ ε × State × β} :
    c.Runs self b r ↔ c.Ends (c.step self b) r := by
  constructor
  · intro h
    cases h with
    | ret hs =>
      rw [hs]
      rfl
    | again hs hr =>
      rw [hs]
      exact hr
  · intro h
    cases hs : c.step self b with
    | ret scan self' b' =>
      rw [hs] at h
      obtain rfl : r = (scan, self', b') := h
      exact .ret hs
    | again self' b' =>
      rw [hs] at h
      exact .again hs h

theorem runs_of_loop : ∀ {fuel : ℕ} {self : State} {b : β} {r : Scan τ ε × State × β},
    c.loop fuel self b = some r → c.Runs self b r
  | 0, self, b, r, h => by simp [loop] at h
  | fuel + 1, self, b, r, h => by
    rw [loop] at h
    cases hs : c.step self b with
    | ret scan self' b' =>
      simp only [hs, Option.some.injEq] at h
      exact h ▸ .ret hs
    | again self' b' =>
      simp only [hs] at h
      exact .again hs (runs_of_loop h)

/-- A call runs to the result of `scan`. -/
theorem runs_scan (self : State) (b : β) :
    c.Runs (c.enter self b).1 (c.enter self b).2 (c.scan self b) :=
  c.runs_of_loop (Option.some_get _).symm

theorem Runs.unique {c : Call β τ ε} {self : State} {b : β} {r r' : Scan τ ε × State × β}
    (h : c.Runs self b r) (h' : c.Runs self b r') : r = r' := by
  induction h with
  | ret hs =>
    cases h' with
    | ret hs' =>
      rw [hs] at hs'
      cases hs'
      rfl
    | again hs' => simp [hs] at hs'
  | again hs _ ih =>
    cases h' with
    | ret hs' => simp [hs] at hs'
    | again hs' hr' =>
      rw [hs] at hs'
      cases hs'
      exact ih hr'

/-- The result of `scan` is the result of any run of its rounds. -/
theorem scan_eq_of_runs {self : State} {b : β} {r : Scan τ ε × State × β}
    (h : c.Runs (c.enter self b).1 (c.enter self b).2 r) : c.scan self b = r :=
  (c.runs_scan self b).unique h

/-- A parser whose positions are inside the buffer enters the loop as it is. -/
theorem enter_of_le {self : State} {b : β} (hm : self.mode.cursor ≤ c.bytes.length)
    (hs : self.scan ≤ c.bytes.length) : c.enter self b = (self, b) := by
  unfold enter
  rw [if_neg (by omega)]

end Call

end Cartel.Redis.Parser
