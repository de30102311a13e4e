import Cartel.Parser.Grammar
import Cartel.Parser.Resume

/-!
# The scanner accepts the grammar

One call of a fresh parser, with storage that never refuses, completes on exactly the
buffers that start with one value (`Reply.Encodes`) inside the limits. Both directions
go through `Header` : the two rounds that read a header line from a marker position.

Completeness is an induction on the value (`runs_value`, `runs_values`). The calls that
read an encoded value end as the call that goes on after it ends (`Closes`).

Soundness is an induction on the bytes left (`runs_sound`). A call that completes from a
marker position has read a value there, and after it the values owed to the open arrays
(`Owed`); what a closed value leaves owed is `owed_finishLeft`.
-/

namespace Cartel.Redis.Parser

variable {β τ ε : Type}

/-! ## Header lines -/

/-- The parser reads a marker at `p`. -/
def State.AtMarker (state : State) (p : ℕ) : Prop :=
  match state.mode with
  | .start => p = 0
  | .marker finish => finish.get = p
  | _ => False

/-- The parts the line of `text` with its marker at `p` is read into, in a parser that has
`left` open and stored `used` values. -/
structure Header (left : List ℕ+) (used p : ℕ) (text : List UInt8) (state : State)
    (pending : Pending) (finish : End) (body : Body) : Prop where
  left : state.left = left
  slot : pending.slot.get = used + 1
  start : body.start = p + 1
  stop : body.stop = p + 1 + text.length
  finish : finish.get = p + (text.length + 3)

/-- The outcome of a completed frame. -/
def Scan.Completed : Scan τ ε → Prop
  | .complete _ _ => True
  | _ => False

namespace Call

variable {c : Call β τ ε} {self : State} {b : β} {r : Scan τ ε × State × β} {p : ℕ}

theorem step_of_atMarker (h : self.AtMarker p) : c.step self b = c.scanMarker self b p := by
  unfold State.AtMarker at h
  unfold step
  dsimp only
  split at h
  · next hm =>
    rw [hm, h]
  · next hm =>
    rw [hm, ← h]
  · exact h.elim

/-- The rounds from a marker to the end of its line. -/
theorem runs_header {marker : UInt8} (kind : LineKind) {text post : List UInt8}
    (hself : self.AtMarker p) (hkind : lineKind marker = some kind) (hplain : Plain text)
    (hdrop : c.bytes.drop p = Reply.line marker text ++ post)
    (hF : p + (text.length + 3) ≤ c.byteMax.value) (hV : c.builder.len b < c.nodeMax.value) :
    ∃ state pending finish body,
      Header self.left (c.builder.len b) p text state pending finish body ∧
      ∀ r, c.Runs self b r ↔ c.Ends (c.scanFound state b kind pending text finish body) r := by
  have hlen := congrArg List.length hdrop
  simp only [Reply.line, List.length_drop, List.length_append, List.length_cons,
    List.length_nil] at hlen
  have hF' := c.byteMax.lt
  have hV' := c.nodeMax.lt
  have hmarker : c.bytes[p]? = some marker := by
    rw [← List.head?_drop, hdrop]
    rfl
  have htail : c.bytes.drop (p + 1) = text ++ cr :: lf :: post := by
    rw [← List.drop_drop, hdrop]
    simp [Reply.line]
  let start : End := ⟨p + 1, by omega, by omega⟩
  let slot : Slot := ⟨c.builder.len b + 1, by omega, by omega⟩
  let finish : End := ⟨p + (text.length + 3), by omega, by omega⟩
  let body : Body := ⟨p + 1, p + 1 + text.length, by omega, by omega, by omega⟩
  have hstart : start.get = p + 1 := rfl
  have hfinish : finish.get = p + (text.length + 3) := rfl
  have hnext : c.byteMax.next p = .ok start := Bound.next_eq_ok.mpr ⟨by omega, rfl⟩
  have hslot : c.nodeMax.slot (c.builder.len b) = .ok slot := Bound.slot_eq_ok.mpr ⟨hV, rfl⟩
  have hfind : Line.find c.bytes start (p + 1) kind = .ok (some ⟨text, start⟩) :=
    Line.find_of_plain le_rfl (by omega) hplain htail
  have hstop : Line.stop ⟨text, start⟩ = p + 1 + text.length := rfl
  have hline : c.byteMax.line ⟨text, start⟩ = .ok (finish, body) :=
    Bound.line_eq_ok.mpr ⟨by omega, by omega, rfl, rfl⟩
  refine ⟨⟨p + 1, self.left, .start⟩, ⟨start, slot⟩, finish, body, ⟨rfl, rfl, rfl, rfl, rfl⟩,
    fun r => ?_⟩
  have hfirst : c.step self b =
      .again ⟨p + 1, self.left, .line kind ⟨start, slot⟩⟩ b := by
    rw [step_of_atMarker hself]
    unfold scanMarker
    simp only [hmarker, hnext, hslot, hkind]
    rfl
  have hsecond : c.step ⟨p + 1, self.left, .line kind ⟨start, slot⟩⟩ b =
      c.scanFound ⟨p + 1, self.left, .start⟩ b kind ⟨start, slot⟩ text finish body := by
    unfold step scanLine
    simp only [hfind, hline]
  rw [runs_iff, hfirst, ← hsecond]
  exact runs_iff

theorem not_completed_consumed {amount : ℕ} {build : ℕ → Scan τ ε}
    (hb : ∀ n, ¬(build n).Completed) : ¬(c.consumed amount build).Completed := by
  unfold consumed
  split
  · exact hb _
  · exact id

/-- A rejected input does not complete. -/
theorem not_ends_consumed {amount : ℕ} {build : ℕ → Scan τ ε} (hr : r.1.Completed)
    (hb : ∀ n, ¬(build n).Completed) : ¬c.Ends (.ret (c.consumed amount build) self b) r := by
  rintro rfl
  exact not_completed_consumed hb hr

/-- A call that completes from a marker position reads a header line there. -/
theorem header_of_runs (hself : self.AtMarker p) (hr : r.1.Completed) (h : c.Runs self b r) :
    ∃ marker kind text post state pending finish body, lineKind marker = some kind ∧
      (kind = .status ∨ kind = .server → Plain text) ∧
      c.bytes.drop p = Reply.line marker text ++ post ∧
      p + (text.length + 3) ≤ c.byteMax.value ∧ c.builder.len b < c.nodeMax.value ∧
      Header self.left (c.builder.len b) p text state pending finish body ∧
      c.Ends (c.scanFound state b kind pending text finish body) r := by
  rw [runs_iff, step_of_atMarker hself] at h
  unfold scanMarker at h
  cases hm : c.bytes[p]? with
  | none =>
    simp only [hm] at h
    rw [h] at hr
    exact hr.elim
  | some marker =>
    simp only [hm] at h
    cases hnext : c.byteMax.next p with
    | error error =>
      simp only [hnext] at h
      exact (not_ends_consumed hr (fun _ => id) h).elim
    | ok start =>
      obtain ⟨-, hstart⟩ := Bound.next_eq_ok.mp hnext
      simp only [hnext] at h
      cases hslot : c.nodeMax.slot (c.builder.len b) with
      | error error =>
        simp only [hslot] at h
        exact (not_ends_consumed hr (fun _ => id) h).elim
      | ok slot =>
        obtain ⟨hV, hslot'⟩ := Bound.slot_eq_ok.mp hslot
        simp only [hslot] at h
        cases hkind : lineKind marker with
        | none =>
          simp only [hkind] at h
          exact (not_ends_consumed hr (fun _ => id) h).elim
        | some kind =>
          simp only [hkind] at h
          replace h := runs_iff.mp h
          unfold step scanLine at h
          dsimp only at h
          cases hfind : Line.find c.bytes start start.get kind with
          | error misplaced =>
            simp only [hfind] at h
            split at h <;> exact (not_ends_consumed hr (fun _ => id) h).elim
          | ok found =>
            cases found with
            | none =>
              simp only [hfind] at h
              split at h
              · obtain rfl := h
                exact hr.elim
              · exact (not_ends_consumed hr (fun _ => id) h).elim
            | some line =>
              simp only [hfind] at h
              cases hline : c.byteMax.line line with
              | error error =>
                simp only [hline] at h
                exact (not_ends_consumed hr (fun _ => id) h).elim
              | ok ends =>
                obtain ⟨finish, body⟩ := ends
                simp only [hline] at h
                obtain ⟨hlt, hget, hbody, hstop⟩ := Bound.line_eq_ok.mp hline
                obtain ⟨rfl, ⟨post, hpost⟩, hplain⟩ := Line.find_split le_rfl hfind
                have hstop' : line.stop = line.start.get + line.value.length := rfl
                refine ⟨marker, kind, line.value, post, ⟨line.start.get, self.left, .start⟩,
                  ⟨line.start, slot⟩, finish, body, hkind, hplain, ?_,
                  by omega, hV, ⟨rfl, hslot', by omega, by omega, by omega⟩, h⟩
                have hp := (List.getElem?_eq_some_iff.mp hm)
                rw [List.drop_eq_getElem_cons hp.1, hp.2, ← hstart, hpost]
                simp [Reply.line]

end Call

/-! ## Texts and spans -/

theorem drop_add_length {bytes first rest : List UInt8} {p : ℕ}
    (h : bytes.drop p = first ++ rest) : bytes.drop (p + first.length) = rest := by
  rw [← List.drop_drop, h, List.drop_left]

/-- A span reads its text back from every frame that contains it. -/
theorem text_terminated {bytes text rest : List UInt8} {body : Body} {m : ℕ}
    (hdrop : bytes.drop body.start = text ++ rest)
    (hstop : body.stop = body.start + text.length) (hm : body.stop ≤ m) :
    (Span.terminated body).text (bytes.take m) = text := by
  unfold Span.text
  rw [Span.parts_terminated, List.take_take, Nat.min_eq_left hm, List.drop_take, hdrop, hstop,
    Nat.add_sub_cancel_left, List.take_left]

/-- The events of a tape. -/
def Draft.events (draft : Draft) (frame : List UInt8) : List Event :=
  draft.values.map (Kind.event frame)

theorem Draft.events_push (draft : Draft) (slot : Slot) (value : Kind) (frame : List UInt8) :
    (draft.push slot value).events frame = draft.events frame ++ [value.event frame] := by
  simp [events, push]

/-! ## Completeness -/

section Complete

variable {c : Call β τ ε} {bytes : List UInt8}

/-- The rounds from `self` go on as a call that has stored `events` and closes a value
that ends at `stop`, in an array stack `left`. -/
def Closes (c : Call β τ ε) (bytes : List UInt8) (self : State) (draft : Draft) (stop : ℕ)
    (events : List Event) (left : List ℕ+) : Prop :=
  ∃ self' draft' finish, self'.left = left ∧ finish.get = stop ∧
    draft'.len = draft.len + events.length ∧
    (∀ m, stop ≤ m →
      draft'.events (bytes.take m) = draft.events (bytes.take m) ++ events) ∧
    ∀ r, (c.roomy bytes).Ends ((c.roomy bytes).close self' draft' finish) r →
      (c.roomy bytes).Runs self draft r

/-- A value of one node closes once it is stored. -/
theorem closes_of_push {self self' : State} {draft : Draft} {slot : Slot} {value : Kind}
    {finish : End} {event : Event} {left : List ℕ+} (hleft : self'.left = left)
    (hslot : slot.get = draft.len + 1)
    (hevent : ∀ m, finish.get ≤ m → value.event (bytes.take m) = event)
    (hruns : ∀ r, (c.roomy bytes).Ends
      ((c.roomy bytes).close self' (draft.push slot value) finish) r →
        (c.roomy bytes).Runs self draft r) :
    Closes c bytes self draft finish.get [event] left := by
  refine ⟨self', draft.push slot value, finish, hleft, rfl, hslot, fun m hm => ?_, hruns⟩
  rw [Draft.events_push, hevent m hm]

/-- The last value of an array closes the array too. -/
theorem close_last (self : State) (b : β) (finish : End) (parents : List ℕ+)
    (h : self.left = 1 :: parents) :
    c.close self b finish = c.close { self with left := parents } b finish := by
  have hfinish : State.finishLeft self.left = State.finishLeft parents := by
    rw [h]
    rfl
  unfold Call.close State.finishValue
  rw [hfinish]

/-- A value that is not the last of its array leaves the parser at the next marker. -/
theorem close_next (self : State) (b : β) (finish : End) (left : ℕ+) (n : ℕ+)
    (parents : List ℕ+) (h : self.left = left :: parents) (hn : (left : ℕ) = n + 1) :
    c.close self b finish = .again { self with left := n :: parents, mode := .marker finish } b := by
  have hfinish : State.finishLeft self.left = n :: parents := by
    rw [h, State.finishLeft]
    have hpos := n.pos
    rw [dif_pos (by omega)]
    congr 1
    exact PNat.eq (by simp [hn])
  unfold Call.close State.finishValue
  rw [hfinish]

/-- A value of one line closes once its line is found and stored. -/
theorem closes_of_line (kind : LineKind) (value : Body → Kind) {self : State} {draft : Draft}
    {p : ℕ} {marker : UInt8} {text post : List UInt8} {event : Event}
    (hkind : lineKind marker = some kind) (hplain : Plain text)
    (hdrop : bytes.drop p = Reply.line marker text ++ post) (hself : self.AtMarker p)
    (hF : p + (Reply.line marker text).length ≤ c.byteMax.value)
    (hV : draft.len + 1 ≤ c.nodeMax.value)
    (hstore : ∀ state pending finish body,
      (c.roomy bytes).scanFound state draft kind pending text finish body =
        (c.roomy bytes).close state (draft.push pending.slot (value body)) finish)
    (hevent : ∀ body m, body.start = p + 1 → body.stop = body.start + text.length →
      body.stop ≤ m → (value body).event (bytes.take m) = event) :
    Closes c bytes self draft (p + (Reply.line marker text).length) [event] self.left := by
  have hlen : (Reply.line marker text).length = text.length + 3 := by simp [Reply.line]
  rw [hlen] at hF ⊢
  obtain ⟨state, pending, finish, body, header, hruns⟩ :=
    Call.runs_header (c := c.roomy bytes) (b := draft) kind hself hkind hplain hdrop hF hV
  rw [← header.finish]
  have hpushed : ∀ r, (c.roomy bytes).Ends ((c.roomy bytes).close state
      (draft.push pending.slot (value body)) finish) r → (c.roomy bytes).Runs self draft r := by
    intro r hr
    rw [hruns, hstore]
    exact hr
  refine closes_of_push header.left header.slot (fun m hm => ?_) hpushed
  have hstart := header.start
  have hstop := header.stop
  have hfinish := header.finish
  exact hevent body m hstart (by omega) (by omega)

/-- The text of a line, for the spans into it. -/
theorem text_of_line {p : ℕ} {marker : UInt8} {text post : List UInt8} {body : Body} {m : ℕ}
    (hdrop : bytes.drop p = Reply.line marker text ++ post) (hstart : body.start = p + 1)
    (hstop : body.stop = body.start + text.length) (hm : body.stop ≤ m) :
    (Span.terminated body).text (bytes.take m) = text := by
  have htail : bytes.drop body.start = text ++ ([cr, lf] ++ post) := by
    rw [hstart, ← List.drop_drop, hdrop]
    simp [Reply.line]
  exact text_terminated htail hstop hm

/-- A bulk closes once its body and the CRLF after it are read and it is stored. -/
theorem closes_of_bulk {self : State} {draft : Draft} {p : ℕ} {text payload post : List UInt8}
    (htext : IsLength text (.count payload.length))
    (hdrop : bytes.drop p = Reply.line 36 text ++ (payload ++ [cr, lf]) ++ post)
    (hself : self.AtMarker p)
    (hF : p + (Reply.line 36 text ++ (payload ++ [cr, lf])).length ≤ c.byteMax.value)
    (hV : draft.len + 1 ≤ c.nodeMax.value) :
    Closes c bytes self draft (p + (Reply.line 36 text ++ (payload ++ [cr, lf])).length)
      [.bulk payload] self.left := by
  have hlen : (Reply.line 36 text).length = text.length + 3 := by simp [Reply.line]
  have hmax := c.byteMax.lt
  have htotal := congrArg List.length hdrop
  rw [List.length_append, hlen, List.length_append, List.length_cons, List.length_cons,
    List.length_nil] at hF ⊢
  simp only [List.length_drop, List.length_append, hlen, List.length_cons,
    List.length_nil] at htotal
  rw [List.append_assoc] at hdrop
  obtain ⟨state, pending, finish, body, header, hruns⟩ :=
    Call.runs_header (c := c.roomy bytes) (b := draft) .bulk hself rfl
      (plain_of_isLength htext) hdrop (by change _ ≤ c.byteMax.value; omega) hV
  have hfinish := header.finish
  have hbody := drop_add_length hdrop
  rw [hlen, ← hfinish, List.append_assoc] at hbody
  have hcrlf := drop_add_length hbody
  obtain ⟨range, hrange⟩ : ∃ range, c.byteMax.body finish payload.length = .ok range :=
    ⟨⟨finish.get, finish.get + payload.length, finish.pos, by omega, by omega⟩,
      Bound.body_eq_ok.mpr ⟨by omega, rfl, rfl⟩⟩
  obtain ⟨-, hstart, hstop⟩ := Bound.body_eq_ok.mp hrange
  have hfound : (c.roomy bytes).scanFound state draft .bulk pending text finish body =
      .again { state with mode := .bulk range pending.slot } draft := by
    have hok : length text body .bulk = .ok (.count payload.length) :=
      length_eq_ok.mpr ⟨htext, fun k hk => by cases hk; omega⟩
    have hrange' : (c.roomy bytes).byteMax.body finish payload.length = .ok range := hrange
    simp only [Call.scanFound, hok, hrange']
  have hslice : slice bytes range.stop range.get = some [cr, lf] := by
    refine slice_eq_some.mpr ⟨by unfold Body.get; omega, by unfold Body.get; omega, ?_⟩
    unfold Body.get
    rw [List.drop_take, hstop, hcrlf, Nat.add_sub_cancel_left]
    rfl
  have hstep : (c.roomy bytes).step { state with mode := .bulk range pending.slot } draft =
      (c.roomy bytes).close { state with mode := .start }
        (draft.push pending.slot (.bulk (.terminated range))) range.end := by
    have hslice' : slice (c.roomy bytes).bytes range.stop range.get = some [cr, lf] := hslice
    simp only [Call.step, Call.scanBulk, hslice']
    rfl
  have hpushed : ∀ r, (c.roomy bytes).Ends ((c.roomy bytes).close { state with mode := .start }
      (draft.push pending.slot (.bulk (.terminated range))) range.end) r →
        (c.roomy bytes).Runs self draft r := by
    intro r hr
    rw [hruns, hfound]
    exact Call.runs_iff.mpr (hstep ▸ hr)
  have hend : range.end.get = p + (text.length + 3 + (payload.length + (0 + 1 + 1))) := by
    rw [Body.get_end]
    unfold Body.get
    omega
  rw [← hend]
  have hevent : ∀ m, range.end.get ≤ m →
      (Kind.bulk (.terminated range)).event (bytes.take m) = .bulk payload := fun m hm =>
    congrArg Event.bulk (text_terminated (hstart ▸ hbody) (by omega) (by omega))
  have hleft : ({ state with mode := .start } : State).left = self.left := header.left
  exact closes_of_push hleft header.slot hevent hpushed

/-- The header of a nonempty array opens it at the marker of its first value. -/
theorem runs_open {self : State} (draft : Draft) {p n : ℕ} {text post : List UInt8}
    (htext : IsLength text (.count n)) (hn : 0 < n)
    (hdrop : bytes.drop p = Reply.line 42 text ++ post) (hself : self.AtMarker p)
    (hdepth : self.left.length < maxDepth)
    (hF : p + (Reply.line 42 text).length ≤ c.byteMax.value)
    (hV : draft.len + 1 + n ≤ c.nodeMax.value) :
    ∃ self' slot, self'.AtMarker (p + (Reply.line 42 text).length) ∧
      self'.left = ⟨n, hn⟩ :: self.left ∧ slot.get = draft.len + 1 ∧
      ∀ r, (c.roomy bytes).Runs self' (draft.push slot (.array (.ofNat n))) r →
        (c.roomy bytes).Runs self draft r := by
  have hlen : (Reply.line 42 text).length = text.length + 3 := by simp [Reply.line]
  have hmax := c.nodeMax.lt
  rw [hlen] at hF ⊢
  obtain ⟨state, pending, finish, body, header, hruns⟩ :=
    Call.runs_header (c := c.roomy bytes) (b := draft) .array hself rfl
      (plain_of_isLength htext) hdrop hF (by change draft.len < c.nodeMax.value; omega)
  have hok : length text body .array = .ok (.count n) :=
    length_eq_ok.mpr ⟨htext, fun k hk => by cases hk; omega⟩
  have harray : (c.roomy bytes).nodeMax.array ((c.roomy bytes).builder.len draft) n = .ok n :=
    Bound.array_eq_ok.mpr ⟨by change n + draft.len < c.nodeMax.value; omega, rfl⟩
  refine ⟨{ state with left := ⟨n, hn⟩ :: state.left, mode := .marker finish }, pending.slot,
    header.finish, by rw [header.left], header.slot, fun r hr => ?_⟩
  rw [hruns]
  simp only [Call.scanFound, hok, Call.openArray, harray, dif_pos hn,
    if_pos (header.left ▸ hdepth)]
  exact hr

/-- The header of an empty array closes it. -/
theorem closes_of_empty {self : State} {draft : Draft} {p : ℕ} {text post : List UInt8}
    (htext : IsLength text (.count 0)) (hdrop : bytes.drop p = Reply.line 42 text ++ post)
    (hself : self.AtMarker p) (hF : p + (Reply.line 42 text).length ≤ c.byteMax.value)
    (hV : draft.len + 1 ≤ c.nodeMax.value) :
    Closes c bytes self draft (p + (Reply.line 42 text).length) [.array 0] self.left := by
  refine closes_of_line .array (fun _ => .array 0) rfl
    (plain_of_isLength htext) hdrop hself hF hV (fun _ _ _ body => ?_) fun _ _ _ _ _ => rfl
  have hok : length text body .array = .ok (.count 0) :=
    length_eq_ok.mpr ⟨htext, fun k hk => by cases hk; decide⟩
  have harray : (c.roomy bytes).nodeMax.array ((c.roomy bytes).builder.len draft) 0 = .ok 0 :=
    Bound.array_eq_ok.mpr ⟨by change 0 + draft.len < c.nodeMax.value; omega, rfl⟩
  simp only [Call.scanFound, hok, Call.openArray, harray]
  rfl

mutual

theorem runs_value {p : ℕ} {post : List UInt8} : ∀ {value : Reply} {code : List UInt8}
    {self : State} {draft : Draft}, value.Encodes code → bytes.drop p = code ++ post →
      self.AtMarker p → value.depth + self.left.length ≤ maxDepth →
      p + code.length ≤ c.byteMax.value → draft.len + value.nodes ≤ c.nodeMax.value →
      Closes c bytes self draft (p + code.length) value.listing self.left
  | .ok, code, self, draft, henc, hdrop, hself, _, hF, hV => by
    cases henc with
    | ok =>
      exact closes_of_line .status (fun _ => .ok) rfl (by decide) hdrop hself hF
        hV (fun _ _ _ _ => rfl) fun _ _ _ _ _ => rfl
  | .status text, code, self, draft, henc, hdrop, hself, _, hF, hV => by
    cases henc with
    | status hplain hne =>
      refine closes_of_line .status (fun body => .status (.terminated body)) rfl hplain hdrop hself hF hV (fun _ _ _ _ => ?_) fun body m hstart hstop hm => ?_
      · simp only [Call.scanFound, Call.textValue, if_neg hne]
        rfl
      · exact congrArg Event.status (text_of_line hdrop hstart hstop hm)
  | .error text, code, self, draft, henc, hdrop, hself, _, hF, hV => by
    cases henc with
    | error hplain =>
      refine closes_of_line .server (fun body => .error (.terminated body)) rfl hplain hdrop hself hF hV (fun _ _ _ _ => rfl) fun body m hstart hstop hm => ?_
      exact congrArg Event.error (text_of_line hdrop hstart hstop hm)
  | .integer value, code, self, draft, henc, hdrop, hself, _, hF, hV => by
    cases henc with
    | integer htext hmin hmax =>
      refine closes_of_line .integer (fun _ => .integer (.ofInt value)) rfl
        (plain_of_isInteger htext) hdrop hself hF hV (fun _ _ _ body => ?_) fun _ _ _ _ _ =>
          congrArg Event.integer (Int64.toInt_ofInt_of_le hmin hmax)
      simp only [Call.scanFound, signed_eq_ok.mpr ⟨htext, hmin, hmax⟩]
      rfl
  | .nil, code, self, draft, henc, hdrop, hself, _, hF, hV => by
    cases henc with
    | bulkNil htext =>
      refine closes_of_line .bulk (fun _ => .nil) rfl
        (plain_of_isLength htext) hdrop hself hF hV (fun _ _ _ body => ?_) fun _ _ _ _ _ => rfl
      simp only [Call.scanFound, length_eq_ok.mpr ⟨htext, by simp⟩]
      rfl
    | arrayNil htext =>
      refine closes_of_line .array (fun _ => .nil) rfl
        (plain_of_isLength htext) hdrop hself hF hV (fun _ _ _ body => ?_) fun _ _ _ _ _ => rfl
      simp only [Call.scanFound, length_eq_ok.mpr ⟨htext, by simp⟩]
      rfl
  | .bulk payload, code, self, draft, henc, hdrop, hself, _, hF, hV => by
    cases henc with
    | bulk htext => exact closes_of_bulk htext hdrop hself hF hV
  | .array items, code, self, draft, henc, hdrop, hself, hdepth, hF, hV => by
    cases henc with
    | @array text body _ htext hitems =>
      rw [Reply.depth] at hdepth
      rw [Reply.nodes] at hV
      rw [List.append_assoc] at hdrop
      cases items with
      | nil =>
        cases hitems with
        | nil =>
          rw [List.append_nil] at hF ⊢
          exact closes_of_empty htext hdrop hself hF hV
      | cons value values =>
        have hone : value.depth + 1 ≤ Reply.depthAll (value :: values) := Nat.le_max_left _ _
        have hnodes := Reply.length_le_nodesAll (value :: values)
        rw [List.length_append] at hF
        obtain ⟨self₁, slot, hself₁, hleft₁, hslot, hruns₁⟩ :=
          runs_open (c := c) draft htext (Nat.succ_pos _) hdrop hself (by omega) (by omega) (by omega)
        have hlen₁ : (draft.push slot (.array (.ofNat (value :: values).length))).len =
            draft.len + 1 := hslot
        have hmax := c.nodeMax.lt
        have hcount (frame : List UInt8) :
            (Kind.array (.ofNat (value :: values).length)).event frame =
              .array (value :: values).length :=
          congrArg Event.array (by rw [UInt32.toNat_ofNat', Nat.mod_eq_of_lt (by omega)])
        obtain ⟨self₂, draft₂, finish, hleft₂, hfinish, hlen₂, hevents, hruns₂⟩ :=
          runs_values hitems (drop_add_length hdrop) hself₁ hleft₁ rfl hdepth
            (by omega) (by rw [hlen₁]; omega)
        rw [List.length_append]
        refine ⟨{ self₂ with left := self.left }, draft₂, finish, rfl, by omega, ?_,
          fun m hm => ?_, fun r hr => ?_⟩
        · rw [hlen₂, hlen₁, Reply.listing, List.length_cons]
          omega
        · rw [hevents m (by omega), Draft.events_push, hcount, Reply.listing, List.append_assoc]
          rfl
        · refine hruns₁ r (hruns₂ r ?_)
          rw [close_last self₂ draft₂ finish self.left hleft₂]
          exact hr

theorem runs_values {p : ℕ} {post : List UInt8} : ∀ {values : List Reply} {code : List UInt8}
    {self : State} {draft : Draft} {left : ℕ+} {parents : List ℕ+},
      Reply.EncodesAll values code → bytes.drop p = code ++ post →
      self.AtMarker p → self.left = left :: parents → values.length = left →
      Reply.depthAll values + parents.length ≤ maxDepth →
      p + code.length ≤ c.byteMax.value → draft.len + Reply.nodesAll values ≤ c.nodeMax.value →
      Closes c bytes self draft (p + code.length) (Reply.listingAll values) (1 :: parents)
  | [], _, _, _, left, _, _, _, _, _, hlen, _, _, _ => absurd hlen.symm left.ne_zero
  | value :: values, _, self, draft, left, parents, henc, hdrop, hself, hleft, hlen, hdepth,
      hF, hV => by
    cases henc with
    | @cons _ _ first rest hfirst hrest =>
      rw [Reply.depthAll] at hdepth
      rw [Reply.nodesAll] at hV
      rw [List.append_assoc] at hdrop
      rw [List.length_append] at hF ⊢
      have hstack : self.left.length = parents.length + 1 := by rw [hleft, List.length_cons]
      have hclose : Closes c bytes self draft (p + first.length) value.listing self.left :=
        runs_value hfirst hdrop hself (by omega) (by omega) (by omega)
      obtain ⟨self₁, draft₁, finish₁, hleft₁, hfinish₁, hlen₁, hevents₁, hruns₁⟩ := hclose
      rw [hleft] at hleft₁
      cases values with
      | nil =>
        obtain rfl : left = 1 := PNat.eq hlen.symm
        cases hrest with
        | nil =>
          rw [Reply.listingAll, Reply.listingAll, List.append_nil]
          exact ⟨self₁, draft₁, finish₁, hleft₁, hfinish₁, hlen₁, hevents₁, hruns₁⟩
      | cons next values =>
        have hclose := close_next (c := c.roomy bytes) self₁ draft₁ finish₁ left
          ⟨values.length + 1, Nat.succ_pos _⟩ parents hleft₁ hlen.symm
        have hlisting : Reply.listingAll (value :: next :: values) =
            value.listing ++ Reply.listingAll (next :: values) := rfl
        rw [Reply.length_listing] at hlen₁
        have hnext : Closes c bytes
            ⟨self₁.scan, ⟨values.length + 1, Nat.succ_pos _⟩ :: parents, .marker finish₁⟩ draft₁
            (p + first.length + rest.length) (Reply.listingAll (next :: values)) (1 :: parents) :=
          runs_values hrest (drop_add_length hdrop) hfinish₁ rfl rfl (by omega) (by omega)
            (by omega)
        obtain ⟨self₂, draft₂, finish₂, hleft₂, hfinish₂, hlen₂, hevents₂, hruns₂⟩ := hnext
        refine ⟨self₂, draft₂, finish₂, hleft₂, by omega, ?_, fun m hm => ?_, fun r hr => ?_⟩
        · rw [hlisting, List.length_append, Reply.length_listing]
          omega
        · rw [hevents₂ m (by omega), hevents₁ m (by omega), List.append_assoc, hlisting]
        · refine hruns₁ r ?_
          rw [hclose]
          exact hruns₂ r hr

end

end Complete

/-! ## Soundness -/

section Sound

/-- A line's marker. -/
def marker : LineKind → UInt8
  | .status => 43
  | .server => 45
  | .integer => 58
  | .bulk => 36
  | .array => 42

theorem eq_marker {byte : UInt8} {kind : LineKind} (h : lineKind byte = some kind) :
    byte = marker kind := by
  unfold lineKind at h
  split_ifs at h with h₁ h₂ h₃ h₄ h₅ <;> cases h <;> assumption

theorem finishLeft_length_le (left : List ℕ+) : (State.finishLeft left).length ≤ left.length := by
  induction left with
  | nil => exact le_rfl
  | cons n parents ih =>
    rw [State.finishLeft]
    split_ifs
    · exact le_rfl
    · exact ih.trans (Nat.le_succ _)

/-- A value that closes every array leaves nothing owed. -/
theorem owed_nil {room : ℕ} : ∀ {left : List ℕ+}, State.finishLeft left = [] → Owed room left []
  | [], _ => rfl
  | n :: parents, h => by
    rw [State.finishLeft] at h
    split_ifs at h with hn
    have hpos := n.pos
    exact ⟨[], [], rfl, by simp; omega, by simp, owed_nil h⟩

/-- The value after a closed value was owed to the arrays open before it. -/
theorem owed_cons {room : ℕ} {value : Reply} {rest : List Reply} : ∀ {left : List ℕ+},
    State.finishLeft left ≠ [] → value.depth + (State.finishLeft left).length ≤ room →
      Owed room (State.finishLeft left) rest → Owed room left (value :: rest)
  | [], h, _, _ => absurd rfl h
  | n :: parents, h, hdepth, howed => by
    rw [State.finishLeft] at h hdepth howed
    split_ifs at h hdepth howed with hn
    · obtain ⟨now, later, rfl, hnow, hroom, hlater⟩ := howed
      refine ⟨value :: now, later, rfl, ?_, ?_, hlater⟩
      · have hnow : now.length + 1 = (n : ℕ) - 1 := hnow
        rw [List.length_cons]
        omega
      · intro v hv
        rcases List.mem_cons.mp hv with rfl | hv
        · exact hdepth
        · exact hroom v hv
    · have hpos := n.pos
      exact ⟨[], value :: rest, rfl, by simp; omega, by simp, owed_cons h hdepth howed⟩

variable (c : Call β τ ε) (bytes : List UInt8)

/-- From `p` to `n` the buffer holds the values owed to the open arrays. -/
def Remains (left : List ℕ+) (used p n : ℕ) : Prop :=
  ∃ rest code post, Reply.EncodesAll rest code ∧ bytes.drop p = code ++ post ∧
    n = p + code.length ∧ n ≤ c.byteMax.value ∧ used + Reply.nodesAll rest ≤ c.nodeMax.value ∧
    Owed maxDepth left rest

/-- From `p` to `n` the buffer holds a value and what is owed after it. -/
def Reads (left : List ℕ+) (used p n : ℕ) : Prop :=
  ∃ (value : Reply) (code : List UInt8), value.Encodes code ∧
    value.depth + left.length ≤ maxDepth ∧
    (∃ post, bytes.drop p = code ++ post) ∧
    Remains c bytes left (used + value.nodes) (p + code.length) n

variable {c bytes}

/-- What a call has read that completes after closing a value. -/
theorem remains_of_close (hsource : c.source.Exact bytes) {self : State} {draft : Draft}
    {finish : End} {parsed : Parsed (List Kind)} {n : ℕ} {final : State × Draft}
    (hle : finish.get ≤ bytes.length) (hF : finish.get ≤ c.byteMax.value)
    (hV : draft.len ≤ c.nodeMax.value) (hdepth : self.left.length ≤ maxDepth)
    (ih : ∀ self' : State, self'.AtMarker finish.get → self'.left.length ≤ maxDepth →
      (c.roomy bytes).Runs self' draft (.complete parsed n, final) →
        Reads c bytes self'.left draft.len finish.get n)
    (h : (c.roomy bytes).Ends ((c.roomy bytes).close self draft finish)
      (.complete parsed n, final)) :
    Remains c bytes self.left draft.len finish.get n := by
  unfold Call.close State.finishValue at h
  cases hleft : State.finishLeft self.left with
  | nil =>
    have hcount := finish.consumed_eq
    simp only [hleft, Call.complete, Call.roomy,
      hsource.taken finish.consumed (by omega)] at h
    obtain ⟨h, -⟩ := Prod.mk.inj h
    obtain ⟨-, hn⟩ := Scan.complete.inj h
    exact ⟨[], [], bytes.drop finish.get, .nil, rfl, by simp; omega, by omega, hV, owed_nil hleft⟩
  | cons left parents =>
    simp only [hleft] at h
    have hlen := finishLeft_length_le self.left
    rw [hleft] at hlen
    obtain ⟨value, code, henc, hvalue, ⟨post, hdrop⟩, rest, code', post', hrest, hdrop', hn, hnF,
      hnV, howed⟩ := ih ⟨self.scan, left :: parents, .marker finish⟩ rfl (by dsimp only; omega) h
    have htail := drop_add_length hdrop
    refine ⟨value :: rest, code ++ code', post', .cons henc hrest, ?_, ?_, hnF, ?_, ?_⟩
    · rw [hdrop, List.append_assoc, ← hdrop', htail]
    · rw [List.length_append]
      omega
    · rw [Reply.nodesAll]
      omega
    · refine owed_cons (by rw [hleft]; exact List.cons_ne_nil _ _) ?_ ?_
      · rw [hleft]
        exact hvalue
      · rw [hleft]
        exact howed

/-- A call from a marker at `p` that completes with `n` bytes has read a value at `p`. -/
def SoundAt (c : Call β τ ε) (bytes : List UInt8) (parsed : Parsed (List Kind)) (n : ℕ)
    (final : State × Draft) (p : ℕ) : Prop :=
  ∀ (self : State) (draft : Draft), self.AtMarker p → self.left.length ≤ maxDepth →
    (c.roomy bytes).Runs self draft (.complete parsed n, final) →
      Reads c bytes self.left draft.len p n

variable {parsed : Parsed (List Kind)} {n : ℕ} {final : State × Draft} {p : ℕ}

/-- A value of one node is read when its push is stored. -/
theorem reads_of_push (hsource : c.source.Exact bytes) {left : List ℕ+} {self : State}
    {draft : Draft} {slot : Slot} {kind : Kind} {finish : End} {value : Reply}
    {code post : List UInt8} (hself : self.left = left) (henc : value.Encodes code)
    (hnodes : value.nodes = 1) (hdepth : value.depth = 0) (hdrop : bytes.drop p = code ++ post)
    (hfinish : finish.get = p + code.length) (hF : finish.get ≤ c.byteMax.value)
    (hslot : slot.get = draft.len + 1) (hV : draft.len < c.nodeMax.value)
    (hleft : left.length ≤ maxDepth) (ih : SoundAt c bytes parsed n final finish.get)
    (h : (c.roomy bytes).Ends ((c.roomy bytes).close self (draft.push slot kind) finish)
      (.complete parsed n, final)) :
    Reads c bytes left draft.len p n := by
  subst hself
  have hlen := congrArg List.length hdrop
  rw [List.length_drop, List.length_append] at hlen
  have hpos : 0 < code.length := by
    cases henc <;> simp [Reply.line]
  have hpushed : (draft.push slot kind).len = draft.len + 1 := hslot
  have hrest := remains_of_close hsource (by omega) hF (by omega) hleft
    (fun self' => ih self' (draft.push slot kind)) h
  rw [hpushed, hfinish] at hrest
  refine ⟨value, code, henc, by omega, ⟨post, hdrop⟩, ?_⟩
  rw [hnodes]
  exact hrest

/-- A value of one line is read when its push is stored. -/
theorem reads_of_line (hsource : c.source.Exact bytes) {left : List ℕ+} {draft : Draft}
    {state : State} {pending : Pending} {finish : End} {body : Body} {kind : Kind} {byte : UInt8}
    {value : Reply} {text post : List UInt8}
    (header : Header left draft.len p text state pending finish body)
    (henc : value.Encodes (Reply.line byte text)) (hnodes : value.nodes = 1)
    (hdepth : value.depth = 0) (hdrop : bytes.drop p = Reply.line byte text ++ post)
    (hF : p + (text.length + 3) ≤ c.byteMax.value) (hV : draft.len < c.nodeMax.value)
    (hleft : left.length ≤ maxDepth) (ih : SoundAt c bytes parsed n final finish.get)
    (h : (c.roomy bytes).Ends
      ((c.roomy bytes).close state (draft.push pending.slot kind) finish)
      (.complete parsed n, final)) :
    Reads c bytes left draft.len p n := by
  have hlen : (Reply.line byte text).length = text.length + 3 := by simp [Reply.line]
  have hfinish := header.finish
  exact reads_of_push hsource header.left henc hnodes hdepth hdrop (by omega) (by omega)
    header.slot hV hleft ih h

/-- A bulk is read when its body, the CRLF after it and its push went through. -/
theorem reads_of_bulk (hsource : c.source.Exact bytes) {left : List ℕ+} {draft : Draft}
    {state : State} {pending : Pending} {finish : End} {body range : Body} {k : ℕ}
    {text post : List UInt8} (header : Header left draft.len p text state pending finish body)
    (htext : IsLength text (.count k)) (hrange : c.byteMax.body finish k = .ok range)
    (hdrop : bytes.drop p = Reply.line 36 text ++ post) (hV : draft.len < c.nodeMax.value)
    (hleft : left.length ≤ maxDepth) (ih : ∀ q, p < q → SoundAt c bytes parsed n final q)
    (h : (c.roomy bytes).Runs { state with mode := .bulk range pending.slot } draft
      (.complete parsed n, final)) :
    Reads c bytes left draft.len p n := by
  obtain ⟨hF, hstart, hstop⟩ := Bound.body_eq_ok.mp hrange
  have hlen : (Reply.line 36 text).length = text.length + 3 := by simp [Reply.line]
  have hfinish := header.finish
  have hget : range.get = range.stop + 2 := rfl
  have hr : (Scan.complete parsed n : Scan (List Kind) ε).Completed := trivial
  replace h := Call.runs_iff.mp h
  unfold Call.step Call.scanBulk at h
  dsimp only at h
  split at h
  · next first second hslice =>
    split_ifs at h with hbad hcr
    · exact (Call.not_ends_consumed hr (fun _ => id) h).elim
    · exact (Call.not_ends_consumed hr (fun _ => id) h).elim
    · obtain ⟨hfirst, hsecond⟩ := not_or.mp hbad
      rw [not_not] at hfirst hsecond
      subst hfirst hsecond
      obtain ⟨-, hle, htail⟩ := slice_eq_some.mp hslice
      replace hle : range.get ≤ bytes.length := hle
      replace htail : [cr, lf] = (bytes.take range.get).drop range.stop := htail
      obtain ⟨payload, rest, hpost, hpayload⟩ : ∃ payload rest,
          post = payload ++ ([cr, lf] ++ rest) ∧ payload.length = k := by
        have hbody := drop_add_length hdrop
        rw [hlen, ← hfinish] at hbody
        refine ⟨post.take k, post.drop (k + 2), ?_, ?_⟩
        · rw [htail, List.drop_take, hget, Nat.add_sub_cancel_left, hstop, ← List.drop_drop, hbody,
            ← List.drop_drop, List.take_append_drop, List.take_append_drop]
        · rw [← hbody, List.length_take, List.length_drop]
          omega
      subst hpayload
      rw [hpost, ← List.append_assoc payload, ← List.append_assoc] at hdrop
      have hstate : ({ state with mode := .start } : State).left = left := header.left
      have hend : range.end.get = p + (Reply.line 36 text ++ (payload ++ [cr, lf])).length := by
        rw [Body.get_end, List.length_append, hlen, List.length_append, List.length_cons,
          List.length_cons, List.length_nil]
        omega
      refine reads_of_push hsource hstate (.bulk htext) rfl rfl hdrop hend ?_ header.slot hV hleft
        (ih _ ?_) h
      · rw [Body.get_end]
        omega
      · rw [Body.get_end]
        omega
  · simp [Call.Ends] at h

/-- A nonempty array is read when its header's push went through and its values are read. -/
theorem reads_of_array {left : List ℕ+} {used k : ℕ} {text post : List UInt8} (hk : 0 < k)
    (htext : IsLength text (.count k)) (hdrop : bytes.drop p = Reply.line 42 text ++ post)
    (h : Reads c bytes (⟨k, hk⟩ :: left) (used + 1) (p + (Reply.line 42 text).length) n) :
    Reads c bytes left used p n := by
  obtain ⟨value, code, henc, hvalue, ⟨post', hdrop'⟩, rest, tail, post'', hrest, htail, hn, hnF,
    hnV, now, later, rfl, hnow, hroom, howed⟩ := h
  obtain ⟨front, back, rfl, hfront, hback⟩ := hrest.split
  replace hnow : k = (value :: now).length := hnow.symm
  subst hnow
  replace hvalue : value.depth + (left.length + 1) ≤ maxDepth := hvalue
  have hpost := drop_add_length hdrop
  have hrest := drop_add_length hdrop'
  rw [hpost] at hdrop'
  rw [htail] at hrest
  rw [Reply.nodesAll_append] at hnV
  have hnodes : (Reply.array (value :: now)).nodes = 1 + (value.nodes + Reply.nodesAll now) := by
    rw [Reply.nodes, Reply.nodesAll]
  refine ⟨.array (value :: now), Reply.line 42 text ++ (code ++ front),
    .array htext (.cons henc hfront), ?_, ⟨back ++ post'', ?_⟩, later, back, post'', hback, ?_, ?_,
    hnF, by omega, howed⟩
  · have hdepth : Reply.depthAll (value :: now) ≤ maxDepth - left.length := by
      refine Reply.depthAll_le.mpr fun v hv => ?_
      rcases List.mem_cons.mp hv with rfl | hv
      · omega
      · have := hroom v hv
        omega
    rw [Reply.depth]
    omega
  · rw [hdrop, hdrop', ← hrest]
    simp only [List.append_assoc]
  · have hwhole : bytes.drop p = (Reply.line 42 text ++ (code ++ front)) ++ (back ++ post'') := by
      rw [hdrop, hdrop', ← hrest]
      simp only [List.append_assoc]
    exact drop_add_length hwhole
  · simp only [List.length_append] at hn ⊢
    omega

/-- A call that completes from a marker position has read a value there, and after it what
is owed to the open arrays. By strong induction on the bytes from the marker on. -/
theorem runs_sound (hsource : c.source.Exact bytes) (p : ℕ) :
    SoundAt c bytes parsed n final p := by
  induction hk : bytes.length - p using Nat.strong_induction_on generalizing p with
  | _ k ih =>
  subst hk
  intro self draft hself hleft h
  have hr : (Scan.complete parsed n : Scan (List Kind) ε).Completed := trivial
  obtain ⟨byte, kind, text, post, state, pending, finish, body, hkind, hplain, hdrop, hF, hV,
    header, h⟩ := Call.header_of_runs hself hr h
  obtain rfl := eq_marker hkind
  have hlen : (Reply.line (marker kind) text).length = text.length + 3 := by simp [Reply.line]
  have hbytes := congrArg List.length hdrop
  rw [List.length_append, hlen, List.length_drop] at hbytes
  replace hbytes : bytes.length - p = text.length + 3 + post.length := hbytes
  have hfinish := header.finish
  have ih (q : ℕ) (hq : p < q) : SoundAt c bytes parsed n final q :=
    ih (bytes.length - q) (by omega) q rfl
  have store {value : Reply} {stored : Kind} (henc : value.Encodes (Reply.line (marker kind) text))
      (hnodes : value.nodes = 1) (hdepth : value.depth = 0)
      (h : (c.roomy bytes).Ends
        ((c.roomy bytes).close state (draft.push pending.slot stored) finish)
        (.complete parsed n, final)) : Reads c bytes self.left draft.len p n :=
    reads_of_line hsource header henc hnodes hdepth hdrop hF hV hleft (ih _ (by omega)) h
  unfold Call.scanFound at h
  dsimp only at h
  cases kind with
  | status =>
    by_cases hok : text = [79, 75]
    · subst hok
      exact store .ok rfl rfl h
    · exact store (.status (hplain (Or.inl rfl)) hok) rfl rfl h
  | server => exact store (.error (hplain (Or.inr rfl))) rfl rfl h
  | integer =>
    dsimp only at h
    cases hsigned : signed text body with
    | error cause =>
      rw [hsigned] at h
      exact (Call.not_ends_consumed hr (fun _ => id) h).elim
    | ok value =>
      rw [hsigned] at h
      obtain ⟨htext, hmin, hmax⟩ := signed_eq_ok.mp hsigned
      exact store (.integer htext hmin hmax) rfl rfl h
  | bulk =>
    dsimp only at h
    cases hlength : length text body .bulk with
    | error error =>
      rw [hlength] at h
      exact (Call.not_ends_consumed hr (fun _ => id) h).elim
    | ok length =>
      have htext := (length_eq_ok.mp hlength).1
      rw [hlength] at h
      cases length with
      | nil => exact store (.bulkNil htext) rfl rfl h
      | count k =>
        dsimp only at h
        cases hrange : c.byteMax.body finish k with
        | error error =>
          simp only [Call.roomy, hrange] at h
          exact (Call.not_ends_consumed hr (fun _ => id) h).elim
        | ok range =>
          simp only [Call.roomy, hrange] at h
          exact reads_of_bulk hsource header htext hrange hdrop hV hleft ih h
  | array =>
    dsimp only at h
    cases hlength : length text body .array with
    | error error =>
      rw [hlength] at h
      exact (Call.not_ends_consumed hr (fun _ => id) h).elim
    | ok length =>
      have htext := (length_eq_ok.mp hlength).1
      rw [hlength] at h
      cases length with
      | nil => exact store (.arrayNil htext) rfl rfl h
      | count k =>
        dsimp only at h
        unfold Call.openArray at h
        dsimp only at h
        cases harray : (c.roomy bytes).nodeMax.array ((c.roomy bytes).builder.len draft) k with
        | error error =>
          rw [harray] at h
          exact (Call.not_ends_consumed hr (fun _ => id) h).elim
        | ok count =>
          obtain ⟨-, rfl⟩ := Bound.array_eq_ok.mp harray
          rw [harray] at h
          dsimp only at h
          split_ifs at h with hpos hdepth
          · refine reads_of_array hpos htext hdrop ?_
            have hpushed : (draft.push pending.slot (.array (.ofNat count))).len = draft.len + 1 :=
              header.slot
            have hread := ih finish.get (by omega)
              ⟨state.scan, ⟨count, hpos⟩ :: state.left, .marker finish⟩ _ rfl hdepth h
            rw [hpushed, hfinish, header.left] at hread
            rw [show Reply.line 42 text = Reply.line (marker .array) text from rfl, hlen]
            exact hread
          · exact (Call.not_ends_consumed hr (fun _ => id) h).elim
          · obtain rfl : count = 0 := by omega
            have henc : (Reply.array []).Encodes (Reply.line (marker .array) text) :=
              List.append_nil (Reply.line 42 text) ▸ .array htext .nil
            exact store henc rfl rfl h

end Sound

/-! ## Completed calls -/

/-- The first `n` bytes of the buffer are the value, inside the limits of the call. -/
structure Call.Accepts (c : Call β τ ε) (n : ℕ) (value : Reply) : Prop where
  code : value.Encodes (c.bytes.take n)
  length : n ≤ c.bytes.length
  frame : n ≤ c.byteMax.value
  nodes : value.nodes ≤ c.nodeMax.value
  depth : value.depth ≤ maxDepth
  arrays : ∀ i k, value.listing[i]? = some (.array k) → k + i ≤ c.nodeMax.value

variable {c : Call β τ ε}

/-- An array's declared count and the nodes before it are bounded by the nodes. -/
theorem arrays_of_nodes {value : Reply} {limit : ℕ} (h : value.nodes ≤ limit) (i k : ℕ)
    (hi : value.listing[i]? = some (.array k)) : k + i ≤ limit := by
  have := Reply.array_lt_listing hi
  rw [Reply.length_listing] at this
  omega

/-- A call on an accepted value completes with the value's listing. -/
theorem outcome_of_accepts (hsource : c.source.Exact c.bytes) {n : ℕ} {value : Reply}
    (h : c.Accepts n value) :
    ∃ kinds, c.outcome = .complete ⟨c.bytes.take n, kinds⟩ n ∧
      kinds.map (Kind.event (c.bytes.take n)) = value.listing := by
  have hlen : (c.bytes.take n).length = n := List.length_take_of_le h.length
  have hcloses : Closes c c.bytes .new .empty (0 + (c.bytes.take n).length) value.listing [] :=
    runs_value h.code (List.take_append_drop n c.bytes).symm rfl h.depth (by
      rw [hlen, Nat.zero_add]
      exact h.frame) (by
      have := h.nodes
      change 0 + value.nodes ≤ _
      omega)
  obtain ⟨self, draft, finish, hleft, hfinish, -, hevents, hruns⟩ := hcloses
  rw [hlen, Nat.zero_add] at hfinish hevents
  refine ⟨draft.values, ?_, ?_⟩
  · have hcount := finish.consumed_eq
    have hle := h.length
    have hclose : (c.roomy c.bytes).close self draft finish =
        .ret (.complete ⟨c.bytes.take n, draft.values⟩ n) .new .empty := by
      unfold Call.close State.finishValue
      rw [hleft]
      simp only [State.finishLeft, Call.complete, Call.roomy,
        hsource.taken finish.consumed (by omega)]
      rw [hcount, hfinish]
      rfl
    have hrun := hruns (.complete ⟨c.bytes.take n, draft.values⟩ n, .new, .empty) (by
      rw [hclose]
      rfl)
    have henter : (c.roomy c.bytes).enter .new .empty = (.new, .empty) :=
      Call.enter_of_le _ (Nat.zero_le _) (Nat.zero_le _)
    have hscan : (c.roomy c.bytes).scan .new .empty =
        (.complete ⟨c.bytes.take n, draft.values⟩ n, .new, .empty) := by
      refine (c.roomy c.bytes).scan_eq_of_runs ?_
      rw [henter]
      exact hrun
    exact congrArg Prod.fst hscan
  · have := hevents n le_rfl
    simpa [Draft.events, Draft.empty] using this

/-- A call completes only on an accepted value. -/
theorem accepts_of_outcome (hsource : c.source.Exact c.bytes) {n : ℕ}
    {parsed : Parsed (List Kind)} (h : c.outcome = .complete parsed n) :
    ∃ value, c.Accepts n value := by
  have hruns := (c.roomy c.bytes).runs_scan .new .empty
  rw [Call.enter_of_le _ (Nat.zero_le _) (Nat.zero_le _)] at hruns
  have hpair : (c.roomy c.bytes).scan .new .empty =
      (.complete parsed n, ((c.roomy c.bytes).scan .new .empty).2) := Prod.ext h rfl
  rw [hpair] at hruns
  obtain ⟨value, code, henc, hdepth, ⟨post, hdrop⟩, rest, tail, -, hrest, -, hn, hnF, hnV, howed⟩ :=
    runs_sound hsource 0 .new .empty rfl (Nat.zero_le _) hruns
  obtain rfl : rest = [] := howed
  cases hrest with
  | nil =>
    rw [Nat.zero_add, List.length_nil, Nat.add_zero] at hn
    subst hn
    rw [List.drop_zero] at hdrop
    have hnodes : value.nodes ≤ c.nodeMax.value := by
      change 0 + value.nodes + 0 ≤ c.nodeMax.value at hnV
      omega
    refine ⟨value, ?_, ?_, hnF, hnodes, hdepth, arrays_of_nodes hnodes⟩
    · rw [hdrop, List.take_left]
      exact henc
    · rw [hdrop, List.length_append]
      exact Nat.le_add_right _ _

end Cartel.Redis.Parser
