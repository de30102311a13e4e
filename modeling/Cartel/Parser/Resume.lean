import Cartel.Parser.State

/-!
# Resumption is independent of the chunks

A buffer is scanned in calls on growing prefixes of it, with any storage, until a call
ends with more than `pending`, `blocked` or `retainCapacity`. `Call.roomy` is the call a
fresh parser makes on the whole buffer with storage that never refuses.

One round of a call on a prefix is compared with the round of the roomy call from a state
that differs at most in where the search for a line's end resumes (`State.Similar`). The
round either goes on in both, or leaves the prefix's parser similar to where the roomy
run still is (`Matches`, `step_matches`). Hence a suspended parser always stands on the
roomy run (`OnRoute`), whatever the chunks were, and the last call returns its outcome.
-/

namespace Cartel.Redis.Parser

variable {β τ ε : Type}

/-- The outcome with its tape read as a list of values. -/
def Scan.view (kinds : τ → List Kind) : Scan τ ε → Scan (List Kind) ε
  | .pending => .pending
  | .blocked => .blocked
  | .complete parsed consumed => .complete ⟨parsed.frame, kinds parsed.nodes⟩ consumed
  | .invalid error consumed => .invalid error consumed
  | .frameCapacity error consumed => .frameCapacity error consumed
  | .valueCapacity error consumed => .valueCapacity error consumed
  | .retainCapacity => .retainCapacity
  | .source cause => .source cause

/-- The outcomes of refused storage. -/
def Scan.Refused : Scan τ ε → Prop
  | .blocked | .retainCapacity => True
  | _ => False

/-- The outcomes after which the frame's scan goes on in a later call. -/
def Scan.Suspended : Scan τ ε → Prop
  | .pending | .blocked | .retainCapacity => True
  | _ => False

/-- The call with storage that never refuses, on the buffer `bytes`. -/
def Call.roomy (c : Call β τ ε) (bytes : List UInt8) : Call Draft (List Kind) ε :=
  ⟨Draft.builder, c.source, c.byteMax, c.nodeMax, bytes⟩

/-- Two parser states that go on alike on the buffer `bytes` : a search for the end of a
line finds the same from both resume offsets. -/
structure State.Similar (bytes : List UInt8) (state other : State) : Prop where
  left : state.left = other.left
  mode : state.mode = other.mode
  find : ∀ kind pending, state.mode = .line kind pending →
    Line.find bytes pending.start state.scan kind = Line.find bytes pending.start other.scan kind

/-- A parser whose positions are inside the first `n` bytes. In a line, the search for
its end resumes at the last byte read or before. -/
structure State.Fits (n : ℕ) (state : State) : Prop where
  cursor : state.mode.cursor ≤ n
  scan : state.scan ≤ n
  line : ∀ kind pending, state.mode = .line kind pending →
    state.scan ≤ max (n - 1) pending.start.get

/-- A round of a call, and the round of the roomy call from `origin`. `whole` says that
the call has the whole buffer. -/
inductive Matches {B : Builder β τ} (L : B.Lawful) (whole : Prop) (bytes : List UInt8)
    (n : ℕ) (origin : State) (draft : Draft) :
    Next β τ ε → Next Draft (List Kind) ε → Prop
  | again {self other : State} {b : β} : self.Similar bytes other → self.Fits n →
      Matches L whole bytes n origin draft (.again self b) (.again other (L.draft b))
  | refused {scan : Scan τ ε} {self : State} {b : β} {next : Next Draft (List Kind) ε} :
      scan.Refused → self.Similar bytes origin → self.Fits n → L.draft b = draft →
      Matches L whole bytes n origin draft (.ret scan self b) next
  | pending {self : State} {b : β} {next : Next Draft (List Kind) ε} :
      self.Similar bytes origin → self.Fits n → L.draft b = draft →
      (whole → ∃ other d, next = .ret .pending other d) →
      Matches L whole bytes n origin draft (.ret .pending self b) next
  | done {scan : Scan τ ε} {self : State} {b : β} {next : Next Draft (List Kind) ε} :
      ¬scan.Suspended → (whole → ∃ other d, next = .ret (scan.view (L.kinds b)) other d) →
      Matches L whole bytes n origin draft (.ret scan self b) next

namespace State

theorem Similar.refl (bytes : List UInt8) (self : State) : self.Similar bytes self :=
  ⟨rfl, rfl, fun _ _ _ => rfl⟩

/-- Outside the lines the resume offset does not matter. -/
theorem Similar.of_mode {bytes : List UInt8} {self other : State} (hl : self.left = other.left)
    (hm : self.mode = other.mode) (hn : ∀ kind pending, self.mode ≠ .line kind pending) :
    self.Similar bytes other :=
  ⟨hl, hm, fun kind pending h => absurd h (hn kind pending)⟩

theorem Fits.of_mode {n : ℕ} {self : State} (hc : self.mode.cursor ≤ n) (hs : self.scan ≤ n)
    (hn : ∀ kind pending, self.mode ≠ .line kind pending) : self.Fits n :=
  ⟨hc, hs, fun kind pending h => absurd h (hn kind pending)⟩

theorem Fits.mono {n m : ℕ} {self : State} (h : self.Fits n) (hle : n ≤ m) : self.Fits m :=
  ⟨h.cursor.trans hle, h.scan.trans hle, fun kind pending hm =>
    (h.line kind pending hm).trans (max_le_max (by omega) le_rfl)⟩

/-- A value closes the same arrays in both states. -/
theorem finishValue_eq {self other : State} (finish : End) (h : self.left = other.left) :
    (self.finishValue finish = (.root, { self with left := [] }) ∧
        other.finishValue finish = (.root, { other with left := [] })) ∨
      ∃ left, self.finishValue finish =
          (.nested, { self with left := left, mode := .marker finish }) ∧
        other.finishValue finish =
          (.nested, { other with left := left, mode := .marker finish }) := by
  unfold finishValue
  rw [← h]
  cases finishLeft self.left with
  | nil => exact Or.inl ⟨rfl, rfl⟩
  | cons left parents => exact Or.inr ⟨left :: parents, rfl, rfl⟩

end State

section Round

variable {c : Call β τ ε} (L : c.builder.Lawful) {bytes : List UInt8} {whole : Prop}
  (hwhole : whole → c.bytes = bytes) {n : ℕ} {origin : State} {draft : Draft}
  {self other : State} {b : β}

include hwhole

/-- An outcome that consumes input is the same when both calls have the whole buffer. -/
theorem matches_consumed {amount : ℕ} {build : ℕ → Scan τ ε}
    {build' : ℕ → Scan (List Kind) ε} {next : Next Draft (List Kind) ε}
    (hnext : whole → ∃ other d, next = .ret ((c.roomy bytes).consumed amount build') other d)
    (hb : ∀ n, ¬(build n).Suspended)
    (hv : ∀ n, (build n).view (L.kinds b) = build' n) :
    Matches L whole bytes n origin draft (.ret (c.consumed amount build) self b) next := by
  refine .done ?_ fun hw => ?_
  · unfold Call.consumed
    split
    · exact hb _
    · exact id
  · obtain ⟨other, d, hnext⟩ := hnext hw
    refine ⟨other, d, ?_⟩
    rw [hnext]
    simp only [Call.consumed, Call.roomy, ← hwhole hw]
    cases c.source.tryConsumed c.bytes amount with
    | error cause => rfl
    | ok consumed => exact congrArg (Next.ret · other d) (hv consumed).symm

theorem matches_close {finish : End} {d : Draft} (hd : L.draft b = d)
    (hl : self.left = other.left) (hs : self.scan ≤ n) (hf : finish.get ≤ n) :
    Matches L whole bytes n origin draft (c.close self b finish)
      ((c.roomy bytes).close other d finish) := by
  subst hd
  unfold Call.close
  rcases State.finishValue_eq finish hl with ⟨h, h'⟩ | ⟨left, h, h'⟩
  · rw [h, h']
    dsimp only
    unfold Call.complete
    cases hp : c.source.tryPrefix c.bytes finish.consumed with
    | error cause =>
      refine .done id fun hw => ⟨{ other with left := [] }, L.draft b, ?_⟩
      simp only [Call.roomy, ← hwhole hw, hp]
      rfl
    | ok found =>
      obtain ⟨frame, consumed⟩ := found
      refine .done id fun hw => ⟨.new, .empty, ?_⟩
      simp only [Call.roomy, ← hwhole hw, hp, Scan.view, L.finish]
      rfl
  · rw [h, h']
    exact .again (.of_mode rfl rfl (by simp)) (.of_mode hf hs (by simp))

omit hwhole in
theorem matches_write {slot : Slot} {value : Kind} {restore : Mode} {stored : β → Next β τ ε}
    {stored' : Draft → Next Draft (List Kind) ε} (hd : L.draft b = draft)
    (hr : ({ self with mode := restore } : State).Similar bytes origin)
    (hf : ({ self with mode := restore } : State).Fits n)
    (h : ∀ b', L.draft b' = draft.push slot value →
      Matches L whole bytes n origin draft (stored b') (stored' (draft.push slot value))) :
    Matches L whole bytes n origin draft (c.write self b slot value restore stored)
      ((c.roomy bytes).write other draft slot value restore stored') := by
  subst hd
  have hpush := L.stored b slot value
  have hrefused := L.refused b slot value
  change Matches L whole bytes n origin _ _ (stored' _)
  unfold Call.write
  cases hp : c.builder.tryPush b slot value with
  | mk push b' =>
    rw [hp] at hpush hrefused
    cases push with
    | stored => exact h b' (hpush rfl)
    | blocked => exact .refused trivial hr hf (hrefused (by simp))
    | full => exact .refused trivial hr hf (hrefused (by simp))

theorem matches_openArray {pending : Pending} {finish : End} {count : ℕ}
    (hd : L.draft b = draft) (hl : self.left = other.left) (hs : self.scan ≤ n)
    (hf : finish.get ≤ n)
    (hr : ({ self with mode := .line .array pending } : State).Similar bytes origin)
    (hn : ({ self with mode := .line .array pending } : State).Fits n) :
    Matches L whole bytes n origin draft (c.openArray self b pending finish count)
      ((c.roomy bytes).openArray other draft pending finish count) := by
  have hlen : c.builder.len b = draft.len := by rw [L.len_eq, hd]
  have hlen' : (c.roomy bytes).builder.len draft = draft.len := rfl
  have hmax : (c.roomy bytes).nodeMax = c.nodeMax := rfl
  unfold Call.openArray
  rw [hlen, hlen', hmax]
  dsimp only
  cases c.nodeMax.array draft.len count with
  | error error => exact matches_consumed L hwhole (fun _ => ⟨_, _, rfl⟩) (fun _ => id) fun _ => rfl
  | ok count =>
    dsimp only
    rw [← hl]
    split_ifs with h0 hdepth
    · refine matches_write L hd hr hn fun b' hb' => ?_
      rw [← hb']
      exact .again (.of_mode rfl rfl (by simp)) (.of_mode hf hs (by simp))
    · exact matches_consumed L hwhole (fun _ => ⟨_, _, rfl⟩) (fun _ => id) fun _ => rfl
    · exact matches_write L hd hr hn fun b' hb' => matches_close L hwhole hb' hl hs hf

theorem matches_scanFound {kind : LineKind} {pending : Pending} {value : List UInt8}
    {finish : End} {body : Body} (hd : L.draft b = draft) (hl : self.left = other.left)
    (hs : self.scan ≤ n) (hf : finish.get ≤ n)
    (hr : ({ self with mode := .line kind pending } : State).Similar bytes origin)
    (hn : ({ self with mode := .line kind pending } : State).Fits n) :
    Matches L whole bytes n origin draft (c.scanFound self b kind pending value finish body)
      ((c.roomy bytes).scanFound other draft kind pending value finish body) := by
  have store (value : Kind) : Matches L whole bytes n origin draft
      (c.write self b pending.slot value (.line kind pending) fun b => c.close self b finish)
      ((c.roomy bytes).write other draft pending.slot value (.line kind pending)
        fun b => (c.roomy bytes).close other b finish) :=
    matches_write L hd hr hn fun b' hb' => matches_close L hwhole hb' hl hs hf
  have reject (error : Error) (other' : State) : Matches L whole bytes n origin draft
      (.ret (c.consumed finish.consumed (.invalid error)) { self with mode := .line kind pending } b)
      (.ret ((c.roomy bytes).consumed finish.consumed (.invalid error)) other' draft) :=
    matches_consumed L hwhole (fun _ => ⟨_, _, rfl⟩) (fun _ => id) fun _ => rfl
  unfold Call.scanFound
  dsimp only
  cases kind with
  | status => exact store _
  | server => exact store _
  | integer =>
    dsimp only
    cases signed value body with
    | error cause => exact reject _ _
    | ok integer => exact store _
  | bulk =>
    dsimp only
    cases length value body .bulk with
    | error error => exact reject _ _
    | ok length =>
      cases length with
      | nil => exact store _
      | count length =>
        have hmax : (c.roomy bytes).byteMax = c.byteMax := rfl
        dsimp only
        rw [hmax]
        cases hb : c.byteMax.body finish length with
        | error error => exact matches_consumed L hwhole (fun _ => ⟨_, _, rfl⟩) (fun _ => id) fun _ => rfl
        | ok body =>
          have hstart := (Bound.body_eq_ok.mp hb).2.1
          rw [← hd]
          exact .again (.of_mode hl rfl (by simp)) (.of_mode (hstart.le.trans hf) hs (by simp))
  | array =>
    dsimp only
    cases length value body .array with
    | error error => exact reject _ _
    | ok length =>
      cases length with
      | nil => exact store _
      | count count => exact matches_openArray L hwhole hd hl hs hf hr hn

end Round

section Step

variable {c : Call β τ ε} (L : c.builder.Lawful) {rest : List UInt8} {self other : State} {b : β}

theorem matches_scanMarker {cursor : ℕ} (hsim : self.Similar (c.bytes ++ rest) other)
    (hfit : self.Fits c.bytes.length) :
    Matches L (rest = []) (c.bytes ++ rest) c.bytes.length other (L.draft b)
      (c.scanMarker self b cursor)
      ((c.roomy (c.bytes ++ rest)).scanMarker other (L.draft b) cursor) := by
  have hwhole : rest = [] → c.bytes = c.bytes ++ rest := fun h => by simp [h]
  have hbytes : (c.roomy (c.bytes ++ rest)).bytes = c.bytes ++ rest := rfl
  have hbyte : (c.roomy (c.bytes ++ rest)).byteMax = c.byteMax := rfl
  have hnode : (c.roomy (c.bytes ++ rest)).nodeMax = c.nodeMax := rfl
  have hlen : (c.roomy (c.bytes ++ rest)).builder.len (L.draft b) = c.builder.len b :=
    (L.len_eq b).symm
  unfold Call.scanMarker
  rw [hbytes, hbyte, hnode, hlen]
  cases hm : c.bytes[cursor]? with
  | none =>
    refine .pending hsim hfit rfl fun hw => ⟨other, L.draft b, ?_⟩
    simp [hw, hm]
  | some marker =>
    rw [List.getElem?_append_left (List.getElem?_eq_some_iff.mp hm).1, hm]
    have hlt := (List.getElem?_eq_some_iff.mp hm).1
    dsimp only
    cases hf : c.byteMax.next cursor with
    | error error => exact matches_consumed L hwhole (fun _ => ⟨_, _, rfl⟩) (fun _ => id) fun _ => rfl
    | ok finish =>
      have hget := (Bound.next_eq_ok.mp hf).2
      dsimp only
      cases c.nodeMax.slot (c.builder.len b) with
      | error error => exact matches_consumed L hwhole (fun _ => ⟨_, _, rfl⟩) (fun _ => id) fun _ => rfl
      | ok slot =>
        dsimp only
        cases lineKind marker with
        | none => exact matches_consumed L hwhole (fun _ => ⟨_, _, rfl⟩) (fun _ => id) fun _ => rfl
        | some kind =>
          refine .again ⟨hsim.left, rfl, ?_⟩ ⟨?_, ?_, ?_⟩
          · rintro _ _ ⟨⟩
            rfl
          · simp only [Mode.cursor]
            omega
          · dsimp only
            omega
          · rintro _ _ ⟨⟩
            exact Nat.le_max_right _ _

theorem matches_scanLine {kind : LineKind} {pending : Pending}
    (hsim : self.Similar (c.bytes ++ rest) other) (hfit : self.Fits c.bytes.length)
    (hm : self.mode = .line kind pending) :
    Matches L (rest = []) (c.bytes ++ rest) c.bytes.length other (L.draft b)
      (c.scanLine { self with mode := .start } b kind pending)
      ((c.roomy (c.bytes ++ rest)).scanLine { other with mode := .start } (L.draft b)
        kind pending) := by
  have hwhole : rest = [] → c.bytes = c.bytes ++ rest := fun h => by simp [h]
  have hbytes : (c.roomy (c.bytes ++ rest)).bytes = c.bytes ++ rest := rfl
  have hbyte : (c.roomy (c.bytes ++ rest)).byteMax = c.byteMax := rfl
  have hfind := hsim.find kind pending hm
  have hmode : other.mode = .line kind pending := hsim.mode ▸ hm
  have hstart : pending.start.get ≤ c.bytes.length := by simpa [hm, Mode.cursor] using hfit.cursor
  have hself : ({ self with mode := .line kind pending } : State) = self := by
    rw [← hm]
  unfold Call.scanLine
  rw [hbytes, hbyte]
  dsimp only
  rw [hself, ← hfind]
  cases hf : Line.find c.bytes pending.start self.scan kind with
  | error misplaced =>
    obtain ⟨offset, expected, actual⟩ := misplaced
    have hf' (hw : rest = []) : Line.find (c.bytes ++ rest) pending.start self.scan kind =
        .error (offset, expected, actual) := by
      rw [hw, List.append_nil, hf]
    dsimp only
    cases hn : c.byteMax.next offset with
    | ok finish =>
      refine matches_consumed L hwhole (fun hw => ?_) (fun _ => id) fun _ => rfl
      simp only [hf' hw, hn]
      exact ⟨_, _, rfl⟩
    | error error =>
      refine matches_consumed L hwhole (fun hw => ?_) (fun _ => id) fun _ => rfl
      simp only [hf' hw, hn]
      exact ⟨_, _, rfl⟩
  | ok found =>
    cases found with
    | none =>
      have hf' (hw : rest = []) :
          Line.find (c.bytes ++ rest) pending.start self.scan kind = .ok none := by
        rw [hw, List.append_nil, hf]
      have hlen (hw : rest = []) : (c.bytes ++ rest).length = c.bytes.length := by
        rw [hw, List.append_nil]
      dsimp only
      cases hk : c.byteMax.check c.bytes.length with
      | ok =>
        have hscan := hfit.scan
        refine .pending ⟨hsim.left, hmode.symm, ?_⟩ ⟨hstart, ?_, ?_⟩ rfl fun hw => ?_
        · -- the search resumes at the last byte read
          intro kind' pending' hm'
          cases hm'
          rw [← hfind]
          exact Line.find_rescan hstart (hfit.line _ _ hm) hf
        · dsimp only
          omega
        · intro kind' pending' hm'
          cases hm'
          exact le_rfl
        · simp only [hf' hw, hlen hw, hk]
          exact ⟨_, _, rfl⟩
      | error error =>
        refine matches_consumed L hwhole (fun hw => ?_) (fun _ => id) fun _ => rfl
        simp only [hf' hw, hlen hw, hk]
        exact ⟨_, _, rfl⟩
    | some found =>
      rw [Line.find_append_some hf]
      dsimp only
      cases hl : c.byteMax.line found with
      | error error =>
        exact matches_consumed L hwhole (fun _ => ⟨_, _, rfl⟩) (fun _ => id) fun _ => rfl
      | ok ends =>
        obtain ⟨finish, body⟩ := ends
        have hget := (Bound.line_eq_ok.mp hl).2.1
        have hstop := (Line.find_eq_some hf).2.1
        refine matches_scanFound L hwhole rfl hsim.left hfit.scan (by omega) ?_ ?_
        · rwa [hself]
        · rwa [hself]

theorem matches_scanBulk {finish : Body} {slot : Slot}
    (hsim : self.Similar (c.bytes ++ rest) other) (hfit : self.Fits c.bytes.length)
    (hm : self.mode = .bulk finish slot) :
    Matches L (rest = []) (c.bytes ++ rest) c.bytes.length other (L.draft b)
      (c.scanBulk { self with mode := .start } b finish slot)
      ((c.roomy (c.bytes ++ rest)).scanBulk { other with mode := .start } (L.draft b)
        finish slot) := by
  have hwhole : rest = [] → c.bytes = c.bytes ++ rest := fun h => by simp [h]
  have hbytes : (c.roomy (c.bytes ++ rest)).bytes = c.bytes ++ rest := rfl
  have hself : ({ self with mode := .bulk finish slot } : State) = self := by
    rw [← hm]
  unfold Call.scanBulk
  rw [hbytes]
  dsimp only
  rw [hself]
  cases hs : slice c.bytes finish.stop finish.get with
  | none =>
    refine .pending hsim hfit rfl fun hw => ?_
    rw [hw, List.append_nil, hs]
    exact ⟨_, _, rfl⟩
  | some tail =>
    obtain ⟨-, hlen, htail⟩ := slice_eq_some.mp hs
    obtain ⟨first, second, rfl⟩ : ∃ first second, tail = [first, second] := by
      have : tail.length = 2 := by
        rw [htail, List.length_drop, List.length_take]
        unfold Body.get at hlen ⊢
        omega
      exact List.length_eq_two.mp this
    rw [slice_append hs]
    dsimp only
    split_ifs with hbad hcr
    · exact matches_consumed L hwhole (fun _ => ⟨_, _, rfl⟩) (fun _ => id) fun _ => rfl
    · exact matches_consumed L hwhole (fun _ => ⟨_, _, rfl⟩) (fun _ => id) fun _ => rfl
    · refine matches_write L rfl (by rwa [hself]) (by rwa [hself]) fun b' hb' => ?_
      exact matches_close L hwhole hb' hsim.left hfit.scan (by rw [Body.get_end]; exact hlen)

/-- One round of a call against the round of the roomy call. -/
theorem step_matches (hsim : self.Similar (c.bytes ++ rest) other)
    (hfit : self.Fits c.bytes.length) :
    Matches L (rest = []) (c.bytes ++ rest) c.bytes.length other (L.draft b)
      (c.step self b) ((c.roomy (c.bytes ++ rest)).step other (L.draft b)) := by
  have hmode := hsim.mode
  unfold Call.step
  dsimp only
  rw [← hmode]
  cases hm : self.mode with
  | start => exact matches_scanMarker L hsim hfit
  | marker finish => exact matches_scanMarker L hsim hfit
  | line kind pending => exact matches_scanLine L hsim hfit hm
  | bulk finish slot => exact matches_scanBulk L hsim hfit hm

end Step

/-! ## A suspended parser stands on the roomy run -/

/-- From a state similar to `self`, the roomy call on `bytes` ends with `outcome`. -/
def OnRoute (c : Call β τ ε) (bytes : List UInt8) (outcome : Scan (List Kind) ε)
    (self : State) (draft : Draft) : Prop :=
  ∃ other final d, self.Similar bytes other ∧
    (c.roomy bytes).Runs other draft (outcome, final, d)

variable {c : Call β τ ε}

/-- A call on a prefix of the buffer, from a parser on the route : suspended it stays on
the route, and on the whole buffer it returns the outcome of the route. -/
theorem OnRoute.runs (L : c.builder.Lawful) {rest : List UInt8} {outcome : Scan (List Kind) ε}
    {self : State} {b : β} {r : Scan τ ε × State × β} (h : c.Runs self b r)
    (hroute : OnRoute c (c.bytes ++ rest) outcome self (L.draft b))
    (hfit : self.Fits c.bytes.length) :
    (r.1.Suspended → r.2.1.Fits c.bytes.length ∧
      OnRoute c (c.bytes ++ rest) outcome r.2.1 (L.draft r.2.2)) ∧
    (rest = [] → ¬r.1.Refused → r.1.view (L.kinds r.2.2) = outcome) := by
  induction h with
  | @ret self self' b b' scan hstep =>
    obtain ⟨other, final, d, hsim, hruns⟩ := hroute
    have hm := step_matches L (b := b) hsim hfit
    rw [hstep] at hm
    cases hm with
    | refused href hsim' hfit' hd =>
      refine ⟨fun _ => ⟨hfit', other, final, d, hsim', hd ▸ hruns⟩, fun _ hn => ?_⟩
      exact absurd href hn
    | pending hsim' hfit' hd hnext =>
      refine ⟨fun _ => ⟨hfit', other, final, d, hsim', hd ▸ hruns⟩, fun hw _ => ?_⟩
      obtain ⟨other', d', hnext⟩ := hnext hw
      exact congrArg Prod.fst ((Call.Runs.ret hnext).unique hruns)
    | done hsus hnext =>
      refine ⟨fun h => absurd h hsus, fun hw _ => ?_⟩
      obtain ⟨other', d', hnext⟩ := hnext hw
      exact congrArg Prod.fst ((Call.Runs.ret hnext).unique hruns)
  | @again self self' b b' r hstep _ ih =>
    obtain ⟨other, final, d, hsim, hruns⟩ := hroute
    have hm := step_matches L (b := b) hsim hfit
    rw [hstep] at hm
    cases hnext : (c.roomy (c.bytes ++ rest)).step other (L.draft b) with
    | ret scan other' d' =>
      rw [hnext] at hm
      cases hm
    | again other' d' =>
      rw [hnext] at hm
      cases hm with
      | again hsim' hfit' =>
        refine ih ⟨other', final, d, hsim', ?_⟩ hfit'
        cases hruns with
        | ret hs => simp [hnext] at hs
        | again hs hr =>
          rw [hnext] at hs
          cases hs
          exact hr

/-! ## Sequences of suspended calls -/

/-- The call with the same storage and bounds on the buffer `bytes`. -/
def Call.on (c : Call β τ ε) (bytes : List UInt8) : Call β τ ε :=
  { c with bytes := bytes }

/-- The parsers and builders a fresh parser gets to by suspended calls on prefixes of
the buffer, the last one of length `n`. Between two calls the storage may change in any
way that keeps the draft. -/
inductive Call.Suspends (c : Call β τ ε) (L : c.builder.Lawful) : ℕ → State → β → Prop
  | fresh {b : β} : L.draft b = .empty → Suspends c L 0 .new b
  | call {n m : ℕ} {self : State} {b : β} : Suspends c L n self b → n ≤ m →
      m ≤ c.bytes.length → ((c.on (c.bytes.take m)).scan self b).1.Suspended →
      Suspends c L m ((c.on (c.bytes.take m)).scan self b).2.1
        ((c.on (c.bytes.take m)).scan self b).2.2
  | storage {n : ℕ} {self : State} {b b' : β} : Suspends c L n self b →
      L.draft b' = L.draft b → Suspends c L n self b'

/-- The outcome of one call of a fresh parser on the whole buffer, with storage that
never refuses. -/
def Call.outcome (c : Call β τ ε) : Scan (List Kind) ε :=
  ((c.roomy c.bytes).scan .new .empty).1

theorem State.fits_new (n : ℕ) : State.new.Fits n :=
  .of_mode (Nat.zero_le _) (Nat.zero_le _) (by simp [State.new])

theorem onRoute_new : OnRoute c c.bytes c.outcome .new .empty := by
  have h := (c.roomy c.bytes).runs_scan .new .empty
  rw [Call.enter_of_le _ (Nat.zero_le _) (Nat.zero_le _)] at h
  exact ⟨.new, _, _, .refl _ _, h⟩

/-- A call on the first `m` bytes goes through its rounds as `OnRoute.runs` says. -/
theorem OnRoute.call (L : c.builder.Lawful) {n m : ℕ} {self : State} {b : β}
    (hroute : OnRoute c c.bytes c.outcome self (L.draft b)) (hfit : self.Fits n)
    (hnm : n ≤ m) (hm : m ≤ c.bytes.length) (r : Scan τ ε × State × β)
    (hr : r = (c.on (c.bytes.take m)).scan self b) :
    (r.1.Suspended → r.2.1.Fits m ∧ OnRoute c c.bytes c.outcome r.2.1 (L.draft r.2.2)) ∧
    (m = c.bytes.length → ¬r.1.Refused → r.1.view (L.kinds r.2.2) = c.outcome) := by
  have hlen : (c.on (c.bytes.take m)).bytes.length = m := List.length_take_of_le hm
  have hfit : self.Fits (c.on (c.bytes.take m)).bytes.length := by
    rw [hlen]
    exact hfit.mono hnm
  have hsplit : (c.on (c.bytes.take m)).bytes ++ c.bytes.drop m = c.bytes :=
    List.take_append_drop m c.bytes
  have hruns := (c.on (c.bytes.take m)).runs_scan self b
  rw [Call.enter_of_le _ hfit.cursor hfit.scan, ← hr] at hruns
  have hroute : OnRoute (c.on (c.bytes.take m))
      ((c.on (c.bytes.take m)).bytes ++ c.bytes.drop m) c.outcome self (L.draft b) := by
    rw [hsplit]
    exact hroute
  have h := OnRoute.runs (c := c.on (c.bytes.take m)) L hruns hroute hfit
  rw [hsplit, hlen] at h
  exact ⟨h.1, fun hw => h.2 (List.drop_eq_nil_of_le hw.ge)⟩

/-- Every suspended parser fits in the bytes it has seen and stands on the route. -/
theorem Call.Suspends.onRoute {L : c.builder.Lawful} {n : ℕ} {self : State} {b : β}
    (h : c.Suspends L n self b) :
    self.Fits n ∧ n ≤ c.bytes.length ∧ OnRoute c c.bytes c.outcome self (L.draft b) := by
  induction h with
  | fresh hd => exact ⟨State.fits_new 0, Nat.zero_le _, hd ▸ onRoute_new⟩
  | call _ hnm hm hsus ih =>
    obtain ⟨hfit, hroute⟩ := (ih.2.2.call L ih.1 hnm hm _ rfl).1 hsus
    exact ⟨hfit, hm, hroute⟩
  | storage _ hd ih => exact ⟨ih.1, ih.2.1, hd ▸ ih.2.2⟩

/-- The call on the whole buffer returns the outcome of the route. -/
theorem Call.Suspends.view_scan {L : c.builder.Lawful} {n : ℕ} {self : State} {b : β}
    (h : c.Suspends L n self b) (hr : ¬(c.scan self b).1.Refused) :
    (c.scan self b).1.view (L.kinds (c.scan self b).2.2) = c.outcome := by
  obtain ⟨hfit, hle, hroute⟩ := h.onRoute
  refine (hroute.call L hfit hle le_rfl _ ?_).2 rfl hr
  rw [List.take_length]
  rfl

/-- The outcome does not depend on how the buffer came in, nor on where storage was
refused : the call on the whole buffer, after any suspended calls on prefixes of it, is
refused again or returns what one call of a fresh parser with roomy storage returns. -/
theorem scan_resumed {L : c.builder.Lawful} {n : ℕ} {self : State} {b : β}
    (h : c.Suspends L n self b) (hr : ¬(c.scan self b).1.Refused) :
    (c.scan self b).1.view (L.kinds (c.scan self b).2.2) = c.outcome :=
  h.view_scan hr

/-- `*1\r\n+OK\r\n` with storage for one value. -/
def splitCall : Call (Draft × ℕ) (List Kind) Unit :=
  ⟨Draft.metered, .exact, ⟨64, by decide, by decide⟩, ⟨8, by decide, by decide⟩,
    [42, 49, 13, 10, 43, 79, 75, 13, 10]⟩

/-- Pending inside the header's end, then blocked at the status line, then complete. -/
theorem scan_resumed_split :
    ∃ first second, first = (splitCall.on (splitCall.bytes.take 3)).scan .new (.empty, 1) ∧
      first.1 = .pending ∧
      second = (splitCall.on (splitCall.bytes.take 9)).scan first.2.1 first.2.2 ∧
      second.1 = .blocked ∧
      (splitCall.scan second.2.1 (second.2.2.1, 4)).1.view id = splitCall.outcome ∧
      splitCall.outcome = .complete ⟨splitCall.bytes, [.array 1, .ok]⟩ 9 := by
  have hfirst : splitCall.Suspends Draft.metered_lawful 3 _ _ :=
    .call (m := 3) (.fresh (b := (Draft.empty, 1)) rfl) (by decide) (by decide) trivial
  have hsecond : splitCall.Suspends Draft.metered_lawful 9 _ _ :=
    .call (m := 9) hfirst (by decide) (by decide) trivial
  refine ⟨_, _, rfl, rfl, rfl, rfl, ?_, rfl⟩
  exact scan_resumed (b := (_, 4)) (.storage hsecond rfl) id
end Cartel.Redis.Parser
