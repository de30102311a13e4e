import Cartel.Parser.Checked
import Cartel.Parser.Resume

/-!
# The spans of a finished tape

Every span a call stores is a range of its buffer followed by a CRLF (`Span.Sound`), and
every count a call reports is inside the buffer and the frame limit (`Within`). Both are
shown for the rounds of one call with storage that never refuses (`spanned_step`), where
the mode's position bounds the spans stored so far. The resumed calls end as that one.
-/

namespace Cartel.Redis.Parser

variable {β τ ε : Type}

/-! ## What is reported -/

/-- A number of bytes of the buffer that the frame limit admits. -/
structure Within (bytes : List UInt8) (limit count : ℕ) : Prop where
  pos : 1 ≤ count
  le : count ≤ bytes.length
  admitted : count ≤ limit

/-- Consumption that accepts every amount inside the buffer and the frame limit. -/
structure Source.Serves (source : Source ε) (bytes : List UInt8) (limit : ℕ) : Prop where
  consumed : ∀ amount, Within bytes limit amount →
    source.tryConsumed bytes amount = .ok amount
  taken : ∀ amount, Within bytes limit amount →
    source.tryPrefix bytes amount = .ok (bytes.take amount, amount)

theorem Source.Exact.serves {source : Source ε} {bytes : List UInt8} (h : source.Exact bytes)
    (limit : ℕ) : source.Serves bytes limit :=
  ⟨fun amount hamount => h.consumed amount hamount.le,
    fun amount hamount => h.taken amount hamount.le⟩

/-- A range of the buffer followed by a CRLF, in its first `limit` bytes. -/
structure Span.Sound (bytes : List UInt8) (limit : ℕ) (span : Span) : Prop where
  pos : 1 ≤ span.parts.1
  le : span.parts.1 ≤ span.parts.2
  cr : bytes[span.parts.2]? = some cr
  lf : bytes[span.parts.2 + 1]? = some lf
  within : span.parts.2 + 2 ≤ limit

/-- The span of a value, if it has one. -/
def Kind.span? : Kind → Option Span
  | .status span => some span
  | .error span => some span
  | .bulk span => some span
  | _ => none

/-- A value whose span is sound. -/
def Kind.Sound (bytes : List UInt8) (limit : ℕ) (kind : Kind) : Prop :=
  ∀ span ∈ kind.span?, span.Sound bytes limit

/-- The count an outcome reports. -/
def Scan.consumed? : Scan τ ε → Option ℕ
  | .complete _ consumed => some consumed
  | .invalid _ consumed => some consumed
  | .frameCapacity _ consumed => some consumed
  | .valueCapacity _ consumed => some consumed
  | _ => none

/-- An outcome with a count inside the buffer and the limit, and a tape of sound values. -/
def Scan.Reported (bytes : List UInt8) (limit : ℕ) : Scan (List Kind) ε → Prop
  | .pending | .blocked | .retainCapacity => True
  | .complete parsed consumed =>
    Within bytes limit consumed ∧ ∀ kind ∈ parsed.nodes, kind.Sound bytes consumed
  | .invalid _ consumed => Within bytes limit consumed
  | .frameCapacity _ consumed => Within bytes limit consumed
  | .valueCapacity _ consumed => Within bytes limit consumed
  | .source _ => False

/-- A tape in progress whose values are sound. -/
def Draft.Sound (bytes : List UInt8) (limit : ℕ) (draft : Draft) : Prop :=
  ∀ kind ∈ draft.values, kind.Sound bytes limit

/-- A bulk in progress is within the frame limit. -/
def State.Bounded (limit : ℕ) (self : State) : Prop :=
  ∀ finish slot, self.mode = .bulk finish slot → finish.get ≤ limit

/-- What a round leaves. -/
def Next.Spanned (bytes : List UInt8) (limit : ℕ) : Next Draft (List Kind) ε → Prop
  | .ret scan _ _ => scan.Reported bytes limit
  | .again self draft => draft.Sound bytes self.mode.cursor ∧ self.Bounded limit

theorem Span.Sound.mono {bytes : List UInt8} {limit limit' : ℕ} {span : Span}
    (h : span.Sound bytes limit) (hle : limit ≤ limit') : span.Sound bytes limit' :=
  { h with within := h.within.trans hle }

theorem Draft.Sound.mono {bytes : List UInt8} {limit limit' : ℕ} {draft : Draft}
    (h : draft.Sound bytes limit) (hle : limit ≤ limit') : draft.Sound bytes limit' :=
  fun kind hkind span hspan => (h kind hkind span hspan).mono hle

/-- The range of a body whose CRLF was read. -/
theorem Span.sound_terminated {bytes : List UInt8} {body : Body} (hcr : bytes[body.stop]? = some cr)
    (hlf : bytes[body.stop + 1]? = some lf) : (Span.terminated body).Sound bytes body.get := by
  refine ⟨?_, ?_, ?_, ?_, ?_⟩ <;> rw [Span.parts_terminated]
  · exact body.pos
  · exact body.le
  · exact hcr
  · exact hlf
  · exact le_rfl

theorem Draft.Sound.push {bytes : List UInt8} {limit : ℕ} {draft : Draft}
    (h : draft.Sound bytes limit) {value : Kind} (hvalue : value.Sound bytes limit) (slot : Slot) :
    (draft.push slot value).Sound bytes limit := by
  intro kind hkind
  rcases List.mem_append.mp hkind with hkind | hkind
  · exact h kind hkind
  · rw [List.mem_singleton.mp hkind]
    exact hvalue

/-! ## The rounds -/

section Rounds

/-- The frame limit, on a buffer that reaches it. -/
theorem within_limit {c : Call β τ ε} (h : c.byteMax.value ≤ c.bytes.length) :
    Within c.bytes c.byteMax.value c.byteMax.consumed := by
  rw [Bound.consumed_eq]
  exact ⟨c.byteMax.pos, h, le_rfl⟩

variable {c : Call β τ ε} (hserves : c.source.Serves c.bytes c.byteMax.value)
  {self : State} {draft : Draft}
include hserves

theorem reported_consumed {amount : ℕ} {build : ℕ → Scan (List Kind) ε}
    (hamount : Within c.bytes c.byteMax.value amount)
    (hbuild : (build amount).Reported c.bytes c.byteMax.value) :
    ((c.roomy c.bytes).consumed amount build).Reported c.bytes c.byteMax.value := by
  unfold Call.consumed Call.roomy
  dsimp only
  rw [hserves.consumed amount hamount]
  exact hbuild

theorem spanned_close {finish : End} (hfinish : Within c.bytes c.byteMax.value finish.get)
    (hdraft : draft.Sound c.bytes finish.get) :
    ((c.roomy c.bytes).close self draft finish).Spanned c.bytes c.byteMax.value := by
  unfold Call.close State.finishValue
  cases State.finishLeft self.left with
  | nil =>
    dsimp only [Call.complete, Call.roomy]
    rw [End.consumed_eq, hserves.taken _ hfinish]
    exact ⟨hfinish, hdraft⟩
  | cons left parents =>
    refine ⟨hdraft, ?_⟩
    intro body slot hmode
    cases hmode

/-- A stored value that ends at `finish`. -/
theorem spanned_store {slot : Slot} {value : Kind} {restore : Mode} {p : ℕ} {finish : End}
    (hfinish : Within c.bytes c.byteMax.value finish.get) (hdraft : draft.Sound c.bytes p)
    (hle : p ≤ finish.get) (hvalue : value.Sound c.bytes finish.get) :
    ((c.roomy c.bytes).write self draft slot value restore fun draft =>
      (c.roomy c.bytes).close self draft finish).Spanned c.bytes c.byteMax.value :=
  spanned_close hserves hfinish ((hdraft.mono hle).push hvalue slot)

theorem spanned_scanMarker {cursor : ℕ} (hdraft : draft.Sound c.bytes cursor) :
    ((c.roomy c.bytes).scanMarker self draft cursor).Spanned c.bytes c.byteMax.value := by
  unfold Call.scanMarker
  split
  · trivial
  · next marker hmarker =>
    have hlt : cursor < c.bytes.length := (List.getElem?_eq_some_iff.mp hmarker).1
    split
    · next error hnext =>
      have hle : c.byteMax.value ≤ cursor := Bound.le_of_next_error hnext
      have hlimit := within_limit (c := c) (by omega)
      exact reported_consumed hserves hlimit hlimit
    · next finish hnext =>
      obtain ⟨hbound, hget⟩ := Bound.next_eq_ok.mp hnext
      have hbound : cursor < c.byteMax.value := hbound
      have hfinish : Within c.bytes c.byteMax.value finish.consumed := by
        rw [End.consumed_eq]
        exact ⟨finish.pos, by omega, by omega⟩
      split
      · exact reported_consumed hserves hfinish hfinish
      · dsimp only
        split
        · exact reported_consumed hserves hfinish hfinish
        · refine ⟨hdraft.mono ?_, ?_⟩
          · dsimp only [Mode.cursor]
            omega
          · intro body slot hmode
            cases hmode

theorem spanned_openArray {pending : Pending} {finish : End} {count p : ℕ}
    (hfinish : Within c.bytes c.byteMax.value finish.get) (hdraft : draft.Sound c.bytes p)
    (hle : p ≤ finish.get) :
    ((c.roomy c.bytes).openArray self draft pending finish count).Spanned c.bytes
      c.byteMax.value := by
  have hconsumed : Within c.bytes c.byteMax.value finish.consumed := by
    rwa [End.consumed_eq]
  have hvalue (n : ℕ) : (Kind.array (.ofNat n)).Sound c.bytes finish.get := by
    intro span hspan
    cases hspan
  unfold Call.openArray
  dsimp only
  split
  · exact reported_consumed hserves hconsumed hconsumed
  · split_ifs
    · refine ⟨(hdraft.mono hle).push (hvalue _) _, ?_⟩
      intro body slot hmode
      cases hmode
    · exact reported_consumed hserves hconsumed hconsumed
    · exact spanned_store hserves hfinish hdraft hle (hvalue _)

theorem spanned_scanFound {kind : LineKind} {pending : Pending} {value : List UInt8}
    {finish : End} {body : Body} {p : ℕ} (hfinish : Within c.bytes c.byteMax.value finish.get)
    (hdraft : draft.Sound c.bytes p) (hle : p ≤ finish.get)
    (hbody : (Span.terminated body).Sound c.bytes finish.get) :
    ((c.roomy c.bytes).scanFound self draft kind pending value finish body).Spanned c.bytes
      c.byteMax.value := by
  have hconsumed : Within c.bytes c.byteMax.value finish.consumed := by
    rwa [End.consumed_eq]
  have plain {value : Kind} (hspan : value.span? = none) {restore : Mode} :
      ((c.roomy c.bytes).write self draft pending.slot value restore fun draft =>
        (c.roomy c.bytes).close self draft finish).Spanned c.bytes c.byteMax.value := by
    refine spanned_store hserves hfinish hdraft hle ?_
    intro span hmem
    rw [hspan] at hmem
    cases hmem
  have marked {value : Kind} (hspan : value.span? = some (.terminated body)) {restore : Mode} :
      ((c.roomy c.bytes).write self draft pending.slot value restore fun draft =>
        (c.roomy c.bytes).close self draft finish).Spanned c.bytes c.byteMax.value := by
    refine spanned_store hserves hfinish hdraft hle ?_
    intro span hmem
    rw [hspan] at hmem
    cases hmem
    exact hbody
  unfold Call.scanFound
  dsimp only
  cases kind with
  | status =>
    unfold Call.textValue
    dsimp only
    split_ifs
    · exact plain rfl
    · exact marked rfl
  | server => exact marked rfl
  | integer =>
    dsimp only
    split
    · exact reported_consumed hserves hconsumed hconsumed
    · exact plain rfl
  | bulk =>
    dsimp only
    split
    · exact reported_consumed hserves hconsumed hconsumed
    · exact plain rfl
    · split
      · exact reported_consumed hserves hconsumed hconsumed
      · next body hbody =>
        obtain ⟨hlimit, hstart, hstop⟩ := Bound.body_eq_ok.mp hbody
        refine ⟨?_, ?_⟩
        · dsimp only [Mode.cursor]
          rw [hstart]
          exact hdraft.mono hle
        · rintro body' slot hmode
          cases hmode
          rw [Body.get, hstop]
          exact hlimit
  | array =>
    dsimp only
    split
    · exact reported_consumed hserves hconsumed hconsumed
    · exact plain rfl
    · exact spanned_openArray hserves hfinish hdraft hle

theorem spanned_scanLine {kind : LineKind} {pending : Pending}
    (hdraft : draft.Sound c.bytes pending.start.get) :
    ((c.roomy c.bytes).scanLine self draft kind pending).Spanned c.bytes c.byteMax.value := by
  unfold Call.scanLine
  dsimp only
  split
  · split
    · trivial
    · next error hcheck =>
      have hlimit := within_limit (c := c) (Bound.lt_of_check_error hcheck).le
      exact reported_consumed hserves hlimit hlimit
  · next offset expected actual hfind =>
    have hlt : offset < c.bytes.length := Line.find_error_lt hfind
    split
    · next finish hnext =>
      obtain ⟨hbound, hget⟩ := Bound.next_eq_ok.mp hnext
      have hbound : offset < c.byteMax.value := hbound
      have hfinish : Within c.bytes c.byteMax.value finish.consumed := by
        rw [End.consumed_eq]
        exact ⟨finish.pos, by omega, by omega⟩
      exact reported_consumed hserves hfinish hfinish
    · next error hnext =>
      have hle : c.byteMax.value ≤ offset := Bound.le_of_next_error hnext
      have hlimit := within_limit (c := c) (by omega)
      exact reported_consumed hserves hlimit hlimit
  · next found hfind =>
    obtain ⟨hstart, hstop, -⟩ := Line.find_eq_some hfind
    have hstop : found.stop + 2 ≤ c.bytes.length := hstop
    split
    · next error hline =>
      have hle : c.byteMax.value ≤ found.stop + 1 := Bound.le_of_line_error hline
      have hlimit := within_limit (c := c) (by omega)
      exact reported_consumed hserves hlimit hlimit
    · next finish body hline =>
      obtain ⟨hlt, hget, hfirst, hlast⟩ := Bound.line_eq_ok.mp hline
      have hlt : found.stop + 1 < c.byteMax.value := hlt
      obtain ⟨hcr, hlf⟩ := Line.find_pair hfind
      rw [← hlast] at hcr hlf
      have hbody : (Span.terminated body).Sound c.bytes finish.get := by
        have hsound := Span.sound_terminated hcr hlf
        rwa [Body.get, hlast, ← hget] at hsound
      have hle : pending.start.get ≤ finish.get := by
        rw [hget, ← hstart]
        exact Nat.le_trans (Nat.le_add_right _ _) (Nat.le_add_right _ _)
      exact spanned_scanFound hserves ⟨finish.pos, by omega, by omega⟩ hdraft hle hbody

theorem spanned_scanBulk {finish : Body} {slot : Slot} (hdraft : draft.Sound c.bytes finish.start)
    (hbound : finish.get ≤ c.byteMax.value) :
    ((c.roomy c.bytes).scanBulk self draft finish slot).Spanned c.bytes c.byteMax.value := by
  unfold Call.scanBulk
  dsimp only
  split
  · next first second hslice =>
    obtain ⟨-, hlen, hpair⟩ := slice_eq_some.mp hslice
    have hlen : finish.get ≤ c.bytes.length := hlen
    have hwithin : Within c.bytes c.byteMax.value finish.end.get := by
      rw [Body.get_end]
      exact ⟨by unfold Body.get; omega, hlen, hbound⟩
    have hconsumed : Within c.bytes c.byteMax.value finish.consumed := by
      rwa [Body.consumed, End.consumed_eq]
    split_ifs with hne
    · exact reported_consumed hserves hconsumed hconsumed
    · exact reported_consumed hserves hconsumed hconsumed
    · simp only [ne_eq, not_or, not_not] at hne
      obtain ⟨rfl, rfl⟩ := hne
      have hsound := Span.sound_terminated (getElem?_of_slice hslice).1 (getElem?_of_slice hslice).2
      have hle : finish.start ≤ finish.end.get := by
        have := finish.le
        rw [Body.get_end]
        unfold Body.get
        omega
      refine spanned_store hserves hwithin hdraft hle ?_
      intro span hspan
      cases hspan
      rw [Body.get_end]
      exact hsound
  · trivial

/-- One round. -/
theorem spanned_step (hdraft : draft.Sound c.bytes self.mode.cursor)
    (hself : self.Bounded c.byteMax.value) :
    ((c.roomy c.bytes).step self draft).Spanned c.bytes c.byteMax.value := by
  unfold Call.step
  dsimp only
  split
  · next hm =>
    rw [hm] at hdraft
    exact spanned_scanMarker hserves hdraft
  · next hm =>
    rw [hm] at hdraft
    exact spanned_scanMarker hserves hdraft
  · next hm =>
    rw [hm] at hdraft
    exact spanned_scanLine hserves hdraft
  · next hm =>
    rw [hm] at hdraft
    exact spanned_scanBulk hserves hdraft (hself _ _ hm)

theorem spanned_runs {r : Scan (List Kind) ε × State × Draft}
    (h : (c.roomy c.bytes).Runs self draft r) (hdraft : draft.Sound c.bytes self.mode.cursor)
    (hself : self.Bounded c.byteMax.value) : r.1.Reported c.bytes c.byteMax.value := by
  induction h with
  | ret hstep =>
    have hspanned := spanned_step hserves hdraft hself
    rw [hstep] at hspanned
    exact hspanned
  | again hstep _ ih =>
    have hspanned := spanned_step hserves hdraft hself
    rw [hstep] at hspanned
    exact ih hspanned.1 hspanned.2

/-- The outcome of a fresh parser's call. -/
theorem outcome_reported : c.outcome.Reported c.bytes c.byteMax.value := by
  have hruns := (c.roomy c.bytes).runs_scan .new .empty
  rw [Call.enter_of_le _ (Nat.zero_le _) (Nat.zero_le _)] at hruns
  refine spanned_runs hserves hruns ?_ ?_
  · intro kind hkind
    cases hkind
  · intro body slot hmode
    cases hmode

end Rounds

/-! ## Resumed calls -/

section Resumed

variable {c : Call β τ ε} {L : c.builder.Lawful} {n : ℕ} {self : State} {b : β}

/-- The slot of a suspended parser's pending value is the one of the builder's next value. -/
theorem Call.Suspends.sized (h : c.Suspends L n self b) :
    self.Sized c.builder c.nodeMax.value b ∧ c.builder.len b < 2 ^ 32 := by
  induction h with
  | @fresh b hd =>
    refine ⟨trivial, ?_⟩
    rw [L.len_eq, hd]
    exact Nat.two_pow_pos 32
  | @call n m self b _ _ _ _ ih =>
    have hreset : c.builder.len (c.builder.reset b) < 2 ^ 32 := by
      rw [L.len_eq, L.reset]
      exact Nat.two_pow_pos 32
    exact (Call.scan_keeps (c := c.on (c.bytes.take m)) (L.keeps c.nodeMax.value) hreset ih.2
      ih.1).2
  | @storage n self b b' _ hd ih =>
    have hlen : c.builder.len b' = c.builder.len b := by
      rw [L.len_eq, hd, ← L.len_eq]
    exact ⟨ih.1.congr hlen, hlen ▸ ih.2⟩

/-- The call on the whole buffer reports what the fresh parser's call reports. -/
theorem Call.Suspends.reported (h : c.Suspends L n self b)
    (hserves : c.source.Serves c.bytes c.byteMax.value) :
    ((c.scan self b).1.view (L.kinds (c.scan self b).2.2)).Reported c.bytes c.byteMax.value := by
  by_cases hr : (c.scan self b).1.Refused
  · cases hscan : (c.scan self b).1 <;> rw [hscan] at hr <;> first | trivial | cases hr
  · rw [h.view_scan hr]
    exact outcome_reported hserves

/-- The spans of a complete tape are ranges of the buffer ended by a CRLF, storing a span
keeps it, no position, length or limit leaves its type, and what is consumed lies in the
buffer and the frame limit. -/
theorem spans_sound (h : c.Suspends L n self b) (hbytes : c.bytes.length < 2 ^ 64)
    (hserves : c.source.Serves c.bytes c.byteMax.value) :
    (∀ parsed consumed, (c.scan self b).1 = .complete parsed consumed →
        ∀ kind ∈ L.kinds (c.scan self b).2.2 parsed.nodes, ∀ span ∈ kind.span?,
          span.Sound c.bytes consumed) ∧
      (∀ span : Span, Span.fromStored span.stored = span) ∧
      c.scan? self b = some (c.scan self b) ∧
      (¬(c.scan self b).1.Suspended → ∃ consumed,
        (c.scan self b).1.consumed? = some consumed ∧
          Within c.bytes c.byteMax.value consumed) := by
  have hreported := h.reported hserves
  obtain ⟨hself, hlen⟩ := h.sized
  refine ⟨?_, Span.fromStored_stored, Call.scan?_eq L hbytes hself hlen, ?_⟩
  · intro parsed consumed hscan kind hkind
    rw [hscan] at hreported
    exact hreported.2 kind hkind
  · intro hdone
    cases hscan : (c.scan self b).1 with
    | pending => exact absurd (by rw [hscan]; trivial) hdone
    | blocked => exact absurd (by rw [hscan]; trivial) hdone
    | retainCapacity => exact absurd (by rw [hscan]; trivial) hdone
    | complete parsed consumed =>
      rw [hscan] at hreported
      exact ⟨consumed, rfl, hreported.1⟩
    | invalid error consumed =>
      rw [hscan] at hreported
      exact ⟨consumed, rfl, hreported⟩
    | frameCapacity error consumed =>
      rw [hscan] at hreported
      exact ⟨consumed, rfl, hreported⟩
    | valueCapacity error consumed =>
      rw [hscan] at hreported
      exact ⟨consumed, rfl, hreported⟩
    | source cause =>
      rw [hscan] at hreported
      exact absurd hreported id

end Resumed

/-- `$2\r\nhi\r\n`. -/
def bulkCall : Call (Draft × ℕ) (List Kind) Unit :=
  splitCall.on [36, 50, 13, 10, 104, 105, 13, 10]

/-- The first five bytes, then all : the range is `4 .. 6` of the eight bytes consumed. -/
theorem spans_sound_bulk :
    ∃ half span, half = (bulkCall.on (bulkCall.bytes.take 5)).scan .new (.empty, 1) ∧
      half.1 = .pending ∧
      (bulkCall.scan half.2.1 half.2.2).1 = .complete ⟨bulkCall.bytes, [.bulk span]⟩ 8 ∧
      span.parts = (4, 6) ∧ span.Sound bulkCall.bytes 8 ∧
      bulkCall.scan? half.2.1 half.2.2 = some (bulkCall.scan half.2.1 half.2.2) := by
  have hhalf : bulkCall.Suspends Draft.metered_lawful 5 _ _ :=
    .call (m := 5) (.fresh (b := (Draft.empty, 1)) rfl) (by decide) (by decide) trivial
  have hsound := spans_sound hhalf (by decide) ((Source.exact_spec _).serves _)
  obtain ⟨hspans, -, hchecked, -⟩ := hsound
  refine ⟨_, .terminated ⟨4, 6, by decide, by decide, by decide⟩, rfl, rfl, rfl, ?_, ?_, hchecked⟩
  · exact Span.parts_terminated _
  · exact hspans _ 8 rfl _ (List.mem_singleton_self _) _ rfl

end Cartel.Redis.Parser
