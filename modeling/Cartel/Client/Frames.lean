import Cartel.Parser.Accept
import Cartel.Parser.Resume

/-!
# The scanner between frames

A connection scans its bytes as they come in, frame after frame. A scanner that has stopped in the
middle of a frame goes on with more bytes (`Suspends.append`), and one that has completed a frame
is fresh (`scan_fresh`). The frame is then a value of the grammar, and its first event tells a
status OK from every other value (`frame_ok`).
-/

namespace Cartel.Redis.Parser

variable {β τ ε : Type} {c : Call β τ ε}

/-! ## Fresh scanners -/

/-- After a completed frame the scanner is fresh. -/
def Next.Fresh {B : Builder β τ} (L : B.Lawful) : Next β τ ε → Prop
  | .ret (.complete _ _) self b => self = .new ∧ L.draft b = .empty
  | _ => True

section Fresh

variable (L : c.builder.Lawful) {self : State} {b : β}

theorem fresh_consumed {amount : ℕ} {build : ℕ → Scan τ ε}
    (h : ∀ count, Next.Fresh L (.ret (build count) self b)) :
    Next.Fresh L (.ret (c.consumed amount build) self b) := by
  unfold Call.consumed
  split
  · exact h _
  · trivial

theorem fresh_write {slot : Slot} {value : Kind} {restore : Mode} {stored : β → Next β τ ε}
    (h : ∀ b, Next.Fresh L (stored b)) : Next.Fresh L (c.write self b slot value restore stored) := by
  unfold Call.write
  split
  · exact h _
  · trivial
  · trivial

theorem fresh_close (finish : End) : Next.Fresh L (c.close self b finish) := by
  unfold Call.close
  split
  · unfold Call.complete
    split
    · trivial
    · exact ⟨rfl, L.finish_draft b⟩
  · trivial

theorem fresh_openArray {pending : Pending} {finish : End} {count : ℕ} :
    Next.Fresh L (c.openArray self b pending finish count) := by
  unfold Call.openArray
  dsimp only
  split
  · exact fresh_consumed L fun _ => trivial
  · split_ifs
    · exact fresh_write L fun _ => trivial
    · exact fresh_consumed L fun _ => trivial
    · exact fresh_write L fun _ => fresh_close L finish

theorem fresh_scanFound {kind : LineKind} {pending : Pending} {value : List UInt8} {finish : End}
    {body : Body} : Next.Fresh L (c.scanFound self b kind pending value finish body) := by
  unfold Call.scanFound
  dsimp only
  cases kind with
  | status => exact fresh_write L fun _ => fresh_close L finish
  | server => exact fresh_write L fun _ => fresh_close L finish
  | integer =>
    dsimp only
    split
    · exact fresh_consumed L fun _ => trivial
    · exact fresh_write L fun _ => fresh_close L finish
  | bulk =>
    dsimp only
    split
    · exact fresh_consumed L fun _ => trivial
    · exact fresh_write L fun _ => fresh_close L finish
    · split
      · exact fresh_consumed L fun _ => trivial
      · trivial
  | array =>
    dsimp only
    split
    · exact fresh_consumed L fun _ => trivial
    · exact fresh_write L fun _ => fresh_close L finish
    · exact fresh_openArray L

theorem fresh_step : Next.Fresh L (c.step self b) := by
  unfold Call.step
  dsimp only
  have hmarker : ∀ cursor, Next.Fresh L (c.scanMarker self b cursor) := by
    intro cursor
    unfold Call.scanMarker
    split
    · trivial
    · split
      · exact fresh_consumed L fun _ => trivial
      · split
        · exact fresh_consumed L fun _ => trivial
        · dsimp only
          split
          · exact fresh_consumed L fun _ => trivial
          · trivial
  split
  · exact hmarker 0
  · exact hmarker _
  · unfold Call.scanLine
    dsimp only
    split
    · split
      · trivial
      · exact fresh_consumed L fun _ => trivial
    · split
      · exact fresh_consumed L fun _ => trivial
      · exact fresh_consumed L fun _ => trivial
    · split
      · exact fresh_consumed L fun _ => trivial
      · exact fresh_scanFound L
  · unfold Call.scanBulk
    dsimp only
    split
    · split_ifs
      · exact fresh_consumed L fun _ => trivial
      · exact fresh_consumed L fun _ => trivial
      · exact fresh_write L fun _ => fresh_close L _
    · trivial

theorem fresh_runs {r : Scan τ ε × State × β} (h : c.Runs self b r) :
    Next.Fresh L (.ret r.1 r.2.1 r.2.2) := by
  induction h with
  | @ret self _ b _ _ hs =>
    have hfresh : Next.Fresh L (c.step self b) := fresh_step L
    rw [hs] at hfresh
    exact hfresh
  | again _ _ ih => exact ih

/-- A call that completes a frame leaves a fresh scanner. -/
theorem scan_fresh {parsed : Parsed τ} {count : ℕ} {self' : State} {b' : β}
    (h : c.scan self b = (.complete parsed count, self', b')) :
    self' = .new ∧ L.draft b' = .empty := by
  have hfresh := fresh_runs L (c.runs_scan self b)
  rw [h] at hfresh
  exact hfresh

end Fresh

/-! ## Scanners that stopped -/

/-- A scanner that stopped goes on when more bytes come in. -/
theorem Call.Suspends.append {bytes more : List UInt8} {L : c.builder.Lawful} {n : ℕ}
    {self : State} {b : β} (h : (c.on bytes).Suspends L n self b) :
    (c.on (bytes ++ more)).Suspends L n self b := by
  induction h with
  | fresh hdraft => exact .fresh hdraft
  | @call n m self b _ hnm hm hsus ih =>
    replace hm : m ≤ bytes.length := hm
    have htake : (bytes ++ more).take m = bytes.take m := List.take_append_of_le_length hm
    have hle : m ≤ (bytes ++ more).length := by
      rw [List.length_append]
      omega
    have hcall : (c.on (bytes ++ more)).on ((bytes ++ more).take m) =
        (c.on bytes).on (bytes.take m) := by
      rw [htake]
      rfl
    have hnext := ih.call hnm hle (by
      change (((c.on (bytes ++ more)).on ((bytes ++ more).take m)).scan self b).1.Suspended
      rw [hcall]
      exact hsus)
    change (c.on (bytes ++ more)).Suspends L m
      (((c.on (bytes ++ more)).on ((bytes ++ more).take m)).scan self b).2.1
      (((c.on (bytes ++ more)).on ((bytes ++ more).take m)).scan self b).2.2 at hnext
    rw [hcall] at hnext
    exact hnext
  | storage _ hdraft ih => exact ih.storage hdraft

/-- A scanner that stops on all bytes it has can go on from there. -/
theorem Call.Suspends.stop {bytes : List UInt8} {L : c.builder.Lawful} {n : ℕ} {self : State}
    {b : β} (h : (c.on bytes).Suspends L n self b)
    (hsus : ((c.on bytes).scan self b).1.Suspended) :
    (c.on bytes).Suspends L bytes.length ((c.on bytes).scan self b).2.1
      ((c.on bytes).scan self b).2.2 := by
  have hnext := h.call h.onRoute.2.1 le_rfl (by
    change ((c.on (bytes.take bytes.length)).scan _ _).1.Suspended
    rw [List.take_length]
    exact hsus)
  change (c.on bytes).Suspends L bytes.length ((c.on (bytes.take bytes.length)).scan _ _).2.1
    ((c.on (bytes.take bytes.length)).scan _ _).2.2 at hnext
  rw [List.take_length] at hnext
  exact hnext

/-! ## Status OK -/

/-- `+OK\r\n`. -/
def okBytes : List UInt8 :=
  [43, 79, 75, 13, 10]

/-- The first event of a value is OK exactly if the value is. -/
theorem listing_head (value : Reply) (h : value.listing.head? = some .ok) : value = .ok := by
  cases value with
  | ok => rfl
  | _ =>
    rw [Reply.listing] at h
    cases h

/-- A frame is a piece of the bytes. When its first event is OK it is a status OK. -/
theorem frame_ok {bytes : List UInt8} {L : c.builder.Lawful} {n : ℕ} {self self' : State}
    {b b' : β} {parsed : Parsed τ} {count : ℕ} (hsource : c.source.Exact bytes)
    (h : (c.on bytes).Suspends L n self b)
    (hscan : (c.on bytes).scan self b = (.complete parsed count, self', b')) :
    0 < count ∧ count ≤ bytes.length ∧
      (((L.kinds b' parsed.nodes).map (Kind.event parsed.frame)).head? = some .ok →
        bytes.take count = okBytes) := by
  have hview := h.view_scan (by
    rw [hscan]
    exact id)
  rw [hscan] at hview
  have hout : (c.on bytes).outcome = .complete ⟨parsed.frame, L.kinds b' parsed.nodes⟩ count :=
    hview.symm
  obtain ⟨value, haccepts⟩ := accepts_of_outcome (c := c.on bytes) hsource hout
  obtain ⟨kinds, hkinds, hlisting⟩ := outcome_of_accepts (c := c.on bytes) hsource haccepts
  rw [hout] at hkinds
  obtain ⟨hparsed, -⟩ := Scan.complete.inj hkinds
  obtain ⟨hframe, hnodes⟩ := Parsed.mk.inj hparsed
  refine ⟨?_, haccepts.length, fun hhead => ?_⟩
  · rcases Nat.eq_zero_or_pos count with rfl | hpos
    · have hcode : value.Encodes [] := haccepts.code
      cases hcode
    · exact hpos
  · rw [hframe, hnodes, hlisting] at hhead
    have hcode : value.Encodes (bytes.take count) := haccepts.code
    rw [listing_head value hhead] at hcode
    generalize bytes.take count = code at hcode
    cases hcode
    rfl

/-- The scanner waits for the first byte of a frame. -/
theorem outcome_nil (c : Call β τ ε) : (c.on []).outcome = .pending :=
  rfl

end Cartel.Redis.Parser
