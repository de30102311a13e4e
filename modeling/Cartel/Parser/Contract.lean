import Cartel.Parser.State

/-!
# What the scanner asks of its storage

Every push of a call has the slot after the values pushed so far, within the call's value
limit. A parser keeps the slot of its pending value over a suspended call (`State.Sized`),
so this holds over any number of calls. What a builder keeps under such pushes
(`Builder.Keeps`) it keeps over the call, and the call reports a refusal only when a push
was refused so (`Call.scan_keeps`).
-/

namespace Cartel.Redis.Parser

variable {β τ ε : Type}

/-- The slot of the builder's next value, within the limit. -/
def Builder.Numbered (B : Builder β τ) (limit : ℕ) (b : β) (slot : Slot) : Prop :=
  slot.get = B.len b + 1 ∧ slot.get ≤ limit

/-- A builder that keeps `I` under the pushes of numbered slots, answered as `P` says. A
stored value may be the last of its tape, and `J` holds when the tape is handed over. -/
structure Builder.Keeps (B : Builder β τ) (limit : ℕ) (P : Push → Prop) (I J : β → Prop) :
    Prop where
  answer : ∀ {b slot} (value : Kind), I b → B.Numbered limit b slot →
    P (B.tryPush b slot value).1
  push : ∀ {b slot} (value : Kind), I b → B.Numbered limit b slot → I (B.tryPush b slot value).2
  refused : ∀ (b slot) (value : Kind), (B.tryPush b slot value).1 ≠ .stored →
    B.len (B.tryPush b slot value).2 = B.len b
  weaken : ∀ {b}, I b → J b
  finish : ∀ {b slot} (value : Kind), I b → B.Numbered limit b slot →
    (B.tryPush b slot value).1 = .stored → J (B.finish (B.tryPush b slot value).2).2

/-- The slot of a pending value is the one of the builder's next value. -/
def State.Sized (B : Builder β τ) (limit : ℕ) (self : State) (b : β) : Prop :=
  match self.mode with
  | .start => True
  | .marker _ => True
  | .line _ pending => B.Numbered limit b pending.slot
  | .bulk _ slot => B.Numbered limit b slot

theorem State.Sized.congr {B : Builder β τ} {limit : ℕ} {self : State} {b b' : β}
    (h : self.Sized B limit b) (hlen : B.len b' = B.len b) : self.Sized B limit b' := by
  unfold State.Sized Builder.Numbered at h ⊢
  rw [hlen]
  exact h

/-- A refusal comes from a push refused so. -/
def Scan.Answers (P : Push → Prop) : Scan τ ε → Prop
  | .blocked => P .blocked
  | .retainCapacity => P .full
  | _ => True

section Rounds

variable {c : Call β τ ε} {P : Push → Prop} {I J : β → Prop} {self : State} {b : β}

/-- What a round leaves : an answer, a sized parser, and the invariant. -/
def Call.Kept (c : Call β τ ε) (P : Push → Prop) (I J : β → Prop) : Next β τ ε → Prop
  | .ret scan self b => scan.Answers P ∧ self.Sized c.builder c.nodeMax.value b ∧ J b
  | .again self b => self.Sized c.builder c.nodeMax.value b ∧ I b

theorem answers_consumed {amount : ℕ} {build : ℕ → Scan τ ε}
    (h : ∀ count, (build count).Answers P) : (c.consumed amount build).Answers P := by
  unfold Call.consumed
  split
  · exact h _
  · trivial

theorem kept_close (finish : End) (hm : self.mode = .start) (hI : I b)
    (hJ : J b) (hfin : J (c.builder.finish b).2) : c.Kept P I J (c.close self b finish) := by
  unfold Call.close State.finishValue
  split
  · next self' heq =>
    split at heq
    · obtain ⟨-, rfl⟩ := Prod.mk.inj heq
      unfold Call.complete
      split
      · refine ⟨trivial, ?_, hJ⟩
        unfold State.Sized
        dsimp only
        rw [hm]
        trivial
      · exact ⟨trivial, trivial, hfin⟩
    · cases heq
  · next self' heq =>
    split at heq
    · cases heq
    · obtain ⟨-, rfl⟩ := Prod.mk.inj heq
      exact ⟨trivial, hI⟩

theorem kept_scanMarker {cursor : ℕ} (hI : I b) (hJ : J b)
    (hself : self.Sized c.builder c.nodeMax.value b) :
    c.Kept P I J (c.scanMarker self b cursor) := by
  unfold Call.scanMarker
  split
  · exact ⟨trivial, hself, hJ⟩
  · split
    · exact ⟨answers_consumed fun _ => trivial, hself, hJ⟩
    · split
      · exact ⟨answers_consumed fun _ => trivial, hself, hJ⟩
      · next slot hslot =>
        obtain ⟨hlt, hget⟩ := Bound.slot_eq_ok.mp hslot
        have hle : slot.get ≤ c.nodeMax.value := by omega
        dsimp only
        split
        · exact ⟨answers_consumed fun _ => trivial, trivial, hJ⟩
        · exact ⟨⟨hget, hle⟩, hI⟩

variable (K : c.builder.Keeps c.nodeMax.value P I J)
include K

/-- A push, with the code after it and the mode restored when it is refused. -/
theorem kept_write {slot : Slot} {value : Kind} {restore : Mode} {stored : β → Next β τ ε}
    (hI : I b) (hslot : c.builder.Numbered c.nodeMax.value b slot)
    (hrestore : ∀ b', c.builder.Numbered c.nodeMax.value b' slot →
      State.Sized c.builder c.nodeMax.value { self with mode := restore } b')
    (hstored : ∀ b', I b' → J (c.builder.finish b').2 → c.Kept P I J (stored b')) :
    c.Kept P I J (c.write self b slot value restore stored) := by
  have hanswer := K.answer value hI hslot
  have hpush := K.push value hI hslot
  unfold Call.write
  split
  · next b' heq =>
    have hfin := K.finish value hI hslot (by rw [heq])
    rw [heq] at hpush hfin
    exact hstored b' hpush hfin
  · next b' heq =>
    have hlen := K.refused b slot value (by simp [heq])
    rw [heq] at hanswer hpush hlen
    refine ⟨hanswer, hrestore b' ?_, K.weaken hpush⟩
    unfold Builder.Numbered
    rw [hlen]
    exact hslot
  · next b' heq =>
    have hlen := K.refused b slot value (by simp [heq])
    rw [heq] at hanswer hpush hlen
    refine ⟨hanswer, hrestore b' ?_, K.weaken hpush⟩
    unfold Builder.Numbered
    rw [hlen]
    exact hslot

theorem kept_openArray {pending : Pending} {finish : End} {count : ℕ} (hm : self.mode = .start)
    (hI : I b) (hslot : c.builder.Numbered c.nodeMax.value b pending.slot) :
    c.Kept P I J (c.openArray self b pending finish count) := by
  unfold Call.openArray
  dsimp only
  split
  · exact ⟨answers_consumed fun _ => trivial, hslot, K.weaken hI⟩
  · split_ifs
    · exact kept_write K hI hslot (fun _ hslot => hslot) fun b' hI' _ => ⟨trivial, hI'⟩
    · exact ⟨answers_consumed fun _ => trivial, hslot, K.weaken hI⟩
    · exact kept_write K hI hslot (fun _ hslot => hslot) fun b' hI' hfin =>
        kept_close finish hm hI' (K.weaken hI') hfin

theorem kept_scanFound {kind : LineKind} {pending : Pending} {value : List UInt8}
    {finish : End} {body : Body} (hm : self.mode = .start) (hI : I b)
    (hslot : c.builder.Numbered c.nodeMax.value b pending.slot) :
    c.Kept P I J (c.scanFound self b kind pending value finish body) := by
  have store (value : Kind) : c.Kept P I J (c.write self b pending.slot value (.line kind pending)
      fun b => c.close self b finish) :=
    kept_write K hI hslot (fun _ hslot => hslot) fun b' hI' hfin => kept_close finish hm hI' (K.weaken hI') hfin
  unfold Call.scanFound
  dsimp only
  split
  · exact store _
  · exact store _
  · split
    · exact ⟨answers_consumed fun _ => trivial, hslot, K.weaken hI⟩
    · exact store _
  · split
    · exact ⟨answers_consumed fun _ => trivial, hslot, K.weaken hI⟩
    · exact store _
    · split
      · exact ⟨answers_consumed fun _ => trivial, hslot, K.weaken hI⟩
      · exact ⟨hslot, hI⟩
  · split
    · exact ⟨answers_consumed fun _ => trivial, hslot, K.weaken hI⟩
    · exact store _
    · exact kept_openArray K hm hI hslot

theorem kept_scanLine {kind : LineKind} {pending : Pending} (hm : self.mode = .start) (hI : I b)
    (hslot : c.builder.Numbered c.nodeMax.value b pending.slot) :
    c.Kept P I J (c.scanLine self b kind pending) := by
  unfold Call.scanLine
  dsimp only
  split
  · split
    · exact ⟨trivial, hslot, K.weaken hI⟩
    · exact ⟨answers_consumed fun _ => trivial, hslot, K.weaken hI⟩
  · split
    · exact ⟨answers_consumed fun _ => trivial, hslot, K.weaken hI⟩
    · exact ⟨answers_consumed fun _ => trivial, hslot, K.weaken hI⟩
  · split
    · exact ⟨answers_consumed fun _ => trivial, hslot, K.weaken hI⟩
    · exact kept_scanFound K hm hI hslot

theorem kept_scanBulk {finish : Body} {slot : Slot} (hm : self.mode = .start) (hI : I b)
    (hslot : c.builder.Numbered c.nodeMax.value b slot) :
    c.Kept P I J (c.scanBulk self b finish slot) := by
  unfold Call.scanBulk
  dsimp only
  split
  · split_ifs
    · exact ⟨answers_consumed fun _ => trivial, hslot, K.weaken hI⟩
    · exact ⟨answers_consumed fun _ => trivial, hslot, K.weaken hI⟩
    · refine kept_write K hI hslot ?_ fun b' hI' hfin => kept_close finish.end hm hI' (K.weaken hI') hfin
      exact fun _ hslot => hslot
  · exact ⟨trivial, hslot, K.weaken hI⟩

/-- One round. -/
theorem kept_step (hI : I b) (hself : self.Sized c.builder c.nodeMax.value b) :
    c.Kept P I J (c.step self b) := by
  unfold Call.step
  unfold State.Sized at hself
  split
  · next hm =>
    refine kept_scanMarker hI (K.weaken hI) ?_
    unfold State.Sized
    rw [hm]
    trivial
  · next hm =>
    refine kept_scanMarker hI (K.weaken hI) ?_
    unfold State.Sized
    rw [hm]
    trivial
  · next hm =>
    rw [hm] at hself
    exact kept_scanLine K rfl hI hself
  · next hm =>
    rw [hm] at hself
    exact kept_scanBulk K rfl hI hself

theorem kept_runs {r : Scan τ ε × State × β} (h : c.Runs self b r) (hI : I b)
    (hself : self.Sized c.builder c.nodeMax.value b) :
    r.1.Answers P ∧ r.2.1.Sized c.builder c.nodeMax.value r.2.2 ∧ J r.2.2 := by
  induction h with
  | ret hs =>
    have hkept := kept_step K hI hself
    rw [hs] at hkept
    exact hkept
  | again hs _ ih =>
    have hkept := kept_step K hI hself
    rw [hs] at hkept
    exact ih hkept.2 hkept.1

/-- A call leaves what the builder keeps and a sized parser, and reports a refusal only
when a push was refused so. -/
theorem Call.scan_keeps (hreset : I (c.builder.reset b)) (hI : I b)
    (hself : self.Sized c.builder c.nodeMax.value b) :
    (c.scan self b).1.Answers P ∧
      (c.scan self b).2.1.Sized c.builder c.nodeMax.value (c.scan self b).2.2 ∧
      J (c.scan self b).2.2 := by
  have hruns := c.runs_scan self b
  unfold Call.enter at hruns
  split_ifs at hruns
  · exact kept_runs K hruns hreset trivial
  · exact kept_runs K hruns hI hself

end Rounds

end Cartel.Redis.Parser
