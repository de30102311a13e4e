import Cartel.Parser.Limit

/-!
# Tape values and the builder the scanner writes to

A `Span` packs a validated byte range into one nonzero word. A `Kind` is one value of a
tape. The scanner sees its storage through four operations (`Builder`) : the number of
values pushed, a push that may be blocked or find the storage full, a reset, and the
hand-over of the finished tape. `Draft.builder` is storage that never refuses. A lawful
builder (`Builder.Lawful`) keeps the tape a draft keeps, whatever else its state holds.
-/

namespace Cartel.Redis

/-- `value::Event`. -/
inductive Event where
  | nil
  | ok
  | status (text : List UInt8)
  | integer (value : ℤ)
  | bulk (bytes : List UInt8)
  | array (len : ℕ)
  | error (text : List UInt8)
  deriving DecidableEq

namespace Parser

/-- A parser-validated byte range packed into one nonzero word. -/
structure Span where
  raw : ℕ
  pos : 0 < raw
  lt : raw < 2 ^ 64
  deriving DecidableEq

namespace Span

/-- `Span::terminated`. -/
def terminated (body : Body) : Span :=
  ⟨body.raw, by
    have := body.pos
    rw [body.raw_eq]
    omega, by
    have := body.le
    have := body.lt
    rw [body.raw_eq]
    omega⟩

/-- `Span::stored`. -/
def stored (span : Span) : UInt64 :=
  .ofNat (span.raw - 1)

/-- `Span::from_stored`. -/
def fromStored (stored : UInt64) : Span :=
  ⟨min (1 + stored.toNat) (2 ^ 64 - 1), by omega, by omega⟩

/-- `Span::parts`. -/
def parts (span : Span) : ℕ × ℕ :=
  (span.raw % 2 ^ 32, span.raw / 2 ^ 32 % 2 ^ 32)

/-- A span gives back the two positions of its body. -/
@[simp] theorem parts_terminated (body : Body) :
    (terminated body).parts = (body.start, body.stop) := by
  have := body.le
  have := body.lt
  simp only [parts, terminated, body.raw_eq, Prod.mk.injEq]
  omega

@[simp] theorem fromStored_stored (span : Span) : fromStored span.stored = span := by
  obtain ⟨raw, hpos, hlt⟩ := span
  have hnat : (UInt64.ofNat (raw - 1)).toNat = raw - 1 := by
    rw [UInt64.toNat_ofNat', Nat.mod_eq_of_lt (by omega)]
  simp only [fromStored, stored, hnat, mk.injEq]
  omega

/-- The bytes of a span in its frame. -/
def text (span : Span) (frame : List UInt8) : List UInt8 :=
  (frame.take span.parts.2).drop span.parts.1

end Span

/-- `parser::Kind` : one value of a tape. -/
inductive Kind where
  | nil
  | ok
  | status (span : Span)
  | error (span : Span)
  | integer (value : Int64)
  | bulk (span : Span)
  | array (len : UInt32)
  deriving DecidableEq

/-- The event a reader reports for a value of the frame's tape. -/
def Kind.event (frame : List UInt8) : Kind → Event
  | .nil => .nil
  | .ok => .ok
  | .status span => .status (span.text frame)
  | .error span => .error (span.text frame)
  | .integer value => .integer value.toInt
  | .bulk span => .bulk (span.text frame)
  | .array len => .array len.toNat

/-- What a push comes back with. -/
inductive Push where
  | stored
  | blocked
  | full
  deriving DecidableEq

/-- The builder operations of the scanner, on a state `β` with finished tapes `τ`. -/
structure Builder (β τ : Type) where
  len : β → ℕ
  tryPush : β → Slot → Kind → Push × β
  reset : β → β
  finish : β → τ × β

/-- An in-progress tape : its values, and the recorded length. -/
structure Draft where
  values : List Kind
  len : ℕ
  deriving DecidableEq

namespace Draft

/-- The tape of a fresh builder. -/
def empty : Draft :=
  ⟨[], 0⟩

/-- A stored value. The recorded length is the slot's number. -/
def push (draft : Draft) (slot : Slot) (value : Kind) : Draft :=
  ⟨draft.values ++ [value], slot.get⟩

/-- Storage that never blocks and never fills. -/
def builder : Builder Draft (List Kind) where
  len := Draft.len
  tryPush draft slot value := (.stored, draft.push slot value)
  reset _ := empty
  finish draft := (draft.values, empty)

end Draft

/-- A builder whose state holds a draft, changed by a stored push only as the draft is.
`kinds` reads a finished tape in the state the builder left. -/
structure Builder.Lawful {β τ : Type} (B : Builder β τ) where
  draft : β → Draft
  kinds : β → τ → List Kind
  len_eq : ∀ b, B.len b = (draft b).len
  stored : ∀ b slot value, (B.tryPush b slot value).1 = .stored →
    draft (B.tryPush b slot value).2 = (draft b).push slot value
  refused : ∀ b slot value, (B.tryPush b slot value).1 ≠ .stored →
    draft (B.tryPush b slot value).2 = draft b
  reset : ∀ b, draft (B.reset b) = .empty
  finish : ∀ b, kinds (B.finish b).2 (B.finish b).1 = (draft b).values
  finish_draft : ∀ b, draft (B.finish b).2 = .empty

namespace Draft

/-- Storage with room for some more values, that then blocks. -/
def metered : Builder (Draft × ℕ) (List Kind) where
  len b := b.1.len
  tryPush
    | (draft, 0), _, _ => (.blocked, draft, 0)
    | (draft, room + 1), slot, value => (.stored, draft.push slot value, room)
  reset b := (empty, b.2)
  finish b := (b.1.values, empty, b.2)

def metered_lawful : metered.Lawful where
  draft := Prod.fst
  kinds _ tape := tape
  len_eq _ := rfl
  stored
    | (_, 0), _, _ => by simp [metered]
    | (_, _ + 1), _, _ => fun _ => rfl
  refused
    | (_, 0), _, _ => fun _ => rfl
    | (_, _ + 1), _, _ => by simp [metered]
  reset _ := rfl
  finish _ := rfl
  finish_draft _ := rfl

end Draft

end Parser

end Cartel.Redis
