import Cartel.Parser.Line
import Cartel.Parser.Number
import Cartel.Parser.Tape

/-!
# RESP2 values and their encodings

`Reply.Encodes` is the grammar : which bytes are one RESP2 value. It knows nothing of
the scanner. A value has its listing, the events of its nodes in pre-order, its number of
nodes, and its depth, the largest number of nonempty arrays open at one time.

`Owed` describes what is still missing inside open arrays. The innermost array misses
`left` values, every other one `left` with the array inside it among them, so after the
value being read come `left - 1` values of each.
-/

namespace Cartel.Redis

open Cartel.Redis.Parser

/-- One RESP2 value. -/
inductive Reply where
  | ok
  | status (text : List UInt8)
  | error (text : List UInt8)
  | integer (value : ℤ)
  | nil
  | bulk (bytes : List UInt8)
  | array (items : List Reply)

namespace Reply

/-- A header line : marker, text and CRLF. -/
def line (marker : UInt8) (text : List UInt8) : List UInt8 :=
  marker :: (text ++ [cr, lf])

mutual

/-- The bytes of one value. -/
inductive Encodes : Reply → List UInt8 → Prop
  | ok : Encodes .ok (line 43 [79, 75])
  | status {text : List UInt8} : Plain text → text ≠ [79, 75] →
      Encodes (.status text) (line 43 text)
  | error {text : List UInt8} : Plain text → Encodes (.error text) (line 45 text)
  | integer {text : List UInt8} {value : ℤ} : IsInteger text value → -2 ^ 63 ≤ value →
      value < 2 ^ 63 → Encodes (.integer value) (line 58 text)
  | bulkNil {text : List UInt8} : IsLength text .nil → Encodes .nil (line 36 text)
  | bulk {text bytes : List UInt8} : IsLength text (.count bytes.length) →
      Encodes (.bulk bytes) (line 36 text ++ (bytes ++ [cr, lf]))
  | arrayNil {text : List UInt8} : IsLength text .nil → Encodes .nil (line 42 text)
  | array {text body : List UInt8} {items : List Reply} :
      IsLength text (.count items.length) → EncodesAll items body →
      Encodes (.array items) (line 42 text ++ body)

/-- The bytes of values one after the other. -/
inductive EncodesAll : List Reply → List UInt8 → Prop
  | nil : EncodesAll [] []
  | cons {value : Reply} {values : List Reply} {first rest : List UInt8} :
      Encodes value first → EncodesAll values rest →
      EncodesAll (value :: values) (first ++ rest)

end

mutual

/-- The events of a value, in pre-order. -/
def listing : Reply → List Event
  | .ok => [.ok]
  | .status text => [.status text]
  | .error text => [.error text]
  | .integer value => [.integer value]
  | .nil => [.nil]
  | .bulk bytes => [.bulk bytes]
  | .array items => .array items.length :: listingAll items

def listingAll : List Reply → List Event
  | [] => []
  | value :: values => listing value ++ listingAll values

end

mutual

/-- The number of nodes of a value. -/
def nodes : Reply → ℕ
  | .array items => 1 + nodesAll items
  | _ => 1

def nodesAll : List Reply → ℕ
  | [] => 0
  | value :: values => nodes value + nodesAll values

end

mutual

/-- The largest number of nonempty arrays of a value open at one time. -/
def depth : Reply → ℕ
  | .array items => depthAll items
  | _ => 0

/-- The depth of an array of these values. -/
def depthAll : List Reply → ℕ
  | [] => 0
  | value :: values => max (depth value + 1) (depthAll values)

end

theorem nodesAll_append (first rest : List Reply) :
    nodesAll (first ++ rest) = nodesAll first + nodesAll rest := by
  induction first with
  | nil => simp [nodesAll]
  | cons value values ih => rw [List.cons_append, nodesAll, nodesAll, ih, Nat.add_assoc]

/-- The bytes of values split where the values do. -/
theorem EncodesAll.split : ∀ {first rest : List Reply} {code : List UInt8},
    EncodesAll (first ++ rest) code → ∃ front back, code = front ++ back ∧
      EncodesAll first front ∧ EncodesAll rest back
  | [], _, code, h => ⟨[], code, rfl, .nil, h⟩
  | _ :: _, _, _, @cons _ _ head _ hvalue htail => by
    obtain ⟨front, back, rfl, hfirst, hrest⟩ := htail.split
    exact ⟨head ++ front, back, (List.append_assoc ..).symm, .cons hvalue hfirst, hrest⟩

mutual

theorem length_listing : ∀ value : Reply, (listing value).length = nodes value
  | .ok | .status _ | .error _ | .integer _ | .nil | .bulk _ => rfl
  | .array items => by
    rw [listing, nodes, List.length_cons, length_listingAll items, Nat.add_comm]

theorem length_listingAll : ∀ values : List Reply, (listingAll values).length = nodesAll values
  | [] => rfl
  | value :: values => by
    rw [listingAll, nodesAll, List.length_append, length_listing value, length_listingAll values]

end

theorem nodes_pos (value : Reply) : 0 < value.nodes := by
  cases value <;> simp [nodes]

theorem length_le_nodesAll (values : List Reply) : values.length ≤ nodesAll values := by
  induction values with
  | nil => exact le_rfl
  | cons value values ih =>
    have := nodes_pos value
    rw [nodesAll, List.length_cons]
    omega

theorem depthAll_le {values : List Reply} {n : ℕ} :
    depthAll values ≤ n ↔ ∀ value ∈ values, value.depth + 1 ≤ n := by
  induction values with
  | nil => simp [depthAll]
  | cons value values ih => simp [depthAll, ih]

mutual

/-- Every array of a listing is followed by at least as many nodes as it declares. -/
theorem array_lt_listing : ∀ {value : Reply} {i k : ℕ},
    (listing value)[i]? = some (.array k) → k + i < (listing value).length
  | .ok, i, k, h | .status _, i, k, h | .error _, i, k, h | .integer _, i, k, h
  | .nil, i, k, h | .bulk _, i, k, h => by
    cases i <;> simp [listing] at h
  | .array items, 0, k, h => by
    have hlen := length_le_nodesAll items
    obtain rfl : items.length = k := by simpa [listing] using h
    rw [listing, List.length_cons, length_listingAll]
    omega
  | .array items, i + 1, k, h => by
    have hi : (listingAll items)[i]? = some (.array k) := by simpa [listing] using h
    have := array_lt_listingAll hi
    rw [listing, List.length_cons]
    omega

theorem array_lt_listingAll : ∀ {values : List Reply} {i k : ℕ},
    (listingAll values)[i]? = some (.array k) → k + i < (listingAll values).length
  | [], i, k, h => by simp [listingAll] at h
  | value :: values, i, k, h => by
    rw [listingAll] at h ⊢
    rw [List.length_append]
    rcases Nat.lt_or_ge i (listing value).length with hlt | hge
    · rw [List.getElem?_append_left hlt] at h
      have := array_lt_listing h
      omega
    · rw [List.getElem?_append_right hge] at h
      have := array_lt_listingAll h
      omega

end

end Reply

namespace Parser

/-! ## Texts of headers -/

theorem IsDigit.ne {byte : UInt8} (h : IsDigit byte) : byte ≠ cr ∧ byte ≠ lf := by
  constructor <;> rintro rfl <;> exact absurd h (by decide)

theorem plain_of_isDigit {text : List UInt8} (h : ∀ byte ∈ text, IsDigit byte) : Plain text :=
  fun byte hb => (h byte hb).ne

theorem Plain.cons {byte : UInt8} {text : List UInt8} (hb : byte ≠ cr ∧ byte ≠ lf)
    (h : Plain text) : Plain (byte :: text) := by
  intro b hmem
  rcases List.mem_cons.mp hmem with rfl | hmem
  · exact hb
  · exact h b hmem

theorem plain_of_isInteger {text : List UInt8} {value : ℤ} (h : IsInteger text value) :
    Plain text := by
  cases h with
  | plain _ hd => exact plain_of_isDigit hd
  | plus _ hd => exact (plain_of_isDigit hd).cons (by decide)
  | minus _ hd => exact (plain_of_isDigit hd).cons (by decide)

theorem plain_of_isLength {text : List UInt8} {length : Length} (h : IsLength text length) :
    Plain text := by
  cases h with
  | count _ hd => exact plain_of_isDigit hd
  | zero _ hd => exact (plain_of_isDigit hd).cons (by decide)
  | nil _ hd => exact (plain_of_isDigit hd).cons (by decide)

/-! ## Values owed to open arrays -/

/-- The values after the one being read, when the open arrays miss `left` values. No value
is deeper than `room` allows above the arrays around it. -/
def Owed (room : ℕ) : List ℕ+ → List Reply → Prop
  | [], values => values = []
  | left :: parents, values =>
    ∃ now later, values = now ++ later ∧ now.length + 1 = left ∧
      (∀ value ∈ now, value.depth + (parents.length + 1) ≤ room) ∧ Owed room parents later

end Parser

end Cartel.Redis
