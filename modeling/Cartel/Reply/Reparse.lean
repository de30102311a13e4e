import Mathlib.Data.Nat.Bitwise
import Cartel.Lib.Outcome
import Cartel.Reply.Server

/-!
# Diagnostics are read again as they were parsed

What `Fields::try_parse` accepts are the lists of fields that are well formed
(`tryParse_iff`), and on all of them `Fields::from_valid` has the same result
(`fromValid_eq`) : a step of the checked loop that succeeds is a step of the other one.
-/

namespace Cartel.Pg.Reply

open Cartel.Lib Scram

/-! ## The second reading -/

theorem scan_eq_some : ∀ (value rest : List UInt8), (0 : UInt8) ∉ value →
    scan (value ++ 0 :: rest) = some value.length
  | [], _, _ => rfl
  | byte :: value, rest, h => by
    rw [List.mem_cons, not_or] at h
    rw [List.cons_append, scan, if_pos (Ne.symm h.1), scan_eq_some value rest h.2]
    rfl

theorem replayFrom_eq {kind : UInt8} {length : ℕ} : ∀ {value : List UInt8} {number n : ℕ},
    Context.tryNumberFrom kind length value number = .ok n → replayFrom value number = some n
  | [], number, n, h => by
    cases h
    rfl
  | byte :: tail, number, n, h => by
    rw [Context.tryNumberFrom] at h
    split_ifs at h with hdigit
    dsimp only at h
    split_ifs at h with hover
    rw [replayFrom, if_neg (by rw [UInt8.not_lt]; exact hdigit.1)]
    dsimp only
    rw [if_neg hover]
    exact replayFrom_eq h

theorem replay_eq {kind : UInt8} {value : List UInt8} {n : ℕ}
    (h : Context.tryNumber kind value = .ok n) : replay value = some n := by
  unfold Context.tryNumber at h
  split_ifs at h with hempty
  obtain ⟨number, hnumber, h⟩ := bind_eq_ok.mp h
  split_ifs at h with hzero
  cases h
  unfold replay
  rw [replayFrom_eq hnumber]
  exact Option.filter_some_pos (decide_eq_true hzero)

/-- What was parsed so far, without the checks. -/
def Parts.build (parts : Parts) : Build :=
  ⟨parts.severity, parts.severityNonlocalized, parts.code, parts.message, parts.context⟩

theorem Parts.build_set {parts parts' : Parts} {kind : UInt8} {value : List UInt8}
    (h : parts.trySet kind value = .ok parts') :
    parts.build.set kind value = some parts'.build := by
  unfold Parts.trySet at h
  unfold Build.set
  split_ifs at h ⊢
  · cases h
    rfl
  · cases h
    rfl
  · cases h
    rfl
  · cases h
    rfl
  · obtain ⟨context, hcontext, h⟩ := bind_eq_ok.mp h
    cases h
    unfold Context.trySet at hcontext
    rw [show parts.build.context = parts.context from rfl]
    rcases hfield : parts.context.field kind value with ⟨written, - | slot⟩
    · rw [hfield] at hcontext
      cases hcontext
      rfl
    · rw [hfield] at hcontext
      obtain ⟨number, hnumber, hcontext⟩ := bind_eq_ok.mp hcontext
      cases hcontext
      dsimp only
      rw [replay_eq hnumber]
      rfl

theorem Parts.build_finish {parts : Parts} {fields : Fields} (h : parts.tryFinish = .ok fields) :
    parts.build.finish = some fields := by
  unfold Parts.tryFinish at h
  split at h
  · cases h
  · rename_i severity hseverity
    split at h
    · cases h
    · rename_i code hcode
      obtain ⟨code', hcode', h⟩ := bind_eq_ok.mp h
      split at h
      · cases h
      · rename_i message hmessage
        cases h
        unfold tryCode at hcode'
        obtain ⟨-, -, hcode'⟩ := bind_eq_ok.mp hcode'
        split_ifs at hcode'
        cases hcode'
        have hor := (Option.filter_eq_some_iff.mp hseverity).1
        unfold Build.finish Parts.build
        dsimp only
        rw [hcode, hmessage]
        rcases hlocal : parts.severityNonlocalized with - | other
        · rw [hlocal, Option.none_or] at hor
          rw [hor]
          rfl
        · rw [hlocal, Option.some_or] at hor
          cases hor
          rfl

/-- The two loops agree, on what the first one accepts. -/
theorem fromValidFrom_eq {length : ℕ} (fuel : ℕ) :
    ∀ {cursor : List UInt8} {seen : ℕ} {parts parts' : Parts}, cursor.length ≤ fuel →
      tryParseFrom length cursor seen parts = .ok parts' →
        fromValidFrom fuel cursor parts.build = some parts'.build := by
  induction fuel with
  | zero =>
    intro cursor seen parts parts' hfuel h
    rw [List.eq_nil_of_length_eq_zero (Nat.le_zero.mp hfuel), tryParseFrom] at h
    cases h
  | succ fuel ih =>
    intro cursor seen parts parts' hfuel h
    rcases cursor with - | ⟨kind, tail⟩
    · rw [tryParseFrom] at h
      cases h
    · rw [tryParseFrom] at h
      rw [fromValidFrom]
      split_ifs at h ⊢ with hkind htail
      · cases h
        rfl
      · split at h
        · cases h
        · rename_i value rest hsplit
          obtain ⟨htail, hvalue⟩ := splitByte_eq_some hsplit
          rcases hutf8 : utf8Error value with - | ⟨valid, error⟩
          · rw [hutf8] at h
            dsimp only at h
            obtain ⟨seen', -, h⟩ := bind_eq_ok.mp h
            obtain ⟨next, hnext, h⟩ := bind_eq_ok.mp h
            have hrest : rest.length ≤ fuel := by
              rw [htail, List.length_cons, List.length_append, List.length_cons] at hfuel
              omega
            rw [htail, scan_eq_some value rest hvalue]
            change (if (utf8Error ((value ++ 0 :: rest).take value.length)).isSome then none
              else do
                let build ← parts.build.set kind ((value ++ 0 :: rest).take value.length)
                fromValidFrom fuel ((value ++ 0 :: rest).drop (value.length + 1)) build) = _
            rw [List.take_left, hutf8, Parts.build_set hnext, ← List.drop_drop, List.drop_left]
            exact ih hrest h
          · rw [hutf8] at h
            cases h

/-- The second reading has the fields of the first. -/
theorem fromValid_eq {payload : List UInt8} {fields : Fields} (h : tryParse payload = .ok fields) :
    fromValid payload = some fields := by
  obtain ⟨parts, hparts, h⟩ := bind_eq_ok.mp h
  have hbuild : fromValidFrom payload.length payload {} = some parts.build :=
    fromValidFrom_eq payload.length le_rfl hparts
  unfold fromValid
  rw [hbuild]
  exact Parts.build_finish h

/-! ## What is accepted -/

/-- A tag and its text. -/
abbrev Field :=
  UInt8 × List UInt8

/-- The bytes of a diagnostic. -/
def render (fields : List Field) : List UInt8 :=
  (fields.flatMap fun field => field.1 :: field.2 ++ [0]) ++ [0]

/-- The number of a text of digits, behind a number. -/
def decimal (number : ℕ) (value : List UInt8) : ℕ :=
  value.foldl (fun number byte => number * 10 + (byte - 48).toNat) number

/-- A decimal number of 32 bits that is not zero. -/
structure Numeral (value : List UInt8) : Prop where
  nonempty : value ≠ []
  digits : ∀ byte ∈ value, 48 ≤ byte ∧ byte ≤ 57
  pos : 0 < decimal 0 value
  lt : decimal 0 value < 2 ^ 32

/-- A tag is not NUL, and its text is UTF-8 without NUL. -/
def Plain (field : Field) : Prop :=
  field.1 ≠ 0 ∧ 0 ∉ field.2 ∧ ∃ text, field.2 = encodeUtf8 text

/-- The fields of a diagnostic are well formed. -/
structure WellFormed (fields : List Field) : Prop where
  texts : ∀ field ∈ fields, Plain field
  distinct : ((fields.map Prod.fst).filter (· ∈ recognized)).Nodup
  numbers : ∀ field ∈ fields, field.1 ∈ ascii "PpL" → Numeral field.2
  code : ∃ code, (67, code) ∈ fields ∧ code.length = 5 ∧
    ∀ byte ∈ code, (65 ≤ byte ∧ byte ≤ 90) ∨ (48 ≤ byte ∧ byte ≤ 57)
  message : ∃ message, (77, message) ∈ fields
  severity : ∃ severity ≠ [], (86, severity) ∈ fields ∨
    ((∀ other, (86, other) ∉ fields) ∧ (83, severity) ∈ fields)

/-! ### Numbers -/

theorem le_decimal : ∀ (value : List UInt8) (number : ℕ), number ≤ decimal number value
  | [], _ => le_rfl
  | byte :: value, number => by
    have hle := le_decimal value (number * 10 + (byte - 48).toNat)
    exact le_trans (by omega) hle

theorem tryNumberFrom_eq_ok {kind : UInt8} {length : ℕ} : ∀ {value : List UInt8} {number n : ℕ},
    number < 2 ^ 32 → (Context.tryNumberFrom kind length value number = .ok n ↔
      (∀ byte ∈ value, 48 ≤ byte ∧ byte ≤ 57) ∧ decimal number value < 2 ^ 32 ∧
        n = decimal number value)
  | [], number, n, hlt => by
    rw [Context.tryNumberFrom, Except.ok.injEq]
    exact ⟨fun h => ⟨nofun, hlt, h.symm⟩, fun h => h.2.2.symm⟩
  | byte :: tail, number, n, hlt => by
    have hle := le_decimal tail (number * 10 + (byte - 48).toNat)
    have hstep : decimal number (byte :: tail) =
      decimal (number * 10 + (byte - 48).toNat) tail := rfl
    rw [Context.tryNumberFrom, hstep, List.forall_mem_cons]
    split_ifs with hdigit
    · dsimp only
      split_ifs with hover
      · exact iff_of_false nofun fun h => by omega
      · rw [tryNumberFrom_eq_ok (by omega)]
        exact ⟨fun h => ⟨⟨hdigit, h.1⟩, h.2⟩, fun h => ⟨h.1.2, h.2⟩⟩
    · exact iff_of_false nofun fun h => hdigit h.1.1

theorem tryNumber_eq_ok {kind : UInt8} {value : List UInt8} {n : ℕ} :
    Context.tryNumber kind value = .ok n ↔ Numeral value ∧ n = decimal 0 value := by
  unfold Context.tryNumber
  split_ifs with hempty
  · exact iff_of_false nofun fun h => h.1.nonempty hempty
  · rw [bind_eq_ok]
    constructor
    · rintro ⟨number, hnumber, h⟩
      obtain ⟨hdigits, hlt, rfl⟩ := (tryNumberFrom_eq_ok (by omega)).mp hnumber
      split_ifs at h with hzero
      cases h
      exact ⟨⟨hempty, hdigits, Nat.pos_of_ne_zero hzero, hlt⟩, rfl⟩
    · rintro ⟨hnumeral, rfl⟩
      refine ⟨_, (tryNumberFrom_eq_ok (by omega)).mpr ⟨hnumeral.digits, hnumeral.lt, rfl⟩, ?_⟩
      rw [if_neg hnumeral.pos.ne']

/-! ### Tags -/

/-- A tag was seen. -/
def Seen (seen : ℕ) (kind : UInt8) : Prop :=
  ∃ bit, recognizedBit kind = some bit ∧ seen.testBit bit = true

theorem recognizedBit_eq_some {kind : UInt8} {bit : ℕ} (h : recognizedBit kind = some bit) :
    recognized[bit]? = some kind := by
  obtain ⟨hlt, hbyte, -⟩ := List.findIdx?_eq_some_iff_getElem.mp h
  rw [List.getElem?_eq_getElem hlt]
  exact congrArg some (of_decide_eq_true hbyte)

theorem recognizedBit_eq_none {kind : UInt8} : recognizedBit kind = none ↔ kind ∉ recognized := by
  unfold recognizedBit
  rw [List.findIdx?_eq_none_iff]
  constructor
  · intro h hmem
    simpa using h kind hmem
  · intro h other hmem
    exact decide_eq_false fun heq => h (heq ▸ hmem)

theorem tryKind_eq_ok {seen seen' : ℕ} {kind : UInt8} (h : tryKind seen kind = .ok seen') :
    ¬Seen seen kind ∧ ∀ k, Seen seen' k ↔ Seen seen k ∨ (k = kind ∧ k ∈ recognized) := by
  unfold tryKind at h
  rcases hbit : recognizedBit kind with - | bit
  · rw [hbit] at h
    cases h
    refine ⟨fun ⟨bit, hsome, _⟩ => (nomatch hbit.symm.trans hsome), fun k => ?_⟩
    refine ⟨Or.inl, fun h => h.elim id fun ⟨heq, hmem⟩ => ?_⟩
    exact absurd (heq ▸ hmem) (recognizedBit_eq_none.mp hbit)
  · rw [hbit] at h
    dsimp only at h
    rw [Nat.one_shiftLeft, Nat.and_two_pow] at h
    split_ifs at h with hseen
    cases h
    have hclear : seen.testBit bit = false := by
      rcases htest : seen.testBit bit with - | -
      · rfl
      · rw [htest] at hseen
        simp at hseen
    have hmem : kind ∈ recognized := by
      by_contra hnot
      rw [recognizedBit_eq_none.mpr hnot] at hbit
      cases hbit
    refine ⟨?_, fun k => ?_⟩
    · rintro ⟨other, hother, htest⟩
      rw [hbit] at hother
      cases hother
      rw [hclear] at htest
      cases htest
    · constructor
      · rintro ⟨other, hother, htest⟩
        rw [Nat.testBit_or, Nat.testBit_two_pow, Bool.or_eq_true, decide_eq_true_eq] at htest
        rcases htest with htest | rfl
        · exact Or.inl ⟨other, hother, htest⟩
        · have hk := (recognizedBit_eq_some hother).symm.trans (recognizedBit_eq_some hbit)
          cases hk
          exact Or.inr ⟨rfl, hmem⟩
      · rintro (⟨other, hother, htest⟩ | ⟨rfl, -⟩)
        · exact ⟨other, hother, by rw [Nat.testBit_or, htest, Bool.true_or]⟩
        · exact ⟨bit, hbit, by rw [Nat.testBit_or, Nat.testBit_two_pow_self, Bool.or_true]⟩

theorem tryKind_of_not_seen {seen : ℕ} {kind : UInt8} (h : ¬Seen seen kind) :
    ∃ seen', tryKind seen kind = .ok seen' := by
  unfold tryKind
  rcases hbit : recognizedBit kind with - | bit
  · exact ⟨_, rfl⟩
  · have hclear : seen.testBit bit = false := by
      rcases htest : seen.testBit bit with - | -
      · rfl
      · exact absurd ⟨bit, hbit, htest⟩ h
    dsimp only
    rw [Nat.one_shiftLeft, Nat.and_two_pow, hclear]
    exact ⟨_, if_neg (by simp)⟩

/-! ### Fields -/

/-- A field written, whatever its number is. -/
def Parts.set (parts : Parts) (field : Field) : Parts :=
  if field.1 = 83 then { parts with severity := some field.2 }
  else if field.1 = 86 then { parts with severityNonlocalized := some field.2 }
  else if field.1 = 67 then { parts with code := some field.2 }
  else if field.1 = 77 then { parts with message := some field.2 }
  else
    match parts.context.field field.1 field.2 with
    | (context, none) => { parts with context := context }
    | (context, some slot) => { parts with context := context.setNumber slot (decimal 0 field.2) }

theorem mem_numbers {kind : UInt8} : kind ∈ ascii "PpL" ↔ kind = 80 ∨ kind = 112 ∨ kind = 76 := by
  have h : ascii "PpL" = [80, 112, 76] := by decide
  rw [h]
  simp only [List.mem_cons, List.not_mem_nil, or_false]

theorem field_slot {context : Context} {kind : UInt8} {value : List UInt8} :
    (context.field kind value).2 = none ↔ kind ∉ ascii "PpL" := by
  rw [mem_numbers]
  by_cases hmem : kind = 80 ∨ kind = 112 ∨ kind = 76
  · refine iff_of_false (fun h => ?_) (not_not.mpr hmem)
    rcases hmem with rfl | rfl | rfl <;> cases h
  · refine iff_of_true ?_ hmem
    simp only [not_or] at hmem
    obtain ⟨hposition, hinner, hline⟩ := hmem
    unfold Context.field
    simp only [apply_ite Prod.snd, if_neg hposition, if_neg hinner, if_neg hline, ite_self]

theorem trySet_eq_ok {parts parts' : Parts} {kind : UInt8} {value : List UInt8} :
    parts.trySet kind value = .ok parts' ↔
      (kind ∈ ascii "PpL" → Numeral value) ∧ parts' = parts.set (kind, value) := by
  unfold Parts.trySet Parts.set
  dsimp only
  by_cases hplain : kind = 83 ∨ kind = 86 ∨ kind = 67 ∨ kind = 77
  · have hnot : kind ∉ ascii "PpL" := by
      rw [mem_numbers]
      rcases hplain with rfl | rfl | rfl | rfl <;> decide
    rcases hplain with rfl | rfl | rfl | rfl
    all_goals
      constructor
      · intro h
        cases h
        exact ⟨fun hmem => absurd hmem hnot, rfl⟩
      · rintro ⟨-, rfl⟩
        rfl
  · simp only [not_or] at hplain
    rw [if_neg hplain.1, if_neg hplain.2.1, if_neg hplain.2.2.1, if_neg hplain.2.2.2,
      if_neg hplain.1, if_neg hplain.2.1, if_neg hplain.2.2.1, if_neg hplain.2.2.2, bind_eq_ok]
    unfold Context.trySet
    have hslot := @field_slot parts.context kind value
    rcases hfield : parts.context.field kind value with ⟨context, - | slot⟩
    · rw [hfield] at hslot
      have hnot := hslot.mp rfl
      constructor
      · rintro ⟨_, h, h'⟩
        cases h
        cases h'
        exact ⟨fun hmem => absurd hmem hnot, rfl⟩
      · rintro ⟨-, rfl⟩
        exact ⟨_, rfl, rfl⟩
    · rw [hfield] at hslot
      have hmem : kind ∈ ascii "PpL" := by
        by_contra hnot
        exact nomatch hslot.mpr hnot
      constructor
      · rintro ⟨_, h, h'⟩
        obtain ⟨number, hnumber, h⟩ := bind_eq_ok.mp h
        obtain ⟨hnumeral, rfl⟩ := tryNumber_eq_ok.mp hnumber
        cases h
        cases h'
        exact ⟨fun _ => hnumeral, rfl⟩
      · rintro ⟨hnumeral, rfl⟩
        exact ⟨_, bind_eq_ok.mpr ⟨_, tryNumber_eq_ok.mpr ⟨hnumeral hmem, rfl⟩, rfl⟩, rfl⟩

theorem splitByte_append {value : List UInt8} (rest : List UInt8) (h : (0 : UInt8) ∉ value) :
    splitByte 0 (value ++ 0 :: rest) = some (value, rest) := by
  have hindex : (value ++ 0 :: rest).findIdx? (· = 0) = some value.length := by
    have hnone : value.findIdx? (· = 0) = none := by
      rw [List.findIdx?_eq_none_iff]
      intro byte hbyte
      exact decide_eq_false fun heq => h (heq ▸ hbyte)
    rw [List.findIdx?_append, hnone, List.findIdx?_cons, if_pos (decide_eq_true rfl)]
    simp
  unfold splitByte
  rw [hindex, Option.map_some, List.take_left, ← List.drop_drop, List.drop_left]
  rfl

/-- The tags that were not seen before, and none of them twice. -/
def Fresh (seen : ℕ) (fields : List Field) : Prop :=
  ((fields.map Prod.fst).filter (· ∈ recognized)).Nodup ∧ ∀ field ∈ fields, ¬Seen seen field.1

theorem seen_recognized {seen : ℕ} {kind : UInt8} (h : Seen seen kind) : kind ∈ recognized := by
  obtain ⟨bit, hbit, -⟩ := h
  by_contra hnot
  rw [recognizedBit_eq_none.mpr hnot] at hbit
  cases hbit

theorem fresh_cons {seen seen' : ℕ} {kind : UInt8} {value : List UInt8} {fields : List Field}
    (h : tryKind seen kind = .ok seen') :
    Fresh seen ((kind, value) :: fields) ↔ Fresh seen' fields := by
  obtain ⟨hkind, hseen⟩ := tryKind_eq_ok h
  unfold Fresh
  rw [List.map_cons, List.forall_mem_cons]
  dsimp only
  by_cases hmem : kind ∈ recognized
  · rw [List.filter_cons, if_pos (decide_eq_true hmem), List.nodup_cons]
    constructor
    · rintro ⟨⟨hnot, hnodup⟩, -, hfresh⟩
      refine ⟨hnodup, fun field hfield hseen' => ?_⟩
      rcases (hseen _).mp hseen' with hold | ⟨heq, -⟩
      · exact hfresh field hfield hold
      · refine hnot (List.mem_filter.mpr ⟨?_, decide_eq_true hmem⟩)
        exact heq ▸ List.mem_map_of_mem hfield
    · rintro ⟨hnodup, hfresh⟩
      refine ⟨⟨fun hin => ?_, hnodup⟩, hkind, fun field hfield hold => ?_⟩
      · obtain ⟨field, hfield, heq⟩ := List.mem_map.mp (List.mem_filter.mp hin).1
        exact hfresh field hfield ((hseen _).mpr (Or.inr ⟨heq, heq ▸ hmem⟩))
      · exact hfresh field hfield ((hseen _).mpr (Or.inl hold))
  · rw [List.filter_cons, if_neg (by simpa using hmem)]
    have hsame : ∀ k, Seen seen' k ↔ Seen seen k := fun k =>
      (hseen k).trans (or_iff_left fun h => hmem (h.1 ▸ h.2))
    simp only [hsame]
    exact and_congr_right fun _ => and_iff_right hkind

theorem render_cons (field : Field) (fields : List Field) :
    render (field :: fields) = field.1 :: (field.2 ++ 0 :: render fields) := by
  unfold render
  rw [List.flatMap_cons]
  simp only [List.cons_append, List.append_assoc, List.nil_append]

/-- The bytes of a field, and of those behind it. -/
theorem eq_render {kind : UInt8} {tail : List UInt8} {fields : List Field} (hkind : kind ≠ 0)
    (h : kind :: tail = render fields) (hplain : ∀ field ∈ fields, Plain field) :
    ∃ value rest, fields = (kind, value) :: rest ∧
      splitByte 0 tail = some (value, render rest) := by
  rcases fields with - | ⟨⟨kind', value⟩, rest⟩
  · exact absurd (List.cons.inj h).1 hkind
  · rw [render_cons] at h
    obtain ⟨rfl, rfl⟩ := List.cons.inj h
    exact ⟨value, rest, rfl, splitByte_append _ (hplain _ List.mem_cons_self).2.1⟩

/-- What the loop accepts, and what it has written. -/
theorem tryParseFrom_eq_ok {length : ℕ} (n : ℕ) :
    ∀ {cursor : List UInt8} {seen : ℕ} {parts parts' : Parts}, cursor.length = n →
      (tryParseFrom length cursor seen parts = .ok parts' ↔ ∃ fields, cursor = render fields ∧
        (∀ field ∈ fields, Plain field) ∧ Fresh seen fields ∧
        (∀ field ∈ fields, field.1 ∈ ascii "PpL" → Numeral field.2) ∧
        parts' = fields.foldl Parts.set parts) := by
  induction n using Nat.strong_induction_on with
  | _ n ih =>
    intro cursor seen parts parts' hn
    rcases cursor with - | ⟨kind, tail⟩
    · rw [tryParseFrom]
      refine iff_of_false (fun h => by cases h) ?_
      rintro ⟨fields, h, -⟩
      exact List.append_ne_nil_of_right_ne_nil _ (List.cons_ne_nil _ _) h.symm
    · rw [tryParseFrom]
      by_cases hkind : kind = 0
      · subst hkind
        rw [if_pos rfl]
        have hnil : ∀ {fields : List Field}, 0 :: tail = render fields →
            (∀ field ∈ fields, Plain field) → fields = [] ∧ tail = [] := by
          intro fields h hplain
          rcases fields with - | ⟨field, rest⟩
          · exact ⟨rfl, (List.cons.inj h).2⟩
          · rw [render_cons] at h
            exact absurd (List.cons.inj h).1.symm (hplain _ List.mem_cons_self).1
        by_cases htail : tail = []
        · rw [if_neg (not_not.mpr htail), Except.ok.injEq]
          constructor
          · rintro rfl
            exact ⟨[], by rw [htail]; rfl, List.forall_mem_nil _, ⟨List.nodup_nil, List.forall_mem_nil _⟩,
              List.forall_mem_nil _, rfl⟩
          · rintro ⟨fields, h, hplain, -, -, rfl⟩
            rw [(hnil h hplain).1]
            rfl
        · rw [if_pos htail]
          refine iff_of_false (fun h => by cases h) ?_
          rintro ⟨fields, h, hplain, -⟩
          exact htail (hnil h hplain).2
      · rw [if_neg hkind]
        split
        · rename_i hsplit
          refine iff_of_false (fun h => by cases h) ?_
          rintro ⟨fields, h, hplain, -⟩
          obtain ⟨value, rest, -, hsome⟩ := eq_render hkind h hplain
          cases hsplit.symm.trans hsome
        · rename_i value rest hsplit
          obtain ⟨htail, hvalue⟩ := splitByte_eq_some hsplit
          have hfields : ∀ {fields : List Field}, kind :: tail = render fields →
              (∀ field ∈ fields, Plain field) →
                ∃ behind, fields = (kind, value) :: behind ∧ rest = render behind := by
            intro fields h hplain
            obtain ⟨value', behind, rfl, hsome⟩ := eq_render hkind h hplain
            cases hsplit.symm.trans hsome
            exact ⟨behind, rfl, rfl⟩
          rcases hutf8 : utf8Error value with - | ⟨valid, error⟩
          · have hplain : Plain (kind, value) := ⟨hkind, hvalue, utf8Error_eq_none.mp hutf8⟩
            have hlength : rest.length < n := by
              rw [← hn, htail, List.length_cons, List.length_append, List.length_cons]
              omega
            dsimp only
            by_cases hseen : Seen seen kind
            · refine iff_of_false (fun h => ?_) ?_
              · obtain ⟨seen', hkind', -⟩ := bind_eq_ok.mp h
                exact (tryKind_eq_ok hkind').1 hseen
              · rintro ⟨fields, h, hplain', hfresh, -⟩
                obtain ⟨behind, rfl, -⟩ := hfields h hplain'
                exact hfresh.2 _ List.mem_cons_self hseen
            · obtain ⟨seen', hseen'⟩ := tryKind_of_not_seen hseen
              rw [hseen']
              change (parts.trySet kind value >>= fun parts =>
                tryParseFrom length rest seen' parts) = .ok parts' ↔ _
              rw [bind_eq_ok]
              constructor
              · rintro ⟨next, hnext, h⟩
                obtain ⟨hnumeral, rfl⟩ := trySet_eq_ok.mp hnext
                obtain ⟨fields, rfl, hplains, hfresh, hnumbers, rfl⟩ := (ih _ hlength rfl).mp h
                refine ⟨(kind, value) :: fields, by rw [render_cons, ← htail],
                  List.forall_mem_cons.mpr ⟨hplain, hplains⟩, (fresh_cons hseen').mpr hfresh,
                  List.forall_mem_cons.mpr ⟨hnumeral, hnumbers⟩, rfl⟩
              · rintro ⟨fields, h, hplains, hfresh, hnumbers, rfl⟩
                obtain ⟨behind, rfl, rfl⟩ := hfields h hplains
                rw [List.forall_mem_cons] at hplains hnumbers
                exact ⟨_, trySet_eq_ok.mpr ⟨hnumbers.1, rfl⟩, (ih _ hlength rfl).mpr
                  ⟨behind, rfl, hplains.2, (fresh_cons hseen').mp hfresh, hnumbers.2, rfl⟩⟩
          · refine iff_of_false (fun h => by cases h) ?_
            rintro ⟨fields, h, hplain, -⟩
            obtain ⟨behind, rfl, -⟩ := hfields h hplain
            have htext := utf8Error_eq_none.mpr (hplain _ List.mem_cons_self).2.2
            cases hutf8.symm.trans htext

/-! ### The end -/

theorem tryCodeFrom_eq_ok {actual : ℕ} : ∀ {value : List UInt8}, tryCodeFrom actual value = .ok () ↔
    ∀ byte ∈ value, (65 ≤ byte ∧ byte ≤ 90) ∨ (48 ≤ byte ∧ byte ≤ 57)
  | [] => iff_of_true rfl nofun
  | byte :: tail => by
    rw [tryCodeFrom, List.forall_mem_cons]
    split_ifs with hbyte
    · rw [tryCodeFrom_eq_ok]
      exact (and_iff_right hbyte).symm
    · exact iff_of_false nofun fun h => hbyte h.1

theorem tryCode_eq_ok {value code : List UInt8} : tryCode value = .ok code ↔
    (value.length = 5 ∧ ∀ byte ∈ value, (65 ≤ byte ∧ byte ≤ 90) ∨ (48 ≤ byte ∧ byte ≤ 57)) ∧
      code = value := by
  unfold tryCode
  rw [bind_eq_ok]
  constructor
  · rintro ⟨⟨⟩, hbytes, h⟩
    split_ifs at h with hlength
    cases h
    exact ⟨⟨not_not.mp hlength, tryCodeFrom_eq_ok.mp hbytes⟩, rfl⟩
  · rintro ⟨⟨hlength, hbytes⟩, rfl⟩
    exact ⟨(), tryCodeFrom_eq_ok.mpr hbytes, if_neg (not_not.mpr hlength)⟩

theorem tryFinish_eq_ok {parts : Parts} {fields : Fields} : parts.tryFinish = .ok fields ↔
    fields.severity ≠ [] ∧ parts.severityNonlocalized.or parts.severity = some fields.severity ∧
      parts.code = some fields.code ∧ fields.code.length = 5 ∧
      (∀ byte ∈ fields.code, (65 ≤ byte ∧ byte ≤ 90) ∨ (48 ≤ byte ∧ byte ≤ 57)) ∧
      parts.message = some fields.message ∧ fields.context = parts.context := by
  unfold Parts.tryFinish
  constructor
  · intro h
    split at h
    · cases h
    · rename_i severity hseverity
      obtain ⟨hsome, hne⟩ := Option.filter_eq_some_iff.mp hseverity
      split at h
      · cases h
      · rename_i code hcode
        obtain ⟨code', hcode', hbuilt⟩ := bind_eq_ok.mp h
        obtain ⟨⟨hlength, hbytes⟩, rfl⟩ := tryCode_eq_ok.mp hcode'
        rcases hmessage : parts.message with - | message
        · rw [hmessage] at hbuilt
          cases hbuilt
        · rw [hmessage] at hbuilt
          cases hbuilt
          exact ⟨of_decide_eq_true hne, hsome, hcode, hlength, hbytes, rfl, rfl⟩
  · rintro ⟨hne, hsome, hcode, hlength, hbytes, hmessage, hcontext⟩
    rw [Option.filter_eq_some_iff.mpr ⟨hsome, decide_eq_true hne⟩]
    dsimp only
    rw [hcode]
    dsimp only
    rw [tryCode_eq_ok.mpr ⟨⟨hlength, hbytes⟩, rfl⟩, hmessage, ← hcontext]
    rfl

section Get

variable {get : Parts → Option (List UInt8)} {tag : UInt8}

/-- What the fields have written to a place that one tag stands for. -/
theorem foldl_get (htag : tag ∈ recognized) (hset : ∀ parts field, get (Parts.set parts field) =
      if field.1 = tag then some field.2 else get parts) :
    ∀ {fields : List Field} {parts : Parts} {value : List UInt8},
      ((fields.map Prod.fst).filter (· ∈ recognized)).Nodup →
        (get (fields.foldl Parts.set parts) = some value ↔ (tag, value) ∈ fields ∨
          ((∀ other, (tag, other) ∉ fields) ∧ get parts = some value))
  | [], parts, value, _ => by
    rw [List.foldl_nil]
    exact ⟨fun h => Or.inr ⟨nofun, h⟩, fun h => h.elim nofun And.right⟩
  | (kind, text) :: fields, parts, value, hnodup => by
    rw [List.map_cons, List.filter_cons] at hnodup
    rw [List.foldl_cons]
    simp only [List.mem_cons, not_or, Prod.mk.injEq]
    by_cases hkind : tag = kind
    · subst hkind
      dsimp only at hnodup
      rw [if_pos (decide_eq_true htag), List.nodup_cons] at hnodup
      have hnot : ∀ other, (tag, other) ∉ fields := fun other hmem =>
        hnodup.1 (List.mem_filter.mpr ⟨List.mem_map_of_mem hmem, decide_eq_true htag⟩)
      rw [foldl_get htag hset hnodup.2, hset, if_pos rfl, Option.some.injEq]
      constructor
      · rintro (hmem | ⟨-, rfl⟩)
        · exact absurd hmem (hnot _)
        · exact Or.inl (Or.inl ⟨rfl, rfl⟩)
      · rintro ((⟨-, rfl⟩ | hmem) | ⟨hall, -⟩)
        · exact Or.inr ⟨hnot, rfl⟩
        · exact absurd hmem (hnot _)
        · exact absurd rfl (fun heq => (hall text).1 ⟨rfl, heq⟩)
    · have hnodup' : ((fields.map Prod.fst).filter (· ∈ recognized)).Nodup := by
        split_ifs at hnodup
        · exact (List.nodup_cons.mp hnodup).2
        · exact hnodup
      rw [foldl_get htag hset hnodup', hset, if_neg (Ne.symm hkind)]
      simp only [hkind, false_and, false_or, not_false_eq_true, true_and]

end Get

theorem set_severity (parts : Parts) (field : Field) : (parts.set field).severity =
    if field.1 = 83 then some field.2 else parts.severity := by
  unfold Parts.set
  split_ifs <;> first | rfl | (split <;> rfl)

theorem set_severityNonlocalized (parts : Parts) (field : Field) :
    (parts.set field).severityNonlocalized =
      if field.1 = 86 then some field.2 else parts.severityNonlocalized := by
  unfold Parts.set
  rcases field with ⟨kind, text⟩
  dsimp only
  by_cases hkind : kind = 86
  · subst hkind
    rfl
  · rw [if_neg hkind, if_neg hkind]
    split_ifs <;> first | rfl | (split <;> rfl)

theorem set_code (parts : Parts) (field : Field) :
    (parts.set field).code = if field.1 = 67 then some field.2 else parts.code := by
  unfold Parts.set
  rcases field with ⟨kind, text⟩
  dsimp only
  by_cases hkind : kind = 67
  · subst hkind
    rfl
  · rw [if_neg hkind, if_neg hkind]
    split_ifs <;> first | rfl | (split <;> rfl)

theorem set_message (parts : Parts) (field : Field) :
    (parts.set field).message = if field.1 = 77 then some field.2 else parts.message := by
  unfold Parts.set
  rcases field with ⟨kind, text⟩
  dsimp only
  by_cases hkind : kind = 77
  · subst hkind
    rfl
  · rw [if_neg hkind, if_neg hkind]
    split_ifs <;> first | rfl | (split <;> rfl)

/-! ### The result -/

/-- The severity, the code and the message are the texts of their tags, and the tag `V` comes
before the tag `S`. -/
structure Fields.Of (fields : Fields) (list : List Field) : Prop where
  severity : (86, fields.severity) ∈ list ∨
    ((∀ other, (86, other) ∉ list) ∧ (83, fields.severity) ∈ list)
  code : (67, fields.code) ∈ list
  message : (77, fields.message) ∈ list

/-- What is parsed is well formed, and the fields are its own. -/
theorem tryParse_eq_ok {payload : List UInt8} {fields : Fields} (h : tryParse payload = .ok fields) :
    ∃ list, payload = render list ∧ WellFormed list ∧ fields.Of list := by
  obtain ⟨parts, hparts, h⟩ := bind_eq_ok.mp h
  obtain ⟨list, rfl, hplain, hfresh, hnumbers, rfl⟩ := (tryParseFrom_eq_ok _ rfl).mp hparts
  obtain ⟨hne, hor, hcode, hlength, hbytes, hmessage, -⟩ := tryFinish_eq_ok.mp h
  have hnodup := hfresh.1
  have hseverity : (86, fields.severity) ∈ list ∨
      ((∀ other, (86, other) ∉ list) ∧ (83, fields.severity) ∈ list) := by
    rcases hlocal : (list.foldl Parts.set {}).severityNonlocalized with - | value
    · rw [hlocal, Option.none_or] at hor
      refine Or.inr ⟨fun other hmem => ?_, ?_⟩
      · have hsome : (list.foldl Parts.set {}).severityNonlocalized = some other :=
          (foldl_get (by decide) set_severityNonlocalized hnodup).mpr (Or.inl hmem)
        rw [hlocal] at hsome
        cases hsome
      · exact ((foldl_get (by decide) set_severity hnodup).mp hor).resolve_right (fun h => nomatch h.2)
    · rw [hlocal, Option.some_or] at hor
      cases hor
      exact Or.inl (((foldl_get (by decide) set_severityNonlocalized hnodup).mp
        hlocal).resolve_right (fun h => nomatch h.2))
  have hcode := ((foldl_get (by decide) set_code hnodup).mp hcode).resolve_right (fun h => nomatch h.2)
  have hmessage := ((foldl_get (by decide) set_message hnodup).mp hmessage).resolve_right
    (fun h => nomatch h.2)
  exact ⟨list, rfl, ⟨hplain, hnodup, hnumbers, ⟨_, hcode, hlength, hbytes⟩, ⟨_, hmessage⟩,
    ⟨_, hne, hseverity⟩⟩, ⟨hseverity, hcode, hmessage⟩⟩

/-- What is well formed is parsed. -/
theorem WellFormed.parsed {list : List Field} (h : WellFormed list) :
    ∃ fields, tryParse (render list) = .ok fields := by
  obtain ⟨code, hcode, hlength, hbytes⟩ := h.code
  obtain ⟨message, hmessage⟩ := h.message
  obtain ⟨severity, hne, hseverity⟩ := h.severity
  have hloop : tryParseFrom (render list).length (render list) 0 {} =
      .ok (list.foldl Parts.set {}) := by
    refine (tryParseFrom_eq_ok _ rfl).mpr ⟨list, rfl, h.texts, ⟨h.distinct, ?_⟩, h.numbers, rfl⟩
    rintro field - ⟨bit, -, htest⟩
    rw [Nat.zero_testBit] at htest
    cases htest
  have hor : ((list.foldl Parts.set {}).severityNonlocalized.or
      (list.foldl Parts.set {}).severity) = some severity := by
    rcases hseverity with hmem | ⟨hnone, hmem⟩
    · rw [(foldl_get (by decide) set_severityNonlocalized h.distinct).mpr (Or.inl hmem)]
      rfl
    · rcases hlocal : (list.foldl Parts.set {}).severityNonlocalized with - | value
      · rw [(foldl_get (by decide) set_severity h.distinct).mpr (Or.inl hmem)]
        rfl
      · rcases (foldl_get (by decide) set_severityNonlocalized h.distinct).mp hlocal with hin | hin
        · exact absurd hin (hnone value)
        · cases hin.2
  refine ⟨⟨severity, code, message, (list.foldl Parts.set {}).context⟩,
    bind_eq_ok.mpr ⟨_, hloop, tryFinish_eq_ok.mpr ⟨hne, hor, ?_, hlength, hbytes, ?_, rfl⟩⟩⟩
  · exact (foldl_get (by decide) set_code h.distinct).mpr (Or.inl hcode)
  · exact (foldl_get (by decide) set_message h.distinct).mpr (Or.inl hmessage)

/-- The payloads that are accepted are the well formed ones. -/
theorem tryParse_iff {payload : List UInt8} :
    (∃ fields, tryParse payload = .ok fields) ↔ ∃ list, payload = render list ∧ WellFormed list := by
  constructor
  · rintro ⟨fields, h⟩
    obtain ⟨list, hlist, hwell, -⟩ := tryParse_eq_ok h
    exact ⟨list, hlist, hwell⟩
  · rintro ⟨list, rfl, hwell⟩
    exact hwell.parsed

end Cartel.Pg.Reply
