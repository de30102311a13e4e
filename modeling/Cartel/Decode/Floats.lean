import Cartel.Decode.Integers
import Cartel.Lib.Automaton

/-!
# Where a floating-point text is wrong

When the standard library rejects a text, the text is read once more for the offset of the first
byte that does not fit. The grammar of the literals (`Literal`) is the documented one : a sign,
and a name in any case, or a mantissa with at least one digit and an exponent with at least one.

The second reading goes from state to state of an automaton (`literals`), which gets exactly
through the starts of the literals. What it reports is the byte that the automaton has no step
for, or the end of a text that some literal continues (`Blames`).
-/

namespace Cartel.Redis.Decode

open Cartel.Lib Cartel.Redis.Parser

/-! ## Literals -/

/-- A text of digits. -/
def Digits (text : List UInt8) : Prop :=
  ∀ byte ∈ text, IsDigit byte

/-- The names, in lower case. -/
def spellings : List (List UInt8) :=
  [[105, 110, 102], [105, 110, 102, 105, 110, 105, 116, 121], [110, 97, 110]]

/-- Digits with an optional point, at least one digit in all. -/
inductive Mantissa : List UInt8 → Prop
  | whole {digits : List UInt8} : digits ≠ [] → Digits digits → Mantissa digits
  | point {whole fraction : List UInt8} : whole ++ fraction ≠ [] → Digits whole →
      Digits fraction → Mantissa (whole ++ 46 :: fraction)

/-- The letter that starts an exponent. -/
def IsMark (byte : UInt8) : Prop :=
  byte = 101 ∨ byte = 69

instance : DecidablePred IsMark := fun _ => inferInstanceAs (Decidable (_ ∨ _))

/-- An exponent, or none. -/
inductive Exponent : List UInt8 → Prop
  | none : Exponent []
  | some {mark : UInt8} {digits : List UInt8} (sign : Option Bool) : IsMark mark → digits ≠ [] →
      Digits digits → Exponent (mark :: (signText sign ++ digits))

/-- A literal without its sign. -/
inductive Unsigned : List UInt8 → Prop
  | name {text : List UInt8} : text.map lowercase ∈ spellings → Unsigned text
  | number {mantissa exponent : List UInt8} : Mantissa mantissa → Exponent exponent →
      Unsigned (mantissa ++ exponent)

/-- A literal of the standard library. -/
def Literal (bytes : List UInt8) : Prop :=
  ∃ sign body, bytes = signText sign ++ body ∧ Unsigned body

/-- The reason is the smallest offset such that no literal starts with the bytes up to it and
including it, or the end of a text that is not a literal but the start of one. -/
def Blames (bytes : List UInt8) : Invalid → Prop
  | .byte offset actual => bytes[offset]? = some actual ∧
      ¬Viable Literal (bytes.take (offset + 1)) ∧
      ∀ index < offset, Viable Literal (bytes.take (index + 1))
  | .missing offset => offset = bytes.length ∧ Viable Literal bytes ∧ ¬Literal bytes
  | _ => False

theorem Unsigned.ne_nil {body : List UInt8} (h : Unsigned body) : body ≠ [] := by
  rintro rfl
  generalize htext : ([] : List UInt8) = text at h
  cases h with
  | name hname =>
    rw [← htext] at hname
    exact absurd hname (by decide)
  | number hmantissa _ =>
    obtain ⟨rfl, -⟩ := List.append_eq_nil_iff.mp htext.symm
    generalize hnil : ([] : List UInt8) = text at hmantissa
    cases hmantissa with
    | whole hne _ => exact hne hnil.symm
    | point _ _ _ => simp at hnil

theorem mem_signText {sign : Option Bool} {byte : UInt8} (h : byte ∈ signText sign) :
    byte = 43 ∨ byte = 45 := by
  rcases sign with _ | _ | _
  · cases h
  · exact Or.inl (List.mem_singleton.mp h)
  · exact Or.inr (List.mem_singleton.mp h)

/-! ## The automaton -/

/-- What has been read of a literal. A name keeps the letters that are still to come. -/
inductive Progress where
  | start
  | signed
  | whole
  | point
  | fraction
  | mark
  | markSigned
  | exponent
  | name (pending : List UInt8) (plain : ∀ byte ∈ pending, lowercase byte = byte)

/-- What a name has left behind its first letter. -/
def nfinity : List UInt8 :=
  [110, 102, 105, 110, 105, 116, 121]

/-- What the long name has left behind the short one. -/
def inity : List UInt8 :=
  [105, 110, 105, 116, 121]

theorem plain_nfinity : ∀ byte ∈ nfinity, lowercase byte = byte := by
  have hall : nfinity.all (fun byte => lowercase byte == byte) = true := by decide
  exact fun byte h => eq_of_beq (List.all_eq_true.mp hall byte h)

theorem plain_an : ∀ byte ∈ [97, 110], lowercase byte = byte := by
  have hall : [97, 110].all (fun byte => lowercase byte == byte) = true := by decide
  exact fun byte h => eq_of_beq (List.all_eq_true.mp hall byte h)

namespace Progress

/-- The step at the front of a literal without its sign. -/
def body (byte : UInt8) : Option Progress :=
  if IsDigit byte then some whole
  else if byte = 46 then some point
  else if lowercase byte = 105 then some (name nfinity plain_nfinity)
  else if lowercase byte = 110 then some (name [97, 110] plain_an)
  else none

/-- The step of the automaton. -/
def step : Progress → UInt8 → Option Progress
  | start, byte => if byte = 43 ∨ byte = 45 then some signed else body byte
  | signed, byte => body byte
  | whole, byte =>
    if IsDigit byte then some whole
    else if byte = 46 then some fraction
    else if IsMark byte then some mark
    else none
  | point, byte => if IsDigit byte then some fraction else none
  | fraction, byte =>
    if IsDigit byte then some fraction else if IsMark byte then some mark else none
  | mark, byte =>
    if byte = 43 ∨ byte = 45 then some markSigned
    else if IsDigit byte then some exponent
    else none
  | markSigned, byte => if IsDigit byte then some exponent else none
  | exponent, byte => if IsDigit byte then some exponent else none
  | name [] _, _ => none
  | name (letter :: pending) plain, byte =>
    if lowercase byte = letter then
      some (name pending fun byte h => plain byte (List.mem_cons_of_mem letter h))
    else none

/-- The states in which a literal may end. -/
def accepts : Progress → Bool
  | whole | fraction | exponent => true
  | name pending _ => pending == [] || pending == inity
  | _ => false

/-- The letters that are still to come complete a name. -/
theorem runFrom_name : ∀ (pending : List UInt8) (plain : ∀ byte ∈ pending, lowercase byte = byte),
    runFrom step (name pending plain) pending = some (name [] (by simp))
  | [], _ => rfl
  | letter :: pending, plain => by
    rw [runFrom_cons, step, if_pos (plain letter List.mem_cons_self), Option.bind_some]
    exact runFrom_name pending _

/-- Every state can be completed. -/
theorem live : ∀ state, ∃ rest last, runFrom step state rest = some last ∧ accepts last = true
  | start => ⟨[48], whole, rfl, rfl⟩
  | signed => ⟨[48], whole, rfl, rfl⟩
  | whole => ⟨[], whole, rfl, rfl⟩
  | point => ⟨[48], fraction, rfl, rfl⟩
  | fraction => ⟨[], fraction, rfl, rfl⟩
  | mark => ⟨[48], exponent, rfl, rfl⟩
  | markSigned => ⟨[48], exponent, rfl, rfl⟩
  | exponent => ⟨[], exponent, rfl, rfl⟩
  | name pending plain => ⟨pending, name [] (by simp), runFrom_name pending plain, rfl⟩

/-- What has been read in a state. -/
def Describes : Progress → List UInt8 → Prop
  | start, text => text = []
  | signed, text => ∃ sign, text = signText sign
  | whole, text => ∃ sign digits, text = signText sign ++ digits ∧ digits ≠ [] ∧ Digits digits
  | point, text => ∃ sign, text = signText sign ++ [46]
  | fraction, text => ∃ sign whole fraction, text = signText sign ++ (whole ++ 46 :: fraction) ∧
      whole ++ fraction ≠ [] ∧ Digits whole ∧ Digits fraction
  | mark, text => ∃ sign mantissa mark, text = signText sign ++ (mantissa ++ [mark]) ∧
      Mantissa mantissa ∧ IsMark mark
  | markSigned, text => ∃ sign mantissa mark power,
      text = signText sign ++ (mantissa ++ mark :: signText power) ∧ Mantissa mantissa ∧ IsMark mark
  | exponent, text => ∃ sign mantissa mark power digits,
      text = signText sign ++ (mantissa ++ mark :: (signText power ++ digits)) ∧
      Mantissa mantissa ∧ IsMark mark ∧ digits ≠ [] ∧ Digits digits
  | name pending _, text => ∃ sign letters, text = signText sign ++ letters ∧
      (letters.map lowercase ++ pending = 105 :: nfinity ∨
        letters.map lowercase ++ pending = [110, 97, 110])

end Progress

/-- The automaton of the literals. -/
def literals : Automaton Progress UInt8 where
  start := .start
  step := Progress.step
  accepts := Progress.accepts
  live := Progress.live

/-! ## The automaton reads the literals -/

theorem Digits.cons_iff {byte : UInt8} {text : List UInt8} :
    Digits (byte :: text) ↔ IsDigit byte ∧ Digits text :=
  List.forall_mem_cons

theorem Digits.concat {text : List UInt8} {byte : UInt8} (h : Digits text) (hbyte : IsDigit byte) :
    Digits (text ++ [byte]) := by
  intro b hb
  rcases List.mem_append.mp hb with hb | hb
  · exact h b hb
  · rw [List.mem_singleton.mp hb]
    exact hbyte

theorem digits_nil : Digits [] :=
  fun _ h => absurd h List.not_mem_nil

theorem digits_singleton {byte : UInt8} (h : IsDigit byte) : Digits [byte] :=
  digits_nil.concat h

namespace Progress

variable {byte : UInt8} {next : Progress} {text : List UInt8}

/-- The steps at the front of a literal without its sign. -/
theorem describes_body (sign : Option Bool) (h : body byte = some next) :
    next.Describes (signText sign ++ [byte]) := by
  unfold body at h
  split_ifs at h with hdigit hpoint hinf hnan
  · cases h
    exact ⟨sign, [byte], rfl, by simp, digits_singleton hdigit⟩
  · cases h
    rw [hpoint]
    exact ⟨sign, rfl⟩
  · cases h
    exact ⟨sign, [byte], rfl, Or.inl (by rw [List.map_singleton, hinf]; rfl)⟩
  · cases h
    exact ⟨sign, [byte], rfl, Or.inr (by rw [List.map_singleton, hnan]; rfl)⟩

/-- A step keeps the description of what has been read. -/
theorem describes_step : ∀ {state : Progress}, state.Describes text →
    state.step byte = some next → next.Describes (text ++ [byte])
  | start, htext, h => by
    rw [show text = signText none from htext]
    rw [step] at h
    split_ifs at h with hsign
    · cases h
      rcases hsign with rfl | rfl
      · exact ⟨some false, rfl⟩
      · exact ⟨some true, rfl⟩
    · exact describes_body none h
  | signed, ⟨sign, htext⟩, h => by
    rw [htext]
    exact describes_body sign h
  | whole, ⟨sign, digits, htext, hne, hdigits⟩, h => by
    rw [htext, List.append_assoc]
    rw [step] at h
    split_ifs at h with hdigit hpoint hmark
    · cases h
      exact ⟨sign, digits ++ [byte], rfl, by simp, hdigits.concat hdigit⟩
    · cases h
      rw [hpoint]
      exact ⟨sign, digits, [], rfl, by simpa using hne, hdigits, digits_nil⟩
    · cases h
      exact ⟨sign, digits, byte, rfl, .whole hne hdigits, hmark⟩
  | point, ⟨sign, htext⟩, h => by
    rw [htext, List.append_assoc]
    rw [step] at h
    split_ifs at h with hdigit
    cases h
    exact ⟨sign, [], [byte], rfl, by simp, digits_nil, digits_singleton hdigit⟩
  | fraction, ⟨sign, digits, decimals, htext, hne, hdigits, hdecimals⟩, h => by
    rw [htext, List.append_assoc]
    rw [step] at h
    split_ifs at h with hdigit hmark
    · cases h
      exact ⟨sign, digits, decimals ++ [byte], by simp, by simp, hdigits,
        hdecimals.concat hdigit⟩
    · cases h
      exact ⟨sign, _, byte, rfl, .point hne hdigits hdecimals, hmark⟩
  | mark, ⟨sign, mantissa, letter, htext, hmantissa, hmark⟩, h => by
    rw [htext, List.append_assoc, List.append_assoc]
    rw [step] at h
    split_ifs at h with hsign hdigit
    · cases h
      rcases hsign with rfl | rfl
      · exact ⟨sign, mantissa, letter, some false, rfl, hmantissa, hmark⟩
      · exact ⟨sign, mantissa, letter, some true, rfl, hmantissa, hmark⟩
    · cases h
      exact ⟨sign, mantissa, letter, none, [byte], rfl, hmantissa, hmark, by simp,
        digits_singleton hdigit⟩
  | markSigned, ⟨sign, mantissa, letter, power, htext, hmantissa, hmark⟩, h => by
    rw [htext, List.append_assoc, List.append_assoc, List.cons_append]
    rw [step] at h
    split_ifs at h with hdigit
    cases h
    exact ⟨sign, mantissa, letter, power, [byte], rfl, hmantissa, hmark, by simp,
      digits_singleton hdigit⟩
  | exponent, ⟨sign, mantissa, letter, power, digits, htext, hmantissa, hmark, hne, hdigits⟩, h => by
    rw [htext]
    rw [step] at h
    split_ifs at h with hdigit
    cases h
    exact ⟨sign, mantissa, letter, power, digits ++ [byte], by simp, hmantissa, hmark, by simp,
      hdigits.concat hdigit⟩
  | name [] _, _, h => by cases h
  | name (letter :: pending) _, ⟨sign, letters, htext, hname⟩, h => by
    rw [step] at h
    split_ifs at h with hletter
    cases h
    refine ⟨sign, letters ++ [byte], by rw [htext, List.append_assoc], ?_⟩
    rw [List.map_append, List.map_singleton, hletter, List.append_assoc]
    exact hname

/-- What has been read in an accepting state is a literal. -/
theorem literal_of_describes : ∀ {state : Progress}, state.Describes text →
    state.accepts = true → Literal text
  | whole, ⟨sign, digits, htext, hne, hdigits⟩, _ =>
    ⟨sign, digits, htext, by simpa using Unsigned.number (.whole hne hdigits) .none⟩
  | fraction, ⟨sign, digits, decimals, htext, hne, hdigits, hdecimals⟩, _ =>
    ⟨sign, _, htext, by simpa using Unsigned.number (.point hne hdigits hdecimals) .none⟩
  | exponent, ⟨sign, mantissa, letter, power, digits, htext, hmantissa, hmark, hne, hdigits⟩, _ =>
    ⟨sign, _, htext, .number hmantissa (.some power hmark hne hdigits)⟩
  | name pending _, ⟨sign, letters, htext, hname⟩, h => by
    refine ⟨sign, letters, htext, .name ?_⟩
    rw [accepts, Bool.or_eq_true, beq_iff_eq, beq_iff_eq] at h
    rcases h with rfl | rfl
    · rw [List.append_nil] at hname
      rcases hname with hname | hname
      · rw [hname]
        decide
      · rw [hname]
        decide
    · rcases hname with hname | hname
      · have hshort : letters.map lowercase ++ inity = [105, 110, 102] ++ inity := hname
        rw [(List.append_left_inj inity).mp hshort]
        decide
      · have hlength := congrArg List.length hname
        simp [inity] at hlength

end Progress

/-! ## Runs over the parts of a literal -/

section

variable {byte : UInt8} {text digits : List UInt8} {state : Progress}

theorem not_sign_of_isDigit (h : IsDigit byte) : ¬(byte = 43 ∨ byte = 45) := by
  rintro (rfl | rfl)
  · exact absurd h (by decide)
  · exact absurd h (by decide)

theorem not_isDigit_of_isMark (h : IsMark byte) : ¬IsDigit byte ∧ byte ≠ 46 := by
  rcases h with rfl | rfl <;> decide

theorem run_whole (hne : digits ≠ []) (hdigits : Digits digits) :
    runFrom Progress.step .signed digits = some .whole :=
  runFrom_enters hne (fun a ha => if_pos (hdigits a ha)) fun a ha => if_pos (hdigits a ha)

theorem run_fraction (hdigits : Digits digits) :
    runFrom Progress.step .fraction digits = some .fraction :=
  runFrom_stays fun a ha => if_pos (hdigits a ha)

theorem run_point (hne : digits ≠ []) (hdigits : Digits digits) :
    runFrom Progress.step .point digits = some .fraction :=
  runFrom_enters hne (fun a ha => if_pos (hdigits a ha)) fun a ha => if_pos (hdigits a ha)

theorem run_power (sign : Option Bool) (hne : digits ≠ []) (hdigits : Digits digits) :
    runFrom Progress.step .mark (signText sign ++ digits) = some .exponent := by
  have hstays : ∀ a ∈ digits, Progress.step .exponent a = some .exponent :=
    fun a ha => if_pos (hdigits a ha)
  rcases sign with _ | _ | _
  · refine runFrom_enters hne (fun a ha => ?_) hstays
    exact (if_neg (not_sign_of_isDigit (hdigits a ha))).trans (if_pos (hdigits a ha))
  · exact (runFrom_cons 43 digits).trans
      (runFrom_enters hne (fun a ha => if_pos (hdigits a ha)) hstays)
  · exact (runFrom_cons 45 digits).trans
      (runFrom_enters hne (fun a ha => if_pos (hdigits a ha)) hstays)

/-- The whole digits, and a point if there is one. -/
theorem run_pointed (whole : List UInt8) (hwhole : Digits whole) :
    runFrom Progress.step .signed (whole ++ [46]) =
      some (if whole = [] then .point else .fraction) := by
  split_ifs with hne
  · rw [hne]
    rfl
  · rw [runFrom_append, run_whole hne hwhole, Option.bind_some]
    rfl

/-- A mantissa leads to a state that accepts and has a step for an exponent. -/
theorem run_mantissa {mantissa : List UInt8} (h : Mantissa mantissa) :
    ∃ state, runFrom Progress.step .signed mantissa = some state ∧ state.accepts = true ∧
      ∀ mark, IsMark mark → state.step mark = some .mark := by
  cases h with
  | whole hne hdigits =>
    refine ⟨.whole, run_whole hne hdigits, rfl, fun mark h => ?_⟩
    obtain ⟨hdigit, hpoint⟩ := not_isDigit_of_isMark h
    exact (if_neg hdigit).trans ((if_neg hpoint).trans (if_pos h))
  | @point whole fraction hne hwhole hfractions =>
    refine ⟨.fraction, ?_, rfl, fun mark h => ?_⟩
    rotate_left
    · exact (if_neg (not_isDigit_of_isMark h).1).trans (if_pos h)
    rw [List.append_cons, runFrom_append, run_pointed whole hwhole, Option.bind_some]
    split_ifs with hnil
    · refine run_point ?_ hfractions
      rintro rfl
      exact hne (by rw [hnil, List.append_nil])
    · exact run_fraction hfractions

/-- The letters of a name, and those that are still to come. -/
theorem run_name : ∀ (letters : List UInt8) {pending rest : List UInt8}
    (plain : ∀ byte ∈ pending, lowercase byte = byte), pending = letters.map lowercase ++ rest →
    ∃ still, runFrom Progress.step (.name pending plain) letters = some (.name rest still)
  | [], pending, rest, plain, h => by
    subst h
    exact ⟨plain, rfl⟩
  | letter :: letters, pending, rest, plain, h => by
    subst h
    rw [runFrom_cons]
    simp only [List.map_cons, List.cons_append, Progress.step, if_true, Option.bind_some]
    exact run_name letters _ rfl

theorem not_isDigit_of_letter (h : lowercase byte = 105 ∨ lowercase byte = 110) :
    ¬IsDigit byte ∧ byte ≠ 46 := by
  constructor
  · rintro ⟨-, hle⟩
    have hlower : lowercase byte = byte :=
      if_neg fun hupper => absurd (UInt8.le_trans hupper.1 hle) (by decide)
    rw [hlower] at h
    rcases h with rfl | rfl
    · exact absurd hle (by decide)
    · exact absurd hle (by decide)
  · rintro rfl
    exact absurd h (by decide)

/-- The names lead to an accepting state. -/
theorem run_spelling (h : text.map lowercase ∈ spellings) :
    ∃ state, runFrom Progress.step .signed text = some state ∧ state.accepts = true := by
  cases text with
  | nil => exact absurd h (by decide)
  | cons letter letters =>
    simp only [spellings, List.map_cons, List.mem_cons, List.cons.injEq, List.not_mem_nil,
      or_false] at h
    have hstep : ∀ (pending : List UInt8) (plain : ∀ byte ∈ pending, lowercase byte = byte)
        (rest : List UInt8), Progress.step .signed letter = some (.name pending plain) →
        pending = letters.map lowercase ++ rest → rest = [] ∨ rest = inity →
        ∃ state, runFrom Progress.step .signed (letter :: letters) = some state ∧
          state.accepts = true := by
      intro pending plain rest hstep hpending hrest
      obtain ⟨still, hrun⟩ := run_name letters plain hpending
      refine ⟨.name rest still, by rw [runFrom_cons, hstep, Option.bind_some, hrun], ?_⟩
      rcases hrest with rfl | rfl <;> rfl
    rcases h with ⟨hi, hletters⟩ | ⟨hi, hletters⟩ | ⟨hn, hletters⟩
    · obtain ⟨hdigit, hpoint⟩ := not_isDigit_of_letter (Or.inl hi)
      refine hstep nfinity plain_nfinity inity ?_ (by rw [hletters]; rfl) (Or.inr rfl)
      exact (if_neg hdigit).trans ((if_neg hpoint).trans (if_pos hi))
    · obtain ⟨hdigit, hpoint⟩ := not_isDigit_of_letter (Or.inl hi)
      refine hstep nfinity plain_nfinity [] ?_ (by rw [hletters]; rfl) (Or.inl rfl)
      exact (if_neg hdigit).trans ((if_neg hpoint).trans (if_pos hi))
    · obtain ⟨hdigit, hpoint⟩ := not_isDigit_of_letter (Or.inr hn)
      refine hstep [97, 110] plain_an [] ?_ (by rw [hletters]; rfl) (Or.inl rfl)
      have hi : lowercase letter ≠ 105 := by
        rw [hn]
        decide
      exact (if_neg hdigit).trans ((if_neg hpoint).trans ((if_neg hi).trans (if_pos hn)))

theorem run_unsigned (h : Unsigned text) :
    ∃ state, runFrom Progress.step .signed text = some state ∧ state.accepts = true := by
  cases h with
  | name hname => exact run_spelling hname
  | @number mantissa exponent hmantissa hexponent =>
    obtain ⟨state, hrun, haccept, hmark⟩ := run_mantissa hmantissa
    cases hexponent with
    | none => exact ⟨state, by rw [List.append_nil, hrun], haccept⟩
    | some sign hletter hne hdigits =>
      refine ⟨.exponent, ?_, rfl⟩
      rw [runFrom_append, hrun, Option.bind_some, runFrom_cons, hmark _ hletter, Option.bind_some]
      exact run_power sign hne hdigits

/-! ## The sign -/

/-- The state behind the sign. -/
def afterSign (sign : Option Bool) : Progress :=
  if sign = none then .start else .signed

theorem run_sign (sign : Option Bool) : literals.run (signText sign) = some (afterSign sign) := by
  rcases sign with _ | _ | _ <;> rfl

/-- A text that is no sign goes on as behind a sign. -/
theorem step_afterSign {sign : Option Bool} (h : sign = none → byte ≠ 43 ∧ byte ≠ 45) :
    Progress.step (afterSign sign) byte = Progress.body byte := by
  rcases sign with _ | _ | _
  · obtain ⟨hplus, hminus⟩ := h rfl
    exact if_neg (not_or.mpr ⟨hplus, hminus⟩)
  · rfl
  · rfl

theorem body_sign (h : Progress.body byte ≠ none) : byte ≠ 43 ∧ byte ≠ 45 := by
  constructor
  · rintro rfl
    exact h rfl
  · rintro rfl
    exact h rfl

/-- The sign, and what is read behind it. -/
theorem run_signed (sign : Option Bool) (hne : text ≠ [])
    (h : runFrom Progress.step .signed text = some state) :
    literals.run (signText sign ++ text) = some state := by
  cases text with
  | nil => exact absurd rfl hne
  | cons byte rest =>
    rw [Automaton.run_append (run_sign sign), runFrom_cons]
    obtain ⟨next, hnext, hrest⟩ := Option.bind_eq_some_iff.mp h
    have hbody : Progress.body byte ≠ none := by
      rw [show Progress.body byte = some next from hnext]
      exact Option.some_ne_none next
    have hstep : literals.step (afterSign sign) byte = some next :=
      (step_afterSign fun _ => body_sign hbody).trans hnext
    rw [hstep, Option.bind_some]
    exact hrest

/-- The automaton accepts the literals. -/
theorem literal_iff (text : List UInt8) : Literal text ↔ literals.Accepts text := by
  constructor
  · rintro ⟨sign, body, rfl, h⟩
    obtain ⟨state, hrun, haccept⟩ := run_unsigned h
    exact ⟨state, run_signed sign h.ne_nil hrun, haccept⟩
  · rintro ⟨state, hrun, haccept⟩
    refine Progress.literal_of_describes ?_ haccept
    have hstart : Progress.Describes literals.start [] := rfl
    exact Automaton.run_induction Progress.Describes hstart
      (fun _ _ _ _ => Progress.describes_step) text state hrun

end

/-! ## What is reported -/

/-- Nothing is reported of a literal, and of another text what is wrong with it. -/
def Told (bytes : List UInt8) (cause : Option Invalid) : Prop :=
  (cause = none ↔ Literal bytes) ∧ ∀ reason, cause = some reason → Blames bytes reason

section

variable {front rest : List UInt8} {byte : UInt8} {state : Progress}

theorem getElem?_front (front rest : List UInt8) : (front ++ rest)[front.length]? = rest.head? := by
  rw [List.getElem?_append_right (le_refl _), Nat.sub_self, List.head?_eq_getElem?]

/-- The byte that the automaton has no step for. -/
theorem told_byte (hrun : literals.run front = some state) (hstep : state.step byte = none) :
    Told (front ++ byte :: rest) (some (.byte front.length byte)) := by
  obtain ⟨hviable, hstuck⟩ := Automaton.stuck literal_iff hrun hstep
  have hsplit : front ++ byte :: rest = front ++ [byte] ++ rest := List.append_cons ..
  refine ⟨⟨fun h => (by cases h), fun h => ?_⟩, ?_⟩
  · exact absurd ⟨rest, hsplit ▸ h⟩ hstuck
  · rintro _ ⟨⟩
    refine ⟨getElem?_front .., ?_, fun index hindex => ?_⟩
    · rwa [hsplit, List.take_left' (by rw [List.length_append, List.length_singleton])]
    · rw [List.take_append_of_le_length (by omega)]
      exact hviable.take (index + 1)

/-- A text that ends in a state that accepts. -/
theorem told_none (hrun : literals.run front = some state) (haccept : state.accepts = true) :
    Told front none :=
  ⟨⟨fun _ => (Automaton.language_iff literal_iff hrun).mpr haccept, fun _ => rfl⟩,
    fun _ h => (by cases h)⟩

/-- A text that ends in another state. -/
theorem told_end (hrun : literals.run front = some state) (haccept : state.accepts = false) :
    Told front (some (.missing front.length)) := by
  have hnot : ¬Literal front := by
    rw [Automaton.language_iff literal_iff hrun]
    exact fun h => Bool.false_ne_true (haccept.symm.trans h)
  refine ⟨⟨fun h => (by cases h), fun h => absurd h hnot⟩, ?_⟩
  rintro _ ⟨⟩
  refine ⟨rfl, (Automaton.viable_iff literal_iff).mpr ?_, hnot⟩
  rw [hrun]
  rfl

/-- The byte behind a text that is no literal, or its end. -/
theorem told_stop (hrun : literals.run front = some state) (haccept : state.accepts = false)
    (hstep : ∀ byte ∈ rest.head?, state.step byte = none) :
    Told (front ++ rest) (some (stopAt (front ++ rest) front.length)) := by
  unfold stopAt
  rw [getElem?_front]
  cases rest with
  | cons byte rest => exact told_byte hrun (hstep byte rfl)
  | nil =>
    rw [List.append_nil]
    exact told_end hrun haccept

/-- The byte behind a literal, if there is one. -/
theorem told_last (hrun : literals.run front = some state) (haccept : state.accepts = true)
    (hstep : ∀ byte ∈ rest.head?, state.step byte = none) :
    Told (front ++ rest) (((front ++ rest)[front.length]?).map (.byte front.length)) := by
  rw [getElem?_front]
  cases rest with
  | cons byte rest => exact told_byte hrun (hstep byte rfl)
  | nil =>
    rw [List.append_nil]
    exact told_none hrun haccept

end

/-! ## Decimal numbers -/

section

variable {front digits rest : List UInt8}

/-- A text is cut behind the digits at its front. -/
theorem exists_digits : ∀ text : List UInt8, ∃ digits rest, text = digits ++ rest ∧
    Digits digits ∧ ∀ byte ∈ rest.head?, ¬IsDigit byte
  | [] => ⟨[], [], rfl, digits_nil, by simp⟩
  | byte :: text => by
    by_cases hdigit : IsDigit byte
    · obtain ⟨digits, rest, rfl, hdigits, hrest⟩ := exists_digits text
      exact ⟨byte :: digits, rest, rfl, Digits.cons_iff.mpr ⟨hdigit, hdigits⟩, hrest⟩
    · refine ⟨[], byte :: text, rfl, digits_nil, ?_⟩
      rintro _ ⟨⟩
      exact hdigit

theorem digitRun_append : ∀ {digits rest : List UInt8}, Digits digits →
    (∀ byte ∈ rest.head?, ¬IsDigit byte) → digitRun (digits ++ rest) = digits.length
  | [], [], _, _ => rfl
  | [], byte :: rest, _, hrest => by
    have hbyte : ¬(48 ≤ byte ∧ byte ≤ 57) := hrest byte rfl
    simp [digitRun, hbyte]
  | byte :: digits, rest, hdigits, hrest => by
    obtain ⟨hbyte, hdigits⟩ := Digits.cons_iff.mp hdigits
    have hbyte' : 48 ≤ byte ∧ byte ≤ 57 := hbyte
    have ih := digitRun_append hdigits hrest
    simp only [digitRun, List.cons_append, List.length_cons] at ih ⊢
    rw [List.takeWhile_cons_of_pos (by simpa using hbyte'), List.length_cons, ih]

/-- The offset behind the digits. -/
theorem skip_append (hdigits : Digits digits) (hrest : ∀ byte ∈ rest.head?, ¬IsDigit byte) :
    skip (front ++ (digits ++ rest)) front.length = (front ++ digits).length := by
  rw [skip, List.drop_left, digitRun_append hdigits hrest, List.length_append]

/-- The part of `decimalCause` behind the mantissa. -/
def exponentCause (bytes : List UInt8) (cursor : ℕ) : Option Invalid :=
  let marked := bytes[cursor]? = some 101 ∨ bytes[cursor]? = some 69
  let sign := bytes[cursor + 1]? = some 43 ∨ bytes[cursor + 1]? = some 45
  let exponent := if sign then cursor + 2 else cursor + 1
  if marked ∧ skip bytes exponent = exponent then some (stopAt bytes exponent)
  else
    let last := if marked then skip bytes exponent else cursor
    (bytes[last]?).map (.byte last)

/-- Without a mark there is no exponent. -/
theorem exponentCause_plain (h : ∀ byte ∈ rest.head?, ¬IsMark byte) :
    exponentCause (front ++ rest) front.length =
      ((front ++ rest)[front.length]?).map (.byte front.length) := by
  have hmark : ¬((front ++ rest)[front.length]? = some 101 ∨
      (front ++ rest)[front.length]? = some 69) := by
    rw [getElem?_front]
    rintro (hbyte | hbyte)
    · exact h 101 hbyte (Or.inl rfl)
    · exact h 69 hbyte (Or.inr rfl)
  unfold exponentCause
  dsimp only
  rw [if_neg fun hboth => hmark hboth.1, if_neg hmark]

/-- With a mark, and a sign. -/
theorem exponentCause_marked {mark : UInt8} {sign : Option Bool} (hmark : IsMark mark)
    (hsplit : Split (signText sign ++ rest) sign rest) :
    exponentCause (front ++ mark :: (signText sign ++ rest)) front.length =
      let bytes := front ++ mark :: (signText sign ++ rest)
      let exponent := (front ++ mark :: signText sign).length
      if skip bytes exponent = exponent then some (stopAt bytes exponent)
      else (bytes[skip bytes exponent]?).map (.byte (skip bytes exponent)) := by
  have hmarked : (front ++ mark :: (signText sign ++ rest))[front.length]? = some 101 ∨
      (front ++ mark :: (signText sign ++ rest))[front.length]? = some 69 := by
    rw [getElem?_front]
    rcases hmark with rfl | rfl
    · exact Or.inl rfl
    · exact Or.inr rfl
  have hnext : (front ++ mark :: (signText sign ++ rest))[front.length + 1]? =
      (signText sign ++ rest).head? := by
    rw [List.append_cons]
    have hlength : front.length + 1 = (front ++ [mark]).length := by simp
    rw [hlength, getElem?_front]
  have hexponent : (if (signText sign ++ rest).head? = some 43 ∨
      (signText sign ++ rest).head? = some 45 then front.length + 2 else front.length + 1) =
        (front ++ mark :: signText sign).length := by
    rcases sign with _ | _ | _
    · have hno : ¬((signText none ++ rest).head? = some 43 ∨
          (signText none ++ rest).head? = some 45) := by
        rintro (hbyte | hbyte)
        · exact (hsplit.2 rfl 43 hbyte).1 rfl
        · exact (hsplit.2 rfl 45 hbyte).2 rfl
      rw [if_neg hno]
      simp [signText]
    · simp [signText]
    · simp [signText]
  unfold exponentCause
  dsimp only
  rw [hnext, hexponent]
  simp only [hmarked, true_and, if_true]

/-- The mark, the sign and the digits of an exponent behind a mantissa. -/
theorem told_exponent {state : Progress} (hrun : literals.run front = some state)
    (haccept : state.accepts = true) (hmark : ∀ mark, IsMark mark → state.step mark = some .mark)
    (hstep : ∀ byte ∈ rest.head?, ¬IsMark byte → state.step byte = none) :
    Told (front ++ rest) (exponentCause (front ++ rest) front.length) := by
  by_cases hrest : ∃ mark text, rest = mark :: text ∧ IsMark mark
  · obtain ⟨mark, text, rfl, hletter⟩ := hrest
    obtain ⟨sign, body, hsplit⟩ := exists_split text
    obtain ⟨rfl, hsign⟩ := hsplit
    obtain ⟨digits, rest, rfl, hdigits, hrest⟩ := exists_digits body
    have hbytes : front ++ mark :: (signText sign ++ (digits ++ rest)) =
        (front ++ mark :: signText sign) ++ (digits ++ rest) := by simp
    rw [exponentCause_marked hletter ⟨rfl, hsign⟩]
    dsimp only
    rw [hbytes, skip_append hdigits hrest]
    have hmarked : literals.run (front ++ [mark]) = some .mark := by
      rw [Automaton.run_append hrun, runFrom_cons]
      exact congrArg (Option.bind · _) (hmark mark hletter)
    split_ifs with hlength
    · have hnil : digits = [] := by
        rw [List.length_append] at hlength
        exact List.eq_nil_of_length_eq_zero (by omega)
      subst hnil
      rw [List.nil_append] at hsign ⊢
      have hpower : ∃ state, literals.run (front ++ mark :: signText sign) = some state ∧
          state.accepts = false ∧ ∀ byte ∈ rest.head?, state.step byte = none := by
        rw [List.append_cons, Automaton.run_append hmarked]
        rcases sign with _ | _ | _
        · refine ⟨.mark, rfl, rfl, fun byte hbyte => ?_⟩
          obtain ⟨hplus, hminus⟩ := hsign rfl byte hbyte
          exact (if_neg (not_or.mpr ⟨hplus, hminus⟩)).trans (if_neg (hrest byte hbyte))
        · exact ⟨.markSigned, rfl, rfl, fun byte hbyte => if_neg (hrest byte hbyte)⟩
        · exact ⟨.markSigned, rfl, rfl, fun byte hbyte => if_neg (hrest byte hbyte)⟩
      obtain ⟨last, hlast, hno, hstuck⟩ := hpower
      exact told_stop hlast hno hstuck
    · have hne : digits ≠ [] := by
        rintro rfl
        exact hlength (by rw [List.append_nil])
      have hexponent : literals.run (front ++ mark :: signText sign ++ digits) =
          some .exponent := by
        rw [List.append_assoc, List.cons_append, List.append_cons, Automaton.run_append hmarked]
        exact run_power sign hne hdigits
      rw [← List.append_assoc]
      exact told_last hexponent rfl fun byte hbyte => if_neg (hrest byte hbyte)
  · have hplain : ∀ byte ∈ rest.head?, ¬IsMark byte := by
      intro byte hbyte hletter
      obtain ⟨text, rfl⟩ : ∃ text, rest = byte :: text := by
        cases rest with
        | nil => cases hbyte
        | cons first text => exact ⟨text, by rw [Option.some.inj hbyte]⟩
      exact hrest ⟨byte, text, rfl, hletter⟩
    rw [exponentCause_plain hplain]
    exact told_last hrun haccept fun byte hbyte => hstep byte hbyte (hplain byte hbyte)

/-- The mantissa : its digits, and where it ends. -/
theorem decimalCause_eq (bytes : List UInt8) (start : ℕ) :
    decimalCause bytes start =
      let whole := skip bytes start
      let point := bytes[whole]? = some 46
      let cursor := if point then skip bytes (whole + 1) else whole
      if (if point then cursor - start - 1 else cursor - start) = 0 then
        some (stopAt bytes cursor)
      else exponentCause bytes cursor :=
  rfl

/-- A text that is not a name is read as a number. -/
theorem told_decimal {sign : Option Bool} {body : List UInt8}
    (hsplit : Split (signText sign ++ body) sign body)
    (hnamed : ∀ byte ∈ body.head?, named byte = none) :
    Told (signText sign ++ body)
      (decimalCause (signText sign ++ body) (signText sign).length) := by
  obtain ⟨whole, rest, rfl, hwhole, hrest⟩ := exists_digits body
  rw [decimalCause_eq, skip_append hwhole hrest]
  dsimp only
  rw [← List.append_assoc, getElem?_front]
  by_cases hpoint : rest.head? = some 46
  · obtain ⟨text, rfl⟩ : ∃ text, rest = 46 :: text := by
      cases rest with
      | nil => cases hpoint
      | cons first text => exact ⟨text, by rw [Option.some.inj hpoint]⟩
    obtain ⟨fraction, rest, rfl, hfraction, hstop⟩ := exists_digits text
    simp only [List.head?_cons, if_true]
    have hbytes : signText sign ++ whole ++ 46 :: (fraction ++ rest) =
        signText sign ++ (whole ++ [46]) ++ (fraction ++ rest) := by simp
    have hlength : (signText sign ++ whole).length + 1 =
        (signText sign ++ (whole ++ [46])).length := by
      simp only [List.length_append, List.length_singleton]
      omega
    rw [hbytes, hlength, skip_append hfraction hstop]
    have hrun := run_signed sign (by simp) (run_pointed whole hwhole)
    split_ifs with hcount
    · simp only [List.length_append, List.length_singleton] at hcount
      obtain rfl : whole = [] := List.eq_nil_of_length_eq_zero (by omega)
      obtain rfl : fraction = [] := List.eq_nil_of_length_eq_zero (by omega)
      rw [if_pos rfl] at hrun
      rw [List.nil_append, List.append_nil]
      exact told_stop hrun rfl fun byte hbyte => if_neg (hstop byte hbyte)
    · have hne : whole ++ fraction ≠ [] := by
        intro hnil
        obtain ⟨rfl, rfl⟩ := List.append_eq_nil_iff.mp hnil
        exact hcount (by simp)
      have hfractions : literals.run (signText sign ++ (whole ++ [46]) ++ fraction) =
          some .fraction := by
        rw [Automaton.run_append hrun]
        split_ifs with hnil
        · refine run_point ?_ hfraction
          rintro rfl
          exact hne (by rw [hnil, List.append_nil])
        · exact run_fraction hfraction
      rw [← List.append_assoc]
      refine told_exponent hfractions rfl (fun mark hmark => ?_) fun byte hbyte hmark => ?_
      · exact (if_neg (not_isDigit_of_isMark hmark).1).trans (if_pos hmark)
      · exact (if_neg (hstop byte hbyte)).trans (if_neg hmark)
  · rw [if_neg hpoint, if_neg hpoint]
    split_ifs with hcount
    · rw [List.length_append] at hcount
      obtain rfl : whole = [] := List.eq_nil_of_length_eq_zero (by omega)
      rw [List.append_nil]
      refine told_stop (run_sign sign) (by rcases sign with _ | _ | _ <;> rfl) fun byte hbyte => ?_
      rw [step_afterSign fun hnone => hsplit.2 hnone byte hbyte]
      have hname := hnamed byte hbyte
      unfold named at hname
      split_ifs at hname with hinf hnan
      exact (if_neg (hrest byte hbyte)).trans ((if_neg fun heq : byte = 46 => hpoint (heq ▸ hbyte)).trans
        ((if_neg hinf).trans (if_neg hnan)))
    · have hne : whole ≠ [] := by
        rintro rfl
        exact hcount (by simp)
      refine told_exponent (run_signed sign hne (run_whole hne hwhole)) rfl (fun mark hmark => ?_)
        fun byte hbyte hmark => ?_
      · obtain ⟨hdigit, hpoint⟩ := not_isDigit_of_isMark hmark
        exact (if_neg hdigit).trans ((if_neg hpoint).trans (if_pos hmark))
      · exact (if_neg (hrest byte hbyte)).trans
          ((if_neg fun heq : byte = 46 => hpoint (heq ▸ hbyte)).trans (if_neg hmark))

end

/-! ## Names -/

section

/-- The first letter of a body is that of a name, and what the name has left. -/
theorem body_named {head : UInt8} {spelling : List UInt8} {terminal : ℕ}
    (h : named head = some (spelling, terminal)) :
    ∃ pending plain, Progress.body head = some (.name pending plain) ∧
      spelling = lowercase head :: pending ∧ terminal = 3 ∧
      (pending = nfinity ∨ pending = [97, 110]) := by
  unfold named at h
  split_ifs at h with hinf hnan
  · cases h
    obtain ⟨hdigit, hpoint⟩ := not_isDigit_of_letter (Or.inl hinf)
    refine ⟨nfinity, plain_nfinity, ?_, by rw [hinf]; rfl, rfl, Or.inl rfl⟩
    exact (if_neg hdigit).trans ((if_neg hpoint).trans (if_pos hinf))
  · cases h
    obtain ⟨hdigit, hpoint⟩ := not_isDigit_of_letter (Or.inr hnan)
    refine ⟨[97, 110], plain_an, ?_, by rw [hnan], rfl, Or.inr rfl⟩
    exact (if_neg hdigit).trans ((if_neg hpoint).trans ((if_neg hinf).trans (if_pos hnan)))

/-- A body and a spelling agree up to a first difference, or up to the end of one of them. -/
theorem exists_common : ∀ body spelling : List UInt8, ∃ common rest pending,
    body = common ++ rest ∧ spelling = common.map lowercase ++ pending ∧
      ∀ byte ∈ rest.head?, ∀ letter ∈ pending.head?, lowercase byte ≠ letter
  | [], spelling => ⟨[], [], spelling, rfl, rfl, by simp⟩
  | byte :: body, [] => ⟨[], byte :: body, [], rfl, rfl, by simp⟩
  | byte :: body, letter :: spelling => by
    by_cases heq : lowercase byte = letter
    · obtain ⟨common, rest, pending, rfl, rfl, hdiffer⟩ := exists_common body spelling
      exact ⟨byte :: common, rest, pending, rfl, by rw [List.map_cons, heq]; rfl, hdiffer⟩
    · refine ⟨[], byte :: body, letter :: spelling, rfl, rfl, ?_⟩
      rintro _ ⟨⟩ _ ⟨⟩
      exact heq

/-- The comparison of a name with its spelling. -/
theorem findIdx?_common : ∀ (common : List UInt8) {rest pending : List UInt8},
    (∀ byte ∈ rest.head?, ∀ letter ∈ pending.head?, lowercase byte ≠ letter) →
    ((common ++ rest).zip (common.map lowercase ++ pending)).findIdx?
        (fun pair => lowercase pair.1 ≠ pair.2) =
      if rest = [] ∨ pending = [] then none else some common.length
  | [], [], _, _ => by simp
  | [], _ :: _, [], _ => by simp
  | [], byte :: rest, letter :: pending, h => by
    simp [List.findIdx?_cons, h byte rfl letter rfl]
  | byte :: common, rest, pending, h => by
    have ih := findIdx?_common common h
    rw [List.cons_append, List.map_cons, List.cons_append, List.zip_cons_cons, List.findIdx?_cons,
      ih]
    split_ifs <;> simp_all

/-- A name may end where its spelling or its short form does. -/
theorem name_accepts (letters : List UInt8) {whole pending : List UInt8}
    (hwhole : whole = nfinity ∨ whole = [97, 110])
    (h : whole = letters ++ pending) (still : ∀ byte ∈ pending, lowercase byte = byte) :
    (Progress.name pending still).accepts = true ↔ letters.length = 2 ∨ pending = [] := by
  have hpending : pending = whole.drop letters.length := by rw [h, List.drop_left]
  rw [Progress.accepts, Bool.or_eq_true, beq_iff_eq, beq_iff_eq]
  constructor
  · rintro (hnil | hinity)
    · exact Or.inr hnil
    · refine Or.inl ?_
      have hlength := congrArg List.length h
      rw [List.length_append, hinity] at hlength
      rcases hwhole with rfl | rfl
      · simp only [nfinity, inity, List.length_cons, List.length_nil] at hlength
        omega
      · simp only [inity, List.length_cons, List.length_nil] at hlength
        omega
  · rintro (htwo | hnil)
    · rw [htwo] at hpending
      rcases hwhole with rfl | rfl
      · exact Or.inr hpending
      · exact Or.inl hpending
    · exact Or.inl hnil

/-- A text that starts with the first letter of a name is read as one. -/
theorem told_name {head : UInt8} {tail spelling : List UInt8} {terminal : ℕ} (sign : Option Bool)
    (h : named head = some (spelling, terminal)) :
    Told (signText sign ++ head :: tail)
      (floatCause (signText sign ++ head :: tail) head (head :: tail) (signText sign).length) := by
  obtain ⟨whole, plain, hbody, rfl, rfl, hwhole⟩ := body_named h
  obtain ⟨common, rest, pending, rfl, hpending, hdiffer⟩ := exists_common tail whole
  obtain ⟨still, hname⟩ := run_name common plain hpending
  have hrun : literals.run (signText sign ++ head :: common) = some (.name pending still) := by
    refine run_signed sign (List.cons_ne_nil head common) ?_
    rw [runFrom_cons]
    exact (congrArg (Option.bind · _) hbody).trans hname
  have hbytes : signText sign ++ head :: (common ++ rest) =
      (signText sign ++ head :: common) ++ rest := by simp
  have hlength : (signText sign ++ head :: common).length =
      (signText sign).length + (common.length + 1) := by simp
  have haccept := name_accepts (common.map lowercase) hwhole hpending still
  rw [List.length_map] at haccept
  have hfind := findIdx?_common (head :: common) hdiffer
  rw [List.map_cons, List.cons_append, List.cons_append, ← hpending, List.length_cons] at hfind
  have htotal : whole.length = common.length + pending.length := by
    rw [hpending, List.length_append, List.length_map]
  have hlong : 2 ≤ whole.length := by
    rcases hwhole with rfl | rfl <;> decide
  unfold floatCause
  rw [h]
  dsimp only
  rw [hfind, hbytes]
  cases rest with
  | nil =>
    rw [if_pos (Or.inl rfl), List.append_nil, List.append_nil]
    simp only [List.length_cons]
    split_ifs with hend hshort
    · refine told_none hrun (haccept.mpr ?_)
      rcases hend with hthree | hsame
      · exact Or.inl (by omega)
      · exact Or.inr (List.eq_nil_of_length_eq_zero (by omega))
    · rw [← hlength]
      refine told_end hrun (Bool.eq_false_iff.mpr fun h => hend ?_)
      rcases haccept.mp h with htwo | hnil
      · exact Or.inl (by omega)
      · rw [hnil] at htotal
        exact Or.inr (by simp only [List.length_nil] at htotal; omega)
    · omega
  | cons byte rest =>
    cases pending with
    | nil =>
      rw [if_pos (Or.inr rfl)]
      simp only [List.length_nil] at htotal
      have hbehind : (head :: (common ++ byte :: rest)).length =
          whole.length + 1 + (rest.length + 1) := by
        simp only [List.length_cons, List.length_append]
        omega
      have hget : (head :: (common ++ byte :: rest))[(lowercase head :: whole).length]? =
          some byte := by
        have hcut : (lowercase head :: whole).length = (head :: common).length := by
          simp only [List.length_cons]
          omega
        rw [hcut, ← List.cons_append, getElem?_front]
        rfl
      dsimp only
      rw [hget, hbehind, List.length_cons, if_neg (by omega), if_neg (by omega), htotal, ← hlength]
      exact told_byte hrun rfl
    | cons letter pending =>
      rw [if_neg (by simp)]
      have hget : (head :: (common ++ byte :: rest)).getD (common.length + 1) 0 = byte := by
        rw [List.getD_eq_getElem?_getD, ← List.length_cons, ← List.cons_append, getElem?_front]
        rfl
      dsimp only
      rw [← hlength, hget]
      exact told_byte hrun (if_neg (hdiffer byte rfl letter rfl))

/-- The reading of a text with something behind its sign tells what is wrong with it. -/
theorem told_float {sign : Option Bool} {head : UInt8} {tail : List UInt8}
    (h : Split (signText sign ++ head :: tail) sign (head :: tail)) :
    Told (signText sign ++ head :: tail)
      (floatCause (signText sign ++ head :: tail) head (head :: tail) (signText sign).length) := by
  cases hnamed : named head with
  | none =>
    have hdecimal : floatCause (signText sign ++ head :: tail) head (head :: tail)
        (signText sign).length =
          decimalCause (signText sign ++ head :: tail) (signText sign).length := by
      unfold floatCause
      rw [hnamed]
    rw [hdecimal]
    refine told_decimal h ?_
    rintro _ ⟨⟩
    exact hnamed
  | some name => exact told_name sign hnamed

/-- What is reported of a text with something behind its sign : nothing if it is a literal, and
otherwise the smallest offset up to which no literal starts as the text does. -/
theorem floatCause_told (sign : Option Bool) (head : UInt8) (tail : List UInt8)
    (h : Split (signText sign ++ head :: tail) sign (head :: tail)) :
    (floatCause (signText sign ++ head :: tail) head (head :: tail) (signText sign).length = none ↔
        Literal (signText sign ++ head :: tail)) ∧
      ∀ reason, floatCause (signText sign ++ head :: tail) head (head :: tail)
          (signText sign).length = some reason →
        Blames (signText sign ++ head :: tail) reason :=
  told_float h

/-- An exponent without digits is the start of a literal, and is reported at its end. -/
theorem floatCause_told_mark : floatCause [49, 101] 49 [49, 101] 0 = some (.missing 2) ∧
    Blames [49, 101] (.missing 2) := by
  have hcause : floatCause [49, 101] 49 [49, 101] 0 = some (.missing 2) := by decide
  have hsplit : Split [49, 101] none [49, 101] := by
    refine ⟨rfl, fun _ byte h => ?_⟩
    cases h
    decide
  exact ⟨hcause, (floatCause_told none 49 [101] hsplit).2 _ hcause⟩

/-- A text without a sign that the standard library rejects. -/
theorem parseFloat_plain {P : Type} {std : Floats P} {head : UInt8} {tail : List UInt8}
    {error : P} {cause : Option Invalid} (hsign : ¬(head = 43 ∨ head = 45))
    (h : parseFloat std (head :: tail) = .error (.parse error cause)) :
    std.parse (head :: tail) = .error error ∧
      cause = floatCause (head :: tail) head (head :: tail) 0 := by
  simp only [parseFloat, if_neg hsign] at h
  cases hutf : std.utf8 (head :: tail) with
  | some offset =>
    rw [hutf] at h
    cases h
  | none =>
    rw [hutf] at h
    cases hparse : std.parse (head :: tail) with
    | ok value =>
      rw [hparse] at h
      cases h
    | error reason =>
      rw [hparse] at h
      cases h
      exact ⟨rfl, rfl⟩

/-- A text with a sign that the standard library rejects. -/
theorem parseFloat_signed {P : Type} {std : Floats P} {sign head : UInt8} {tail : List UInt8}
    {error : P} {cause : Option Invalid} (hsign : sign = 43 ∨ sign = 45)
    (h : parseFloat std (sign :: head :: tail) = .error (.parse error cause)) :
    std.parse (sign :: head :: tail) = .error error ∧
      cause = floatCause (sign :: head :: tail) head (head :: tail) 1 := by
  simp only [parseFloat, if_pos hsign] at h
  cases hutf : std.utf8 (sign :: head :: tail) with
  | some offset =>
    rw [hutf] at h
    cases h
  | none =>
    rw [hutf] at h
    cases hparse : std.parse (sign :: head :: tail) with
    | ok value =>
      rw [hparse] at h
      cases h
    | error reason =>
      rw [hparse] at h
      cases h
      exact ⟨rfl, rfl⟩

/-- The reading of a text, by its sign and what follows it. -/
theorem parseFloat_split {P : Type} {std : Floats P} {sign : Option Bool} {body : List UInt8}
    {error : P} {cause : Option Invalid} (hsplit : Split (signText sign ++ body) sign body)
    (h : parseFloat std (signText sign ++ body) = .error (.parse error cause)) :
    ∃ head tail, body = head :: tail ∧ std.parse (signText sign ++ body) = .error error ∧
      cause = floatCause (signText sign ++ body) head body (signText sign).length := by
  cases body with
  | nil => rcases sign with _ | _ | _ <;> cases h
  | cons head tail =>
    rcases sign with _ | _ | _
    · obtain ⟨hplus, hminus⟩ := hsplit.2 rfl head rfl
      exact ⟨head, tail, rfl, parseFloat_plain (not_or.mpr ⟨hplus, hminus⟩) h⟩
    · exact ⟨head, tail, rfl, parseFloat_signed (Or.inl rfl) h⟩
    · exact ⟨head, tail, rfl, parseFloat_signed (Or.inr rfl) h⟩

/-- If the standard library accepts exactly the literals, whatever it rejects is reported with
the place where it is wrong. -/
theorem parseFloat_located {P : Type} {std : Floats P}
    (hstd : ∀ bytes, (∃ value, std.parse bytes = .ok value) ↔ Literal bytes) {bytes : List UInt8}
    {error : P} {cause : Option Invalid} (h : parseFloat std bytes = .error (.parse error cause)) :
    ∃ reason, cause = some reason ∧ Blames bytes reason := by
  obtain ⟨sign, body, hsplit⟩ := exists_split bytes
  obtain ⟨rfl, hsign⟩ := hsplit
  obtain ⟨head, tail, rfl, hparse, rfl⟩ := parseFloat_split ⟨rfl, hsign⟩ h
  obtain ⟨hnone, hsome⟩ := told_float ⟨rfl, hsign⟩
  have hliteral : ¬Literal (signText sign ++ head :: tail) := fun hliteral => by
    obtain ⟨value, hvalue⟩ := (hstd _).mpr hliteral
    rw [hvalue] at hparse
    cases hparse
  obtain ⟨reason, hreason⟩ := Option.ne_none_iff_exists'.mp fun heq => hliteral (hnone.mp heq)
  exact ⟨reason, hreason, hsome reason hreason⟩

end

end Cartel.Redis.Decode
