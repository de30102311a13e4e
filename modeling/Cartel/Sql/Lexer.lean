import Cartel.Lib.Scanner

/-!
# Lexing SQL

The tokens of PostgreSQL and SQLite texts, as far as the query macros use them : words
fold their case, a quoted name doubles `"`, a string doubles `'`, and an operator is the
longest run its dialect allows. A text outside this fragment, such as one with a comment
or with an unterminated string, has no tokens.
-/

namespace Cartel.Sql

/-- Text, one character after the other. -/
abbrev Text := List Char

/-- The backend a query is written for (`backend::Kind`). -/
inductive Kind
  | pg
  | sqlite
  deriving DecidableEq, Repr

inductive Token
  | word (text : Text)
  | quoted (text : Text)
  | number (text : Text)
  | string (text : Text)
  | param (index : ℕ)
  | symbol (text : Text)
  | comma
  | dot
  | cast
  | lparen
  | rparen
  | semicolon
  deriving DecidableEq, Repr

/-! ## Characters -/

/-- Starts an unquoted name. -/
def wordStart (c : Char) : Bool := c.isAlpha || c == '_' || decide (128 ≤ c.toNat)

/-- Continues an unquoted name. -/
def wordChar (c : Char) : Bool := wordStart c || c.isDigit || c == '$'

/-- Starts a bound parameter. -/
def Kind.mark : Kind → Char
  | .pg => '$'
  | .sqlite => '?'

/-- Starts an operator. -/
def Kind.symbolChar : Kind → Char → Bool
  | .pg, c => "+-*/<>=~!@#%^&|`?".toList.contains c
  | .sqlite, c => "+-*/<>=~!%&|".toList.contains c

/-- Continues the operator `text`. -/
def Kind.extends : Kind → Text → Char → Bool
  | .pg, _, c => Kind.pg.symbolChar c
  | .sqlite, text, c =>
    ["<=", "<>", "<<", ">=", ">>", "==", "!=", "||", "->", "->>"].any fun symbol =>
      symbol.toList == text ++ [c]

/-- Starts a comment behind the operator `text`. -/
def comment (text : Text) (c : Char) : Bool :=
  (text.getLast? == some '-' && c == '-') || (text.getLast? == some '/' && c == '*')

/-! ## Numbers -/

/-- What of a number has been read. -/
inductive Digits
  | whole
  | fraction
  | exponent
  | signed
  | power
  deriving DecidableEq, Repr

def Digits.step : Digits → Char → Option Digits
  | .whole, c =>
    if c.isDigit then some .whole else if c = '.' then some .fraction
    else if c = 'e' ∨ c = 'E' then some .exponent else none
  | .fraction, c =>
    if c.isDigit then some .fraction else if c = 'e' ∨ c = 'E' then some .exponent else none
  | .exponent, c =>
    if c.isDigit then some .power else if c = '+' ∨ c = '-' then some .signed else none
  | .signed, c => if c.isDigit then some .power else none
  | .power, c => if c.isDigit then some .power else none

/-- A number may end here. -/
def Digits.complete : Digits → Bool
  | .whole | .fraction | .power => true
  | .exponent | .signed => false

/-! ## The scanner -/

inductive Lexing
  | idle
  | word (text : Text)
  | quoted (text : Text)
  | quotedEnd (text : Text)
  | string (text : Text)
  | stringEnd (text : Text)
  | number (text : Text) (digits : Digits)
  | param (digits : Text)
  | symbol (text : Text)
  | colon
  deriving DecidableEq, Repr

namespace Lexing

/-- What is emitted when the text ends. -/
def flush : Lexing → Option (List Token)
  | .idle => some []
  | .word text => some [.word text]
  | .quotedEnd text => if text = [] then none else some [.quoted text]
  | .stringEnd text => some [.string text]
  | .number text digits => if digits.complete then some [.number text] else none
  | .param digits => if digits = [] then none else some [.param (Nat.ofDigitChars 10 digits 0)]
  | .symbol text => some [.symbol text]
  | .quoted _ | .string _ | .colon => none

/-- A character between two tokens. -/
def next (kind : Kind) (c : Char) : Option (List Token × Lexing) :=
  if c = ' ' then some ([], .idle)
  else if c = '(' then some ([.lparen], .idle)
  else if c = ')' then some ([.rparen], .idle)
  else if c = ',' then some ([.comma], .idle)
  else if c = '.' then some ([.dot], .idle)
  else if c = ';' then some ([.semicolon], .idle)
  else if c = '"' then some ([], .quoted [])
  else if c = '\'' then some ([], .string [])
  else if c = kind.mark then some ([], .param [])
  else if c = ':' ∧ kind = .pg then some ([], .colon)
  else if c.isDigit then some ([], .number [c] .whole)
  else if wordStart c then some ([], .word [c.toLower])
  else if kind.symbolChar c then some ([], .symbol [c])
  else none

/-- Ends the open token and reads the character between two tokens. -/
def close (kind : Kind) (q : Lexing) (c : Char) : Option (List Token × Lexing) :=
  q.flush.bind fun rest => (next kind c).map fun p => (rest ++ p.1, p.2)

def step (kind : Kind) (q : Lexing) (c : Char) : Option (List Token × Lexing) :=
  match q with
  | .idle => next kind c
  | .word text =>
    if wordChar c then some ([], .word (text ++ [c.toLower]))
    else if c = '\'' then none
    else close kind q c
  | .quoted text =>
    if c = '"' then some ([], .quotedEnd text) else some ([], .quoted (text ++ [c]))
  | .quotedEnd text =>
    if c = '"' then some ([], .quoted (text ++ ['"'])) else close kind q c
  | .string text =>
    if c = '\'' then some ([], .stringEnd text) else some ([], .string (text ++ [c]))
  | .stringEnd text =>
    if c = '\'' then some ([], .string (text ++ ['\''])) else close kind q c
  | .number text digits =>
    match digits.step c with
    | some digits => some ([], .number (text ++ [c]) digits)
    | none => if wordChar c ∨ c = '.' then none else close kind q c
  | .param digits =>
    if c.isDigit then some ([], .param (digits ++ [c]))
    else if wordChar c then none
    else close kind q c
  | .symbol text =>
    if comment text c then none
    else if kind.extends text c then some ([], .symbol (text ++ [c]))
    else close kind q c
  | .colon => if c = ':' then some ([.cast], .idle) else none

end Lexing

/-- The scanner of a dialect. -/
def lexer (kind : Kind) : Scanner Lexing Char Token where
  start := .idle
  step := Lexing.step kind
  flush := Lexing.flush
  flush_start := rfl

@[simp] theorem lexer_step (kind : Kind) : (lexer kind).step = Lexing.step kind := rfl

@[simp] theorem lexer_start (kind : Kind) : (lexer kind).start = .idle := rfl

@[simp] theorem lexer_flush (kind : Kind) : (lexer kind).flush = Lexing.flush := rfl

example : (lexer .pg).scan "q0_0.\"a\" <> 'it''s'".toList =
    some [.word "q0_0".toList, .dot, .quoted "a".toList, .symbol "<>".toList,
      .string "it's".toList] := by
  decide

/-! ## Delimiters -/

/-- Blanks, commas, closing parentheses and colons. -/
def Delimiter (c : Char) : Prop := c = ' ' ∨ c = ',' ∨ c = ')' ∨ c = ':'

theorem Delimiter.not_wordChar {c : Char} (h : Delimiter c) : wordChar c = false := by
  rcases h with rfl | rfl | rfl | rfl <;> decide

theorem Delimiter.not_extends {c : Char} (h : Delimiter c) (kind : Kind) (text : Text) :
    kind.extends text c = false := by
  cases kind with
  | pg => rcases h with rfl | rfl | rfl | rfl <;> rfl
  | sqlite =>
    rw [Kind.extends, List.any_eq_false]
    intro symbol hmem heq
    have hlast : symbol.toList.getLast? = some c := by rw [eq_of_beq heq]; simp
    simp only [List.mem_cons, List.not_mem_nil, or_false] at hmem
    rcases h with rfl | rfl | rfl | rfl <;>
      rcases hmem with rfl | rfl | rfl | rfl | rfl | rfl | rfl | rfl | rfl | rfl <;>
        exact absurd hlast (by decide)

theorem Delimiter.not_digit {c : Char} (h : Delimiter c) (digits : Digits) :
    digits.step c = none := by
  rcases h with rfl | rfl | rfl | rfl <;> cases digits <;> decide

/-- A delimiter ends every open token. -/
theorem Delimiter.delimits {c : Char} (h : Delimiter c) (kind : Kind) :
    (lexer kind).Delimits c := by
  intro q rest hq
  have hclose : Lexing.step kind q c = Lexing.close kind q c := by
    have hw := h.not_wordChar
    have hmarks : c ≠ '\'' ∧ c ≠ '"' ∧ c ≠ '.' ∧ c ≠ '-' ∧ c ≠ '*' ∧ c.isDigit = false := by
      rcases h with rfl | rfl | rfl | rfl <;> decide
    obtain ⟨hquote, hdouble, hdot, hminus, hstar, hdigit⟩ := hmarks
    cases q with
    | idle => simp [Lexing.step, Lexing.close, Lexing.flush]
    | word text => simp [Lexing.step, hw, hquote]
    | quotedEnd text => simp [Lexing.step, hdouble]
    | stringEnd text => simp [Lexing.step, hquote]
    | number text digits => simp [Lexing.step, h.not_digit, hw, hdot]
    | param digits => simp [Lexing.step, hw, hdigit]
    | symbol text => simp [Lexing.step, comment, hminus, hstar, h.not_extends]
    | quoted text => simp [Lexing.flush] at hq
    | string text => simp [Lexing.flush] at hq
    | colon => simp [Lexing.flush] at hq
  simp only [lexer_flush, lexer_step, lexer_start] at hq ⊢
  rw [hclose, Lexing.close, hq]
  rfl

/-! ## Words, numbers and parameters -/

/-- A word of the dialects : its first character starts a name, and all continue one. -/
def IsWord (text : Text) : Prop :=
  ∃ c rest, text = c :: rest ∧ wordStart c = true ∧ ∀ d ∈ rest, wordChar d = true

/-- The text of a word as names compare it. -/
def folded (text : Text) : Text := text.map Char.toLower

theorem run_word {kind : Kind} {text rest : Text} (h : ∀ d ∈ rest, wordChar d = true) :
    (lexer kind).run (.word text) rest = some ([], .word (text ++ folded rest)) := by
  induction rest generalizing text with
  | nil => simp [Scanner.run, folded]
  | cons d rest ih =>
    have hstep : (lexer kind).step (.word text) d = some ([], .word (text ++ [d.toLower])) := by
      simp [Lexing.step, h d (by simp)]
    rw [Scanner.run_cons _ hstep, ih fun e he => h e (by simp [he])]
    simp [folded]

theorem wordStart_not_digit {c : Char} (h : c.isDigit = true) : wordStart c = false := by
  by_contra hstart
  rw [Bool.not_eq_false] at hstart
  simp only [Char.isDigit, Bool.and_eq_true, decide_eq_true_eq, ge_iff_le,
    UInt32.le_iff_toNat_le] at h
  have halpha : c.isAlpha = (decide (c.val ≥ 'A'.val ∧ c.val ≤ 'Z'.val) ||
      (decide (c.val ≥ 'a'.val) && decide (c.val ≤ 'z'.val))) := rfl
  simp only [wordStart, halpha, Bool.or_eq_true, Bool.and_eq_true, decide_eq_true_eq, beq_iff_eq,
    ge_iff_le, UInt32.le_iff_toNat_le] at hstart
  change 48 ≤ c.toNat ∧ c.toNat ≤ 57 at h
  change (((65 ≤ c.toNat ∧ c.toNat ≤ 90) ∨ (97 ≤ c.toNat ∧ c.toNat ≤ 122)) ∨ c = '_') ∨
    128 ≤ c.toNat at hstart
  rcases hstart with ((hstart | hstart) | rfl) | hstart
  · omega
  · omega
  · exact absurd h.2 (by decide)
  · omega

/-- What begins a word begins no other token. -/
theorem next_word {kind : Kind} {c : Char} (h : wordStart c = true) :
    Lexing.next kind c = some ([], .word [c.toLower]) := by
  have hmarks : ∀ d ∈ " (),.;\"'$?:".toList, c ≠ d := by
    rintro d hd rfl
    have hall : " (),.;\"'$?:".toList.all (fun d => !wordStart d) = true := by decide
    have hstart := List.all_eq_true.mp hall c hd
    rw [h] at hstart
    exact absurd hstart (by decide)
  have hdigit : c.isDigit = false := by
    by_contra hd
    rw [wordStart_not_digit (by simpa using hd)] at h
    exact absurd h (by decide)
  have hmark : c ≠ kind.mark := by
    cases kind with
    | pg => exact hmarks _ (by decide)
    | sqlite => exact hmarks _ (by decide)
  simp [Lexing.next, hmarks ' ' (by decide), hmarks '(' (by decide), hmarks ')' (by decide),
    hmarks ',' (by decide), hmarks '.' (by decide), hmarks ';' (by decide),
    hmarks '"' (by decide), hmarks '\'' (by decide), hmarks ':' (by decide), hmark, hdigit, h]

theorem run_isWord {kind : Kind} {text : Text} (h : IsWord text) :
    (lexer kind).run .idle text = some ([], .word (folded text)) := by
  obtain ⟨c, rest, rfl, hc, hrest⟩ := h
  have hstep : (lexer kind).step .idle c = some ([], .word [c.toLower]) := next_word hc
  rw [Scanner.run_cons _ hstep, run_word hrest]
  simp [folded]

theorem IsWord.lexes {text : Text} (h : IsWord text) (kind : Kind) :
    (lexer kind).Lexes text [.word (folded text)] :=
  ⟨[], .word (folded text), [.word (folded text)], run_isWord h, rfl, rfl⟩

/-- The digits of a natural number. -/
def decimal (n : ℕ) : Text := Nat.toDigits 10 n

theorem isDigit_of_mem_decimal {n : ℕ} {c : Char} (h : c ∈ decimal n) : c.isDigit = true :=
  Nat.isDigit_of_mem_toDigits (by decide) (by decide) h

theorem isDigit_of_next {kind : Kind} {c : Char} (h : c.isDigit = true) :
    Lexing.next kind c = some ([], .number [c] .whole) := by
  have hmarks : ∀ d ∈ " (),.;\"'$?:".toList, c ≠ d := by
    rintro d hd rfl
    have hall : " (),.;\"'$?:".toList.all (fun d => !d.isDigit) = true := by decide
    have hdigit := List.all_eq_true.mp hall c hd
    rw [h] at hdigit
    exact absurd hdigit (by decide)
  have hmark : c ≠ kind.mark := by
    cases kind with
    | pg => exact hmarks _ (by decide)
    | sqlite => exact hmarks _ (by decide)
  simp [Lexing.next, hmarks ' ' (by decide), hmarks '(' (by decide), hmarks ')' (by decide),
    hmarks ',' (by decide), hmarks '.' (by decide), hmarks ';' (by decide),
    hmarks '"' (by decide), hmarks '\'' (by decide), hmarks ':' (by decide), hmark, h]

/-- Reads on in a number. -/
def Digits.run : Digits → Text → Option Digits
  | d, [] => some d
  | d, c :: text => (d.step c).bind fun e => e.run text

theorem Digits.run_append {d e : Digits} {text more : Text} (h : d.run text = some e) :
    d.run (text ++ more) = e.run more := by
  induction text generalizing d with
  | nil =>
    obtain rfl : d = e := by simpa [Digits.run] using h
    rfl
  | cons c text ih =>
    simp only [Digits.run, Option.bind_eq_some_iff] at h
    obtain ⟨next', hstep, hrun⟩ := h
    simp only [List.cons_append, Digits.run, hstep, Option.bind_some]
    exact ih hrun

/-- Digits stay in the part of the number they are in. -/
theorem Digits.run_digits {d e : Digits} {text : Text} (hne : text ≠ [])
    (hd : ∀ c, c.isDigit = true → d.step c = some e)
    (he : ∀ c, c.isDigit = true → e.step c = some e) (h : ∀ c ∈ text, c.isDigit = true) :
    d.run text = some e := by
  obtain ⟨c, rest, rfl⟩ := List.exists_cons_of_ne_nil hne
  have hstay : ∀ rest : Text, (∀ c ∈ rest, c.isDigit = true) → e.run rest = some e := by
    intro rest hrest
    induction rest with
    | nil => rfl
    | cons c rest ih =>
      simp only [Digits.run, he c (hrest c (by simp)), Option.bind_some]
      exact ih fun d hd => hrest d (by simp [hd])
  simp only [Digits.run, hd c (h c (by simp)), Option.bind_some]
  exact hstay rest fun d hd => h d (by simp [hd])

theorem run_number {kind : Kind} {text rest : Text} {d e : Digits} (h : d.run rest = some e) :
    (lexer kind).run (.number text d) rest = some ([], .number (text ++ rest) e) := by
  induction rest generalizing text d with
  | nil =>
    obtain rfl : d = e := by simpa [Digits.run] using h
    simp [Scanner.run]
  | cons c rest ih =>
    simp only [Digits.run, Option.bind_eq_some_iff] at h
    obtain ⟨f, hstep, hrun⟩ := h
    have hs : (lexer kind).step (.number text d) c = some ([], .number (text ++ [c]) f) := by
      simp [Lexing.step, hstep]
    rw [Scanner.run_cons _ hs, ih hrun]
    simp

/-- A text that reads as one number. -/
def IsNumber (text : Text) : Prop :=
  ∃ c rest d, text = c :: rest ∧ c.isDigit = true ∧ Digits.run .whole rest = some d ∧
    d.complete = true

theorem IsNumber.lexes {text : Text} (h : IsNumber text) (kind : Kind) :
    (lexer kind).Lexes text [.number text] := by
  obtain ⟨c, rest, d, rfl, hc, hrun, hd⟩ := h
  refine ⟨[], .number (c :: rest) d, [.number (c :: rest)], ?_, by simp [Lexing.flush, hd], rfl⟩
  have hstep : (lexer kind).step .idle c = some ([], .number [c] .whole) := isDigit_of_next hc
  rw [lexer_start, Scanner.run_cons _ hstep, run_number hrun]
  simp

theorem run_param {kind : Kind} {digits rest : Text} (h : ∀ c ∈ rest, c.isDigit = true) :
    (lexer kind).run (.param digits) rest = some ([], .param (digits ++ rest)) := by
  induction rest generalizing digits with
  | nil => simp [Scanner.run]
  | cons c rest ih =>
    have hs : (lexer kind).step (.param digits) c = some ([], .param (digits ++ [c])) := by
      simp [Lexing.step, h c (by simp)]
    rw [Scanner.run_cons _ hs, ih fun d hd => h d (by simp [hd])]
    simp

/-- A bound parameter. -/
theorem lexes_param (kind : Kind) (n : ℕ) :
    (lexer kind).Lexes (kind.mark :: decimal n) [.param n] := by
  refine ⟨[], .param (decimal n), [.param n], ?_, ?_, rfl⟩
  · have hstep : (lexer kind).step .idle kind.mark = some ([], .param []) := by
      cases kind <;> decide
    rw [lexer_start, Scanner.run_cons _ hstep, run_param fun c => isDigit_of_mem_decimal]
    simp
  · simp [Lexing.flush, decimal, Nat.toDigits_ne_nil]

/-! ## Quoted names and strings -/

/-- `SqlIdent::quoted` : `"` is doubled, and a point separates quoted names. -/
def quoted (name : Text) : Text :=
  '"' :: name.flatMap (fun c => if c = '.' then "\".\"".toList else
    if c = '"' then "\"\"".toList else [c]) ++ ['"']

/-- The names between the points. -/
def split (name : Text) : Text → List Text
  | [] => [name]
  | c :: rest => if c = '.' then name :: split [] rest else split (name ++ [c]) rest

def segments (name : Text) : List Text := split [] name

/-- The tokens of a quoted path. -/
def pathTokens : List Text → List Token
  | [] => []
  | [name] => [.quoted name]
  | name :: rest => .quoted name :: .dot :: pathTokens rest

theorem split_ne_nil (name text : Text) : split name text ≠ [] := by
  induction text generalizing name with
  | nil => simp [split]
  | cons c rest ih =>
    by_cases hc : c = '.'
    · simp [split, hc]
    · simp only [split, hc, if_false]
      exact ih _

theorem split_plain (name : Text) {text : Text} (h : '.' ∉ text) : split name text = [name ++ text] := by
  induction text generalizing name with
  | nil => simp [split]
  | cons c rest ih =>
    have hc : c ≠ '.' := fun hc => h (by simp [hc])
    simp only [split, hc, if_false]
    rw [ih _ fun hmem => h (by simp [hmem])]
    simp

theorem run_quoted (kind : Kind) (text : Text) {name : Text}
    (h : ∀ s ∈ split name text, s ≠ []) :
    ∃ emitted last, (lexer kind).run (.quoted name)
        (text.flatMap (fun c => if c = '.' then "\".\"".toList else
          if c = '"' then "\"\"".toList else [c]) ++ ['"']) = some (emitted, .quotedEnd last) ∧
      last ≠ [] ∧ emitted ++ [.quoted last] = pathTokens (split name text) := by
  induction text generalizing name with
  | nil => exact ⟨[], name, by simp [Scanner.run, Lexing.step], h name (by simp [split]), rfl⟩
  | cons c text ih =>
    by_cases hdot : c = '.'
    · subst hdot
      have hname : name ≠ [] := h name (by simp [split])
      have hrest : ∀ s ∈ split [] text, s ≠ [] := fun s hs => h s (by simp [split, hs])
      obtain ⟨emitted, last, hrun, hlast, heq⟩ := ih hrest
      refine ⟨.quoted name :: .dot :: emitted, last, ?_, hlast, ?_⟩
      · have hopen : (lexer kind).run (.quoted name) "\".\"".toList =
            some ([.quoted name, .dot], .quoted []) := by
          simp [Scanner.run, Lexing.step, Lexing.close, Lexing.flush, Lexing.next, hname]
        rw [List.flatMap_cons, if_pos rfl, List.append_assoc, Scanner.run_append _ hopen, hrun]
        rfl
      · obtain ⟨s, more, hsplit⟩ := List.exists_cons_of_ne_nil (split_ne_nil [] text)
        simp only [split, if_true, List.cons_append, heq, hsplit, pathTokens]
    · by_cases hquote : c = '"'
      · subst hquote
        have hrest : ∀ s ∈ split (name ++ ['"']) text, s ≠ [] := fun s hs =>
          h s (by simpa [split] using hs)
        obtain ⟨emitted, last, hrun, hlast, heq⟩ := ih hrest
        refine ⟨emitted, last, ?_, hlast, by simpa [split] using heq⟩
        have hopen : (lexer kind).run (.quoted name) "\"\"".toList =
            some ([], .quoted (name ++ ['"'])) := by
          simp [Scanner.run, Lexing.step]
        rw [List.flatMap_cons, if_neg hdot, if_pos rfl, List.append_assoc,
          Scanner.run_append _ hopen, hrun]
        rfl
      · have hrest : ∀ s ∈ split (name ++ [c]) text, s ≠ [] := fun s hs =>
          h s (by simpa [split, hdot] using hs)
        obtain ⟨emitted, last, hrun, hlast, heq⟩ := ih hrest
        refine ⟨emitted, last, ?_, hlast, by simpa [split, hdot] using heq⟩
        have hstep : (lexer kind).step (.quoted name) c = some ([], .quoted (name ++ [c])) := by
          simp [Lexing.step, hquote]
        rw [List.flatMap_cons, if_neg hdot, if_neg hquote, List.singleton_append,
          List.cons_append, Scanner.run_cons _ hstep, hrun]
        rfl

/-- A name without empty segments is the path of its segments. -/
theorem lexes_quoted (kind : Kind) {name : Text} (h : ∀ s ∈ segments name, s ≠ []) :
    (lexer kind).Lexes (quoted name) (pathTokens (segments name)) := by
  obtain ⟨emitted, last, hrun, hlast, heq⟩ := run_quoted kind name h
  refine ⟨emitted, .quotedEnd last, [.quoted last], ?_, by simp [Lexing.flush, hlast], heq.symm⟩
  have hstep : (lexer kind).step .idle '"' = some ([], .quoted []) := by cases kind <;> decide
  rw [lexer_start, quoted, List.cons_append, Scanner.run_cons _ hstep, hrun]
  rfl

/-- A string in quotes, with its quotes doubled. -/
def quotedString (text : Text) : Text :=
  '\'' :: text.flatMap (fun c => if c = '\'' then "''".toList else [c]) ++ ['\'']

theorem run_string {kind : Kind} (text : Text) {read : Text} :
    (lexer kind).run (.string read)
        (text.flatMap (fun c => if c = '\'' then "''".toList else [c]) ++ ['\'']) =
      some ([], .stringEnd (read ++ text)) := by
  induction text generalizing read with
  | nil => simp [Scanner.run, Lexing.step]
  | cons c text ih =>
    by_cases hquote : c = '\''
    · subst hquote
      have hopen : (lexer kind).run (.string read) "''".toList =
          some ([], .string (read ++ ['\''])) := by
        simp [Scanner.run, Lexing.step]
      rw [List.flatMap_cons, if_pos rfl, List.append_assoc, Scanner.run_append _ hopen, ih]
      simp
    · have hstep : (lexer kind).step (.string read) c = some ([], .string (read ++ [c])) := by
        simp [Lexing.step, hquote]
      rw [List.flatMap_cons, if_neg hquote, List.singleton_append, List.cons_append,
        Scanner.run_cons _ hstep, ih]
      simp

/-- A string reads as itself, whatever quotes it holds. -/
theorem lexes_string (kind : Kind) (text : Text) :
    (lexer kind).Lexes (quotedString text) [.string text] := by
  refine ⟨[], .stringEnd text, [.string text], ?_, rfl, rfl⟩
  have hstep : (lexer kind).step .idle '\'' = some ([], .string []) := by cases kind <;> decide
  rw [lexer_start, quotedString, List.cons_append, Scanner.run_cons _ hstep, run_string]
  rfl

end Cartel.Sql
