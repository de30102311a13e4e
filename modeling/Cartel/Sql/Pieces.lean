import Cartel.Sql.Mirror

/-!
# Pieces of a query text

The parts a macro writes are shown as text under a `Reading`. Columns, parameters,
literals, operators and declared relations are read as what they stand for.
-/

namespace Cartel.Sql

/-! ## Parts as text -/

namespace Reading

variable (R : Reading)

def part : Part → Option Text
  | .token fragment => fragment.render R.kind R.tables
  | .capture ident => some (R.mark ident)

/-- The text of parts, when the dialect has all of them. -/
def textOf : Parts → Option Text
  | [] => some []
  | part :: parts => (R.part part).bind fun t => (textOf parts).map (t ++ ·)

variable {R} {parts more : Parts} {shown rest : Text}

theorem textOf_append (h : R.textOf parts = some shown) (hm : R.textOf more = some rest) :
    R.textOf (parts ++ more) = some (shown ++ rest) := by
  induction parts generalizing shown with
  | nil =>
    obtain rfl : [] = shown := by simpa [textOf] using h
    simpa using hm
  | cons part parts ih =>
    simp only [textOf, Option.bind_eq_some_iff, Option.map_eq_some_iff] at h
    obtain ⟨t, ht, later, hlater, rfl⟩ := h
    simp only [List.cons_append, textOf, ht, Option.bind_some, ih hlater, Option.map_some,
      List.append_assoc]

theorem textOf_cons {p : Part} (h : R.part p = some shown) (hm : R.textOf more = some rest) :
    R.textOf (p :: more) = some (shown ++ rest) := by
  simp [textOf, h, hm]

theorem textOf_singleton {p : Part} (h : R.part p = some shown) : R.textOf [p] = some shown := by
  simp [textOf, h]

@[simp] theorem part_text (t : Text) : R.part (Sql.text t) = some t := rfl

theorem part_kw {name : Const} {s : String} (h : name.text R.kind = some s) :
    R.part (kw name) = some s.toList := by
  simp [part, kw, Fragment.render, h]

end Reading

/-! ## Words of the macro -/

theorem keyword_of_digit {word : Text} {c : Char} (hc : c ∈ word) (hd : c.isDigit = true) :
    keyword word = none := by
  have hall : keywords.all (fun p => p.1.toList.all fun c => !c.isDigit) = true := by decide
  rw [keyword, Option.map_eq_none_iff, List.find?_eq_none]
  intro p hp heq
  have hmem := List.all_eq_true.mp (List.all_eq_true.mp hall p hp) c (by rwa [eq_of_beq heq])
  rw [hd] at hmem
  exact absurd hmem (by decide)

theorem toLower_digit {c : Char} (h : c.isDigit = true) : c.toLower = c := by
  have hnot : ¬(c.val ≥ 'A'.val ∧ c.val ≤ 'Z'.val) := by
    rintro ⟨hupper, -⟩
    simp only [Char.isDigit, Bool.and_eq_true, decide_eq_true_eq, ge_iff_le,
      UInt32.le_iff_toNat_le] at h hupper
    have hn : c.val.toNat ≤ 57 := h.2
    have hz : 65 ≤ c.val.toNat := hupper
    omega
  exact dif_neg hnot

theorem folded_decimal (n : ℕ) : folded (decimal n) = decimal n := by
  rw [folded, List.map_congr_left fun c hc => toLower_digit (isDigit_of_mem_decimal hc)]
  simp

theorem decimal_ne_nil (n : ℕ) : decimal n ≠ [] := Nat.toDigits_ne_nil

theorem wordChar_decimal {n : ℕ} {c : Char} (h : c ∈ decimal n) : wordChar c = true := by
  simp [wordChar, isDigit_of_mem_decimal h]

namespace QuerySource

variable (source : QuerySource) (index : ℕ)

theorem qualifier_isWord : IsWord (source.qualifier index) := by
  refine ⟨'q', _, rfl, by decide, fun d hd => ?_⟩
  simp only [List.mem_append, List.mem_cons] at hd
  rcases hd with hd | rfl | hd
  · exact wordChar_decimal hd
  · decide
  · exact wordChar_decimal hd

theorem folded_qualifier : folded (source.qualifier index) = source.qualifier index := by
  have hdepth := folded_decimal source.aliasDepth
  have hindex := folded_decimal index
  simp only [folded] at hdepth hindex
  simp only [qualifier, folded, List.map_cons, List.map_append, hdepth, hindex]
  rfl

theorem keyword_qualifier : keyword (source.qualifier index) = none := by
  obtain ⟨c, rest, h⟩ := List.exists_cons_of_ne_nil (decimal_ne_nil source.aliasDepth)
  have hc : c ∈ decimal source.aliasDepth := by simp [h]
  exact keyword_of_digit (c := c) (by simp [qualifier, hc]) (isDigit_of_mem_decimal hc)

end QuerySource

/-! ## Operands -/

variable {kind : Kind}

theorem operand_number {shown : Text} (h : IsNumber shown) : Operand kind shown (.number shown) :=
  ⟨_, h.lexes kind, atom_number shown⟩

theorem operand_string (value : Text) : Operand kind (quotedString value) (.string value) :=
  ⟨_, lexes_string kind value, atom_string value⟩

theorem operand_param (n : ℕ) : Operand kind (kind.mark :: decimal n) (.param n) :=
  ⟨_, lexes_param kind n, atom_param n⟩

theorem Operand.cast {shown : Text} {t : Tree} (h : Operand .pg shown t) :
    Operand .pg (shown ++ "::ltree".toList) (.cast t "ltree".toList) := by
  obtain ⟨tokens, hl, ha⟩ := h
  refine ⟨_, hl.append (delimited_colon _) ?_, ha.cast _⟩
  exact ⟨[.cast], .word "ltree".toList, [.word "ltree".toList], by decide, rfl, rfl⟩

/-- The truth values of a dialect. -/
theorem operand_truth (kind : Kind) (value : Bool) :
    ∃ s, (if value then Const.true else .false).text kind = some s ∧
      Operand kind s.toList (truth kind value) := by
  cases kind with
  | pg =>
    cases value with
    | true => exact ⟨"TRUE", rfl, _, ⟨[], .word "true".toList, _, by decide, rfl, rfl⟩, atom_true⟩
    | false =>
      exact ⟨"FALSE", rfl, _, ⟨[], .word "false".toList, _, by decide, rfl, rfl⟩, atom_false⟩
  | sqlite =>
    cases value with
    | true => exact ⟨"1", rfl, operand_number ⟨'1', [], .whole, rfl, by decide, rfl, rfl⟩⟩
    | false => exact ⟨"0", rfl, operand_number ⟨'0', [], .whole, rfl, by decide, rfl, rfl⟩⟩

/-- The columns of a source, of an unnested array and of the result of a set operation. -/
theorem operand_column (relation : Text) {column : Text} {token : Token} {shown : Text}
    (hr : IsWord relation) (hk : keyword (folded relation) = none)
    (hl : (lexer kind).Lexes shown [token]) (hc : nameOf token = some column) :
    Operand kind (relation ++ '.' :: shown) (.column [folded relation, column]) := by
  refine ⟨[.word (folded relation), .dot, token], ?_, atom_column hk hc⟩
  obtain ⟨emitted, q, rest, hrun, hflush, heq⟩ := hl
  refine ⟨.word (folded relation) :: .dot :: emitted, q, rest, ?_, hflush, by simp [heq]⟩
  have hdot : (lexer kind).step (.word (folded relation)) '.' =
      some ([.word (folded relation), .dot], .idle) := by
    have hnext : Lexing.next kind '.' = some ([.dot], .idle) := by cases kind <;> decide
    have hword : wordChar '.' = false := by decide
    simp [Lexing.step, hword, Lexing.close, Lexing.flush, hnext]
  rw [lexer_start] at hrun ⊢
  rw [Scanner.run_append _ (run_isWord hr), Scanner.run_cons _ hdot, hrun]
  rfl

theorem lexes_ident (kind : Kind) (ident : Ident) :
    (lexer kind).Lexes (quoted ident.name) [.quoted ident.name] := by
  have h : (lexer kind).Lexes (quoted ident.name) (pathTokens (segments ident.name)) :=
    lexes_quoted kind (by simp [ident.segments_name, ident.proper.1])
  rwa [ident.segments_name] at h

/-- Position of an unnested column. -/
theorem operand_unnest (kind : Kind) (pos : ℕ) :
    Operand kind ("__d.f".toList ++ decimal pos) (.column ["__d".toList, 'f' :: decimal pos]) := by
  have hf : IsWord ('f' :: decimal pos) :=
    ⟨'f', _, rfl, by decide, fun d hd => wordChar_decimal hd⟩
  have hfold : folded ('f' :: decimal pos) = 'f' :: decimal pos := by
    have h := folded_decimal pos
    simp only [folded] at h
    simp only [folded, List.map_cons, h]
    rfl
  have hkey : keyword ('f' :: decimal pos) = none := by
    obtain ⟨c, rest, h⟩ := List.exists_cons_of_ne_nil (decimal_ne_nil pos)
    have hc : c ∈ decimal pos := by simp [h]
    exact keyword_of_digit (c := c) (by simp [hc]) (isDigit_of_mem_decimal hc)
  have hlex := hf.lexes kind
  rw [hfold] at hlex
  exact operand_column "__d".toList ⟨'_', "_d".toList, rfl, by decide, List.all_eq_true.mp (by decide)⟩
    (by decide)
    hlex (by simp [nameOf, hkey])

/-! ## Operators -/

/-- The tokens of a constant that stands between two operands. -/
structure Between (kind : Kind) (s : String) (op : Infix) : Prop where
  tokens : ∃ ops, (lexer kind).Closed s.toList ops ∧ Operator kind ops op
  level : 3 < kind.level op
  delimited : (lexer kind).Delimited s.toList

theorem between_symbol (symbol : Text) {s : String} {op : Infix}
    (hs : ∃ rest, s.toList = ' ' :: rest) (hop : Infix.ofSymbol symbol = op)
    (hc : (lexer kind).Closed s.toList [.symbol symbol]) : Between kind s op := by
  obtain ⟨rest, hs⟩ := hs
  exact ⟨⟨_, hc, hop ▸ operator_symbol kind symbol⟩, hop ▸ level_ofSymbol kind symbol,
    by rw [hs]; exact delimited_blank _⟩

theorem between_word (word : Text) (op : Bool → Infix) (negated : Bool) {s : String}
    (hs : ∃ rest, s.toList = ' ' :: rest)
    (hc : (lexer kind).Closed s.toList
      (if negated then [.word "not".toList, .word word] else [.word word]))
    (hlevel : 3 < kind.level (op negated)) (h : ∀ kind stack l, valueStep kind stack l (.word word) = push kind stack l (op false) ∧
      step kind ⟨stack, .negated l⟩ (.word word) = push kind stack l (op true)) :
    Between kind s (op negated) := by
  obtain ⟨rest, hs⟩ := hs
  exact ⟨⟨_, hc, operator_word negated h⟩, hlevel, by rw [hs]; exact delimited_blank _⟩

theorem between_like (kind : Kind) (negated : Bool) :
    Between kind (if negated then " NOT LIKE " else " LIKE ") (.like negated) := by
  refine between_word "like".toList .like negated ?_ ?_ ?_ fun _ _ _ => ⟨rfl, rfl⟩
  · cases negated <;> exact ⟨_, rfl⟩
  · cases negated <;> cases kind <;> decide
  · cases kind <;> simp [Kind.level]

theorem between_ilike (kind : Kind) (negated : Bool) :
    Between kind (if negated then " NOT ILIKE " else " ILIKE ") (.ilike negated) := by
  refine between_word "ilike".toList .ilike negated ?_ ?_ ?_ fun _ _ _ => ⟨rfl, rfl⟩
  · cases negated <;> exact ⟨_, rfl⟩
  · cases negated <;> cases kind <;> decide
  · cases kind <;> simp [Kind.level]

theorem between_glob (kind : Kind) : Between kind " GLOB " (.glob false) :=
  between_word "glob".toList .glob false ⟨_, rfl⟩ (by cases kind <;> decide)
    (by cases kind <;> simp [Kind.level]) fun _ _ _ => ⟨rfl, rfl⟩

/-- The comparisons both dialects have. -/
theorem between_comparison (kind : Kind) :
    Between kind " = " .eq ∧ Between kind " <> " .ne ∧ Between kind " < " .lt ∧
      Between kind " > " .gt ∧ Between kind " <= " .le ∧ Between kind " >= " .ge := by
  refine ⟨between_symbol "=".toList ⟨_, rfl⟩ rfl ?_, between_symbol "<>".toList ⟨_, rfl⟩ rfl ?_,
    between_symbol "<".toList ⟨_, rfl⟩ rfl ?_, between_symbol ">".toList ⟨_, rfl⟩ rfl ?_,
    between_symbol "<=".toList ⟨_, rfl⟩ rfl ?_, between_symbol ">=".toList ⟨_, rfl⟩ rfl ?_⟩
  all_goals cases kind <;> decide

/-- The constant of an operator that the dialect has stands between two operands. -/
theorem Cmp.between {op : Cmp} {s : String} (h : op.sqlRef.text kind = some s) :
    Between kind s op.op := by
  obtain ⟨heq, hne, hlt, hgt, hle, hge⟩ := between_comparison kind
  cases op with
  | eq => cases kind <;> cases h <;> exact heq
  | ne => cases kind <;> cases h <;> exact hne
  | lt => cases kind <;> cases h <;> exact hlt
  | gt => cases kind <;> cases h <;> exact hgt
  | le => cases kind <;> cases h <;> exact hle
  | ge => cases kind <;> cases h <;> exact hge
  | like => cases kind <;> cases h <;> exact between_like _ false
  | notLike => cases kind <;> cases h <;> exact between_like _ true
  | ilike => cases kind <;> cases h; exact between_ilike _ false
  | notIlike => cases kind <;> cases h; exact between_ilike _ true
  | glob => cases kind <;> cases h; exact between_glob _
  | contains =>
    cases kind <;> cases h
    exact between_symbol "@>".toList ⟨_, rfl⟩ rfl (by decide)
  | overlaps =>
    cases kind <;> cases h
    exact between_symbol "&&".toList ⟨_, rfl⟩ rfl (by decide)
  | regexMatch =>
    cases kind <;> cases h
    exact between_symbol "~".toList ⟨_, rfl⟩ rfl (by decide)
  | regexImatch =>
    cases kind <;> cases h
    exact between_symbol "~*".toList ⟨_, rfl⟩ rfl (by decide)
  | notRegexMatch =>
    cases kind <;> cases h
    exact between_symbol "!~".toList ⟨_, rfl⟩ rfl (by decide)
  | notRegexImatch =>
    cases kind <;> cases h
    exact between_symbol "!~*".toList ⟨_, rfl⟩ rfl (by decide)
  | ftsMatch =>
    cases kind <;> cases h
    exact between_symbol "@@".toList ⟨_, rfl⟩ rfl (by decide)
  | ltreeDescOf =>
    cases kind <;> cases h
    exact between_symbol "<@".toList ⟨_, rfl⟩ rfl (by decide)
  | ltreeAncOf =>
    cases kind <;> cases h
    exact between_symbol "@>".toList ⟨_, rfl⟩ rfl (by decide)

theorem Arith.between (operator : Arith) (kind : Kind) :
    Between kind (String.ofList operator.tokens) operator.op := by
  cases operator with
  | add => exact between_symbol "+".toList ⟨_, rfl⟩ rfl (by cases kind <;> decide)
  | mul => exact between_symbol "*".toList ⟨_, rfl⟩ rfl (by cases kind <;> decide)

/-- Two operands with a constant between them. -/
theorem Operand.between {left right : Text} {l r : Tree} {s : String} {op : Infix}
    (hl : Operand kind left l) (h : Between kind s op) (hr : Operand kind right r) :
    Formula kind (left ++ (s.toList ++ right)) (.binary op l r) := by
  obtain ⟨ops, hc, ho⟩ := h.tokens
  exact hl.binary h.delimited hc ho h.level hr

end Cartel.Sql
