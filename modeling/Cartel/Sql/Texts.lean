import Cartel.Sql.Phrases

/-!
# Texts

The phrases of the parser as texts. Each lemma takes the texts of the parts and gives the
text of the whole, character by character as the macros put it together : operands with a
constant between them, with parentheses around them, and queries.
-/

namespace Cartel.Sql

variable {kind : Kind} {text left right : Text} {t l r q : Tree}

/-- The text of one operand. -/
def Operand (kind : Kind) (text : Text) (t : Tree) : Prop :=
  ∃ tokens, (lexer kind).Lexes text tokens ∧ Atom kind tokens t

/-- The text of one expression, where a region begins. -/
def Condition (kind : Kind) (text : Text) (t : Tree) : Prop :=
  ∃ tokens, (lexer kind).Lexes text tokens ∧ Reads kind tokens t

/-- The text of one predicate, in its outermost form. -/
def Formula (kind : Kind) (text : Text) (t : Tree) : Prop :=
  ∃ tokens, (lexer kind).Lexes text tokens ∧ Joined kind tokens t

/-- The text of one query. -/
def QueryText (kind : Kind) (text : Text) (q : Tree) : Prop :=
  ∃ tokens, (lexer kind).Lexes text tokens ∧ Query kind tokens q

/-- The text of one `SELECT`. -/
def SelectText (kind : Kind) (text : Text) (q : Tree) : Prop :=
  ∃ tokens, (lexer kind).Lexes text (.word "select".toList :: tokens) ∧
    Query kind (.word "select".toList :: tokens) q

theorem SelectText.queryText (h : SelectText kind text q) : QueryText kind text q := by
  obtain ⟨tokens, hl, hq⟩ := h
  exact ⟨_, hl, hq⟩

theorem Operand.condition (h : Operand kind text t) : Condition kind text t := by
  obtain ⟨tokens, hl, ha⟩ := h
  exact ⟨tokens, hl, ha.reads⟩

theorem Operand.formula (h : Operand kind text t) (hor : ∀ l r, t ≠ .binary .or l r) :
    Formula kind text t := by
  obtain ⟨tokens, hl, ha⟩ := h
  exact ⟨tokens, hl, .bound (ha.binds 3) hor⟩

theorem Formula.condition (h : Formula kind text t) : Condition kind text t := by
  obtain ⟨tokens, hl, hj⟩ := h
  exact ⟨tokens, hl, hj.reads⟩

theorem Condition.expression (h : Condition kind text t) : expression kind text = some t := by
  obtain ⟨tokens, hl, hr⟩ := h
  exact hr.expression hl

/-! ## Constants -/

theorem delimited_of {c : Char} (hc : Delimiter c) (rest : Text) :
    (lexer kind).Delimited (c :: rest) :=
  ⟨c, rest, rfl, hc.delimits kind⟩

theorem delimited_blank (rest : Text) : (lexer kind).Delimited (' ' :: rest) :=
  delimited_of (Or.inl rfl) rest

theorem delimited_close (rest : Text) : (lexer kind).Delimited (')' :: rest) :=
  delimited_of (Or.inr (Or.inr (Or.inl rfl))) rest

theorem delimited_comma (rest : Text) : (lexer kind).Delimited (',' :: rest) :=
  delimited_of (Or.inr (Or.inl rfl)) rest

theorem delimited_colon (rest : Text) : (lexer kind).Delimited (':' :: rest) :=
  delimited_of (Or.inr (Or.inr (Or.inr rfl))) rest

theorem closed_open : (lexer kind).Closed "(".toList [.lparen] := by cases kind <;> decide

theorem closed_close : (lexer kind).Closed ")".toList [.rparen] := by cases kind <;> decide

theorem closed_comma : (lexer kind).Closed ", ".toList [.comma] := by cases kind <;> decide

/-! ## Operands -/

/-- A text in parentheses, whatever it is. -/
theorem lexes_paren {tokens : List Token} (h : (lexer kind).Lexes text tokens) :
    (lexer kind).Lexes ("(".toList ++ (text ++ ")".toList)) (.lparen :: (tokens ++ [.rparen])) :=
  closed_open.append_lexes (h.append (delimited_close []) closed_close.lexes)

theorem Condition.paren (h : Condition kind text t) :
    Operand kind ("(".toList ++ (text ++ ")".toList)) t := by
  obtain ⟨tokens, hl, hr⟩ := h
  exact ⟨_, lexes_paren hl, hr.paren⟩

/-- Two operands with an operator between them. -/
theorem Operand.binary {between : Text} {ops : List Token} {op : Infix}
    (hl : Operand kind left l) (hd : (lexer kind).Delimited between)
    (hc : (lexer kind).Closed between ops) (ho : Operator kind ops op)
    (hlevel : 3 < kind.level op) (hr : Operand kind right r) :
    Formula kind (left ++ (between ++ right)) (.binary op l r) := by
  obtain ⟨tokens, hlex, hatom⟩ := hl
  obtain ⟨others, hlex', hatom'⟩ := hr
  refine ⟨_, hlex.append hd.append (hc.append_lexes hlex'),
    .bound (hatom.binary ho hlevel hatom') ?_⟩
  rintro l' r' ⟨⟩
  exact absurd hlevel (by cases kind <;> decide)

/-- `AND` and `OR` put their operands in parentheses. -/
theorem Condition.wrap {between : Text} {op : Infix}
    (hl : Condition kind left l) (word : Text) (hr : Condition kind right r)
    (hc : (lexer kind).Closed (' ' :: (word ++ " ".toList)) [.word (folded word)])
    (hj : ∀ {tokens others : List Token}, Binds kind 3 tokens l → Binds kind 3 others r →
      Joined kind (tokens ++ .word (folded word) :: others) (.binary op l r))
    (hb : between = ") ".toList ++ (word ++ " (".toList)) :
    Formula kind ("(".toList ++ (left ++ (between ++ (right ++ ")".toList))))
      (.binary op l r) := by
  subst hb
  obtain ⟨tokens, hlex, hatom⟩ := hl.paren
  obtain ⟨others, hlex', hatom'⟩ := hr.paren
  refine ⟨_, ?_, hj (hatom.binds 3) (hatom'.binds 3)⟩
  have h := hlex.append (delimited_blank _) (hc.append_lexes hlex')
  simpa using h

theorem Condition.and (hl : Condition kind left l) (hr : Condition kind right r) :
    Formula kind ("(".toList ++ (left ++ (") AND (".toList ++ (right ++ ")".toList))))
      (.binary .and l r) :=
  hl.wrap "AND".toList hr (by cases kind <;> decide) .both rfl

theorem Condition.or (hl : Condition kind left l) (hr : Condition kind right r) :
    Formula kind ("(".toList ++ (left ++ (") OR (".toList ++ (right ++ ")".toList))))
      (.binary .or l r) :=
  hl.wrap "OR".toList hr (by cases kind <;> decide) .either rfl

/-- A test for `NULL`. -/
theorem Operand.test (h : Operand kind text l) (negated : Bool) :
    Formula kind (text ++ (if negated then " IS NOT NULL" else " IS NULL").toList)
      (.binary (if negated then .isNot else .is) l .null) := by
  obtain ⟨tokens, hl, ha⟩ := h
  refine ⟨_, hl.append ?_ ?_, .bound (ha.test negated) (by cases negated <;> simp)⟩
  · cases negated <;> exact delimited_blank _
  · cases negated with
    | false =>
      exact ⟨[.word "is".toList], .word "null".toList, [.word "null".toList],
        by cases kind <;> decide, rfl, rfl⟩
    | true =>
      exact ⟨[.word "is".toList, .word "not".toList], .word "null".toList,
        [.word "null".toList], by cases kind <;> decide, rfl, rfl⟩

/-- A comparison with the elements of an array. -/
theorem Operand.every {between symbol : Text} {quantifier : Quantifier}
    (hl : Operand .pg left l) (hd : (lexer .pg).Delimited between)
    (hc : (lexer .pg).Closed between [.symbol symbol, .word quantifier.word, .lparen])
    (hr : Condition .pg right r) :
    Formula .pg (left ++ (between ++ (right ++ ")".toList)))
      (.every (.ofSymbol symbol) quantifier l r) := by
  obtain ⟨tokens, hlex, hatom⟩ := hl
  obtain ⟨others, hlex', hreads⟩ := hr
  exact ⟨_, hlex.append hd.append (hc.append_lexes (hlex'.append (delimited_close [])
    closed_close.lexes)), .bound (hatom.every quantifier hreads) (by simp)⟩

/-! ## Calls -/

/-- The arguments of a call, with commas between them. -/
theorem lexes_commas {texts : List Text} {args : List Tree}
    (h : List.Forall₂ (Condition kind) texts args) (hne : texts ≠ []) {separator : Text}
    (hd : (lexer kind).Delimited separator) (hc : (lexer kind).Closed separator [.comma]) :
    ∃ pieces, pieces ≠ [] ∧ (lexer kind).Lexes (separator.intercalate texts) (commas pieces) ∧
      List.Forall₂ (Reads kind) pieces args := by
  induction h with
  | nil => exact absurd rfl hne
  | @cons text t texts args hpiece hrest ih =>
    obtain ⟨tokens, hl, hr⟩ := hpiece
    cases hrest with
    | nil => exact ⟨[tokens], by simp, by simpa [List.intercalate, commas] using hl, by simpa⟩
    | @cons text' t' texts args hnext hmore =>
      obtain ⟨pieces, hne', hl', hr'⟩ := ih (by simp)
      refine ⟨tokens :: pieces, by simp, ?_, by simp [hr, hr']⟩
      obtain ⟨piece, rest, rfl⟩ := List.exists_cons_of_ne_nil hne'
      have hall := hl.append hd.append (hc.append_lexes hl')
      simpa [List.intercalate, commas] using hall

theorem operand_call {name : Text} {texts : List Text} {args : List Tree}
    (hname : (lexer kind).Closed (name ++ "(".toList) [.word (folded name), .lparen])
    (hk : keyword (folded name) = none) (h : List.Forall₂ (Condition kind) texts args)
    (hne : texts ≠ []) :
    Operand kind ((name ++ "(".toList) ++ ((", ".toList).intercalate texts ++ ")".toList))
      (.call (folded name) args) := by
  obtain ⟨pieces, hne', hl, hr⟩ := lexes_commas h hne (delimited_comma _) closed_comma
  exact ⟨_, hname.append_lexes (hl.append (delimited_close []) closed_close.lexes),
    atom_call hk hr hne'⟩

/-! ## Queries -/

section
variable {items : List Tree} {texts : List Text} {relation label separator condition : Text}
  {names : List Text}

/-- The text of a query from one relation, up to its alias. -/
theorem lexes_select (hitems : List.Forall₂ (Condition kind) texts items) (hne : texts ≠ [])
    (hd : (lexer kind).Delimited separator) (hc : (lexer kind).Closed separator [.comma])
    (hrelation : (lexer kind).Lexes relation (pathTokens names)) (hlabel : IsWord label) :
    ∃ pieces, pieces ≠ [] ∧ List.Forall₂ (Reads kind) pieces items ∧
      (lexer kind).Lexes
        ("SELECT ".toList ++ (separator.intercalate texts ++ (" FROM ".toList ++
          (relation ++ (" AS ".toList ++ label)))))
        (.word "select".toList :: (commas pieces ++ (.word "from".toList ::
          (pathTokens names ++ [.word "as".toList, .word (folded label)])))) := by
  obtain ⟨pieces, hne', hl, hr⟩ := lexes_commas hitems hne hd hc
  have hselect : (lexer kind).Closed "SELECT ".toList [.word "select".toList] := by
    cases kind <;> decide
  have hfrom : (lexer kind).Closed " FROM ".toList [.word "from".toList] := by
    cases kind <;> decide
  have has : (lexer kind).Closed " AS ".toList [.word "as".toList] := by cases kind <;> decide
  refine ⟨pieces, hne', hr, hselect.append_lexes (hl.append (delimited_blank _)
    (hfrom.append_lexes (hrelation.append (delimited_blank _)
      (has.append_lexes (hlabel.lexes kind)))))⟩

theorem selectText_plain (hitems : List.Forall₂ (Condition kind) texts items) (hne : texts ≠ [])
    (hd : (lexer kind).Delimited separator) (hc : (lexer kind).Closed separator [.comma])
    (hrelation : (lexer kind).Lexes relation (pathTokens names)) (hlabel : IsWord label)
    (hnames : names ≠ []) (hk : keyword (folded label) = none) :
    SelectText kind
      ("SELECT ".toList ++ (separator.intercalate texts ++ (" FROM ".toList ++
        (relation ++ (" AS ".toList ++ label)))))
      (selectFrom items names (folded label) none) := by
  obtain ⟨pieces, hne', hr, hl⟩ := lexes_select hitems hne hd hc hrelation hlabel
  exact ⟨_, hl, query_plain hr hne' hnames hk⟩

theorem selectText_where (hitems : List.Forall₂ (Condition kind) texts items) (hne : texts ≠ [])
    (hd : (lexer kind).Delimited separator) (hc : (lexer kind).Closed separator [.comma])
    (hrelation : (lexer kind).Lexes relation (pathTokens names)) (hlabel : IsWord label)
    (hnames : names ≠ []) (hk : keyword (folded label) = none)
    (h : Condition kind condition t) :
    SelectText kind
      (("SELECT ".toList ++ (separator.intercalate texts ++ (" FROM ".toList ++
        (relation ++ (" AS ".toList ++ label))))) ++ (" WHERE ".toList ++ condition))
      (selectFrom items names (folded label) (some t)) := by
  obtain ⟨pieces, hne', hr, hl⟩ := lexes_select hitems hne hd hc hrelation hlabel
  obtain ⟨tokens, hlex, hreads⟩ := h
  have hwhere : (lexer kind).Closed " WHERE ".toList [.word "where".toList] := by
    cases kind <;> decide
  exact ⟨_, hl.append (delimited_blank _) (hwhere.append_lexes hlex),
    query_where hr hne' hnames hk hreads⟩

end

/-- A scalar subquery. -/
theorem SelectText.scalar (h : SelectText kind text q) :
    Operand kind ("(".toList ++ (text ++ ")".toList)) (.scalar q) := by
  obtain ⟨tokens, hl, hq⟩ := h
  exact ⟨_, lexes_paren hl, hq.scalar⟩

/-- An existence test. -/
theorem QueryText.existence (h : QueryText kind text q) :
    Operand kind ("EXISTS (".toList ++ (text ++ ")".toList)) (.existence q) := by
  obtain ⟨tokens, hl, hq⟩ := h
  have hexists : (lexer kind).Closed "EXISTS (".toList [.word "exists".toList, .lparen] := by
    cases kind <;> decide
  exact ⟨_, hexists.append_lexes (hl.append (delimited_close []) closed_close.lexes),
    hq.existence⟩

theorem Operand.not (h : Operand kind text t) :
    Formula kind ("NOT ".toList ++ text) (.not t) := by
  obtain ⟨tokens, hl, ha⟩ := h
  have hnot : (lexer kind).Closed "NOT ".toList [.word "not".toList] := by
    cases kind <;> decide
  exact ⟨_, hnot.append_lexes hl, .bound ha.not (by simp)⟩

end Cartel.Sql
