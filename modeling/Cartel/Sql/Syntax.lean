import Cartel.Sql.Lexer

/-!
# Rust expressions

The part of the Rust syntax tree the query macros read. An identifier keeps whether it was
written raw, and its name holds nothing a Rust identifier cannot hold. Literals carry their
base-10 digits. Of attributes, labels and closure modifiers only their presence matters.
-/

namespace Cartel.Sql

/-- A character of a Rust identifier. -/
def identChar (c : Char) : Bool := c.isAlphanum || c == '_' || decide (128 ≤ c.toNat)

/-- An identifier, without the prefix of a raw one. -/
structure Ident where
  raw : Bool
  name : Text
  proper : name ≠ [] ∧ ∀ c ∈ name, identChar c = true

namespace Ident

instance : DecidableEq Ident := fun a b =>
  decidable_of_iff (a.raw = b.raw ∧ a.name = b.name) <| by
    constructor
    · intro h
      cases a
      cases b
      simp_all
    · rintro rfl
      exact ⟨rfl, rfl⟩

/-- The identifier as it is written. -/
def text (i : Ident) : Text := if i.raw then "r#".toList ++ i.name else i.name

/-- Comparison with a string looks at the identifier as it is written. -/
def is (i : Ident) (s : String) : Bool := i.text == s.toList

/-- Equality up to the raw prefix. -/
def same (i j : Ident) : Bool := i.name == j.name

theorem dot_not_mem (i : Ident) : '.' ∉ i.name := fun h =>
  absurd (i.proper.2 _ h) (by decide)

theorem segments_name (i : Ident) : segments i.name = [i.name] := by
  simpa [segments] using split_plain [] i.dot_not_mem

end Ident

abbrev Attr := Text

mutual
/-- Generic arguments of a path segment (`syn::PathArguments`). -/
inductive Arguments
  | none
  | angle (args : List GenericArg)
  | paren
inductive GenericArg
  | type (t : Ty)
  | other
/-- Types, of which only paths are looked into. -/
inductive Ty
  | path (qself : Bool) (leadingColon : Bool) (segments : List (Ident × Arguments))
  | other
end

structure Path where
  leadingColon : Bool
  segments : List (Ident × Arguments)

def Arguments.isNone : Arguments → Bool
  | .none => true
  | _ => false

/-- `syn::PathArguments::is_empty`. -/
def Arguments.isEmpty : Arguments → Bool
  | .none => true
  | .angle args => args.isEmpty
  | .paren => false

/-- `syn::Path::get_ident`. -/
def Path.getIdent (p : Path) : Option Ident :=
  match p.leadingColon, p.segments with
  | false, [(ident, arguments)] => if arguments.isNone then some ident else none
  | _, _ => none

inductive BinOp
  | and | or | eq | ne | lt | gt | le | ge | add | mul | other
  deriving DecidableEq, Repr

inductive UnOp
  | not | other
  deriving DecidableEq, Repr

/-- The digits of an integer literal, without underscores and suffix. -/
structure LitInt where
  digits : Text
  proper : digits ≠ [] ∧ ∀ c ∈ digits, c.isDigit = true

/-- The digits of a float literal. -/
structure LitFloat where
  whole : Text
  fraction : Option Text
  exponent : Option (Bool × Text)
  proper : (whole ≠ [] ∧ ∀ c ∈ whole, c.isDigit = true) ∧
    (∀ f ∈ fraction, ∀ c ∈ f, c.isDigit = true) ∧
    ∀ e ∈ exponent, e.2 ≠ [] ∧ ∀ c ∈ e.2, c.isDigit = true

/-- `LitFloat::base10_digits`. -/
def LitFloat.digits (l : LitFloat) : Text :=
  l.whole ++ ((l.fraction.elim [] fun f => '.' :: f) ++
    l.exponent.elim [] fun e => 'e' :: ((if e.1 then ['-'] else []) ++ e.2))

inductive Lit
  | int (literal : LitInt)
  | float (literal : LitFloat)
  | bool (value : Bool)
  | str (value : Text)
  | other

inductive Member
  | named (ident : Ident)
  | unnamed (index : ℕ)

inductive Pat
  | ident (attrs : List Attr) (byRef mutability subpat : Bool) (ident : Ident)
  | other

/-- What stands before the inputs of a closure, and whether its output type is given. -/
structure ClosureHead where
  attrs : List Attr
  lifetimes : Bool
  constness : Bool
  asyncness : Bool
  capture : Bool
  output : Bool

mutual
inductive Expr
  | path (attrs : List Attr) (qself : Bool) (path : Path)
  | field (attrs : List Attr) (base : Expr) (member : Member)
  | binary (attrs : List Attr) (left : Expr) (op : BinOp) (right : Expr)
  | call (attrs : List Attr) (func : Expr) (args : List Expr)
  | methodCall (attrs : List Attr) (receiver : Expr) (method : Ident)
      (turbofish : Option (List GenericArg)) (args : List Expr)
  | paren (attrs : List Attr) (expr : Expr)
  | block (attrs : List Attr) (label : Option Ident) (stmts : List Stmt)
  | unary (attrs : List Attr) (op : UnOp) (expr : Expr)
  | lit (attrs : List Attr) (lit : Lit)
  | reference (attrs : List Attr) (expr : Expr)
  | closure (head : ClosureHead) (inputs : List Pat) (body : Expr)
  | other
inductive Stmt
  | expr (expr : Expr) (semi : Bool)
  | other
end

/-- The error a macro reports : its message. -/
abbrev Result := Except String

/-! ## Numbers read as numbers -/

theorem Digits.run_whole {text : Text} (h : ∀ c ∈ text, c.isDigit = true) :
    Digits.run .whole text = some .whole := by
  by_cases hne : text = []
  · rw [hne]
    rfl
  · exact Digits.run_digits hne (by simp_all [Digits.step]) (by simp_all [Digits.step]) h

theorem LitInt.isNumber (l : LitInt) : IsNumber l.digits := by
  obtain ⟨c, rest, h⟩ := List.exists_cons_of_ne_nil l.proper.1
  refine ⟨c, rest, .whole, h, l.proper.2 c (by simp [h]), ?_, rfl⟩
  exact Digits.run_whole fun d hd => l.proper.2 d (by simp [h, hd])

/-- The exponent of a float, behind its whole or its fraction. -/
theorem Digits.run_exponent {d : Digits} (hd : d = .whole ∨ d = .fraction) {negative : Bool}
    {digits : Text} (hne : digits ≠ []) (h : ∀ c ∈ digits, c.isDigit = true) :
    d.run ('e' :: ((if negative then ['-'] else []) ++ digits)) = some .power := by
  have hpower : ∀ e : Digits, e = .exponent ∨ e = .signed → e.run digits = some .power := by
    intro e he
    refine Digits.run_digits hne ?_ (fun c hc => by simp [Digits.step, hc]) h
    intro c hc
    rcases he with rfl | rfl <;> simp [Digits.step, hc]
  have hexponent : d.step 'e' = some .exponent := by rcases hd with rfl | rfl <;> rfl
  simp only [Digits.run, hexponent, Option.bind_some]
  cases negative with
  | false => exact hpower _ (Or.inl rfl)
  | true => exact hpower _ (Or.inr rfl)

theorem LitFloat.isNumber (l : LitFloat) : IsNumber l.digits := by
  obtain ⟨⟨hne, hwhole⟩, hfraction, hexponent⟩ := l.proper
  obtain ⟨c, rest, h⟩ := List.exists_cons_of_ne_nil hne
  have hrest : Digits.run .whole rest = some .whole :=
    Digits.run_whole fun d hd => hwhole d (by simp [h, hd])
  have htail : ∃ d : Digits, (d = .whole ∨ d = .fraction) ∧
      Digits.run .whole (rest ++ (l.fraction.elim [] fun f => '.' :: f)) = some d := by
    cases hf : l.fraction with
    | none => exact ⟨.whole, Or.inl rfl, by simpa using hrest⟩
    | some f =>
      refine ⟨.fraction, Or.inr rfl, ?_⟩
      rw [Digits.run_append hrest]
      show Digits.run .fraction f = some .fraction
      by_cases hnil : f = []
      · rw [hnil]
        rfl
      · exact Digits.run_digits hnil (fun c hc => by simp [Digits.step, hc])
          (fun c hc => by simp [Digits.step, hc]) (hfraction f (by simp [hf]))
  obtain ⟨d, hd, hrun⟩ := htail
  have hall : ∃ e : Digits, e.complete = true ∧
      Digits.run .whole ((rest ++ (l.fraction.elim [] fun f => '.' :: f)) ++
        l.exponent.elim [] fun e => 'e' :: ((if e.1 then ['-'] else []) ++ e.2)) = some e := by
    rw [Digits.run_append hrun]
    cases he : l.exponent with
    | none => exact ⟨d, by rcases hd with rfl | rfl <;> rfl, rfl⟩
    | some e =>
      have hdigits := hexponent e (by simp [he])
      exact ⟨.power, rfl, Digits.run_exponent hd hdigits.1 hdigits.2⟩
  obtain ⟨e, he, hrun⟩ := hall
  refine ⟨c, _, e, ?_, hwhole c (by simp [h]), hrun, he⟩
  simp [LitFloat.digits, h]

end Cartel.Sql
