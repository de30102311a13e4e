import Mathlib.Data.List.Basic

/-!
# Scanners

A scanner reads a text symbol by symbol and emits the tokens it has complete
(`Scanner`). A piece of text lexes to tokens (`Lexes`) when a scanner that stands
between two tokens reads it to a state it may stop in, and is closed (`Closed`) when it
leaves the scanner between two tokens again. Closed pieces are followed by anything,
other pieces by what begins with a symbol that ends every open token (`Delimits`).
-/

namespace Cartel

/-- A scanner : where it stands between two tokens, what a symbol does, and what is
emitted when the text ends. -/
structure Scanner (σ α τ : Type*) where
  start : σ
  step : σ → α → Option (List τ × σ)
  flush : σ → Option (List τ)
  flush_start : flush start = some []

namespace Scanner

variable {σ α τ : Type*} (S : Scanner σ α τ)

/-- Reads a text from `q`. -/
def run : σ → List α → Option (List τ × σ)
  | q, [] => some ([], q)
  | q, c :: text => (S.step q c).bind fun p => (run p.2 text).map fun r => (p.1 ++ r.1, r.2)

/-- The tokens of a text. -/
def scan (text : List α) : Option (List τ) :=
  (S.run S.start text).bind fun p => (S.flush p.2).map (p.1 ++ ·)

theorem run_cons {q r : σ} {c : α} {emitted : List τ} (h : S.step q c = some (emitted, r))
    (text : List α) :
    S.run q (c :: text) = (S.run r text).map fun p => (emitted ++ p.1, p.2) := by
  simp only [run, h, Option.bind_some]

theorem run_append {q r : σ} {text : List α} {emitted : List τ}
    (h : S.run q text = some (emitted, r)) (more : List α) :
    S.run q (text ++ more) = (S.run r more).map fun p => (emitted ++ p.1, p.2) := by
  induction text generalizing q emitted with
  | nil =>
    simp only [run, Option.some.injEq, Prod.mk.injEq] at h
    obtain ⟨rfl, rfl⟩ := h
    simp
  | cons c text ih =>
    simp only [run, Option.bind_eq_some_iff, Option.map_eq_some_iff, Prod.mk.injEq] at h
    obtain ⟨⟨now, q'⟩, hstep, ⟨rest, r'⟩, hrun, rfl, rfl⟩ := h
    rw [List.cons_append, S.run_cons hstep, ih hrun, Option.map_map]
    simp [Function.comp_def]

/-- The text leaves the scanner between two tokens. -/
def Closed (text : List α) (tokens : List τ) : Prop :=
  S.run S.start text = some (tokens, S.start)

instance [DecidableEq σ] [DecidableEq τ] (text : List α) (tokens : List τ) :
    Decidable (S.Closed text tokens) :=
  inferInstanceAs (Decidable (S.run S.start text = some (tokens, S.start)))

/-- The text reads to the tokens when it ends here. -/
def Lexes (text : List α) (tokens : List τ) : Prop :=
  ∃ emitted q rest, S.run S.start text = some (emitted, q) ∧ S.flush q = some rest ∧
    tokens = emitted ++ rest

/-- The symbol ends every token that may end : what is open is emitted, and the symbol is
read as between two tokens. -/
def Delimits (c : α) : Prop :=
  ∀ q rest, S.flush q = some rest →
    S.step q c = (S.step S.start c).map fun p => (rest ++ p.1, p.2)

/-- The text begins with a symbol that ends every open token. -/
def Delimited (text : List α) : Prop := ∃ c more, text = c :: more ∧ S.Delimits c

variable {S} {text more : List α} {tokens others : List τ}

theorem Closed.lexes (h : S.Closed text tokens) : S.Lexes text tokens :=
  ⟨tokens, S.start, [], h, S.flush_start, by simp⟩

theorem Closed.nil : S.Closed [] [] := rfl

theorem Closed.append (h : S.Closed text tokens) (hm : S.Closed more others) :
    S.Closed (text ++ more) (tokens ++ others) := by
  unfold Closed at *
  rw [S.run_append h, hm]
  rfl

/-- Anything may follow a closed piece. -/
theorem Closed.append_lexes (h : S.Closed text tokens) (hm : S.Lexes more others) :
    S.Lexes (text ++ more) (tokens ++ others) := by
  obtain ⟨emitted, q, rest, hrun, hflush, rfl⟩ := hm
  refine ⟨tokens ++ emitted, q, rest, ?_, hflush, by simp⟩
  rw [S.run_append h, hrun]
  rfl

/-- What begins with a delimiter is read behind an open token as between two tokens. -/
theorem run_delimited {q : σ} {rest : List τ} (hflush : S.flush q = some rest)
    (hd : S.Delimited more) :
    S.run q more = (S.run S.start more).map fun p => (rest ++ p.1, p.2) := by
  obtain ⟨c, text, rfl, hc⟩ := hd
  have hstep := hc q rest hflush
  cases hs : S.step S.start c with
  | none =>
    rw [hs] at hstep
    simp only [run, hs, hstep, Option.map_none, Option.bind_none]
  | some p =>
    obtain ⟨emitted, r⟩ := p
    rw [hs] at hstep
    rw [S.run_cons hstep, S.run_cons hs, Option.map_map]
    simp [Function.comp_def]

theorem Lexes.append (h : S.Lexes text tokens) (hd : S.Delimited more)
    (hm : S.Lexes more others) : S.Lexes (text ++ more) (tokens ++ others) := by
  obtain ⟨emitted, q, rest, hrun, hflush, rfl⟩ := h
  obtain ⟨emitted', q', rest', hrun', hflush', rfl⟩ := hm
  refine ⟨emitted ++ (rest ++ emitted'), q', rest', ?_, hflush', by simp⟩
  rw [S.run_append hrun, run_delimited hflush hd, hrun']
  rfl

theorem Lexes.append_closed (h : S.Lexes text tokens) (hd : S.Delimited more)
    (hm : S.Closed more others) : S.Closed (text ++ more) (tokens ++ others) := by
  obtain ⟨emitted, q, rest, hrun, hflush, rfl⟩ := h
  unfold Closed at *
  rw [S.run_append hrun, run_delimited hflush hd, hm]
  simp

theorem Lexes.scan (h : S.Lexes text tokens) : S.scan text = some tokens := by
  obtain ⟨emitted, q, rest, hrun, hflush, rfl⟩ := h
  simp [Scanner.scan, hrun, hflush]

theorem Delimited.append (h : S.Delimited text) : S.Delimited (text ++ more) := by
  obtain ⟨c, rest, rfl, hc⟩ := h
  exact ⟨c, rest ++ more, rfl, hc⟩

end Scanner

end Cartel
