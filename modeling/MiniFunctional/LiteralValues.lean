-- What the scanner does with the digits of the source: a literal has the value
-- that they denote, as long as an `int` can hold it.
import MiniFunctional.LongestMatch

open mf.util

namespace mf.tokenization

open ExceptLaws

/-- Literals keep their values: every run of digits is a token with the number
that it denotes unless the source is rejected, every literal is that of a run, and no
`int` overflows. -/
structure KeepsLiterals (source : Source) : Prop where
  noOverflow : tokenize source ≠ .error .undefinedOverflow
  runs : ∀ before run after, source.chars = before ++ (run ++ after) → IsRun before run after →
    (∃ (tokens : TokenVector) (value : Int32), tokenize source = .ok tokens ∧
      ⟨.IntLiteral value, spanOf before run⟩ ∈ tokens.tokens ∧ value.toInt = decimal run) ∨
    ∃ c pos, tokenize source = .error (.unexpectedCharacter c pos)
  literals : ∀ (tokens : TokenVector) (value : Int32) pos, tokenize source = .ok tokens →
    ⟨.IntLiteral value, pos⟩ ∈ tokens.tokens → ∃ before run after,
      source.chars = before ++ (run ++ after) ∧ IsRun before run after ∧
        pos = spanOf before run ∧ value.toInt = decimal run

/-- What is scanned to the end has the literals of all its runs of digits. -/
theorem keepsLiterals_of_ok {source : Source} {tokens : TokenVector}
    (h : tokenize source = .ok tokens) : KeepsLiterals source := by
  have hcut := (tokenize_cut source).of_ok h
  constructor
  · rw [h]
    simp
  · intro before run after hsplit hrun
    have hle : before.length + run.length ≤ source.chars.length := by
      rw [hsplit, List.length_append, List.length_append]
      omega
    obtain ⟨value, hvalue⟩ := hcut.run_token hrun (by simpa using hsplit.symm) hle
    exact .inl ⟨tokens, value, h, hvalue⟩
  · intro tokens' value pos h' hvalue
    rw [h] at h'
    cases h'
    obtain ⟨before, run, after, hsplit, hrun⟩ := hcut.literal_run hvalue
    exact ⟨before, run, after, by simpa using hsplit, hrun⟩

/-- What is rejected has no tokens. -/
theorem keepsLiterals_of_unexpected {source : Source} {c : Char} {pos : Position}
    (h : tokenize source = .error (.unexpectedCharacter c pos)) : KeepsLiterals source := by
  constructor
  · rw [h]
    simp
  · exact fun _ _ _ _ _ => .inr ⟨c, pos, h⟩
  · intro tokens value pos' h'
    rw [h] at h'
    cases h'

/-- Literals keep their values just when every run of digits that the scanner
gets to denotes a number of the size of an `int`. -/
theorem tokenize_literals (source : Source) : KeepsLiterals source ↔ LiteralsFit source := by
  constructor
  · intro h before run after hsplit hbefore hrun
    rcases h.runs before run after hsplit hrun with ⟨_, value, _, _, hvalue⟩ | ⟨c, pos, hscan⟩
    · have hmax : value.toInt ≤ Int32.maxValue.toInt := value.toInt_le
      have hbound : Int32.maxValue.toInt = (INT_MAX : Int) := rfl
      omega
    · -- the run is in front of the character that the source is rejected for
      obtain ⟨start, tokens, rest, hchars, hstart, hc, _⟩ := (tokenize_cut source).of_error hscan
      rw [hchars] at hsplit
      exact hstart.run_fits hrun hsplit.symm (hstart.run_before hc hbefore hrun hsplit.symm)
  · intro hfit
    cases hscan : tokenize source with
    | ok tokens => exact keepsLiterals_of_ok hscan
    | error e =>
      cases e with
      | unexpectedCharacter c pos => exact keepsLiterals_of_unexpected hscan
      | undefinedOverflow =>
        obtain ⟨start, tokens, run, rest, hchars, hstart, hrun, hlt⟩ :=
          (tokenize_cut source).of_error hscan
        have hle := hfit start run rest hchars hstart.splits hrun
        omega
      | outOfFuel => exact absurd ((tokenize_cut source).of_error hscan) id

/-- The value of `4294967296` is not kept: the scanner overflows. -/
theorem tokenize_literals_overflow :
    ¬ KeepsLiterals (.ofShort "4294967296".toList (by decide)) :=
  fun h => h.noOverflow rfl

end mf.tokenization
