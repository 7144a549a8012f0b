-- The scanner cuts its source by the lexical grammar: the characters behind it
-- are always cut into the tokens that it has emitted, and its position is that
-- of the next character.
import MiniFunctional.ExceptLaws
import MiniFunctional.LexicalGrammar
import Mathlib.Data.List.TakeWhile

open mf.util

namespace mf.tokenization

open ExceptLaws

/-! ## The position -/

/-- The position ends just after the characters. -/
def EndsAt (pos : Position) (before : List Char) : Prop :=
  pos.end_line = lineOf before ∧ pos.end_column = columnOf before

def BeginsAt (pos : Position) (before : List Char) : Prop :=
  pos.begin_line = lineOf before ∧ pos.begin_column = columnOf before

theorem EndsAt.movePast {pos : Position} {before : List Char} (h : EndsAt pos before) (c : Char) :
    EndsAt (movePast pos c) (before ++ [c]) := by
  unfold EndsAt tokenization.movePast at *
  rw [lineOf_append_singleton, columnOf_append_singleton]
  split
  · exact ⟨by rw [h.1], rfl⟩
  · exact ⟨h.1, by rw [h.2]⟩

theorem EndsAt.movePast_all {pos : Position} {before : List Char} (h : EndsAt pos before)
    (text : List Char) : EndsAt (text.foldl tokenization.movePast pos) (before ++ text) := by
  induction text generalizing pos before with
  | nil => simpa using h
  | cons c cs ih => simpa using ih (h.movePast c)

theorem BeginsAt.movePast {pos : Position} {before : List Char} (h : BeginsAt pos before)
    (c : Char) : BeginsAt (movePast pos c) before := by
  unfold tokenization.movePast
  split
  · exact h
  · exact h

theorem BeginsAt.movePast_all {pos : Position} {before : List Char} (h : BeginsAt pos before)
    (text : List Char) : BeginsAt (text.foldl tokenization.movePast pos) before := by
  induction text generalizing pos with
  | nil => exact h
  | cons c cs ih => exact ih (h.movePast c)

theorem eq_spanOf {pos : Position} {before text : List Char} (hb : BeginsAt pos before)
    (he : EndsAt pos (before ++ text)) : pos = spanOf before text := by
  obtain ⟨begin_line, begin_column, end_line, end_column⟩ := pos
  obtain ⟨rfl, rfl⟩ := hb
  obtain ⟨rfl, rfl⟩ := he
  rfl

/-! ## Loads of lexemes -/

theorem wordLoad_lexeme {text : List Char} (h : Letters text) : Lexeme text (wordLoad text) := by
  obtain ⟨hne, hall⟩ := h
  unfold wordLoad
  split
  · rename_i word token hfind
    have hname := List.find?_some hfind
    simp only [decide_eq_true_eq] at hname
    have hmem : (word, token) ∈ keywords := List.mem_of_find?_eq_some hfind
    have := Lexeme.keyword hmem
    rwa [hname, String.toList_ofList] at this
  · rename_i hfind
    have hkeyword : String.ofList text ∉ keywords.map (·.1) := by
      intro hmem
      obtain ⟨entry, hentry, heq⟩ := List.mem_map.mp hmem
      have := List.find?_eq_none.mp hfind entry hentry
      simp [heq] at this
    cases text with
    | nil => exact absurd rfl hne
    | cons c cs =>
      have hcs : ∀ d ∈ cs, isAlpha d := fun d hd => hall d (List.mem_cons_of_mem _ hd)
      by_cases hlower : isLower c
      · simp only [List.head?_cons, Option.map_some, Option.getD_some, hlower, if_true]
        exact .lower hlower hcs hkeyword
      · simp only [List.head?_cons, Option.map_some, Option.getD_some, hlower]
        refine .upper ?_ hcs
        simpa [isAlpha, hlower] using hall c List.mem_cons_self

theorem singleCharToken_symbol {c : Char} {load : TokenVariant}
    (h : singleCharToken c = some load) :
    (String.singleton c, load) ∈ symbols := by
  unfold singleCharToken at h
  split at h <;> cases h <;> decide

theorem singleCharToken_none {c : Char} (h : singleCharToken c = none) {text : String}
    {load : TokenVariant} (hsymbol : (text, load) ∈ symbols) : text.toList.head? ≠ some c := by
  rintro hhead
  have hall : ∀ entry ∈ symbols, entry.1.toList.head?.all (singleCharToken · |>.isSome) := by decide
  have hsome := hall (text, load) hsymbol
  rw [hhead, Option.all_some, h] at hsome
  cases hsome

/-- The value of the digits does not get smaller with more of them. -/
theorem le_foldl_decimal (digits : List Char) (value : Nat) :
    value ≤ digits.foldl (fun value c => value * 10 + (c.toNat - '0'.toNat)) value := by
  induction digits generalizing value with
  | nil => exact Nat.le_refl _
  | cons c cs ih =>
    rw [List.foldl_cons]
    have := ih (value * 10 + (c.toNat - '0'.toNat))
    omega

theorem foldlM_addDigit_spec (digits : List Char) {value : Nat} (hv : value ≤ INT_MAX) :
    Satisfies (digits.foldlM addDigit value)
      (fun e => e = .undefinedOverflow ∧
        INT_MAX < digits.foldl (fun value c => value * 10 + (c.toNat - '0'.toNat)) value)
      fun result => result ≤ INT_MAX ∧
        result = digits.foldl (fun value c => value * 10 + (c.toNat - '0'.toNat)) value := by
  induction digits generalizing value with
  | nil => exact ⟨hv, rfl⟩
  | cons c cs ih =>
    rw [List.foldlM_cons, List.foldl_cons]
    unfold addDigit
    simp only
    by_cases hnext : value * 10 + (c.toNat - '0'.toNat) ≤ INT_MAX
    · rw [if_pos hnext]
      exact ih hnext
    · rw [if_neg hnext]
      have := le_foldl_decimal cs (value * 10 + (c.toNat - '0'.toNat))
      exact ⟨rfl, by omega⟩

/-! ## One turn of the scanner -/

/-- The characters behind the scanner are cut, and it is at the next one. -/
structure Scanned (before : List Char) (s : Scanner) : Prop where
  cut : Cut before s.tokens s.rest
  endsAt : EndsAt s.pos before

theorem Scanned.space {before : List Char} {s : Scanner} (h : Scanned before s) {c : Char}
    {cs : List Char} (hs : s.rest = c :: cs) (hc : isSpace c) :
    Scanned (before ++ [c]) s.advance := by
  have hcut := h.cut
  rw [hs] at hcut
  unfold Scanner.advance
  rw [hs]
  exact ⟨hcut.space hc, h.endsAt.movePast c⟩

/-- The lexeme was read, and its token emitted at the position after it. -/
theorem Scanned.emit {before : List Char} {s : Scanner} (h : Scanned before s)
    (text rest : List Char) (hs : s.rest = text ++ rest) {load : TokenVariant}
    (hlexeme : Lexeme text load) (hmax : Maximal text rest) {pos : Position}
    (hpos : pos = text.foldl movePast s.beginToken.pos) :
    Scanned (before ++ text) ⟨rest, s.tokens ++ [⟨load, pos⟩], pos⟩ := by
  have hcut := h.cut
  rw [hs] at hcut
  have hends : EndsAt pos (before ++ text) := by
    rw [hpos]
    exact (show EndsAt s.beginToken.pos before from h.endsAt).movePast_all text
  have hbegins : BeginsAt pos before := by
    rw [hpos]
    exact (show BeginsAt s.beginToken.pos before from h.endsAt).movePast_all text
  refine ⟨?_, hends⟩
  rw [eq_spanOf hbegins hends]
  exact hcut.token hlexeme hmax

/-- Where the scanner stops before the end. -/
def Stops (chars : List Char) : TokenizeError → Prop
  | .unexpectedCharacter c pos => ∃ before tokens rest, chars = before ++ c :: rest ∧
    Cut before tokens (c :: rest) ∧ StartsNoToken c ∧ BeginsAt pos before
  | .undefinedOverflow => ∃ before tokens run rest, chars = before ++ (run ++ rest) ∧
    Cut before tokens (run ++ rest) ∧ IsRun before run rest ∧ INT_MAX < decimal run
  | .outOfFuel => False

theorem head_dropWhile {inClass : Char → Bool} {l : List Char} {c : Char}
    (h : c ∈ (l.dropWhile inClass).head?) : inClass c = false := by
  have hnot := List.head?_dropWhile_not inClass l
  rw [Option.mem_def.mp h] at hnot
  simpa using hnot

theorem maximal_word {text rest : List Char} (h : Letters text)
    (hrest : ∀ c ∈ rest.head?, isAlpha c = false) : Maximal text rest := by
  intro c hc
  obtain ⟨d, hd⟩ := List.exists_mem_of_ne_nil text h.1
  refine ⟨fun hdigits => ?_, fun _ => hrest c hc, fun htext => ?_⟩
  · have halpha := h.2 d hd
    rw [isDigit_not_isAlpha (hdigits.2 d hd)] at halpha
    cases halpha
  · rw [htext, List.mem_singleton] at hd
    have halpha := h.2 '-' (by simp [htext])
    cases halpha

theorem maximal_number {text rest : List Char} (h : Digits text)
    (hrest : ∀ c ∈ rest.head?, isDigit c = false) : Maximal text rest := by
  intro c hc
  obtain ⟨d, hd⟩ := List.exists_mem_of_ne_nil text h.1
  refine ⟨fun _ => hrest c hc, fun hletters => ?_, fun htext => ?_⟩
  · have halpha := hletters.2 d hd
    rw [isDigit_not_isAlpha (h.2 d hd)] at halpha
    cases halpha
  · have hdigit := h.2 '-' (by simp [htext])
    cases hdigit

theorem maximal_symbol {text rest : List Char} (halpha : ∀ c ∈ text, isAlpha c = false)
    (hdigit : ∀ c ∈ text, isDigit c = false) (hminus : text = ['-'] → rest.head? ≠ some '>') :
    Maximal text rest := by
  intro c hc
  refine ⟨fun h => ?_, fun h => ?_, fun htext hgt => ?_⟩
  · obtain ⟨d, hd⟩ := List.exists_mem_of_ne_nil text h.1
    have := h.2 d hd
    rw [hdigit d hd] at this
    cases this
  · obtain ⟨d, hd⟩ := List.exists_mem_of_ne_nil text h.1
    have := h.2 d hd
    rw [halpha d hd] at this
    cases this
  · rw [hgt] at hc
    exact hminus htext hc

theorem scanWord_cut {before : List Char} {s : Scanner} (h : Scanned before s) {c : Char}
    {cs : List Char} (hs : s.rest = c :: cs) (hc : isAlpha c) :
    ∃ text, text ≠ [] ∧ s.rest = text ++ (scanWord s.beginToken).rest ∧
      Scanned (before ++ text) (scanWord s.beginToken) := by
  have hletters : Letters (s.rest.takeWhile isAlpha) := by
    constructor
    · simp [hs, hc]
    · intro d hd
      exact List.mem_takeWhile_imp hd
  refine ⟨s.rest.takeWhile isAlpha, hletters.1, List.takeWhile_append_dropWhile.symm, ?_⟩
  exact h.emit _ _ List.takeWhile_append_dropWhile.symm (wordLoad_lexeme hletters)
    (maximal_word hletters fun d hd => head_dropWhile hd) rfl

theorem scanNumber_cut {before : List Char} {s : Scanner} (h : Scanned before s) {c : Char}
    {cs : List Char} (hs : s.rest = c :: cs) (hc : isDigit c) :
    Satisfies (scanNumber s.beginToken) (Stops (before ++ s.rest)) fun s' =>
      ∃ text, text ≠ [] ∧ s.rest = text ++ s'.rest ∧ Scanned (before ++ text) s' := by
  have hdigits : Digits (s.rest.takeWhile isDigit) := by
    constructor
    · simp [hs, hc]
    · intro d hd
      exact List.mem_takeWhile_imp hd
  have hsplit : s.rest = s.rest.takeWhile isDigit ++ s.rest.dropWhile isDigit :=
    List.takeWhile_append_dropWhile.symm
  have hrest : ∀ d ∈ (s.rest.dropWhile isDigit).head?, isDigit d = false :=
    fun d hd => head_dropWhile hd
  unfold scanNumber
  rw [Scanner.beginToken_rest]
  have hfold := foldlM_addDigit_spec (s.rest.takeWhile isDigit) (Nat.zero_le INT_MAX)
  refine Satisfies.bind (Satisfies.weaken hfold fun e he => ?_) fun value hvalue => ?_
  · obtain ⟨rfl, hlt⟩ := he
    have hcut := h.cut
    rw [hsplit] at hcut
    refine ⟨before, s.tokens, s.rest.takeWhile isDigit, s.rest.dropWhile isDigit, by rw [← hsplit],
      hcut, ⟨hdigits, fun d hd => ?_, hrest⟩, hlt⟩
    by_contra hdigit
    rw [Bool.not_eq_false] at hdigit
    have := h.cut.ends_number hd hdigit (show _ = some c by rw [hs]; rfl)
    rw [hc] at this
    cases this
  · refine ⟨s.rest.takeWhile isDigit, hdigits.1, hsplit, ?_⟩
    refine h.emit _ _ hsplit (.number hdigits ?_) (maximal_number hdigits hrest) rfl
    rw [toInt_ofNat hvalue.1, hvalue.2]
    rfl

theorem scanToken_cut {before : List Char} {s : Scanner} (h : Scanned before s) {c : Char}
    {cs : List Char} (hs : s.rest = c :: cs) (hspace : isSpace c = false) :
    Satisfies (scanToken s) (Stops (before ++ s.rest)) fun s' =>
      ∃ text, text ≠ [] ∧ s.rest = text ++ s'.rest ∧ Scanned (before ++ text) s' := by
  unfold scanToken
  simp only [Scanner.beginToken_rest, hs]
  by_cases halpha : isAlpha c
  · rw [if_pos halpha, ← hs]
    exact scanWord_cut h hs halpha
  rw [if_neg halpha]
  by_cases hdigit : isDigit c
  · rw [if_pos hdigit, ← hs]
    exact scanNumber_cut h hs hdigit
  rw [if_neg hdigit]
  rw [Bool.not_eq_true] at halpha hdigit
  by_cases harrow : (c = '-' && cs.head? = some '>') = true
  · rw [if_pos harrow]
    simp only [Bool.and_eq_true, decide_eq_true_eq] at harrow
    obtain ⟨rfl, hhead⟩ := harrow
    obtain ⟨rest, rfl⟩ : ∃ rest, cs = '>' :: rest := by
      cases cs with
      | nil => simp at hhead
      | cons d ds =>
        rw [List.head?_cons, Option.some.injEq] at hhead
        exact ⟨ds, by rw [hhead]⟩
    have hlexeme : Lexeme ['-', '>'] .Arrow :=
      .symbol (show ("->", .Arrow) ∈ symbols by decide)
    have hemit := h.emit ['-', '>'] rest (by simpa using hs) hlexeme
      (maximal_symbol (by simp [isAlpha, isLower, isUpper]) (by simp [isDigit]) (by simp)) rfl
    refine ⟨['-', '>'], by simp, ?_, ?_⟩
    · simp [scanArrow, Scanner.emit, Scanner.advance, hs]
    · simpa [scanArrow, Scanner.emit, Scanner.advance, hs] using hemit
  rw [if_neg harrow]
  cases hsingle : singleCharToken c with
  | some load =>
    have hlexeme := Lexeme.symbol (singleCharToken_symbol hsingle)
    rw [String.toList_singleton] at hlexeme
    have hemit := h.emit [c] cs (by simpa using hs) hlexeme
      (maximal_symbol (by simpa using halpha) (by simpa using hdigit) fun hc hhead => by
        simp only [List.cons.injEq, and_true] at hc
        simp [hc, hhead] at harrow) rfl
    refine ⟨[c], by simp, ?_, ?_⟩
    · simp [Scanner.emit, Scanner.advance, hs]
    · simpa [Scanner.emit, Scanner.advance, hs] using hemit
  | none =>
    have hcut := h.cut
    rw [hs] at hcut
    refine ⟨before, s.tokens, cs, rfl, hcut, ⟨hspace, fun text load hlexeme hhead => ?_⟩, h.endsAt⟩
    have hmem : c ∈ text := List.mem_of_head? hhead
    rcases hlexeme.cases with hd | hl | ⟨symbol, rfl, hsymbol⟩
    · rw [hd.2 c hmem] at hdigit
      cases hdigit
    · rw [hl.2 c hmem] at halpha
      cases halpha
    · exact singleCharToken_none hsingle hsymbol hhead

theorem scanLoop_cut {n : Nat} {before : List Char} {s : Scanner} (h : Scanned before s)
    (hn : s.rest.length < n) :
    Satisfies (scanLoop n s) (Stops (before ++ s.rest)) fun tokens =>
      Cut (before ++ s.rest) tokens [] := by
  induction n generalizing before s with
  | zero => omega
  | succ n ih =>
    unfold scanLoop
    cases hs : s.rest with
    | nil =>
      have hcut := h.cut
      rw [hs] at hcut
      simpa using hcut
    | cons c cs =>
      simp only
      rw [hs, List.length_cons] at hn
      by_cases hspace : isSpace c
      · rw [if_pos hspace]
        have hadvance : s.advance.rest = cs := by simp [Scanner.advance, hs]
        have := ih (h.space hs hspace) (by rw [hadvance]; omega)
        rw [hadvance, List.append_assoc, List.singleton_append] at this
        exact this
      · rw [if_neg hspace]
        rw [Bool.not_eq_true] at hspace
        have htoken := scanToken_cut h hs hspace
        rw [hs] at htoken
        refine htoken.bind fun s' hs' => ?_
        obtain ⟨text, hne, hsplit, hscanned⟩ := hs'
        have hlen := congrArg List.length hsplit
        rw [List.length_append, List.length_cons] at hlen
        have hpos := List.length_pos_of_ne_nil hne
        have := ih hscanned (by omega)
        rw [List.append_assoc, ← hsplit] at this
        exact this

/-- The scanner cuts the whole source, or stops at a place that cannot be cut. -/
theorem tokenize_cut (source : Source) :
    Satisfies (tokenize source) (Stops source.chars) fun tokens =>
      Cut source.chars tokens.tokens [] := by
  have hstart : Scanned [] ⟨source.chars, [], ⟨1, 1, 1, 1⟩⟩ := ⟨.start, rfl, rfl⟩
  have hscan : Satisfies (scan source.chars) (Stops source.chars) fun tokens =>
      Cut source.chars tokens [] := scanLoop_cut hstart (Nat.lt_succ_self _)
  unfold tokenize
  split
  · rename_i tokens h
    exact hscan.of_ok h
  · rename_i e h
    exact hscan.of_error h

/-! ## The lexical grammar -/

/-- The source is scanned as documented: it gives tokens just when it splits
into whitespace and lexemes, otherwise it is rejected for a character, and its tokens
are the lexemes of the source by longest match. -/
structure ScansAsDocumented (source : Source) : Prop where
  succeeds : (∃ tokens, tokenize source = .ok tokens) ↔ SplitsIntoLexemes source.chars
  rejects : ¬ SplitsIntoLexemes source.chars →
    ∃ c pos, tokenize source = .error (.unexpectedCharacter c pos)
  cuts : ∀ tokens, tokenize source = .ok tokens → Cut source.chars tokens.tokens []

/-- Every run of digits that the lexemes of the source lead up to is a number
of the size of an `int`. -/
def LiteralsFit (source : Source) : Prop :=
  ∀ before run after, source.chars = before ++ (run ++ after) → SplitsIntoLexemes before →
    IsRun before run after → decimal run ≤ INT_MAX

theorem Cut.all {chars : List Char} {tokens : List Token} (h : Cut chars tokens [])
    {before run after : List Char} (hsplit : chars = before ++ (run ++ after))
    (hrun : IsRun before run after) : decimal run ≤ INT_MAX := by
  refine h.run_fits hrun (by simpa using hsplit.symm) ?_
  rw [hsplit, List.length_append, List.length_append]
  omega

/-- The scanner implements the documented lexical grammar just on the sources
whose numbers fit in an `int`. -/
theorem tokenize_lexical (source : Source) : ScansAsDocumented source ↔ LiteralsFit source := by
  have hcut := tokenize_cut source
  constructor
  · intro h before run after hsplit hbefore hrun
    by_contra hlt
    cases hscan : tokenize source with
    | ok tokens =>
      exact hlt ((hcut.of_ok hscan).all hsplit hrun)
    | error e =>
      cases e with
      | unexpectedCharacter c pos =>
        obtain ⟨start, tokens, rest, hchars, hstart, hc, _⟩ := hcut.of_error hscan
        rw [hchars] at hsplit
        exact hlt (hstart.run_fits hrun hsplit.symm
          (hstart.run_before hc hbefore hrun hsplit.symm))
      | undefinedOverflow =>
        by_cases hsplits : SplitsIntoLexemes source.chars
        · obtain ⟨tokens, htokens⟩ := h.succeeds.mpr hsplits
          rw [hscan] at htokens
          cases htokens
        · obtain ⟨c, pos, herror⟩ := h.rejects hsplits
          rw [hscan] at herror
          cases herror
      | outOfFuel => exact hcut.of_error hscan
  · intro hfit
    cases hscan : tokenize source with
    | ok tokens =>
      have hchars := hcut.of_ok hscan
      refine ⟨⟨fun _ => hchars.splits, fun _ => ⟨tokens, hscan⟩⟩,
        fun h => absurd hchars.splits h, ?_⟩
      intro tokens' htokens'
      rw [hscan] at htokens'
      cases htokens'
      exact hchars
    | error e =>
      cases e with
      | unexpectedCharacter c pos =>
        obtain ⟨start, tokens, rest, hchars, hstart, hc, _⟩ := hcut.of_error hscan
        have hnot : ¬ SplitsIntoLexemes source.chars := by
          rw [hchars]
          exact hstart.not_splits hc
        refine ⟨⟨?_, fun h => absurd h hnot⟩, fun _ => ⟨c, pos, hscan⟩, ?_⟩
        · rintro ⟨tokens', htokens'⟩
          rw [hscan] at htokens'
          cases htokens'
        · intro tokens' htokens'
          rw [hscan] at htokens'
          cases htokens'
      | undefinedOverflow =>
        obtain ⟨start, tokens, run, rest, hchars, hstart, hrun, hlt⟩ := hcut.of_error hscan
        have := hfit start run rest hchars hstart.splits hrun
        omega
      | outOfFuel => exact absurd (hcut.of_error hscan) id

/-- `2147483648` is a number, and the scanner overflows on it. -/
theorem tokenize_lexical_overflow :
    ¬ ScansAsDocumented (.ofShort "2147483648".toList (by decide)) ∧
      tokenize (.ofShort "2147483648".toList (by decide)) = .error .undefinedOverflow := by
  refine ⟨fun h => ?_, rfl⟩
  have hsplits : SplitsIntoLexemes "2147483648".toList :=
    ⟨["2147483648".toList], by simp, fun part hpart => by
      rw [List.mem_singleton.mp hpart]
      exact .inr (.inl ⟨by decide, List.all_eq_true.mp (by decide)⟩)⟩
  obtain ⟨tokens, htokens⟩ := h.succeeds.mpr hsplits
  have herror :
      tokenize (.ofShort "2147483648".toList (by decide)) = .error .undefinedOverflow := rfl
  rw [herror] at htokens
  cases htokens

/-! ## Positions -/

/-- The tokens are where their lexemes are, in order and each on one line, and
an unexpected character is reported at its own place, the first that is in no token. -/
theorem tokenize_positions (source : Source) :
    (∀ tokens, tokenize source = .ok tokens → Cut source.chars tokens.tokens [] ∧
      tokens.tokens.Pairwise Precedes ∧
      ∀ t ∈ tokens.tokens, Delimits source.chars t ∧
        t.position.begin_line = t.position.end_line ∧
        t.position.begin_column < t.position.end_column) ∧
    ∀ c pos, tokenize source = .error (.unexpectedCharacter c pos) →
      ∃ before tokens rest, source.chars = before ++ c :: rest ∧ Cut before tokens (c :: rest) ∧
        StartsNoToken c ∧ pos.begin_line = lineOf before ∧ pos.begin_column = columnOf before := by
  have hcut := tokenize_cut source
  constructor
  · intro tokens hscan
    have hchars := hcut.of_ok hscan
    obtain ⟨hdelimits, hpairwise, _⟩ := hchars.positions
    refine ⟨hchars, hpairwise, fun t ht => ⟨hdelimits t ht, ?_⟩⟩
    obtain ⟨before, text, after, _, hlexeme, hposition⟩ := hdelimits t ht
    obtain ⟨hline, hcolumn⟩ := spanOf_line before hlexeme.no_newline
    have hpos := List.length_pos_of_ne_nil hlexeme.ne_nil
    rw [hposition]
    refine ⟨hline.symm, ?_⟩
    show columnOf before < columnOf (before ++ text)
    omega
  · intro c pos hscan
    exact hcut.of_error hscan

end mf.tokenization
