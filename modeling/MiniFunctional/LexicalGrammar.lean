-- The lexical grammar of `docs/grammar.md`, and how a text is cut into
-- whitespace and lexemes by longest match, with the coordinates of each cut.
-- Nothing here is taken from the scanner.
import MiniFunctional.PrintLexes

open mf.util

namespace mf.tokenization

/-! ## The table of tokens -/

def keywords : List (String × TokenVariant) :=
  [("defn", .Function), ("data", .Data), ("case", .Case), ("of", .Of)]

def symbols : List (String × TokenVariant) :=
  [("=", .Equal), ("->", .Arrow), ("+", .Plus), ("-", .Minus), ("*", .Star), ("/", .Slash),
    ("\x7b", .LeftBrace), ("\x7d", .RightBrace), ("(", .LeftParentheses), (")", .RightParentheses),
    (",", .Comma)]

/-- `[0-9]+`. -/
def Digits (text : List Char) : Prop := text ≠ [] ∧ ∀ c ∈ text, isDigit c

/-- `[a-zA-Z]+`. -/
def Letters (text : List Char) : Prop := text ≠ [] ∧ ∀ c ∈ text, isAlpha c

/-- The number that digits denote in base ten. -/
def decimal (digits : List Char) : Nat :=
  digits.foldl (fun value c => value * 10 + (c.toNat - '0'.toNat)) 0

/-- The text is a lexeme of the token. -/
inductive Lexeme : List Char → TokenVariant → Prop
  | number {text} {value : Int32} : Digits text → value.toInt = decimal text →
      Lexeme text (.IntLiteral value)
  | keyword {word load} : (word, load) ∈ keywords → Lexeme word.toList load
  | lower {c cs} : isLower c → (∀ d ∈ cs, isAlpha d) →
      String.ofList (c :: cs) ∉ keywords.map (·.1) →
    Lexeme (c :: cs) (.LowerVariable (String.ofList (c :: cs)))
  | upper {c cs} : isUpper c → (∀ d ∈ cs, isAlpha d) →
    Lexeme (c :: cs) (.UpperVariable (String.ofList (c :: cs)))
  | symbol {text load} : (text, load) ∈ symbols → Lexeme text.toList load

/-- Whitespace, or a lexeme; a number of any size is one. -/
def Part (text : List Char) : Prop :=
  (∀ c ∈ text, isSpace c) ∨ Digits text ∨ ∃ load, Lexeme text load

def SplitsIntoLexemes (chars : List Char) : Prop :=
  ∃ parts : List (List Char), chars = parts.flatten ∧ ∀ part ∈ parts, Part part

/-! ## Coordinates -/

def lineOf (before : List Char) : Nat := before.count '\n' + 1

/-- One more than the characters since the last newline. -/
def columnOf (before : List Char) : Nat := (before.reverse.takeWhile (· ≠ '\n')).length + 1

/-- From the first character of `text` to just after its last. -/
def spanOf (before text : List Char) : Position :=
  ⟨lineOf before, columnOf before, lineOf (before ++ text), columnOf (before ++ text)⟩

/-! ## Longest match -/

/-- The lexeme does not go on in what follows it. -/
def Maximal (text rest : List Char) : Prop :=
  ∀ c ∈ rest.head?, (Digits text → isDigit c = false) ∧ (Letters text → isAlpha c = false) ∧
    (text = ['-'] → c ≠ '>')

/-- The characters so far are cut into whitespace and maximal lexemes, which
are those of the tokens. -/
inductive Cut : List Char → List Token → List Char → Prop
  | start {rest} : Cut [] [] rest
  | space {before tokens c rest} : Cut before tokens (c :: rest) → isSpace c →
    Cut (before ++ [c]) tokens rest
  | token {before tokens text load rest} : Cut before tokens (text ++ rest) → Lexeme text load →
    Maximal text rest → Cut (before ++ text) (tokens ++ [⟨load, spanOf before text⟩]) rest

/-- No lexeme begins with the character, and it is no whitespace. -/
def StartsNoToken (c : Char) : Prop :=
  isSpace c = false ∧ ∀ text load, Lexeme text load → text.head? ≠ some c

/-! ## Lexemes -/

theorem Lexeme.ne_nil {text : List Char} {load : TokenVariant} (h : Lexeme text load) :
    text ≠ [] := by
  cases h with
  | number h _ => exact h.1
  | @keyword word load h =>
    simp only [keywords, List.mem_cons, Prod.mk.injEq, List.not_mem_nil, or_false] at h
    rcases h with ⟨rfl, _⟩ | ⟨rfl, _⟩ | ⟨rfl, _⟩ | ⟨rfl, _⟩ <;> decide
  | lower => simp
  | upper => simp
  | @symbol text load h =>
    simp only [symbols, List.mem_cons, Prod.mk.injEq, List.not_mem_nil, or_false] at h
    rcases h with h | h | h | h | h | h | h | h | h | h | h <;> rw [h.1] <;> decide

theorem isDigit_not_isAlpha {c : Char} (h : isDigit c) : isAlpha c = false := by
  rw [isDigit_iff] at h
  rw [← Bool.not_eq_true, isAlpha_iff]
  omega

/-- A lexeme is a word, a number, or a symbol. -/
theorem Lexeme.cases {text : List Char} {load : TokenVariant} (h : Lexeme text load) :
    Digits text ∨ Letters text ∨ ∃ symbol, text = symbol.toList ∧ (symbol, load) ∈ symbols := by
  cases h with
  | number h _ => exact .inl h
  | @keyword word load h =>
    refine .inr (.inl ?_)
    simp only [keywords, List.mem_cons, Prod.mk.injEq, List.not_mem_nil, or_false] at h
    rcases h with ⟨rfl, _⟩ | ⟨rfl, _⟩ | ⟨rfl, _⟩ | ⟨rfl, _⟩ <;>
      exact ⟨by decide, List.all_eq_true.mp (by decide)⟩
  | lower hc hcs _ =>
    refine .inr (.inl ⟨by simp, fun d hd => ?_⟩)
    rcases List.mem_cons.mp hd with rfl | hd
    · simp [isAlpha, hc]
    · exact hcs d hd
  | upper hc hcs =>
    refine .inr (.inl ⟨by simp, fun d hd => ?_⟩)
    rcases List.mem_cons.mp hd with rfl | hd
    · simp [isAlpha, hc]
    · exact hcs d hd
  | symbol h => exact .inr (.inr ⟨_, rfl, h⟩)

/-- The characters that can be in a lexeme, but for the end of an arrow. -/
def InLexeme (c : Char) : Prop := isAlpha c ∨ isDigit c ∨ (String.singleton c) ∈ symbols.map (·.1)

/-- Where a character of a part is: it may be in a lexeme, or ends an arrow. -/
theorem Part.chars {text : List Char} (h : Part text) {l r : List Char} {c : Char}
    (hsplit : text = l ++ c :: r) : isSpace c ∨ InLexeme c ∨ (c = '>' ∧ l = ['-']) := by
  have hmem : c ∈ text := by simp [hsplit]
  have hdigits : Digits text → InLexeme c := fun h => .inr (.inl (h.2 c hmem))
  rcases h with h | h | ⟨load, h⟩
  · exact .inl (h c hmem)
  · exact .inr (.inl (hdigits h))
  · rcases h.cases with h | h | ⟨symbol, rfl, hsymbol⟩
    · exact .inr (.inl (hdigits h))
    · exact .inr (.inl (.inl (h.2 c hmem)))
    · by_cases harrow : symbol = "->"
      · subst harrow
        have hcases : l = [] ∧ c = '-' ∨ l = ['-'] ∧ c = '>' := by
          rcases l with _ | ⟨a, _ | ⟨b, l⟩⟩
          · simp at hsplit
            exact .inl ⟨rfl, hsplit.1.symm⟩
          · simp at hsplit
            exact .inr ⟨by rw [hsplit.1], hsplit.2.1.symm⟩
          · have := congrArg List.length hsplit
            simp at this
        rcases hcases with ⟨_, rfl⟩ | ⟨hl, hc⟩
        · exact .inr (.inl (.inr (.inr (by decide))))
        · exact .inr (.inr ⟨hc, hl⟩)
      · refine .inr (.inl (.inr (.inr ?_)))
        have hsingle : ∀ entry ∈ symbols, entry.1 ≠ "->" →
            entry.1.toList.all fun d => String.singleton d ∈ symbols.map (·.1) := by decide
        simpa using List.all_eq_true.mp (hsingle (symbol, load) hsymbol harrow) c hmem

theorem Lexeme.eq_minus {text : List Char} {load : TokenVariant} (h : Lexeme text load)
    (hlast : text.getLast? = some '-') : text = ['-'] := by
  have hmem : '-' ∈ text := List.mem_of_getLast? hlast
  rcases h.cases with h | h | ⟨symbol, rfl, hsymbol⟩
  · exact absurd (h.2 _ hmem) (by decide)
  · exact absurd (h.2 _ hmem) (by decide)
  · have hall : ∀ entry ∈ symbols, entry.1.toList.getLast? = some '-' → entry.1.toList = ['-'] := by
      decide
    exact hall (symbol, load) hsymbol hlast

/-- A lexeme with a digit in it is a number. -/
theorem Lexeme.digits {text : List Char} {load : TokenVariant} (h : Lexeme text load) {c : Char}
    (hc : c ∈ text) (hdigit : isDigit c) :
    Digits text ∧ ∃ value, load = .IntLiteral value ∧ value.toInt = decimal text := by
  have hnot : ∀ d ∈ text, isAlpha d → d ≠ c := by
    rintro d _ halpha rfl
    rw [isDigit_not_isAlpha hdigit] at halpha
    cases halpha
  cases h with
  | number h hvalue => exact ⟨h, _, rfl, hvalue⟩
  | @keyword word load h =>
    have hall : ∀ entry ∈ keywords, entry.1.toList.all isAlpha := by decide
    exact absurd rfl (hnot c hc (List.all_eq_true.mp (hall (word, load) h) c hc))
  | @lower d cs hd hcs _ =>
    rcases List.mem_cons.mp hc with rfl | hmem
    · exact absurd rfl (hnot c hc (by simp [isAlpha, hd]))
    · exact absurd rfl (hnot c hc (hcs c hmem))
  | @upper d cs hd hcs =>
    rcases List.mem_cons.mp hc with rfl | hmem
    · exact absurd rfl (hnot c hc (by simp [isAlpha, hd]))
    · exact absurd rfl (hnot c hc (hcs c hmem))
  | @symbol text load h =>
    have hall : ∀ entry ∈ symbols, entry.1.toList.any isDigit = false := by decide
    exact absurd hdigit (List.any_eq_false.mp (hall (text, load) h) c hc)

theorem isSpace_not_isDigit {c : Char} (h : isSpace c) : isDigit c = false := by
  by_contra hdigit
  rw [Bool.not_eq_false] at hdigit
  rw [not_isSpace (by rw [isDigit_iff] at hdigit; omega)] at h
  cases h

/-! ## Cuts -/

theorem SplitsIntoLexemes.append {chars text : List Char} (h : SplitsIntoLexemes chars)
    (hpart : Part text) : SplitsIntoLexemes (chars ++ text) := by
  obtain ⟨parts, rfl, hparts⟩ := h
  refine ⟨parts ++ [text], by simp, fun part hmem => ?_⟩
  rcases List.mem_append.mp hmem with hmem | hmem
  · exact hparts part hmem
  · rw [List.mem_singleton.mp hmem]
    exact hpart

theorem Cut.splits {before rest : List Char} {tokens : List Token} (h : Cut before tokens rest) :
    SplitsIntoLexemes before := by
  induction h with
  | start => exact ⟨[], rfl, by simp⟩
  | space _ hspace ih => exact ih.append (.inl (by simpa using hspace))
  | token _ hlexeme _ ih => exact ih.append (.inr (.inr ⟨_, hlexeme⟩))

/-- The characters of a text that splits. -/
theorem SplitsIntoLexemes.chars {text l r : List Char} {c : Char} (h : SplitsIntoLexemes text)
    (hsplit : text = l ++ c :: r) :
    isSpace c ∨ InLexeme c ∨ (c = '>' ∧ l.getLast? = some '-') := by
  obtain ⟨parts, rfl, hparts⟩ := h
  induction parts generalizing l with
  | nil => simp at hsplit
  | cons part parts ih =>
    rw [List.flatten_cons] at hsplit
    rcases List.append_eq_append_iff.mp hsplit with ⟨l', rfl, hrest⟩ | ⟨l', rfl, hrest⟩
    · -- the character is in a later part
      rcases ih (fun part hmem => hparts part (List.mem_cons_of_mem _ hmem)) hrest with
        h | h | ⟨hc, hl⟩
      · exact .inl h
      · exact .inr (.inl h)
      · refine .inr (.inr ⟨hc, ?_⟩)
        rw [List.getLast?_append, hl]
        rfl
    · cases l' with
      | nil =>
        rcases ih (fun part hmem => hparts part (List.mem_cons_of_mem _ hmem))
          (show _ = [] ++ c :: r by simpa using hrest.symm) with h | h | ⟨_, hl⟩
        · exact .inl h
        · exact .inr (.inl h)
        · simp at hl
      | cons d l' =>
        simp only [List.cons_append, List.cons.injEq] at hrest
        obtain ⟨rfl, _⟩ := hrest
        rcases (hparts _ List.mem_cons_self).chars rfl with h | h | ⟨hc, hl⟩
        · exact .inl h
        · exact .inr (.inl h)
        · exact .inr (.inr ⟨hc, by simp [hl]⟩)

/-- The arrow is cut as one lexeme. -/
theorem Cut.no_arrow {before rest : List Char} {tokens : List Token}
    (h : Cut before tokens ('>' :: rest)) : before.getLast? ≠ some '-' := by
  generalize hr : '>' :: rest = r at h
  cases h with
  | start => simp
  | space _ hspace =>
    simp only [List.getLast?_append, List.getLast?_singleton, Option.some_or]
    rintro h
    cases h
    exact absurd hspace (by decide)
  | token _ hlexeme hmax =>
    rw [List.getLast?_append_of_ne_nil _ hlexeme.ne_nil]
    intro h
    have htext := hlexeme.eq_minus h
    exact (hmax '>' (by simp [← hr])).2.2 htext rfl

/-- A character that may be in a lexeme begins one. -/
theorem InLexeme.starts {c : Char} (h : InLexeme c) : ∃ text load, Lexeme text load ∧
    text.head? = some c := by
  rcases h with h | h | h
  · rw [isAlpha, Bool.or_eq_true] at h
    rcases h with h | h
    · by_cases hkeyword : String.ofList [c] ∈ keywords.map (·.1)
      · have hall : ∀ word ∈ keywords.map (·.1), word.toList.length ≠ 1 := by decide
        exact absurd (by simp) (hall _ hkeyword)
      · exact ⟨[c], _, .lower h (by simp) hkeyword, rfl⟩
    · exact ⟨[c], _, .upper h (by simp), rfl⟩
  · refine ⟨[c], .IntLiteral (Int32.ofNat (decimal [c])),
      .number ⟨by simp, by simpa using h⟩ ?_, rfl⟩
    rw [isDigit_iff] at h
    refine toInt_ofNat ?_
    have hzero : ('0').toNat = 48 := rfl
    simp only [decimal, List.foldl_cons, List.foldl_nil, INT_MAX, hzero]
    omega
  · obtain ⟨⟨text, load⟩, hentry, heq⟩ := List.mem_map.mp h
    simp only at heq
    subst heq
    exact ⟨_, load, .symbol hentry, by simp⟩

/-- A text does not split when its cut comes to a character that starts no token. -/
theorem Cut.not_splits {before rest rest' : List Char} {tokens : List Token} {c : Char}
    (h : Cut before tokens (c :: rest)) (hc : StartsNoToken c) :
    ¬ SplitsIntoLexemes (before ++ c :: rest') := by
  intro hsplits
  rcases hsplits.chars rfl with hspace | hin | ⟨rfl, hlast⟩
  · rw [hc.1] at hspace
    cases hspace
  · obtain ⟨text, load, hlexeme, hhead⟩ := hin.starts
    exact hc.2 text load hlexeme hhead
  · exact h.no_arrow hlast

/-! ## Numbers in a cut -/

/-- The digits are not part of a longer run of digits. -/
def IsRun (before run rest : List Char) : Prop :=
  Digits run ∧ (∀ c ∈ before.getLast?, isDigit c = false) ∧ ∀ c ∈ rest.head?, isDigit c = false

theorem Cut.ends_number {before rest : List Char} {tokens : List Token} (h : Cut before tokens rest)
    {c d : Char} (hc : before.getLast? = some c) (hdigit : isDigit c) (hd : rest.head? = some d) :
    isDigit d = false := by
  cases h with
  | start => simp at hc
  | @space _ _ c' _ _ hspace =>
    simp only [List.getLast?_append, List.getLast?_singleton, Option.some_or,
      Option.some.injEq] at hc
    subst hc
    rw [isSpace_not_isDigit hspace] at hdigit
    cases hdigit
  | token _ hlexeme hmax =>
    rw [List.getLast?_append_of_ne_nil _ hlexeme.ne_nil] at hc
    exact (hmax d hd).1 (hlexeme.digits (List.mem_of_getLast? hc) hdigit).1

/-- A run of digits at the start of a lexeme is the lexeme. -/
theorem run_eq_of_aligned {before run rest text after : List Char} {load : TokenVariant}
    (hrun : IsRun before run rest) (hlexeme : Lexeme text load)
    (hsplit : run ++ rest = text ++ after) (hle : run.length ≤ text.length) : run = text := by
  obtain ⟨⟨hne, hdigits⟩, _, hrest⟩ := hrun
  rcases List.append_eq_append_iff.mp hsplit with ⟨t, rfl, htail⟩ | ⟨t, rfl, _⟩
  · cases t with
    | nil => rw [List.append_nil]
    | cons d t =>
      obtain ⟨c, hc⟩ := List.exists_mem_of_ne_nil run hne
      have htext := (hlexeme.digits (List.mem_append_left _ hc) (hdigits c hc)).1
      have hd : isDigit d := htext.2 d (by simp)
      rw [hrest d (by simp [htail])] at hd
      cases hd
  · rw [List.length_append] at hle
    obtain rfl : t = [] := List.length_eq_zero_iff.mp (by omega)
    rw [List.append_nil]

/-- A run of digits that ends in a lexeme is the lexeme. -/
theorem run_eq_lexeme {before run rest start text after : List Char} {load : TokenVariant}
    {tokens : List Token} (hrun : IsRun before run rest) (hcut : Cut start tokens (text ++ after))
    (hlexeme : Lexeme text load) (hsplit : before ++ (run ++ rest) = start ++ (text ++ after))
    (hlt : start.length < before.length + run.length)
    (hle : before.length + run.length ≤ start.length + text.length) :
    before = start ∧ run = text := by
  rcases List.append_eq_append_iff.mp hsplit with ⟨a, rfl, hright⟩ | ⟨a, rfl, hright⟩
  · rw [List.length_append] at hlt hle
    rcases List.eq_nil_or_concat a with rfl | ⟨a, c, rfl⟩
    · exact ⟨(List.append_nil _).symm, run_eq_of_aligned hrun hlexeme hright (by simpa using hle)⟩
    · -- the run begins before the lexeme, in a number that then ends
      obtain ⟨r, rfl, hr⟩ := (List.append_eq_append_iff.mp hright.symm).resolve_right (by
        rintro ⟨b, hb, _⟩
        have := congrArg List.length hb
        simp at this hlt
        omega)
      cases r with
      | nil =>
        simp at hlt
      | cons d r =>
        have hc : isDigit c := hrun.1.2 c (by simp)
        have hd : isDigit d := hrun.1.2 d (by simp)
        rw [hcut.ends_number (by simp) hc (show _ = some d by rw [hr]; rfl)] at hd
        cases hd
  · rw [List.length_append] at hlt hle
    rcases List.eq_nil_or_concat a with rfl | ⟨a, c, rfl⟩
    · exact ⟨List.append_nil _, run_eq_of_aligned hrun hlexeme hright.symm (by simpa using hle)⟩
    · -- the run begins after the first character of the lexeme, which is a number
      obtain ⟨r, rfl, hr⟩ := (List.append_eq_append_iff.mp hright).resolve_left (by
        rintro ⟨b, hb, _⟩
        have := congrArg List.length hb
        simp at this hle
        have := List.length_pos_of_ne_nil hrun.1.1
        omega)
      have hlen : run.length ≤ r.length := by
        simp at hle
        omega
      obtain ⟨⟨hne, hdigits⟩, hbefore, _⟩ := hrun
      rcases run with _ | ⟨d, run⟩
      · exact absurd rfl hne
      rcases r with _ | ⟨e, r⟩
      · simp at hlen
      simp only [List.cons_append, List.cons.injEq] at hr
      obtain ⟨rfl, _⟩ := hr
      have htext := (hlexeme.digits (c := d) (by simp) (hdigits d (by simp))).1
      have hc : isDigit c := htext.2 c (by simp)
      rw [hbefore c (by simp)] at hc
      cases hc

/-- A run of digits in the part that was cut is the literal of a token. -/
theorem Cut.run_token {cut tokens rest before run after} (h : Cut cut tokens rest)
    (hrun : IsRun before run after) (hsplit : before ++ (run ++ after) = cut ++ rest)
    (hle : before.length + run.length ≤ cut.length) :
    ∃ value : Int32, ⟨.IntLiteral value, spanOf before run⟩ ∈ tokens ∧
      value.toInt = decimal run := by
  have hpos := List.length_pos_of_ne_nil hrun.1.1
  induction h with
  | start =>
    rw [List.length_nil] at hle
    omega
  | @space cut tokens c rest hcut hspace ih =>
    by_cases hlt : before.length + run.length ≤ cut.length
    · exact ih (by simpa using hsplit) hlt
    · -- the run would end in the whitespace
      have hlen : (before ++ run).length = (cut ++ [c]).length := by
        simp only [List.length_append, List.length_singleton] at hle ⊢
        omega
      have heq := (List.append_inj (by simpa using hsplit) hlen).1
      have hlast : run.getLast? = some c := by
        rw [← List.getLast?_append_of_ne_nil before hrun.1.1, heq]
        simp
      have hc : isDigit c := hrun.1.2 c (List.mem_of_getLast? hlast)
      rw [isSpace_not_isDigit hspace] at hc
      cases hc
  | @token cut tokens text load rest hcut hlexeme _ ih =>
    by_cases hlt : before.length + run.length ≤ cut.length
    · obtain ⟨value, hvalue, hdecimal⟩ := ih (by simpa using hsplit) hlt
      exact ⟨value, List.mem_append_left _ hvalue, hdecimal⟩
    · rw [List.length_append] at hle
      obtain ⟨rfl, rfl⟩ := run_eq_lexeme hrun hcut hlexeme (by simpa using hsplit) (by omega) hle
      obtain ⟨c, hc⟩ := List.exists_mem_of_ne_nil run hrun.1.1
      obtain ⟨_, value, rfl, hvalue⟩ := hlexeme.digits hc (hrun.1.2 c hc)
      exact ⟨value, by simp, hvalue⟩

/-- A run of digits in the part that was cut is a number of the size of a literal. -/
theorem Cut.run_fits {cut tokens rest before run after} (h : Cut cut tokens rest)
    (hrun : IsRun before run after) (hsplit : before ++ (run ++ after) = cut ++ rest)
    (hle : before.length + run.length ≤ cut.length) : decimal run ≤ INT_MAX := by
  obtain ⟨value, _, hvalue⟩ := h.run_token hrun hsplit hle
  have hmax : value.toInt ≤ Int32.maxValue.toInt := value.toInt_le
  have hbound : Int32.maxValue.toInt = (INT_MAX : Int) := rfl
  omega

/-- A literal among the tokens of a cut is that of a run of digits. -/
theorem Cut.literal_run {cut tokens rest} (h : Cut cut tokens rest) {value : Int32}
    {pos : Position} (ht : ⟨.IntLiteral value, pos⟩ ∈ tokens) :
    ∃ before run after, cut ++ rest = before ++ (run ++ after) ∧ IsRun before run after ∧
      pos = spanOf before run ∧ value.toInt = decimal run := by
  induction h with
  | start => simp at ht
  | space _ _ ih =>
    obtain ⟨before, run, after, hsplit, hrun⟩ := ih ht
    exact ⟨before, run, after, by rw [← hsplit]; simp, hrun⟩
  | @token cut tokens text load rest hcut hlexeme hmax ih =>
    rcases List.mem_append.mp ht with ht | ht
    · obtain ⟨before, run, after, hsplit, hrun⟩ := ih ht
      exact ⟨before, run, after, by rw [← hsplit]; simp, hrun⟩
    · obtain ⟨rfl, rfl⟩ := Token.mk.inj (List.mem_singleton.mp ht)
      obtain ⟨hdigits, hvalue⟩ : Digits text ∧ value.toInt = decimal text := by
        cases hlexeme with
        | number hdigits hvalue => exact ⟨hdigits, hvalue⟩
        | keyword hmem => exact absurd hmem (by simp [keywords])
        | symbol hmem => exact absurd hmem (by simp [symbols])
      refine ⟨cut, text, rest, by simp, ⟨hdigits, fun c hc => ?_, fun c hc => ?_⟩, rfl, hvalue⟩
      · -- a number would go on
        by_contra hdigit
        rw [Bool.not_eq_false] at hdigit
        obtain ⟨d, text, rfl⟩ := List.exists_cons_of_ne_nil hdigits.1
        have hd : isDigit d := hdigits.2 d List.mem_cons_self
        rw [hcut.ends_number hc hdigit rfl] at hd
        cases hd
      · exact (hmax c hc).1 hdigits

/-- A run of digits after a part that splits is cut, when the cut comes to a
character that starts no token. -/
theorem Cut.run_before {cut tokens c rest before run after} (h : Cut cut tokens (c :: rest))
    (hc : StartsNoToken c) (hbefore : SplitsIntoLexemes before) (hrun : IsRun before run after)
    (hsplit : before ++ (run ++ after) = cut ++ c :: rest) :
    before.length + run.length ≤ cut.length := by
  by_contra hlt
  have hin : ∃ r, before ++ run = cut ++ c :: r := by
    rcases List.append_eq_append_iff.mp ((List.append_assoc _ _ _).trans hsplit) with
      ⟨a, rfl, _⟩ | ⟨a, ha, hr⟩
    · simp at hlt
    · cases a with
      | nil =>
        have hlen := congrArg List.length ha
        simp only [List.append_nil, List.length_append] at hlen
        omega
      | cons d a =>
        simp only [List.cons_append, List.cons.injEq] at hr
        exact ⟨a, by rw [ha, ← hr.1]⟩
  obtain ⟨r, hr⟩ := hin
  have hsplits : SplitsIntoLexemes (before ++ run) := hbefore.append (.inr (.inl hrun.1))
  rw [hr] at hsplits
  exact h.not_splits hc hsplits

/-! ## Coordinates of a cut -/

def AtMost (line column line' column' : Nat) : Prop :=
  line < line' ∨ (line = line' ∧ column ≤ column')

theorem lineOf_append_singleton (before : List Char) (c : Char) :
    lineOf (before ++ [c]) = if c = '\n' then lineOf before + 1 else lineOf before := by
  unfold lineOf
  by_cases hc : c = '\n'
  · simp [hc]
  · simp [hc, List.count_append]

theorem columnOf_append_singleton (before : List Char) (c : Char) :
    columnOf (before ++ [c]) = if c = '\n' then 1 else columnOf before + 1 := by
  unfold columnOf
  by_cases hc : c = '\n'
  · simp [hc]
  · simp [hc]

theorem atMost_append (before text : List Char) :
    AtMost (lineOf before) (columnOf before)
      (lineOf (before ++ text)) (columnOf (before ++ text)) := by
  induction text generalizing before with
  | nil => exact .inr ⟨by rw [List.append_nil], Nat.le_of_eq (by rw [List.append_nil])⟩
  | cons c cs ih =>
    have h := ih (before ++ [c])
    rw [List.append_assoc, List.singleton_append, lineOf_append_singleton,
      columnOf_append_singleton] at h
    unfold AtMost at h ⊢
    split at h
    · omega
    · omega

theorem Lexeme.no_newline {text : List Char} {load : TokenVariant} (h : Lexeme text load) :
    ∀ c ∈ text, c ≠ '\n' := by
  rintro c hc rfl
  rcases h.cases with h | h | ⟨symbol, rfl, hsymbol⟩
  · exact absurd (h.2 _ hc) (by decide)
  · exact absurd (h.2 _ hc) (by decide)
  · have hall : ∀ entry ∈ symbols, '\n' ∉ entry.1.toList := by decide
    exact hall (symbol, load) hsymbol hc

/-- A text without a newline is on one line. -/
theorem spanOf_line (before : List Char) {text : List Char} (h : ∀ c ∈ text, c ≠ '\n') :
    lineOf (before ++ text) = lineOf before ∧
      columnOf (before ++ text) = columnOf before + text.length := by
  induction text generalizing before with
  | nil => simp
  | cons c cs ih =>
    obtain ⟨hline, hcolumn⟩ := ih (before ++ [c]) fun d hd => h d (List.mem_cons_of_mem _ hd)
    have hc := h c List.mem_cons_self
    rw [List.append_assoc, List.singleton_append] at hline hcolumn
    rw [lineOf_append_singleton, if_neg hc] at hline
    rw [columnOf_append_singleton, if_neg hc] at hcolumn
    rw [hline, hcolumn, List.length_cons]
    omega

/-- The first token ends before the second begins. -/
def Precedes (t u : Token) : Prop :=
  AtMost t.position.end_line t.position.end_column u.position.begin_line u.position.begin_column

/-- The token is that of a lexeme in the text, and is where the lexeme is. -/
def Delimits (text : List Char) (t : Token) : Prop :=
  ∃ before lexeme after, text = before ++ (lexeme ++ after) ∧ Lexeme lexeme t.load ∧
    t.position = spanOf before lexeme

theorem Delimits.append {text : List Char} {t : Token} (h : Delimits text t) (more : List Char) :
    Delimits (text ++ more) t := by
  obtain ⟨before, lexeme, after, rfl, hlexeme, hposition⟩ := h
  exact ⟨before, lexeme, after ++ more, by simp, hlexeme, hposition⟩

/-- The tokens of a cut are in order, each where its lexeme is. -/
theorem Cut.positions {before rest : List Char} {tokens : List Token} (h : Cut before tokens rest) :
    (∀ t ∈ tokens, Delimits before t) ∧ tokens.Pairwise Precedes ∧
      ∀ t ∈ tokens, AtMost t.position.end_line t.position.end_column (lineOf before)
        (columnOf before) := by
  induction h with
  | start => simp
  | @space before tokens c rest _ _ ih =>
    obtain ⟨hdelimits, hpairwise, hends⟩ := ih
    refine ⟨fun t ht => (hdelimits t ht).append _, hpairwise, fun t ht => ?_⟩
    have h := hends t ht
    have hnext := atMost_append before [c]
    unfold AtMost at h hnext ⊢
    omega
  | @token before tokens text load rest _ hlexeme _ ih =>
    obtain ⟨hdelimits, hpairwise, hends⟩ := ih
    have hnext := atMost_append before text
    refine ⟨fun t ht => ?_, List.pairwise_append.mpr ⟨hpairwise, by simp, fun t ht u hu => ?_⟩,
      fun t ht => ?_⟩
    · rcases List.mem_append.mp ht with ht | ht
      · exact (hdelimits t ht).append _
      · rw [List.mem_singleton.mp ht]
        exact ⟨before, text, [], by simp, hlexeme, rfl⟩
    · rw [List.mem_singleton.mp hu]
      exact hends t ht
    · rcases List.mem_append.mp ht with ht | ht
      · have h := hends t ht
        unfold AtMost at h hnext ⊢
        omega
      · rw [List.mem_singleton.mp ht]
        exact .inr ⟨rfl, Nat.le_refl _⟩

end mf.tokenization
