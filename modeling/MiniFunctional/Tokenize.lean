-- The scanner of `tokenization/tokenize.cpp`. A C++ `char` is one `Char`
-- here, and the classes of `<cctype>` are those of the C locale: a byte above
-- 127 is in none of them.
import MiniFunctional.Token

open mf.util

namespace mf.tokenization

inductive TokenizeError
  | unexpectedCharacter (character : Char) (position : Position)
  /-- A literal does not fit in an `int`: the behaviour is undefined. -/
  | undefinedOverflow
  /-- The model's own bound on the loop was too small. -/
  | outOfFuel
deriving DecidableEq, Repr

def TokenizeError.message : TokenizeError → String
  | .unexpectedCharacter character position =>
    "Unexpected character '" ++ character.toString ++ "' at " ++ position.toText
  | .undefinedOverflow | .outOfFuel => ""

def isLower (character : Char) : Bool := 'a' ≤ character && character ≤ 'z'

def isUpper (character : Char) : Bool := 'A' ≤ character && character ≤ 'Z'

def isAlpha (character : Char) : Bool := isLower character || isUpper character

def isDigit (character : Char) : Bool := '0' ≤ character && character ≤ '9'

def isSpace (character : Char) : Bool :=
  character = ' ' || ('\t' ≤ character && character ≤ '\r')

def kKeywords : List (String × TokenVariant) :=
  [("defn", .Function), ("data", .Data), ("case", .Case), ("of", .Of)]

def singleCharToken : Char → Option TokenVariant
  | '=' => some .Equal
  | '+' => some .Plus
  | '-' => some .Minus
  | '*' => some .Star
  | '/' => some .Slash
  | '\x7b' => some .LeftBrace
  | '\x7d' => some .RightBrace
  | '(' => some .LeftParentheses
  | ')' => some .RightParentheses
  | ',' => some .Comma
  | _ => none

structure Scanner where
  /-- The characters of `[it_, end_)`. -/
  rest : List Char
  tokens : List Token
  pos : Position

/-- What `advance` does to `pos_`. -/
def movePast (pos : Position) (character : Char) : Position :=
  if character = '\n' then { pos with end_line := pos.end_line + 1, end_column := 1 }
  else { pos with end_column := pos.end_column + 1 }

def Scanner.advance (s : Scanner) : Scanner :=
  match s.rest with
  | [] => s
  | character :: rest => { s with rest, pos := movePast s.pos character }

/-- `advance` as long as the next character is in the class. -/
def Scanner.advanceWhile (s : Scanner) (inClass : Char → Bool) : Scanner :=
  { s with
    rest := s.rest.dropWhile inClass
    pos := (s.rest.takeWhile inClass).foldl movePast s.pos }

def Scanner.emit (s : Scanner) (load : TokenVariant) : Scanner :=
  { s with tokens := s.tokens ++ [⟨load, s.pos⟩] }

/-- The load of a word: a keyword, or a variable by the case of its first
letter. -/
def wordLoad (word : List Char) : TokenVariant :=
  match kKeywords.find? (·.1 = String.ofList word) with
  | some (_, token) => token
  | none =>
    if (word.head?.map isLower).getD false then .LowerVariable (String.ofList word)
    else .UpperVariable (String.ofList word)

def scanWord (s : Scanner) : Scanner :=
  (s.advanceWhile isAlpha).emit (wordLoad (s.rest.takeWhile isAlpha))

def INT_MAX : Nat := 0x7FFFFFFF

/-- `value = value * 10 + (advance() - '0')`. -/
def addDigit (value : Nat) (character : Char) : Except TokenizeError Nat :=
  let next := value * 10 + (character.toNat - '0'.toNat)
  if next ≤ INT_MAX then .ok next else .error .undefinedOverflow

def scanNumber (s : Scanner) : Except TokenizeError Scanner := do
  let value ← (s.rest.takeWhile isDigit).foldlM addDigit 0
  return (s.advanceWhile isDigit).emit (.IntLiteral (Int32.ofNat value))

def scanArrow (s : Scanner) : Scanner := s.advance.advance.emit .Arrow

/-- The token starts where the last one ended. -/
def Scanner.beginToken (s : Scanner) : Scanner :=
  { s with pos :=
    { s.pos with begin_line := s.pos.end_line, begin_column := s.pos.end_column } }

@[simp] theorem Scanner.beginToken_rest (s : Scanner) : s.beginToken.rest = s.rest := rfl

@[simp] theorem Scanner.beginToken_tokens (s : Scanner) : s.beginToken.tokens = s.tokens := rfl

def scanToken (s : Scanner) : Except TokenizeError Scanner :=
  let s := s.beginToken
  match s.rest with
  | [] => .ok s
  | character :: rest =>
    if isAlpha character then .ok (scanWord s)
    else if isDigit character then scanNumber s
    else if character = '-' && rest.head? = some '>' then .ok (scanArrow s)
    else
      match singleCharToken character with
      | some token => .ok (s.advance.emit token)
      | none => .error (.unexpectedCharacter character s.pos)

/-- The loop of `scan`; each turn takes a character. -/
def scanLoop : Nat → Scanner → Except TokenizeError (List Token)
  | 0, _ => .error .outOfFuel
  | n + 1, s =>
    match s.rest with
    | [] => .ok s.tokens
    | character :: _ =>
      if isSpace character then scanLoop n s.advance
      else do scanLoop n (← scanToken s)

def scan (chars : List Char) : Except TokenizeError (List Token) :=
  scanLoop (chars.length + 1) ⟨chars, [], ⟨1, 1, 1, 1⟩⟩

/-! ## What the scanner emits -/

def Name (first : Char → Bool) (name : String) : Prop :=
  ∃ c cs, name.toList = c :: cs ∧ first c ∧ cs.all isAlpha

instance (first : Char → Bool) (name : String) : Decidable (Name first name) :=
  decidable_of_iff (name.toList ≠ [] ∧ name.toList.head?.all first ∧ name.toList.tail.all isAlpha)
    (by unfold Name; cases name.toList <;> simp)

/-- `[a-z][a-zA-Z]*`, and no keyword. -/
def LowerName (name : String) : Prop := Name isLower name ∧ name ∉ kKeywords.map (·.1)

/-- `[A-Z][a-zA-Z]*`. -/
def UpperName (name : String) : Prop := Name isUpper name

instance (name : String) : Decidable (LowerName name) :=
  inferInstanceAs (Decidable (Name isLower name ∧ name ∉ kKeywords.map (·.1)))

instance (name : String) : Decidable (UpperName name) :=
  inferInstanceAs (Decidable (Name isUpper name))

/-- The payload of a token is one that its text can have. -/
def TokenVariant.Lexed : TokenVariant → Prop
  | .LowerVariable name => LowerName name
  | .UpperVariable name => UpperName name
  | .IntLiteral value => 0 ≤ value.toInt
  | _ => True

instance : (load : TokenVariant) → Decidable load.Lexed
  | .LowerVariable name => inferInstanceAs (Decidable (LowerName name))
  | .UpperVariable name => inferInstanceAs (Decidable (UpperName name))
  | .IntLiteral value => inferInstanceAs (Decidable (0 ≤ value.toInt))
  | .Function | .Data | .Case | .Of | .Equal | .Arrow | .Plus | .Minus | .Star | .Slash
  | .LeftBrace | .RightBrace | .LeftParentheses | .RightParentheses | .Comma =>
    inferInstanceAs (Decidable True)

theorem wordLoad_lexed {c : Char} {cs : List Char} (hc : isAlpha c) (hcs : cs.all isAlpha) :
    (wordLoad (c :: cs)).Lexed := by
  unfold wordLoad
  split
  · rename_i word token hfind
    have hmem := List.mem_of_find?_eq_some hfind
    simp only [kKeywords, List.mem_cons, Prod.mk.injEq, List.not_mem_nil, or_false] at hmem
    rcases hmem with ⟨_, rfl⟩ | ⟨_, rfl⟩ | ⟨_, rfl⟩ | ⟨_, rfl⟩ <;> trivial
  · rename_i hfind
    have hname : String.ofList (c :: cs) ∉ kKeywords.map (·.1) := by
      intro hmem
      obtain ⟨entry, hentry, heq⟩ := List.mem_map.mp hmem
      have := List.find?_eq_none.mp hfind entry hentry
      simp [heq] at this
    by_cases hlower : isLower c
    · simp only [List.head?_cons, Option.map_some, Option.getD_some, hlower, if_true]
      exact ⟨⟨c, cs, by simp, hlower, hcs⟩, hname⟩
    · simp only [List.head?_cons, Option.map_some, Option.getD_some, hlower]
      refine ⟨c, cs, by simp, ?_, hcs⟩
      simpa [isAlpha, hlower] using hc

theorem addDigit_le {value next : Nat} {c : Char} (h : addDigit value c = .ok next) :
    next ≤ INT_MAX := by
  simp only [addDigit] at h
  split at h
  · cases h
    assumption
  · cases h

theorem foldlM_addDigit_le {digits : List Char} {value result : Nat} (hv : value ≤ INT_MAX)
    (h : digits.foldlM addDigit value = .ok result) : result ≤ INT_MAX := by
  induction digits generalizing value with
  | nil =>
    cases h
    exact hv
  | cons c cs ih =>
    rw [List.foldlM_cons] at h
    cases hc : addDigit value c with
    | ok next =>
      rw [hc] at h
      exact ih (addDigit_le hc) h
    | error e =>
      rw [hc] at h
      cases h

theorem toInt_ofNat {n : Nat} (h : n ≤ INT_MAX) : (Int32.ofNat n).toInt = n :=
  Int32.toInt_ofNat_of_lt (Nat.lt_succ_of_le h)

/-- One token of the scanner: it takes at least a character and emits one
token, whose payload its text can have. -/
theorem scanToken_emits {s s' : Scanner} {c : Char} {cs : List Char} (hs : s.rest = c :: cs)
    (h : scanToken s = .ok s') : s'.rest.length ≤ cs.length ∧
      ∃ load pos, s'.tokens = s.tokens ++ [⟨load, pos⟩] ∧ load.Lexed := by
  unfold scanToken at h
  simp only [Scanner.beginToken_rest, hs] at h
  split at h
  · rename_i halpha
    cases h
    refine ⟨?_, _, _, rfl, ?_⟩
    · simp only [scanWord, Scanner.emit, Scanner.advanceWhile, Scanner.beginToken_rest, hs,
        List.dropWhile_cons, halpha, if_true]
      exact (List.dropWhile_sublist _).length_le
    · simp only [Scanner.beginToken_rest, hs, List.takeWhile_cons, halpha, if_true]
      exact wordLoad_lexed halpha (by simp)
  · split at h
    · rename_i hdigit
      unfold scanNumber at h
      simp only [Scanner.beginToken_rest, hs] at h
      cases hv : (List.takeWhile isDigit (c :: cs)).foldlM addDigit 0 with
      | error e =>
        rw [hv] at h
        cases h
      | ok value =>
        rw [hv] at h
        cases h
        refine ⟨?_, _, _, rfl, ?_⟩
        · simp only [Scanner.emit, Scanner.advanceWhile, Scanner.beginToken_rest, hs,
            List.dropWhile_cons, hdigit, if_true]
          exact (List.dropWhile_sublist _).length_le
        · simp only [TokenVariant.Lexed, toInt_ofNat (foldlM_addDigit_le (Nat.zero_le _) hv)]
          omega
    · split at h
      · cases h
        simp only [scanArrow, Scanner.emit, Scanner.advance, Scanner.beginToken_rest, hs]
        cases cs with
        | nil => exact ⟨by simp, .Arrow, _, rfl, trivial⟩
        | cons d ds => exact ⟨by simp, .Arrow, _, rfl, trivial⟩
      · split at h
        · rename_i token htoken
          cases h
          simp only [Scanner.emit, Scanner.advance, Scanner.beginToken_rest, hs]
          refine ⟨Nat.le_refl _, _, _, rfl, ?_⟩
          unfold singleCharToken at htoken
          split at htoken <;> cases htoken <;> trivial
        · cases h

/-- The tokens of a run are no more than the characters, and each has a
payload that its text can have. -/
theorem scanLoop_emits {n : Nat} {s : Scanner} {tokens : List Token}
    (h : scanLoop n s = .ok tokens) : ∃ new, tokens = s.tokens ++ new ∧
      new.length ≤ s.rest.length ∧ ∀ t ∈ new, t.load.Lexed := by
  induction n generalizing s with
  | zero => cases h
  | succ n ih =>
    unfold scanLoop at h
    split at h
    · cases h
      exact ⟨[], by simp⟩
    · rename_i c cs hs
      split at h
      · obtain ⟨new, htokens, hlen, hnew⟩ := ih h
        have hadvance : s.advance.rest = cs ∧ s.advance.tokens = s.tokens := by
          simp [Scanner.advance, hs]
        rw [hadvance.2] at htokens
        rw [hadvance.1] at hlen
        exact ⟨new, htokens, by rw [hs, List.length_cons]; omega, hnew⟩
      · cases hscan : scanToken s with
        | error e =>
          rw [hscan] at h
          cases h
        | ok s' =>
          rw [hscan] at h
          obtain ⟨hshort, load, pos, hemit, hload⟩ := scanToken_emits hs hscan
          obtain ⟨new, htokens, hlen, hnew⟩ := ih h
          refine ⟨⟨load, pos⟩ :: new, ?_, ?_, ?_⟩
          · rw [htokens, hemit, List.append_assoc, List.singleton_append]
          · rw [hs, List.length_cons, List.length_cons]
            omega
          · intro t ht
            rcases List.mem_cons.mp ht with rfl | ht
            · exact hload
            · exact hnew t ht

theorem scan_length {chars : List Char} {tokens : List Token} (h : scan chars = .ok tokens) :
    tokens.length ≤ chars.length := by
  obtain ⟨new, htokens, hlen, _⟩ := scanLoop_emits h
  simp only [List.nil_append] at htokens
  rw [htokens]
  exact hlen

/-- A `std::string_view`. Its tokens fit in a vector: for a longer text the calls
of `push_back` have no result. -/
structure Source where
  chars : List Char
  fits : chars.length ≤ 0x7FFFFFFFFFFFFFFF
  tokensFit : ∀ tokens, scan chars = .ok tokens → tokens.length ≤ maxTokens

/-- A text with no more characters than a vector holds tokens. -/
def Source.ofShort (chars : List Char) (h : chars.length ≤ maxTokens) : Source where
  chars := chars
  fits := Nat.le_trans h (by decide)
  tokensFit _ hscan := Nat.le_trans (scan_length hscan) h

def tokenize (source : Source) : Except TokenizeError TokenVector :=
  match h : scan source.chars with
  | .ok tokens => .ok ⟨tokens, source.tokensFit tokens h⟩
  | .error e => .error e

/-- Token lists as the scanner makes them (`tokenize_lexed`); the parser is called
on no others. -/
def TokenVector.Lexed (tokens : TokenVector) : Prop := ∀ t ∈ tokens.tokens, t.load.Lexed

instance (tokens : TokenVector) : Decidable tokens.Lexed :=
  inferInstanceAs (Decidable (∀ t ∈ tokens.tokens, t.load.Lexed))

theorem tokenize_eq_ok {source : Source} {tokens : TokenVector} :
    tokenize source = .ok tokens ↔ scan source.chars = .ok tokens.tokens := by
  obtain ⟨tokens, hfits⟩ := tokens
  unfold tokenize
  split
  · rename_i ts h
    simp [h]
  · rename_i e h
    simp [h]

theorem tokenize_lexed {source : Source} {tokens : TokenVector}
    (h : tokenize source = .ok tokens) : tokens.Lexed := by
  obtain ⟨new, htokens, _, hnew⟩ := scanLoop_emits (tokenize_eq_ok.mp h)
  simp only [List.nil_append] at htokens
  unfold TokenVector.Lexed
  rw [htokens]
  exact hnew

end mf.tokenization
