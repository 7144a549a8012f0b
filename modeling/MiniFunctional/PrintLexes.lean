-- The scanner on the texts that the printer puts together: names, numbers,
-- and the fixed texts between them.
import MiniFunctional.Tokenize
import MiniFunctional.Print

open mf.util mf.ast

namespace mf.tokenization

/-- Before `tail`, the scanner reads `text` as tokens with the loads `ls`. -/
def Lexes (text : String) (ls : List TokenVariant) (tail : String) : Prop :=
  ∀ n s, s.rest = text.toList ++ tail.toList → s.rest.length < n →
    ∃ m s', scanLoop n s = scanLoop m s' ∧ s'.rest = tail.toList ∧ s'.rest.length < m ∧
      loads s'.tokens = loads s.tokens ++ ls

theorem Lexes.empty (tail : String) : Lexes "" [] tail := by
  intro n s hs hn
  exact ⟨n, s, rfl, by simpa using hs, hn, by simp⟩

theorem Lexes.append {a b tail : String} {la lb : List TokenVariant}
    (ha : Lexes a la (b ++ tail)) (hb : Lexes b lb tail) : Lexes (a ++ b) (la ++ lb) tail := by
  intro n s hs hn
  obtain ⟨n1, s1, h1, hrest1, hn1, ht1⟩ := ha n s (by simpa using hs) hn
  obtain ⟨n2, s2, h2, hrest2, hn2, ht2⟩ := hb n1 s1 (by simpa using hrest1) hn1
  refine ⟨n2, s2, h1.trans h2, hrest2, hn2, ?_⟩
  rw [ht2, ht1, List.append_assoc]

/-! ## Classes of characters -/

theorem char_le (a c : Char) : a ≤ c ↔ a.toNat ≤ c.toNat := Iff.rfl

theorem isAlpha_iff {c : Char} : isAlpha c ↔
    97 ≤ c.toNat ∧ c.toNat ≤ 122 ∨ 65 ≤ c.toNat ∧ c.toNat ≤ 90 := by
  simp [isAlpha, isLower, isUpper, char_le]

theorem isDigit_iff {c : Char} : isDigit c ↔ 48 ≤ c.toNat ∧ c.toNat ≤ 57 := by
  simp [isDigit, char_le]

theorem not_isSpace {c : Char} (h : 32 < c.toNat) : isSpace c = false := by
  by_contra hs
  simp only [isSpace, Bool.or_eq_true, Bool.and_eq_true, decide_eq_true_eq, char_le,
    Bool.not_eq_false] at hs
  rcases hs with rfl | hs
  · revert h
    decide
  · have hr : ('\r').toNat = 13 := rfl
    omega

/-! ## One turn of the loop -/

theorem lexes_of_space {text : String} {c : Char} (htext : text.toList = [c]) (hc : isSpace c)
    (tail : String) : Lexes text [] tail := by
  intro n s hs hn
  simp only [htext, List.singleton_append] at hs
  rw [hs, List.length_cons] at hn
  obtain ⟨n, rfl⟩ : ∃ k, n = k + 1 := ⟨n - 1, by omega⟩
  have hadvance : s.advance.rest = tail.toList ∧ s.advance.tokens = s.tokens := by
    simp [Scanner.advance, hs]
  refine ⟨n, s.advance, ?_, hadvance.1, ?_, ?_⟩
  · rw [scanLoop]
    simp only [hs, hc, if_true]
  · rw [hadvance.1]
    omega
  · rw [hadvance.2, List.append_nil]

/-- A text that is read as one token. -/
theorem lexes_of_token {text : String} {c : Char} {cs : List Char} {load : TokenVariant}
    {tail : String} (htext : text.toList = c :: cs) (hspace : isSpace c = false)
    (h : ∀ s, s.rest = c :: (cs ++ tail.toList) → ∃ s', scanToken s = .ok s' ∧
      s'.rest = tail.toList ∧ loads s'.tokens = loads s.tokens ++ [load]) :
    Lexes text [load] tail := by
  intro n s hs hn
  rw [htext, List.cons_append] at hs
  rw [hs, List.length_cons, List.length_append] at hn
  obtain ⟨n, rfl⟩ : ∃ k, n = k + 1 := ⟨n - 1, by omega⟩
  obtain ⟨s', hscan, hrest, htokens⟩ := h s hs
  refine ⟨n, s', ?_, hrest, ?_, htokens⟩
  · rw [scanLoop]
    simp only [hs, hspace, hscan]
    rfl
  · rw [hrest]
    omega

/-- The text goes on with no letter and no digit. -/
def EndsWord (tail : String) : Prop := ∀ c ∈ tail.toList.head?, !isAlpha c && !isDigit c

theorem takeWhile_append_of_all {inClass : Char → Bool} {word : List Char}
    (hword : word.all inClass) (tail : List Char) (htail : ∀ c ∈ tail.head?, inClass c = false) :
    (word ++ tail).takeWhile inClass = word ∧ (word ++ tail).dropWhile inClass = tail := by
  have hnone : tail.takeWhile inClass = [] ∧ tail.dropWhile inClass = tail := by
    cases tail with
    | nil => simp
    | cons c cs => simp [htail c (by simp)]
  rw [List.all_eq_true] at hword
  rw [List.takeWhile_append_of_pos hword, List.dropWhile_append_of_pos hword, hnone.1, hnone.2]
  simp

theorem lexes_word {text tail : String} {c : Char} {cs : List Char} (htext : text.toList = c :: cs)
    (hword : (c :: cs).all isAlpha) (htail : EndsWord tail) :
    Lexes text [wordLoad (c :: cs)] tail := by
  have hc : isAlpha c := by
    rw [List.all_cons, Bool.and_eq_true] at hword
    exact hword.1
  refine lexes_of_token htext ?_ fun s hs => ?_
  · have := isAlpha_iff.mp hc
    exact not_isSpace (by omega)
  · have hsplit := takeWhile_append_of_all hword tail.toList fun d hd => by
      have := htail d hd
      simp_all
    rw [List.cons_append] at hsplit
    refine ⟨scanWord s.beginToken, ?_, ?_, ?_⟩
    · unfold scanToken
      simp only [Scanner.beginToken_rest, hs, hc, if_true]
    · simp only [scanWord, Scanner.emit, Scanner.advanceWhile, Scanner.beginToken_rest, hs,
        hsplit.2]
    · simp [scanWord, Scanner.emit, Scanner.advanceWhile, hs, hsplit.1]

/-! ## Names -/

theorem LowerName.lexes {name tail : String} (h : LowerName name) (htail : EndsWord tail) :
    Lexes name [.LowerVariable name] tail := by
  obtain ⟨⟨c, cs, hname, hc, hcs⟩, hkeyword⟩ := h
  have hload : wordLoad (c :: cs) = .LowerVariable name := by
    have hof : String.ofList (c :: cs) = name := by rw [← hname, String.ofList_toList]
    have hfind : kKeywords.find? (·.1 = name) = none := by
      rw [List.find?_eq_none]
      intro entry hentry heq
      exact hkeyword (List.mem_map.mpr ⟨entry, hentry, by simpa using heq⟩)
    unfold wordLoad
    simp only [hof, hfind, List.head?_cons, Option.map_some, Option.getD_some, hc, if_true]
  rw [← hload]
  refine lexes_word hname ?_ htail
  rw [List.all_cons, hcs]
  simp [isAlpha, hc]

theorem UpperName.lexes {name tail : String} (h : UpperName name) (htail : EndsWord tail) :
    Lexes name [.UpperVariable name] tail := by
  obtain ⟨c, cs, hname, hc, hcs⟩ := h
  have hlower : isLower c = false := by
    by_contra hl
    simp only [isUpper, isLower, Bool.and_eq_true, decide_eq_true_eq, char_le,
      Bool.not_eq_false] at hc hl
    have hz : ('Z').toNat = 90 := rfl
    have ha : ('a').toNat = 97 := rfl
    omega
  have hload : wordLoad (c :: cs) = .UpperVariable name := by
    have hof : String.ofList (c :: cs) = name := by rw [← hname, String.ofList_toList]
    have hfind : kKeywords.find? (·.1 = name) = none := by
      rw [List.find?_eq_none]
      intro entry hentry heq
      simp only [decide_eq_true_eq] at heq
      rw [← heq] at hname
      simp only [kKeywords, List.mem_cons, List.not_mem_nil, or_false] at hentry
      -- every keyword starts with a lower case letter
      rcases hentry with rfl | rfl | rfl | rfl <;>
      · simp only [String.toList] at hname
        have := (List.cons.inj hname).1
        subst this
        revert hlower
        decide
    unfold wordLoad
    simp only [hof, hfind, List.head?_cons, Option.map_some, Option.getD_some, hlower]
    rfl
  rw [← hload]
  refine lexes_word hname ?_ htail
  rw [List.all_cons, hcs]
  simp [isAlpha, hc]

/-! ## Numbers -/

theorem foldlM_addDigit {digits : List Char} {value : Nat}
    (h : Nat.ofDigitChars 10 digits value ≤ INT_MAX) :
    digits.foldlM addDigit value = .ok (Nat.ofDigitChars 10 digits value) := by
  induction digits generalizing value with
  | nil => rfl
  | cons c cs ih =>
    rw [Nat.ofDigitChars_cons] at h ⊢
    have hstep : addDigit value c = .ok (10 * value + (c.toNat - '0'.toNat)) := by
      -- a digit never lowers the value
      have hle : Nat.ofDigitChars 10 cs (10 * value + (c.toNat - '0'.toNat)) =
          10 ^ cs.length * (10 * value + (c.toNat - '0'.toNat)) + Nat.ofDigitChars 10 cs 0 :=
        Nat.ofDigitChars_eq_ofDigitChars_zero
      have hpow : 1 ≤ 10 ^ cs.length := Nat.one_le_pow _ _ (by decide)
      have hmul := Nat.mul_le_mul_right (10 * value + (c.toNat - '0'.toNat)) hpow
      simp only [addDigit]
      rw [if_pos (by omega), Nat.mul_comm value 10]
    rw [List.foldlM_cons, hstep]
    exact ih h

theorem lexes_number {value : Int32} (h : 0 ≤ value.toInt) {tail : String} (htail : EndsWord tail) :
    Lexes (toString value) [.IntLiteral value] tail := by
  obtain ⟨n, hn⟩ : ∃ n : Nat, value.toInt = n := ⟨value.toInt.toNat, by omega⟩
  have hlt : n ≤ INT_MAX := by
    have := value.toInt_lt
    unfold INT_MAX
    omega
  have htext : (toString value).toList = Nat.toDigits 10 n := by
    have hstr : toString value = toString value.toInt := rfl
    rw [hstr, hn]
    exact Nat.toList_repr
  have hvalue : Int32.ofNat n = value := by
    apply Int32.toInt_inj.mp
    rw [toInt_ofNat hlt, hn]
  have hdigits : (Nat.toDigits 10 n).all isDigit := by
    rw [List.all_eq_true]
    intro c hc
    have := Nat.isDigit_of_mem_toDigits (by decide) (by decide) hc
    simp only [Char.isDigit, ge_iff_le, Bool.and_eq_true, decide_eq_true_eq] at this
    exact isDigit_iff.mpr this
  obtain ⟨c, cs, hcs⟩ : ∃ c cs, Nat.toDigits 10 n = c :: cs :=
    List.exists_cons_of_ne_nil Nat.toDigits_ne_nil
  have hc : isDigit c := by
    rw [hcs, List.all_cons, Bool.and_eq_true] at hdigits
    exact hdigits.1
  have hrange := isDigit_iff.mp hc
  refine lexes_of_token (htext.trans hcs) (not_isSpace (by omega)) fun s hs => ?_
  have halpha : isAlpha c = false := by
    by_contra ha
    have := isAlpha_iff.mp (Bool.not_eq_false _ ▸ ha)
    omega
  have hsplit := takeWhile_append_of_all hdigits tail.toList fun d hd => by
    have := htail d hd
    simp_all
  rw [hcs, List.cons_append] at hsplit
  have hfold : (c :: cs).foldlM addDigit 0 = .ok n := by
    have hvalue0 : Nat.ofDigitChars 10 (c :: cs) 0 = n := by
      rw [← hcs]
      exact Nat.ofDigitChars_ten_toDigits
    rw [foldlM_addDigit (by rw [hvalue0]; exact hlt), hvalue0]
  refine ⟨(s.beginToken.advanceWhile isDigit).emit (.IntLiteral value), ?_, ?_, ?_⟩
  · unfold scanToken
    simp only [Scanner.beginToken_rest, hs, halpha, hc, if_true]
    unfold scanNumber
    simp only [Scanner.beginToken_rest, hs, hsplit.1, hfold, ← hvalue]
    rfl
  · simp only [Scanner.emit, Scanner.advanceWhile, Scanner.beginToken_rest, hs, hsplit.2]
  · simp [Scanner.emit, Scanner.advanceWhile]

/-! ## Fixed texts -/

theorem lexes_single {text : String} {c : Char} {load : TokenVariant} (htext : text.toList = [c])
    (hload : singleCharToken c = some load) {tail : String}
    (harrow : c = '-' → tail.toList.head? ≠ some '>') : Lexes text [load] tail := by
  have hclass : isSpace c = false ∧ isAlpha c = false ∧ isDigit c = false := by
    unfold singleCharToken at hload
    split at hload <;> cases hload <;> decide
  refine lexes_of_token htext hclass.1 fun s hs => ?_
  simp only [List.nil_append] at hs
  have hnot : (c = '-' && tail.toList.head? = some '>') = false := by
    simpa using harrow
  refine ⟨s.beginToken.advance.emit load, ?_, ?_, ?_⟩
  · unfold scanToken
    simp only [Scanner.beginToken_rest, hs, hclass, hnot, hload]
    rfl
  · simp only [Scanner.emit, Scanner.advance, Scanner.beginToken_rest, hs]
  · simp [Scanner.emit, Scanner.advance, hs]

theorem lexes_arrow (tail : String) : Lexes "->" [.Arrow] tail := by
  have htext : "->".toList = '-' :: ['>'] := rfl
  refine lexes_of_token htext rfl fun s hs => ?_
  simp only [List.singleton_append] at hs
  refine ⟨scanArrow s.beginToken, ?_, ?_, ?_⟩
  · unfold scanToken
    simp only [Scanner.beginToken_rest, hs]
    rfl
  · simp only [scanArrow, Scanner.emit, Scanner.advance, Scanner.beginToken_rest, hs]
  · simp [scanArrow, Scanner.emit, Scanner.advance, hs]

theorem lexes_keyword {text : String} {c : Char} {cs : List Char} {load : TokenVariant}
    (htext : text.toList = c :: cs) (hword : (c :: cs).all isAlpha)
    (hload : wordLoad (c :: cs) = load) {tail : String} (htail : EndsWord tail) :
    Lexes text [load] tail := by
  rw [← hload]
  exact lexes_word htext hword htail

theorem lexes_space (tail : String) : Lexes " " [] tail := lexes_of_space rfl rfl tail

theorem lexes_newline (tail : String) : Lexes "\n" [] tail := lexes_of_space rfl rfl tail

theorem lexes_leftParentheses (tail : String) : Lexes "(" [.LeftParentheses] tail :=
  lexes_single (c := '(') rfl rfl (by simp)

theorem lexes_rightParentheses (tail : String) : Lexes ")" [.RightParentheses] tail :=
  lexes_single (c := ')') rfl rfl (by simp)

theorem lexes_leftBrace (tail : String) : Lexes "\x7b" [.LeftBrace] tail :=
  lexes_single (c := '\x7b') rfl rfl (by simp)

theorem lexes_rightBrace (tail : String) : Lexes "\x7d" [.RightBrace] tail :=
  lexes_single (c := '\x7d') rfl rfl (by simp)

theorem lexes_equal (tail : String) : Lexes "=" [.Equal] tail :=
  lexes_single (c := '=') rfl rfl (by simp)

theorem lexes_comma (tail : String) : Lexes ", " [.Comma] tail :=
  Lexes.append (a := ",") (lexes_single (c := ',') rfl rfl (by simp)) (lexes_space tail)

theorem EndsWord.of_toList {tail : String} {c : Char} {cs : List Char}
    (h : tail.toList = c :: cs) (hc : !isAlpha c && !isDigit c) : EndsWord tail := by
  intro d hd
  rw [h] at hd
  cases hd
  exact hc

@[simp] theorem endsWord_space (rest : String) : EndsWord (" " ++ rest) :=
  EndsWord.of_toList (by rw [String.toList_append]; rfl) rfl

@[simp] theorem endsWord_rightParentheses (rest : String) : EndsWord (")" ++ rest) :=
  EndsWord.of_toList (by rw [String.toList_append]; rfl) rfl

def operatorToken : BinaryOperatorKind → TokenVariant
  | .Addition => .Plus
  | .Subtraction => .Minus
  | .Multiplication => .Star
  | .Division => .Slash

theorem lexes_operator (kind : BinaryOperatorKind) (rest : String) :
    Lexes (symbolOf kind) [operatorToken kind] (" " ++ rest) := by
  have hspace : (" " ++ rest).toList.head? ≠ some '>' := by
    rw [String.toList_append]
    intro h
    cases h
  cases kind with
  | Addition => exact lexes_single rfl rfl fun _ => hspace
  | Subtraction => exact lexes_single rfl rfl fun _ => hspace
  | Multiplication => exact lexes_single rfl rfl fun _ => hspace
  | Division => exact lexes_single rfl rfl fun _ => hspace

theorem name_ne_empty {first : Char → Bool} {name : String} (h : Name first name) : name ≠ "" := by
  obtain ⟨c, cs, hname, _⟩ := h
  rintro rfl
  cases hname

/-! ## The texts around an expression -/

theorem lexes_caseText (rest : String) : Lexes "case " [.Case] rest :=
  Lexes.append (a := "case") (lexes_keyword (c := 'c') rfl rfl (by decide) (by simp))
    (lexes_space rest)

theorem lexes_ofText (rest : String) : Lexes " of \x7b " [.Of, .LeftBrace] rest := by
  have hof : Lexes "of" [.Of] (" " ++ ("\x7b" ++ (" " ++ rest))) :=
    lexes_keyword (c := 'o') rfl rfl (by decide) (by simp)
  exact ((((lexes_space _).append hof).append (lexes_space _)).append (lexes_leftBrace _)).append
    (lexes_space rest)

theorem lexes_arrowText (rest : String) : Lexes " -> \x7b " [.Arrow, .LeftBrace] rest :=
  ((((lexes_space _).append (lexes_arrow _)).append (lexes_space _)).append
    (lexes_leftBrace _)).append (lexes_space rest)

theorem lexes_equalText (rest : String) : Lexes " = \x7b " [.Equal, .LeftBrace] rest :=
  ((((lexes_space _).append (lexes_equal _)).append (lexes_space _)).append
    (lexes_leftBrace _)).append (lexes_space rest)

theorem lexes_closeText (rest : String) : Lexes " \x7d" [.RightBrace] rest :=
  (lexes_space _).append (lexes_rightBrace rest)

theorem lexes_defnText (rest : String) : Lexes "defn " [.Function] rest :=
  Lexes.append (a := "defn") (lexes_keyword (c := 'd') rfl rfl (by decide) (by simp))
    (lexes_space rest)

theorem lexes_dataText (rest : String) : Lexes "data " [.Data] rest :=
  Lexes.append (a := "data") (lexes_keyword (c := 'd') rfl rfl (by decide) (by simp))
    (lexes_space rest)

@[simp] theorem endsWord_arrowText (rest : String) : EndsWord (" -> \x7b " ++ rest) :=
  endsWord_space ("-> \x7b " ++ rest)

@[simp] theorem endsWord_equalText (rest : String) : EndsWord (" = \x7b " ++ rest) :=
  endsWord_space ("= \x7b " ++ rest)

@[simp] theorem endsWord_closeText (rest : String) : EndsWord (" \x7d" ++ rest) :=
  endsWord_space ("\x7d" ++ rest)

@[simp] theorem endsWord_comma (rest : String) : EndsWord (", " ++ rest) :=
  EndsWord.of_toList (by rw [String.toList_append]; rfl) rfl

@[simp] theorem endsWord_ofText (rest : String) : EndsWord (" of \x7b " ++ rest) :=
  endsWord_space ("of \x7b " ++ rest)

end mf.tokenization
