-- The printed text of a program is read back as the program: the scanner
-- reads it as the tokens of a derivation that denotes the program.
import MiniFunctional.PrintLexes
import MiniFunctional.Writable

open mf.util mf.ast mf.tokenization mf.grammar mf.visitors

namespace mf.visitors

/-! ## Lists of names -/

theorem separated_cons (separator text : String) (texts : List String) :
    separated separator (text :: texts) = separator ++ text ++ separated separator texts := rfl

theorem lexes_names (load : String → TokenVariant) {names : List String}
    (h : ∀ name ∈ names, ∀ tail, EndsWord tail → Lexes name [load name] tail) (tail : String)
    (htail : EndsWord tail) : Lexes (separated " " names) (names.map load) tail ∧
      EndsWord (separated " " names ++ tail) := by
  induction names with
  | nil => exact ⟨Lexes.empty tail, by simpa [separated] using htail⟩
  | cons name names ih =>
    obtain ⟨hrest, hends⟩ := ih fun n hn => h n (List.mem_cons_of_mem name hn)
    have hname := h name (by simp) _ hends
    rw [separated_cons]
    refine ⟨((lexes_space _).append hname).append hrest, ?_⟩
    rw [String.append_assoc, String.append_assoc]
    exact endsWord_space _

/-- Names that are not empty: a space before each. -/
theorem joinFormatted_names {names : List String} (h : ∀ a ∈ names, a ≠ "") :
    let tail := joinFormatted names " " asString
    (if tail.isEmpty then tail else " " ++ tail) = separated " " names := by
  cases names with
  | nil => rfl
  | cons a as =>
    have ha : a ≠ "" := h a (by simp)
    have has : as.map asString = as := List.map_id as
    simp only []
    rw [joinFormatted_cons (by exact ha), has]
    simp [asString, ha, separated_cons, String.append_assoc]

theorem printHeadWithArguments_eq {head : String} {args : List String} (h : ∀ a ∈ args, a ≠ "") :
    printHeadWithArguments head args = head ++ separated " " args := by
  rw [printHeadWithArguments, ← joinFormatted_names h]
  by_cases htail : (joinFormatted args " " asString).isEmpty
  · simp_all
  · simp [htail, String.append_assoc]

theorem reads_pattern {p : Pattern} (h : p.Writable) : ∃ d : Tree .Pattern,
    d.denote = p.withoutIds ∧ ∀ tail, EndsWord tail → Lexes (printPattern p) d.yield tail := by
  cases p with
  | VariablePattern id name =>
    exact ⟨.variablePattern name, rfl, fun tail htail => LowerName.lexes h htail⟩
  | ConstructorPattern id name arguments =>
    obtain ⟨hname, harguments⟩ := h
    refine ⟨.constructorPattern name arguments, rfl, fun tail htail => ?_⟩
    have hargs := lexes_names .LowerVariable
      (fun a ha t ht => (harguments a ha).lexes ht) tail htail
    rw [printPattern, printHeadWithArguments_eq fun a ha => name_ne_empty (harguments a ha).1]
    exact (hname.lexes hargs.2).append hargs.1

/-! ## Expressions -/

def toFactor (p : Tree .Primary) : Tree .Factor := .factor (.application p .argumentsEnd)

def toTerm (f : Tree .Factor) : Tree .Term := .term f .productsEnd

def toExpression (t : Tree .Term) : Tree .Expression := .expression t .sumsEnd

def primaryExpression (p : Tree .Primary) : Tree .Expression := toExpression (toTerm (toFactor p))

@[simp] theorem primaryExpression_yield (p : Tree .Primary) :
    (primaryExpression p).yield = p.yield := by
  simp [primaryExpression, toExpression, toTerm, toFactor]

@[simp] theorem primaryExpression_denote (p : Tree .Primary) :
    (primaryExpression p).denote = p.denote := rfl

def applicationTree (f a : Tree .Primary) : Tree .Expression :=
  toExpression (toTerm (.factor (.application f (.nextArgument a .argumentsEnd))))

def operatorTree : BinaryOperatorKind → Tree .Primary → Tree .Primary → Tree .Expression
  | .Addition, l, r =>
    .expression (toTerm (toFactor l)) (.nextSum .Plus (toTerm (toFactor r)) .sumsEnd)
  | .Subtraction, l, r =>
    .expression (toTerm (toFactor l)) (.nextSum .Minus (toTerm (toFactor r)) .sumsEnd)
  | .Multiplication, l, r =>
    toExpression (.term (toFactor l) (.nextProduct .Star (toFactor r) .productsEnd))
  | .Division, l, r =>
    toExpression (.term (toFactor l) (.nextProduct .Slash (toFactor r) .productsEnd))

theorem operatorTree_yield (kind : BinaryOperatorKind) (l r : Tree .Primary) :
    (operatorTree kind l r).yield = l.yield ++ operatorToken kind :: r.yield := by
  cases kind <;>
    simp [operatorTree, toExpression, toTerm, toFactor, operatorToken, SumOperator.token,
      ProductOperator.token]

theorem operatorTree_denote (kind : BinaryOperatorKind) (l r : Tree .Primary) :
    (operatorTree kind l r).denote = .BinaryOperator kind 0 l.denote r.denote := by
  cases kind <;> rfl

/-- The printed text of an expression is read as the tokens of a primary that
denotes the expression. -/
def Reads (e : Expression) : Prop :=
  ∃ d : Tree .Primary, d.denote = e.withoutIds ∧
    ∀ tail, EndsWord tail → Lexes (printExpression e) d.yield tail

theorem reads_branch {b : Branch} (hp : b.pattern.Writable) (hb : Reads b.body) :
    ∃ d : Tree .Branch, d.denote = b.withoutIds ∧ ∀ tail, Lexes (printBranch b) d.yield tail := by
  obtain ⟨body, hbody, hlexes⟩ := hb
  obtain ⟨pattern, hpattern, hplexes⟩ := reads_pattern hp
  refine ⟨.branch pattern (primaryExpression body), ?_, fun tail => ?_⟩
  · simp only [Tree.denote, primaryExpression_denote, hpattern, hbody]
    rfl
  · have h := (((hplexes _ (by simp)).append (lexes_arrowText _)).append
      (hlexes _ (by simp))).append (lexes_closeText tail)
    simpa [printBranch, String.append_assoc] using h

theorem reads_branches {bs : List Branch}
    (h : ∀ b ∈ bs, b.pattern.Writable ∧ Reads b.body) : ∃ d : Tree .Branches,
      d.denote = bs.map Branch.withoutIds ∧
      ∀ tail, Lexes (separated " " (bs.map printBranch)) d.yield tail := by
  induction bs with
  | nil => exact ⟨.branchesEnd, rfl, Lexes.empty⟩
  | cons b bs ih =>
    obtain ⟨hp, hb⟩ := h b (by simp)
    obtain ⟨first, hfirst, hflexes⟩ := reads_branch hp hb
    obtain ⟨rest, hrest, hrlexes⟩ := ih fun b' hb' => h b' (List.mem_cons_of_mem b hb')
    refine ⟨.nextBranch first rest, ?_, fun tail => ?_⟩
    · simp only [Tree.denote, hfirst, hrest, List.map_cons]
    · rw [List.map_cons, separated_cons]
      exact ((lexes_space _).append (hflexes _)).append (hrlexes tail)

/-- A tree in parentheses. -/
theorem reads_parenthesized {e : Expression} {d : Tree .Expression} (text : String)
    (hd : d.denote = e.withoutIds) (htext : printExpression e = "(" ++ text ++ ")")
    (hlexes : ∀ tail, Lexes text d.yield (")" ++ tail)) : Reads e := by
  refine ⟨.parenthesized d, hd, fun tail _ => ?_⟩
  rw [htext]
  have h := ((lexes_leftParentheses _).append (hlexes tail)).append (lexes_rightParentheses tail)
  simpa using h

theorem reads_expression {e : Expression} (h : e.Writable) : Reads e := by
  induction e with
  | IntLiteral id value => exact ⟨.num value, rfl, fun tail htail => lexes_number h htail⟩
  | Variable id name =>
    rcases h with h | h
    · exact ⟨.lowerVariable name, rfl, fun tail htail => h.lexes htail⟩
    · exact ⟨.upperVariable name, rfl, fun tail htail => h.lexes htail⟩
  | BinaryOperator kind id l r ihl ihr =>
    obtain ⟨left, hl, hllexes⟩ := ihl h.1
    obtain ⟨right, hr, hrlexes⟩ := ihr h.2
    refine reads_parenthesized (d := operatorTree kind left right)
      (printExpression l ++ " " ++ symbolOf kind ++ " " ++ printExpression r) ?_ ?_ ?_
    · rw [operatorTree_denote, hl, hr]
      rfl
    · simp [printExpression, String.append_assoc]
    · intro tail
      have h := ((((hllexes _ (by simp)).append (lexes_space _)).append
        (lexes_operator kind _)).append (lexes_space _)).append (hrlexes (")" ++ tail) (by simp))
      simpa [operatorTree_yield] using h
  | Application id f a ihf iha =>
    obtain ⟨function, hf, hflexes⟩ := ihf h.1
    obtain ⟨argument, ha, halexes⟩ := iha h.2
    refine reads_parenthesized (d := applicationTree function argument)
      (printExpression f ++ " " ++ printExpression a) ?_ ?_ ?_
    · simp only [applicationTree, toExpression, toTerm, Tree.denote, hf, ha]
      rfl
    · simp [printExpression, String.append_assoc]
    · intro tail
      have h := ((hflexes _ (by simp)).append (lexes_space _)).append
        (halexes (")" ++ tail) (by simp))
      simpa [applicationTree, toExpression, toTerm] using h
  | CaseExpression id s bs ihs ihbs =>
    obtain ⟨hs, hne, hbs⟩ := h
    obtain ⟨scrutinee, hscrutinee, hslexes⟩ := ihs hs
    rw [writableBranches_iff] at hbs
    cases bs with
    | nil => exact absurd rfl hne
    | cons b bs =>
      have hb := hbs b (by simp)
      obtain ⟨first, hfirst, hflexes⟩ := reads_branch hb.1 (ihbs b (by simp) hb.2)
      have hmem : ∀ b' ∈ bs, b'.pattern.Writable ∧ Reads b'.body := by
        intro b' hb'
        have hin := List.mem_cons_of_mem b hb'
        exact ⟨(hbs b' hin).1, ihbs b' hin (hbs b' hin).2⟩
      obtain ⟨rest, hrest, hrlexes⟩ := reads_branches hmem
      refine ⟨.casePrimary (.caseExpression (primaryExpression scrutinee) first rest), ?_,
        fun tail _ => ?_⟩
      · simp only [Tree.denote, primaryExpression_denote, hscrutinee, hfirst, hrest,
          Expression.withoutIds, withoutIdsBranches_eq, List.map_cons]
      · have hbranches : printBranches "" (b :: bs) =
            printBranch b ++ separated " " (bs.map printBranch) := by
          rw [printBranches_eq, joinFormatted_cons (by simp [printBranch])]
        rw [printExpression, hbranches]
        have h := ((((lexes_caseText _).append (hslexes _ (by simp))).append
          (lexes_ofText _)).append ((hflexes _).append (hrlexes _))).append (lexes_closeText tail)
        simpa using h

/-! ## Definitions -/

theorem reads_constructor {c : Constructor} (h : c.Writable) : ∃ d : Tree .Constructor,
    d.denote = c.withoutIds ∧ ∀ tail, EndsWord tail → Lexes (printConstructor c) d.yield tail := by
  obtain ⟨hname, hfields⟩ := h
  refine ⟨.constructor c.name c.fields, rfl, fun tail htail => ?_⟩
  have hargs := lexes_names .UpperVariable (fun a ha t ht => (hfields a ha).lexes ht) tail htail
  rw [printConstructor, printHeadWithArguments_eq fun a ha => name_ne_empty (hfields a ha)]
  exact (hname.lexes hargs.2).append hargs.1

theorem printConstructor_ne_empty {c : Constructor} (h : c.Writable) : printConstructor c ≠ "" := by
  rw [printConstructor, printHeadWithArguments_eq fun a ha => name_ne_empty (h.2 a ha)]
  simp [name_ne_empty h.1]

theorem reads_constructors {cs : List Constructor} (h : ∀ c ∈ cs, c.Writable) :
    ∃ d : Tree .Constructors, d.denote = cs.map Constructor.withoutIds ∧
      ∀ tail, EndsWord tail → Lexes (separated ", " (cs.map printConstructor)) d.yield tail ∧
        EndsWord (separated ", " (cs.map printConstructor) ++ tail) := by
  induction cs with
  | nil =>
    exact ⟨.constructorsEnd, rfl, fun tail htail =>
      ⟨Lexes.empty tail, by simpa [separated] using htail⟩⟩
  | cons c cs ih =>
    obtain ⟨first, hfirst, hflexes⟩ := reads_constructor (h c (by simp))
    obtain ⟨rest, hrest, hrlexes⟩ := ih fun c' hc' => h c' (List.mem_cons_of_mem c hc')
    refine ⟨.nextConstructor first rest, ?_, fun tail htail => ?_⟩
    · simp only [Tree.denote, hfirst, hrest, List.map_cons]
    · obtain ⟨hlexes, hends⟩ := hrlexes tail htail
      rw [List.map_cons, separated_cons]
      refine ⟨((lexes_comma _).append (hflexes _ hends)).append hlexes, ?_⟩
      rw [String.append_assoc, String.append_assoc]
      exact endsWord_comma _

theorem reads_definition {def' : Definition} (h : def'.Writable) : ∃ d : Tree .Definition,
    d.denote = def'.withoutIds ∧ ∀ tail, Lexes (printDefinition def') d.yield tail := by
  cases def' with
  | FunctionDefinition fd =>
    obtain ⟨hname, hparameters, hbody⟩ := h
    obtain ⟨body, hb, hblexes⟩ := reads_expression hbody
    refine ⟨.functionDefinition fd.name fd.parameters (primaryExpression body), ?_, fun tail => ?_⟩
    · simp only [Tree.denote, primaryExpression_denote, hb]
      rfl
    · have hparams := fun rest => lexes_names .LowerVariable
        (fun a ha t ht => (hparameters a ha).lexes ht) (" = \x7b " ++ rest) (by simp)
      have htext : printDefinition (.FunctionDefinition fd) = "defn " ++ fd.name ++
          separated " " fd.parameters ++ " = \x7b " ++ printExpression fd.body ++ " \x7d" := by
        rw [← joinFormatted_names fun a ha => name_ne_empty (hparameters a ha).1]
        rfl
      rw [htext]
      have h := (((((lexes_defnText _).append (hname.lexes (hparams _).2)).append
        (hparams _).1).append (lexes_equalText _)).append (hblexes _ (by simp))).append
        (lexes_closeText tail)
      simpa using h
  | DataTypeDefinition dt =>
    obtain ⟨hname, hne, hcs⟩ := h
    obtain ⟨id, name, constructors⟩ := dt
    cases constructors with
    | nil => exact absurd rfl hne
    | cons c cs =>
      have hc := hcs c (by simp)
      obtain ⟨first, hfirst, hflexes⟩ := reads_constructor hc
      obtain ⟨rest, hrest, hrlexes⟩ := reads_constructors (fun c' hc' =>
        hcs c' (List.mem_cons_of_mem c hc'))
      refine ⟨.dataTypeDefinition name first rest, ?_, fun tail => ?_⟩
      · simp only [Tree.denote, hfirst, hrest]
        rfl
      · obtain ⟨hlexes, hends⟩ := hrlexes (" \x7d" ++ tail) (by simp)
        rw [printDefinition, joinFormatted_cons (printConstructor_ne_empty hc)]
        have h := ((((lexes_dataText _).append (hname.lexes (by simp))).append
          (lexes_equalText _)).append ((hflexes _ hends).append hlexes)).append
          (lexes_closeText tail)
        simpa using h

theorem printDefinition_ne_empty (d : Definition) : printDefinition d ≠ "" := by
  cases d <;> simp [printDefinition]

theorem reads_definitions {ds : List Definition} (h : ∀ d ∈ ds, d.Writable) :
    ∃ p : Tree .Program, p.denote = ds.map Definition.withoutIds ∧
      ∀ tail, Lexes (separated "\n" (ds.map printDefinition)) p.yield tail := by
  induction ds with
  | nil => exact ⟨.programEnd, rfl, Lexes.empty⟩
  | cons d ds ih =>
    obtain ⟨first, hfirst, hflexes⟩ := reads_definition (h d (by simp))
    obtain ⟨rest, hrest, hrlexes⟩ := ih fun d' hd' => h d' (List.mem_cons_of_mem d hd')
    refine ⟨.nextDefinition first rest, ?_, fun tail => ?_⟩
    · simp only [Tree.denote, hfirst, hrest, List.map_cons]
    · rw [List.map_cons, separated_cons]
      exact ((lexes_newline _).append (hflexes _)).append (hrlexes tail)

theorem reads_program {a : Program} (h : a.Writable) : ∃ d : Tree .Program,
    d.toProgram = a.withoutIds ∧ Lexes (print a) d.yield "" := by
  obtain ⟨definitions⟩ := a
  cases definitions with
  | nil => exact ⟨.programEnd, rfl, Lexes.empty ""⟩
  | cons d ds =>
    obtain ⟨first, hfirst, hflexes⟩ := reads_definition (h d (by simp))
    obtain ⟨rest, hrest, hrlexes⟩ := reads_definitions fun d' hd' =>
      h d' (List.mem_cons_of_mem d hd')
    refine ⟨.nextDefinition first rest, ?_, ?_⟩
    · simp only [Tree.toProgram, Tree.denote, hfirst, hrest]
      rfl
    · rw [print, joinFormatted_cons (printDefinition_ne_empty d)]
      exact (hflexes _).append (hrlexes "")

/-! ## Round trip -/

theorem scan_of_lexes {text : String} {ls : List TokenVariant} (h : Lexes text ls "") :
    ∃ tokens, scan text.toList = .ok tokens ∧ loads tokens = ls := by
  obtain ⟨m, s', hrun, hrest, hm, hloads⟩ := h (text.toList.length + 1)
    ⟨text.toList, [], ⟨1, 1, 1, 1⟩⟩ (by simp) (by simp)
  refine ⟨s'.tokens, ?_, by simpa using hloads⟩
  obtain ⟨m, rfl⟩ : ∃ k, m = k + 1 := ⟨m - 1, by omega⟩
  rw [scan, hrun, scanLoop, hrest]
  rfl

/-- Printing is injective up to node ids. -/
theorem print_injective {a b : Program} (ha : a.Writable) (hb : b.Writable)
    (h : print a = print b) : a.Equal b := by
  obtain ⟨da, hda, hla⟩ := reads_program ha
  obtain ⟨db, hdb, hlb⟩ := reads_program hb
  obtain ⟨ta, hta, hya⟩ := scan_of_lexes hla
  obtain ⟨tb, htb, hyb⟩ := scan_of_lexes hlb
  rw [h, htb] at hta
  cases hta
  have htrees : da = db := Tree.eq_of_yield_eq (hya.symm.trans hyb)
  rw [Program.Equal, ← hda, ← hdb, htrees]

/-- The text of a program is scanned and parsed to the program. -/
theorem parse_printed (a : Program) (ha : a.Writable) (source : Source)
    (hsource : source.chars = (print a).toList) :
    ∃ tokens p, tokenize source = .ok tokens ∧ parsing.parse tokens = .ok p ∧ p.ast.Equal a ∧
      print p.ast = print a := by
  obtain ⟨d, hd, hlexes⟩ := reads_program ha
  obtain ⟨tokens, hscan, hloads⟩ := scan_of_lexes hlexes
  rw [← hsource] at hscan
  have hfits : tokens.length ≤ maxTokens := source.tokensFit tokens hscan
  have hderived : parsing.DerivedBy ⟨tokens, hfits⟩ d := hloads.symm
  obtain ⟨p, hp, hv⟩ := parsing.parse_of_derivedBy hderived
  have hequal : p.ast.Equal a := hv.trans hd
  exact ⟨⟨tokens, hfits⟩, p, tokenize_eq_ok.mpr hscan, hp, hequal, print_congr hequal⟩

/-- The text of a program, when it fits in a string and its tokens in a vector, is
scanned and parsed to the program, which prints as the same text; and no other
program has it. -/
theorem parse_tokenize_print (a : Program) (ha : a.Writable) (source : Source)
    (hsource : source.chars = (print a).toList) :
    (∃ tokens p, tokenize source = .ok tokens ∧ parsing.parse tokens = .ok p ∧ p.ast.Equal a ∧
      print p.ast = print a) ∧
    ∀ b : Program, b.Writable → print b = print a → b.Equal a :=
  ⟨parse_printed a ha source hsource, fun _ hb h => print_injective hb ha h⟩

/-- `defn main = { case (1 + 12) of { x -> { x } } }` -/
def caseOfSum : Program :=
  ⟨[.FunctionDefinition ⟨0, "main", [], .CaseExpression 0
    (Addition 0 (.IntLiteral 0 1) (.IntLiteral 0 12))
      [⟨0, .VariablePattern 0 "x", .Variable 0 "x"⟩]⟩]⟩

theorem parse_tokenize_print_caseOfSum :
    (∃ tokens p, tokenize (.ofShort (print caseOfSum).toList (by decide)) = .ok tokens ∧
      parsing.parse tokens = .ok p ∧ p.ast.Equal caseOfSum ∧ print p.ast = print caseOfSum) ∧
    ∀ b : Program, b.Writable → print b = print caseOfSum → b.Equal caseOfSum :=
  parse_tokenize_print caseOfSum (by
    intro d hd
    rw [List.mem_singleton.mp hd]
    have hx : LowerName "x" := by decide
    exact ⟨by decide, by decide, ⟨show 0 ≤ (1 : Int32).toInt by decide,
      show 0 ≤ (12 : Int32).toInt by decide⟩, by simp, hx, .inl hx, trivial⟩) _ rfl

end mf.visitors
