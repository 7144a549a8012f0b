-- Layout, parentheses and formatting mean nothing. A program that is written
-- in another way, but has the same tree, gets the same scopes, types, value
-- and module; its diagnostics are the same but for the positions in them.
import MiniFunctional.LlvmIr
import MiniFunctional.NodeOrder
import MiniFunctional.PrintParse
import MiniFunctional.TypeSoundness

open mf.util mf.ast mf.parsing mf.tokenization

namespace mf.semantics

/-! ## Reports at other positions -/

/-- The same diagnostic of two texts. That of a redefinition says where the
name was declared before. -/
inductive SameReport (positions positions' : List Position) : Diagnostic → Diagnostic → Prop
  | same (d : Diagnostic) : SameReport positions positions' d d
  | redefinition (id : NodeId) (name : String) (previous : Symbol) :
    SameReport positions positions' ⟨id, redefinition positions name previous⟩
      ⟨id, redefinition positions' name previous⟩

/-- The same scopes and the same diagnostics. -/
structure SameAnalysis (positions positions' : List Position) (r r' : AnalysisResult) : Prop where
  scopes : r'.scopes = r.scopes
  reports : List.Forall₂ (SameReport positions positions') r.diagnostics r'.diagnostics

namespace SameAnalysis

variable {positions positions' : List Position} {r r' : AnalysisResult}
  (h : SameAnalysis positions positions' r r')

include h

theorem report {id : NodeId} {message message' : String}
    (hd : SameReport positions positions' ⟨id, message⟩ ⟨id, message'⟩) :
    SameAnalysis positions positions' (addError r id message) (addError r' id message') := by
  constructor
  · exact h.scopes
  · exact List.rel_append h.reports (.cons hd .nil)

theorem report_same (id : NodeId) (message : String) :
    SameAnalysis positions positions' (addError r id message) (addError r' id message) :=
  h.report (.same _)

theorem scopes_only (f : ScopeTree → ScopeTree) :
    SameAnalysis positions positions' { r with scopes := f r.scopes }
      { r' with scopes := f r'.scopes } := by
  constructor
  · show f r'.scopes = f r.scopes
    rw [h.scopes]
  · exact h.reports

theorem bindScope (node_id : NodeId) (scope_id : ScopeId) :
    SameAnalysis positions positions' (bindScope node_id scope_id r)
      (bindScope node_id scope_id r') :=
  h.scopes_only fun t => t.bindNodeToScope node_id scope_id

theorem bindSymbol (node_id : NodeId) (symbol_id : SymbolId) :
    SameAnalysis positions positions' (bindSymbol node_id symbol_id r)
      (bindSymbol node_id symbol_id r') :=
  h.scopes_only fun t => t.bindNodeToSymbol node_id symbol_id

theorem addSymbol (scope_id : ScopeId) (name : String) (kind : SymbolKind) (declaration : NodeId) :
    SameAnalysis positions positions' (addSymbol positions scope_id name kind declaration r)
      (addSymbol positions' scope_id name kind declaration r') := by
  unfold semantics.addSymbol
  rw [h.scopes]
  cases r.scopes.addLocalSymbol scope_id name kind declaration with
  | some scopes => exact ⟨rfl, h.reports⟩
  | none =>
    cases r.scopes.getLocalSymbol scope_id name with
    | none => exact h
    | some previous => exact h.report (.redefinition declaration name previous)

theorem foldl {α : Type} {f f' : AnalysisResult → α → AnalysisResult} (xs : List α)
    (hf : ∀ x r r', SameAnalysis positions positions' r r' →
      SameAnalysis positions positions' (f r x) (f' r' x)) :
    SameAnalysis positions positions' (xs.foldl f r) (xs.foldl f' r') := by
  induction xs generalizing r r' with
  | nil => exact h
  | cons x xs ih => exact ih (hf x r r' h)

theorem bindVariable (id : NodeId) (name : String) (scope_id : ScopeId) :
    SameAnalysis positions positions' (bindVariable id name scope_id r)
      (bindVariable id name scope_id r') := by
  have hbound := h.bindScope id scope_id
  unfold semantics.bindVariable
  simp only [hbound.scopes]
  cases (semantics.bindScope id scope_id r).scopes.getResolvedSymbolId scope_id name with
  | none => exact hbound.report_same _ _
  | some symbol_id =>
    simp only
    cases (semantics.bindScope id scope_id r).scopes.getSymbol symbol_id with
    | none => exact hbound
    | some symbol =>
      simp only
      cases variableError name symbol.kind with
      | none => exact hbound.bindSymbol id symbol_id
      | some message => exact hbound.report_same _ _

theorem bindConstructorName (id : NodeId) (name : String) :
    SameAnalysis positions positions' (bindConstructorName id name r)
      (bindConstructorName id name r') := by
  unfold semantics.bindConstructorName
  rw [h.scopes]
  cases r.scopes.getLocalSymbol ScopeTree.getRootScopeId name with
  | none => exact h.report_same _ _
  | some symbol =>
    simp only
    split
    · exact h.report_same _ _
    · exact h.bindSymbol id symbol.id

theorem bindPattern (scope_id : ScopeId) (pattern : Pattern) :
    SameAnalysis positions positions' (bindPattern positions scope_id r pattern)
      (bindPattern positions' scope_id r' pattern) := by
  cases pattern with
  | VariablePattern id name =>
    unfold semantics.bindPattern
    exact (h.bindScope id scope_id).addSymbol scope_id name .PatternVariable id
  | ConstructorPattern id name arguments =>
    unfold semantics.bindPattern bindConstructorPattern
    apply ((h.bindScope id scope_id).bindConstructorName id name).foldl
    exact fun argument _ _ h => h.addSymbol scope_id argument .PatternVariable id

theorem openScope (parent : ScopeId) (owner : NodeId) :
    SameAnalysis positions positions' (openScope parent owner r) (openScope parent owner r') := by
  have hcreated := h.scopes_only fun t => t.createScope parent owner
  have hlength : r'.scopes.scopes.length = r.scopes.scopes.length := by rw [h.scopes]
  unfold semantics.openScope
  rw [hlength]
  exact hcreated.bindScope owner _

theorem bindExpression (e : Expression) (scope_id : ScopeId) :
    SameAnalysis positions positions' (bindExpression positions e scope_id r)
      (bindExpression positions' e scope_id r') := by
  induction e generalizing scope_id r r' with
  | IntLiteral id value => exact h.bindScope id scope_id
  | Variable id name => exact h.bindVariable id name scope_id
  | BinaryOperator kind id left right ihl ihr =>
    exact ihr (ihl (h.bindScope id scope_id) scope_id) scope_id
  | Application id function argument ihf iha =>
    exact iha (ihf (h.bindScope id scope_id) scope_id) scope_id
  | CaseExpression id scrutinee branches ihs ihbs =>
    have hs := ihs (h.bindScope id scope_id) scope_id
    unfold semantics.bindExpression
    generalize semantics.bindExpression positions scrutinee scope_id _ = r1 at hs ⊢
    generalize semantics.bindExpression positions' scrutinee scope_id _ = r1' at hs ⊢
    clear h ihs
    induction branches generalizing r1 r1' with
    | nil => exact hs
    | cons b bs ih =>
      obtain ⟨bid, pattern, body⟩ := b
      unfold bindBranches
      have hopen := (hs.openScope scope_id bid).bindPattern r1.scopes.scopes.length pattern
      rw [hs.scopes]
      exact ih (fun b hb => ihbs b (List.mem_cons_of_mem _ hb)) _ _
        (ihbs _ List.mem_cons_self hopen _)

theorem bindFunction (fd : FunctionDefinition) :
    SameAnalysis positions positions' (bindFunction positions fd r)
      (bindFunction positions' fd r') := by
  unfold semantics.bindFunction
  rw [h.scopes]
  have hparameters := (h.openScope ScopeTree.getRootScopeId fd.id).foldl fd.parameters
    fun parameter _ _ h => h.addSymbol r.scopes.scopes.length parameter .Parameter fd.id
  exact hparameters.bindExpression fd.body _

end SameAnalysis

section

variable (positions positions' : List Position)

theorem registerGlobalDefinition_same {r r' : AnalysisResult} (d : Definition)
    (h : SameAnalysis positions positions' r r') :
    SameAnalysis positions positions' (registerGlobalDefinition positions r d)
      (registerGlobalDefinition positions' r' d) := by
  unfold registerGlobalDefinition
  cases d with
  | FunctionDefinition fd => exact h.addSymbol _ _ _ _
  | DataTypeDefinition dt =>
    exact (h.addSymbol _ _ _ _).foldl dt.constructors fun ctor _ _ h => h.addSymbol _ _ _ _

theorem checkGlobalDefinition_same {r r' : AnalysisResult} (d : Definition)
    (h : SameAnalysis positions positions' r r') :
    SameAnalysis positions positions' (checkGlobalDefinition r d) (checkGlobalDefinition r' d) := by
  unfold checkGlobalDefinition
  cases d with
  | FunctionDefinition fd => exact h.bindScope _ _
  | DataTypeDefinition dt =>
    exact (h.bindScope _ _).foldl dt.constructors fun ctor _ _ h => h.bindScope _ _

theorem bindFunctionBody_same {r r' : AnalysisResult} (d : Definition)
    (h : SameAnalysis positions positions' r r') :
    SameAnalysis positions positions' (bindFunctionBody positions r d)
      (bindFunctionBody positions' r' d) := by
  cases d with
  | FunctionDefinition fd => exact h.bindFunction fd
  | DataTypeDefinition dt => exact h

end

/-- The positions of a program are in the diagnostics only. -/
theorem analyze_same {p p' : ParsedProgram} (h : p'.ast = p.ast) :
    SameAnalysis p.positions p'.positions (analyze p) (analyze p') := by
  have hstart : SameAnalysis p.positions p'.positions ⟨ScopeTree.initial, []⟩
      ⟨ScopeTree.initial, []⟩ := ⟨rfl, .nil⟩
  have hbuiltins := hstart.addSymbol ScopeTree.getRootScopeId "Int" .BuiltinType kInvalidNodeId
  have hregistered := hbuiltins.foldl p.ast.definitions fun d _ _ =>
    registerGlobalDefinition_same p.positions p'.positions d
  have hchecked := hregistered.foldl p.ast.definitions fun d _ _ =>
    checkGlobalDefinition_same p.positions p'.positions d
  have hbound := hchecked.foldl p.ast.definitions fun d _ _ =>
    bindFunctionBody_same p.positions p'.positions d
  unfold analyze bindFunctionBodies checkGlobalDefinitions registerGlobalDefinitions
    registerBuiltins
  rw [h]
  exact hbound

theorem SameAnalysis.ok {positions positions' : List Position} {r r' : AnalysisResult}
    (h : SameAnalysis positions positions' r r') : r'.ok = r.ok := by
  unfold AnalysisResult.ok
  have hlength := h.reports.length_eq
  rw [Bool.eq_iff_iff, List.isEmpty_iff_length_eq_zero, List.isEmpty_iff_length_eq_zero, hlength]

end mf.semantics

namespace mf.visitors

open mf.semantics mf.grammar

/-! ## Programs with one tree -/

/-- What the compiler does with a program and with the same program in another
text. -/
structure SameProgram (p p' : ParsedProgram) : Prop where
  ast : p'.ast = p.ast
  analysis : SameAnalysis p.positions p'.positions (analyze p) (analyze p')
  types : ∃ result result', analyzeTypes p (analyze p) = some result ∧
    analyzeTypes p' (analyze p') = some result' ∧ result'.types = result.types ∧
    List.Forall₂ (SameReport p.positions p'.positions) result.diagnostics result'.diagnostics
  interpreted : ∀ result, analyzeTypes p (analyze p) = some result → result.ok →
    interpret p' = interpret p
  generated : ∀ result, analyzeTypes p (analyze p) = some result → result.ok →
    ∀ verifyModule, generateLlvmIr verifyModule p' = generateLlvmIr verifyModule p

variable {tokens tokens' : TokenVector} {p p' : ParsedProgram}

theorem sameProgram_of_ast (hl : tokens.Lexed) (hp : parse tokens = .ok p)
    (h : p'.ast = p.ast) : SameProgram p p' := by
  have hanalysis := analyze_same h
  have htypes : (analyze p).ok = true →
      analyzeTypes p' (analyze p') = analyzeTypes p (analyze p) := by
    intro hok
    unfold analyzeTypes
    rw [hanalysis.ok, hanalysis.scopes, h, if_pos hok, if_pos hok]
  have haccepted : ∀ result, analyzeTypes p (analyze p) = some result → result.ok →
      (analyze p).ok = true := by
    intro result hresult hok
    by_contra hnot
    unfold analyzeTypes at hresult
    rw [if_neg hnot] at hresult
    cases hresult
    exact hnot hok
  have hnone : ∀ r : AnalysisResult, r.ok = true → r.diagnostics = [] :=
    fun r hr => List.isEmpty_iff.mp hr
  constructor
  · exact h
  · exact hanalysis
  · by_cases hok : (analyze p).ok = true
    · obtain ⟨_, result, hresult, _⟩ := analyzeTypes_run hl hp hok
      refine ⟨result, result, hresult, (htypes hok).trans hresult, rfl, ?_⟩
      exact List.forall₂_same.mpr fun d _ => .same d
    · unfold analyzeTypes
      rw [hanalysis.ok, if_neg hok, if_neg hok]
      exact ⟨_, _, rfl, rfl, rfl, hanalysis.reports⟩
  · intro result hresult hok
    have hscopes := haccepted result hresult hok
    have hempty := hnone _ hscopes
    have hempty' := hnone _ (hanalysis.ok.trans hscopes)
    have htyped : result.diagnostics = [] := List.isEmpty_iff.mp hok
    unfold interpret interpretWith
    simp only [hempty, hempty', htypes hscopes, hresult, Option.map_some, htyped]
    unfold evaluateMain
    rw [hanalysis.scopes, h]
  · intro result hresult hok verifyModule
    have hscopes := haccepted result hresult hok
    have hempty := hnone _ hscopes
    have hempty' := hnone _ (hanalysis.ok.trans hscopes)
    have htyped : result.diagnostics = [] := List.isEmpty_iff.mp hok
    unfold generateLlvmIr
    simp only [hempty, hempty', htypes hscopes, hresult, Option.map_some, htyped]
    unfold generateCheckedLlvmIr
    rw [hanalysis.scopes, h]

/-- Programs that are equal but for their node ids are one program: layout and
parentheses, which leave no node, change neither an id nor what the compiler does.
The tokens are the scanner's. -/
theorem same_of_equal (hl : tokens.Lexed) (hp : parse tokens = .ok p)
    (hp' : parse tokens' = .ok p') (hequal : p'.ast.Equal p.ast) : SameProgram p p' :=
  sameProgram_of_ast hl hp (ast_eq_of_equal hp hp' hequal).1

def additionProgram : Program :=
  ⟨[.FunctionDefinition ⟨3, "f", ["x"], Addition 1 (.Variable 0 "x") (.IntLiteral 2 1)⟩]⟩

/-- `defn f x={x+(1)}`, on one line. -/
def additionTokens : TokenVector :=
  ⟨[⟨.Function, ⟨1, 1, 1, 5⟩⟩, ⟨.LowerVariable "f", ⟨1, 6, 1, 7⟩⟩,
    ⟨.LowerVariable "x", ⟨1, 8, 1, 9⟩⟩, ⟨.Equal, ⟨1, 9, 1, 10⟩⟩, ⟨.LeftBrace, ⟨1, 10, 1, 11⟩⟩,
    ⟨.LowerVariable "x", ⟨1, 11, 1, 12⟩⟩, ⟨.Plus, ⟨1, 12, 1, 13⟩⟩,
    ⟨.LeftParentheses, ⟨1, 13, 1, 14⟩⟩, ⟨.IntLiteral 1, ⟨1, 14, 1, 15⟩⟩,
    ⟨.RightParentheses, ⟨1, 15, 1, 16⟩⟩, ⟨.RightBrace, ⟨1, 16, 1, 17⟩⟩], by decide⟩

def additionParsed : ParsedProgram :=
  ⟨additionProgram, [⟨1, 11, 1, 12⟩, ⟨1, 12, 1, 13⟩, ⟨1, 14, 1, 15⟩, ⟨1, 1, 1, 5⟩]⟩

theorem addition_parse : parse additionTokens = .ok additionParsed := rfl

/-- The same without parentheses, its body on a second line. -/
def twoLinesTokens : TokenVector :=
  ⟨[⟨.Function, ⟨1, 1, 1, 5⟩⟩, ⟨.LowerVariable "f", ⟨1, 6, 1, 7⟩⟩,
    ⟨.LowerVariable "x", ⟨1, 8, 1, 9⟩⟩, ⟨.Equal, ⟨1, 9, 1, 10⟩⟩, ⟨.LeftBrace, ⟨1, 10, 1, 11⟩⟩,
    ⟨.LowerVariable "x", ⟨2, 1, 2, 2⟩⟩, ⟨.Plus, ⟨2, 2, 2, 3⟩⟩, ⟨.IntLiteral 1, ⟨2, 3, 2, 4⟩⟩,
    ⟨.RightBrace, ⟨2, 4, 2, 5⟩⟩], by decide⟩

def twoLinesParsed : ParsedProgram :=
  ⟨additionProgram, [⟨2, 1, 2, 2⟩, ⟨2, 2, 2, 3⟩, ⟨2, 3, 2, 4⟩, ⟨1, 1, 1, 5⟩]⟩

theorem twoLines_parse : parse twoLinesTokens = .ok twoLinesParsed := rfl

theorem same_of_equal_twoLines : SameProgram additionParsed twoLinesParsed :=
  same_of_equal (show additionTokens.Lexed by decide) addition_parse twoLines_parse rfl

/-- The printed text of a program is the program. -/
theorem format_same {source source' : Source} (hscan : tokenize source = .ok tokens)
    (hp : parse tokens = .ok p) (hsource' : source'.chars = (print p.ast).toList) :
    ∃ tokens' p', tokenize source' = .ok tokens' ∧ parse tokens' = .ok p' ∧ SameProgram p p' ∧
      print p'.ast = print p.ast := by
  have hl := tokenize_lexed hscan
  obtain ⟨tokens', p', hscan', hp', hequal, hprint⟩ :=
    parse_printed p.ast (parse_writable hl hp) source' hsource'
  have hsame := sameProgram_of_ast hl hp (ast_eq_of_equal hp hp' hequal).1
  exact ⟨tokens', p', hscan', hp', hsame, hprint⟩

def additionSource : Source := .ofShort "defn f x=\x7bx+(1)\x7d".toList (by decide)

def printedSource : Source := .ofShort (print additionProgram).toList (by decide)

theorem addition_scan : tokenize additionSource = .ok additionTokens := rfl

theorem format_same_addition : ∃ tokens' p', tokenize printedSource = .ok tokens' ∧
    parse tokens' = .ok p' ∧ SameProgram additionParsed p' ∧ print p'.ast = print additionProgram :=
  format_same addition_scan addition_parse
    (show printedSource.chars = (print additionParsed.ast).toList from rfl)

end mf.visitors
