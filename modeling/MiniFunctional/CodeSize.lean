-- The generated module is linear in the source text.
import MiniFunctional.BackEnds
import MiniFunctional.ModuleSymbols
import MiniFunctional.NodePositions

open mf.util mf.ast mf.parsing mf.semantics mf.tokenization llvm ExceptLaws

namespace mf.visitors

/-! ## The words of a text -/

section

variable {anchor : NodeId → Token → Prop}

theorem words_pattern {p : Pattern} {ts : List Token} (h : WrittenPattern anchor p ts) :
    Pattern.words p ≤ ts.length := by
  cases p with
  | VariablePattern id name =>
    obtain ⟨t, rfl, _⟩ := h
    exact Nat.le_refl 1
  | ConstructorPattern id name arguments =>
    obtain ⟨t, us, rfl, _, _, hus⟩ := h
    have hlen := congrArg List.length hus
    simp only [loads, List.length_map] at hlen
    simp [Pattern.words, hlen]

mutual

/-- Each word is a token. -/
theorem words_written : {l : Level} → {e : Expression} → {ts : List Token} →
    Written anchor l e ts → wordsOf e ≤ ts.length
  | _, _, _, .num _ _ => by simp
  | _, _, _, .lowerVariable _ _ => by simp
  | _, _, _, .upperVariable _ _ => by simp
  | _, _, _, .parenthesized _ he _ => by
    have := words_written he
    simp only [List.length_cons, List.length_append, List.length_nil]
    omega
  | _, _, _, .caseExpression _ _ hs _ _ _ hbs _ => by
    have := words_written hs
    have := words_writtenBranches hbs
    simp only [wordsOf, List.length_cons, List.length_append, List.length_nil]
    omega
  | _, _, _, .primary he => words_written he
  | _, _, _, .application hf ha _ => by
    have := words_written hf
    have := words_written ha
    simp only [wordsOf, List.length_append]
    omega
  | _, _, _, .factor he => words_written he
  | _, _, _, .product hl _ _ hr => by
    have := words_written hl
    have := words_written hr
    simp only [wordsOf, List.length_append, List.length_cons]
    omega
  | _, _, _, .term he => words_written he
  | _, _, _, .sum hl _ _ hr => by
    have := words_written hl
    have := words_written hr
    simp only [wordsOf, List.length_append, List.length_cons]
    omega

theorem words_writtenBranches : {bs : List Branch} → {ts : List Token} →
    WrittenBranches anchor bs ts → wordsOfBranches bs ≤ ts.length
  | _, _, .nil => by simp
  | _, _, .cons hp _ _ _ he _ hbs => by
    have := words_pattern hp
    have := words_written he
    have := words_writtenBranches hbs
    simp only [wordsOfBranches, List.length_append, List.length_cons] at *
    omega

end

theorem words_definition {d : Definition} {ts : List Token} (h : WrittenDefinition anchor d ts) :
    Definition.words d ≤ ts.length := by
  cases h with
  | functionDefinition _ _ _ hps _ _ hbody _ =>
    have := words_written hbody
    have hlen := congrArg List.length hps
    simp only [loads, List.length_map] at hlen
    simp only [Definition.words, List.length_cons, List.length_append, List.length_nil]
    omega
  | dataTypeDefinition => exact Nat.zero_le _

theorem words_definitions {ds : List Definition} {ts : List Token}
    (h : WrittenDefinitions anchor ds ts) : total Definition.words ds ≤ ts.length := by
  induction h with
  | nil => exact Nat.le_refl 0
  | cons hd _ ih =>
    have := words_definition hd
    rw [total_cons, List.length_append]
    omega

end

/-! ## The module -/

section

variable {t : ScopeTree} {program : Program} {types : TypeTable} {τ : Typing} {M : Module}

/-- What declaring a definition adds. -/
def Definition.headerSize : Definition → Nat
  | .FunctionDefinition fd => fd.parameters.length + 1
  | .DataTypeDefinition _ => 0

theorem declared_size {definitions : List Definition} {fs : List llvm.Function}
    (hall : List.Forall₂ (DeclaredAs t types) (functionsOf definitions) fs)
    (hempty : ∀ F ∈ fs, F.blocks = []) :
    total Function.size fs = total Definition.headerSize definitions := by
  induction definitions generalizing fs with
  | nil =>
    cases hall
    rfl
  | cons d definitions ih =>
    rw [total_cons]
    cases d with
    | DataTypeDefinition dt =>
      rw [ih hall hempty]
      exact (Nat.zero_add _).symm
    | FunctionDefinition fd =>
      unfold functionsOf at hall
      cases hall with
      | @cons _ F _ fs hF hrest =>
        rw [total_cons, ih hrest fun F' hF' => hempty F' (List.mem_cons_of_mem F hF')]
        unfold Function.size
        rw [hF.parameters, hempty F List.mem_cons_self]
        rfl

theorem words_pay (definitions : List Definition) :
    total Definition.headerSize definitions + 14 * total Definition.bodyWords definitions ≤
      14 * total Definition.words definitions := by
  induction definitions with
  | nil => exact Nat.le_refl 0
  | cons d definitions ih =>
    simp only [total_cons]
    cases d with
    | DataTypeDefinition dt =>
      simp only [Definition.headerSize, Definition.bodyWords, Definition.words]
      omega
    | FunctionDefinition fd =>
      simp only [Definition.headerSize, Definition.bodyWords, Definition.words]
      omega

/-- The name of a function pays for the module's `main`. -/
theorem words_pay_main {definitions : List Definition} {fd : FunctionDefinition}
    (h : .FunctionDefinition fd ∈ definitions) :
    total Definition.headerSize definitions + 14 * total Definition.bodyWords definitions + 9 ≤
      14 * total Definition.words definitions := by
  obtain ⟨before, after, rfl⟩ := List.append_of_mem h
  have hbefore := words_pay before
  have hafter := words_pay after
  simp only [total_append, total_cons, Definition.headerSize, Definition.bodyWords,
    Definition.words]
  omega

theorem generateModule_size (h : Checked t program types τ)
    (hgenerate : generateModule program t types = .ok M) :
    M.size ≤ 14 * total Definition.words program.definitions := by
  obtain ⟨functions, functions_, hdeclare, _, hsize⟩ := generateModule_functions h hgenerate
  obtain ⟨hempty, hall⟩ := declared_inOrder h hdeclare
  rw [declared_size hall hempty] at hsize
  -- there is a function: the one that the module's `main` calls
  obtain ⟨functions', functions_', hdeclare', hgenerated⟩ := generated h hgenerate
  obtain ⟨s, n, _, _, _, _, hn, _⟩ := hgenerated.main
  obtain ⟨fd, hfd, _⟩ := (declareFunctions_only h hdeclare').symbols s.id n hn
  exact Nat.le_trans hsize (words_pay_main hfd)

end

variable {source : Source} {tokens : TokenVector} {p : ParsedProgram} {M : Module}

/-- The generated module is at most fourteen times as large as the source text. -/
theorem generated_size (hsource : tokenize source = .ok tokens) (hp : parse tokens = .ok p)
    {verifyModule : Module → Option String}
    (hgenerate : generateLlvmIr verifyModule p = some (.ok M)) :
    M.size ≤ 14 * source.chars.length := by
  obtain ⟨hok, result, hrun, hresult⟩ := accepted_of_generateLlvmIr hgenerate
  obtain ⟨τ, h⟩ := checked (tokenize_lexed hsource) hp hok hrun hresult
  have hmodule := generateModule_of_generateLlvmIr hok hrun hgenerate
  have hsize := generateModule_size h hmodule
  have hwords := words_definitions (parse_written hp)
  have hchars := scan_length (tokenize_eq_ok.mp hsource)
  omega

def constructorSource : Source := .ofShort "data B=\x7bU\x7ddefn main=\x7bU\x7d".toList (by decide)

def constructorTokens : TokenVector :=
  ⟨[⟨.Data, ⟨1, 1, 1, 5⟩⟩, ⟨.UpperVariable "B", ⟨1, 6, 1, 7⟩⟩, ⟨.Equal, ⟨1, 7, 1, 8⟩⟩,
    ⟨.LeftBrace, ⟨1, 8, 1, 9⟩⟩, ⟨.UpperVariable "U", ⟨1, 9, 1, 10⟩⟩,
    ⟨.RightBrace, ⟨1, 10, 1, 11⟩⟩, ⟨.Function, ⟨1, 11, 1, 15⟩⟩,
    ⟨.LowerVariable "main", ⟨1, 16, 1, 20⟩⟩, ⟨.Equal, ⟨1, 20, 1, 21⟩⟩,
    ⟨.LeftBrace, ⟨1, 21, 1, 22⟩⟩, ⟨.UpperVariable "U", ⟨1, 22, 1, 23⟩⟩,
    ⟨.RightBrace, ⟨1, 23, 1, 24⟩⟩], by decide⟩

def constructorProgram : ParsedProgram :=
  ⟨⟨[.DataTypeDefinition ⟨1, "B", [⟨0, "U", []⟩]⟩,
      .FunctionDefinition ⟨3, "main", [], .Variable 2 "U"⟩]⟩,
    [⟨1, 9, 1, 10⟩, ⟨1, 1, 1, 5⟩, ⟨1, 22, 1, 23⟩, ⟨1, 11, 1, 15⟩]⟩

/-- 23 characters, and a module that allocates one node. -/
theorem generated_size_constructor : ∃ M,
    generateLlvmIr (fun _ => none) constructorProgram = some (.ok M) ∧ M.size ≤ 14 * 23 := by
  have hscan : tokenize constructorSource = .ok constructorTokens := rfl
  have hparse : parse constructorTokens = .ok constructorProgram := rfl
  have hgenerate : ∃ outcome, generateLlvmIr (fun _ => none) constructorProgram = some outcome ∧
      outcome.isOk = true :=
    Option.map_eq_some_iff.mp
      (show (generateLlvmIr (fun _ => none) constructorProgram).map _ = some true by
        decide +kernel)
  obtain ⟨outcome, hgenerate, hok⟩ := hgenerate
  cases outcome with
  | error e => cases hok
  | ok M => exact ⟨M, hgenerate, generated_size hscan hparse hgenerate⟩

end mf.visitors
