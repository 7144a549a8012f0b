-- The generated module does what the program says: its functions return
-- representations of what evaluation returns, and its `main` prints it.
import MiniFunctional.Simulation

open mf.util mf.ast mf.parsing mf.tokenization mf.evaluation llvm
open mf.semantics hiding Frame

namespace mf.visitors

open ScopeTree

variable {t : ScopeTree} {program : Program} {types : TypeTable} {τ : Typing} {M : Module}
  {functions_ : AssocMap SymbolId Nat} {constructors_ : AssocMap SymbolId ConstructorLayout}

/-! ## Programs that are lowered -/

/-- A module is generated only of functions that the generator can lower. -/
theorem generateModule_bodies (h : Checked t program types τ)
    (hgenerate : generateModule program t types = .ok M) :
    ∀ fd, .FunctionDefinition fd ∈ program.definitions →
      compilable t types fd.body = true ∧ fits fd.body := by
  intro fd hfd
  obtain ⟨functions, functions_, hdeclare, _, hcomplete⟩ := declareFunctions_spec h
  obtain ⟨s, signature, hs, hsignature, _⟩ := h.functions fd hfd
  obtain ⟨s', hs', hkind, _⟩ := (h.scopes.functions fd hfd).1
  rw [hs] at hs'
  cases hs'
  constructor
  · obtain ⟨_, _, _, hgenerated⟩ := generated h hgenerate
    obtain ⟨main, _, _, _, hmain, hmainkind, _⟩ := hgenerated.main
    obtain ⟨mainfd, hmainfd, hname, _⟩ := function_declared h.scopes hmain hmainkind
    have hall := (generateModule_spec h ⟨mainfd, hmainfd, hname⟩).of_ok hgenerate
    exact List.all_eq_true.mp hall _ hfd
  · obtain ⟨n, hn⟩ := hcomplete fd hfd s hs
    have hroot : getRootSymbol t fd.name .Function = some s :=
      Option.filter_eq_some_iff.mpr ⟨hs, by simpa using hkind⟩
    have hrequires : Requires (defineFunctions t types functions_
        (registerConstructors t types program) program.definitions) (fits fd.body) :=
      requires_functions hfd hroot hn hsignature
    unfold generateModule at hgenerate
    simp only [hdeclare] at hgenerate
    obtain ⟨_, hpair, hrest⟩ := ExceptLaws.bind_eq_ok.mp hgenerate
    cases hpair
    obtain ⟨r, hr, _⟩ := ExceptLaws.bind_eq_ok.mp hrest
    exact ((hrequires.left fun _ => defineMain t types functions_)
      ⟨functions, .entry, .empty⟩).of_ok hr

/-! ## Functions -/

/-- What `main` prints of a value: the integer, or the tag of the constructor. -/
def shown (t : ScopeTree) (constructors_ : AssocMap SymbolId ConstructorLayout) :
    Datum → Option String
  | .int n => some (toString n.toInt)
  | .ConstructedValue name _ =>
    (t.getLocalSymbol getRootScopeId name).bind fun ctor =>
      (constructors_.find ctor.id).map fun layout => toString layout.tag

/-- The last function of the module is its `main`. -/
def mainIndex (M : Module) : Nat := M.functions.length - 1

/-- How the call of the module's `main` ends, when the program's ends so. -/
def MainFollows (t : ScopeTree) (constructors_ : AssocMap SymbolId ConstructorLayout) (M : Module) :
    Evaluated Datum → Prop
  | .ok v => ∃ line m, shown t constructors_ v = some line ∧
    Runs M (mainIndex M) [] [] (.int32 0) m (line ++ "\n")
  | .error fault => Trapped fault →
    Steps M (.running (.enter (mainIndex M) []) [] [] "") (.trapped "")

/-- What a value of the type prints. -/
theorem print_run (hscoped : t.ProgramScoped program)
    (hlayouts : Layouts t types program constructors_) {T : TypeVariant} {v : Datum} {w : Val}
    {m : Memory} (hv : Yields t program constructors_ T v w m) (output : String) :
    ∃ line r, shown t constructors_ v = some line ∧
      Meaning.print w T m output = .returns r m (output ++ (line ++ "\n")) := by
  have hprintf : ∀ n : BitVec 64, ∃ r, Behaviour.printf (.int n) m output =
      .returns r m (output ++ (toString n.toInt ++ "\n")) := fun n => ⟨_, rfl⟩
  cases T with
  | IntType =>
    obtain ⟨n, rfl⟩ := hv.typed.isInt
    have hrep := hv.represents
    cases hrep
    obtain ⟨r, hr⟩ := hprintf n
    exact ⟨_, r, rfl, hr⟩
  | DataType d =>
    obtain ⟨ctor, layout, b, arity, pointer, fields, values, hnode⟩ := hv.node hscoped
    obtain ⟨r, hr⟩ := hprintf (BitVec.ofNat 64 layout.tag)
    have htag : (BitVec.ofNat 64 layout.tag).toInt = (layout.tag : Int) := by
      have hlt := hlayouts.tags _ _ hnode.laidOut
      unfold maxTokens at hlt
      have hnat : (BitVec.ofNat 64 layout.tag).toNat = layout.tag := by
        rw [BitVec.toNat_ofNat]
        omega
      rw [BitVec.toInt_eq_toNat_of_lt (by rw [hnat]; omega), hnat]
    rw [htag] at hr
    refine ⟨toString layout.tag, r, ?_, ?_⟩
    · rw [hnode.datum]
      unfold shown
      simp only [hnode.named, Option.bind_some, hnode.laidOut, Option.map_some]
    · rw [hnode.value]
      exact (Behaviour.bind_returns (loadTag_run output hnode.node rfl) _).trans hr
  | FunctionType P R =>
    have hground := hv.typed.ground
    simp [containsFunctionType] at hground

/-- What the call of `main` comes to, when the call of the program's comes to `x`. -/
def Shows (t : ScopeTree) (constructors_ : AssocMap SymbolId ConstructorLayout)
    (outcome : Outcome Val) : Evaluated Datum → Prop
  | .ok v => ∃ line m, shown t constructors_ v = some line ∧
    outcome = .returns (.int32 0) m (line ++ "\n")
  | .error fault => Trapped fault → outcome = .traps ""

theorem main_shows (hscoped : t.ProgramScoped program)
    (hlayouts : Layouts t types program constructors_) {n p : Nat} {T : TypeVariant}
    {F : llvm.Function} (hmain : MainOf M n T F) (hF : M.functions[p]? = some F)
    {x : Evaluated Datum} (hfollows : Follows Trapped x (callBehaviour M n []) [] ""
      (Yields t program constructors_ T)) :
    Shows t constructors_ (callBehaviour M p [] [] "") x := by
  obtain ⟨_, _, b, hblocks, hcodes⟩ := hmain
  have hcall := hcodes.call hF hblocks []
  cases x with
  | error fault =>
    intro hfault
    rw [hcall]
    exact Behaviour.bind_traps (hfollows hfault) _
  | ok v =>
    obtain ⟨w, m, hrun, _, hv⟩ := hfollows
    obtain ⟨line, r, hline, hprint⟩ := print_run hscoped hlayouts hv ""
    rw [String.empty_append] at hprint
    refine ⟨line, m, hline, ?_⟩
    rw [hcall, Behaviour.bind_returns hrun, Behaviour.bind_returns hprint]
    rfl

theorem mainFollows (h : Checked t program types τ)
    (hlayouts : Layouts t types program constructors_)
    (hgenerated : Generated t types program functions_ constructors_ M)
    (hbodies : ∀ fd, .FunctionDefinition fd ∈ program.definitions →
      compilable t types fd.body = true ∧ fits fd.body) {s : Symbol}
    (hs : t.getLocalSymbol getRootScopeId "main" = some s) {outcome : Evaluated Datum}
    (hcall : Calls program t types s [] outcome) : MainFollows t constructors_ M outcome := by
  obtain ⟨s', n, signature, F, hs', hkind, hn, hsignature, hnone, hlast, hmain⟩ := hgenerated.main
  rw [hs] at hs'
  cases hs'
  rw [List.getLast?_eq_getElem?] at hlast
  obtain ⟨_, fuel, rfl⟩ := hcall
  have hfollows := callsFollow h hlayouts hgenerated hbodies fuel _ s n signature hs hkind hn
    hsignature [] "" [] [] (by rw [hnone]; exact .nil) .nil
  have hshows := main_shows h.scopes hlayouts hmain hlast hfollows
  cases hout : callWithin program t types fuel s [] with
  | error fault =>
    rw [hout] at hshows
    exact fun hfault => callBehaviour_traps_iff.mp (hshows hfault)
  | ok v =>
    rw [hout] at hshows
    obtain ⟨line, m, hline, hrun⟩ := hshows
    exact ⟨line, m, hline, callBehaviour_returns_iff.mp hrun⟩

/-- What the functions of the module do is what evaluation does. -/
structure ModuleCorrect (t : ScopeTree) (program : Program) (types : TypeTable)
    (functions_ : AssocMap SymbolId Nat) (constructors_ : AssocMap SymbolId ConstructorLayout)
    (M : Module) : Prop where
  functions : ∀ fd, .FunctionDefinition fd ∈ program.definitions → ∃ symbol signature n,
    t.getLocalSymbol getRootScopeId fd.name = some symbol ∧
    types.getFunctionSignature symbol.id = some signature ∧
    functions_.find symbol.id = some n ∧
    ∀ arguments v, List.Forall₂ (ValueHasType t program) arguments signature.parameters →
      Calls program t types symbol arguments (.ok v) →
      ∀ (m : Memory) ws, List.Forall₂ (Represents t constructors_ m) arguments ws →
        ∃ w m', Runs M n ws m w m' "" ∧ Represents t constructors_ m' v w
  main : ∀ symbol v, t.getLocalSymbol getRootScopeId "main" = some symbol →
    Calls program t types symbol [] (.ok v) →
    ∃ line m, shown t constructors_ v = some line ∧
      Runs M (mainIndex M) [] [] (.int32 0) m (line ++ "\n")

theorem moduleCorrect (h : Checked t program types τ)
    (hlayouts : Layouts t types program constructors_)
    (hgenerated : Generated t types program functions_ constructors_ M)
    (hbodies : ∀ fd, .FunctionDefinition fd ∈ program.definitions →
      compilable t types fd.body = true ∧ fits fd.body) :
    ModuleCorrect t program types functions_ constructors_ M := by
  constructor
  · intro fd hfd
    obtain ⟨s, signature, hs, hsignature, _⟩ := h.functions fd hfd
    obtain ⟨s', hs', hkind, _⟩ := (h.scopes.functions fd hfd).1
    rw [hs] at hs'
    cases hs'
    obtain ⟨n, _, _, hn, _⟩ := hgenerated.declared fd hfd s hs
    refine ⟨s, signature, n, hs, hsignature, hn, fun arguments v htyped hcall m ws hws => ?_⟩
    obtain ⟨_, fuel, hfuel⟩ := hcall
    have hfollows := callsFollow h hlayouts hgenerated hbodies fuel _ s n signature hs hkind hn
      hsignature m "" arguments ws htyped hws
    rw [hfuel] at hfollows
    obtain ⟨w, m', hrun, _, hv⟩ := hfollows
    exact ⟨w, m', callBehaviour_returns_iff.mp hrun, hv.represents⟩
  · intro symbol v hs hcall
    exact mainFollows h hlayouts hgenerated hbodies hs hcall

variable {tokens : TokenVector} {p : ParsedProgram} {result : TypeAnalysisResult}

/-- The generator is correct: of an accepted program it makes a module whose
functions return representations of what the program's functions evaluate to, and
whose `main` prints it. The tokens are the scanner's. -/
theorem generateModule_correct (hl : tokens.Lexed) (hp : parse tokens = .ok p)
    (hok : (analyze p).ok) (hrun : analyzeTypes p (analyze p) = some result) (hresult : result.ok)
    (hgenerate : generateModule p.ast (analyze p).scopes result.types = .ok M) :
    ∃ functions functions_,
      declareFunctions (analyze p).scopes result.types p.ast = .ok (functions, functions_) ∧
      ModuleCorrect (analyze p).scopes p.ast result.types functions_
        (registerConstructors (analyze p).scopes result.types p.ast) M := by
  obtain ⟨τ, h⟩ := checked hl hp hok hrun hresult
  obtain ⟨functions, functions_, hdeclare, hgenerated⟩ := generated h hgenerate
  exact ⟨functions, functions_, hdeclare,
    moduleCorrect h (layouts h) hgenerated (generateModule_bodies h hgenerate)⟩

/-- A module is generated of the accepted program, if evaluation says so. -/
theorem generated_of_isOk {p : ParsedProgram} (h : (analyzeTypes p (analyze p)).map (fun result =>
    result.ok && (generateModule p.ast (analyze p).scopes result.types).isOk) = some true) :
    ∃ result M, analyzeTypes p (analyze p) = some result ∧ result.ok ∧
      generateModule p.ast (analyze p).scopes result.types = .ok M := by
  obtain ⟨result, hrun, hboth⟩ := Option.map_eq_some_iff.mp h
  obtain ⟨hresult, hgenerate⟩ := Bool.and_eq_true_iff.mp hboth
  cases hM : generateModule p.ast (analyze p).scopes result.types with
  | ok M => exact ⟨result, M, hrun, hresult, hM⟩
  | error e =>
    rw [hM] at hgenerate
    cases hgenerate

theorem boxProgram_generated : ∃ result M,
    analyzeTypes boxProgram (analyze boxProgram) = some result ∧ result.ok ∧
      generateModule boxProgram.ast (analyze boxProgram).scopes result.types = .ok M :=
  generated_of_isOk (by decide +kernel)

theorem choiceProgram_generated : ∃ result M,
    analyzeTypes choiceProgram (analyze choiceProgram) = some result ∧ result.ok ∧
      generateModule choiceProgram.ast (analyze choiceProgram).scopes result.types = .ok M :=
  generated_of_isOk (by decide +kernel)

theorem generateModule_correct_choice : ∃ result M functions functions_,
    analyzeTypes choiceProgram (analyze choiceProgram) = some result ∧
      generateModule choiceProgram.ast (analyze choiceProgram).scopes result.types = .ok M ∧
      declareFunctions (analyze choiceProgram).scopes result.types choiceProgram.ast =
        .ok (functions, functions_) ∧
      ModuleCorrect (analyze choiceProgram).scopes choiceProgram.ast result.types functions_
        (registerConstructors (analyze choiceProgram).scopes result.types choiceProgram.ast) M := by
  obtain ⟨result, M, hrun, hresult, hgenerate⟩ := choiceProgram_generated
  obtain ⟨functions, functions_, hdeclare, hcorrect⟩ := generateModule_correct
    (show choiceTokens.Lexed by decide) choiceProgram_parse (by decide +kernel) hrun hresult
    hgenerate
  exact ⟨result, M, functions, functions_, hrun, hgenerate, hdeclare, hcorrect⟩

end mf.visitors
