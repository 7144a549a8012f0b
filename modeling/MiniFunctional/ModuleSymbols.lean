-- The symbols of a generated module: a function for each of the program, in
-- order, and `main`. Their names are distinct, so that none is renamed.
import MiniFunctional.CompilerCorrectness
import MiniFunctional.EmissionCost

open mf.util mf.ast mf.parsing mf.tokenization llvm ExceptLaws
open mf.semantics hiding Frame

namespace mf.visitors

open ScopeTree

/-! ## Names -/

theorem mangle_toList (symbol : Symbol) : (mangle symbol).toList =
    'm' :: 'f' :: '.' :: (Nat.toDigits 10 symbol.id ++ '.' :: symbol.name.toList) := by
  unfold mangle
  simp [String.toList_append]

/-- A name tells the id: its digits end at the first dot. -/
theorem mangle_id {symbol symbol' : Symbol} (h : mangle symbol = mangle symbol') :
    symbol.id = symbol'.id := by
  have hchars := congrArg String.toList h
  rw [mangle_toList, mangle_toList] at hchars
  simp only [List.cons.injEq, true_and] at hchars
  have hdigits : ∀ n, ∀ c ∈ Nat.toDigits 10 n, (c != '.') = true := by
    intro n c hc
    have hdigit := Nat.isDigit_of_mem_toDigits (by decide) (by decide) hc
    rw [bne_iff_ne]
    rintro rfl
    cases hdigit
  have htake := congrArg (List.takeWhile (· != '.')) hchars
  rw [List.takeWhile_append_of_pos (hdigits _), List.takeWhile_append_of_pos (hdigits _)] at htake
  simp only [List.takeWhile_cons, bne_self_eq_false, Bool.false_eq_true, if_false,
    List.append_nil] at htake
  have hnumber := congrArg (fun digits => Nat.ofDigitChars 10 digits 0) htake
  simpa using hnumber

/-- What the generator declares of the C library and of LLVM. -/
def libraryNames : List String := ["malloc", "printf", "llvm.trap"]

theorem mangle_ne (symbol : Symbol) : mangle symbol ∉ "main" :: libraryNames := by
  intro h
  unfold libraryNames at h
  simp only [List.mem_cons, List.not_mem_nil, or_false] at h
  have hchars := mangle_toList symbol
  rcases h with h | h | h | h
  · rw [h] at hchars
    cases hchars
  · rw [h] at hchars
    cases hchars
  · rw [h] at hchars
    cases hchars
  · rw [h] at hchars
    cases hchars

/-! ## Declarations -/

def functionsOf : List Definition → List FunctionDefinition
  | [] => []
  | .FunctionDefinition fd :: definitions => fd :: functionsOf definitions
  | .DataTypeDefinition _ :: definitions => functionsOf definitions

theorem mem_functionsOf {definitions : List Definition} {fd : FunctionDefinition} :
    fd ∈ functionsOf definitions ↔ .FunctionDefinition fd ∈ definitions := by
  induction definitions with
  | nil => simp [functionsOf]
  | cons d definitions ih =>
    cases d with
    | FunctionDefinition fd' => simp [functionsOf, ih]
    | DataTypeDefinition dt => simp [functionsOf, ih]

/-- The function of the module is the one declared for the definition. -/
structure DeclaredAs (t : ScopeTree) (types : TypeTable) (fd : FunctionDefinition)
    (F : llvm.Function) : Prop where
  symbol : ∃ s, t.getLocalSymbol getRootScopeId fd.name = some s ∧ F.name = mangle s ∧
    DeclarationOf types s.id F
  parameters : F.parameters.length = fd.parameters.length

section

variable {t : ScopeTree} {program : Program} {types : TypeTable} {τ : Typing}

theorem declared_function (h : Checked t program types τ) {fd : FunctionDefinition}
    (hfd : .FunctionDefinition fd ∈ program.definitions)
    {s s' : List llvm.Function × AssocMap SymbolId Nat}
    (hrun : declareFunction t types s (.FunctionDefinition fd) = .ok s') :
    ∃ F, s'.1 = s.1 ++ [F] ∧ F.blocks = [] ∧ DeclaredAs t types fd F := by
  obtain ⟨symbol, signature, hsymbol, hsignature, _, ⟨_, _, hparameters⟩, _⟩ :=
    h.functions fd hfd
  obtain ⟨symbol', hsymbol', hkind, _⟩ := (h.scopes.functions fd hfd).1
  rw [hsymbol] at hsymbol'
  cases hsymbol'
  have hroot : getRootSymbol t fd.name .Function = some symbol :=
    Option.filter_eq_some_iff.mpr ⟨hsymbol, by simpa using hkind⟩
  obtain ⟨_, hground, _⟩ := h.firstOrder symbol.id signature hsignature
  obtain ⟨parameters, hmap, htypes⟩ := mapM_llvmType hground
  simp only [declareFunction, hroot, hsignature, hmap] at hrun
  obtain ⟨_, heq, hrun⟩ := bind_eq_ok.mp hrun
  cases heq
  obtain ⟨result, hresult, hrun⟩ := bind_eq_ok.mp hrun
  cases hrun
  refine ⟨_, rfl, rfl, ⟨symbol, hsymbol, rfl, signature, hsignature, htypes, hresult⟩, ?_⟩
  exact (hparameters.length_eq.trans htypes.length_eq).symm

/-- The declarations are those of the function definitions, in order. -/
theorem declared_inOrder (h : Checked t program types τ)
    {s : List llvm.Function × AssocMap SymbolId Nat}
    (hrun : declareFunctions t types program = .ok s) :
    (∀ F ∈ s.1, F.blocks = []) ∧
      List.Forall₂ (DeclaredAs t types) (functionsOf program.definitions) s.1 := by
  have hloop : ∀ (rest : List Definition) (s0 : List llvm.Function × AssocMap SymbolId Nat),
      (∀ d ∈ rest, d ∈ program.definitions) →
      rest.foldlM (declareFunction t types) s0 = .ok s →
      ∃ fs, s.1 = s0.1 ++ fs ∧ (∀ F ∈ fs, F.blocks = []) ∧
        List.Forall₂ (DeclaredAs t types) (functionsOf rest) fs := by
    intro rest
    induction rest with
    | nil =>
      intro s0 _ hrun
      cases hrun
      exact ⟨[], by simp, by simp, .nil⟩
    | cons d rest ih =>
      intro s0 hrest hrun
      rw [List.foldlM_cons] at hrun
      obtain ⟨s1, hrun1, hrun⟩ := bind_eq_ok.mp hrun
      obtain ⟨fs, hfs, hempty, hall⟩ :=
        ih s1 (fun d' hd' => hrest d' (List.mem_cons_of_mem d hd')) hrun
      cases d with
      | DataTypeDefinition dt =>
        cases hrun1
        exact ⟨fs, hfs, hempty, hall⟩
      | FunctionDefinition fd =>
        obtain ⟨F, hF, hblocks, hdeclared⟩ :=
          declared_function h (hrest _ List.mem_cons_self) hrun1
        refine ⟨F :: fs, by rw [hfs, hF, List.append_assoc, List.singleton_append], ?_,
          .cons hdeclared hall⟩
        intro F' hF'
        rcases List.mem_cons.mp hF' with rfl | hF'
        · exact hblocks
        · exact hempty F' hF'
  obtain ⟨fs, hfs, hempty, hall⟩ :=
    hloop program.definitions ([], .empty) (fun _ hd => hd) hrun
  rw [hfs]
  exact ⟨hempty, hall⟩

theorem functionsOf_nodup (hids : program.ids.Nodup) :
    (functionsOf program.definitions).Nodup := by
  unfold Program.ids at hids
  generalize program.definitions = definitions at hids
  induction definitions with
  | nil => exact List.nodup_nil
  | cons d definitions ih =>
    rw [List.flatMap_cons, List.nodup_append'] at hids
    cases d with
    | DataTypeDefinition dt => exact ih hids.2.1
    | FunctionDefinition fd =>
      unfold functionsOf
      rw [List.nodup_cons]
      refine ⟨fun hfd => hids.2.2 List.mem_cons_self ?_, ih hids.2.1⟩
      exact List.mem_flatMap.mpr ⟨_, mem_functionsOf.mp hfd, List.mem_cons_self⟩

/-- Two declarations of one name are of one function. -/
theorem DeclaredAs.unique (h : Checked t program types τ) {fd fd' : FunctionDefinition}
    {F F' : llvm.Function} (hfd : .FunctionDefinition fd ∈ program.definitions)
    (hfd' : .FunctionDefinition fd' ∈ program.definitions) (hF : DeclaredAs t types fd F)
    (hF' : DeclaredAs t types fd' F') (hname : F.name = F'.name) : fd = fd' := by
  obtain ⟨s, hs, hsname, _⟩ := hF.symbol
  obtain ⟨s', hs', hsname', _⟩ := hF'.symbol
  rw [hsname, hsname'] at hname
  exact function_unique h hfd hfd' hs hs' (mangle_id hname)

theorem declared_names (h : Checked t program types τ) {fds : List FunctionDefinition}
    {fs : List llvm.Function} (hall : List.Forall₂ (DeclaredAs t types) fds fs)
    (hfds : ∀ fd ∈ fds, .FunctionDefinition fd ∈ program.definitions) (hnodup : fds.Nodup) :
    (fs.map (·.name)).Nodup := by
  induction hall with
  | nil => exact List.nodup_nil
  | @cons fd F fds fs hF hall ih =>
    rw [List.nodup_cons] at hnodup
    rw [List.map_cons, List.nodup_cons]
    refine ⟨fun hin => ?_, ih (fun fd' hfd' => hfds fd' (List.mem_cons_of_mem _ hfd')) hnodup.2⟩
    obtain ⟨F', hF', hname⟩ := List.mem_map.mp hin
    have hflip : List.Forall₂ (fun F fd => DeclaredAs t types fd F) fs fds := hall.flip
    obtain ⟨fd', hfd', hdeclared⟩ := TypeAnalyzer.forall₂_mem hflip hF'
    obtain rfl := hF.unique h (hfds fd List.mem_cons_self)
      (hfds fd' (List.mem_cons_of_mem _ hfd')) hdeclared hname.symm
    exact hnodup.1 hfd'

/-! ## The module -/

/-- The functions of the module: those of the program, in order, and `main`. -/
structure DefinesAll (t : ScopeTree) (types : TypeTable) (program : Program) (M : Module) :
    Prop where
  functions : ∃ fs main, M.functions = fs ++ [main] ∧
    List.Forall₂ (DeclaredAs t types) (functionsOf program.definitions) fs ∧
    main.name = "main" ∧ main.result = .i32 ∧ main.parameters = []
  bodies : ∀ F ∈ M.functions, F.blocks ≠ []
  names : (M.functions.map (·.name)).Nodup
  apart : ∀ F ∈ M.functions, F.name ∉ libraryNames

theorem DeclaredAs.of_declaration {fd : FunctionDefinition} {F F' : llvm.Function}
    (hF : DeclaredAs t types fd F) (h : declarationOf F' = declarationOf F) :
    DeclaredAs t types fd F' := by
  have hname : (declarationOf F').name = (declarationOf F).name := by rw [h]
  have hparameters : (declarationOf F').parameters = (declarationOf F).parameters := by rw [h]
  have hresult : (declarationOf F').result = (declarationOf F).result := by rw [h]
  unfold declarationOf at hname hparameters hresult
  obtain ⟨s, hs, hsname, signature, hsignature, htypes, hresults⟩ := hF.symbol
  constructor
  · rw [← hname] at hsname
    rw [← hparameters] at htypes
    rw [← hresult] at hresults
    exact ⟨s, hs, hsname, signature, hsignature, htypes, hresults⟩
  · rw [hparameters]
    exact hF.parameters

variable {M : Module}

/-- What code is built in has a block. -/
theorem codes_blocks {α : Type} {b : Builder} {B : Frame → Behaviour α}
    {Q : α → Frame → Prop} (h : Codes M .entry b B Q) (op : Operand) :
    (Builder.terminate (.ret op) b).blocks ≠ [] := by
  have hgrows := h.emits.grows
  intro hnil
  have hlen := congrArg List.length hnil
  unfold Builder.terminate at hlen
  rw [List.length_modify] at hlen
  rw [List.length_nil] at hlen
  rw [hlen] at hgrows
  cases hgrows

/-- The functions of a generated module. -/
theorem generateModule_functions (h : Checked t program types τ)
    (hgenerate : generateModule program t types = .ok M) :
    ∃ functions functions_, declareFunctions t types program = .ok (functions, functions_) ∧
      M.functions.map declarationOf =
        functions.map declarationOf ++ [⟨"main", .i32, [], []⟩] ∧
      total Function.size M.functions ≤ total Function.size functions +
        14 * total Definition.bodyWords program.definitions + 9 := by
  obtain ⟨functions, functions_, hdeclare, _⟩ := declareFunctions_spec h
  refine ⟨functions, functions_, hdeclare, ?_⟩
  unfold generateModule at hgenerate
  simp only [hdeclare] at hgenerate
  obtain ⟨⟨functions', functions_'⟩, heq, hgenerate⟩ := bind_eq_ok.mp hgenerate
  cases heq
  obtain ⟨⟨_, g⟩, hrun, hgenerate⟩ := bind_eq_ok.mp hgenerate
  cases hgenerate
  have hbuilt : Ensures (do
      defineFunctions t types functions_ (registerConstructors t types program) program.definitions
      defineMain t types functions_) ⟨functions, .entry, .empty⟩ (fun _ => True) fun _ g' =>
        g'.functions.map declarationOf =
            functions.map declarationOf ++ [⟨"main", .i32, [], []⟩] ∧
          total Function.size g'.functions ≤ total Function.size functions +
            14 * total Definition.bodyWords program.definitions + 9 := by
    apply ensures_bind
    apply (enlarges_defineFunctions program.definitions _).mono
    rintro _ g1 ⟨hkept1, hsize1⟩
    apply ensures_defineMain.mono
    rintro _ g2 ⟨hkept2, hsize2⟩
    dsimp only at hkept1 hsize1
    rw [hkept1] at hkept2
    exact ⟨hkept2, by omega⟩
  exact hbuilt.of_ok hrun

theorem forall₂_of_declarations {fds : List FunctionDefinition} {fs fs' : List llvm.Function}
    (hall : List.Forall₂ (DeclaredAs t types) fds fs)
    (h : fs'.map declarationOf = fs.map declarationOf) :
    List.Forall₂ (DeclaredAs t types) fds fs' := by
  induction hall generalizing fs' with
  | nil =>
    rw [List.map_nil, List.map_eq_nil_iff] at h
    rw [h]
    exact .nil
  | cons hF _ ih =>
    rw [List.map_cons] at h
    obtain ⟨F', fs1, rfl, hF', hrest⟩ := List.map_eq_cons_iff.mp h
    exact .cons (hF.of_declaration hF') (ih hrest)

/-- Each declared function is defined. -/
theorem generated_bodies (h : Checked t program types τ)
    (hgenerate : generateModule program t types = .ok M) {fs : List llvm.Function}
    {main : llvm.Function} (hfs : M.functions = fs ++ [main])
    {functions : List llvm.Function} {functions_ : AssocMap SymbolId Nat}
    (hdeclare : declareFunctions t types program = .ok (functions, functions_))
    (hlen : fs.length = functions.length) : ∀ F ∈ M.functions, F.blocks ≠ [] := by
  obtain ⟨functions', functions_', hdeclare', hgenerated⟩ := generated h hgenerate
  rw [hdeclare] at hdeclare'
  cases hdeclare'
  intro F hF
  rw [hfs] at hF
  rcases List.mem_append.mp hF with hF | hF
  · obtain ⟨n, hn, hget⟩ := List.getElem_of_mem hF
    have honly := declareFunctions_only h hdeclare
    obtain ⟨id, hid⟩ := honly.places n (by rw [← hlen]; exact hn)
    obtain ⟨fd, hfd, symbol, hsymbol, rfl⟩ := honly.symbols id n hid
    obtain ⟨n', _, F', hn', _, hF', b, op, hblocks, hcodes⟩ :=
      hgenerated.declared fd hfd symbol hsymbol
    rw [hid] at hn'
    cases hn'
    rw [hfs, List.getElem?_append_left hn, List.getElem?_eq_getElem hn, hget] at hF'
    cases hF'
    rw [hblocks]
    exact codes_blocks hcodes op
  · obtain ⟨_, _, _, F', _, _, _, _, _, hlast, _, _, b, hblocks, hcodes⟩ := hgenerated.main
    rw [hfs, List.getLast?_concat] at hlast
    rw [List.mem_singleton.mp hF]
    cases hlast
    rw [hblocks]
    exact codes_blocks hcodes _

theorem definesAll (h : Checked t program types τ)
    (hgenerate : generateModule program t types = .ok M) : DefinesAll t types program M := by
  obtain ⟨functions, functions_, hdeclare, hmap, _⟩ := generateModule_functions h hgenerate
  obtain ⟨_, hdeclared⟩ := declared_inOrder h hdeclare
  obtain ⟨fs, rest, hfs, hkept, hrest⟩ := List.map_eq_append_iff.mp hmap
  obtain ⟨main, rfl, hmain⟩ := List.map_eq_singleton_iff.mp hrest
  have hall := forall₂_of_declarations hdeclared hkept
  have hname : (declarationOf main).name = "main" := by rw [hmain]
  have hresult : (declarationOf main).result = .i32 := by rw [hmain]
  have hparameters : (declarationOf main).parameters = [] := by rw [hmain]
  have hmangled : ∀ F ∈ fs, F.name ∉ "main" :: libraryNames := by
    intro F hF
    have hflip : List.Forall₂ (fun F fd => DeclaredAs t types fd F) fs _ := hall.flip
    obtain ⟨fd, _, hdeclared⟩ := TypeAnalyzer.forall₂_mem hflip hF
    obtain ⟨s, _, hs, _⟩ := hdeclared.symbol
    rw [hs]
    exact mangle_ne s
  constructor
  · exact ⟨fs, main, hfs, hall, hname, hresult, hparameters⟩
  · apply generated_bodies h hgenerate hfs hdeclare
    simpa using congrArg List.length hkept
  · rw [hfs, List.map_append, List.map_singleton, List.nodup_append']
    refine ⟨declared_names h hall (fun fd hfd => mem_functionsOf.mp hfd)
      (functionsOf_nodup h.ids), List.nodup_singleton _, ?_⟩
    intro name hin hlast
    obtain ⟨F, hF, rfl⟩ := List.mem_map.mp hin
    rw [List.mem_singleton.mp hlast] at hin
    have hne := hmangled F hF
    rw [List.mem_singleton.mp hlast] at hne
    apply hne
    rw [show main.name = "main" from hname]
    exact List.mem_cons_self
  · intro F hF
    rw [hfs] at hF
    rcases List.mem_append.mp hF with hF | hF
    · exact fun hin => hmangled F hF (List.mem_cons_of_mem _ hin)
    · rw [List.mem_singleton.mp hF, show main.name = "main" from hname]
      decide

end

variable {tokens : TokenVector} {p : ParsedProgram} {result : TypeAnalysisResult} {M : Module}

/-- A generated module defines every function of the program once, under a name of
its own. The tokens are the scanner's. -/
theorem module_symbols (hl : tokens.Lexed) (hp : parse tokens = .ok p) (hok : (analyze p).ok)
    (hrun : analyzeTypes p (analyze p) = some result) (hresult : result.ok)
    (hgenerate : generateModule p.ast (analyze p).scopes result.types = .ok M) :
    DefinesAll (analyze p).scopes result.types p.ast M := by
  obtain ⟨τ, h⟩ := checked hl hp hok hrun hresult
  exact definesAll h hgenerate

theorem module_symbols_box : ∃ result M,
    analyzeTypes boxProgram (analyze boxProgram) = some result ∧
      generateModule boxProgram.ast (analyze boxProgram).scopes result.types = .ok M ∧
      DefinesAll (analyze boxProgram).scopes result.types boxProgram.ast M := by
  obtain ⟨result, M, hrun, hresult, hgenerate⟩ := boxProgram_generated
  exact ⟨result, M, hrun, hgenerate,
    module_symbols (show boxTokens.Lexed by decide) rfl rfl hrun hresult hgenerate⟩

end mf.visitors
