-- The functions of the finished module: a call of one does what its body
-- means, and the function `main` prints what a call of the program's does.
import MiniFunctional.EmittedCases
import MiniFunctional.InterpreterSafety

open mf.util mf.ast mf.parsing llvm
open mf.semantics hiding Frame

namespace mf.visitors

variable {M : Module} {t : ScopeTree} {types : TypeTable} {program : Program} {τ : Typing}
  {functions_ : AssocMap SymbolId Nat} {constructors_ : AssocMap SymbolId ConstructorLayout}
  {locals : List SymbolId} {L : Locals} {g : GeneratorState}

/-! ## Bodies -/

theorem emitted_parameters {sid : ScopeId} {index : Nat} {names : List String}
    {Ts : List TypeVariant} (hL : Holds locals L g) :
    Ensures (bindParameters t sid index names Ts) g (fun _ => True) fun _ g' =>
      ∃ L', Holds (t.symbolsIn sid names ++ locals) L' g' ∧ g'.builder = g.builder ∧
        g'.functions = g.functions ∧ ∀ frame : llvm.Frame, cellsOf frame L' =
          Meaning.bindParameters t sid frame.arguments index names (cellsOf frame L) := by
  induction names generalizing index Ts locals L g with
  | nil => exact ensures_pure () ⟨L, hL, rfl, rfl, fun _ => rfl⟩
  | cons name names ih =>
    cases Ts with
    | nil => exact ensures_throw trivial
    | cons T Ts =>
      simp only [bindParameters, Meaning.bindParameters]
      cases hs : t.getLocalSymbol sid name with
      | none => exact ensures_throw trivial
      | some s =>
        have hsymbols : t.symbolsIn sid (name :: names) = s.id :: t.symbolsIn sid names := by
          simp [ScopeTree.symbolsIn, hs]
        have hvalue : (⟨.argument index, T⟩ : TypedValue).value.Below g.builder.next := trivial
        refine ensures_bind (ensures_setLocal ?_)
        refine (ih (hL.bind hvalue)).mono fun _ g' h' => ?_
        obtain ⟨L', hL', hbuilder, hfunctions, hcells⟩ := h'
        refine ⟨L', hL'.mono ?_, hbuilder, hfunctions, fun frame => ?_⟩
        · rw [hsymbols]
          intro s' hs'
          simp only [List.cons_append, List.mem_cons, List.mem_append] at hs' ⊢
          tauto
        · rw [hcells, cellsOf_bind]
          rfl

section

variable (M t functions_ constructors_)

/-- The code of the function is that of the definition. -/
def BodyOf (fd : FunctionDefinition) (sid : ScopeId) (blocks : List BasicBlock) : Prop :=
  ∃ b op, blocks = (Builder.terminate (.ret op) b).blocks ∧
    Codes M .entry b (fun frame => Meaning.functionBody (callBehaviour M) t functions_
      constructors_ fd sid frame.arguments) fun v frame => frame.eval op = v

end

theorem BodyOf.call {fd : FunctionDefinition} {sid : ScopeId} {F : llvm.Function} {n : Nat}
    (h : BodyOf M t functions_ constructors_ fd sid F.blocks) (hF : M.functions[n]? = some F)
    (arguments : List Val) :
    callBehaviour M n arguments =
      Meaning.functionBody (callBehaviour M) t functions_ constructors_ fd sid arguments := by
  obtain ⟨b, op, hblocks, hcodes⟩ := h
  exact hcodes.call hF hblocks arguments

theorem emitted_functionBody (hlinked : Linked M types functions_) {fd : FunctionDefinition}
    {signature : FunctionSignature} {sid : ScopeId} (hsid : t.getScopeId fd.id = some sid)
    (hscoped : t.WellScoped fd.body (t.parameterSymbols fd))
    (hapart : Apart (t.boundIn fd.body) (t.parameterSymbols fd)) (n : Nat) :
    Ensures (emitFunctionBody t types functions_ constructors_ fd signature sid n) g
      (fun _ => True) fun _ g' => ∃ blocks,
        g'.functions = g.functions.modify n (fun F => { F with blocks }) ∧
        BodyOf M t functions_ constructors_ fd sid blocks := by
  unfold emitFunctionBody
  refine ensures_bind (ensures_startFunction ?_)
  have hL : Holds [] (fun _ => none) { g with builder := .entry } :=
    ⟨by simp, fun _ _ hs => by cases hs⟩
  refine ensures_bind ((emitted_parameters hL).mono fun _ g1 h1 => ?_)
  obtain ⟨L, hL1, hbuilder, hfunctions, hcells⟩ := h1
  have hsymbols : t.parameterSymbols fd = t.symbolsIn sid fd.parameters := by
    simp [ScopeTree.parameterSymbols, hsid]
  rw [List.append_nil, ← hsymbols] at hL1
  have hopen : g1.builder.Open := by
    rw [hbuilder]
    exact ⟨.empty, rfl, rfl⟩
  refine ensures_bind (((translated hlinked fd.body).1 _ L g1 hscoped hapart hopen hL1).mono
    fun body g2 h2 => ensures_bind (ensures_withBuilder ?_))
  refine ⟨(g2.builder.terminate (.ret body.value)).blocks, ?_, g2.builder, body.value, rfl, ?_⟩
  · simp only [h2.binds.functions, hfunctions]
  · have hcodes := h2.value
    rw [hbuilder] at hcodes
    refine hcodes.congr fun frame => ?_
    unfold meaningOf
    rw [hcells]
    rfl

theorem emitted_function (h : Checked t program types τ) (hlinked : Linked M types functions_)
    {fd : FunctionDefinition} (hfd : .FunctionDefinition fd ∈ program.definitions) {s : Symbol}
    {n : Nat} (hs : t.getLocalSymbol ScopeTree.getRootScopeId fd.name = some s)
    (hn : functions_.find s.id = some n) :
    Ensures (defineFunction t types functions_ constructors_ fd) g (fun _ => True) fun _ g' =>
      ∃ sid blocks, t.getScopeId fd.id = some sid ∧
        g'.functions = g.functions.modify n (fun F => { F with blocks }) ∧
        BodyOf M t functions_ constructors_ fd sid blocks := by
  obtain ⟨s', signature, hs', hsignature, _, ⟨sid, hsid, _⟩, _⟩ := h.functions fd hfd
  rw [hs] at hs'
  cases hs'
  obtain ⟨⟨s', hs', hkind, _⟩, _, hscoped⟩ := h.scopes.functions fd hfd
  rw [hs] at hs'
  cases hs'
  have hroot : getRootSymbol t fd.name .Function = some s :=
    Option.filter_eq_some_iff.mpr ⟨hs, by simpa using hkind⟩
  unfold defineFunction
  simp only [hroot, hn, hsignature, hsid]
  refine ensures_bind (ensures_setLocals ?_)
  refine (emitted_functionBody hlinked hsid hscoped (function_apart h hfd) n).mono
    fun _ g' hg' => ?_
  obtain ⟨blocks, hfunctions, hbody⟩ := hg'
  exact ⟨sid, blocks, rfl, hfunctions, hbody⟩

/-- The functions when the definitions in `done` have been gone through. -/
structure Built (M : Module) (t : ScopeTree) (functions_ : AssocMap SymbolId Nat)
    (constructors_ : AssocMap SymbolId ConstructorLayout) (done : List Definition)
    (declared functions : List llvm.Function) : Prop where
  parameters : functions.map (·.parameters) = declared.map (·.parameters)
  bodies : ∀ fd, .FunctionDefinition fd ∈ done → ∀ s n,
    t.getLocalSymbol ScopeTree.getRootScopeId fd.name = some s → functions_.find s.id = some n →
    ∃ sid F, t.getScopeId fd.id = some sid ∧ functions[n]? = some F ∧
      BodyOf M t functions_ constructors_ fd sid F.blocks

theorem Built.found {done : List Definition} {declared functions : List llvm.Function}
    (h : Built M t functions_ constructors_ done declared functions) {n : Nat}
    {F : llvm.Function} (hF : declared[n]? = some F) :
    ∃ F', functions[n]? = some F' ∧ F'.parameters = F.parameters := by
  have hmap := congrArg (·[n]?) h.parameters
  simp only [List.getElem?_map, hF, Option.map_some] at hmap
  exact Option.map_eq_some_iff.mp hmap

theorem built_functions (h : Checked t program types τ) (hlinked : Linked M types functions_)
    {declared : List llvm.Function} (hdeclarations : Declarations t types functions_ declared)
    (hcomplete : ∀ fd, .FunctionDefinition fd ∈ program.definitions → ∀ symbol,
      t.getLocalSymbol ScopeTree.getRootScopeId fd.name = some symbol →
      ∃ n, functions_.find symbol.id = some n)
    {definitions done : List Definition} (hdefinitions : ∀ d ∈ definitions, d ∈ program.definitions)
    (hdone : ∀ d ∈ done, d ∈ program.definitions)
    (hg : Built M t functions_ constructors_ done declared g.functions) :
    Ensures (defineFunctions t types functions_ constructors_ definitions) g (fun _ => True)
      fun _ g' => Built M t functions_ constructors_ (done ++ definitions) declared
        g'.functions := by
  induction definitions generalizing g done with
  | nil =>
    rw [List.append_nil]
    exact ensures_pure () hg
  | cons d definitions ih =>
    have hd := hdefinitions d List.mem_cons_self
    have hrest := fun d' hd' => hdefinitions d' (List.mem_cons_of_mem d hd')
    have hdone' : ∀ d' ∈ done ++ [d], d' ∈ program.definitions := by
      intro d' hd'
      rcases List.mem_append.mp hd' with hd' | hd'
      · exact hdone d' hd'
      · rw [List.mem_singleton.mp hd']
        exact hd
    rw [show done ++ d :: definitions = (done ++ [d]) ++ definitions by simp]
    cases d with
    | DataTypeDefinition dt =>
      simp only [defineFunctions]
      refine ih hrest hdone' ⟨hg.parameters, fun fd hfd => hg.bodies fd ?_⟩
      simpa using hfd
    | FunctionDefinition fd =>
      obtain ⟨s, _, hs, _⟩ := h.functions fd hd
      obtain ⟨n, hn⟩ := hcomplete fd hd s hs
      simp only [defineFunctions]
      refine ensures_bind ((emitted_function h hlinked hd hs hn).mono
        fun _ g1 h1 => ih hrest hdone' ?_)
      obtain ⟨sid, blocks, hsid, hfunctions, hbody⟩ := h1
      refine ⟨?_, ?_⟩
      · rw [hfunctions, map_modify_blocks fun _ _ => rfl]
        exact hg.parameters
      · intro fd' hfd' s' n' hs' hn'
        rw [hfunctions]
        by_cases heq : n = n'
        · subst heq
          obtain rfl := function_unique h (hdone' _ hfd') hd hs' hs
            (hdeclarations.distinct _ _ n hn' hn)
          obtain ⟨F0, hF0, _⟩ := hdeclarations.sound _ n hn
          obtain ⟨F, hF, _⟩ := hg.found hF0
          refine ⟨sid, { F with blocks }, hsid, ?_, hbody⟩
          rw [List.getElem?_modify_eq, hF]
          rfl
        · rw [List.getElem?_modify_ne _ _ heq]
          rcases List.mem_append.mp hfd' with hfd' | hfd'
          · exact hg.bodies fd' hfd' s' n' hs' hn'
          · cases List.mem_singleton.mp hfd'
            rw [hs] at hs'
            cases hs'
            rw [hn] at hn'
            cases hn'
            exact absurd rfl heq

/-- The function `main` of the module calls the program's and prints the value. -/
def MainOf (M : Module) (n : Nat) (T : TypeVariant) (F : llvm.Function) : Prop :=
  F.name = "main" ∧ F.parameters = [] ∧
    ∃ b, F.blocks = (Builder.terminate (.ret (.int32 0)) b).blocks ∧
      Codes M .entry b (fun _ => callBehaviour M n [] >>= fun v => Meaning.print v T >>= fun _ =>
        pure (.int32 0)) fun v frame => frame.eval (.int32 0) = v

theorem emitted_print {value : Operand} (T : TypeVariant) (hopen : g.builder.Open) :
    Ensures (emitPrint value T) g (fun _ => True) fun _ g' => g'.functions = g.functions ∧
      Codes M g.builder g'.builder (fun frame => Meaning.print (frame.eval value) T)
        fun _ _ => True := by
  unfold Meaning.print
  cases T with
  | IntType =>
    refine ensures_bind (ensures_withBuilder (ensures_pure () ⟨rfl, ?_⟩))
    exact (codes_printf hopen value).mono fun _ _ _ => trivial
  | DataType d =>
    refine ensures_bind ((emitted_loadTag M hopen value).mono fun tag g1 h1 => ?_)
    refine ensures_bind (ensures_withBuilder (ensures_pure () ⟨h1.functions, ?_⟩))
    refine (h1.codes.bind (codes_printf h1.toEmitted.opened tag) (G := fun _ v =>
      Behaviour.printf v) fun _ _ v _ hv => ?_).mono fun _ _ _ => trivial
    rw [hv]
  | FunctionType P R => exact ensures_throw trivial

theorem emitted_main (hlinked : Linked M types functions_) :
    Ensures (defineMain t types functions_) g (fun _ => True) fun _ g' =>
      ∃ s n signature F, t.getLocalSymbol ScopeTree.getRootScopeId "main" = some s ∧
        s.kind = .Function ∧ functions_.find s.id = some n ∧
        types.getFunctionSignature s.id = some signature ∧
        signature.parameters = [] ∧ g'.functions = g.functions ++ [F] ∧
        MainOf M n signature.result F := by
  unfold defineMain
  cases hroot : getRootSymbol t "main" .Function with
  | none => exact ensures_throw trivial
  | some s =>
    simp only
    cases hn : functions_.find s.id with
    | none => exact ensures_throw trivial
    | some n =>
      simp only
      cases hfilter : (types.getFunctionSignature s.id).filter (·.parameters.isEmpty) with
      | none => exact ensures_throw trivial
      | some signature =>
        obtain ⟨hs, hkind⟩ := Option.filter_eq_some_iff.mp hroot
        obtain ⟨hsignature, hempty⟩ := Option.filter_eq_some_iff.mp hfilter
        obtain ⟨callee, hcallee, hparameters⟩ := hlinked _ _ _ hn hsignature
        simp only
        have hnone : signature.parameters = [] := List.isEmpty_iff.mp hempty
        have hlen : callee.parameters.length = ([] : List Operand).length := by
          rw [hparameters, hnone]
          rfl
        have hentry : Builder.entry.Open := ⟨.empty, rfl, rfl⟩
        have hcall := codes_call hentry hcallee hlen
        refine ensures_bind (ensures_createMain (ensures_bind (ensures_startFunction ?_)))
        refine ensures_bind (ensures_withBuilder (ensures_bind ((emitted_print (M := M)
          signature.result ?_).mono fun _ g2 h2 => ?_)))
        · exact hcall.emits.opened
        obtain ⟨hfunctions, hprint⟩ := h2
        refine ensures_bind (ensures_withBuilder ?_)
        refine ⟨s, n, signature,
          ⟨"main", .i32, [], (g2.builder.terminate (.ret (.int32 0))).blocks⟩,
          hs, by simpa using hkind, hn, hsignature, hnone, ?_, rfl, rfl, g2.builder, rfl, ?_⟩
        · simp only [hfunctions]
          exact modify_last _ _ _
        · have hreturn : Codes M g2.builder g2.builder (fun _ => pure (.int32 0))
              fun v frame => frame.eval (.int32 0) = v := .pure hprint.emits.opened _ fun _ => rfl
          have hrest := hprint.bind hreturn (G := fun _ _ => pure (.int32 0)) fun _ _ _ _ _ => rfl
          refine hcall.bind hrest (G := fun _ v => Meaning.print v signature.result >>= fun _ =>
            pure (.int32 0)) fun frame frame1 v _ hv => ?_
          rw [← hv]
          rfl

/-- What the finished module has for a program. -/
structure Generated (t : ScopeTree) (types : TypeTable) (program : Program)
    (functions_ : AssocMap SymbolId Nat) (constructors_ : AssocMap SymbolId ConstructorLayout)
    (M : Module) : Prop where
  linked : Linked M types functions_
  declared : ∀ fd, .FunctionDefinition fd ∈ program.definitions → ∀ s,
    t.getLocalSymbol ScopeTree.getRootScopeId fd.name = some s →
    ∃ n sid F, functions_.find s.id = some n ∧ t.getScopeId fd.id = some sid ∧
      M.functions[n]? = some F ∧ BodyOf M t functions_ constructors_ fd sid F.blocks
  main : ∃ s n signature F, t.getLocalSymbol ScopeTree.getRootScopeId "main" = some s ∧
    s.kind = .Function ∧ functions_.find s.id = some n ∧
    types.getFunctionSignature s.id = some signature ∧ signature.parameters = [] ∧
    M.functions.getLast? = some F ∧ MainOf M n signature.result F

theorem linked_declarations {declared functions more : List llvm.Function}
    (hdeclarations : Declarations t types functions_ declared)
    (hparameters : functions.map (·.parameters) = declared.map (·.parameters)) :
    Linked ⟨functions ++ more⟩ types functions_ := by
  intro s n signature hn hsignature
  obtain ⟨F0, hF0, signature', hsignature', htypes, _⟩ := hdeclarations.sound s n hn
  rw [hsignature] at hsignature'
  cases hsignature'
  have hmap := congrArg (·[n]?) hparameters
  simp only [List.getElem?_map, hF0, Option.map_some] at hmap
  obtain ⟨F, hF, heq⟩ := Option.map_eq_some_iff.mp hmap
  have hlt := (List.getElem?_eq_some_iff.mp hF).1
  refine ⟨F, (List.getElem?_append_left hlt).trans hF, ?_⟩
  rw [heq, ← htypes.length_eq]

/-- The functions have the code of a program, whichever module `M` they are put in. -/
structure HasCode (t : ScopeTree) (types : TypeTable) (program : Program)
    (functions_ : AssocMap SymbolId Nat) (constructors_ : AssocMap SymbolId ConstructorLayout)
    (functions : List llvm.Function) (M : Module) : Prop where
  declared : ∀ fd, .FunctionDefinition fd ∈ program.definitions → ∀ s,
    t.getLocalSymbol ScopeTree.getRootScopeId fd.name = some s →
    ∃ n sid F, functions_.find s.id = some n ∧ t.getScopeId fd.id = some sid ∧
      functions[n]? = some F ∧ BodyOf M t functions_ constructors_ fd sid F.blocks
  main : ∃ s n signature F, t.getLocalSymbol ScopeTree.getRootScopeId "main" = some s ∧
    s.kind = .Function ∧ functions_.find s.id = some n ∧
    types.getFunctionSignature s.id = some signature ∧ signature.parameters = [] ∧
    functions.getLast? = some F ∧ MainOf M n signature.result F

/-- A module may call the generated functions when the declared ones are there. -/
theorem generated_code (h : Checked t program types τ)
    (hgenerate : generateModule program t types = .ok M) :
    ∃ functions functions_, declareFunctions t types program = .ok (functions, functions_) ∧
      Linked M types functions_ ∧ ∀ M', Linked M' types functions_ →
        HasCode t types program functions_ (registerConstructors t types program)
          M.functions M' := by
  obtain ⟨functions, functions_, hdeclare, hdeclarations, hcomplete⟩ := declareFunctions_spec h
  refine ⟨functions, functions_, hdeclare, ?_⟩
  -- what the run leaves, for a module to which the declared functions belong
  have hrun : ∀ M', Linked M' types functions_ → Ensures (do
      defineFunctions t types functions_ (registerConstructors t types program) program.definitions
      defineMain t types functions_) ⟨functions, .entry, .empty⟩ (fun _ => True) fun _ g' =>
        ∃ fs s n signature F, Built M' t functions_ (registerConstructors t types program)
          program.definitions functions fs ∧ g'.functions = fs ++ [F] ∧
          t.getLocalSymbol ScopeTree.getRootScopeId "main" = some s ∧ s.kind = .Function ∧
          functions_.find s.id = some n ∧ types.getFunctionSignature s.id = some signature ∧
          signature.parameters = [] ∧ MainOf M' n signature.result F := by
    intro M' hlinked
    have hstart : Built M' t functions_ (registerConstructors t types program) [] functions
        functions := ⟨rfl, by simp⟩
    refine ensures_bind ((built_functions h hlinked hdeclarations hcomplete (fun _ hd => hd)
      (by simp) hstart).mono fun _ g1 hg1 => ?_)
    refine (emitted_main hlinked).mono fun _ g2 h2 => ?_
    obtain ⟨s, n, signature, F, hs, hkind, hn, hsignature, hnone, hfunctions, hmain⟩ := h2
    exact ⟨_, s, n, signature, F, hg1, hfunctions, hs, hkind, hn, hsignature, hnone, hmain⟩
  unfold generateModule at hgenerate
  simp only [hdeclare] at hgenerate
  have hbind : ((do
      defineFunctions t types functions_ (registerConstructors t types program) program.definitions
      defineMain t types functions_ : Gen Unit) ⟨functions, .entry, .empty⟩ >>= fun r =>
        Except.ok (⟨r.2.functions⟩ : Module)) = .ok M := hgenerate
  cases hresult : (do
      defineFunctions t types functions_ (registerConstructors t types program) program.definitions
      defineMain t types functions_ : Gen Unit) ⟨functions, .entry, .empty⟩ with
  | error e =>
    rw [hresult] at hbind
    cases hbind
  | ok r =>
    rw [hresult] at hbind
    cases hbind
    have hdeclared : Linked ⟨functions ++ []⟩ types functions_ :=
      linked_declarations hdeclarations rfl
    obtain ⟨fs, _, _, _, F, hbuilt, hfunctions, _⟩ := (hrun _ hdeclared).of_ok hresult
    constructor
    · rw [hfunctions]
      exact linked_declarations hdeclarations hbuilt.parameters
    · intro M' hlinked
      obtain ⟨fs', s, n, signature, F', hbuilt', hfunctions', hs, hkind, hn, hsignature, hnone,
        hmain⟩ := (hrun M' hlinked).of_ok hresult
      refine ⟨fun fd hfd symbol hsymbol => ?_, s, n, signature, F', hs, hkind, hn, hsignature,
        hnone, by simp [hfunctions'], hmain⟩
      obtain ⟨m, hm⟩ := hcomplete fd hfd symbol hsymbol
      obtain ⟨sid, G, hsid, hG, hbody⟩ := hbuilt'.bodies fd hfd symbol m hsymbol hm
      refine ⟨m, sid, G, hm, hsid, ?_, hbody⟩
      rw [hfunctions']
      have hlt := (List.getElem?_eq_some_iff.mp hG).1
      exact (List.getElem?_append_left hlt).trans hG

theorem generated (h : Checked t program types τ)
    (hgenerate : generateModule program t types = .ok M) :
    ∃ functions functions_, declareFunctions t types program = .ok (functions, functions_) ∧
      Generated t types program functions_ (registerConstructors t types program) M := by
  obtain ⟨functions, functions_, hdeclare, hlinked, hcode⟩ := generated_code h hgenerate
  obtain ⟨hdeclared, hmain⟩ := hcode M hlinked
  exact ⟨functions, functions_, hdeclare, hlinked, hdeclared, hmain⟩

end mf.visitors
