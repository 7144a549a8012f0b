-- The modules that the generator makes of accepted programs are well formed, and
-- nothing is put after a terminator.
import MiniFunctional.CaseLowering
import MiniFunctional.CertifiedCases
import MiniFunctional.ModuleSymbols

open mf.util mf.ast mf.parsing mf.tokenization llvm ExceptLaws
open mf.semantics hiding Frame

namespace mf.visitors

open ScopeTree

variable {M : Module} {parameters : List Ty} {result : Ty} {t : ScopeTree} {types : TypeTable}
  {program : Program} {τ : Typing} {functions_ : AssocMap SymbolId Nat}
  {constructors_ : AssocMap SymbolId ConstructorLayout} {locals : List SymbolId}
  {known : Known} {g : GeneratorState}

/-! ## Bodies -/

/-- Nothing is known where a function begins. -/
def nothingKnown : Known := fun _ _ => False

theorem at_entry {id k : Nat} {p : BlockId} {i : Instruction} :
    ¬ At Builder.entry.blocks id p k i := by
  intro hat
  obtain ⟨block, hblock, hk⟩ := hat
  have hempty : block = .empty := by
    have := List.mem_of_getElem? hblock
    simpa [Builder.entry] using this
  rw [hempty] at hk
  cases hk

theorem targetsOf_entry (p : BlockId) : targetsOf Builder.entry.blocks p = [] := by
  cases p with
  | zero => rfl
  | succ p => rfl

theorem certified_entry : Certified M parameters result .entry nothingKnown := by
  refine ⟨⟨fun id p k i p' k' i' hat => absurd hat at_entry, fun p c hc => ?_,
    fun id p k i hat => absurd hat at_entry, fun id p k type incoming hat => absurd hat at_entry,
    fun p block term hblock hterm => ?_⟩, fun id p k i hat => absurd hat at_entry, fun _ h => h,
    fun _ _ h => h.elim, fun _ _ _ _ h => h.elim, fun p c id hc => ?_, fun p => ?_⟩
  · rw [targetsOf_entry] at hc
    cases hc
  · have hempty : block = .empty := by
      have := List.mem_of_getElem? hblock
      simpa [Builder.entry] using this
    rw [hempty] at hterm
    cases hterm
  · rw [targetsOf_entry] at hc
    cases hc
  · rw [targetsOf_entry]
    exact List.nodup_nil

/-- A function of the module that has the blocks of the builder is well formed, and
nothing was put after a terminator. -/
structure BuildsFunction (M : Module) (parameters : List Ty) (result : Ty) (b : Builder) :
    Prop where
  function : ∀ F : llvm.Function, F.parameters = parameters → F.result = result →
    F.blocks = b.blocks → F.WellFormed M
  malformed : b.malformed = false

/-- A function ends with a return of its result. -/
theorem builds_ret {b : Builder}
    (h : Proceeds M parameters result .entry nothingKnown b known) {op : Operand}
    (hop : b.Usable M parameters known op (.of result)) :
    BuildsFunction M parameters result (b.terminate (.ret op)) := by
  have hret : (Terminator.ret op).Typed (b.Usable M parameters known) result := hop
  have hopen : Builder.entry.Open := ⟨.empty, rfl, rfl⟩
  have hcertified := certified_terminate h.certified h.opened hret
    (fun c hc => absurd hc List.not_mem_nil) List.nodup_nil
  have hregion := h.toRegion.terminate h.works h.opened hret
    (fun c hc => absurd hc List.not_mem_nil) List.nodup_nil
  refine ⟨fun F hparameters hresult hblocks => ⟨?_, fun block hblock => ?_, ?_⟩, ?_⟩
  · rw [hblocks]
    intro hnone
    have hlt := Nat.lt_of_lt_of_le hopen.lt hregion.grows
    rw [hnone] at hlt
    exact absurd hlt (Nat.not_lt_zero _)
  · rw [hblocks] at hblock
    obtain ⟨p, hp⟩ := List.getElem?_of_mem hblock
    -- the emission worked on all blocks of the function
    have hworks : Builder.entry.Works p := by
      by_cases hzero : p = 0
      · exact .inl hzero
      · exact .inr (Nat.pos_of_ne_zero hzero)
    exact hregion.closed p block hworks (fun hrest => hrest.2 hrest.1) hp
  · rw [hparameters, hresult, hblocks]
    exact hcertified.checked
  · exact hregion.malformed

theorem certified_parameters {sid : ScopeId} (done : List Ty) {names : List String}
    {Ts : List TypeVariant}
    (hT : List.Forall₂ (fun name T => ∃ p, t.getLocalSymbol sid name = some p ∧ τ p.id = T)
      names Ts)
    (hground : ∀ T ∈ Ts, containsFunctionType T = false)
    (hp : Positioned M (done ++ Ts.map lowerTy) result τ locals known g) :
    Ensures (bindParameters t sid done.length names Ts) g (fun _ => True) fun _ g' =>
      Positioned M (done ++ Ts.map lowerTy) result τ (t.symbolsIn sid names ++ locals) known g' ∧
        g'.builder = g.builder ∧ g'.functions = g.functions := by
  induction hT generalizing done locals g with
  | nil => exact ensures_pure () ⟨hp, rfl, rfl⟩
  | @cons name T names Ts hT _ ih =>
    obtain ⟨s, hs, rfl⟩ := hT
    have hsymbols : t.symbolsIn sid (name :: names) = s.id :: t.symbolsIn sid names := by
      simp [symbolsIn, hs]
    have hready : Ready M (done ++ (τ s.id :: Ts).map lowerTy) known g
        ⟨.argument done.length, τ s.id⟩ := by
      simp [Ready, Operand.Is]
    have hnext := hp.bind (v := ⟨.argument done.length, τ s.id⟩)
      (hground _ List.mem_cons_self) rfl hready
    rw [List.map_cons, List.append_cons] at hnext ⊢
    simp only [bindParameters, hs, hsymbols]
    refine ensures_bind (ensures_setLocal ?_)
    have hrest := ih (done ++ [lowerTy (τ s.id)])
      (fun T hT => hground T (List.mem_cons_of_mem _ hT)) hnext
    rw [List.length_append, List.length_singleton] at hrest
    refine hrest.mono fun _ g' hg' => ⟨hg'.1.mono ?_, hg'.2⟩
    intro s' hs'
    simp only [List.cons_append, List.mem_cons, List.mem_append] at hs' ⊢
    tauto

section

variable (h : Checked t program types τ) (hlayouts : Layouts t types program constructors_)
  (hdeclared : ∀ s, t.getSymbol s.id = some s → s.kind = .Function →
    ∃ n, functions_.find s.id = some n) (hlinked : LinkedTypes M types functions_)

include h hlayouts hdeclared hlinked

theorem certified_functionBody {fd : FunctionDefinition}
    (hfd : .FunctionDefinition fd ∈ program.definitions) {signature : FunctionSignature}
    (hground : ∀ T ∈ signature.parameters, containsFunctionType T = false) {sid : ScopeId}
    (hsid : t.getScopeId fd.id = some sid)
    (hT : List.Forall₂ (fun name T => ∃ p, t.getLocalSymbol sid name = some p ∧ τ p.id = T)
      fd.parameters signature.parameters)
    (hbody : HasType t program τ fd.body signature.result) (n : Nat) :
    Ensures (emitFunctionBody t types functions_ constructors_ fd signature sid n)
      { g with locals_ := .empty } (fun _ => True) fun _ g' =>
        g'.functions = g.functions.modify n (fun F => { F with blocks := g'.builder.blocks }) ∧
        BuildsFunction M (signature.parameters.map lowerTy) (lowerTy signature.result)
          g'.builder := by
  unfold emitFunctionBody
  refine ensures_bind (ensures_startFunction ?_)
  have hstart : Positioned M (signature.parameters.map lowerTy) (lowerTy signature.result) τ []
      nothingKnown { g with locals_ := .empty, builder := .entry } :=
    ⟨⟨⟨.empty, rfl, rfl⟩, certified_entry⟩, fun s hs => absurd hs List.not_mem_nil,
      fun s hs => absurd hs List.not_mem_nil⟩
  have hsymbols : t.parameterSymbols fd = t.symbolsIn sid fd.parameters := by
    simp [parameterSymbols, hsid]
  apply ensures_bind
  refine (certified_parameters [] hT hground hstart).mono fun _ g1 h1 => ?_
  obtain ⟨hp1, hbuilder, hfunctions⟩ := h1
  rw [List.append_nil, ← hsymbols] at hp1
  obtain ⟨_, _, hscoped⟩ := h.scopes.functions fd hfd
  apply ensures_bind
  refine ((certified_expression h hlayouts hdeclared hlinked fd.body).1 _ _ g1 _ hscoped hbody
    (function_apart h hfd) hp1).mono fun body g2 h2 => ?_
  obtain ⟨⟨htype, _, hb2⟩, known2, hready, hc2⟩ := h2
  rw [Ready, htype] at hready
  rw [hbuilder] at hc2
  refine ensures_bind (ensures_withBuilder ⟨?_, builds_ret hc2 hready⟩)
  simp only [hb2.functions, hfunctions]

theorem certified_function {fd : FunctionDefinition}
    (hfd : .FunctionDefinition fd ∈ program.definitions) {s : Symbol} {n : Nat}
    (hs : t.getLocalSymbol getRootScopeId fd.name = some s) (hn : functions_.find s.id = some n) :
    ∃ signature, types.getFunctionSignature s.id = some signature ∧
      Ensures (defineFunction t types functions_ constructors_ fd) g (fun _ => True) fun _ g' =>
        g'.functions = g.functions.modify n (fun F => { F with blocks := g'.builder.blocks }) ∧
        BuildsFunction M (signature.parameters.map lowerTy) (lowerTy signature.result)
          g'.builder := by
  obtain ⟨s', signature, hs', hsignature, _, ⟨sid, hsid, hT⟩, hbody⟩ := h.functions fd hfd
  rw [hs] at hs'
  cases hs'
  obtain ⟨⟨s', hs', hkind, _⟩, _, _⟩ := h.scopes.functions fd hfd
  rw [hs] at hs'
  cases hs'
  have hroot : getRootSymbol t fd.name .Function = some s :=
    Option.filter_eq_some_iff.mpr ⟨hs, by simpa using hkind⟩
  obtain ⟨_, hground, _⟩ := h.firstOrder s.id signature hsignature
  refine ⟨signature, hsignature, ?_⟩
  unfold defineFunction
  simp only [hroot, hn, hsignature, hsid]
  refine ensures_bind (ensures_setLocals ?_)
  exact certified_functionBody h hlayouts hdeclared hlinked hfd hground hsid hT hbody n

end

theorem certified_print {value : Operand} {T : TypeVariant}
    (h : Sound M parameters result known g)
    (hvalue : g.builder.Usable M parameters known value (.of (lowerTy T))) :
    Ensures (emitPrint value T) g (fun _ => True) fun _ g' =>
      Passes M parameters result known g g' := by
  have hprintf : ∀ {g1 : GeneratorState} {op : Operand} {type : Ty},
      Sound M parameters result known g1 → g1.builder.Usable M parameters known op (.of type) →
      Ensures (createInstruction (.call .printf [.globalString "%ld\n", op])) g1 (fun _ => True)
        fun _ g2 => Passes M parameters result known g1 g2 := by
    intro g1 op type h1 hop
    refine passes_instruction h1 _ trivial ⟨_, [op], rfl, rfl, fun v hv => ?_⟩
    rw [List.mem_singleton.mp hv]
    exact ⟨type, hop⟩
  cases T with
  | IntType =>
    apply ensures_bind
    exact (hprintf h hvalue).mono fun _ g1 h1 => ensures_pure () h1
  | DataType d =>
    apply ensures_bind
    refine (computes_loadTag h hvalue).mono fun tag g1 h1 => ?_
    apply ensures_bind
    exact (hprintf h1.sound h1.usable).mono fun _ g2 h2 => ensures_pure () (h1.trans h2)
  | FunctionType P R => exact ensures_throw trivial

/-- The function `main` comes last. -/
theorem certified_main (hlinked : LinkedTypes M types functions_) :
    Ensures (defineMain t types functions_) g (fun _ => True) fun _ g' =>
      g'.functions = g.functions ++ [⟨"main", .i32, [], g'.builder.blocks⟩] ∧
        BuildsFunction M [] .i32 g'.builder := by
  unfold defineMain
  cases hroot : getRootSymbol t "main" .Function with
  | none => exact ensures_throw trivial
  | some s =>
    simp only
    cases hn : functions_.find s.id with
    | none => exact ensures_throw trivial
    | some n =>
      simp only
      cases hfilter : (types.getFunctionSignature s.id).filter (·.parameters.isEmpty) with
      | none => exact ensures_throw trivial
      | some signature =>
        obtain ⟨hsignature, hempty⟩ := Option.filter_eq_some_iff.mp hfilter
        have hnone : signature.parameters = [] := List.isEmpty_iff.mp hempty
        refine ensures_bind (ensures_createMain (ensures_bind (ensures_startFunction ?_)))
        have hstart : Sound M [] .i32 nothingKnown { g with
            functions := g.functions ++ [⟨"main", .i32, [], []⟩], builder := .entry } :=
          ⟨⟨.empty, rfl, rfl⟩, certified_entry⟩
        apply ensures_bind
        refine (computes_call hstart hlinked hn hsignature [] (by simp)
          (by simpa using hnone.symm)).mono fun value g1 h1 => ?_
        apply ensures_bind
        refine (certified_print h1.sound h1.usable).mono fun _ g2 h2 => ?_
        have h12 := h1.trans h2
        refine ensures_bind (ensures_withBuilder ⟨?_, builds_ret h12.proceeds rfl⟩)
        simp only [h12.binds.functions]
        exact modify_last _ _ _

/-! ## Modules -/

/-- The generator, for the program, has just emitted a function: that of a definition,
or `main`. -/
inductive JustEmitted (program : Program) (scopes : ScopeTree) (types : TypeTable) :
    GeneratorState → Prop
  | function {functions : List llvm.Function} {functions_ : AssocMap SymbolId Nat}
      {before after : List Definition} {fd : FunctionDefinition} {g : GeneratorState} :
    declareFunctions scopes types program = .ok (functions, functions_) →
    program.definitions = before ++ .FunctionDefinition fd :: after →
    defineFunctions scopes types functions_ (registerConstructors scopes types program)
      (before ++ [.FunctionDefinition fd]) ⟨functions, .entry, .empty⟩ = .ok ((), g) →
    JustEmitted program scopes types g
  | main {functions : List llvm.Function} {functions_ : AssocMap SymbolId Nat}
      {g g' : GeneratorState} :
    declareFunctions scopes types program = .ok (functions, functions_) →
    defineFunctions scopes types functions_ (registerConstructors scopes types program)
      program.definitions ⟨functions, .entry, .empty⟩ = .ok ((), g) →
    defineMain scopes types functions_ g = .ok ((), g') →
    JustEmitted program scopes types g'

theorem run_bind {α β : Type} {x : Gen α} {f : α → Gen β} {b : β} {g' : GeneratorState}
    (h : (x >>= f) g = .ok (b, g')) : ∃ a g1, x g = .ok (a, g1) ∧ f a g1 = .ok (b, g') := by
  have hbind : (x g >>= fun r => f r.1 r.2) = .ok (b, g') := h
  obtain ⟨⟨a, g1⟩, hx, hf⟩ := bind_eq_ok.mp hbind
  exact ⟨a, g1, hx, hf⟩

theorem defineFunctions_append (before after : List Definition) :
    defineFunctions t types functions_ constructors_ (before ++ after) = (do
      defineFunctions t types functions_ constructors_ before
      defineFunctions t types functions_ constructors_ after) := by
  induction before with
  | nil => simp [defineFunctions]
  | cons d before ih =>
    cases d with
    | DataTypeDefinition dt => simpa [defineFunctions] using ih
    | FunctionDefinition fd => simp [defineFunctions, ih]

theorem forall₂_lowerTy {Ts : List TypeVariant} {tys : List Ty} (h : LlvmTypes Ts tys) :
    tys = Ts.map lowerTy := by
  induction h with
  | nil => rfl
  | cons htype _ ih => rw [List.map_cons, ih, lowerTy_eq htype]

/-- The types of a declared function are those of the signature. -/
theorem DeclarationOf.header {id : SymbolId} {F : llvm.Function} {signature : FunctionSignature}
    (h : DeclarationOf types id F) (hsignature : types.getFunctionSignature id = some signature) :
    F.parameters = signature.parameters.map lowerTy ∧ F.result = lowerTy signature.result := by
  obtain ⟨signature', hsignature', hparameters, hresult⟩ := h
  rw [hsignature] at hsignature'
  cases hsignature'
  exact ⟨forall₂_lowerTy hparameters, lowerTy_eq hresult⟩

/-- The parameters and the result. -/
def header (F : llvm.Function) : List Ty × Ty := (F.parameters, F.result)

theorem found_header {declared functions : List llvm.Function}
    (hheaders : functions.map header = declared.map header) {n : Nat} {F : llvm.Function}
    (hF : declared[n]? = some F) : ∃ F', functions[n]? = some F' ∧
      F'.parameters = F.parameters ∧ F'.result = F.result := by
  have hmap := congrArg (·[n]?) hheaders
  simp only [List.getElem?_map, hF, Option.map_some] at hmap
  obtain ⟨F', hF', heq⟩ := Option.map_eq_some_iff.mp hmap
  exact ⟨F', hF', congrArg Prod.fst heq, congrArg Prod.snd heq⟩

theorem linkedTypes_declarations {declared functions : List llvm.Function}
    (more : List llvm.Function) (hdeclarations : Declarations t types functions_ declared)
    (hheaders : functions.map header = declared.map header) :
    LinkedTypes ⟨functions ++ more⟩ types functions_ := by
  intro id n signature hn hsignature
  obtain ⟨F, hF, hdeclaration⟩ := hdeclarations.sound id n hn
  obtain ⟨hparameters, hresult⟩ := hdeclaration.header hsignature
  obtain ⟨F', hF', hparameters', hresult'⟩ := found_header hheaders hF
  have hlt := (List.getElem?_eq_some_iff.mp hF').1
  exact ⟨F', (List.getElem?_append_left hlt).trans hF', hparameters'.trans hparameters,
    hresult'.trans hresult⟩

/-- The functions when the definitions in `done` have been gone through: those of the
definitions are well formed. -/
structure Assembled (M : Module) (t : ScopeTree) (types : TypeTable) (program : Program)
    (functions_ : AssocMap SymbolId Nat) (done : List Definition)
    (declared : List llvm.Function) (g : GeneratorState) : Prop where
  run : defineFunctions t types functions_ (registerConstructors t types program) done
    ⟨declared, .entry, .empty⟩ = .ok ((), g)
  headers : g.functions.map header = declared.map header
  bodies : ∀ fd, .FunctionDefinition fd ∈ done → ∀ s n,
    t.getLocalSymbol getRootScopeId fd.name = some s → functions_.find s.id = some n →
    ∃ F, g.functions[n]? = some F ∧ F.WellFormed M ∧
      ∃ g', JustEmitted program t types g' ∧ F.blocks = g'.builder.blocks

section

variable (h : Checked t program types τ) (hlinked : LinkedTypes M types functions_)
  {declared : List llvm.Function}
  (hdeclare : declareFunctions t types program = .ok (declared, functions_))
  (hdeclarations : Declarations t types functions_ declared)
  (hcomplete : ∀ fd, .FunctionDefinition fd ∈ program.definitions → ∀ symbol,
    t.getLocalSymbol getRootScopeId fd.name = some symbol → ∃ n, functions_.find symbol.id = some n)

include h hcomplete in
/-- Every function of the scopes is declared. -/
theorem functions_declared : ∀ s, t.getSymbol s.id = some s → s.kind = .Function →
    ∃ n, functions_.find s.id = some n := by
  intro s hs hkind
  obtain ⟨hlocal, _⟩ := h.rooted.find hs (by simp [isLocalKind, hkind])
  obtain ⟨fd, hfd, hname, _⟩ := function_declared h.scopes hlocal hkind
  exact hcomplete fd hfd s (by rw [hname]; exact hlocal)

include h hlinked hdeclare hdeclarations hcomplete

/-- One more function. -/
theorem Assembled.step {done rest : List Definition} {fd : FunctionDefinition}
    (hdone : program.definitions = done ++ .FunctionDefinition fd :: rest)
    (hg : Assembled M t types program functions_ done declared g) {g' : GeneratorState}
    (hrun : defineFunction t types functions_ (registerConstructors t types program) fd g =
      .ok ((), g')) :
    Assembled M t types program functions_ (done ++ [.FunctionDefinition fd]) declared g' := by
  have hfd : .FunctionDefinition fd ∈ program.definitions := by simp [hdone]
  obtain ⟨s, _, hs, _⟩ := h.functions fd hfd
  obtain ⟨n, hn⟩ := hcomplete fd hfd s hs
  obtain ⟨signature, hsignature, hspec⟩ := certified_function (g := g) h (layouts h)
    (functions_declared h hcomplete) hlinked hfd hs hn
  obtain ⟨hfunctions, hbuilds⟩ := hspec.of_ok hrun
  have hrun' : defineFunctions t types functions_ (registerConstructors t types program)
      (done ++ [.FunctionDefinition fd]) ⟨declared, .entry, .empty⟩ = .ok ((), g') := by
    rw [defineFunctions_append]
    show (defineFunctions t types functions_ (registerConstructors t types program) done
      ⟨declared, .entry, .empty⟩ >>= fun r => _) = _
    rw [hg.run, ok_bind]
    show (defineFunction t types functions_ (registerConstructors t types program) fd g >>=
      fun r => _) = _
    rw [hrun]
    rfl
  have hemitted : JustEmitted program t types g' := .function hdeclare hdone hrun'
  refine ⟨hrun', ?_, fun fd' hfd' s' n' hs' hn' => ?_⟩
  · rw [hfunctions, map_modify_blocks fun _ _ => rfl]
    exact hg.headers
  · rw [hfunctions]
    have hfd'' : .FunctionDefinition fd' ∈ program.definitions := by
      rw [hdone]
      rcases List.mem_append.mp hfd' with hfd' | hfd'
      · exact List.mem_append_left _ hfd'
      · rw [List.mem_singleton.mp hfd']
        exact List.mem_append_right _ List.mem_cons_self
    by_cases heq : n = n'
    · subst heq
      obtain rfl := function_unique h hfd'' hfd hs' hs (hdeclarations.distinct _ _ n hn' hn)
      obtain ⟨F0, hF0, hdeclaration⟩ := hdeclarations.sound _ n hn
      obtain ⟨hparameters, hresult⟩ := hdeclaration.header hsignature
      obtain ⟨F, hF, hparameters', hresult'⟩ := found_header hg.headers hF0
      refine ⟨{ F with blocks := g'.builder.blocks }, ?_, ?_, g', hemitted, rfl⟩
      · rw [List.getElem?_modify_eq, hF]
        rfl
      · exact hbuilds.function _ (hparameters'.trans hparameters) (hresult'.trans hresult) rfl
    · rw [List.getElem?_modify_ne _ _ heq]
      rcases List.mem_append.mp hfd' with hfd' | hfd'
      · exact hg.bodies fd' hfd' s' n' hs' hn'
      · cases List.mem_singleton.mp hfd'
        rw [hs] at hs'
        cases hs'
        rw [hn] at hn'
        cases hn'
        exact absurd rfl heq

theorem assembled_functions {rest done : List Definition}
    (hdone : program.definitions = done ++ rest)
    (hg : Assembled M t types program functions_ done declared g) {g' : GeneratorState}
    (hrun : defineFunctions t types functions_ (registerConstructors t types program) rest g =
      .ok ((), g')) :
    Assembled M t types program functions_ program.definitions declared g' := by
  induction rest generalizing done g with
  | nil =>
    cases hrun
    rw [hdone, List.append_nil]
    exact hg
  | cons d rest ih =>
    cases d with
    | FunctionDefinition fd =>
      obtain ⟨_, g1, hrun1, hrun2⟩ := run_bind hrun
      exact ih (by simp [hdone])
        (hg.step h hlinked hdeclare hdeclarations hcomplete hdone hrun1) hrun2
    | DataTypeDefinition dt =>
      have hdone' : program.definitions = (done ++ [.DataTypeDefinition dt]) ++ rest := by
        simp [hdone]
      refine ih hdone' ⟨?_, hg.headers, fun fd hfd => hg.bodies fd (by simpa using hfd)⟩ hrun
      rw [defineFunctions_append]
      show (defineFunctions t types functions_ (registerConstructors t types program) done
        ⟨declared, .entry, .empty⟩ >>= fun r => _) = _
      rw [hg.run, ok_bind]
      rfl

end

/-- In the run, nothing is put after a terminator. -/
theorem justEmitted_malformed (h : Checked t program types τ) {g : GeneratorState}
    (hg : JustEmitted program t types g) : g.builder.malformed = false := by
  obtain ⟨functions, functions_, hdeclare, hdeclarations, hcomplete⟩ := declareFunctions_spec h
  have hlinked : LinkedTypes ⟨functions ++ []⟩ types functions_ :=
    linkedTypes_declarations [] hdeclarations rfl
  cases hg with
  | @function _ _ before after fd g hdeclare' hdone hrun =>
    rw [hdeclare] at hdeclare'
    cases hdeclare'
    have hfd : .FunctionDefinition fd ∈ program.definitions := by simp [hdone]
    obtain ⟨s, _, hs, _⟩ := h.functions fd hfd
    obtain ⟨n, hn⟩ := hcomplete fd hfd s hs
    rw [defineFunctions_append] at hrun
    obtain ⟨_, g1, _, hrun1⟩ := run_bind hrun
    obtain ⟨_, g2, hrun2, hrun3⟩ := run_bind hrun1
    cases hrun3
    obtain ⟨_, _, hspec⟩ := certified_function (g := g1) h (layouts h)
      (functions_declared h hcomplete) hlinked hfd hs hn
    exact (hspec.of_ok hrun2).2.malformed
  | main hdeclare' _ hmain =>
    rw [hdeclare] at hdeclare'
    cases hdeclare'
    exact ((certified_main hlinked).of_ok hmain).2.malformed

/-- The functions of the generated module are well formed, and they have the blocks that
the builder had when they had been emitted. -/
theorem generated_wellFormed (h : Checked t program types τ)
    (hgenerate : generateModule program t types = .ok M) : ∀ F ∈ M.functions,
    F.WellFormed M ∧ ∃ g, JustEmitted program t types g ∧ F.blocks = g.builder.blocks := by
  obtain ⟨functions, functions_, hdeclare, hdeclarations, hcomplete⟩ := declareFunctions_spec h
  have honly := declareFunctions_only h hdeclare
  unfold generateModule at hgenerate
  simp only [hdeclare, ok_bind] at hgenerate
  obtain ⟨⟨_, g2⟩, hrun, hM⟩ := bind_eq_ok.mp hgenerate
  cases hM
  obtain ⟨_, g1, hrun1, hrun2⟩ := run_bind hrun
  -- what the run leaves, for a module to which the declared functions belong
  have hassembled : ∀ M', LinkedTypes M' types functions_ →
      Assembled M' t types program functions_ program.definitions functions g1 := by
    intro M' hlinked
    have hstart : Assembled M' t types program functions_ [] functions
        ⟨functions, .entry, .empty⟩ := ⟨rfl, rfl, by simp⟩
    exact assembled_functions h hlinked hdeclare hdeclarations hcomplete (List.nil_append _).symm
      hstart hrun1
  have hdeclared : LinkedTypes ⟨functions ++ []⟩ types functions_ :=
    linkedTypes_declarations [] hdeclarations rfl
  have hheaders := (hassembled _ hdeclared).headers
  obtain ⟨hfunctions, _⟩ := (certified_main hdeclared).of_ok hrun2
  have hlinked : LinkedTypes ⟨g2.functions⟩ types functions_ := by
    rw [hfunctions]
    exact linkedTypes_declarations _ hdeclarations hheaders
  obtain ⟨_, hmain⟩ := (certified_main hlinked).of_ok hrun2
  intro F hF
  have hF : F ∈ g2.functions := hF
  rw [hfunctions, List.mem_append, List.mem_singleton] at hF
  rcases hF with hF | rfl
  · obtain ⟨n, hn⟩ := List.getElem?_of_mem hF
    have hlt := (List.getElem?_eq_some_iff.mp hn).1
    have hlength := congrArg List.length hheaders
    rw [List.length_map, List.length_map] at hlength
    obtain ⟨id, hid⟩ := honly.places n (by rw [← hlength]; exact hlt)
    obtain ⟨fd, hfd, symbol, hsymbol, rfl⟩ := honly.symbols id n hid
    obtain ⟨F', hF', hbody⟩ := (hassembled _ hlinked).bodies fd hfd symbol n hsymbol hid
    rw [hn] at hF'
    cases hF'
    exact hbody
  · exact ⟨hmain.function _ rfl rfl rfl, g2, .main hdeclare hrun1 hrun2, rfl⟩

/-! ## Names -/

theorem mangle_notIntrinsic (symbol : Symbol) :
    ¬ "llvm.".toList <+: (mangle symbol).toList := by
  rw [mangle_toList]
  rintro ⟨rest, h⟩
  cases h

theorem DefinesAll.namedApart {t : ScopeTree} {types : TypeTable} {program : Program}
    (h : DefinesAll t types program M) : M.NamedApart libraryNames := by
  refine ⟨h.names, h.apart, fun F hF => ?_⟩
  obtain ⟨fs, main, hfs, hall, hmain, _⟩ := h.functions
  rw [hfs] at hF
  rcases List.mem_append.mp hF with hF | hF
  · obtain ⟨fd, _, hdeclared⟩ := TypeAnalyzer.forall₂_mem hall.flip hF
    obtain ⟨s, _, hs, _⟩ := hdeclared.symbol
    rw [hs]
    exact mangle_notIntrinsic s
  · rw [List.mem_singleton.mp hF, hmain]
    decide

/-! ## Programs -/

variable {tokens : TokenVector} {p : ParsedProgram} {analyzed : TypeAnalysisResult}

/-- Whatever is generated of an accepted program is well formed, and so passes a
check that lets well formed modules pass whose functions have names of their own.
The blocks of a function are those that the builder had when it had been emitted,
and nothing had been put after a terminator. The tokens are the scanner's. -/
theorem generateModule_wellFormed (hl : tokens.Lexed) (hp : parse tokens = .ok p)
    (hok : (analyze p).ok) (hrun : analyzeTypes p (analyze p) = some analyzed)
    (hresult : analyzed.ok)
    (hgenerate : generateModule p.ast (analyze p).scopes analyzed.types = .ok M) :
    M.WellFormed ∧
    (∀ F ∈ M.functions, ∃ g, JustEmitted p.ast (analyze p).scopes analyzed.types g ∧
      F.blocks = g.builder.blocks) ∧
    (∀ g, JustEmitted p.ast (analyze p).scopes analyzed.types g → g.builder.malformed = false) ∧
    ∀ verifyModule : Module → Option String,
      (∀ M' : Module, M'.WellFormed → M'.NamedApart libraryNames → verifyModule M' = none) →
      generateCheckedLlvmIr verifyModule p (analyze p) analyzed = .ok M := by
  obtain ⟨τ, h⟩ := checked hl hp hok hrun hresult
  have hfunctions := generated_wellFormed h hgenerate
  have hwell : M.WellFormed := fun F hF => (hfunctions F hF).1
  refine ⟨hwell, fun F hF => (hfunctions F hF).2, fun g hg => justEmitted_malformed h hg,
    fun verifyModule hverify => ?_⟩
  unfold generateCheckedLlvmIr
  rw [hgenerate, ok_bind, verify, hverify M hwell (definesAll h hgenerate).namedApart]
  rfl

/-- What the verifier says of the names of functions. -/
def verifyNames (M : Module) : Option String :=
  if M.functions.any (fun F => "llvm.".toList.isPrefixOf F.name.toList) then
    some "llvm intrinsics cannot be defined!"
  else none

/-- The module with the call, the switch and the phi of `choiceProgram`. -/
theorem generateModule_wellFormed_choice : ∃ analyzed M,
    analyzeTypes choiceProgram (analyze choiceProgram) = some analyzed ∧
    generateModule choiceProgram.ast (analyze choiceProgram).scopes analyzed.types = .ok M ∧
    M.WellFormed ∧
    (∀ F ∈ M.functions, ∃ g,
      JustEmitted choiceProgram.ast (analyze choiceProgram).scopes analyzed.types g ∧
        F.blocks = g.builder.blocks ∧ g.builder.malformed = false) ∧
    generateCheckedLlvmIr verifyNames choiceProgram (analyze choiceProgram) analyzed = .ok M := by
  obtain ⟨analyzed, M, hrun, hresult, hM⟩ := choiceProgram_generated
  obtain ⟨hwell, hblocks, hmalformed, hverify⟩ := generateModule_wellFormed
    (show choiceTokens.Lexed by decide) choiceProgram_parse (by decide +kernel) hrun hresult hM
  refine ⟨analyzed, M, hrun, hM, hwell, fun F hF => ?_, hverify verifyNames fun M' _ hnamed => ?_⟩
  · obtain ⟨g, hg, heq⟩ := hblocks F hF
    exact ⟨g, hg, heq, hmalformed g hg⟩
  · unfold verifyNames
    rw [if_neg]
    simpa using hnamed.intrinsic

end mf.visitors
