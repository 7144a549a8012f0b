-- Type inference is sound, complete and principal: what the analyzer accepts
-- has a typing, the typing is unique and is the one that it returns, and a
-- first-order program with exactly one typing is accepted.
import MiniFunctional.AnalyzerRun
import MiniFunctional.GlobalSymbols

open mf.ast mf.parsing mf.tokenization

namespace mf.semantics

open StateOption ScopeTree

namespace TypeAnalyzer

open TypeStore

variable {t : ScopeTree} {program : Program} {st : TypeAnalyzer}

/-! ## The typing that a model gives -/

def readTyping (st : TypeAnalyzer) (ρ : TypeId → TypeVariant) : Typing := fun s =>
  match st.symbol_types.find s with
  | some id => ρ id
  | none => .IntType

theorem readTyping_find {s : SymbolId} {id : TypeId} (h : st.symbol_types.find s = some id)
    (ρ : TypeId → TypeVariant) : st.readTyping ρ s = ρ id := by
  unfold readTyping
  rw [h]

theorem solves_readTyping {ρ : TypeId → TypeVariant} (hm : st.types.Models ρ) :
    st.Solves ρ (st.readTyping ρ) := ⟨hm, fun _ _ h => readTyping_find h ρ⟩

theorem Analyzed.typing (h : Analyzed t program st) (hok : st.diagnostics = [])
    {ρ : TypeId → TypeVariant} (hm : st.types.ConcreteModel t ρ) :
    IsConcreteTyping t program (st.readTyping ρ) := by
  refine ⟨h.sound hok ρ _ (solves_readTyping hm.1), fun s _ => ?_⟩
  cases hs : st.symbol_types.find s with
  | none =>
    unfold readTyping
    rw [hs]
    exact trivial
  | some id =>
    rw [readTyping_find hs]
    exact hm.concrete h.step.valid.acyclic h.step.valid.named (h.step.valid.symbols s id hs).1

/-- The symbols that a typing is about have types in the state. -/
theorem Analyzed.bound (h : Analyzed t program st) (hok : st.diagnostics = []) {s : SymbolId}
    (hs : Typed t program s) : ∃ id, st.symbol_types.find s = some id := by
  obtain ⟨fd, hfd, hs⟩ := hs
  obtain ⟨symbol, sid, internal, callable, hsymbol, hsid, _, hps, hcallable, _⟩ :=
    h.functions hok _ hfd fd rfl
  rcases hs with ⟨symbol', hsymbol', rfl⟩ | hs | hs
  · rw [hsymbol] at hsymbol'
    cases hsymbol'
    exact ⟨callable, hcallable⟩
  · unfold ScopeTree.parameterSymbols at hs
    rw [hsid] at hs
    exact forall₂_bound hps s hs
  · exact h.bodies hok _ hfd s hs

/-- The symbols with types in the state are those that a typing is about, and
those whose types are declared. -/
theorem Analyzed.declared_or_typed (h : Analyzed t program st) (hscoped : t.ProgramScoped program)
    (hfields : FieldsNameTypes t program) {s : SymbolId} {id : TypeId}
    (hs : st.symbol_types.find s = some id) :
    (∃ T, ∀ τ, IsTyping t program τ → τ s = T) ∨ Typed t program s := by
  by_contra hnot
  rw [not_or] at hnot
  obtain ⟨hdeclared, htyped⟩ := hnot
  have hkey := h.step.symbols s
  rw [hs] at hkey
  refine absurd (hkey ?_) (by simp [initial])
  simp only [List.mem_append, not_or, List.mem_flatMap, not_exists, not_and]
  refine ⟨fun hint => ?_, fun d hd hdata => ?_, fun d hd hfun => ?_, fun d hd hbody => ?_⟩
  · obtain ⟨name, hname, symbol, hsymbol, rfl⟩ := mem_symbolsIn.mp hint
    obtain rfl := List.mem_singleton.mp hname
    obtain ⟨symbol', hsymbol', hkind, -⟩ := global_symbol hscoped
      (b := ⟨"Int", .BuiltinType, kInvalidNodeId⟩) List.mem_cons_self
    rw [hsymbol] at hsymbol'
    cases hsymbol'
    exact hdeclared ⟨intType, fun τ hτ =>
      hτ.types "Int" symbol intType hsymbol ⟨symbol, hsymbol, .inl ⟨hkind, rfl⟩⟩⟩
  · cases d with
    | FunctionDefinition fd => simp [dataSymbols] at hdata
    | DataTypeDefinition dt =>
      obtain ⟨ds, hds, hkind, -⟩ := global_symbol hscoped
        (mem_globalFrame hd (b := ⟨dt.name, .DataType, dt.id⟩) (by simp [Definition.binders]))
      simp only [dataSymbols, List.mem_append, List.mem_flatMap] at hdata
      rcases hdata with hdata | ⟨ctor, hctor, hdata⟩
      · obtain ⟨name, hname, symbol, hsymbol, rfl⟩ := mem_symbolsIn.mp hdata
        obtain rfl := List.mem_singleton.mp hname
        rw [hsymbol] at hds
        cases hds
        exact hdeclared ⟨dataType ds.id, fun τ hτ =>
          hτ.types dt.name ds _ hsymbol ⟨ds, hsymbol, .inr ⟨hkind, rfl⟩⟩⟩
      · obtain ⟨name, hname, symbol, hsymbol, rfl⟩ := mem_symbolsIn.mp hdata
        obtain rfl := List.mem_singleton.mp hname
        obtain ⟨fields, hnames⟩ := forall₂_of_forall (hfields dt hd ctor hctor)
        exact hdeclared ⟨_, fun τ hτ => hτ.constructors symbol.id ⟨ds.id, fields⟩
          ⟨dt, hd, ctor, hctor, ds, hds, rfl, ⟨symbol, hsymbol, rfl⟩, hnames⟩⟩
  · cases d with
    | DataTypeDefinition dt => simp [functionSymbols] at hfun
    | FunctionDefinition fd =>
      simp only [functionSymbols, List.mem_append] at hfun
      rcases hfun with hfun | hfun
      · obtain ⟨name, hname, symbol, hsymbol, rfl⟩ := mem_symbolsIn.mp hfun
        obtain rfl := List.mem_singleton.mp hname
        exact htyped ⟨fd, hd, .inl ⟨symbol, hsymbol, rfl⟩⟩
      · exact htyped ⟨fd, hd, .inr (.inl hfun)⟩
  · cases d with
    | DataTypeDefinition dt => simp [bodySymbols] at hbody
    | FunctionDefinition fd => exact htyped ⟨fd, hd, .inr (.inr hbody)⟩

/-- When the typings agree, the state determines the types of its symbols. -/
theorem Analyzed.determined (h : Analyzed t program st) (hscoped : t.ProgramScoped program)
    (hfields : FieldsNameTypes t program) (hok : st.diagnostics = [])
    (hunique : ∀ τ τ', IsConcreteTyping t program τ → IsConcreteTyping t program τ' →
      ∀ s, Typed t program s → τ s = τ' s) {s : SymbolId} {id : TypeId}
    (hs : st.symbol_types.find s = some id) : ∃ T, Determined st.types id T := by
  refine determined_of_agree (t := t) h.step.valid.acyclic (h.step.valid.symbols s id hs).1
    fun ρ ρ' hm hm' => ?_
  have hτ := h.typing hok hm
  have hτ' := h.typing hok hm'
  rw [← readTyping_find hs ρ, ← readTyping_find hs ρ']
  rcases h.declared_or_typed hscoped hfields hs with ⟨T, hT⟩ | hs
  · rw [hT _ hτ.checks, hT _ hτ'.checks]
  · exact hunique _ _ hτ hτ' s hs

/-- The state determines the signature of a function whose type it determines. -/
theorem Analyzed.settled (h : Analyzed t program st) (hok : st.diagnostics = [])
    (hdetermined : ∀ s id, st.symbol_types.find s = some id → ∃ T, Determined st.types id T)
    {fd : FunctionDefinition} (hfd : .FunctionDefinition fd ∈ program.definitions) :
    ∃ s internal signature, t.getLocalSymbol getRootScopeId fd.name = some s ∧
      st.function_signatures.find s.id = some internal ∧
      FunctionSettled st.types internal signature ∧
      signature.parameters.length = fd.parameters.length := by
  obtain ⟨s, sid, internal, callable, hs, hsid, hfind, hps, hcallable, hmodel⟩ :=
    h.functions hok _ hfd fd rfl
  obtain ⟨T, hT⟩ := hdetermined s.id callable hcallable
  obtain ⟨ρ0, hρ0, -⟩ := exists_model h.step.valid.acyclic fun _ => .IntType
  refine ⟨s, internal, ⟨internal.parameters.map ρ0, ρ0 internal.result⟩, hs, hfind,
    fun ρ hm => ?_, ?_⟩
  · refine functionTypes_inj (by simp) ?_
    rw [← hmodel ρ hm, ← hmodel ρ0 hρ0, hT ρ hm, hT ρ0 hρ0]
  · rw [List.length_map, hps.length_eq]

/-- A function has its settled signature in every typing. -/
theorem FunctionSettled.hasType (h : Analyzed t program st) (hok : st.diagnostics = [])
    (hfields : FieldsNameTypes t program) {τ : Typing} (hτ : IsTyping t program τ)
    {fd : FunctionDefinition} (hfd : .FunctionDefinition fd ∈ program.definitions) {s : Symbol}
    (hs : t.getLocalSymbol getRootScopeId fd.name = some s)
    {internal : InternalFunctionSignature}
    (hfind : st.function_signatures.find s.id = some internal)
    {signature : FunctionSignature} (hsettled : FunctionSettled st.types internal signature) :
    FunctionHasType t program τ fd signature := by
  obtain ⟨ρ, hsol, _⟩ := h.complete hfields τ hτ
  obtain ⟨s', sid, internal', callable, hs', hsid, hfind', hps, hcallable, hmodel⟩ :=
    h.functions hok _ hfd fd rfl
  rw [hs] at hs'
  cases hs'
  rw [hfind] at hfind'
  cases hfind'
  obtain ⟨signature', ⟨s', hs', hτs⟩, ⟨sid', hsid', hall⟩, hbody⟩ := hτ.functions fd hfd
  rw [hs] at hs'
  cases hs'
  rw [hsid] at hsid'
  cases hsid'
  -- both signatures come from the type of the function
  obtain ⟨hparams, hresult⟩ := hsettled ρ hsol.1
  have htypes : functionTypes signature.parameters signature.result =
      functionTypes signature'.parameters signature'.result := by
    rw [← hτs, hsol.2 s.id callable hcallable, hmodel ρ hsol.1, hparams, hresult]
  have hlen : signature.parameters.length = signature'.parameters.length := by
    rw [← hparams, List.length_map, ← hps.length_eq, hall.length_eq]
  obtain ⟨hp, hr⟩ := functionTypes_inj hlen htypes
  obtain ⟨parameters, result⟩ := signature
  simp only at hp hr
  subst hp
  subst hr
  exact ⟨⟨s, hs, hτs⟩, ⟨sid, hsid, hall⟩, hbody⟩

theorem forall₂_mem {α β : Type} {R : α → β → Prop} {l : List α} {l' : List β}
    (h : List.Forall₂ R l l') {a : α} (ha : a ∈ l) : ∃ b ∈ l', R a b := by
  induction h with
  | nil => simp at ha
  | cons hR _ ih =>
    rcases List.mem_cons.mp ha with rfl | ha
    · exact ⟨_, List.mem_cons_self, hR⟩
    · obtain ⟨b, hb, hR'⟩ := ih ha
      exact ⟨b, List.mem_cons_of_mem _ hb, hR'⟩

/-- What is accepted has fields that name types. -/
theorem Analyzed.fields (h : Analyzed t program st) (hok : st.diagnostics = []) :
    FieldsNameTypes t program := by
  intro dt hdt ctor hctor field hfield
  obtain ⟨_, _, hctors⟩ := h.data hok _ hdt dt rfl
  obtain ⟨_, fields, _, _, hnames, _⟩ := hctors ctor hctor
  obtain ⟨T, _, hT⟩ := forall₂_mem hnames hfield
  exact ⟨T, hT⟩

end TypeAnalyzer

open TypeAnalyzer

variable {tokens : TokenVector} {p : ParsedProgram} {result : TypeAnalysisResult}

/-- The type analyzer returns on what scope analysis accepts. -/
theorem analyzeTypes_run (hl : tokens.Lexed) (hp : parse tokens = .ok p) (hok : (analyze p).ok) :
    ∃ st result, analyzeTypes p (analyze p) = some result ∧
      Runs (inferProgram (analyze p).scopes p.ast) initial ⟨⟩ st ∧
      Analyzed (analyze p).scopes p.ast st ∧ Settled (analyze p).scopes st result := by
  obtain ⟨_, st', _, hrun, _, st, hinfer, hanalyzed, hsettled⟩ :=
    analyze_run (analyze_scoped hl hp hok)
  refine ⟨st, st'.result, ?_, hinfer, hanalyzed, hsettled⟩
  unfold analyzeTypes
  rw [if_pos hok, hrun]
  rfl

/-- The signatures of an accepted program are those of its declarations and of
a typing: constructors have the fields that they are declared with, functions
have as many parameters as declared, and under one assignment of concrete types
that agrees with the signatures, every body has its function's result type. -/
structure TypeTable.Sound (table : TypeTable) (t : ScopeTree) (program : Program) : Prop where
  constructors : ∀ id s, t.getSymbol id = some s → s.kind = .Constructor →
    ∃ signature, table.getConstructorSignature id = some signature ∧
      Declares t program id signature
  functions : ∀ id s, t.getSymbol id = some s → s.kind = .Function →
    ∃ fd signature, .FunctionDefinition fd ∈ program.definitions ∧
      t.getLocalSymbol getRootScopeId fd.name = some s ∧ s.declaration = fd.id ∧
      table.getFunctionSignature id = some signature ∧
      signature.parameters.length = fd.parameters.length
  typing : ∃ τ, IsConcreteTyping t program τ ∧
    ∀ fd, .FunctionDefinition fd ∈ program.definitions → ∃ s signature,
      t.getLocalSymbol getRootScopeId fd.name = some s ∧
      table.getFunctionSignature s.id = some signature ∧ FunctionHasType t program τ fd signature

theorem sound_of_ok (hl : tokens.Lexed) (hp : parse tokens = .ok p) (hok : (analyze p).ok)
    (hrun : analyzeTypes p (analyze p) = some result) (hresult : result.ok) :
    result.types.Sound (analyze p).scopes p.ast := by
  obtain ⟨st, result', hrun', _, h, hsettled⟩ := analyzeTypes_run hl hp hok
  rw [hrun] at hrun'
  cases hrun'
  have hscoped := analyze_scoped hl hp hok
  have hrooted := analyze_rooted p
  obtain ⟨hsilent, hdetermined, -⟩ := hsettled.ok.mp hresult
  obtain ⟨ρ, hm⟩ := TypeStore.exists_concreteModel h.step.valid.acyclic (analyze p).scopes
  have hτ := h.typing hsilent hm
  refine ⟨fun id s hs hkind => ?_, fun id s hs hkind => ?_, st.readTyping ρ, hτ, fun fd hfd => ?_⟩
  · obtain ⟨hlocal, rfl⟩ := hrooted.find hs (by simp [isLocalKind, hkind])
    obtain ⟨dt, hdt, ctor, hctor, hname⟩ := constructor_declared hscoped hlocal hkind
    obtain ⟨ds, hds, hctors⟩ := h.data hsilent _ hdt dt rfl
    obtain ⟨s', fields, internal, hs', hfields, hfind, hdata, _, hmap⟩ := hctors ctor hctor
    rw [hname, hlocal] at hs'
    cases hs'
    exact ⟨⟨ds.id, fields⟩, (hsettled.constructors _ _).mpr ⟨internal, hfind, hdata.symm, hmap⟩,
      dt, hdt, ctor, hctor, ds, hds, rfl, ⟨s, by rw [hname, hlocal], rfl⟩, hfields⟩
  · obtain ⟨hlocal, rfl⟩ := hrooted.find hs (by simp [isLocalKind, hkind])
    obtain ⟨fd, hfd, hname, hdeclaration⟩ := function_declared hscoped hlocal hkind
    rw [← hname] at hlocal
    obtain ⟨s', internal, signature, hs', hfind, hfun, hlen⟩ := h.settled hsilent hdetermined hfd
    rw [hlocal] at hs'
    cases hs'
    exact ⟨fd, signature, hfd, hlocal, hdeclaration,
      (hsettled.functions _ _).mpr ⟨internal, hfind, hfun⟩, hlen⟩
  · obtain ⟨s, internal, signature, hs, hfind, hfun, _⟩ := h.settled hsilent hdetermined hfd
    exact ⟨s, signature, hs, (hsettled.functions _ _).mpr ⟨internal, hfind, hfun⟩,
      hfun.hasType h hsilent (h.fields hsilent) hτ.checks hfd hs hfind⟩

/-- The functions of an accepted program are first-order. -/
theorem analyzeTypes_firstOrder (hl : tokens.Lexed) (hp : parse tokens = .ok p)
    (hok : (analyze p).ok) (hrun : analyzeTypes p (analyze p) = some result)
    (hresult : result.ok) {f : SymbolId} {signature : FunctionSignature}
    (hf : result.types.getFunctionSignature f = some signature) :
    FirstOrder (analyze p).scopes f signature := by
  obtain ⟨st, result', hrun', _, _, hsettled⟩ := analyzeTypes_run hl hp hok
  rw [hrun] at hrun'
  cases hrun'
  obtain ⟨internal, hfind, hfun⟩ := (hsettled.functions f signature).mp hf
  exact (hsettled.ok.mp hresult).2.2 f internal signature hfind hfun

/-- The type analyzer is sound: it returns on every program that the parser made of
the scanner's tokens and that scope analysis accepts, and what it accepts has the
signatures and a typing. -/
theorem analyzeTypes_sound (hl : tokens.Lexed) (hp : parse tokens = .ok p) (hok : (analyze p).ok) :
    ∃ result, analyzeTypes p (analyze p) = some result ∧
      (result.ok → result.types.Sound (analyze p).scopes p.ast) := by
  obtain ⟨_, result, hrun, _⟩ := analyzeTypes_run hl hp hok
  exact ⟨result, hrun, sound_of_ok hl hp hok hrun⟩

/-- `defn inc x = { x + 1 }`. -/
def incTokens : TokenVector :=
  ⟨[.Function, .LowerVariable "inc", .LowerVariable "x", .Equal, .LeftBrace, .LowerVariable "x",
    .Plus, .IntLiteral 1, .RightBrace].map fun load => ⟨load, ⟨1, 1, 1, 1⟩⟩, by decide⟩

def incFunction : FunctionDefinition :=
  ⟨3, "inc", ["x"], .BinaryOperator .Addition 1 (.Variable 0 "x") (.IntLiteral 2 1)⟩

def incProgram : ParsedProgram :=
  ⟨⟨[.FunctionDefinition incFunction]⟩, List.replicate 4 ⟨1, 1, 1, 1⟩⟩

theorem incProgram_parse : parse incTokens = .ok incProgram := rfl

/-- It is accepted, with the signature from `Int` to `Int`. -/
theorem incProgram_accepted {result : TypeAnalysisResult}
    (hrun : analyzeTypes incProgram (analyze incProgram) = some result) :
    result.ok ∧ result.types.getFunctionSignature 1 = some ⟨[intType], intType⟩ := by
  have haccepted : (analyzeTypes incProgram (analyze incProgram)).map (fun result =>
      (result.ok, result.types.getFunctionSignature 1)) =
        some (true, some ⟨[intType], intType⟩) := by decide +kernel
  rw [hrun, Option.map_some, Option.some.injEq, Prod.mk.injEq] at haccepted
  exact haccepted

theorem analyzeTypes_sound_inc :
    ∃ result, analyzeTypes incProgram (analyze incProgram) = some result ∧ result.ok ∧
      result.types.Sound (analyze incProgram).scopes incProgram.ast := by
  obtain ⟨result, hrun, hsound⟩ :=
    analyzeTypes_sound (show incTokens.Lexed by decide) incProgram_parse rfl
  obtain ⟨hresult, _⟩ := incProgram_accepted hrun
  exact ⟨result, hrun, hresult, hsound hresult⟩

/-- The typing gives no function a parameter or a result that is a function. -/
def FirstOrderTyping (t : ScopeTree) (program : Program) (τ : Typing) : Prop :=
  ∀ fd signature, .FunctionDefinition fd ∈ program.definitions →
    FunctionHasType t program τ fd signature →
    (∀ parameter ∈ signature.parameters, containsFunctionType parameter = false) ∧
      containsFunctionType signature.result = false

/-- There is one typing, up to symbols that typings are not about. -/
def UniquelyTyped (t : ScopeTree) (program : Program) : Prop :=
  (∃ τ, IsConcreteTyping t program τ) ∧
    ∀ τ τ', IsConcreteTyping t program τ → IsConcreteTyping t program τ' →
      ∀ id, Typed t program id → τ id = τ' id

def MainHasNoParameters (program : Program) : Prop :=
  ∀ fd, .FunctionDefinition fd ∈ program.definitions → fd.name = "main" → fd.parameters = []

/-- The signatures of the table are those of every typing. -/
def TypeTable.Principal (table : TypeTable) (t : ScopeTree) (program : Program) : Prop :=
  ∀ τ, IsConcreteTyping t program τ → ∀ fd, .FunctionDefinition fd ∈ program.definitions →
    ∃ s signature, t.getLocalSymbol getRootScopeId fd.name = some s ∧
      table.getFunctionSignature s.id = some signature ∧ FunctionHasType t program τ fd signature

section

variable (hl : tokens.Lexed) (hp : parse tokens = .ok p) (hok : (analyze p).ok)
  (hrun : analyzeTypes p (analyze p) = some result)

include hl hp hok hrun

/-- A program with one typing, which is first-order, is accepted. -/
theorem accepted_of_unique (hfields : FieldsNameTypes (analyze p).scopes p.ast)
    (hunique : UniquelyTyped (analyze p).scopes p.ast)
    (hfirst : ∀ τ, IsConcreteTyping (analyze p).scopes p.ast τ →
      FirstOrderTyping (analyze p).scopes p.ast τ) (hmain : MainHasNoParameters p.ast) :
    result.ok := by
  obtain ⟨st, result', hrun', _, h, hsettled⟩ := analyzeTypes_run hl hp hok
  rw [hrun] at hrun'
  cases hrun'
  have hscoped := analyze_scoped hl hp hok
  obtain ⟨⟨τ, hτ⟩, hagree⟩ := hunique
  obtain ⟨ρ, hsol, hsilent⟩ := h.complete hfields τ hτ.checks
  rw [hsettled.ok]
  refine ⟨hsilent, fun s id hs => h.determined hscoped hfields hsilent hagree hs,
    fun f internal signature hfind hfun => ?_⟩
  obtain ⟨_, _, _, name, s, hs, hkind, rfl⟩ := h.step.valid.functions f internal hfind
  obtain ⟨fd, hfd, rfl, -⟩ := function_declared hscoped hs hkind
  have htype := hfun.hasType h hsilent hfields hτ.checks hfd hs hfind
  obtain ⟨hparams, hres⟩ := hfirst τ hτ fd signature hfd htype
  refine ⟨fun symbol hsymbol hname => ?_, hparams, hres⟩
  have hnamed := hscoped.named _ _ _ hs
  rw [hnamed.1] at hsymbol
  cases hsymbol
  obtain ⟨_, ⟨_, _, hall⟩, _⟩ := htype
  have hlen := hall.length_eq
  rw [hmain fd hfd (hnamed.2.symm.trans hname), List.length_nil] at hlen
  exact List.length_eq_zero_iff.mp hlen.symm

/-- An accepted program has one typing. -/
theorem unique_of_ok (hresult : result.ok) : UniquelyTyped (analyze p).scopes p.ast := by
  obtain ⟨st, result', hrun', _, h, hsettled⟩ := analyzeTypes_run hl hp hok
  rw [hrun] at hrun'
  cases hrun'
  obtain ⟨hsilent, hdetermined, -⟩ := hsettled.ok.mp hresult
  have hfields := h.fields hsilent
  refine ⟨?_, fun τ τ' hτ hτ' s hs => ?_⟩
  · obtain ⟨ρ, hm⟩ := TypeStore.exists_concreteModel h.step.valid.acyclic (analyze p).scopes
    exact ⟨_, h.typing hsilent hm⟩
  · obtain ⟨id, hid⟩ := h.bound hsilent hs
    obtain ⟨T, hT⟩ := hdetermined s id hid
    obtain ⟨ρ, hsol, _⟩ := h.complete hfields τ hτ.checks
    obtain ⟨ρ', hsol', _⟩ := h.complete hfields τ' hτ'.checks
    rw [hsol.2 s id hid, hsol'.2 s id hid, hT ρ hsol.1, hT ρ' hsol'.1]

theorem principal_of_ok (hresult : result.ok) :
    result.types.Principal (analyze p).scopes p.ast := by
  obtain ⟨st, result', hrun', _, h, hsettled⟩ := analyzeTypes_run hl hp hok
  rw [hrun] at hrun'
  cases hrun'
  obtain ⟨hsilent, hdetermined, -⟩ := hsettled.ok.mp hresult
  intro τ hτ fd hfd
  obtain ⟨s, internal, signature, hs, hfind, hfun, _⟩ := h.settled hsilent hdetermined hfd
  exact ⟨s, signature, hs, (hsettled.functions _ _).mpr ⟨internal, hfind, hfun⟩,
    hfun.hasType h hsilent (h.fields hsilent) hτ.checks hfd hs hfind⟩

end

/-- The type analyzer is principal: it accepts a program of the scanner's tokens just
when that has one typing, in which functions take and return no functions, and the
signatures are those of the typing. -/
theorem analyzeTypes_principal (hl : tokens.Lexed) (hp : parse tokens = .ok p)
    (hok : (analyze p).ok) :
    ∃ result, analyzeTypes p (analyze p) = some result ∧
      (FieldsNameTypes (analyze p).scopes p.ast → UniquelyTyped (analyze p).scopes p.ast →
        (∀ τ, IsConcreteTyping (analyze p).scopes p.ast τ →
          FirstOrderTyping (analyze p).scopes p.ast τ) →
        MainHasNoParameters p.ast → result.diagnostics = []) ∧
      (result.diagnostics = [] → UniquelyTyped (analyze p).scopes p.ast ∧
        ∀ τ, IsConcreteTyping (analyze p).scopes p.ast τ →
          ∀ fd, .FunctionDefinition fd ∈ p.ast.definitions → ∃ s signature,
            (analyze p).scopes.getLocalSymbol getRootScopeId fd.name = some s ∧
            result.types.getFunctionSignature s.id = some signature ∧
            FunctionHasType (analyze p).scopes p.ast τ fd signature) := by
  obtain ⟨_, result, hrun, _⟩ := analyzeTypes_run hl hp hok
  refine ⟨result, hrun, fun hfields hunique hfirst hmain => ?_, fun hnone => ?_⟩
  · exact List.isEmpty_iff.mp (accepted_of_unique hl hp hok hrun hfields hunique hfirst hmain)
  · have hresult : result.ok := List.isEmpty_iff.mpr hnone
    exact ⟨unique_of_ok hl hp hok hrun hresult, principal_of_ok hl hp hok hrun hresult⟩

/-- `incProgram` has one typing, of which its signature is; and as that is
first-order, there is no diagnostic. -/
theorem analyzeTypes_principal_inc :
    ∃ result, analyzeTypes incProgram (analyze incProgram) = some result ∧
      result.diagnostics = [] ∧
      UniquelyTyped (analyze incProgram).scopes incProgram.ast ∧
      ∀ τ, IsConcreteTyping (analyze incProgram).scopes incProgram.ast τ →
        FirstOrderTyping (analyze incProgram).scopes incProgram.ast τ ∧
        FunctionHasType (analyze incProgram).scopes incProgram.ast τ incFunction
          ⟨[intType], intType⟩ := by
  obtain ⟨result, hrun, hcomplete, hprincipal⟩ :=
    analyzeTypes_principal (show incTokens.Lexed by decide) incProgram_parse rfl
  obtain ⟨hresult, hsignature⟩ := incProgram_accepted hrun
  obtain ⟨hunique, hsignatures⟩ := hprincipal (List.isEmpty_iff.mp hresult)
  have htype : ∀ τ, IsConcreteTyping (analyze incProgram).scopes incProgram.ast τ →
      FunctionHasType (analyze incProgram).scopes incProgram.ast τ incFunction
        ⟨[intType], intType⟩ := by
    intro τ hτ
    obtain ⟨s, signature, hs, hfind, htype⟩ := hsignatures τ hτ incFunction List.mem_cons_self
    rw [show (analyze incProgram).scopes.getLocalSymbol getRootScopeId incFunction.name =
      some ⟨1, "inc", .Function, 3⟩ from rfl] at hs
    cases hs
    rw [hsignature] at hfind
    cases hfind
    exact htype
  have hfirst : ∀ τ, IsConcreteTyping (analyze incProgram).scopes incProgram.ast τ →
      FirstOrderTyping (analyze incProgram).scopes incProgram.ast τ := by
    intro τ hτ fd signature hfd h
    cases List.mem_singleton.mp hfd
    obtain rfl := functionHasType_unique h (htype τ hτ)
    exact ⟨by simp [containsFunctionType, intType], rfl⟩
  refine ⟨result, hrun, hcomplete ?_ hunique hfirst ?_, hunique,
    fun τ hτ => ⟨hfirst τ hτ, htype τ hτ⟩⟩
  · intro dt hdt
    cases List.mem_singleton.mp hdt
  · intro fd hfd hmain
    cases List.mem_singleton.mp hfd
    exact absurd hmain (by decide)

end mf.semantics
