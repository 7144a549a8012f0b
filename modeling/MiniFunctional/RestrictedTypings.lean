-- A typing of a program gives one of each part of it: a type that the part
-- does not know is as good as a new one. So the signatures of an accepted part
-- are those that its functions have in the whole.
import MiniFunctional.DefinitionOrder
import MiniFunctional.ProgramParts
import MiniFunctional.ValueTyping

open mf.util mf.ast mf.parsing mf.tokenization

namespace mf.semantics

open ScopeTree TypeAnalyzer

/-! ## Types of the whole in the part -/

/-- The symbol of the part with the same name in the global scope, or one that
the part does not have. -/
def ScopeTree.restriction (t t' : ScopeTree) (id' : SymbolId) : SymbolId :=
  ((t'.getSymbol id').bind fun s' =>
    if t'.getLocalSymbolId getRootScopeId s'.name = some id' then
      t.getLocalSymbolId getRootScopeId s'.name
    else none).getD (t.symbols.length + id')

theorem functionTypes_concrete {t : ScopeTree} {Ps : List TypeVariant} {R : TypeVariant}
    (h : (functionTypes Ps R).Concrete t) : (∀ P ∈ Ps, P.Concrete t) ∧ R.Concrete t := by
  induction Ps with
  | nil => exact ⟨by simp, h⟩
  | cons P Ps ih =>
    obtain ⟨hP, hrest⟩ : P.Concrete t ∧ (functionTypes Ps R).Concrete t := h
    obtain ⟨hPs, hR⟩ := ih hrest
    refine ⟨fun Q hQ => ?_, hR⟩
    rcases List.mem_cons.mp hQ with rfl | hQ
    · exact hP
    · exact hPs Q hQ

section

variable {t t' : ScopeTree} {π : Equiv.Perm NodeId} {program program' : Program}

theorem PartPaired.renaming_eq (h : PartPaired t t' π program) {name : String} {s s' : Symbol}
    (hs : t.getLocalSymbol getRootScopeId name = some s) (hpaired : Paired t t' π s s') :
    t.renaming t' s.id = s'.id := by
  obtain ⟨s₁, hs₁, hpaired₁⟩ := h.globals name s hs
  obtain rfl := hpaired₁.right_unique hpaired
  have hlocal := h.wellFormed.local hs
  unfold ScopeTree.renaming
  rw [hlocal.2.1, Option.bind_some, hlocal.2.2, (h.wellFormed'.local hs₁).1, Option.getD_some]

theorem PartPaired.restriction_eq (h : PartPaired t t' π program) {name : String} {s s' : Symbol}
    (hs : t.getLocalSymbol getRootScopeId name = some s) (hpaired : Paired t t' π s s') :
    t.restriction t' s'.id = s.id := by
  obtain ⟨s₁, hs₁, hpaired₁⟩ := h.globals name s hs
  obtain rfl := hpaired₁.right_unique hpaired
  have hlocal := h.wellFormed.local hs
  have hlocal' := h.wellFormed'.local hs₁
  unfold ScopeTree.restriction
  rw [hlocal'.2.1, Option.bind_some, hlocal'.2.2, if_pos hlocal'.1, hlocal.1, Option.getD_some]

/-- What the restriction takes to a symbol of the part, the renaming takes back. -/
theorem PartPaired.renaming_restriction (h : PartPaired t t' π program) {id' : SymbolId}
    (hid : t.IsDataType (t.restriction t' id')) : t.renaming t' (t.restriction t' id') = id' := by
  obtain ⟨s, hs, _⟩ := hid
  unfold ScopeTree.restriction at hs ⊢
  cases hfound : (t'.getSymbol id').bind fun s' =>
      if t'.getLocalSymbolId getRootScopeId s'.name = some id' then
        t.getLocalSymbolId getRootScopeId s'.name
      else none with
  | none =>
    -- a number behind all symbols
    rw [hfound, Option.getD_none] at hs
    obtain ⟨hlt, _⟩ := List.getElem?_eq_some_iff.mp hs
    omega
  | some id =>
    obtain ⟨s', hs', hfound⟩ := Option.bind_eq_some_iff.mp hfound
    rw [Option.getD_some]
    by_cases hroot : t'.getLocalSymbolId getRootScopeId s'.name = some id'
    · rw [if_pos hroot] at hfound
      obtain ⟨s₁, hs₁, _, hname⟩ := h.wellFormed.named _ _ _ hfound
      unfold ScopeTree.renaming
      rw [hs₁, Option.bind_some, hname, hroot, Option.getD_some]
    · rw [if_neg hroot] at hfound
      cases hfound

theorem PartPaired.dataTypeSymbol (h : PartPaired t t' π program) {id : SymbolId}
    (hid : t.IsDataType id) : ∃ s s', t.getLocalSymbol getRootScopeId s.name = some s ∧
      s.id = id ∧ Paired t t' π s s' := by
  obtain ⟨s, hs, hkind⟩ := hid
  obtain ⟨hlocal, rfl⟩ := h.rooted.find hs (by rw [hkind]; rfl)
  obtain ⟨s', _, hpaired⟩ := h.globals _ s hlocal
  exact ⟨s, s', hlocal, rfl, hpaired⟩

/-- Renamed and restricted, a type of the part is the same. -/
theorem PartPaired.mapSymbols_back (h : PartPaired t t' π program) {T : TypeVariant}
    (hT : T.Concrete t) :
    (T.mapSymbols (t.renaming t')).mapSymbols (t.restriction t') = T := by
  induction T with
  | IntType => rfl
  | DataType id =>
    obtain ⟨s, s', hs, rfl, hpaired⟩ := h.dataTypeSymbol hT
    rw [TypeVariant.mapSymbols, TypeVariant.mapSymbols, h.renaming_eq hs hpaired,
      h.restriction_eq hs hpaired]
  | FunctionType P R ihP ihR => simp only [TypeVariant.mapSymbols, ihP hT.1, ihR hT.2]

/-- A type of the whole whose restriction is one of the part is that type. -/
theorem PartPaired.mapSymbols_there (h : PartPaired t t' π program) {T' : TypeVariant}
    (hT' : (T'.mapSymbols (t.restriction t')).Concrete t) :
    (T'.mapSymbols (t.restriction t')).mapSymbols (t.renaming t') = T' := by
  induction T' with
  | IntType => rfl
  | DataType id' =>
    rw [TypeVariant.mapSymbols, TypeVariant.mapSymbols, h.renaming_restriction hT']
  | FunctionType P R ihP ihR => simp only [TypeVariant.mapSymbols, ihP hT'.1, ihR hT'.2]

theorem PartPaired.mapSymbols_all_back (h : PartPaired t t' π program) {Ts : List TypeVariant}
    (hTs : ∀ T ∈ Ts, T.Concrete t) :
    (Ts.map (TypeVariant.mapSymbols (t.renaming t'))).map
      (TypeVariant.mapSymbols (t.restriction t')) = Ts := by
  rw [List.map_map]
  conv_rhs => rw [← List.map_id' Ts]
  exact List.map_congr_left fun T hT => h.mapSymbols_back (hTs T hT)

/-! ## Declared types -/

theorem namesType_concrete (hscoped : t.ProgramScoped program) {field : String} {T : TypeVariant}
    (hT : t.NamesType field T) : T.Concrete t := by
  obtain ⟨s, hs, ⟨_, rfl⟩ | ⟨hkind, rfl⟩⟩ := hT
  · trivial
  · exact ⟨s, (hscoped.named _ _ _ hs).1, hkind⟩

theorem PartPaired.namesType (h : PartPaired t t' π program) {field : String} {T : TypeVariant}
    (hT : t.NamesType field T) : t'.NamesType field (T.mapSymbols (t.renaming t')) := by
  obtain ⟨s, hs, hkind⟩ := hT
  obtain ⟨s', hs', hpaired⟩ := h.globals field s hs
  refine ⟨s', hs', ?_⟩
  rcases hkind with ⟨hkind, rfl⟩ | ⟨hkind, rfl⟩
  · exact .inl ⟨hpaired.kind.trans hkind, rfl⟩
  · right
    refine ⟨hpaired.kind.trans hkind, ?_⟩
    rw [dataType, TypeVariant.mapSymbols, h.renaming_eq hs hpaired]
    rfl

/-- What the part declares, the whole declares. -/
theorem PartPaired.declares (h : PartPaired t t' π program) (hpart : PartOf π program program')
    {s s' : Symbol} (hpaired : Paired t t' π s s') {signature : ConstructorSignature}
    (hs : Declares t program s.id signature) :
    Declares t' program' s'.id (signature.mapSymbols (t.renaming t')) := by
  obtain ⟨dt, hdt, ctor, hctor, ds, hds, hdata, ⟨c, hc, hid⟩, hfields⟩ := hs
  obtain ⟨ds', hds', hpairedds⟩ := h.globals _ ds hds
  obtain ⟨c', hc', hpairedc⟩ := h.globals _ c hc
  have hsame : c = s := by
    have hsymbol := (h.wellFormed.local hc).2.1
    rw [hid, hpaired.atHome.getSymbol h.wellFormed] at hsymbol
    exact (Option.some.inj hsymbol).symm
  subst hsame
  obtain rfl := hpairedc.right_unique hpaired
  refine ⟨dt.mapIds π, hpart.dataType hdt, ctor.mapIds π, List.mem_map.mpr ⟨ctor, hctor, rfl⟩,
    ds', hds', ?_, ⟨c', hc', rfl⟩, ?_⟩
  · rw [ConstructorSignature.mapSymbols, hdata, h.renaming_eq hds hpairedds]
  · unfold ConstructorSignature.mapSymbols
    rw [List.forall₂_map_right_iff]
    exact hfields.imp fun _ _ hT => h.namesType hT

theorem declares_concrete (hscoped : t.ProgramScoped program) {id : SymbolId}
    {signature : ConstructorSignature} (hs : Declares t program id signature) :
    (∀ T ∈ signature.fields, T.Concrete t) ∧ (dataType signature.data_type).Concrete t := by
  obtain ⟨dt, hdt, _, _, ds, hds, hdata, _, hfields⟩ := hs
  constructor
  · intro T hT
    obtain ⟨field, _, hnames⟩ := forall₂_mem hfields.flip hT
    exact namesType_concrete hscoped hnames
  · obtain ⟨ds₁, hds₁, hkind, _⟩ := global_symbol hscoped
      (mem_globalFrame hdt (b := ⟨dt.name, .DataType, dt.id⟩) List.mem_cons_self)
    rw [show t.getLocalSymbol getRootScopeId dt.name = some ds₁ from hds₁] at hds
    cases hds
    rw [hdata]
    exact ⟨ds, (hscoped.named _ _ _ hds₁).1, hkind⟩

/-- Renamed and restricted, the signature of a constructor of the part is the same. -/
theorem PartPaired.signature_back (h : PartPaired t t' π program)
    (hscoped : t.ProgramScoped program) {id : SymbolId} {signature : ConstructorSignature}
    (hs : Declares t program id signature) :
    (signature.mapSymbols (t.renaming t')).mapSymbols (t.restriction t') = signature := by
  obtain ⟨hfields, hdata⟩ := declares_concrete hscoped hs
  have hback := h.mapSymbols_back hdata
  unfold dataType at hback
  simp only [TypeVariant.mapSymbols, TypeVariant.DataType.injEq] at hback
  unfold ConstructorSignature.mapSymbols
  simp only
  rw [h.mapSymbols_all_back hfields, hback]

/-! ## The typing of the part -/

/-- The second typing, of the part, gives a symbol the restricted type of the
symbol that it stands for. -/
def Restricts (t t' : ScopeTree) (π : NodeId → NodeId) (τ' τ : Typing) : Prop :=
  ∀ s s', Paired t t' π s s' → τ s.id = (τ' s'.id).mapSymbols (t.restriction t')

def Typing.restricted (t t' : ScopeTree) (π : NodeId → NodeId) (τ' : Typing) : Typing := fun id =>
  match (t.getSymbol id).bind fun s => t'.symbolOf (s.binder.mapIds π) with
  | some s' => (τ' s'.id).mapSymbols (t.restriction t')
  | none => intType

theorem PartPaired.restricts (h : PartPaired t t' π program) (τ' : Typing) :
    Restricts t t' π τ' (τ'.restricted t t' π) := by
  intro s s' hpaired
  have hs' := hpaired.atHome'
  unfold ScopeTree.AtHome at hs'
  unfold Typing.restricted
  rw [hpaired.atHome.getSymbol h.wellFormed, Option.bind_some, ← hpaired.binder, hs']

variable {τ τ' τ₀ : Typing} {types : TypeTable}

theorem Restricts.boundNames (hτ : Restricts t t' π τ' τ) {sid sid' : ScopeId}
    (hscope : SymbolsPaired t t' π sid sid') {names : List String} {Ts' : List TypeVariant}
    (hTs' : List.Forall₂ (fun name T' => ∃ s', t'.getLocalSymbol sid' name = some s' ∧
      τ' s'.id = T') names Ts') :
    List.Forall₂ (fun name T => ∃ s, t.getLocalSymbol sid name = some s ∧ τ s.id = T)
      names (Ts'.map (TypeVariant.mapSymbols (t.restriction t'))) := by
  rw [List.forall₂_map_right_iff]
  refine hTs'.imp fun name T' hs' => ?_
  obtain ⟨s', hs', rfl⟩ := hs'
  have hrel := hscope name
  rw [hs'] at hrel
  obtain ⟨s, hs, hpaired⟩ := rel_some_right hrel
  exact ⟨s, hs, hτ s s' hpaired⟩

/-- The part is accepted, and the typing of the whole checks. -/
structure Restriction (t t' : ScopeTree) (π : NodeId → NodeId) (program program' : Program)
    (types : TypeTable) (τ₀ τ' τ : Typing) : Prop where
  paired : PartPaired t t' π program
  part : PartOf π program program'
  checked : Checked t program types τ₀
  scoped' : t'.ProgramScoped program'
  typing' : IsTyping t' program' τ'
  restricts : Restricts t t' π τ' τ

/-- A constructor of the part is declared in the whole as in the part. -/
theorem Restriction.declared (h : Restriction t t' π program program' types τ₀ τ' τ)
    {s s' : Symbol} (hpaired : Paired t t' π s s') {signature' : ConstructorSignature}
    (hs' : Declares t' program' s'.id signature') :
    Declares t program s.id (signature'.mapSymbols (t.restriction t')) := by
  have hkind : s.kind = .Constructor := by
    obtain ⟨dt', hdt', ctor', hctor', _, _, _, ⟨c', hc', hid⟩, _⟩ := hs'
    obtain ⟨c₁, hc₁, hkind, _⟩ := global_symbol h.scoped'
      (mem_globalFrame hdt' (b := ⟨ctor'.name, .Constructor, ctor'.id⟩)
        (List.mem_cons_of_mem _ (List.mem_map.mpr ⟨ctor', hctor', rfl⟩)))
    rw [show t'.getLocalSymbol getRootScopeId ctor'.name = some c₁ from hc₁] at hc'
    cases hc'
    have hsymbol := (h.scoped'.named _ _ _ hc₁).1
    rw [hid, hpaired.atHome'.getSymbol h.paired.wellFormed'] at hsymbol
    cases hsymbol
    exact hpaired.kind.symm.trans hkind
  obtain ⟨signature, _, hdeclares⟩ := h.checked.sound.constructors s.id s
    (hpaired.atHome.getSymbol h.paired.wellFormed) hkind
  have hthere := h.paired.declares h.part hpaired hdeclares
  rw [visitors.declares_unique h.typing' hs' hthere,
    h.paired.signature_back h.checked.scopes hdeclares]
  exact hdeclares

theorem Restriction.patternHasType (h : Restriction t t' π program program' types τ₀ τ' τ)
    {p : Pattern} (hp : PatternPaired t t' π p) {S' : TypeVariant}
    (hS' : PatternHasType t' program' τ' S' (p.mapIds π)) :
    PatternHasType t program τ (S'.mapSymbols (t.restriction t')) p := by
  obtain ⟨⟨sid, sid', hsid, hsid', hscope⟩, huse⟩ := hp
  cases p with
  | VariablePattern id name =>
    obtain ⟨sid₁, s', hsid₁, hs', rfl⟩ := hS'
    rw [show t'.getScopeId (π id) = some sid' from hsid'] at hsid₁
    cases hsid₁
    have hrel := hscope name
    rw [hs'] at hrel
    obtain ⟨s, hs, hpaired⟩ := rel_some_right hrel
    exact ⟨sid, s, hsid, hs, h.restricts s s' hpaired⟩
  | ConstructorPattern id name arguments =>
    obtain ⟨ctor', signature', hctor', hdeclares', rfl, sid₁, hsid₁, hall⟩ := hS'
    rw [show t'.getScopeId (π id) = some sid' from hsid'] at hsid₁
    cases hsid₁
    have hrel : UsePaired t t' π id := huse
    unfold UsePaired at hrel
    rw [hctor'] at hrel
    obtain ⟨ctor, hctor, hpaired⟩ := rel_some_right hrel
    exact ⟨ctor, _, hctor, h.declared hpaired hdeclares', rfl, sid, hsid,
      h.restricts.boundNames hscope hall⟩

theorem Restriction.hasType (h : Restriction t t' π program program' types τ₀ τ' τ)
    {e : Expression} (he : ExpressionPaired t t' π e) {T' : TypeVariant}
    (hT' : HasType t' program' τ' (e.mapIds π) T') :
    HasType t program τ e (T'.mapSymbols (t.restriction t')) := by
  induction e generalizing T' with
  | IntLiteral id value =>
    cases hT'
    exact .IntLiteral
  | Variable id name =>
    cases hT' with
    | Variable hs' =>
      have hrel : UsePaired t t' π id := he
      unfold UsePaired at hrel
      rw [hs'] at hrel
      obtain ⟨s, hs, hpaired⟩ := rel_some_right hrel
      rw [← h.restricts s _ hpaired]
      exact .Variable hs
  | BinaryOperator kind id l r ihl ihr =>
    cases hT' with
    | BinaryOperator hl hr => exact .BinaryOperator (ihl he.1 hl) (ihr he.2 hr)
  | Application id f a ihf iha =>
    cases hT' with
    | Application hf ha => exact .Application (ihf he.1 hf) (iha he.2 ha)
  | CaseExpression id s bs ihs ihbs =>
    obtain ⟨hes, hebs⟩ := he
    rw [branchesPaired_iff] at hebs
    simp only [Expression.mapIds, mapIdsBranches_eq] at hT'
    cases hT' with
    | CaseExpression hS hpats hbodies =>
      have hmem : ∀ b ∈ bs, b.mapIds π ∈ bs.map (Branch.mapIds π) := fun b hb =>
        List.mem_map_of_mem hb
      exact .CaseExpression (ihs hes hS)
        (fun b hb => h.patternHasType (hebs b hb).1 (hpats _ (hmem b hb)))
        fun b hb => ihbs b hb (hebs b hb).2 (hbodies _ (hmem b hb))

theorem Restriction.functionHasType (h : Restriction t t' π program program' types τ₀ τ' τ)
    {fd : FunctionDefinition} (hfd : .FunctionDefinition fd ∈ program.definitions)
    {signature' : FunctionSignature}
    (hT' : FunctionHasType t' program' τ' (fd.mapIds π) signature') :
    FunctionHasType t program τ fd (signature'.mapSymbols (t.restriction t')) := by
  obtain ⟨⟨s', hs', hfun⟩, ⟨sid₁, hsid₁, hall⟩, hbody⟩ := hT'
  obtain ⟨⟨sid, sid', hsid, hsid', hscope⟩, he⟩ := h.paired.functions fd hfd
  rw [show t'.getScopeId (fd.mapIds π).id = some sid' from hsid'] at hsid₁
  cases hsid₁
  obtain ⟨s, _, hs, _⟩ := h.checked.functions fd hfd
  obtain ⟨s₁, hs₁, hpaired⟩ := h.paired.globals fd.name s hs
  rw [show t'.getLocalSymbol getRootScopeId fd.name = some s' from hs'] at hs₁
  cases hs₁
  refine ⟨⟨s, hs, ?_⟩, ⟨sid, hsid, h.restricts.boundNames hscope hall⟩, h.hasType he hbody⟩
  rw [h.restricts s s' hpaired, hfun, functionTypes_mapSymbols]
  rfl

/-- The restricted typing checks. -/
theorem Restriction.isTyping (h : Restriction t t' π program program' types τ₀ τ' τ) :
    IsTyping t program τ := by
  constructor
  · intro name s T hs hT
    obtain ⟨s', hs', hpaired⟩ := h.paired.globals name s hs
    rw [h.restricts s s' hpaired,
      h.typing'.types name s' _ hs' (h.paired.namesType hT),
      h.paired.mapSymbols_back (namesType_concrete h.checked.scopes hT)]
  · intro id signature hdeclares
    have hdeclared := hdeclares
    obtain ⟨_, _, ctor, _, _, _, _, ⟨s, hs, rfl⟩, _⟩ := hdeclared
    obtain ⟨s', _, hpaired⟩ := h.paired.globals ctor.name s hs
    obtain ⟨hfields, hdata⟩ := declares_concrete h.checked.scopes hdeclares
    rw [h.restricts s s' hpaired,
      h.typing'.constructors _ _ (h.paired.declares h.part hpaired hdeclares),
      functionTypes_mapSymbols]
    unfold ConstructorSignature.mapSymbols
    rw [h.paired.mapSymbols_all_back hfields]
    congr 1
    exact h.paired.mapSymbols_back hdata
  · intro fd hfd
    obtain ⟨signature', hT'⟩ := h.typing'.functions _ (h.part.function hfd)
    exact ⟨_, h.functionHasType hfd hT'⟩

/-! ## Signatures -/

/-- The table has the one signature that a function has in all typings. -/
def TypeTable.Determines (table : TypeTable) (t : ScopeTree) (program : Program) : Prop :=
  ∀ τ, IsTyping t program τ → ∀ fd, .FunctionDefinition fd ∈ program.definitions →
    ∃ s signature, t.getLocalSymbol getRootScopeId fd.name = some s ∧
      table.getFunctionSignature s.id = some signature ∧ FunctionHasType t program τ fd signature

theorem analyzeTypes_determines {tokens : TokenVector} {p : ParsedProgram}
    {result : TypeAnalysisResult} (hl : tokens.Lexed) (hp : parse tokens = .ok p)
    (hok : (analyze p).ok) (hrun : analyzeTypes p (analyze p) = some result)
    (hresult : result.ok) : result.types.Determines (analyze p).scopes p.ast := by
  obtain ⟨st, result', hrun', _, h, hsettled⟩ := analyzeTypes_run hl hp hok
  rw [hrun] at hrun'
  cases hrun'
  obtain ⟨hsilent, hdetermined, -⟩ := hsettled.ok.mp hresult
  intro τ hτ fd hfd
  obtain ⟨s, internal, signature, hs, hfind, hfun, _⟩ := h.settled hsilent hdetermined hfd
  exact ⟨s, signature, hs, (hsettled.functions _ _).mpr ⟨internal, hfind, hfun⟩,
    hfun.hasType h hsilent (h.fields hsilent) hτ hfd hs hfind⟩

/-- An accepted program in which an accepted one is a part. -/
structure Embedded (t t' : ScopeTree) (π : Equiv.Perm NodeId) (program program' : Program)
    (types types' : TypeTable) (τ τ' : Typing) : Prop where
  paired : PartPaired t t' π program
  part : PartOf π program program'
  checked : Checked t program types τ
  checked' : Checked t' program' types' τ'
  determines : types.Determines t program

variable {types' : TypeTable}

/-- The signature of a function of the part is the one that it has in the whole. -/
theorem Embedded.functionSignature (h : Embedded t t' π program program' types types' τ τ')
    {fd : FunctionDefinition} (hfd : .FunctionDefinition fd ∈ program.definitions) :
    ∃ s s' signature, t.getLocalSymbol getRootScopeId fd.name = some s ∧
      t'.getLocalSymbol getRootScopeId fd.name = some s' ∧ Paired t t' π s s' ∧
      types.getFunctionSignature s.id = some signature ∧
      types'.getFunctionSignature s'.id = some (signature.mapSymbols (t.renaming t')) := by
  have hrestriction : Restriction t t' π program program' types τ τ' (τ'.restricted t t' π) :=
    ⟨h.paired, h.part, h.checked, h.checked'.scopes, h.checked'.typing.checks,
      h.paired.restricts τ'⟩
  obtain ⟨s', signature', hs', hfind', hT'⟩ := h.checked'.functions _ (h.part.function hfd)
  obtain ⟨s, signature, hs, hfind, hT⟩ :=
    h.determines _ hrestriction.isTyping fd hfd
  obtain ⟨s₁, hs₁, hpaired⟩ := h.paired.globals fd.name s hs
  rw [show t'.getLocalSymbol getRootScopeId fd.name = some s' from hs'] at hs₁
  cases hs₁
  have hrestricted := functionHasType_unique hT (hrestriction.functionHasType hfd hT')
  -- the types of the signature are those of the part
  obtain ⟨s₂, signature₂, hs₂, hfind₂, ⟨s₃, hs₃, htype⟩, _⟩ := h.checked.functions fd hfd
  rw [hs] at hs₂ hs₃
  cases hs₂
  cases hs₃
  rw [hfind] at hfind₂
  cases hfind₂
  have hconcrete := h.checked.typing.concrete s.id ⟨fd, hfd, .inl ⟨s, hs, rfl⟩⟩
  rw [htype] at hconcrete
  obtain ⟨hparameters, hresult⟩ := functionTypes_concrete hconcrete
  refine ⟨s, s', signature, hs, hs', hpaired, hfind, ?_⟩
  rw [hfind', hrestricted]
  rw [hrestricted] at hparameters hresult
  congr 1
  unfold FunctionSignature.mapSymbols at hparameters hresult ⊢
  simp only at hparameters hresult ⊢
  rw [h.paired.mapSymbols_there hresult, List.map_map]
  have hback : signature'.parameters.map (TypeVariant.mapSymbols (t.renaming t') ∘
      TypeVariant.mapSymbols (t.restriction t')) = signature'.parameters := by
    conv_rhs => rw [← List.map_id' signature'.parameters]
    exact List.map_congr_left fun T' hT' =>
      h.paired.mapSymbols_there (hparameters _ (List.mem_map_of_mem hT'))
  rw [hback]

/-- The same of a constructor. -/
theorem Embedded.constructorSignature (h : Embedded t t' π program program' types types' τ τ')
    {s s' : Symbol} (hpaired : Paired t t' π s s') (hkind : s.kind = .Constructor) :
    ∃ signature, types.getConstructorSignature s.id = some signature ∧
      types'.getConstructorSignature s'.id = some (signature.mapSymbols (t.renaming t')) := by
  obtain ⟨signature, hfind, hdeclares⟩ := h.checked.sound.constructors s.id s
    (hpaired.atHome.getSymbol h.paired.wellFormed) hkind
  obtain ⟨signature', hfind', hdeclares'⟩ := h.checked'.sound.constructors s'.id s'
    (hpaired.atHome'.getSymbol h.paired.wellFormed') (hpaired.kind.trans hkind)
  have hthere := h.paired.declares h.part hpaired hdeclares
  refine ⟨signature, hfind, ?_⟩
  rw [hfind', visitors.declares_unique h.checked'.typing.checks hdeclares' hthere]

end

end mf.semantics
