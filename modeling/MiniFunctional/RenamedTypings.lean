-- Typings of a program and of the same program with its definitions in
-- another order: each typing of the one is a typing of the other, once the
-- data types in it are renamed by their names.
import MiniFunctional.PairedSymbols
import MiniFunctional.Typing

open mf.util mf.ast mf.parsing mf.tokenization

namespace mf.semantics

open ScopeTree

/-! ## Renaming of types -/

@[simp] def TypeVariant.mapSymbols (f : SymbolId → SymbolId) : TypeVariant → TypeVariant
  | .IntType => .IntType
  | .DataType symbol => .DataType (f symbol)
  | .FunctionType parameter result =>
    .FunctionType (parameter.mapSymbols f) (result.mapSymbols f)

def ConstructorSignature.mapSymbols (f : SymbolId → SymbolId) (signature : ConstructorSignature) :
    ConstructorSignature :=
  ⟨f signature.data_type, signature.fields.map (TypeVariant.mapSymbols f)⟩

def FunctionSignature.mapSymbols (f : SymbolId → SymbolId) (signature : FunctionSignature) :
    FunctionSignature :=
  ⟨signature.parameters.map (TypeVariant.mapSymbols f), signature.result.mapSymbols f⟩

theorem containsFunctionType_mapSymbols (f : SymbolId → SymbolId) (T : TypeVariant) :
    containsFunctionType (T.mapSymbols f) = containsFunctionType T := by
  cases T <;> rfl

theorem functionTypes_mapSymbols (f : SymbolId → SymbolId) (Ps : List TypeVariant)
    (R : TypeVariant) : (functionTypes Ps R).mapSymbols f =
      functionTypes (Ps.map (TypeVariant.mapSymbols f)) (R.mapSymbols f) := by
  induction Ps with
  | nil => rfl
  | cons P Ps ih =>
    change functionType (P.mapSymbols f) ((functionTypes Ps R).mapSymbols f) = _
    rw [ih]
    rfl

/-- The symbol that has the same name in the global scope of the other tree. -/
def ScopeTree.renaming (t t' : ScopeTree) (id : SymbolId) : SymbolId :=
  ((t.getSymbol id).bind fun s => t'.getLocalSymbolId getRootScopeId s.name).getD id

section

variable {t t' : ScopeTree} {π : Equiv.Perm NodeId} {program program' : Program}

theorem ProgramPaired.global (h : ProgramPaired t t' π program) {name : String} {s : Symbol}
    (hs : t.getLocalSymbol getRootScopeId name = some s) :
    ∃ s', t'.getLocalSymbol getRootScopeId name = some s' ∧ Paired t t' π s s' := by
  have hrel := h.globals name
  rw [hs] at hrel
  exact rel_some hrel

theorem ProgramPaired.global_right (h : ProgramPaired t t' π program) {name : String} {s' : Symbol}
    (hs' : t'.getLocalSymbol getRootScopeId name = some s') :
    ∃ s, t.getLocalSymbol getRootScopeId name = some s ∧ Paired t t' π s s' := by
  have hrel := h.globals name
  rw [hs'] at hrel
  exact rel_some_right hrel

/-- The renaming takes a global symbol to the one that it stands for. -/
theorem ProgramPaired.renaming_eq (h : ProgramPaired t t' π program) {name : String}
    {s s' : Symbol} (hs : t.getLocalSymbol getRootScopeId name = some s)
    (hpaired : Paired t t' π s s') : t.renaming t' s.id = s'.id := by
  obtain ⟨s₁, hs₁, hpaired₁⟩ := h.global hs
  obtain rfl := hpaired₁.right_unique hpaired
  have hlocal := h.wellFormed.local hs
  unfold ScopeTree.renaming
  rw [hlocal.2.1, Option.bind_some, hlocal.2.2, (h.wellFormed'.local hs₁).1, Option.getD_some]

theorem ProgramPaired.dataTypeSymbol (h : ProgramPaired t t' π program) {id : SymbolId}
    (hid : t.IsDataType id) : ∃ s s', t.getLocalSymbol getRootScopeId s.name = some s ∧
      s.id = id ∧ s.kind = .DataType ∧ Paired t t' π s s' := by
  obtain ⟨s, hs, hkind⟩ := hid
  obtain ⟨hlocal, rfl⟩ := h.rooted.find hs (by rw [hkind]; rfl)
  obtain ⟨s', hs', hpaired⟩ := h.global hlocal
  exact ⟨s, s', hlocal, rfl, hkind, hpaired⟩

theorem ProgramPaired.concrete (h : ProgramPaired t t' π program) {T : TypeVariant}
    (hT : T.Concrete t) : (T.mapSymbols (t.renaming t')).Concrete t' := by
  induction T with
  | IntType => trivial
  | DataType id =>
    obtain ⟨s, s', hs, rfl, hkind, hpaired⟩ := h.dataTypeSymbol hT
    refine ⟨s', ?_, hpaired.kind.trans hkind⟩
    rw [h.renaming_eq hs hpaired]
    exact hpaired.atHome'.getSymbol h.wellFormed'
  | FunctionType P R ihP ihR => exact ⟨ihP hT.1, ihR hT.2⟩

/-- Renamed there and back, a type of the program is the same. -/
theorem ProgramPaired.mapSymbols_back (h : ProgramPaired t t' π program) {T : TypeVariant}
    (hT : T.Concrete t) :
    (T.mapSymbols (t.renaming t')).mapSymbols (t'.renaming t) = T := by
  induction T with
  | IntType => rfl
  | DataType id =>
    obtain ⟨s, s', hs, rfl, hkind, hpaired⟩ := h.dataTypeSymbol hT
    have hback : t'.renaming t s'.id = s.id := by
      unfold ScopeTree.renaming
      rw [hpaired.atHome'.getSymbol h.wellFormed', Option.bind_some, hpaired.name,
        (h.wellFormed.local hs).1, Option.getD_some]
    rw [TypeVariant.mapSymbols, h.renaming_eq hs hpaired, TypeVariant.mapSymbols, hback]
  | FunctionType P R ihP ihR =>
    simp only [TypeVariant.mapSymbols, ihP hT.1, ihR hT.2]

/-! ## Declared types -/

theorem ProgramPaired.namesType (h : ProgramPaired t t' π program) {field : String}
    {T : TypeVariant} (hT : t.NamesType field T) :
    t'.NamesType field (T.mapSymbols (t.renaming t')) := by
  obtain ⟨s, hs, hkind⟩ := hT
  obtain ⟨s', hs', hpaired⟩ := h.global hs
  refine ⟨s', hs', ?_⟩
  rcases hkind with ⟨hkind, rfl⟩ | ⟨hkind, rfl⟩
  · exact .inl ⟨hpaired.kind.trans hkind, rfl⟩
  · right
    refine ⟨hpaired.kind.trans hkind, ?_⟩
    rw [dataType, TypeVariant.mapSymbols, h.renaming_eq hs hpaired]
    rfl

theorem ProgramPaired.namesTypes (h : ProgramPaired t t' π program) {fields : List String}
    {Ts : List TypeVariant} (hTs : List.Forall₂ t.NamesType fields Ts) :
    List.Forall₂ t'.NamesType fields (Ts.map (TypeVariant.mapSymbols (t.renaming t'))) := by
  rw [List.forall₂_map_right_iff]
  exact hTs.imp fun _ _ hT => h.namesType hT

/-- The other program names no other types. -/
theorem ProgramPaired.namesType_right (h : ProgramPaired t t' π program) {field : String}
    {T' : TypeVariant} (hT' : t'.NamesType field T') :
    ∃ T, t.NamesType field T ∧ T' = T.mapSymbols (t.renaming t') := by
  obtain ⟨s', hs', hkind⟩ := hT'
  obtain ⟨s, hs, hpaired⟩ := h.global_right hs'
  rw [hpaired.kind] at hkind
  rcases hkind with ⟨hkind, rfl⟩ | ⟨hkind, rfl⟩
  · exact ⟨intType, ⟨s, hs, .inl ⟨hkind, rfl⟩⟩, rfl⟩
  · refine ⟨dataType s.id, ⟨s, hs, .inr ⟨hkind, rfl⟩⟩, ?_⟩
    rw [dataType, dataType, TypeVariant.mapSymbols, h.renaming_eq hs hpaired]

theorem ProgramPaired.namesTypes_right (h : ProgramPaired t t' π program) {fields : List String}
    {Ts' : List TypeVariant} (hTs' : List.Forall₂ t'.NamesType fields Ts') :
    ∃ Ts, List.Forall₂ t.NamesType fields Ts ∧
      Ts' = Ts.map (TypeVariant.mapSymbols (t.renaming t')) := by
  induction hTs' with
  | nil => exact ⟨[], .nil, rfl⟩
  | cons hT' _ ih =>
    obtain ⟨T, hT, rfl⟩ := h.namesType_right hT'
    obtain ⟨Ts, hTs, rfl⟩ := ih
    exact ⟨T :: Ts, .cons hT hTs, rfl⟩

theorem ProgramPaired.declares (h : ProgramPaired t t' π program)
    (hre : Reordered π program program') {s s' : Symbol} (hpaired : Paired t t' π s s')
    {signature : ConstructorSignature} (hs : Declares t program s.id signature) :
    Declares t' program' s'.id (signature.mapSymbols (t.renaming t')) := by
  obtain ⟨dt, hdt, ctor, hctor, ds, hds, hdata, ⟨c, hc, hid⟩, hfields⟩ := hs
  obtain ⟨ds', hds', hpairedds⟩ := h.global hds
  obtain ⟨c', hc', hpairedc⟩ := h.global hc
  have hsame : c = s := by
    have hsymbol := (h.wellFormed.local hc).2.1
    rw [hid, hpaired.atHome.getSymbol h.wellFormed] at hsymbol
    exact (Option.some.inj hsymbol).symm
  subst hsame
  obtain rfl := hpairedc.right_unique hpaired
  refine ⟨dt.mapIds π, hre.dataType hdt, ctor.mapIds π, List.mem_map.mpr ⟨ctor, hctor, rfl⟩,
    ds', hds', ?_, ⟨c', hc', rfl⟩, h.namesTypes hfields⟩
  rw [ConstructorSignature.mapSymbols, hdata, h.renaming_eq hds hpairedds]

/-- A constructor that the other program declares, this program declares. -/
theorem ProgramPaired.declared (h : ProgramPaired t t' π program)
    (hre : Reordered π program program') {id' : SymbolId} {signature' : ConstructorSignature}
    (hs' : Declares t' program' id' signature') : ∃ s s' signature, s'.id = id' ∧
      Paired t t' π s s' ∧ Declares t program s.id signature ∧
      signature' = signature.mapSymbols (t.renaming t') := by
  obtain ⟨dt', hdt', ctor', hctor', ds', hds', hdata, ⟨c', hc', rfl⟩, hfields⟩ := hs'
  obtain ⟨dt, hdt, rfl⟩ := hre.dataType_right hdt'
  obtain ⟨ctor, hctor, rfl⟩ := List.mem_map.mp hctor'
  obtain ⟨ds, hds, hpairedds⟩ := h.global_right hds'
  obtain ⟨c, hc, hpairedc⟩ := h.global_right hc'
  obtain ⟨fields, hnames, hmap⟩ := h.namesTypes_right hfields
  refine ⟨c, c', ⟨ds.id, fields⟩, rfl, hpairedc,
    ⟨dt, hdt, ctor, hctor, ds, hds, rfl, ⟨c, hc, rfl⟩, hnames⟩, ?_⟩
  rw [ConstructorSignature.mapSymbols, h.renaming_eq hds hpairedds, ← hdata, ← hmap]

/-! ## Typings -/

/-- The second typing gives paired symbols the renamed types of the first. -/
def Carries (t t' : ScopeTree) (π : NodeId → NodeId) (τ τ' : Typing) : Prop :=
  ∀ s s', Paired t t' π s s' → τ' s'.id = (τ s.id).mapSymbols (t.renaming t')

/-- The typing of the other program. -/
def Typing.along (t t' : ScopeTree) (π : NodeId → NodeId) (τ : Typing) : Typing := fun id' =>
  match (t'.getSymbol id').bind fun s' => t.symbolOf (s'.binder.mapIds π) with
  | some s => (τ s.id).mapSymbols (t.renaming t')
  | none => intType

theorem ProgramPaired.carries (h : ProgramPaired t t' π program) (τ : Typing) :
    Carries t t' π τ (τ.along t t' π.symm) := by
  intro s s' hpaired
  have hs := hpaired.atHome
  unfold ScopeTree.AtHome at hs
  unfold Typing.along
  rw [hpaired.atHome'.getSymbol h.wellFormed', Option.bind_some, ← hpaired.symm.binder, hs]

section

variable {τ τ' : Typing}

theorem Carries.boundNames (hτ : Carries t t' π τ τ') {sid sid' : ScopeId}
    (hscope : SymbolsPaired t t' π sid sid') {names : List String} {Ts : List TypeVariant}
    (hTs : List.Forall₂ (fun name T => ∃ s, t.getLocalSymbol sid name = some s ∧ τ s.id = T)
      names Ts) :
    List.Forall₂ (fun name T => ∃ s', t'.getLocalSymbol sid' name = some s' ∧ τ' s'.id = T)
      names (Ts.map (TypeVariant.mapSymbols (t.renaming t'))) := by
  rw [List.forall₂_map_right_iff]
  refine hTs.imp fun name T hs => ?_
  obtain ⟨s, hs, rfl⟩ := hs
  have hrel := hscope name
  rw [hs] at hrel
  obtain ⟨s', hs', hpaired⟩ := rel_some hrel
  exact ⟨s', hs', hτ s s' hpaired⟩

theorem Carries.patternHasType (hτ : Carries t t' π τ τ') (h : ProgramPaired t t' π program)
    (hre : Reordered π program program') {p : Pattern} (hp : PatternPaired t t' π p)
    {S : TypeVariant} (hS : PatternHasType t program τ S p) :
    PatternHasType t' program' τ' (S.mapSymbols (t.renaming t')) (p.mapIds π) := by
  obtain ⟨⟨sid, sid', hsid, hsid', hscope⟩, huse⟩ := hp
  cases p with
  | VariablePattern id name =>
    obtain ⟨sid₁, s, hsid₁, hs, rfl⟩ := hS
    rw [show t.getScopeId id = some sid from hsid] at hsid₁
    cases hsid₁
    have hrel := hscope name
    rw [hs] at hrel
    obtain ⟨s', hs', hpaired⟩ := rel_some hrel
    exact ⟨sid', s', hsid', hs', hτ s s' hpaired⟩
  | ConstructorPattern id name arguments =>
    obtain ⟨ctor, signature, hctor, hdeclares, rfl, sid₁, hsid₁, hall⟩ := hS
    rw [show t.getScopeId id = some sid from hsid] at hsid₁
    cases hsid₁
    have hrel : UsePaired t t' π id := huse
    unfold UsePaired at hrel
    rw [hctor] at hrel
    obtain ⟨ctor', hctor', hpaired⟩ := rel_some hrel
    exact ⟨ctor', _, hctor', h.declares hre hpaired hdeclares, rfl, sid', hsid',
      hτ.boundNames hscope hall⟩

theorem Carries.hasType (hτ : Carries t t' π τ τ') (h : ProgramPaired t t' π program)
    (hre : Reordered π program program') {e : Expression} (he : ExpressionPaired t t' π e)
    {T : TypeVariant} (hT : HasType t program τ e T) :
    HasType t' program' τ' (e.mapIds π) (T.mapSymbols (t.renaming t')) := by
  induction e generalizing T with
  | IntLiteral id value =>
    cases hT
    exact .IntLiteral
  | Variable id name =>
    cases hT with
    | Variable hs =>
      have hrel : UsePaired t t' π id := he
      unfold UsePaired at hrel
      rw [hs] at hrel
      obtain ⟨s', hs', hpaired⟩ := rel_some hrel
      rw [← hτ _ s' hpaired]
      exact .Variable hs'
  | BinaryOperator kind id l r ihl ihr =>
    cases hT with
    | BinaryOperator hl hr => exact .BinaryOperator (ihl he.1 hl) (ihr he.2 hr)
  | Application id f a ihf iha =>
    cases hT with
    | Application hf ha => exact .Application (ihf he.1 hf) (iha he.2 ha)
  | CaseExpression id s bs ihs ihbs =>
    obtain ⟨hes, hebs⟩ := he
    rw [branchesPaired_iff] at hebs
    cases hT with
    | CaseExpression hS hpats hbodies =>
      simp only [Expression.mapIds, mapIdsBranches_eq]
      refine .CaseExpression (ihs hes hS) (fun b' hb' => ?_) fun b' hb' => ?_
      · obtain ⟨b, hb, rfl⟩ := List.mem_map.mp hb'
        exact hτ.patternHasType h hre (hebs b hb).1 (hpats b hb)
      · obtain ⟨b, hb, rfl⟩ := List.mem_map.mp hb'
        exact ihbs b hb (hebs b hb).2 (hbodies b hb)

theorem Carries.functionHasType (hτ : Carries t t' π τ τ') (h : ProgramPaired t t' π program)
    (hre : Reordered π program program') {fd : FunctionDefinition}
    (hfd : .FunctionDefinition fd ∈ program.definitions) {signature : FunctionSignature}
    (hT : FunctionHasType t program τ fd signature) :
    FunctionHasType t' program' τ' (fd.mapIds π) (signature.mapSymbols (t.renaming t')) := by
  obtain ⟨⟨s, hs, hfun⟩, ⟨sid, hsid, hall⟩, hbody⟩ := hT
  obtain ⟨⟨sid₁, sid', hsid₁, hsid', hscope⟩, he⟩ := h.functions fd hfd
  rw [hsid] at hsid₁
  cases hsid₁
  obtain ⟨s', hs', hpaired⟩ := h.global hs
  refine ⟨⟨s', hs', ?_⟩, ⟨sid', hsid', hτ.boundNames hscope hall⟩, hτ.hasType h hre he hbody⟩
  rw [hτ s s' hpaired, hfun, functionTypes_mapSymbols]
  rfl

theorem Carries.isTyping (hτ : Carries t t' π τ τ') (h : ProgramPaired t t' π program)
    (hre : Reordered π program program') (hT : IsTyping t program τ) :
    IsTyping t' program' τ' := by
  refine ⟨fun name s' T' hs' hT' => ?_, fun id' signature' hs' => ?_, fun fd' hfd' => ?_⟩
  · obtain ⟨s, hs, hpaired⟩ := h.global_right hs'
    obtain ⟨T, hnames, rfl⟩ := h.namesType_right hT'
    rw [hτ s s' hpaired, hT.types name s T hs hnames]
  · obtain ⟨s, s', signature, rfl, hpaired, hdeclares, rfl⟩ := h.declared hre hs'
    rw [hτ s s' hpaired, hT.constructors s.id signature hdeclares, functionTypes_mapSymbols]
    rfl
  · obtain ⟨fd, hfd, rfl⟩ := hre.function_right hfd'
    obtain ⟨signature, hsignature⟩ := hT.functions fd hfd
    exact ⟨_, hτ.functionHasType h hre hfd hsignature⟩

end

/-! ## Concrete typings -/

section

theorem SymbolsPaired.symbolsIn_right {sid sid' : ScopeId}
    (hscope : SymbolsPaired t t' π sid sid') {names : List String} {id' : SymbolId}
    (hid : id' ∈ t'.symbolsIn sid' names) :
    ∃ s s', Paired t t' π s s' ∧ s'.id = id' ∧ s.id ∈ t.symbolsIn sid names := by
  obtain ⟨name, hname, s', hs', rfl⟩ := mem_symbolsIn.mp hid
  have hrel := hscope name
  rw [hs'] at hrel
  obtain ⟨s, hs, hpaired⟩ := rel_some_right hrel
  exact ⟨s, s', hpaired, rfl, mem_symbolsIn.mpr ⟨name, hname, s, hs, rfl⟩⟩

theorem PatternPaired.symbols_right {p : Pattern} (hp : PatternPaired t t' π p) {id' : SymbolId}
    (hid : id' ∈ t'.patternSymbols (p.mapIds π)) :
    ∃ s s', Paired t t' π s s' ∧ s'.id = id' ∧ s.id ∈ t.patternSymbols p := by
  obtain ⟨⟨sid, sid', hsid, hsid', hscope⟩, _⟩ := hp
  have hnames : Pattern.names (p.mapIds π) = Pattern.names p := by cases p <;> rfl
  unfold ScopeTree.patternSymbols at hid ⊢
  rw [Pattern.id_mapIds, hsid', hnames] at hid
  rw [hsid]
  exact hscope.symbolsIn_right hid

theorem ExpressionPaired.bound_right {e : Expression} (he : ExpressionPaired t t' π e)
    {id' : SymbolId} (hid : id' ∈ t'.boundIn (e.mapIds π)) :
    ∃ s s', Paired t t' π s s' ∧ s'.id = id' ∧ s.id ∈ t.boundIn e := by
  induction e with
  | IntLiteral id value => cases hid
  | Variable id name => cases hid
  | BinaryOperator kind id l r ihl ihr | Application id l r ihl ihr =>
    rcases List.mem_append.mp hid with hid | hid
    · obtain ⟨s, s', hpaired, hs', hs⟩ := ihl he.1 hid
      exact ⟨s, s', hpaired, hs', List.mem_append_left _ hs⟩
    · obtain ⟨s, s', hpaired, hs', hs⟩ := ihr he.2 hid
      exact ⟨s, s', hpaired, hs', List.mem_append_right _ hs⟩
  | CaseExpression id scrutinee bs ihs ihbs =>
    obtain ⟨hes, hebs⟩ := he
    rw [branchesPaired_iff] at hebs
    rcases List.mem_append.mp hid with hid | hid
    · obtain ⟨s, s', hpaired, hs', hs⟩ := ihs hes hid
      exact ⟨s, s', hpaired, hs', List.mem_append_left _ hs⟩
    · rw [mapIdsBranches_eq] at hid
      obtain ⟨b', hb', hid⟩ := mem_boundInBranches.mp hid
      obtain ⟨b, hb, rfl⟩ := List.mem_map.mp hb'
      obtain ⟨s, s', hpaired, hs', hs⟩ : ∃ s s', Paired t t' π s s' ∧ s'.id = id' ∧
          (s.id ∈ t.patternSymbols b.pattern ∨ s.id ∈ t.boundIn b.body) := by
        rcases hid with hid | hid
        · obtain ⟨s, s', hpaired, hs', hs⟩ := (hebs b hb).1.symbols_right hid
          exact ⟨s, s', hpaired, hs', .inl hs⟩
        · obtain ⟨s, s', hpaired, hs', hs⟩ := ihbs b hb (hebs b hb).2 hid
          exact ⟨s, s', hpaired, hs', .inr hs⟩
      exact ⟨s, s', hpaired, hs', List.mem_append_right _ (mem_boundInBranches.mpr ⟨b, hb, hs⟩)⟩

/-- The symbols that typings of the other program choose types for stand for
those of this program. -/
theorem ProgramPaired.typed_right (h : ProgramPaired t t' π program)
    (hre : Reordered π program program') {id' : SymbolId} (hid : Typed t' program' id') :
    ∃ s s', Paired t t' π s s' ∧ s'.id = id' ∧ Typed t program s.id := by
  obtain ⟨fd', hfd', hid⟩ := hid
  obtain ⟨fd, hfd, rfl⟩ := hre.function_right hfd'
  obtain ⟨⟨sid, sid', hsid, hsid', hscope⟩, he⟩ := h.functions fd hfd
  rcases hid with ⟨s', hs', rfl⟩ | hid | hid
  · obtain ⟨s, hs, hpaired⟩ := h.global_right hs'
    exact ⟨s, s', hpaired, rfl, fd, hfd, .inl ⟨s, hs, rfl⟩⟩
  · unfold ScopeTree.parameterSymbols at hid
    rw [show t'.getScopeId (fd.mapIds π).id = some sid' from hsid'] at hid
    obtain ⟨s, s', hpaired, hs', hs⟩ := hscope.symbolsIn_right hid
    refine ⟨s, s', hpaired, hs', fd, hfd, .inr (.inl ?_)⟩
    unfold ScopeTree.parameterSymbols
    rw [hsid]
    exact hs
  · obtain ⟨s, s', hpaired, hs', hs⟩ := he.bound_right hid
    exact ⟨s, s', hpaired, hs', fd, hfd, .inr (.inr hs)⟩

theorem Carries.isConcreteTyping {τ τ' : Typing} (hτ : Carries t t' π τ τ')
    (h : ProgramPaired t t' π program) (hre : Reordered π program program')
    (hT : IsConcreteTyping t program τ) : IsConcreteTyping t' program' τ' := by
  refine ⟨hτ.isTyping h hre hT.checks, fun id' hid => ?_⟩
  obtain ⟨s, s', hpaired, rfl, hs⟩ := h.typed_right hre hid
  rw [hτ s s' hpaired]
  exact h.concrete (hT.concrete s.id hs)

end

end

end mf.semantics
