-- The tables of the code generator: each constructor has a layout with a tag
-- of its own, and each function a declaration.
import MiniFunctional.CheckedProgram
import MiniFunctional.InterpreterSafety
import MiniFunctional.LlvmIr

open mf.util mf.ast mf.parsing mf.semantics mf.tokenization llvm ExceptLaws

namespace mf.visitors

open ScopeTree

variable {t : ScopeTree} {types : TypeTable} {program : Program} {τ : Typing}

/-! ## Layouts -/

/-- The layout has the fields of the constructor's signature and the data type
that declares it. -/
def LayoutOf (t : ScopeTree) (types : TypeTable) (program : Program) (id : SymbolId)
    (layout : ConstructorLayout) : Prop :=
  ∃ dt, .DataTypeDefinition dt ∈ program.definitions ∧ ∃ ctor ∈ dt.constructors,
    ∃ ds, t.getLocalSymbol getRootScopeId dt.name = some ds ∧ layout.data_type = ds.id ∧
    (∃ s, t.getLocalSymbol getRootScopeId ctor.name = some s ∧ s.id = id) ∧
    ∃ signature, types.getConstructorSignature id = some signature ∧
      layout.fields = signature.fields

/-- The table when the constructors `cs` have been gone through and the next
tag is `s.1`. -/
structure Registered (t : ScopeTree) (types : TypeTable) (program : Program)
    (cs : List Constructor) (s : Nat × AssocMap SymbolId ConstructorLayout) : Prop where
  next : s.1 ≤ cs.length
  tags : ∀ id layout, s.2.find id = some layout → layout.tag < s.1
  distinct : ∀ id id' layout layout', s.2.find id = some layout → s.2.find id' = some layout' →
    layout.tag = layout'.tag → id = id'
  layouts : ∀ id layout, s.2.find id = some layout → LayoutOf t types program id layout
  complete : ∀ ctor ∈ cs, ∀ symbol, getRootSymbol t ctor.name .Constructor = some symbol →
    (types.getConstructorSignature symbol.id).isSome → (s.2.find symbol.id).isSome

theorem Registered.skip {cs : List Constructor} {s : Nat × AssocMap SymbolId ConstructorLayout}
    (h : Registered t types program cs s) {ctor : Constructor}
    (hctor : ∀ symbol, getRootSymbol t ctor.name .Constructor = some symbol →
      types.getConstructorSignature symbol.id = none) :
    Registered t types program (cs ++ [ctor]) s := by
  refine ⟨by simpa using Nat.le_succ_of_le h.next, h.tags, h.distinct, h.layouts, ?_⟩
  intro ctor' hctor' symbol hsymbol hsome
  rcases List.mem_append.mp hctor' with hmem | hmem
  · exact h.complete ctor' hmem symbol hsymbol hsome
  · rw [List.mem_singleton.mp hmem] at hsymbol
    rw [hctor symbol hsymbol] at hsome
    cases hsome

theorem registerConstructor_spec {cs : List Constructor}
    {s : Nat × AssocMap SymbolId ConstructorLayout} (h : Registered t types program cs s)
    {dt : DataTypeDefinition} (hdt : .DataTypeDefinition dt ∈ program.definitions)
    {ctor : Constructor} (hctor : ctor ∈ dt.constructors) {ds : Symbol}
    (hds : t.getLocalSymbol getRootScopeId dt.name = some ds) :
    Registered t types program (cs ++ [ctor]) (registerConstructor t types ds s ctor) := by
  unfold registerConstructor
  split
  · rename_i hnone
    exact h.skip fun symbol hsymbol => by rw [hnone] at hsymbol; cases hsymbol
  · rename_i symbol hsymbol
    split
    · rename_i hnone
      refine h.skip fun symbol' hsymbol' => ?_
      rw [hsymbol] at hsymbol'
      cases hsymbol'
      exact hnone
    · rename_i signature hsignature
      have hlocal := (Option.filter_eq_some_iff.mp hsymbol).1
      -- a key that is there keeps its layout, with an older tag
      have hfind : ∀ id layout,
          (s.2.emplace symbol.id ⟨ds.id, s.1, signature.fields⟩).find id = some layout →
          s.2.find id = some layout ∨
            (id = symbol.id ∧ layout = ⟨ds.id, s.1, signature.fields⟩) := by
        intro id layout hlayout
        rw [AssocMap.find_emplace] at hlayout
        split at hlayout
        · rename_i hid
          subst hid
          cases hold : s.2.find symbol.id with
          | none =>
            rw [hold] at hlayout
            exact .inr ⟨rfl, (Option.some.inj hlayout).symm⟩
          | some old =>
            rw [hold] at hlayout
            exact .inl hlayout
        · exact .inl hlayout
      refine ⟨?_, fun id layout hlayout => ?_, fun id id' layout layout' hlayout hlayout' heq => ?_,
        fun id layout hlayout => ?_, fun ctor' hctor' symbol' hsymbol' hsome => ?_⟩
      · simpa using h.next
      · rcases hfind id layout hlayout with hold | ⟨_, rfl⟩
        · exact Nat.lt_succ_of_lt (h.tags id layout hold)
        · exact Nat.lt_succ_self s.1
      · rcases hfind id layout hlayout with hold | ⟨rfl, rfl⟩
        · rcases hfind id' layout' hlayout' with hold' | ⟨rfl, rfl⟩
          · exact h.distinct id id' layout layout' hold hold' heq
          · exact absurd heq (Nat.ne_of_lt (h.tags id layout hold))
        · rcases hfind id' layout' hlayout' with hold' | ⟨rfl, rfl⟩
          · exact absurd heq.symm (Nat.ne_of_lt (h.tags id' layout' hold'))
          · rfl
      · rcases hfind id layout hlayout with hold | ⟨rfl, rfl⟩
        · exact h.layouts id layout hold
        · exact ⟨dt, hdt, ctor, hctor, ds, hds, rfl, ⟨symbol, hlocal, rfl⟩, signature, hsignature,
            rfl⟩
      · show ((s.2.emplace symbol.id _).find symbol'.id).isSome
        rw [AssocMap.find_emplace]
        split
        · rfl
        · rename_i hid
          rcases List.mem_append.mp hctor' with hmem | hmem
          · exact h.complete ctor' hmem symbol' hsymbol' hsome
          · rw [List.mem_singleton.mp hmem, hsymbol] at hsymbol'
            cases hsymbol'
            exact absurd rfl hid

theorem registerDataType_spec {cs : List Constructor}
    {s : Nat × AssocMap SymbolId ConstructorLayout} (h : Registered t types program cs s)
    (hscopes : t.ProgramScoped program) {d : Definition} (hd : d ∈ program.definitions) :
    Registered t types program (cs ++ Definition.constructors d)
    (registerDataType t types s d) := by
  cases d with
  | FunctionDefinition fd => simpa [Definition.constructors, registerDataType] using h
  | DataTypeDefinition dt =>
    obtain ⟨ds, hds, hkind, _⟩ := global_symbol hscopes (mem_globalFrame hd List.mem_cons_self)
    have hroot : getRootSymbol t dt.name .DataType = some ds :=
      Option.filter_eq_some_iff.mpr ⟨hds, by simpa using hkind⟩
    simp only [registerDataType, hroot, Definition.constructors]
    -- the constructors before are those of `cs` and the first of this data type
    have hloop : ∀ (rest done : List Constructor) (s : Nat × AssocMap SymbolId ConstructorLayout),
        (∀ ctor ∈ rest, ctor ∈ dt.constructors) → Registered t types program done s →
        Registered t types program (done ++ rest)
          (rest.foldl (registerConstructor t types ds) s) := by
      intro rest
      induction rest with
      | nil =>
        intro done s _ hs
        simpa using hs
      | cons ctor rest ih =>
        intro done s hrest hs
        have hstep := registerConstructor_spec hs hd (hrest ctor List.mem_cons_self) hds
        have := ih _ _ (fun c hc => hrest c (List.mem_cons_of_mem _ hc)) hstep
        simpa using this
    exact hloop dt.constructors cs s (fun _ h => h) h

theorem registerConstructors_spec (types : TypeTable) (hscopes : t.ProgramScoped program) :
    ∃ next, Registered t types program (program.definitions.flatMap Definition.constructors)
      (next, registerConstructors t types program) := by
  have hloop : ∀ (rest : List Definition) (done : List Constructor)
      (s : Nat × AssocMap SymbolId ConstructorLayout), (∀ d ∈ rest, d ∈ program.definitions) →
      Registered t types program done s →
      Registered t types program (done ++ rest.flatMap Definition.constructors)
        (rest.foldl (registerDataType t types) s) := by
    intro rest
    induction rest with
    | nil =>
      intro done s _ hs
      simpa using hs
    | cons d rest ih =>
      intro done s hrest hs
      have hstep := registerDataType_spec hs hscopes (hrest d List.mem_cons_self)
      have := ih _ _ (fun c hc => hrest c (List.mem_cons_of_mem _ hc)) hstep
      simpa using this
  have hempty : Registered t types program [] (0, .empty) := by
    constructor <;> simp
  exact ⟨_, hloop program.definitions [] (0, .empty) (fun _ h => h) hempty⟩

/-- The layouts, as the rest of the generator uses them. -/
structure Layouts (t : ScopeTree) (types : TypeTable) (program : Program)
    (constructors_ : AssocMap SymbolId ConstructorLayout) : Prop where
  complete : ∀ s, t.getSymbol s.id = some s → s.kind = .Constructor →
    ∃ layout, constructors_.find s.id = some layout
  sound : ∀ id layout, constructors_.find id = some layout →
    types.getConstructorSignature id = some ⟨layout.data_type, layout.fields⟩ ∧
    Declares t program id ⟨layout.data_type, layout.fields⟩
  distinct : ∀ id id' layout layout', constructors_.find id = some layout →
    constructors_.find id' = some layout' → layout.tag = layout'.tag → id = id'
  tags : ∀ id layout, constructors_.find id = some layout → layout.tag < maxTokens

theorem forall₂_of_names {R : String → TypeVariant → Prop} {names : List String}
    (h : ∀ name ∈ names, ∃ T, R name T) : ∃ Ts, List.Forall₂ R names Ts := by
  induction names with
  | nil => exact ⟨[], .nil⟩
  | cons name names ih =>
    obtain ⟨T, hT⟩ := h name List.mem_cons_self
    obtain ⟨Ts, hTs⟩ := ih fun n hn => h n (List.mem_cons_of_mem _ hn)
    exact ⟨T :: Ts, .cons hT hTs⟩

theorem layouts (h : Checked t program types τ) :
    Layouts t types program (registerConstructors t types program) := by
  obtain ⟨next, hregistered⟩ := registerConstructors_spec types h.scopes
  refine ⟨fun s hs hkind => ?_, fun id layout hlayout => ?_, hregistered.distinct,
    fun id layout hlayout => ?_⟩
  · obtain ⟨hlocal, _⟩ := h.rooted.find hs (by simp [isLocalKind, hkind])
    obtain ⟨dt, hdt, ctor, hctor, hname⟩ := constructor_declared h.scopes hlocal hkind
    obtain ⟨signature, hsignature, _⟩ := h.sound.constructors s.id s hs hkind
    rw [← hname] at hlocal
    refine Option.isSome_iff_exists.mp (hregistered.complete ctor
      (List.mem_flatMap.mpr ⟨_, hdt, hctor⟩) s ?_ (by rw [hsignature]; rfl))
    exact Option.filter_eq_some_iff.mpr ⟨hlocal, by simpa using hkind⟩
  · obtain ⟨dt, hdt, ctor, hctor, ds, hds, hdata, ⟨s, hs, rfl⟩, signature, hsignature, hfields⟩ :=
      hregistered.layouts id layout hlayout
    obtain ⟨s', hs', hkind, _⟩ := global_symbol h.scopes
      (mem_globalFrame hdt (List.mem_cons_of_mem _ (List.mem_map.mpr ⟨ctor, hctor, rfl⟩)))
    rw [hs] at hs'
    cases hs'
    obtain ⟨signature', hsignature', hdeclares⟩ :=
      h.sound.constructors s.id s (h.scopes.named _ _ _ hs).1 hkind
    rw [hsignature] at hsignature'
    cases hsignature'
    obtain ⟨Ts, hTs⟩ := forall₂_of_names (h.fields dt hdt ctor hctor)
    have hdeclares' : Declares t program s.id ⟨ds.id, Ts⟩ :=
      ⟨dt, hdt, ctor, hctor, ds, hds, rfl, ⟨s, hs, rfl⟩, hTs⟩
    have heq := declares_unique h.typing.checks hdeclares hdeclares'
    have hlayout' : (⟨layout.data_type, layout.fields⟩ : ConstructorSignature) = signature := by
      rw [hdata, hfields, heq]
    rw [hlayout']
    exact ⟨hsignature, hdeclares⟩
  · exact Nat.lt_of_lt_of_le (hregistered.tags id layout hlayout)
      (Nat.le_trans hregistered.next h.sized.number)

/-- Constructors with equal words for their tags are one. -/
theorem Layouts.tag_inj {constructors_ : AssocMap SymbolId ConstructorLayout}
    (h : Layouts t types program constructors_) {id id' : SymbolId}
    {layout layout' : ConstructorLayout} (hlayout : constructors_.find id = some layout)
    (hlayout' : constructors_.find id' = some layout')
    (heq : BitVec.ofNat 64 layout.tag = BitVec.ofNat 64 layout'.tag) : id = id' := by
  apply h.distinct id id' layout layout' hlayout hlayout'
  have hlt := h.tags id layout hlayout
  have hlt' := h.tags id' layout' hlayout'
  have hnat := congrArg BitVec.toNat heq
  rw [BitVec.toNat_ofNat, BitVec.toNat_ofNat] at hnat
  unfold maxTokens at hlt hlt'
  omega

/-! ## Declarations -/

theorem llvmType_ok {T : TypeVariant} (h : containsFunctionType T = false) :
    ∃ type, llvmType T = .ok type := by
  cases T with
  | IntType => exact ⟨_, rfl⟩
  | DataType d => exact ⟨_, rfl⟩
  | FunctionType P R => simp [containsFunctionType] at h

/-- The types of parameters. -/
abbrev LlvmTypes (Ts : List TypeVariant) (types : List Ty) : Prop :=
  List.Forall₂ (fun T type => llvmType T = .ok type) Ts types

theorem mapM_llvmType {Ts : List TypeVariant}
    (h : ∀ T ∈ Ts, containsFunctionType T = false) :
    ∃ types, Ts.mapM llvmType = .ok types ∧ LlvmTypes Ts types := by
  induction Ts with
  | nil => exact ⟨[], rfl, .nil⟩
  | cons T Ts ih =>
    obtain ⟨type, htype⟩ := llvmType_ok (h T List.mem_cons_self)
    obtain ⟨types, hmap, htypes⟩ := ih fun T' hT' => h T' (List.mem_cons_of_mem _ hT')
    refine ⟨type :: types, ?_, .cons htype htypes⟩
    rw [List.mapM_cons, htype, hmap]
    rfl

/-- The function of the module is declared for the symbol. -/
def DeclarationOf (types : TypeTable) (id : SymbolId) (F : llvm.Function) : Prop :=
  ∃ signature, types.getFunctionSignature id = some signature ∧
    LlvmTypes signature.parameters F.parameters ∧ llvmType signature.result = .ok F.result

/-- The functions of the symbols are in the module, each at a place of its own. -/
structure Declarations (t : ScopeTree) (types : TypeTable) (functions_ : AssocMap SymbolId Nat)
    (functions : List llvm.Function) : Prop where
  sound : ∀ id n, functions_.find id = some n →
    ∃ F, functions[n]? = some F ∧ DeclarationOf types id F
  distinct : ∀ id id' n, functions_.find id = some n → functions_.find id' = some n → id = id'

theorem Declarations.skip {s : List llvm.Function × AssocMap SymbolId Nat} (F : llvm.Function)
    (h : Declarations t types s.2 s.1) : Declarations t types s.2 (s.1 ++ [F]) := by
  refine ⟨fun id n hn => ?_, h.distinct⟩
  obtain ⟨F', hF', hdeclares⟩ := h.sound id n hn
  have hlt := (List.getElem?_eq_some_iff.mp hF').1
  exact ⟨F', by rw [List.getElem?_append_left hlt]; exact hF', hdeclares⟩

theorem Declarations.emplace {s : List llvm.Function × AssocMap SymbolId Nat}
    (h : Declarations t types s.2 s.1) {id : SymbolId} {F : llvm.Function}
    (hF : DeclarationOf types id F) :
    Declarations t types (s.2.emplace id s.1.length) (s.1 ++ [F]) := by
  have hfind : ∀ id' n, (s.2.emplace id s.1.length).find id' = some n →
      s.2.find id' = some n ∨ (id' = id ∧ n = s.1.length) := by
    intro id' n hn
    rw [AssocMap.find_emplace] at hn
    split at hn
    · rename_i hid
      subst hid
      cases hold : s.2.find id' with
      | none =>
        rw [hold] at hn
        exact .inr ⟨rfl, (Option.some.inj hn).symm⟩
      | some old =>
        rw [hold] at hn
        exact .inl hn
    · exact .inl hn
  have hlt : ∀ id' n, s.2.find id' = some n → n < s.1.length := by
    intro id' n hn
    obtain ⟨F', hF', _⟩ := h.sound id' n hn
    exact (List.getElem?_eq_some_iff.mp hF').1
  refine ⟨fun id' n hn => ?_, fun id' id'' n hn hn' => ?_⟩
  · rcases hfind id' n hn with hold | ⟨rfl, rfl⟩
    · exact (h.skip F).sound id' n hold
    · exact ⟨F, by simp, hF⟩
  · rcases hfind id' n hn with hold | ⟨rfl, rfl⟩
    · rcases hfind id'' n hn' with hold' | ⟨rfl, rfl⟩
      · exact h.distinct id' id'' n hold hold'
      · exact absurd rfl (Nat.ne_of_lt (hlt id' _ hold))
    · rcases hfind id'' _ hn' with hold' | ⟨rfl, _⟩
      · exact absurd rfl (Nat.ne_of_lt (hlt id'' _ hold'))
      · rfl

/-- What declaring a definition leaves. -/
structure Declares.Step (t : ScopeTree) (types : TypeTable) (d : Definition)
    (s s' : List llvm.Function × AssocMap SymbolId Nat) : Prop where
  declarations : Declarations t types s'.2 s'.1
  kept : ∀ id, (s.2.find id).isSome → (s'.2.find id).isSome
  complete : ∀ fd, d = .FunctionDefinition fd → ∀ symbol,
    t.getLocalSymbol getRootScopeId fd.name = some symbol → (s'.2.find symbol.id).isSome

theorem declareFunction_spec (h : Checked t program types τ) {d : Definition}
    (hd : d ∈ program.definitions) {s : List llvm.Function × AssocMap SymbolId Nat}
    (hs : Declarations t types s.2 s.1) :
    ∃ s', declareFunction t types s d = .ok s' ∧ Declares.Step t types d s s' := by
  cases d with
  | DataTypeDefinition dt =>
    refine ⟨s, rfl, hs, fun _ hid => hid, ?_⟩
    intro fd hfd
    cases hfd
  | FunctionDefinition fd =>
    obtain ⟨symbol, signature, hsymbol, hsignature, _⟩ := h.functions fd hd
    obtain ⟨symbol', hsymbol', hkind, _⟩ := (h.scopes.functions fd hd).1
    rw [hsymbol] at hsymbol'
    cases hsymbol'
    have hroot : getRootSymbol t fd.name .Function = some symbol :=
      Option.filter_eq_some_iff.mpr ⟨hsymbol, by simpa using hkind⟩
    obtain ⟨_, hground, hresult⟩ := h.firstOrder symbol.id signature hsignature
    obtain ⟨parameters, hmap, hparameters⟩ := mapM_llvmType hground
    obtain ⟨result, hresult⟩ := llvmType_ok hresult
    refine ⟨(s.1 ++ [⟨mangle symbol, result, parameters, []⟩],
      s.2.emplace symbol.id s.1.length), ?_, ?_⟩
    · simp only [declareFunction, hroot, hsignature, hmap, hresult]
      rfl
    · refine ⟨hs.emplace ⟨signature, hsignature, hparameters, hresult⟩, fun id hid => ?_, ?_⟩
      · show ((s.2.emplace symbol.id s.1.length).find id).isSome
        rw [AssocMap.find_emplace]
        split
        · rfl
        · exact hid
      · intro fd' hfd' symbol' hsymbol'
        cases hfd'
        rw [hsymbol] at hsymbol'
        cases hsymbol'
        show ((s.2.emplace symbol.id s.1.length).find symbol.id).isSome
        rw [AssocMap.find_emplace, if_pos rfl]
        rfl

theorem declareFunctions_spec (h : Checked t program types τ) :
    ∃ functions functions_, declareFunctions t types program = .ok (functions, functions_) ∧
      Declarations t types functions_ functions ∧
      ∀ fd, .FunctionDefinition fd ∈ program.definitions → ∀ symbol,
        t.getLocalSymbol getRootScopeId fd.name = some symbol →
        ∃ n, functions_.find symbol.id = some n := by
  have hloop : ∀ (rest : List Definition) (s : List llvm.Function × AssocMap SymbolId Nat),
      (∀ d ∈ rest, d ∈ program.definitions) → Declarations t types s.2 s.1 →
      ∃ s', rest.foldlM (declareFunction t types) s = .ok s' ∧ Declarations t types s'.2 s'.1 ∧
        (∀ id, (s.2.find id).isSome → (s'.2.find id).isSome) ∧
        ∀ fd, .FunctionDefinition fd ∈ rest → ∀ symbol,
          t.getLocalSymbol getRootScopeId fd.name = some symbol →
          (s'.2.find symbol.id).isSome := by
    intro rest
    induction rest with
    | nil =>
      intro s _ hs
      exact ⟨s, rfl, hs, fun _ hid => hid, by simp⟩
    | cons d rest ih =>
      intro s hrest hs
      obtain ⟨s1, hrun1, hstep⟩ := declareFunction_spec h (hrest d List.mem_cons_self) hs
      obtain ⟨s2, hrun2, hs2, hkept, hcomplete⟩ :=
        ih s1 (fun d' hd' => hrest d' (List.mem_cons_of_mem _ hd')) hstep.declarations
      refine ⟨s2, ?_, hs2, fun id hid => hkept id (hstep.kept id hid), ?_⟩
      · rw [List.foldlM_cons, hrun1]
        exact hrun2
      · intro fd hfd symbol hsymbol
        rcases List.mem_cons.mp hfd with heq | hfd
        · exact hkept _ (hstep.complete fd heq.symm symbol hsymbol)
        · exact hcomplete fd hfd symbol hsymbol
  have hempty : Declarations t types .empty [] := by
    constructor <;> simp
  obtain ⟨s, hrun, hs, _, hcomplete⟩ :=
    hloop program.definitions ([], .empty) (fun _ hd => hd) hempty
  exact ⟨s.1, s.2, hrun, hs, fun fd hfd symbol hsymbol =>
    Option.isSome_iff_exists.mp (hcomplete fd hfd symbol hsymbol)⟩

/-! ## The functions of the module -/

/-- Two functions of a program with one symbol are one. -/
theorem function_unique (h : Checked t program types τ) {fd fd' : FunctionDefinition}
    (hfd : .FunctionDefinition fd ∈ program.definitions)
    (hfd' : .FunctionDefinition fd' ∈ program.definitions) {s s' : Symbol}
    (hs : t.getLocalSymbol getRootScopeId fd.name = some s)
    (hs' : t.getLocalSymbol getRootScopeId fd'.name = some s') (hid : s.id = s'.id) :
    fd = fd' := by
  have hsymbol := (h.scopes.named _ _ _ hs).1
  rw [hid, (h.scopes.named _ _ _ hs').1] at hsymbol
  cases hsymbol
  obtain ⟨s1, hs1, _, hdecl⟩ := (h.scopes.functions fd hfd).1
  obtain ⟨s2, hs2, _, hdecl'⟩ := (h.scopes.functions fd' hfd').1
  rw [hs] at hs1
  rw [hs'] at hs2
  cases hs1
  cases hs2
  have hfound := findFunctionById_eq h.ids hfd
  rw [← hdecl, hdecl', findFunctionById_eq h.ids hfd'] at hfound
  exact (Option.some.inj hfound).symm

/-- New blocks change nothing else of a function. -/
theorem map_modify_blocks {α : Type} {f : llvm.Function → α}
    (hf : ∀ (F : llvm.Function) (blocks : List BasicBlock), f { F with blocks } = f F)
    {functions : List llvm.Function} {n : Nat} {blocks : List BasicBlock} :
    (functions.modify n fun F => { F with blocks }).map f = functions.map f := by
  apply List.ext_getElem?
  intro i
  rw [List.getElem?_map, List.getElem?_map]
  by_cases hi : n = i
  · subst hi
    rw [List.getElem?_modify_eq]
    cases functions[n]? with
    | none => rfl
    | some F => exact congrArg some (hf F blocks)
  · rw [List.getElem?_modify_ne _ _ hi]

theorem modify_last {α : Type} (f : α → α) (l : List α) (a : α) :
    (l ++ [a]).modify l.length f = l ++ [f a] := by
  induction l with
  | nil => rfl
  | cons x l ih => simpa using ih

/-- The functions are those of the definitions in `done`. -/
structure DeclaredOnly (t : ScopeTree) (done : List Definition)
    (s : List llvm.Function × AssocMap SymbolId Nat) : Prop where
  places : ∀ n, n < s.1.length → ∃ id, s.2.find id = some n
  symbols : ∀ id n, s.2.find id = some n → ∃ fd, .FunctionDefinition fd ∈ done ∧
    ∃ symbol, t.getLocalSymbol getRootScopeId fd.name = some symbol ∧ symbol.id = id

theorem DeclaredOnly.more {done : List Definition} {s : List llvm.Function × AssocMap SymbolId Nat}
    (h : DeclaredOnly t done s) (d : Definition) : DeclaredOnly t (done ++ [d]) s := by
  refine ⟨h.places, fun id n hn => ?_⟩
  obtain ⟨fd, hfd, hsymbol⟩ := h.symbols id n hn
  exact ⟨fd, List.mem_append_left _ hfd, hsymbol⟩

/-- No definition comes twice. -/
theorem definition_new (hnodup : program.ids.Nodup) {done rest : List Definition}
    {fd : FunctionDefinition}
    (hdone : program.definitions = done ++ .FunctionDefinition fd :: rest) :
    .FunctionDefinition fd ∉ done := by
  intro hin
  unfold Program.ids at hnodup
  rw [hdone, List.flatMap_append, List.flatMap_cons] at hnodup
  have hid : fd.id ∈ (Definition.FunctionDefinition fd).ids := by simp [Definition.ids]
  exact (List.nodup_append'.mp hnodup).2.2 (List.mem_flatMap.mpr ⟨_, hin, hid⟩)
    (List.mem_append_left _ hid)

theorem DeclaredOnly.step (h : Checked t program types τ) {done rest : List Definition}
    {d : Definition} (hdone : program.definitions = done ++ d :: rest)
    {s s' : List llvm.Function × AssocMap SymbolId Nat} (hs : DeclaredOnly t done s)
    (hrun : declareFunction t types s d = .ok s') : DeclaredOnly t (done ++ [d]) s' := by
  cases d with
  | DataTypeDefinition dt =>
    cases hrun
    exact hs.more _
  | FunctionDefinition fd =>
    have hmem : .FunctionDefinition fd ∈ program.definitions := by simp [hdone]
    obtain ⟨symbol, signature, hsymbol, hsignature, _⟩ := h.functions fd hmem
    obtain ⟨symbol', hsymbol', hkind, _⟩ := (h.scopes.functions fd hmem).1
    rw [hsymbol] at hsymbol'
    cases hsymbol'
    have hroot : getRootSymbol t fd.name .Function = some symbol :=
      Option.filter_eq_some_iff.mpr ⟨hsymbol, by simpa using hkind⟩
    -- the symbol is one of no definition before
    have hnew : s.2.find symbol.id = none := by
      cases hfind : s.2.find symbol.id with
      | none => rfl
      | some n =>
        obtain ⟨fd', hfd', symbol', hsymbol', hid⟩ := hs.symbols _ n hfind
        have hmem' : .FunctionDefinition fd' ∈ program.definitions := by simp [hdone, hfd']
        obtain rfl := function_unique h hmem' hmem hsymbol' hsymbol hid
        exact absurd hfd' (definition_new h.ids hdone)
    simp only [declareFunction, hroot, hsignature] at hrun
    obtain ⟨parameters, _, hrun⟩ := bind_eq_ok.mp hrun
    obtain ⟨result, _, hrun⟩ := bind_eq_ok.mp hrun
    cases hrun
    refine ⟨fun n hn => ?_, fun id n hn => ?_⟩
    · rw [List.length_append, List.length_singleton] at hn
      by_cases hlast : n = s.1.length
      · refine ⟨symbol.id, ?_⟩
        rw [AssocMap.find_emplace, if_pos rfl, hnew, hlast]
        rfl
      · obtain ⟨id, hid⟩ := hs.places n (by omega)
        refine ⟨id, ?_⟩
        have hne : id ≠ symbol.id := by
          intro heq
          rw [heq, hnew] at hid
          cases hid
        rw [AssocMap.find_emplace, if_neg hne]
        exact hid
    · rw [AssocMap.find_emplace] at hn
      by_cases hid : id = symbol.id
      · exact ⟨fd, by simp, symbol, hsymbol, hid.symm⟩
      · rw [if_neg hid] at hn
        exact (hs.more _).symbols id n hn

/-- Every function is declared for a definition. -/
theorem declareFunctions_only (h : Checked t program types τ)
    {s : List llvm.Function × AssocMap SymbolId Nat}
    (hrun : declareFunctions t types program = .ok s) : DeclaredOnly t program.definitions s := by
  have hloop : ∀ (rest done : List Definition) (s0 : List llvm.Function × AssocMap SymbolId Nat),
      program.definitions = done ++ rest → DeclaredOnly t done s0 →
      rest.foldlM (declareFunction t types) s0 = .ok s →
      DeclaredOnly t program.definitions s := by
    intro rest
    induction rest with
    | nil =>
      intro done s0 hdone hs hrun
      cases hrun
      rw [hdone, List.append_nil]
      exact hs
    | cons d rest ih =>
      intro done s0 hdone hs hrun
      rw [List.foldlM_cons] at hrun
      obtain ⟨s1, hrun1, hrun⟩ := bind_eq_ok.mp hrun
      exact ih (done ++ [d]) s1 (by simp [hdone]) (hs.step h hdone hrun1) hrun
  have hempty : DeclaredOnly t [] ([], .empty) := by
    constructor <;> simp
  exact hloop program.definitions [] ([], .empty) rfl hempty hrun

end mf.visitors
