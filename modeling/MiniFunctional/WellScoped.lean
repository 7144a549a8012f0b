-- What the scope tree of an accepted program gives to the passes after it:
-- each name finds a symbol of the right kind, and no two binders share one.
import MiniFunctional.LexicalScoping

open mf.util mf.ast mf.parsing mf.tokenization

namespace mf.semantics

open ScopeTree

variable {t : ScopeTree}

/-- The names that a pattern binds. -/
def Pattern.names : Pattern → List String
  | .VariablePattern _ name => [name]
  | .ConstructorPattern _ _ arguments => arguments

/-- The ids of the symbols that the names have in the scope. -/
def ScopeTree.symbolsIn (t : ScopeTree) (sid : ScopeId) (names : List String) : List SymbolId :=
  names.filterMap fun name => (t.getLocalSymbol sid name).map (·.id)

def ScopeTree.patternSymbols (t : ScopeTree) (pattern : Pattern) : List SymbolId :=
  match t.getScopeId pattern.id with
  | none => []
  | some sid => t.symbolsIn sid (Pattern.names pattern)

mutual

/-- The symbols of all pattern variables of an expression. -/
@[simp] def ScopeTree.boundIn (t : ScopeTree) : Expression → List SymbolId
  | .IntLiteral _ _ => []
  | .Variable _ _ => []
  | .BinaryOperator _ _ left right => t.boundIn left ++ t.boundIn right
  | .Application _ function argument => t.boundIn function ++ t.boundIn argument
  | .CaseExpression _ scrutinee branches => t.boundIn scrutinee ++ t.boundInBranches branches

@[simp] def ScopeTree.boundInBranches (t : ScopeTree) : List Branch → List SymbolId
  | [] => []
  | ⟨_, pattern, body⟩ :: branches =>
    t.patternSymbols pattern ++ (t.boundIn body ++ t.boundInBranches branches)

end

/-- The pattern's variables have symbols in its scope, and its constructor is one. -/
def ScopeTree.PatternScoped (t : ScopeTree) (pattern : Pattern) : Prop :=
  (∃ sid, t.getScopeId pattern.id = some sid ∧ ∀ name ∈ Pattern.names pattern,
    ∃ s, t.getLocalSymbol sid name = some s ∧ s.kind = .PatternVariable) ∧
  match pattern with
  | .VariablePattern _ _ => True
  | .ConstructorPattern id name _ => ∃ s, t.getResolvedSymbol id = some s ∧
    s.kind = .Constructor ∧ t.getLocalSymbol getRootScopeId name = some s

/-- The variable is one of `locals`, or names a function or a constructor. -/
def ScopeTree.VariableScoped (t : ScopeTree) (id : NodeId) (name : String)
    (locals : List SymbolId) : Prop :=
  ∃ s, t.getResolvedSymbol id = some s ∧ s.name = name ∧
    (((s.kind = .Constructor ∨ s.kind = .Function) ∧
        t.getLocalSymbol getRootScopeId name = some s) ∨
      ((s.kind = .Parameter ∨ s.kind = .PatternVariable) ∧ s.id ∈ locals))

mutual

/-- Every name of the expression has a symbol; those of variables are in `locals`. -/
@[simp] def ScopeTree.WellScoped (t : ScopeTree) : Expression → List SymbolId → Prop
  | .IntLiteral _ _, _ => True
  | .Variable id name, locals => t.VariableScoped id name locals
  | .BinaryOperator _ _ left right, locals => t.WellScoped left locals ∧ t.WellScoped right locals
  | .Application _ function argument, locals =>
    t.WellScoped function locals ∧ t.WellScoped argument locals
  | .CaseExpression _ scrutinee branches, locals =>
    t.WellScoped scrutinee locals ∧ branches ≠ [] ∧ t.WellScopedBranches branches locals

@[simp] def ScopeTree.WellScopedBranches (t : ScopeTree) : List Branch → List SymbolId → Prop
  | [], _ => True
  | ⟨_, pattern, body⟩ :: branches, locals =>
    t.PatternScoped pattern ∧ t.WellScoped body (t.patternSymbols pattern ++ locals) ∧
      t.WellScopedBranches branches locals

end

theorem ScopeTree.wellScopedBranches_iff {bs : List Branch} {locals : List SymbolId} :
    t.WellScopedBranches bs locals ↔ ∀ b ∈ bs, t.PatternScoped b.pattern ∧
      t.WellScoped b.body (t.patternSymbols b.pattern ++ locals) := by
  induction bs with
  | nil => simp
  | cons b bs ih =>
    obtain ⟨id, p, e⟩ := b
    simp [ih, and_assoc]

theorem ScopeTree.mem_boundInBranches {bs : List Branch} {s : SymbolId} :
    s ∈ t.boundInBranches bs ↔
      ∃ b ∈ bs, s ∈ t.patternSymbols b.pattern ∨ s ∈ t.boundIn b.body := by
  induction bs with
  | nil => simp
  | cons b bs ih =>
    obtain ⟨id, p, e⟩ := b
    simp [ih, or_assoc]

/-- The symbols of a function's parameters. -/
def ScopeTree.parameterSymbols (t : ScopeTree) (fd : FunctionDefinition) : List SymbolId :=
  match t.getScopeId fd.id with
  | none => []
  | some sid => t.symbolsIn sid fd.parameters

def ScopeTree.FunctionScoped (t : ScopeTree) (fd : FunctionDefinition) : Prop :=
  (∃ s, t.getLocalSymbol getRootScopeId fd.name = some s ∧ s.kind = .Function ∧
    s.declaration = fd.id) ∧
  (∃ sid, t.getScopeId fd.id = some sid ∧ ∀ name ∈ fd.parameters,
    ∃ s, t.getLocalSymbol sid name = some s ∧ s.kind = .Parameter) ∧
  t.WellScoped fd.body (t.parameterSymbols fd)

/-- The symbols of the parameters and pattern variables of a definition. -/
def ScopeTree.localSymbols (t : ScopeTree) : Definition → List SymbolId
  | .FunctionDefinition fd => t.parameterSymbols fd ++ t.boundIn fd.body
  | .DataTypeDefinition _ => []

/-- The symbols of the global scope. -/
def ScopeTree.globalSymbols (t : ScopeTree) (program : Program) : List SymbolId :=
  t.symbolsIn getRootScopeId ((globalFrame program).map (·.name))

/-- The scope tree of a program without violations. -/
structure ScopeTree.ProgramScoped (t : ScopeTree) (program : Program) : Prop where
  declared : ∀ b ∈ globalFrame program, ∃ s, t.getLocalSymbol getRootScopeId b.name = some s ∧
    s.binder = b
  globals : ∀ name s, t.getLocalSymbol getRootScopeId name = some s →
    s.binder ∈ globalFrame program
  functions : ∀ fd, .FunctionDefinition fd ∈ program.definitions → t.FunctionScoped fd
  /-- Each binder of the program has a symbol of its own. -/
  apart : (t.globalSymbols program ++ program.definitions.flatMap t.localSymbols).Nodup
  named : ∀ sid name s, t.getLocalSymbol sid name = some s →
    t.getSymbol s.id = some s ∧ s.name = name

/-! ## Symbols of a scope -/

theorem ScopeTree.WellFormed.local (hw : t.WellFormed) {sid : Nat} {name : String} {s : Symbol}
    (h : t.getLocalSymbol sid name = some s) :
    t.getLocalSymbolId sid name = some s.id ∧ t.getSymbol s.id = some s ∧ s.name = name := by
  obtain ⟨id, hid, hs⟩ := Option.bind_eq_some_iff.mp h
  obtain ⟨s', hs', rfl, hname⟩ := hw.named sid name id hid
  rw [hs] at hs'
  cases hs'
  exact ⟨hid, hs, hname⟩

theorem ScopeTree.mem_symbolsIn {sid : Nat} {names : List String} {id : Nat} :
    id ∈ t.symbolsIn sid names ↔
      ∃ name ∈ names, ∃ s, t.getLocalSymbol sid name = some s ∧ s.id = id := by
  simp [symbolsIn, List.mem_filterMap]

theorem ScopeTree.symbolsIn_nodup (hw : t.WellFormed) (sid : Nat) {names : List String}
    (h : names.Nodup) : (t.symbolsIn sid names).Nodup := by
  refine h.filterMap fun name name' id hid hid' => ?_
  obtain ⟨s, hs, rfl⟩ := Option.map_eq_some_iff.mp hid
  obtain ⟨s', hs', heq⟩ := Option.map_eq_some_iff.mp hid'
  have h1 := hw.local hs
  have h2 := hw.local hs'
  rw [heq, h1.2.1] at h2
  cases h2.2.1
  rw [← h1.2.2, ← h2.2.2]

/-- The declarations of a frame without repetition each have their symbol. -/
theorem ScopeTree.FrameIs.declared {sid : Nat} {frame : Frame} (hf : t.FrameIs sid frame)
    (hnodup : (frame.map (·.name)).Nodup) {b : Binder} (hb : b ∈ frame) :
    ∃ s, t.getLocalSymbol sid b.name = some s ∧ s.binder = b := by
  have hlookup : frame.lookup b.name = some b := by
    cases hl : frame.lookup b.name with
    | none =>
      have := List.find?_eq_none.mp hl b hb
      simp at this
    | some b' =>
      obtain ⟨hmem, hname⟩ := Frame.lookup_mem hl
      rw [List.inj_on_of_nodup_map hnodup hmem hb hname]
  have h := hf b.name
  rw [hlookup] at h
  obtain ⟨s, hs, hbinder⟩ := Option.map_eq_some_iff.mp h
  exact ⟨s, hs, hbinder⟩

theorem ScopeTree.FrameIs.mem {sid : Nat} {frame : Frame} (hf : t.FrameIs sid frame)
    {name : String} {s : Symbol} (hs : t.getLocalSymbol sid name = some s) :
    s.binder ∈ frame := by
  have h := hf name
  rw [hs] at h
  exact (Frame.lookup_mem h.symm).1

/-- Declarations without violations do not repeat a name. -/
theorem declarations_nodup {earlier binders : Frame}
    (h : ∀ site ∈ declarations earlier binders, site.violates = false)
    (hnodup : (earlier.map (·.name)).Nodup) : ((earlier ++ binders).map (·.name)).Nodup := by
  induction binders generalizing earlier with
  | nil => simpa using hnodup
  | cons b bs ih =>
    have hnew : b.name ∉ earlier.map (·.name) := by
      intro hmem
      obtain ⟨b', hb', hname⟩ := List.mem_map.mp hmem
      have hsite := h _ List.mem_cons_self
      simp only [Site.violates, Frame.lookup, Option.isSome_eq_false_iff,
        Option.isNone_iff_eq_none] at hsite
      have := List.find?_eq_none.mp hsite b' hb'
      simp [hname] at this
    have hstep : ((earlier ++ [b]).map (·.name)).Nodup := by
      rw [List.map_append, List.nodup_append']
      refine ⟨hnodup, List.nodup_singleton _, ?_⟩
      intro x hx hx'
      rw [List.map_singleton, List.mem_singleton] at hx'
      exact hnew (hx' ▸ hx)
    have := ih (fun site hsite => h site (List.mem_cons_of_mem _ hsite)) hstep
    simpa using this

theorem declarations_nodup' {binders : Frame}
    (h : ∀ site ∈ declarations [] binders, site.violates = false) :
    (binders.map (·.name)).Nodup := declarations_nodup h List.nodup_nil

theorem Pattern.map_binders (p : Pattern) : (Pattern.binders p).map (·.name) = Pattern.names p := by
  cases p <;> simp [Pattern.binders, Pattern.names, Function.comp_def]

theorem Pattern.binders_kind {p : Pattern} {b : Binder} (h : b ∈ Pattern.binders p) :
    b.kind = .PatternVariable := by
  cases p with
  | VariablePattern id name => rw [List.mem_singleton.mp h]
  | ConstructorPattern id name arguments =>
    obtain ⟨a, _, rfl⟩ := List.mem_map.mp h
    rfl

/-! ## Owners of symbols -/

/-- The symbol is in a scope of the node `owner`, below the global one. -/
def ScopeTree.OwnedBy (t : ScopeTree) (id : SymbolId) (owner : NodeId) : Prop :=
  ∃ (sid : Nat) (name : String) (scope : Scope), 0 < sid ∧ t.getLocalSymbolId sid name = some id ∧
    t.getScope sid = some scope ∧ scope.owner = owner

theorem ScopeTree.OwnedBy.unique (hw : t.WellFormed) {id : SymbolId} {owner owner' : NodeId}
    (h : t.OwnedBy id owner) (h' : t.OwnedBy id owner') : owner = owner' := by
  obtain ⟨sid, name, scope, _, hid, hs, rfl⟩ := h
  obtain ⟨sid', name', scope', _, hid', hs', rfl⟩ := h'
  obtain rfl := hw.apart sid sid' name name' id hid hid'
  rw [hs] at hs'
  cases hs'
  rfl

theorem ScopeTree.OwnedBy.not_global (hw : t.WellFormed) {id : SymbolId} {owner : NodeId}
    (h : t.OwnedBy id owner) (name : String) : t.getLocalSymbolId 0 name ≠ some id := by
  intro hroot
  obtain ⟨sid, name', scope, hpos, hid, _⟩ := h
  have := hw.apart sid 0 name' name id hid hroot
  omega

theorem ScopeTree.symbolsIn_owned (hw : t.WellFormed) {parent sid : Nat} {owner : NodeId}
    (hb : t.BranchScope parent sid owner) {names : List String} {id : SymbolId}
    (h : id ∈ t.symbolsIn sid names) : t.OwnedBy id owner := by
  obtain ⟨name, _, s, hs, rfl⟩ := mem_symbolsIn.mp h
  obtain ⟨scope, hscope, _, howner, hlt⟩ := hb
  exact ⟨sid, name, scope, Nat.zero_lt_of_lt hlt, (hw.local hs).1, hscope, howner⟩

theorem ScopeTree.PatternPlaced.symbols_owned (hw : t.WellFormed) {parent sid : Nat}
    {owner : NodeId} (hb : t.BranchScope parent sid owner) {p : Pattern}
    (hp : t.PatternPlaced sid p) {id : SymbolId} (h : id ∈ t.patternSymbols p) :
    t.OwnedBy id owner := by
  unfold ScopeTree.patternSymbols at h
  rw [hp.1] at h
  exact symbolsIn_owned hw hb h

theorem ScopeTree.boundInBranches_owned' (hw : t.WellFormed) {bs : List Branch} {sid : Nat}
    (hplaced : t.PlacedBranches bs sid)
    (hbody : ∀ b ∈ bs, ∀ {sid : Nat}, t.Placed b.body sid → ∀ id ∈ t.boundIn b.body,
      ∃ owner ∈ b.body.ids, t.OwnedBy id owner) :
    ∀ id ∈ t.boundInBranches bs, ∃ owner ∈ idsBranches bs, t.OwnedBy id owner := by
  intro id h
  obtain ⟨b, hb, h⟩ := mem_boundInBranches.mp h
  obtain ⟨bsid, hscope, _, hp, hplacedb⟩ := placedBranches_iff.mp hplaced b hb
  have hin := ids_of_mem_branches hb
  rcases h with h | h
  · exact ⟨b.id, hin b.id (by simp), hp.symbols_owned hw hscope h⟩
  · obtain ⟨owner, howner, ho⟩ := hbody b hb hplacedb id h
    exact ⟨owner, hin owner (by simp [howner]), ho⟩

theorem ScopeTree.boundIn_owned (hw : t.WellFormed) {e : Expression} {sid : Nat}
    (hplaced : t.Placed e sid) :
    ∀ id ∈ t.boundIn e, ∃ owner ∈ e.ids, t.OwnedBy id owner := by
  induction e generalizing sid with
  | IntLiteral nid value | Variable nid name => simp
  | BinaryOperator kind nid l r ihl ihr | Application nid l r ihl ihr =>
    intro id h
    rcases List.mem_append.mp h with h | h
    · obtain ⟨owner, howner, ho⟩ := ihl hplaced.2.1 id h
      exact ⟨owner, by simp [Expression.ids, howner], ho⟩
    · obtain ⟨owner, howner, ho⟩ := ihr hplaced.2.2 id h
      exact ⟨owner, by simp [Expression.ids, howner], ho⟩
  | CaseExpression nid s bs ihs ihbs =>
    intro id h
    rcases List.mem_append.mp h with h | h
    · obtain ⟨owner, howner, ho⟩ := ihs hplaced.2.1 id h
      exact ⟨owner, by simp [Expression.ids, howner], ho⟩
    · obtain ⟨owner, howner, ho⟩ := boundInBranches_owned' hw hplaced.2.2 ihbs id h
      exact ⟨owner, by simp [Expression.ids, howner], ho⟩

theorem ScopeTree.boundInBranches_owned (hw : t.WellFormed) {bs : List Branch} {sid : Nat}
    (hplaced : t.PlacedBranches bs sid) :
    ∀ id ∈ t.boundInBranches bs, ∃ owner ∈ idsBranches bs, t.OwnedBy id owner :=
  boundInBranches_owned' hw hplaced fun _ _ _ hbody => boundIn_owned hw hbody

/-- Symbols of nodes apart are apart. -/
theorem disjoint_of_owned (hw : t.WellFormed) {l l' : List SymbolId} {owners owners' : List NodeId}
    (h : ∀ id ∈ l, ∃ owner ∈ owners, t.OwnedBy id owner)
    (h' : ∀ id ∈ l', ∃ owner ∈ owners', t.OwnedBy id owner)
    (hd : List.Disjoint owners owners') : List.Disjoint l l' := by
  intro id hid hid'
  obtain ⟨owner, hmem, ho⟩ := h id hid
  obtain ⟨owner', hmem', ho'⟩ := h' id hid'
  rw [ho.unique hw ho'] at hmem
  exact hd hmem hmem'

/-- The patterns of an expression do not repeat a name. -/
theorem Pattern.sites_nodup {globals : Frame} {p : Pattern}
    (h : ∀ site ∈ Pattern.sites globals p, site.violates = false) : (Pattern.names p).Nodup := by
  rw [← Pattern.map_binders]
  cases p with
  | VariablePattern id name => exact declarations_nodup' h
  | ConstructorPattern id name arguments =>
    exact declarations_nodup' fun site hsite => h site (List.mem_cons_of_mem _ hsite)

theorem ScopeTree.boundIn_nodup (hw : t.WellFormed) {globals : Frame} {e : Expression} {sid : Nat}
    {context : Context} (hplaced : t.Placed e sid)
    (hsites : ∀ site ∈ expressionSites globals e context, site.violates = false)
    (hids : e.ids.Nodup) : (t.boundIn e).Nodup := by
  induction e generalizing sid context with
  | IntLiteral nid value | Variable nid name => simp
  | BinaryOperator kind nid l r ihl ihr | Application nid l r ihl ihr =>
    simp only [Expression.ids, List.nodup_cons, List.nodup_append'] at hids
    simp only [expressionSites, List.mem_append, or_imp, forall_and] at hsites
    refine List.nodup_append'.mpr ⟨ihl hplaced.2.1 hsites.1 hids.2.1,
      ihr hplaced.2.2 hsites.2 hids.2.2.1, ?_⟩
    exact disjoint_of_owned hw (boundIn_owned hw hplaced.2.1) (boundIn_owned hw hplaced.2.2)
      hids.2.2.2
  | CaseExpression nid s bs ihs ihbs =>
    simp only [Expression.ids, List.nodup_cons, List.nodup_append'] at hids
    simp only [expressionSites, List.mem_append, or_imp, forall_and] at hsites
    obtain ⟨-, hsids, hbids, hdisj⟩ := hids
    refine List.nodup_append'.mpr ⟨ihs hplaced.2.1 hsites.1 hsids, ?_, disjoint_of_owned hw
      (boundIn_owned hw hplaced.2.1) (boundInBranches_owned hw hplaced.2.2) hdisj⟩
    have hplacedb := hplaced.2.2
    have hsitesb := hsites.2
    clear hdisj hsites hplaced
    -- along the branches, whose ids are apart
    induction bs with
    | nil => simp
    | cons b bs ih =>
      obtain ⟨bid, p, e⟩ := b
      simp only [idsBranches, List.nodup_cons, List.nodup_append', List.mem_cons,
        List.mem_append, not_or] at hbids
      simp only [branchSites, List.mem_append, or_imp, forall_and] at hsitesb
      obtain ⟨⟨bsid, hscope, _, hp, hbody⟩, hrest⟩ := hplacedb
      have hpowned : ∀ id ∈ t.patternSymbols p, ∃ owner ∈ [bid], t.OwnedBy id owner :=
        fun id hid => ⟨bid, by simp, hp.symbols_owned hw hscope hid⟩
      have hpnodup : (t.patternSymbols p).Nodup := by
        unfold ScopeTree.patternSymbols
        rw [hp.1]
        exact symbolsIn_nodup hw bsid (Pattern.sites_nodup hsitesb.1.1)
      simp only [ScopeTree.boundInBranches, List.nodup_append', List.disjoint_append_right]
      refine ⟨hpnodup, ⟨?_, ?_, ?_⟩, ?_, ?_⟩
      · exact ihbs _ List.mem_cons_self hbody hsitesb.1.2 hbids.2.2.1
      · exact ih (fun b hb => ihbs b (List.mem_cons_of_mem _ hb)) hbids.2.2.2.1 hrest hsitesb.2
      · exact disjoint_of_owned hw (boundIn_owned hw hbody) (boundInBranches_owned hw hrest)
          hbids.2.2.2.2
      · exact disjoint_of_owned hw hpowned (boundIn_owned hw hbody) (by simp [hbids.1.2.1])
      · exact disjoint_of_owned hw hpowned (boundInBranches_owned hw hrest)
          (by simp [hbids.1.2.2])

/-! ## Scopes without violations -/

/-- What the names of a scope resolve to: a global symbol, or one of `locals`. -/
def ScopeTree.Locals (t : ScopeTree) (sid : ScopeId) (locals : List SymbolId) : Prop :=
  ∀ name id, t.getResolvedSymbolId sid name = some id →
    t.getLocalSymbolId 0 name = some id ∨
      (id ∈ locals ∧ ∃ s, t.getSymbol id = some s ∧
        (s.kind = .Parameter ∨ s.kind = .PatternVariable))

theorem ScopeTree.Locals.nested (hw : t.WellFormed) {parent sid : Nat} {owner : NodeId}
    {context : Context} (hc : t.Chain parent context) (hb : t.BranchScope parent sid owner)
    {frame : Frame} (hf : t.FrameIs sid frame)
    (hkinds : ∀ b ∈ frame, b.kind = .Parameter ∨ b.kind = .PatternVariable)
    {locals : List SymbolId} (h : t.Locals parent locals) :
    t.Locals sid (t.symbolsIn sid (frame.map (·.name)) ++ locals) := by
  intro name id hid
  obtain ⟨scope, hscope, hparent, _, hlt⟩ := hb
  rw [Chain.getResolvedSymbolId hscope hparent hlt hc] at hid
  rcases Option.or_eq_some_iff.mp hid with hlocal | ⟨_, houter⟩
  · obtain ⟨s, hs, rfl, hname⟩ := hw.named sid name id hlocal
    have hsym : t.getLocalSymbol sid name = some s := by
      unfold ScopeTree.getLocalSymbol
      rw [hlocal, Option.bind_some, hs]
    have hmem := hf.mem hsym
    right
    refine ⟨List.mem_append_left _ (mem_symbolsIn.mpr ⟨name, ?_, s, hsym, rfl⟩), s, hs,
      hkinds _ hmem⟩
    exact List.mem_map.mpr ⟨_, hmem, hname⟩
  · rcases h name id houter with hglobal | ⟨hmem, hkind⟩
    · exact .inl hglobal
    · exact .inr ⟨List.mem_append_right _ hmem, hkind⟩

theorem globalFrame_kind {program : Program} {b : Binder} (h : b ∈ globalFrame program) :
    b.kind ≠ .Parameter ∧ b.kind ≠ .PatternVariable := by
  rcases List.mem_cons.mp h with rfl | h
  · simp
  · obtain ⟨d, _, h⟩ := List.mem_flatMap.mp h
    cases d with
    | FunctionDefinition fd =>
      rw [List.mem_singleton.mp h]
      simp
    | DataTypeDefinition dt =>
      rcases List.mem_cons.mp h with rfl | h
      · simp
      · obtain ⟨c, _, rfl⟩ := List.mem_map.mp h
        simp

theorem variableScoped {program : Program} (hw : t.WellFormed)
    (hg : t.FrameIs 0 (globalFrame program)) {id : NodeId} {name : String} {sid : Nat}
    {context : Context} {locals : List SymbolId} (hc : t.Chain sid context)
    (hlocals : t.Locals sid locals) (hplaced : t.getResolvedSymbol id = t.variableTarget sid name)
    (hviolates : (Site.variableUse context id name).violates = false)
    (hresolved : (Site.variableUse context id name).Resolved t) :
    t.VariableScoped id name locals := by
  simp only [Site.Resolved, hviolates, Bool.false_eq_true, if_false, Site.node,
    Site.target] at hresolved
  obtain ⟨s, hs, htarget⟩ := hresolved
  simp only [Site.violates, htarget] at hviolates
  have hsym := hs
  rw [hplaced] at hsym
  obtain ⟨rid, hrid, hsymbol⟩ := Option.bind_eq_some_iff.mp (Option.filter_eq_some_iff.mp hsym).1
  obtain ⟨s', hs', rfl, hname⟩ := hc.named hw hrid
  rw [hsymbol] at hs'
  cases hs'
  refine ⟨s, hs, hname, ?_⟩
  rcases hlocals name s.id hrid with hglobal | ⟨hmem, s', hs', hkind⟩
  · left
    have hroot : t.getLocalSymbol getRootScopeId name = some s := by
      unfold ScopeTree.getLocalSymbol
      rw [show getRootScopeId = 0 from rfl, hglobal, Option.bind_some, hsymbol]
    have hkinds := globalFrame_kind (hg.mem hroot)
    have hkind : s.binder.kind = s.kind := rfl
    rw [hkind] at hviolates hkinds
    refine ⟨?_, hroot⟩
    cases hk : s.kind <;> simp_all [isTypeSymbol]
  · right
    rw [hsymbol] at hs'
    cases hs'
    exact ⟨hkind, hmem⟩

/-- The pattern of a branch without violations. -/
theorem patternScoped {globals : Frame} {sid : Nat} {p : Pattern} (hp : t.PatternPlaced sid p)
    (hsites : ∀ site ∈ Pattern.sites globals p, site.violates = false ∧ site.Resolved t) :
    t.PatternScoped p := by
  have hnodup := Pattern.sites_nodup fun site hsite => (hsites site hsite).1
  rw [← Pattern.map_binders] at hnodup
  refine ⟨⟨sid, hp.1, fun name hname => ?_⟩, ?_⟩
  · rw [← Pattern.map_binders] at hname
    obtain ⟨b, hb, rfl⟩ := List.mem_map.mp hname
    obtain ⟨s, hs, hbinder⟩ := hp.2.1.declared hnodup hb
    exact ⟨s, hs, by rw [← Pattern.binders_kind hb, ← hbinder]; rfl⟩
  · cases p with
    | VariablePattern id name => trivial
    | ConstructorPattern id name arguments =>
      obtain ⟨hviolates, hresolved⟩ := hsites _ List.mem_cons_self
      simp only [Site.Resolved, hviolates, Bool.false_eq_true, if_false, Site.node] at hresolved
      obtain ⟨s, hs, _⟩ := hresolved
      have htarget := hp.2.2
      simp only [] at htarget
      rw [hs] at htarget
      obtain ⟨hlocal, hkind⟩ := Option.filter_eq_some_iff.mp htarget.symm
      exact ⟨s, hs, by simpa using hkind, hlocal⟩

theorem wellScoped {program : Program} (hw : t.WellFormed)
    (hg : t.FrameIs 0 (globalFrame program)) {e : Expression} (hwritable : e.Writable) {sid : Nat}
    {context : Context} {locals : List SymbolId} (hc : t.Chain sid context)
    (hlocals : t.Locals sid locals) (hplaced : t.Placed e sid)
    (hsites : ∀ site ∈ expressionSites (globalFrame program) e context,
      site.violates = false ∧ site.Resolved t) : t.WellScoped e locals := by
  induction e generalizing sid context locals with
  | IntLiteral id value => trivial
  | Variable id name =>
    obtain ⟨hviolates, hresolved⟩ := hsites _ (List.mem_singleton.mpr rfl)
    exact variableScoped hw hg hc hlocals hplaced.2 hviolates hresolved
  | BinaryOperator kind id l r ihl ihr | Application id l r ihl ihr =>
    simp only [expressionSites, List.mem_append, or_imp, forall_and] at hsites
    have hl := fun site h => And.intro (hsites.1.1 site h) (hsites.2.1 site h)
    have hr := fun site h => And.intro (hsites.1.2 site h) (hsites.2.2 site h)
    exact ⟨ihl hwritable.1 hc hlocals hplaced.2.1 hl, ihr hwritable.2 hc hlocals hplaced.2.2 hr⟩
  | CaseExpression id s bs ihs ihbs =>
    obtain ⟨hws, hne, hwbs⟩ := hwritable
    rw [writableBranches_iff] at hwbs
    refine ⟨ihs hws hc hlocals hplaced.2.1 fun site h => hsites site (List.mem_append_left _ h),
      hne, wellScopedBranches_iff.mpr fun b hb => ?_⟩
    obtain ⟨bsid, hscope, _, hp, hbody⟩ := placedBranches_iff.mp hplaced.2.2 b hb
    have hsiteb := fun site h =>
      hsites site (List.mem_append_right _ (mem_branchSites.mpr ⟨b, hb, h⟩))
    refine ⟨patternScoped hp fun site h => hsiteb site (.inl h), ?_⟩
    have hinner := hlocals.nested hw hc hscope hp.2.1 fun b' hb' =>
      .inr (Pattern.binders_kind hb')
    rw [Pattern.map_binders] at hinner
    have hsymbols : t.patternSymbols b.pattern = t.symbolsIn bsid (Pattern.names b.pattern) := by
      unfold ScopeTree.patternSymbols
      rw [hp.1]
    rw [hsymbols]
    exact ihbs b hb (hwbs b hb).2 (hc.branch hscope hp.2.1) hinner hbody
      fun site h => hsiteb site (.inr h)

/-! ## Accepted programs -/

theorem ScopeTree.localSymbols_owned {program : Program} (h : t.Scopes program) {d : Definition}
    (hd : d ∈ program.definitions) :
    ∀ id ∈ t.localSymbols d, ∃ owner ∈ d.ids, t.OwnedBy id owner := by
  intro id hid
  cases d with
  | DataTypeDefinition dt => simp [localSymbols] at hid
  | FunctionDefinition fd =>
    obtain ⟨fsid, hscope, hfsid, _, hplaced⟩ := h.functions fd hd
    rcases List.mem_append.mp hid with hid | hid
    · unfold ScopeTree.parameterSymbols at hid
      rw [hfsid] at hid
      exact ⟨fd.id, by simp [Definition.ids], symbolsIn_owned h.wellFormed hscope hid⟩
    · obtain ⟨owner, howner, ho⟩ := boundIn_owned h.wellFormed hplaced id hid
      exact ⟨owner, by simp [Definition.ids, howner], ho⟩

theorem ScopeTree.localSymbols_nodup {program : Program} (h : t.Scopes program) {d : Definition}
    (hd : d ∈ program.definitions) (hids : d.ids.Nodup)
    (hsites : ∀ site ∈ Definition.sites (globalFrame program) d, site.violates = false) :
    (t.localSymbols d).Nodup := by
  cases d with
  | DataTypeDefinition dt => exact List.nodup_nil
  | FunctionDefinition fd =>
    obtain ⟨fsid, hscope, hfsid, _, hplaced⟩ := h.functions fd hd
    simp only [Definition.ids, List.nodup_cons] at hids
    simp only [Definition.sites, List.mem_append, or_imp, forall_and] at hsites
    refine List.nodup_append'.mpr ⟨?_, boundIn_nodup h.wellFormed hplaced hsites.2 hids.2, ?_⟩
    · unfold ScopeTree.parameterSymbols
      rw [hfsid]
      refine symbolsIn_nodup h.wellFormed fsid ?_
      have := declarations_nodup' hsites.1
      simpa [parameterFrame, Function.comp_def] using this
    · have hparams : ∀ id ∈ t.parameterSymbols fd, ∃ owner ∈ [fd.id], t.OwnedBy id owner := by
        intro id hid
        unfold ScopeTree.parameterSymbols at hid
        rw [hfsid] at hid
        exact ⟨fd.id, by simp, symbolsIn_owned h.wellFormed hscope hid⟩
      exact disjoint_of_owned h.wellFormed hparams (boundIn_owned h.wellFormed hplaced)
        (by simpa using hids.1)

theorem ScopeTree.programSymbols_nodup {program : Program} (h : t.Scopes program)
    (hids : program.ids.Nodup)
    (hsites : ∀ site ∈ programSites program, site.violates = false) :
    (t.globalSymbols program ++ program.definitions.flatMap t.localSymbols).Nodup := by
  simp only [programSites, List.mem_append, List.mem_flatMap, or_imp, forall_and] at hsites
  refine List.nodup_append'.mpr ⟨symbolsIn_nodup h.wellFormed 0 (declarations_nodup' hsites.1),
    ?_, fun id hid hid' => ?_⟩
  · rw [List.nodup_flatMap]
    refine ⟨fun d hd => localSymbols_nodup h hd (List.nodup_flatMap.mp hids |>.1 d hd)
      fun site hsite => hsites.2 site ⟨d, hd, hsite⟩, ?_⟩
    refine List.Pairwise.imp_of_mem (fun hd hd' hdisj => ?_) (List.nodup_flatMap.mp hids).2
    exact disjoint_of_owned h.wellFormed (localSymbols_owned h hd) (localSymbols_owned h hd') hdisj
  · obtain ⟨name, _, s, hs, rfl⟩ := mem_symbolsIn.mp hid
    obtain ⟨d, hd, hid'⟩ := List.mem_flatMap.mp hid'
    obtain ⟨owner, _, ho⟩ := localSymbols_owned h hd s.id hid'
    exact ho.not_global h.wellFormed name (h.wellFormed.local hs).1

/-- The scope tree of a program that scope analysis accepts. -/
theorem analyze_scoped {tokens : TokenVector} (hl : tokens.Lexed) {p : ParsedProgram}
    (hp : parse tokens = .ok p) (hok : (analyze p).ok) :
    (analyze p).scopes.ProgramScoped p.ast := by
  have hresolved := analyze_resolved hl hp
  have hclean := (analyze_ok_iff hl hp).mp hok
  have hwritable := parse_writable hl hp
  obtain ⟨hnodup, hvalid⟩ := parse_ids hp
  obtain ⟨_, h⟩ := analyze_spec p hnodup fun id hid => (hvalid id hid).2
  have hsites : ∀ site ∈ programSites p.ast,
      site.violates = false ∧ site.Resolved (analyze p).scopes :=
    fun site hsite => ⟨hclean site hsite, hresolved site hsite⟩
  have hglobalnames : ((globalFrame p.ast).map (·.name)).Nodup :=
    declarations_nodup' fun site hsite => hclean site (List.mem_append_left _ hsite)
  have hroot : ∀ id, (analyze p).scopes.Locals 0 id := by
    intro id name sid hsid
    have hchain := h.chain
    cases hchain with
    | root hs hparent _ =>
      rw [getResolvedSymbolId_root hs hparent] at hsid
      exact .inl hsid
    | nested _ _ hlt _ _ => omega
  refine ⟨fun b hb => h.globals.declared hglobalnames hb, fun name s hs => h.globals.mem hs,
    fun fd hfd => ?_, programSymbols_nodup h hnodup hclean,
    fun sid name s hs => (h.wellFormed.local hs).2⟩
  obtain ⟨fsid, hscope, hfsid, hframe, hplaced⟩ := h.functions fd hfd
  have hfdsites := fun site (hsite : site ∈ Definition.sites (globalFrame p.ast) _) =>
    hsites site (List.mem_append_right _ (List.mem_flatMap.mpr ⟨_, hfd, hsite⟩))
  have hfdwritable := hwritable _ hfd
  have hparams : (parameterFrame fd).map (·.name) = fd.parameters := by
    simp [parameterFrame, Function.comp_def]
  have hkinds : ∀ b ∈ parameterFrame fd, b.kind = .Parameter := by
    intro b hb
    obtain ⟨name, _, rfl⟩ := List.mem_map.mp hb
    rfl
  refine ⟨?_, ⟨fsid, hfsid, fun name hname => ?_⟩, ?_⟩
  · have hmem : (⟨fd.name, .Function, fd.id⟩ : Binder) ∈ globalFrame p.ast :=
      List.mem_cons_of_mem _ (List.mem_flatMap.mpr ⟨_, hfd, List.mem_singleton.mpr rfl⟩)
    obtain ⟨s, hs, hbinder⟩ := h.globals.declared hglobalnames hmem
    have hkind := congrArg Binder.kind hbinder
    have hdecl := congrArg Binder.declaration hbinder
    exact ⟨s, hs, hkind, hdecl⟩
  · have hnames : ((parameterFrame fd).map (·.name)).Nodup :=
      declarations_nodup' fun site hsite => (hfdsites site (List.mem_append_left _ hsite)).1
    rw [← hparams] at hname
    obtain ⟨b, hb, rfl⟩ := List.mem_map.mp hname
    obtain ⟨s, hs, hbinder⟩ := hframe.declared hnames hb
    exact ⟨s, hs, by rw [← hkinds b hb, ← hbinder]; rfl⟩
  · have hlocals := (hroot []).nested h.wellFormed h.chain hscope hframe
      fun b hb => .inl (hkinds b hb)
    rw [hparams, List.append_nil] at hlocals
    unfold ScopeTree.parameterSymbols
    rw [hfsid]
    exact wellScoped h.wellFormed h.globals hfdwritable.2.2 (h.chain.branch hscope hframe) hlocals
      hplaced fun site hsite => hfdsites site (List.mem_append_right _ hsite)

/-! ## The symbols of the global scope -/

section

variable {program : Program}

theorem mem_globalFrame {d : Definition} (hd : d ∈ program.definitions) {b : Binder}
    (hb : b ∈ Definition.binders d) : b ∈ globalFrame program :=
  List.mem_cons_of_mem _ (List.mem_flatMap.mpr ⟨d, hd, hb⟩)

theorem mem_globalFrame_cases {b : Binder} (h : b ∈ globalFrame program) :
    b = ⟨"Int", .BuiltinType, kInvalidNodeId⟩ ∨
    (∃ fd, .FunctionDefinition fd ∈ program.definitions ∧ b = ⟨fd.name, .Function, fd.id⟩) ∨
    ∃ dt, .DataTypeDefinition dt ∈ program.definitions ∧ (b = ⟨dt.name, .DataType, dt.id⟩ ∨
      ∃ ctor ∈ dt.constructors, b = ⟨ctor.name, .Constructor, ctor.id⟩) := by
  rcases List.mem_cons.mp h with rfl | h
  · exact .inl rfl
  · obtain ⟨d, hd, h⟩ := List.mem_flatMap.mp h
    cases d with
    | FunctionDefinition fd => exact .inr (.inl ⟨fd, hd, List.mem_singleton.mp h⟩)
    | DataTypeDefinition dt =>
      rcases List.mem_cons.mp h with rfl | h
      · exact .inr (.inr ⟨dt, hd, .inl rfl⟩)
      · obtain ⟨ctor, hctor, rfl⟩ := List.mem_map.mp h
        exact .inr (.inr ⟨dt, hd, .inr ⟨ctor, hctor, rfl⟩⟩)

variable (hscoped : t.ProgramScoped program)

include hscoped

theorem global_symbol {b : Binder} (hb : b ∈ globalFrame program) :
    ∃ s, t.getLocalSymbol getRootScopeId b.name = some s ∧ s.kind = b.kind ∧
      s.declaration = b.declaration := by
  obtain ⟨s, hs, hbinder⟩ := hscoped.declared b hb
  have hkind := congrArg Binder.kind hbinder
  have hdecl := congrArg Binder.declaration hbinder
  exact ⟨s, hs, hkind, hdecl⟩

/-- A global symbol of the kind of a constructor is that of a declared one. -/
theorem constructor_declared {name : String} {s : Symbol}
    (hs : t.getLocalSymbol getRootScopeId name = some s) (hkind : s.kind = .Constructor) :
    ∃ dt, .DataTypeDefinition dt ∈ program.definitions ∧ ∃ ctor ∈ dt.constructors,
      ctor.name = name := by
  have hname := (hscoped.named _ _ _ hs).2
  rcases mem_globalFrame_cases (hscoped.globals name s hs) with h | ⟨fd, _, h⟩ | ⟨dt, hdt, h | h⟩
  · have := congrArg Binder.kind h
    simp [Symbol.binder, hkind] at this
  · have := congrArg Binder.kind h
    simp [Symbol.binder, hkind] at this
  · have := congrArg Binder.kind h
    simp [Symbol.binder, hkind] at this
  · obtain ⟨ctor, hctor, h⟩ := h
    exact ⟨dt, hdt, ctor, hctor, (congrArg Binder.name h).symm.trans hname⟩

theorem function_declared {name : String} {s : Symbol}
    (hs : t.getLocalSymbol getRootScopeId name = some s) (hkind : s.kind = .Function) :
    ∃ fd, .FunctionDefinition fd ∈ program.definitions ∧ fd.name = name ∧
      s.declaration = fd.id := by
  have hname := (hscoped.named _ _ _ hs).2
  rcases mem_globalFrame_cases (hscoped.globals name s hs) with h | ⟨fd, hfd, h⟩ | ⟨dt, hdt, h | h⟩
  · have := congrArg Binder.kind h
    simp [Symbol.binder, hkind] at this
  · exact ⟨fd, hfd, (congrArg Binder.name h).symm.trans hname, congrArg Binder.declaration h⟩
  · have := congrArg Binder.kind h
    simp [Symbol.binder, hkind] at this
  · obtain ⟨ctor, _, h⟩ := h
    have := congrArg Binder.kind h
    simp [Symbol.binder, hkind] at this

theorem dataType_declared {name : String} {s : Symbol}
    (hs : t.getLocalSymbol getRootScopeId name = some s) (hkind : s.kind = .DataType) :
    ∃ dt, .DataTypeDefinition dt ∈ program.definitions ∧ dt.name = name := by
  have hname := (hscoped.named _ _ _ hs).2
  rcases mem_globalFrame_cases (hscoped.globals name s hs) with h | ⟨fd, _, h⟩ | ⟨dt, hdt, h | h⟩
  · have := congrArg Binder.kind h
    simp [Symbol.binder, hkind] at this
  · have := congrArg Binder.kind h
    simp [Symbol.binder, hkind] at this
  · exact ⟨dt, hdt, (congrArg Binder.name h).symm.trans hname⟩
  · obtain ⟨ctor, _, h⟩ := h
    have := congrArg Binder.kind h
    simp [Symbol.binder, hkind] at this

theorem builtin_declared {name : String} {s : Symbol}
    (hs : t.getLocalSymbol getRootScopeId name = some s) (hkind : s.kind = .BuiltinType) :
    name = "Int" := by
  have hname := (hscoped.named _ _ _ hs).2
  rcases mem_globalFrame_cases (hscoped.globals name s hs) with h | ⟨fd, _, h⟩ | ⟨dt, hdt, h | h⟩
  · exact hname.symm.trans (congrArg Binder.name h)
  · have := congrArg Binder.kind h
    simp [Symbol.binder, hkind] at this
  · have := congrArg Binder.kind h
    simp [Symbol.binder, hkind] at this
  · obtain ⟨ctor, _, h⟩ := h
    have := congrArg Binder.kind h
    simp [Symbol.binder, hkind] at this

end

end mf.semantics
