-- Data types, constructors and functions have their symbols in the global
-- scope, and nowhere else: the scopes inside declare parameters and pattern
-- variables only.
import MiniFunctional.WellScoped

open mf.util mf.ast mf.parsing mf.tokenization

namespace mf.semantics

open ScopeTree

/-- The kinds of symbols that a nested scope declares. -/
def isLocalKind (kind : SymbolKind) : Bool := kind = .Parameter || kind = .PatternVariable

/-- The ids of the symbols are their places, and those of the other kinds are
in the global scope. -/
def ScopeTree.GlobalsRooted (t : ScopeTree) : Prop :=
  0 < t.scopes.length ∧ ∀ id s, t.getSymbol id = some s → s.id = id ∧
    (isLocalKind s.kind = false → t.getLocalSymbolId getRootScopeId s.name = some id)

theorem ScopeTree.initial_rooted : ScopeTree.initial.GlobalsRooted :=
  ⟨Nat.zero_lt_one, fun id s h => by cases h⟩

theorem ScopeTree.GlobalsRooted.addLocalSymbol {t t' : ScopeTree} (h : t.GlobalsRooted) {sid : Nat}
    (hsid : sid < t.scopes.length) {name : String} {kind : SymbolKind} {declaration : NodeId}
    (hkind : sid = getRootScopeId ∨ isLocalKind kind)
    (hadd : t.addLocalSymbol sid name kind declaration = some t') : t'.GlobalsRooted := by
  have hlocal := getLocalSymbolId_addLocalSymbol hadd hsid
  unfold ScopeTree.addLocalSymbol at hadd
  split at hadd
  · cases hadd
  · rename_i hnot
    cases hadd
    refine ⟨by simpa using h.1, fun id s hs => ?_⟩
    unfold ScopeTree.getSymbol at hs
    by_cases hid : id < t.symbols.length
    · simp only [List.getElem?_append_left hid] at hs
      obtain ⟨hsym, hroot⟩ := h.2 id s hs
      refine ⟨hsym, fun hk => ?_⟩
      rw [hlocal, if_neg, hroot hk]
      rintro ⟨rfl, rfl⟩
      exact hnot (by rw [hroot hk]; rfl)
    · obtain ⟨hlt, _⟩ := List.getElem?_eq_some_iff.mp hs
      simp only [List.length_append, List.length_singleton] at hlt
      obtain rfl := Nat.le_antisymm (Nat.le_of_lt_succ hlt) (Nat.le_of_not_lt hid)
      simp only [List.getElem?_concat_length, Option.some.injEq] at hs
      subst hs
      refine ⟨rfl, fun hk => ?_⟩
      rcases hkind with rfl | hkind
      · rw [hlocal, if_pos ⟨rfl, rfl⟩]
      · simp only at hk
        rw [hkind] at hk
        cases hk

theorem addSymbol_rooted (positions : List Position) {r : AnalysisResult}
    (h : r.scopes.GlobalsRooted) {sid : Nat} (hsid : sid < r.scopes.scopes.length) (name : String)
    (kind : SymbolKind) (hkind : sid = getRootScopeId ∨ isLocalKind kind) (declaration : NodeId) :
    (addSymbol positions sid name kind declaration r).scopes.GlobalsRooted ∧
      (addSymbol positions sid name kind declaration r).scopes.scopes.length =
        r.scopes.scopes.length := by
  unfold addSymbol
  cases hadd : r.scopes.addLocalSymbol sid name kind declaration with
  | some t' =>
    refine ⟨h.addLocalSymbol hsid hkind hadd, ?_⟩
    unfold ScopeTree.addLocalSymbol at hadd
    split at hadd
    · cases hadd
    · cases hadd
      simp
  | none =>
    cases r.scopes.getLocalSymbol sid name with
    | some previous => exact ⟨h, rfl⟩
    | none => exact ⟨h, rfl⟩

theorem bindScope_rooted {r : AnalysisResult} (h : r.scopes.GlobalsRooted) (id : NodeId)
    (sid : ScopeId) : (bindScope id sid r).scopes.GlobalsRooted ∧
      (bindScope id sid r).scopes.scopes = r.scopes.scopes := by
  unfold bindScope bindNodeToScope
  split
  · exact ⟨h, rfl⟩
  · exact ⟨h, rfl⟩

theorem bindSymbol_rooted {r : AnalysisResult} (h : r.scopes.GlobalsRooted) (id : NodeId)
    (symbol_id : SymbolId) : (bindSymbol id symbol_id r).scopes.GlobalsRooted ∧
      (bindSymbol id symbol_id r).scopes.scopes = r.scopes.scopes := by
  unfold bindSymbol bindNodeToSymbol
  split
  · exact ⟨h, rfl⟩
  · exact ⟨h, rfl⟩

theorem openScope_rooted {r : AnalysisResult} (h : r.scopes.GlobalsRooted) (parent : ScopeId)
    (owner : NodeId) : (openScope parent owner r).scopes.GlobalsRooted ∧
      (openScope parent owner r).scopes.scopes.length = r.scopes.scopes.length + 1 := by
  have hcreate : (r.scopes.createScope parent owner).GlobalsRooted := by
    refine ⟨by simp [ScopeTree.createScope], fun id s hs => ?_⟩
    obtain ⟨hsym, hroot⟩ := h.2 id s hs
    refine ⟨hsym, fun hk => ?_⟩
    rw [getLocalSymbolId_createScope]
    exact hroot hk
  obtain ⟨h1, h2⟩ := bindScope_rooted (r := { r with scopes := r.scopes.createScope parent owner })
    hcreate owner r.scopes.scopes.length
  refine ⟨h1, ?_⟩
  unfold openScope
  rw [h2]
  simp [ScopeTree.createScope]

/-- An operation inside a function, which declares nothing in the global scope. -/
def KeepsRooted (f : AnalysisResult → AnalysisResult) : Prop :=
  ∀ r : AnalysisResult, r.scopes.GlobalsRooted →
    (f r).scopes.GlobalsRooted ∧ r.scopes.scopes.length ≤ (f r).scopes.scopes.length

theorem KeepsRooted.comp {f g : AnalysisResult → AnalysisResult} (hf : KeepsRooted f)
    (hg : KeepsRooted g) : KeepsRooted fun r => g (f r) := by
  intro r h
  obtain ⟨h1, hle1⟩ := hf r h
  obtain ⟨h2, hle2⟩ := hg _ h1
  exact ⟨h2, Nat.le_trans hle1 hle2⟩

theorem bindScope_keeps (id : NodeId) (sid : ScopeId) : KeepsRooted (bindScope id sid) := by
  intro r h
  obtain ⟨h1, h2⟩ := bindScope_rooted h id sid
  exact ⟨h1, Nat.le_of_eq (congrArg List.length h2.symm)⟩

theorem bindSymbol_keeps (id : NodeId) (symbol_id : SymbolId) :
    KeepsRooted (bindSymbol id symbol_id) := by
  intro r h
  obtain ⟨h1, h2⟩ := bindSymbol_rooted h id symbol_id
  exact ⟨h1, Nat.le_of_eq (congrArg List.length h2.symm)⟩

theorem addError_keeps (id : NodeId) (message : String) :
    KeepsRooted fun r => addError r id message := fun _ h => ⟨h, Nat.le_refl _⟩

theorem bindVariable_keeps (id : NodeId) (name : String) (sid : ScopeId) :
    KeepsRooted (bindVariable id name sid) := by
  intro r h
  obtain ⟨h1, hle⟩ := bindScope_keeps id sid r h
  unfold bindVariable
  simp only []
  split
  · exact ⟨h1, hle⟩
  · split
    · exact ⟨h1, hle⟩
    · split
      · exact ⟨h1, hle⟩
      · obtain ⟨h2, hle2⟩ := bindSymbol_keeps id _ _ h1
        exact ⟨h2, Nat.le_trans hle hle2⟩

theorem bindConstructorName_keeps (id : NodeId) (name : String) :
    KeepsRooted (bindConstructorName id name) := by
  intro r h
  unfold bindConstructorName
  split
  · exact addError_keeps id _ r h
  · split
    · exact addError_keeps id _ r h
    · exact bindSymbol_keeps id _ r h

/-- Declarations in a scope that exists. -/
theorem addSymbols_rooted (positions : List Position) (sid : Nat) (kind : SymbolKind)
    (hkind : sid = getRootScopeId ∨ isLocalKind kind) (declaration : NodeId) (names : List String)
    {r : AnalysisResult} (h : r.scopes.GlobalsRooted) (hsid : sid < r.scopes.scopes.length) :
    let r' := names.foldl (fun r name => addSymbol positions sid name kind declaration r) r
    r'.scopes.GlobalsRooted ∧ r.scopes.scopes.length ≤ r'.scopes.scopes.length := by
  induction names generalizing r with
  | nil => exact ⟨h, Nat.le_refl _⟩
  | cons name names ih =>
    obtain ⟨h1, hlen⟩ := addSymbol_rooted positions h hsid name kind hkind declaration
    obtain ⟨h2, hle⟩ := ih h1 (by omega)
    exact ⟨h2, by rw [List.foldl_cons]; omega⟩

theorem bindPattern_rooted (positions : List Position) {sid : Nat} (pattern : Pattern)
    {r : AnalysisResult} (h : r.scopes.GlobalsRooted) (hsid : sid < r.scopes.scopes.length) :
    (bindPattern positions sid r pattern).scopes.GlobalsRooted ∧
      r.scopes.scopes.length ≤ (bindPattern positions sid r pattern).scopes.scopes.length := by
  cases pattern with
  | VariablePattern id name =>
    obtain ⟨h1, hle1⟩ := bindScope_keeps id sid r h
    have hsid1 : sid < (bindScope id sid r).scopes.scopes.length := by omega
    obtain ⟨h2, hlen⟩ := addSymbol_rooted positions h1 hsid1 name
      .PatternVariable (.inr rfl) id
    exact ⟨h2, by rw [bindPattern]; omega⟩
  | ConstructorPattern id name arguments =>
    obtain ⟨h1, hle1⟩ := ((bindScope_keeps id sid).comp (bindConstructorName_keeps id name)) r h
    obtain ⟨h2, hle2⟩ := addSymbols_rooted positions sid .PatternVariable (.inr rfl) id
      arguments h1 (by omega)
    exact ⟨h2, Nat.le_trans hle1 hle2⟩

variable {positions : List Position}

theorem bindBranches_keeps {bs : List Branch}
    (ih : ∀ b ∈ bs, ∀ sid, KeepsRooted (bindExpression positions b.body sid)) (sid : ScopeId) :
    KeepsRooted (bindBranches positions bs sid) := by
  induction bs with
  | nil => exact fun r h => ⟨h, Nat.le_refl _⟩
  | cons b bs ihbs =>
    obtain ⟨id, pattern, body⟩ := b
    intro r h
    obtain ⟨h1, hlen⟩ := openScope_rooted h sid id
    have hsid : r.scopes.scopes.length < (openScope sid id r).scopes.scopes.length := by omega
    obtain ⟨h2, hle2⟩ := bindPattern_rooted positions pattern h1 hsid
    obtain ⟨h3, hle3⟩ := ih _ List.mem_cons_self r.scopes.scopes.length _ h2
    obtain ⟨h4, hle4⟩ := ihbs (fun b hb => ih b (List.mem_cons_of_mem _ hb)) _ h3
    refine ⟨h4, ?_⟩
    rw [bindBranches]
    exact Nat.le_trans (by omega) (Nat.le_trans hle2 (Nat.le_trans hle3 hle4))

theorem bindExpression_keeps (e : Expression) (sid : ScopeId) :
    KeepsRooted (bindExpression positions e sid) := by
  induction e generalizing sid with
  | IntLiteral id value => exact bindScope_keeps id sid
  | Variable id name => exact bindVariable_keeps id name sid
  | BinaryOperator kind id left right ihl ihr =>
    exact ((bindScope_keeps id sid).comp (ihl sid)).comp (ihr sid)
  | Application id function argument ihf iha =>
    exact ((bindScope_keeps id sid).comp (ihf sid)).comp (iha sid)
  | CaseExpression id scrutinee branches ihs ihb =>
    exact ((bindScope_keeps id sid).comp (ihs sid)).comp (bindBranches_keeps ihb sid)

theorem bindFunctionBody_keeps (d : Definition) :
    KeepsRooted fun r => bindFunctionBody positions r d := by
  intro r h
  cases d with
  | DataTypeDefinition dt => exact ⟨h, Nat.le_refl _⟩
  | FunctionDefinition fd =>
    obtain ⟨h1, hlen⟩ := openScope_rooted h getRootScopeId fd.id
    obtain ⟨h2, hle2⟩ := addSymbols_rooted positions r.scopes.scopes.length .Parameter
      (.inr rfl) fd.id fd.parameters h1 (by omega)
    obtain ⟨h3, hle3⟩ := bindExpression_keeps fd.body r.scopes.scopes.length _ h2
    exact ⟨h3, by simp only [bindFunctionBody, bindFunction]; omega⟩

theorem foldl_keeps {α : Type} {f : AnalysisResult → α → AnalysisResult} {l : List α}
    (hf : ∀ a ∈ l, KeepsRooted fun r => f r a) : KeepsRooted fun r => l.foldl f r := by
  induction l with
  | nil => exact fun r h => ⟨h, Nat.le_refl _⟩
  | cons a l ih =>
    exact (hf a List.mem_cons_self).comp (ih fun b hb => hf b (List.mem_cons_of_mem _ hb))

/-- The symbols of data types, constructors and functions are the globals. -/
theorem analyze_rooted (p : ParsedProgram) : (analyze p).scopes.GlobalsRooted := by
  obtain ⟨⟨definitions⟩, positions⟩ := p
  rw [analyze_eq]
  have hglobal : ∀ (binders : Frame) (r : AnalysisResult), r.scopes.GlobalsRooted →
      (addBinders positions 0 binders r).scopes.GlobalsRooted := by
    intro binders
    induction binders with
    | nil => exact fun r h => h
    | cons b bs ih =>
      exact fun r h =>
        ih _ (addSymbol_rooted positions h h.1 b.name b.kind (.inl rfl) b.declaration).1
  have h1 := hglobal (globalFrame ⟨definitions⟩) ⟨.initial, []⟩ ScopeTree.initial_rooted
  obtain ⟨h2, _⟩ := foldl_keeps (fun id _ => bindScope_keeps id 0)
    (l := definitions.flatMap headIds) _ h1
  exact (foldl_keeps (fun d _ => bindFunctionBody_keeps d) _ h2).1

/-- A symbol of a declaration is found by its name. -/
theorem ScopeTree.GlobalsRooted.find {t : ScopeTree} (h : t.GlobalsRooted) {id : SymbolId}
    {s : Symbol} (hs : t.getSymbol id = some s) (hkind : isLocalKind s.kind = false) :
    t.getLocalSymbol getRootScopeId s.name = some s ∧ s.id = id := by
  obtain ⟨hid, hroot⟩ := h.2 id s hs
  refine ⟨?_, hid⟩
  unfold ScopeTree.getLocalSymbol
  rw [hroot hkind, Option.bind_some, hs]

end mf.semantics
