-- The analyzer against lexical scoping. Each of its functions takes the scope
-- tree on, reports the violations of the sites it passes, and leaves every
-- node bound to the scope and the symbol of its place.
import MiniFunctional.ScopeTreeLaws
import Mathlib.Data.List.Flatten
import Mathlib.Data.List.Pairwise

open mf.util mf.ast mf.parsing

namespace mf.semantics

open ScopeTree

variable {positions : List Position}

/-! ## Chains of scopes -/

/-- From the scope `sid` outwards, the scopes of `t` are those of the context. -/
inductive ScopeTree.Chain (t : ScopeTree) : Nat → Context → Prop
  | root {scope : Scope} {frame : Frame} : t.getScope 0 = some scope → scope.parent = none →
    t.FrameIs 0 frame → Chain t 0 [frame]
  | nested {sid parent : Nat} {scope : Scope} {frame : Frame} {context : Context} :
    t.getScope sid = some scope → scope.parent = some parent → parent < sid →
    t.FrameIs sid frame → Chain t parent context → Chain t sid (frame :: context)

theorem ScopeTree.Chain.lt {t : ScopeTree} {sid : Nat} {context : Context}
    (h : Chain t sid context) : sid < t.scopes.length := by
  cases h with
  | root hs _ _ => exact (List.getElem?_eq_some_iff.mp hs).1
  | nested hs _ _ _ _ => exact (List.getElem?_eq_some_iff.mp hs).1

theorem ScopeTree.Chain.grows {t t' : ScopeTree} {old : Nat} {nodes : List NodeId}
    (hw : t.WellFormed) (hg : Grows t t' old nodes) {sid : Nat} {context : Context}
    (h : Chain t sid context) (hsid : sid < old) : Chain t' sid context := by
  induction h with
  | root hs hp hf =>
    obtain ⟨scope', hs', hp', _⟩ := hg.scope _ _ hs
    exact .root hs' (hp'.trans hp) (hg.frameIs hw hsid (List.getElem?_eq_some_iff.mp hs).1 hf)
  | nested hs hp hlt hf _ ih =>
    obtain ⟨scope', hs', hp', _⟩ := hg.scope _ _ hs
    exact .nested hs' (hp'.trans hp) hlt
      (hg.frameIs hw hsid (List.getElem?_eq_some_iff.mp hs).1 hf) (ih (by omega))

/-- More turns than scopes on the way to the root change nothing. -/
theorem ScopeTree.Chain.resolveWithin {t : ScopeTree} {sid : Nat} {context : Context}
    (h : Chain t sid context) (name : String) {n m : Nat} (hn : sid < n) (hm : sid < m) :
    t.resolveWithin name n sid = t.resolveWithin name m sid := by
  induction h generalizing n m with
  | root hs hp _ =>
    obtain ⟨n, rfl⟩ : ∃ k, n = k + 1 := ⟨n - 1, by omega⟩
    obtain ⟨m, rfl⟩ : ∃ k, m = k + 1 := ⟨m - 1, by omega⟩
    simp only [ScopeTree.resolveWithin, hs, hp, Option.bind_some, Option.bind_none]
  | nested hs hp hlt _ _ ih =>
    obtain ⟨n, rfl⟩ : ∃ k, n = k + 1 := ⟨n - 1, by omega⟩
    obtain ⟨m, rfl⟩ : ∃ k, m = k + 1 := ⟨m - 1, by omega⟩
    simp only [ScopeTree.resolveWithin, hs, hp, Option.bind_some]
    rw [ih (n := n) (m := m) (by omega) (by omega)]

/-- The walk to the root: the scope itself, then its parent. -/
theorem ScopeTree.Chain.getResolvedSymbolId {t : ScopeTree} {sid parent : Nat} {scope : Scope}
    {context : Context} (hs : t.getScope sid = some scope) (hp : scope.parent = some parent)
    (hlt : parent < sid) (h : Chain t parent context) (name : String) :
    t.getResolvedSymbolId sid name =
      (t.getLocalSymbolId sid name).or (t.getResolvedSymbolId parent name) := by
  unfold ScopeTree.getResolvedSymbolId
  rw [ScopeTree.resolveWithin]
  cases t.getLocalSymbolId sid name with
  | some id => rfl
  | none =>
    simp only [hs, hp, Option.bind_some, Option.none_or]
    exact h.resolveWithin name hlt (Nat.lt_succ_self parent)

theorem ScopeTree.getResolvedSymbolId_root {t : ScopeTree} {scope : Scope}
    (hs : t.getScope 0 = some scope) (hp : scope.parent = none) (name : String) :
    t.getResolvedSymbolId 0 name = t.getLocalSymbolId 0 name := by
  unfold ScopeTree.getResolvedSymbolId
  rw [ScopeTree.resolveWithin]
  cases t.getLocalSymbolId 0 name with
  | some id => rfl
  | none => simp only [hs, hp, Option.bind_some, Option.bind_none]

/-- Resolution in the tree is lookup in the context. -/
theorem ScopeTree.Chain.lookup {t : ScopeTree} (hw : t.WellFormed) {sid : Nat} {context : Context}
    (h : Chain t sid context) (name : String) :
    ((t.getResolvedSymbolId sid name).bind t.getSymbol).map Symbol.binder =
      context.lookup name := by
  induction h with
  | root hs hp hf =>
    rw [getResolvedSymbolId_root hs hp]
    simp only [Context.lookup, Option.or_none]
    exact hf name
  | @nested sid parent scope frame context hs hp hlt hf hparent ih =>
    rw [Chain.getResolvedSymbolId hs hp hlt hparent]
    have hlocal := hf name
    unfold ScopeTree.getLocalSymbol at hlocal
    rw [Context.lookup, ← hlocal]
    cases hid : t.getLocalSymbolId sid name with
    | none => simpa [hid] using ih
    | some id =>
      obtain ⟨symbol, hsymbol, _⟩ := hw.named sid name id hid
      simp [hsymbol]

theorem ScopeTree.Chain.resolved_grows {t t' : ScopeTree} {old : Nat} {nodes : List NodeId}
    (hg : Grows t t' old nodes) {sid : Nat} {context : Context} (hw : t.WellFormed)
    (h : Chain t sid context) (hsid : sid < old) (name : String) :
    t'.getResolvedSymbolId sid name = t.getResolvedSymbolId sid name := by
  induction h with
  | root hs hp _ =>
    obtain ⟨scope', hs', hp', _⟩ := hg.scope _ _ hs
    rw [getResolvedSymbolId_root hs hp, getResolvedSymbolId_root hs' (hp'.trans hp)]
    exact hg.getLocalSymbolId hsid (List.getElem?_eq_some_iff.mp hs).1 name
  | nested hs hp hlt hf hparent ih =>
    obtain ⟨scope', hs', hp', _⟩ := hg.scope _ _ hs
    have hparent' := hparent.grows hw hg (by omega)
    rw [Chain.getResolvedSymbolId hs hp hlt hparent,
      Chain.getResolvedSymbolId hs' (hp'.trans hp) hlt hparent', ih (by omega),
      hg.getLocalSymbolId hsid (List.getElem?_eq_some_iff.mp hs).1]

/-- Every id that resolution gives is the id of a symbol with the name. -/
theorem ScopeTree.Chain.named {t : ScopeTree} (hw : t.WellFormed) {sid : Nat} {context : Context}
    (h : Chain t sid context) {name : String} {id : Nat}
    (hid : t.getResolvedSymbolId sid name = some id) :
    ∃ symbol, t.getSymbol id = some symbol ∧ symbol.id = id ∧ symbol.name = name := by
  induction h with
  | root hs hp _ =>
    rw [getResolvedSymbolId_root hs hp] at hid
    exact hw.named _ _ _ hid
  | @nested sid parent scope frame context hs hp hlt hf hparent ih =>
    rw [Chain.getResolvedSymbolId hs hp hlt hparent] at hid
    cases hl : t.getLocalSymbolId sid name with
    | none =>
      rw [hl, Option.none_or] at hid
      exact ih hid
    | some id' =>
      rw [hl, Option.some_or] at hid
      cases hid
      exact hw.named _ _ _ hl

/-! ## Where the nodes are bound -/

/-- The symbol that a variable of a scope is bound to, if it may name it. -/
def ScopeTree.variableTarget (t : ScopeTree) (sid : Nat) (name : String) : Option Symbol :=
  ((t.getResolvedSymbolId sid name).bind t.getSymbol).filter fun symbol =>
    (variableError name symbol.kind).isNone

def ScopeTree.constructorTarget (t : ScopeTree) (name : String) : Option Symbol :=
  (t.getLocalSymbol getRootScopeId name).filter (·.kind = .Constructor)

/-- The pattern's node is bound to the branch's scope `bsid`, whose symbols are
the pattern's variables. -/
def ScopeTree.PatternPlaced (t : ScopeTree) (bsid : Nat) (pattern : Pattern) : Prop :=
  t.getScopeId pattern.id = some bsid ∧ t.FrameIs bsid (Pattern.binders pattern) ∧
    match pattern with
    | .VariablePattern _ _ => True
    | .ConstructorPattern id name _ => t.getResolvedSymbol id = t.constructorTarget name

/-- The branch `id` in the scope `sid` has its own scope `bsid`. -/
def ScopeTree.BranchScope (t : ScopeTree) (sid bsid : Nat) (id : NodeId) : Prop :=
  ∃ scope, t.getScope bsid = some scope ∧ scope.parent = some sid ∧ scope.owner = id ∧ sid < bsid

mutual

/-- The nodes of an expression in the scope `sid` are bound as they should be. -/
@[simp] def ScopeTree.Placed (t : ScopeTree) : Expression → Nat → Prop
  | .IntLiteral id _, sid => t.getScopeId id = some sid
  | .Variable id name, sid =>
    t.getScopeId id = some sid ∧ t.getResolvedSymbol id = t.variableTarget sid name
  | .BinaryOperator _ id left right, sid =>
    t.getScopeId id = some sid ∧ t.Placed left sid ∧ t.Placed right sid
  | .Application id function argument, sid =>
    t.getScopeId id = some sid ∧ t.Placed function sid ∧ t.Placed argument sid
  | .CaseExpression id scrutinee branches, sid =>
    t.getScopeId id = some sid ∧ t.Placed scrutinee sid ∧ t.PlacedBranches branches sid

@[simp] def ScopeTree.PlacedBranches (t : ScopeTree) : List Branch → Nat → Prop
  | [], _ => True
  | ⟨id, pattern, body⟩ :: branches, sid =>
    (∃ bsid, t.BranchScope sid bsid id ∧ t.getScopeId id = some bsid ∧
      t.PatternPlaced bsid pattern ∧ t.Placed body bsid) ∧ t.PlacedBranches branches sid

end

theorem ScopeTree.placedBranches_iff {t : ScopeTree} {bs : List Branch} {sid : Nat} :
    t.PlacedBranches bs sid ↔ ∀ b ∈ bs, ∃ bsid, t.BranchScope sid bsid b.id ∧
      t.getScopeId b.id = some bsid ∧ t.PatternPlaced bsid b.pattern ∧ t.Placed b.body bsid := by
  induction bs with
  | nil => simp
  | cons b bs ih =>
    obtain ⟨id, p, e⟩ := b
    simp [ih]

/-! ## Growth keeps what is bound -/

section

variable {t t' : ScopeTree} {old : Nat} {nodes : List NodeId}

theorem ScopeTree.Chain.branch {sid bsid : Nat} {id : NodeId} {context : Context} {frame : Frame}
    (h : Chain t sid context) (hb : t.BranchScope sid bsid id) (hf : t.FrameIs bsid frame) :
    Chain t bsid (frame :: context) := by
  obtain ⟨scope, hs, hp, _, hlt⟩ := hb
  exact .nested hs hp hlt hf h

theorem ScopeTree.Grows.getResolvedSymbol (hg : Grows t t' old nodes) {id : NodeId}
    (hid : id ∉ nodes) (hvalid : ∀ symbol_id, t.resolved_symbols.find id = some symbol_id →
      ∃ symbol, t.getSymbol symbol_id = some symbol) :
    t'.getResolvedSymbol id = t.getResolvedSymbol id := by
  unfold ScopeTree.getResolvedSymbol
  rw [hg.resolved id hid]
  cases hr : t.resolved_symbols.find id with
  | none => rfl
  | some symbol_id =>
    obtain ⟨symbol, hsymbol⟩ := hvalid symbol_id hr
    rw [Option.bind_some, Option.bind_some, hsymbol, hg.getSymbol hsymbol]

/-- Every node that is bound to a symbol is bound to one that exists. -/
def ScopeTree.ResolvedExist (t : ScopeTree) : Prop :=
  ∀ id symbol_id, t.resolved_symbols.find id = some symbol_id →
    ∃ symbol, t.getSymbol symbol_id = some symbol

theorem ScopeTree.Chain.variableTarget_grows (hw : t.WellFormed) (hg : Grows t t' old nodes)
    {sid : Nat} {context : Context} (h : Chain t sid context) (hsid : sid < old) (name : String) :
    t'.variableTarget sid name = t.variableTarget sid name := by
  unfold ScopeTree.variableTarget
  rw [h.resolved_grows hg hw hsid]
  cases hid : t.getResolvedSymbolId sid name with
  | none => rfl
  | some id =>
    obtain ⟨symbol, hsymbol, _⟩ := h.named hw hid
    rw [Option.bind_some, Option.bind_some, hsymbol, hg.getSymbol hsymbol]

theorem ScopeTree.constructorTarget_grows (hw : t.WellFormed) (hg : Grows t t' old nodes)
    (hold : 0 < old) (hroot : 0 < t.scopes.length) (name : String) :
    t'.constructorTarget name = t.constructorTarget name := by
  unfold ScopeTree.constructorTarget getRootScopeId
  rw [hg.getLocalSymbol hw hold hroot]

theorem ScopeTree.BranchScope.grows (hg : Grows t t' old nodes) {sid bsid : Nat} {id : NodeId}
    (h : t.BranchScope sid bsid id) : t'.BranchScope sid bsid id := by
  obtain ⟨scope, hs, hp, ho, hlt⟩ := h
  obtain ⟨scope', hs', hp', ho', _⟩ := hg.scope _ _ hs
  exact ⟨scope', hs', hp'.trans hp, ho'.trans ho, hlt⟩

theorem ScopeTree.PatternPlaced.grows (hw : t.WellFormed) (hr : t.ResolvedExist)
    (hg : Grows t t' old nodes) {bsid : Nat} (hlt : bsid < t.scopes.length)
    (hold : t.scopes.length ≤ old) {pattern : Pattern} (hid : pattern.id ∉ nodes)
    (h : t.PatternPlaced bsid pattern) : t'.PatternPlaced bsid pattern := by
  obtain ⟨hscope, hframe, htarget⟩ := h
  refine ⟨by rw [hg.scopeId _ hid]; exact hscope, hg.frameIs hw (by omega) hlt hframe, ?_⟩
  cases pattern with
  | VariablePattern id name => trivial
  | ConstructorPattern id name arguments =>
    have hnode : id ∉ nodes := hid
    simp only [] at htarget ⊢
    rw [hg.getResolvedSymbol hnode (hr id), htarget,
      constructorTarget_grows hw hg (by omega) (by omega)]

theorem ScopeTree.Placed.grows (hw : t.WellFormed) (hr : t.ResolvedExist)
    (hg : Grows t t' old nodes) (hold : t.scopes.length ≤ old) {e : Expression} {sid : Nat}
    {context : Context} (hc : Chain t sid context) (hids : ∀ id ∈ e.ids, id ∉ nodes)
    (h : t.Placed e sid) : t'.Placed e sid := by
  have hkept : ∀ id ∈ e.ids, t'.getScopeId id = t.getScopeId id := fun id hid =>
    hg.scopeId id (hids id hid)
  induction e generalizing sid context with
  | IntLiteral id value =>
    simp only [Placed] at h ⊢
    rw [hkept id (by simp [Expression.ids]), h]
  | Variable id name =>
    have hlt := hc.lt
    simp only [Placed] at h ⊢
    rw [hkept id (by simp [Expression.ids]),
      hg.getResolvedSymbol (hids id (by simp [Expression.ids]))
      (hr id), h.2, hc.variableTarget_grows hw hg (by omega)]
    exact ⟨h.1, rfl⟩
  | BinaryOperator kind id l r ihl ihr =>
    simp only [Expression.ids, List.mem_cons, List.mem_append] at hids hkept
    exact ⟨(hkept id (.inl rfl)).trans h.1,
      ihl hc (fun i hi => hids i (.inr (.inl hi))) h.2.1 fun i hi => hkept i (.inr (.inl hi)),
      ihr hc (fun i hi => hids i (.inr (.inr hi))) h.2.2 fun i hi => hkept i (.inr (.inr hi))⟩
  | Application id f a ihf iha =>
    simp only [Expression.ids, List.mem_cons, List.mem_append] at hids hkept
    exact ⟨(hkept id (.inl rfl)).trans h.1,
      ihf hc (fun i hi => hids i (.inr (.inl hi))) h.2.1 fun i hi => hkept i (.inr (.inl hi)),
      iha hc (fun i hi => hids i (.inr (.inr hi))) h.2.2 fun i hi => hkept i (.inr (.inr hi))⟩
  | CaseExpression id s bs ihs ihbs =>
    simp only [Expression.ids, List.mem_cons, List.mem_append] at hids hkept
    refine ⟨(hkept id (.inl rfl)).trans h.1,
      ihs hc (fun i hi => hids i (.inr (.inl hi))) h.2.1 fun i hi => hkept i (.inr (.inl hi)), ?_⟩
    simp only [Placed, placedBranches_iff] at h ⊢
    intro b hb
    obtain ⟨bsid, hscope, hnode, hp, hbody⟩ := h.2.2 b hb
    have hin := ids_of_mem_branches hb
    refine ⟨bsid, hscope.grows hg, ?_, ?_, ?_⟩
    · exact (hkept _ (.inr (.inr (hin _ (by simp))))).trans hnode
    · obtain ⟨scope, hs, _⟩ := hscope
      exact hp.grows hw hr hg (List.getElem?_eq_some_iff.mp hs).1 hold
        (hids _ (.inr (.inr (hin _ (by simp)))))
    · exact ihbs b hb (hc.branch hscope hp.2.1)
        (fun i hi => hids i (.inr (.inr (hin i (by simp [hi]))))) hbody
        fun i hi => hkept i (.inr (.inr (hin i (by simp [hi]))))

end

/-! ## Steps of the analyzer -/

/-- From `r` to `r'`, the analyzer bound the nodes `nodes`, left the scopes
before `old` as they were, and reported the violations of the sites. -/
structure Step (positions : List Position) (old : Nat) (r r' : AnalysisResult)
    (nodes : List NodeId) (sites : List Site) : Prop where
  wellFormed : r'.scopes.WellFormed
  resolvedExist : r'.scopes.ResolvedExist
  grows : Grows r.scopes r'.scopes old nodes
  reports : r'.diagnostics = r.diagnostics ++ sites.filterMap (Site.diagnostic positions)

theorem Step.refl {r : AnalysisResult} (hw : r.scopes.WellFormed) (hr : r.scopes.ResolvedExist)
    (old : Nat) : Step positions old r r [] [] :=
  ⟨hw, hr, Grows.refl _ _, by simp⟩

theorem Step.trans {old old' : Nat} {r r1 r2 : AnalysisResult} {nodes nodes' : List NodeId}
    {sites sites' : List Site} (h : Step positions old r r1 nodes sites)
    (h' : Step positions old' r1 r2 nodes' sites') (hold : old ≤ old') :
    Step positions old r r2 (nodes ++ nodes') (sites ++ sites') := by
  refine ⟨h'.wellFormed, h'.resolvedExist, h.grows.trans h'.grows hold, ?_⟩
  rw [h'.reports, h.reports, List.filterMap_append, List.append_assoc]

theorem Step.mono {old old' : Nat} {r r' : AnalysisResult} {nodes nodes' : List NodeId}
    {sites : List Site} (h : Step positions old r r' nodes sites) (hold : old' ≤ old)
    (hnodes : ∀ id ∈ nodes, id ∈ nodes') : Step positions old' r r' nodes' sites :=
  ⟨h.wellFormed, h.resolvedExist, h.grows.mono hold hnodes, h.reports⟩

theorem Step.report {old : Nat} {r r' : AnalysisResult} {nodes : List NodeId}
    (h : Step positions old r r' nodes []) (id : NodeId) (message : String) {site : Site}
    (hsite : site.diagnostic positions = some (makeDiagnostic id message)) :
    Step positions old r (addError r' id message) nodes [site] := by
  refine ⟨h.wellFormed, h.resolvedExist, h.grows, ?_⟩
  have hreports := h.reports
  simp only [List.filterMap_nil, List.append_nil] at hreports
  simp [addError, hreports, hsite]

theorem Step.silent {old : Nat} {r r' : AnalysisResult} {nodes : List NodeId}
    (h : Step positions old r r' nodes []) {site : Site}
    (hsite : site.diagnostic positions = none) :
    Step positions old r r' nodes [site] := by
  refine ⟨h.wellFormed, h.resolvedExist, h.grows, ?_⟩
  rw [h.reports]
  simp [hsite]

theorem bindScope_step (positions : List Position) {r : AnalysisResult}
    (hw : r.scopes.WellFormed)
    (hr : r.scopes.ResolvedExist) (old : Nat) {id : NodeId} (hid : id ≠ kInvalidNodeId)
    (sid : Nat) : Step positions old r (bindScope id sid r) [id] [] ∧
      (bindScope id sid r).scopes.getScopeId id = some sid := by
  obtain ⟨hw', hg, _, hres, hnode⟩ := bindNodeToScope_spec r.scopes hw id sid old
  refine ⟨⟨hw', fun node symbol_id h => ?_, hg, by simp [bindScope]⟩, hnode hid⟩
  simp only [bindScope, hres] at h
  obtain ⟨symbol, hsymbol⟩ := hr node symbol_id h
  exact ⟨symbol, hg.getSymbol hsymbol⟩

theorem bindSymbol_step (positions : List Position) {r : AnalysisResult}
    (hw : r.scopes.WellFormed)
    (hr : r.scopes.ResolvedExist) (old : Nat) {id : NodeId} (hid : id ≠ kInvalidNodeId)
    {symbol : Symbol} (hs : r.scopes.getSymbol symbol.id = some symbol) :
    Step positions old r (bindSymbol id symbol.id r) [id] [] ∧
      (bindSymbol id symbol.id r).scopes.getResolvedSymbol id = some symbol := by
  obtain ⟨hw', hg, _, _, hnode⟩ := bindNodeToSymbol_spec r.scopes hw id symbol.id old
  refine ⟨⟨hw', fun node symbol_id h => ?_, hg, by simp [bindSymbol]⟩, ?_⟩
  · by_cases hnode' : node = id
    · subst hnode'
      simp only [bindSymbol, hnode hid, Option.some.injEq] at h
      subst h
      exact ⟨symbol, hg.getSymbol hs⟩
    · simp only [bindSymbol] at h
      rw [hg.resolved node (by simpa using hnode')] at h
      obtain ⟨symbol', hsymbol'⟩ := hr node symbol_id h
      exact ⟨symbol', hg.getSymbol hsymbol'⟩
  · unfold ScopeTree.getResolvedSymbol bindSymbol
    rw [hnode hid, Option.bind_some]
    exact hg.getSymbol hs

theorem openScope_step (positions : List Position) {r : AnalysisResult}
    (hw : r.scopes.WellFormed)
    (hr : r.scopes.ResolvedExist) (old : Nat) {parent : Nat}
    (hparent : parent < r.scopes.scopes.length) {owner : NodeId} (hid : owner ≠ kInvalidNodeId) :
    let r' := openScope parent owner r
    Step positions old r r' [owner] [] ∧ r'.scopes.scopes.length = r.scopes.scopes.length + 1 ∧
      r'.scopes.BranchScope parent r.scopes.scopes.length owner ∧
      r'.scopes.FrameIs r.scopes.scopes.length [] ∧
      r'.scopes.getScopeId owner = some r.scopes.scopes.length := by
  obtain ⟨hw1, hg1, hlen, hscope, hres⟩ := createScope_spec r.scopes hw parent hparent owner old
  have hstep1 :
      Step positions old r { r with scopes := r.scopes.createScope parent owner } [] [] := by
    refine ⟨hw1, fun node symbol_id h => ?_, hg1, by simp⟩
    simp only [hres] at h
    obtain ⟨symbol, hsymbol⟩ := hr node symbol_id h
    exact ⟨symbol, hg1.getSymbol hsymbol⟩
  obtain ⟨hstep2, hnode⟩ := bindScope_step positions hstep1.wellFormed
    hstep1.resolvedExist old hid r.scopes.scopes.length
  obtain ⟨_, hg2, hscopes, _⟩ := bindNodeToScope_spec (r.scopes.createScope parent owner) hw1 owner
    r.scopes.scopes.length old
  refine ⟨?_, ?_, ?_, ?_, hnode⟩
  · simpa [openScope] using hstep1.trans hstep2 (Nat.le_refl _)
  · simp only [openScope, bindScope, hscopes, hlen]
  · refine ⟨⟨some parent, owner, .empty, []⟩, ?_, rfl, rfl, hparent⟩
    simp only [openScope, bindScope, ScopeTree.getScope, hscopes]
    exact hscope
  · intro name
    unfold ScopeTree.getLocalSymbol ScopeTree.getLocalSymbolId
    simp only [openScope, bindScope, ScopeTree.getScope, hscopes]
    rw [show (r.scopes.createScope parent owner).scopes[r.scopes.scopes.length]? = _ from hscope]
    simp [Frame.lookup]

/-! ## Declarations -/

theorem addSymbol_step (positions : List Position) {r : AnalysisResult}
    (hw : r.scopes.WellFormed)
    (hr : r.scopes.ResolvedExist) {sid : Nat} (hsid : sid < r.scopes.scopes.length)
    {frame : Frame} (hf : r.scopes.FrameIs sid frame) (b : Binder) :
    let r' := addSymbol positions sid b.name b.kind b.declaration r
    Step positions sid r r' [] [.declaration frame b] ∧ r'.scopes.FrameIs sid (frame ++ [b]) := by
  have hname := hf b.name
  unfold ScopeTree.getLocalSymbol at hname
  simp only [addSymbol]
  cases hadd : r.scopes.addLocalSymbol sid b.name b.kind b.declaration with
  | some t' =>
    obtain ⟨hw', hg, _, hid, hsymbol, hres⟩ := addLocalSymbol_spec hw hadd hsid
    have hnone : r.scopes.getLocalSymbolId sid b.name = none := by
      unfold ScopeTree.addLocalSymbol at hadd
      split at hadd
      · cases hadd
      · rename_i hnot
        exact Option.not_isSome_iff_eq_none.mp hnot
    rw [hnone, Option.bind_none, Option.map_none] at hname
    have hstep : Step positions sid r { r with scopes := t' } [] [] := by
      refine ⟨hw', fun node symbol_id h => ?_, hg, by simp⟩
      simp only [hres] at h
      obtain ⟨symbol, hs⟩ := hr node symbol_id h
      exact ⟨symbol, hg.getSymbol hs⟩
    refine ⟨hstep.silent (by simp [Site.diagnostic, ← hname]), fun name => ?_⟩
    rw [Frame.lookup_append, ← hf name]
    unfold ScopeTree.getLocalSymbol
    have hlocal := getLocalSymbolId_addLocalSymbol hadd hsid sid name
    by_cases hn : name = b.name
    · subst hn
      simp only [hid, hnone, Option.bind_some, hsymbol, Option.map_some, Option.bind_none,
        Option.map_none, Option.none_or, if_true]
      rfl
    · have hn' : ¬ b.name = name := fun h => hn h.symm
      simp only [hlocal, hn, hn', and_false, if_false, Option.or_none]
      cases hid' : r.scopes.getLocalSymbolId sid name with
      | none => rfl
      | some id =>
        obtain ⟨symbol, hs, _⟩ := hw.named _ _ _ hid'
        rw [Option.bind_some, Option.bind_some, hs, hg.getSymbol hs]
  | none =>
    have hsome : (r.scopes.getLocalSymbolId sid b.name).isSome := by
      unfold ScopeTree.addLocalSymbol at hadd
      split at hadd
      · assumption
      · cases hadd
    obtain ⟨id, hid⟩ := Option.isSome_iff_exists.mp hsome
    obtain ⟨previous, hprevious, _⟩ := hw.named _ _ _ hid
    rw [hid, Option.bind_some, hprevious, Option.map_some] at hname
    have hlocal : r.scopes.getLocalSymbol sid b.name = some previous := by
      unfold ScopeTree.getLocalSymbol
      rw [hid, Option.bind_some, hprevious]
    simp only [hlocal]
    have hsite : (Site.declaration frame b).diagnostic positions =
        some (makeDiagnostic b.declaration (redefinition positions b.name previous)) := by
      simp only [Site.diagnostic, ← hname, Option.map_some]
      rfl
    refine ⟨(Step.refl hw hr sid).report b.declaration _ hsite, fun name => ?_⟩
    · rw [Frame.lookup_append]
      by_cases hn : b.name = name
      · subst hn
        rw [← hname, Option.some_or]
        simp [addError, hlocal]
      · rw [if_neg hn, Option.or_none]
        exact hf name

/-- The declarations of one scope, one after the other. -/
def addBinders (positions : List Position) (sid : Nat) (binders : Frame) (r : AnalysisResult) :
    AnalysisResult :=
  binders.foldl (fun r b => addSymbol positions sid b.name b.kind b.declaration r) r

theorem addBinders_step (positions : List Position) {r : AnalysisResult}
    (hw : r.scopes.WellFormed)
    (hr : r.scopes.ResolvedExist) {sid : Nat} (hsid : sid < r.scopes.scopes.length)
    {frame : Frame} (hf : r.scopes.FrameIs sid frame) (binders : Frame) :
    let r' := addBinders positions sid binders r
    Step positions sid r r' [] (declarations frame binders) ∧
      r'.scopes.FrameIs sid (frame ++ binders) := by
  induction binders generalizing r frame with
  | nil => exact ⟨Step.refl hw hr sid, by simpa [addBinders] using hf⟩
  | cons b bs ih =>
    obtain ⟨hstep, hf'⟩ := addSymbol_step positions hw hr hsid hf b
    have hlen := hstep.grows.length
    obtain ⟨hstep', hf''⟩ := ih hstep.wellFormed hstep.resolvedExist (by omega) hf'
    refine ⟨hstep.trans hstep' (Nat.le_refl _), ?_⟩
    simpa [addBinders] using hf''

/-! ## Variables and patterns -/

/-- The nodes are not bound to a symbol yet. -/
def Fresh (r : AnalysisResult) (ids : List NodeId) : Prop :=
  ∀ id ∈ ids, id ≠ kInvalidNodeId ∧ r.scopes.resolved_symbols.find id = none

theorem Fresh.step {old : Nat} {r r' : AnalysisResult} {nodes ids : List NodeId}
    {sites : List Site} (h : Fresh r ids) (hs : Step positions old r r' nodes sites)
    (hnodes : ∀ id ∈ ids, id ∉ nodes) : Fresh r' ids := by
  intro id hid
  refine ⟨(h id hid).1, ?_⟩
  rw [hs.grows.resolved id (hnodes id hid)]
  exact (h id hid).2

theorem Fresh.mono {r : AnalysisResult} {ids ids' : List NodeId} (h : Fresh r ids)
    (hids : ∀ id ∈ ids', id ∈ ids) : Fresh r ids' := fun id hid => h id (hids id hid)

theorem Fresh.tail {r : AnalysisResult} {id : NodeId} {ids : List NodeId}
    (h : Fresh r (id :: ids)) : Fresh r ids := h.mono fun _ hi => List.mem_cons_of_mem _ hi

theorem Fresh.head {r : AnalysisResult} {id : NodeId} {ids : List NodeId}
    (h : Fresh r (id :: ids)) : Fresh r [id] := h.mono fun _ hi => by
  rw [List.mem_singleton.mp hi]
  exact List.mem_cons_self

theorem Fresh.left {r : AnalysisResult} {ids ids' : List NodeId} (h : Fresh r (ids ++ ids')) :
    Fresh r ids := h.mono fun _ hi => List.mem_append_left _ hi

theorem Fresh.right {r : AnalysisResult} {ids ids' : List NodeId} (h : Fresh r (ids ++ ids')) :
    Fresh r ids' := h.mono fun _ hi => List.mem_append_right _ hi

/-- A step that binds one other node. -/
theorem Fresh.node_step {old : Nat} {r r' : AnalysisResult} {id : NodeId} {ids : List NodeId}
    {sites : List Site} (h : Fresh r ids) (hs : Step positions old r r' [id] sites)
    (hid : id ∉ ids) : Fresh r' ids := by
  refine h.step hs fun i hi hmem => ?_
  rw [List.mem_singleton] at hmem
  exact hid (hmem ▸ hi)

theorem bindScope_resolved (id : NodeId) (sid : Nat) (r : AnalysisResult) :
    (bindScope id sid r).scopes.resolved_symbols = r.scopes.resolved_symbols := by
  unfold bindScope ScopeTree.bindNodeToScope
  split <;> rfl

theorem bindScope_unresolved {r : AnalysisResult} {id : NodeId} (sid : Nat)
    (h : r.scopes.resolved_symbols.find id = none) :
    (bindScope id sid r).scopes.getResolvedSymbol id = none := by
  unfold ScopeTree.getResolvedSymbol
  rw [bindScope_resolved, h]
  rfl

theorem bindVariable_step {r : AnalysisResult} (hw : r.scopes.WellFormed)
    (hr : r.scopes.ResolvedExist) {sid : Nat} {context : Context}
    (hc : Chain r.scopes sid context) {id : NodeId} (hfresh : Fresh r [id]) (name : String) :
    let r' := bindVariable id name sid r
    Step positions r.scopes.scopes.length r r' [id] [.variableUse context id name] ∧
      r'.scopes.getScopeId id = some sid ∧
      r'.scopes.getResolvedSymbol id = r'.scopes.variableTarget sid name := by
  obtain ⟨hid, hnone⟩ := hfresh id (by simp)
  obtain ⟨hstep, hnode⟩ := bindScope_step positions hw hr r.scopes.scopes.length hid sid
  have hc' := hc.grows hw hstep.grows hc.lt
  have hlookup := hc'.lookup hstep.wellFormed name
  have hunresolved := bindScope_unresolved sid hnone
  unfold bindVariable
  simp only []
  cases hresolved : (bindScope id sid r).scopes.getResolvedSymbolId sid name with
  | none =>
    simp only []
    rw [hresolved, Option.bind_none, Option.map_none] at hlookup
    refine ⟨hstep.report id _ (by simp only [Site.diagnostic, ← hlookup]), hnode, ?_⟩
    unfold ScopeTree.variableTarget
    simp only [addError, hresolved, hunresolved, Option.bind_none, Option.filter_none]
  | some symbol_id =>
    simp only []
    obtain ⟨symbol, hsymbol, hsid, _⟩ := hc'.named hstep.wellFormed hresolved
    rw [hresolved, Option.bind_some, hsymbol, Option.map_some] at hlookup
    rw [hsymbol]
    simp only []
    cases herror : variableError name symbol.kind with
    | some message =>
      simp only []
      have hkind : variableError name symbol.binder.kind = some message := herror
      refine ⟨hstep.report id message (by simp [Site.diagnostic, ← hlookup, hkind]), hnode, ?_⟩
      unfold ScopeTree.variableTarget
      simp [addError, hresolved, hunresolved, hsymbol, herror, Option.filter]
    | none =>
      simp only []
      have hkind : variableError name symbol.binder.kind = none := herror
      subst hsid
      obtain ⟨hbind, htarget⟩ := bindSymbol_step positions hstep.wellFormed
        hstep.resolvedExist r.scopes.scopes.length hid hsymbol
      have hlen := hstep.grows.length
      have hnodes :=
        (bindNodeToSymbol_spec (bindScope id sid r).scopes hstep.wellFormed id symbol.id
        0).2.2.2.1
      refine ⟨?_, ?_, ?_⟩
      · have hboth := hstep.trans hbind (Nat.le_refl _)
        refine (hboth.mono (Nat.le_refl _) (by simp)).silent ?_
        simp [Site.diagnostic, ← hlookup, hkind]
      · unfold ScopeTree.getScopeId at hnode ⊢
        rw [show (bindSymbol id symbol.id (bindScope id sid r)).scopes.scope_by_node = _
          from hnodes]
        exact hnode
      · rw [htarget, hc'.variableTarget_grows hstep.wellFormed hbind.grows hc.lt]
        unfold ScopeTree.variableTarget
        rw [hresolved, Option.bind_some, hsymbol]
        simp [herror, Option.filter]

theorem bindConstructorName_step (positions : List Position) {r : AnalysisResult}
    (hw : r.scopes.WellFormed)
    (hr : r.scopes.ResolvedExist) {globals : Frame} (hglobals : r.scopes.FrameIs 0 globals)
    (hroot : 0 < r.scopes.scopes.length) {id : NodeId} (hfresh : Fresh r [id]) (old : Nat)
    (hold : 0 < old) (name : String) :
    let r' := bindConstructorName id name r
    Step positions old r r' [id] [.constructorPattern globals id name] ∧
      r'.scopes.getResolvedSymbol id = r'.scopes.constructorTarget name ∧
      r'.scopes.scope_by_node = r.scopes.scope_by_node := by
  obtain ⟨hid, hnone⟩ := hfresh id (by simp)
  have hlookup := hglobals name
  have hunresolved : r.scopes.getResolvedSymbol id = none := by
    unfold ScopeTree.getResolvedSymbol
    rw [hnone]
    rfl
  have hrefl : Step positions old r r [id] [] :=
    (Step.refl hw hr old).mono (Nat.le_refl _) (by simp)
  unfold ScopeTree.constructorTarget bindConstructorName
  simp only [getRootScopeId]
  cases hlocal : r.scopes.getLocalSymbol 0 name with
  | none =>
    simp only []
    rw [hlocal, Option.map_none] at hlookup
    refine ⟨hrefl.report id _ (by simp only [Site.diagnostic, ← hlookup]), ?_, rfl⟩
    simp only [addError, hlocal, hunresolved, Option.filter_none]
  | some symbol =>
    rw [hlocal, Option.map_some] at hlookup
    by_cases hkind : symbol.kind = .Constructor
    · have hbinder : symbol.binder.kind = .Constructor := hkind
      obtain ⟨i, hi, hsymbol⟩ := Option.bind_eq_some_iff.mp hlocal
      obtain ⟨symbol', hsymbol', hid', _⟩ := hw.named _ _ _ hi
      have hself : r.scopes.getSymbol symbol.id = some symbol := by
        rw [hsymbol] at hsymbol'
        cases hsymbol'
        rw [hid']
        exact hsymbol
      obtain ⟨hbind, htarget⟩ := bindSymbol_step positions hw hr old hid hself
      simp only [hkind, ne_eq, not_true, if_false]
      refine ⟨hbind.silent (by simp [Site.diagnostic, ← hlookup, hbinder]), ?_, ?_⟩
      · rw [htarget, hbind.grows.getLocalSymbol hw hold hroot, hlocal]
        simp [hkind, Option.filter]
      · exact (bindNodeToSymbol_spec r.scopes hw id symbol.id old).2.2.2.1
    · have hbinder : ¬ symbol.binder.kind = .Constructor := hkind
      simp only [ne_eq, hkind, not_false_eq_true, if_true]
      refine ⟨hrefl.report id _ (by simp [Site.diagnostic, ← hlookup, hbinder]), ?_, rfl⟩
      simp [addError, hlocal, hunresolved, hkind, Option.filter]

/-- The variables of a pattern in the branch scope `bsid`. -/
theorem addVariables_step (positions : List Position) {r : AnalysisResult}
    (hw : r.scopes.WellFormed)
    (hr : r.scopes.ResolvedExist) {bsid : Nat} (hb : bsid < r.scopes.scopes.length)
    (hempty : r.scopes.FrameIs bsid []) (pattern : Pattern) :
    let r' := addBinders positions bsid (Pattern.binders pattern) r
    Step positions bsid r r' [] (declarations [] (Pattern.binders pattern)) ∧
      r'.scopes.FrameIs bsid (Pattern.binders pattern) := by
  have h := addBinders_step positions hw hr hb hempty (Pattern.binders pattern)
  rwa [List.nil_append] at h

theorem bindPattern_step (positions : List Position) {r : AnalysisResult}
    (hw : r.scopes.WellFormed)
    (hr : r.scopes.ResolvedExist) {globals : Frame} (hglobals : r.scopes.FrameIs 0 globals)
    {bsid : Nat} (hb : bsid < r.scopes.scopes.length) (hpos : 0 < bsid)
    (hempty : r.scopes.FrameIs bsid []) {pattern : Pattern} (hfresh : Fresh r [pattern.id]) :
    let r' := bindPattern positions bsid r pattern
    Step positions bsid r r' [pattern.id] (Pattern.sites globals pattern) ∧
      r'.scopes.PatternPlaced bsid pattern := by
  have hid := (hfresh pattern.id (by simp)).1
  obtain ⟨hstep, hnode⟩ := bindScope_step positions hw hr
    r.scopes.scopes.length hid bsid
  have hlen := hstep.grows.length
  have hempty1 := hstep.grows.frameIs hw hb hb hempty
  have hglobals1 := hstep.grows.frameIs hw (by omega) (by omega) hglobals
  cases pattern with
  | VariablePattern id name =>
    obtain ⟨hadd, hframe⟩ := addVariables_step positions hstep.wellFormed
      hstep.resolvedExist (by omega) hempty1 (.VariablePattern id name)
    refine ⟨(hstep.mono (by omega) fun _ h => h).trans hadd (Nat.le_refl _), ?_, hframe, trivial⟩
    exact (hadd.grows.scopeId id (by simp)).trans hnode
  | ConstructorPattern id name arguments =>
    simp only [Pattern.id] at hfresh hid hstep hnode hlen hempty1 hglobals1
    have hfresh1 : Fresh (bindScope id bsid r) [id] := by
      intro i hi
      rw [bindScope_resolved]
      exact hfresh i hi
    obtain ⟨hname, htarget, hnodes⟩ := bindConstructorName_step positions
      hstep.wellFormed hstep.resolvedExist hglobals1 (by omega) hfresh1
      r.scopes.scopes.length (by omega) name
    have hlen2 := hname.grows.length
    obtain ⟨hadd, hframe⟩ := addVariables_step positions hname.wellFormed
      hname.resolvedExist (by omega) (hname.grows.frameIs hstep.wellFormed (by omega) (by omega)
        hempty1) (.ConstructorPattern id name arguments)
    have hrun : bindPattern positions bsid r (.ConstructorPattern id name arguments) =
        addBinders positions bsid (Pattern.binders (.ConstructorPattern id name arguments))
          (bindConstructorName id name (bindScope id bsid r)) := by
      simp only [bindPattern, bindConstructorPattern, addBinders, Pattern.binders, List.foldl_map]
    rw [hrun]
    refine ⟨?_, ?_, hframe, ?_⟩
    · have hall := ((hstep.mono (by omega) fun _ h => h).trans
        (hname.mono (by omega) fun _ h => h) (Nat.le_refl bsid)).trans hadd (Nat.le_refl _)
      exact hall.mono (Nat.le_refl _) (by simp [Pattern.id])
    · refine (hadd.grows.scopeId id (by simp)).trans ?_
      unfold ScopeTree.getScopeId
      rw [hnodes]
      exact hnode
    · simp only []
      rw [hadd.grows.getResolvedSymbol (by simp) (hname.resolvedExist id), htarget,
        constructorTarget_grows hname.wellFormed hadd.grows hpos (by omega)]

/-! ## Expressions -/

/-- What binding the expression `e` does, wherever it stands. -/
def Binds (positions : List Position) (e : Expression) : Prop :=
  ∀ r sid context globals, r.scopes.WellFormed → r.scopes.ResolvedExist →
    Chain r.scopes sid context → r.scopes.FrameIs 0 globals → Fresh r e.ids → e.ids.Nodup →
    Step positions r.scopes.scopes.length r (bindExpression positions e sid r) e.ids
      (expressionSites globals e context) ∧
    (bindExpression positions e sid r).scopes.Placed e sid

/-- One expression after another, in the same scope. -/
theorem Binds.pair {l e : Expression} (hl : Binds positions l) (he : Binds positions e)
    {r : AnalysisResult} {sid : Nat} {context : Context} {globals : Frame}
    (hw : r.scopes.WellFormed) (hr : r.scopes.ResolvedExist) (hc : Chain r.scopes sid context)
    (hg : r.scopes.FrameIs 0 globals) (hfresh : Fresh r (l.ids ++ e.ids))
    (hnodup : (l.ids ++ e.ids).Nodup) :
    let r' := bindExpression positions e sid (bindExpression positions l sid r)
    Step positions r.scopes.scopes.length r r' (l.ids ++ e.ids)
      (expressionSites globals l context ++ expressionSites globals e context) ∧
    r'.scopes.Placed l sid ∧ r'.scopes.Placed e sid := by
  rw [List.nodup_append] at hnodup
  obtain ⟨hnl, hne, hdisjoint⟩ := hnodup
  have hlt := hc.lt
  obtain ⟨hstep, hplaced⟩ := hl r sid context globals hw hr hc hg hfresh.left hnl
  have hc1 := hc.grows hw hstep.grows hlt
  have hfresh1 := hfresh.right.step hstep
    fun i hi hil => hdisjoint i hil i hi rfl
  obtain ⟨hstep', hplaced'⟩ := he _ sid context globals hstep.wellFormed hstep.resolvedExist hc1
    (hstep.grows.frameIs hw (by omega) (by omega) hg) hfresh1 hne
  refine ⟨hstep.trans hstep' hstep.grows.length, ?_, hplaced'⟩
  exact hplaced.grows hstep.wellFormed hstep.resolvedExist hstep'.grows (Nat.le_refl _) hc1
    fun i hi hie => hdisjoint i hi i hie rfl

theorem binds_branches {bs : List Branch} (ih : ∀ b ∈ bs, Binds positions b.body)
    {r : AnalysisResult} {sid : Nat} {context : Context} {globals : Frame}
    (hw : r.scopes.WellFormed) (hr : r.scopes.ResolvedExist) (hc : Chain r.scopes sid context)
    (hg : r.scopes.FrameIs 0 globals) (hfresh : Fresh r (idsBranches bs))
    (hnodup : (idsBranches bs).Nodup) :
    Step positions r.scopes.scopes.length r (bindBranches positions bs sid r) (idsBranches bs)
      (branchSites globals bs context) ∧
    (bindBranches positions bs sid r).scopes.PlacedBranches bs sid := by
  induction bs generalizing r with
  | nil => exact ⟨Step.refl hw hr _, trivial⟩
  | cons b bs ihbs =>
    obtain ⟨id, pattern, body⟩ := b
    have hlt := hc.lt
    simp only [idsBranches, List.nodup_cons, List.mem_cons, List.mem_append, not_or] at hnodup
    obtain ⟨⟨hidp, hidb, hidr⟩, ⟨hpb, hpr⟩, happ⟩ := hnodup
    obtain ⟨hnb, hnr, hdisjoint⟩ := List.nodup_append.mp happ
    -- the branch's scope
    have hid := (hfresh id (by simp [idsBranches])).1
    obtain ⟨hopen, hlen1, hbranch, hempty, hnode⟩ := openScope_step positions hw hr
      r.scopes.scopes.length hlt hid
    have hfresh1 : Fresh (openScope sid id r) (pattern.id :: (body.ids ++ idsBranches bs)) :=
      hfresh.tail.node_step hopen (by simp [hidp, hidb, hidr])
    -- the pattern
    obtain ⟨hpattern, hpplaced⟩ := bindPattern_step positions hopen.wellFormed
      hopen.resolvedExist (hopen.grows.frameIs hw (by omega) (by omega) hg) (by omega)
      (by omega) hempty hfresh1.head
    have hlen2 := hpattern.grows.length
    have hto2 := hopen.trans hpattern (Nat.le_refl _)
    have hfresh2 := hfresh1.tail.node_step hpattern (by simp [hpb, hpr])
    -- the body
    have hc2 := hc.grows hw hto2.grows hlt
    have hbranch2 := hbranch.grows hpattern.grows
    have hg2 := hto2.grows.frameIs hw (by omega) (by omega) hg
    obtain ⟨hbody, hbplaced⟩ := ih ⟨id, pattern, body⟩ (by simp) _ _ _ globals hpattern.wellFormed
      hpattern.resolvedExist (hc2.branch hbranch2 hpplaced.2.1) hg2
      hfresh2.left hnb
    have hlen3 := hbody.grows.length
    -- the other branches
    have hto3 := hto2.trans hbody (by omega)
    have hc3 := hc.grows hw hto3.grows hlt
    have hfresh3 := hfresh2.right.step hbody
      fun i hi hib => hdisjoint i hib i hi rfl
    obtain ⟨hrest, hrplaced⟩ := ihbs (fun b hb => ih b (List.mem_cons_of_mem _ hb))
      hbody.wellFormed hbody.resolvedExist hc3
      (hto3.grows.frameIs hw (by omega) (by omega) hg) hfresh3 hnr
    refine ⟨?_, ?_, hrplaced⟩
    · have hall := hto3.trans hrest (by omega)
      simpa [bindBranches, branchSites, idsBranches, List.append_assoc] using hall
    · refine ⟨r.scopes.scopes.length, (hbranch2.grows hbody.grows).grows hrest.grows, ?_, ?_, ?_⟩
      · have hafter := (hpattern.grows.scopeId id (by simpa using hidp)).trans hnode
        exact (hrest.grows.scopeId id hidr).trans ((hbody.grows.scopeId id hidb).trans hafter)
      · have hp3 := hpplaced.grows hpattern.wellFormed hpattern.resolvedExist hbody.grows
          (by omega) (Nat.le_refl _) hpb
        exact hp3.grows hbody.wellFormed hbody.resolvedExist hrest.grows (by omega)
          (Nat.le_refl _) hpr
      · exact hbplaced.grows hbody.wellFormed hbody.resolvedExist hrest.grows (Nat.le_refl _)
          ((hc2.branch hbranch2 hpplaced.2.1).grows hpattern.wellFormed hbody.grows (by omega))
          fun i hi hib => hdisjoint i hi i hib rfl

/-- The node itself is bound first, then what is below it. -/
theorem Step.after_bindScope {r r' : AnalysisResult} {old : Nat} {id : NodeId} {sid : Nat}
    {nodes : List NodeId} {sites : List Site} (hw : r.scopes.WellFormed)
    (hr : r.scopes.ResolvedExist) (hid : id ≠ kInvalidNodeId)
    (h : Step positions r.scopes.scopes.length (bindScope id sid r) r' nodes sites)
    (hold : old ≤ r.scopes.scopes.length) : Step positions old r r' (id :: nodes) sites := by
  obtain ⟨hstep, _⟩ := bindScope_step positions hw hr r.scopes.scopes.length hid sid
  exact (hstep.trans h (Nat.le_refl _)).mono hold (by simp)

theorem binds_expression (e : Expression) : Binds positions e := by
  induction e with
  | IntLiteral id value =>
    intro r sid context globals hw hr hc hg hfresh _
    have hid := (hfresh id (by simp [Expression.ids])).1
    exact bindScope_step positions hw hr _ hid sid
  | Variable id name =>
    intro r sid context globals hw hr hc hg hfresh _
    exact bindVariable_step hw hr hc hfresh name
  | BinaryOperator kind id l e ihl ihe | Application id l e ihl ihe =>
    intro r sid context globals hw hr hc hg hfresh hnodup
    simp only [Expression.ids, List.nodup_cons] at hnodup
    have hid := (hfresh id (by simp [Expression.ids])).1
    obtain ⟨hstep, hnode⟩ := bindScope_step positions hw hr r.scopes.scopes.length hid sid
    have hlt := hc.lt
    have hfresh1 := hfresh.tail.node_step hstep hnodup.1
    obtain ⟨hpair, hplaced⟩ := ihl.pair ihe hstep.wellFormed hstep.resolvedExist
      (hc.grows hw hstep.grows hlt) (hstep.grows.frameIs hw (by omega) (by omega) hg) hfresh1
      hnodup.2
    exact ⟨(hpair.mono hstep.grows.length fun _ h => h).after_bindScope hw hr hid (Nat.le_refl _),
      (hpair.grows.scopeId id hnodup.1).trans hnode, hplaced⟩
  | CaseExpression id s bs ihs ihbs =>
    intro r sid context globals hw hr hc hg hfresh hnodup
    simp only [Expression.ids, List.nodup_cons] at hnodup
    obtain ⟨hnot, happ⟩ := hnodup
    obtain ⟨hns, hnb, hdisjoint⟩ := List.nodup_append.mp happ
    have hid := (hfresh id (by simp [Expression.ids])).1
    obtain ⟨hstep, hnode⟩ := bindScope_step positions hw hr r.scopes.scopes.length hid sid
    have hlt := hc.lt
    have hc1 := hc.grows hw hstep.grows hlt
    have hfresh1 := hfresh.tail.node_step hstep hnot
    obtain ⟨hscrutinee, hsplaced⟩ := ihs _ sid context globals hstep.wellFormed hstep.resolvedExist
      hc1 (hstep.grows.frameIs hw (by omega) (by omega) hg)
      hfresh1.left hns
    have hlen1 := hstep.grows.length
    have hlen2 := hscrutinee.grows.length
    have hto2 := hstep.trans hscrutinee hlen1
    have hfresh2 := hfresh1.right.step hscrutinee
      fun i hi his => hdisjoint i his i hi rfl
    obtain ⟨hbranches, hbplaced⟩ := binds_branches ihbs hscrutinee.wellFormed
      hscrutinee.resolvedExist (hc.grows hw hto2.grows hlt)
      (hto2.grows.frameIs hw (by omega) (by omega) hg) hfresh2 hnb
    have hboth := hscrutinee.trans hbranches hlen2
    refine ⟨?_, (hboth.grows.scopeId id hnot).trans hnode, ?_, hbplaced⟩
    · exact (hboth.mono hlen1 fun _ h => h).after_bindScope hw hr hid (Nat.le_refl _)
    · exact hsplaced.grows hscrutinee.wellFormed hscrutinee.resolvedExist hbranches.grows
        (Nat.le_refl _) (hc1.grows hstep.wellFormed hscrutinee.grows hc1.lt)
        fun i hi hib => hdisjoint i hi i hib rfl

/-! ## Definitions -/

/-- The function has a scope of its parameters, where its body is placed. -/
def ScopeTree.FunctionPlaced (t : ScopeTree) (fd : FunctionDefinition) : Prop :=
  ∃ fsid, t.BranchScope 0 fsid fd.id ∧ t.getScopeId fd.id = some fsid ∧
    t.FrameIs fsid (parameterFrame fd) ∧ t.Placed fd.body fsid

theorem ScopeTree.FunctionPlaced.grows {t t' : ScopeTree} {old : Nat} {nodes : List NodeId}
    (hw : t.WellFormed) (hr : t.ResolvedExist) (hg : Grows t t' old nodes)
    (hold : t.scopes.length ≤ old) {fd : FunctionDefinition} {globals : Frame}
    (hc : Chain t 0 [globals]) (hids : ∀ id ∈ fd.id :: fd.body.ids, id ∉ nodes)
    (h : t.FunctionPlaced fd) : t'.FunctionPlaced fd := by
  obtain ⟨fsid, hb, hs, hf, hplaced⟩ := h
  have hc' := hc.branch hb hf
  have hlt := hc'.lt
  refine ⟨fsid, hb.grows hg, ?_, hg.frameIs hw (by omega) hlt hf, ?_⟩
  · rw [hg.scopeId _ (hids _ List.mem_cons_self)]
    exact hs
  · exact hplaced.grows hw hr hg hold hc' fun id hid => hids id (List.mem_cons_of_mem _ hid)

theorem bindFunction_step (positions : List Position) {r : AnalysisResult}
    (hw : r.scopes.WellFormed) (hr : r.scopes.ResolvedExist) {globals : Frame}
    (hc : Chain r.scopes 0 [globals]) (hg : r.scopes.FrameIs 0 globals) {fd : FunctionDefinition}
    (hfresh : Fresh r (fd.id :: fd.body.ids)) (hnodup : (fd.id :: fd.body.ids).Nodup) :
    let r' := bindFunction positions fd r
    Step positions r.scopes.scopes.length r r' (fd.id :: fd.body.ids)
      (Definition.sites globals (.FunctionDefinition fd)) ∧ r'.scopes.FunctionPlaced fd := by
  rw [List.nodup_cons] at hnodup
  have hlt := hc.lt
  obtain ⟨hopen, hlen1, hbranch, hempty, hnode⟩ := openScope_step positions hw hr
    r.scopes.scopes.length hlt (hfresh _ List.mem_cons_self).1
  obtain ⟨hparams, hframe⟩ := addBinders_step positions hopen.wellFormed hopen.resolvedExist
    (by omega) hempty (parameterFrame fd)
  rw [List.nil_append] at hframe
  have hlen2 := hparams.grows.length
  have hto2 := hopen.trans hparams (Nat.le_refl _)
  have hbranch2 := hbranch.grows hparams.grows
  have hc2 := (hc.grows hw hto2.grows hlt).branch hbranch2 hframe
  obtain ⟨hbody, hplaced⟩ := binds_expression fd.body _ _ _ globals hparams.wellFormed
    hparams.resolvedExist hc2 (hto2.grows.frameIs hw hlt hlt hg)
    ((hfresh.tail.node_step hopen hnodup.1).step hparams (by simp)) hnodup.2
  have hrun : bindFunction positions fd r = bindExpression positions fd.body r.scopes.scopes.length
      (addBinders positions r.scopes.scopes.length (parameterFrame fd) (openScope 0 fd.id r)) := by
    simp only [bindFunction, addBinders, parameterFrame, List.foldl_map, getRootScopeId]
  simp only [hrun]
  refine ⟨?_, r.scopes.scopes.length, hbranch2.grows hbody.grows, ?_, ?_, hplaced⟩
  · have hall := hto2.trans hbody (by omega)
    simpa [Definition.sites] using hall
  · rw [hbody.grows.scopeId _ hnodup.1, hparams.grows.scopeId _ (by simp)]
    exact hnode
  · exact hbody.grows.frameIs hparams.wellFormed (by omega) (by omega) hframe

/-- The nodes of a definition that `bindFunctionBodies` binds. -/
def bodyIds : Definition → List NodeId
  | .FunctionDefinition fd => fd.id :: fd.body.ids
  | .DataTypeDefinition _ => []

theorem bindFunctionBodies_step (positions : List Position) {r : AnalysisResult}
    (hw : r.scopes.WellFormed) (hr : r.scopes.ResolvedExist) {globals : Frame}
    (hc : Chain r.scopes 0 [globals]) (hg : r.scopes.FrameIs 0 globals) {ds : List Definition}
    (hfresh : Fresh r (ds.flatMap bodyIds)) (hnodup : (ds.flatMap bodyIds).Nodup) :
    let r' := ds.foldl (bindFunctionBody positions) r
    Step positions r.scopes.scopes.length r r' (ds.flatMap bodyIds)
      (ds.flatMap (Definition.sites globals)) ∧
    ∀ fd, .FunctionDefinition fd ∈ ds → r'.scopes.FunctionPlaced fd := by
  induction ds generalizing r with
  | nil => exact ⟨Step.refl hw hr _, by simp⟩
  | cons d ds ih =>
    rw [List.flatMap_cons] at hfresh hnodup
    obtain ⟨hnd, hnds, hdisjoint⟩ := List.nodup_append.mp hnodup
    have hlt := hc.lt
    cases d with
    | DataTypeDefinition dt =>
      obtain ⟨hstep, hplaced⟩ := ih hw hr hc hg hfresh.right hnds
      refine ⟨by simpa [bodyIds, bindFunctionBody, Definition.sites] using hstep, fun fd hfd => ?_⟩
      simp only [List.mem_cons, reduceCtorEq, false_or] at hfd
      exact hplaced fd hfd
    | FunctionDefinition fd =>
      obtain ⟨hfirst, hfplaced⟩ := bindFunction_step positions hw hr hc hg hfresh.left hnd
      have hc1 := hc.grows hw hfirst.grows hlt
      obtain ⟨hrest, hrplaced⟩ := ih hfirst.wellFormed hfirst.resolvedExist hc1
        (hfirst.grows.frameIs hw hlt hlt hg)
        (hfresh.right.step hfirst fun i hi hi' => hdisjoint i hi' i hi rfl) hnds
      refine ⟨?_, fun fd' hfd => ?_⟩
      · rw [List.flatMap_cons, List.flatMap_cons]
        exact hfirst.trans hrest hfirst.grows.length
      · rcases List.mem_cons.mp hfd with h | h
        · cases h
          exact hfplaced.grows hfirst.wellFormed hfirst.resolvedExist hrest.grows (Nat.le_refl _)
            hc1 fun i hi hi' => hdisjoint i hi i hi' rfl
        · exact hrplaced fd' h

/-! ## Globals -/

theorem registerGlobalDefinitions_eq (positions : List Position) (ds : List Definition)
    (r : AnalysisResult) : ds.foldl (registerGlobalDefinition positions) r =
      addBinders positions 0 (ds.flatMap Definition.binders) r := by
  induction ds generalizing r with
  | nil => rfl
  | cons d ds ih =>
    rw [List.foldl_cons, ih, List.flatMap_cons]
    unfold addBinders
    rw [List.foldl_append]
    congr 1
    cases d with
    | FunctionDefinition fd => rfl
    | DataTypeDefinition dt =>
      simp only [registerGlobalDefinition, Definition.binders, List.foldl_cons, List.foldl_map]
      rfl

/-- The nodes of a definition that `checkGlobalDefinitions` binds. -/
def headIds : Definition → List NodeId
  | .FunctionDefinition fd => [fd.id]
  | .DataTypeDefinition dt => dt.id :: dt.constructors.map (·.id)

theorem bindScopes_step (positions : List Position) {r : AnalysisResult}
    (hw : r.scopes.WellFormed) (hr : r.scopes.ResolvedExist) (old sid : Nat) {ids : List NodeId}
    (hids : ∀ id ∈ ids, id ≠ kInvalidNodeId) :
    let r' := ids.foldl (fun r id => bindScope id sid r) r
    Step positions old r r' ids [] ∧ r'.scopes.resolved_symbols = r.scopes.resolved_symbols ∧
      ∀ id ∈ ids, r'.scopes.getScopeId id = some sid := by
  induction ids generalizing r with
  | nil => exact ⟨Step.refl hw hr old, rfl, by simp⟩
  | cons id ids ih =>
    obtain ⟨hstep, hnode⟩ := bindScope_step positions hw hr old (hids id (by simp)) sid
    obtain ⟨hrest, hres, hnodes⟩ := ih hstep.wellFormed hstep.resolvedExist fun i hi =>
      hids i (List.mem_cons_of_mem _ hi)
    refine ⟨hstep.trans hrest (Nat.le_refl _), hres.trans (bindScope_resolved id sid r),
      fun i hi => ?_⟩
    by_cases hin : i ∈ ids
    · exact hnodes i hin
    · obtain rfl : i = id := (List.mem_cons.mp hi).resolve_right hin
      exact (hrest.grows.scopeId i hin).trans hnode

theorem checkGlobalDefinitions_eq (ds : List Definition) (r : AnalysisResult) :
    ds.foldl checkGlobalDefinition r =
      (ds.flatMap headIds).foldl (fun r id => bindScope id 0 r) r := by
  induction ds generalizing r with
  | nil => rfl
  | cons d ds ih =>
    rw [List.foldl_cons, ih, List.flatMap_cons, List.foldl_append]
    congr 1
    cases d with
    | FunctionDefinition fd => rfl
    | DataTypeDefinition dt =>
      simp only [checkGlobalDefinition, headIds, List.foldl_cons, List.foldl_map]
      rfl

/-! ## Programs -/

/-- The scope tree of a program, as the analyzer leaves it. -/
structure ScopeTree.Scopes (t : ScopeTree) (program : Program) : Prop where
  wellFormed : t.WellFormed
  resolvedExist : t.ResolvedExist
  chain : Chain t 0 [globalFrame program]
  functions : ∀ fd, .FunctionDefinition fd ∈ program.definitions → t.FunctionPlaced fd
  dataTypes : ∀ dt, .DataTypeDefinition dt ∈ program.definitions →
    ∀ id ∈ dt.id :: dt.constructors.map (·.id), t.getScopeId id = some getRootScopeId

theorem ScopeTree.initial_wellFormed : ScopeTree.initial.WellFormed := by
  have hnone : ∀ sid name, ScopeTree.initial.getLocalSymbolId sid name = none := by
    intro sid name
    cases sid with
    | zero => rfl
    | succ sid => rfl
  have hscope : ∀ sid scope, ScopeTree.initial.getScope sid = some scope →
      sid = getRootScopeId ∧ scope = ⟨none, kInvalidNodeId, .empty, []⟩ := by
    intro sid scope h
    cases sid with
    | zero => exact ⟨rfl, (Option.some.inj h).symm⟩
    | succ sid => cases h
  refine ⟨⟨⟨_, rfl, rfl⟩, fun sid scope h hroot => ?_, fun sid child scope h => ?_⟩,
    fun id symbol h => ?_, fun id symbol h => ?_, fun sid name id h => ?_,
    fun sid sid' name name' id h => ?_⟩
  · exact absurd (hscope sid scope h).1 hroot
  · have hno : (ScopeTree.initial.getScope child).bind Scope.parent = none := by
      cases hc : ScopeTree.initial.getScope child with
      | none => rfl
      | some scope' => simp [(hscope child scope' hc).2]
    simp [(hscope sid scope h).2, hno]
  · cases h
  · cases h
  · rw [hnone] at h
    cases h
  · rw [hnone] at h
    cases h

theorem ScopeTree.Scopes.globals {t : ScopeTree} {program : Program} (h : t.Scopes program) :
    t.FrameIs 0 (globalFrame program) := by
  cases h.chain with
  | root _ _ hf => exact hf
  | nested _ _ hlt _ _ => omega

theorem bodyIds_sublist (d : Definition) : (bodyIds d).Sublist d.ids := by
  cases d with
  | FunctionDefinition fd => exact List.Sublist.refl _
  | DataTypeDefinition dt => exact List.nil_sublist _

theorem headIds_sublist (d : Definition) : (headIds d).Sublist d.ids := by
  cases d with
  | FunctionDefinition fd =>
    exact List.Sublist.cons_cons _ (List.nil_sublist _)
  | DataTypeDefinition dt => exact List.Sublist.refl _

/-- The nodes of a data type are in no function. -/
theorem dataTypeIds_not_bound {ds : List Definition} (hnodup : (ds.flatMap Definition.ids).Nodup)
    {dt : DataTypeDefinition} (hdt : .DataTypeDefinition dt ∈ ds) {id : NodeId}
    (hid : id ∈ dt.id :: dt.constructors.map (·.id)) : id ∉ ds.flatMap bodyIds := by
  intro hbody
  obtain ⟨d, hd, hin⟩ := List.mem_flatMap.mp hbody
  cases d with
  | DataTypeDefinition _ => cases hin
  | FunctionDefinition fd =>
    have hsymm : Std.Symm (Function.onFun List.Disjoint Definition.ids) :=
      ⟨fun _ _ h _ hr hl => h hl hr⟩
    exact (List.nodup_flatMap.mp hnodup).2.forall hdt hd (by simp) hid hin

theorem analyze_eq (definitions : List Definition) (positions : List Position) :
    analyze ⟨⟨definitions⟩, positions⟩ = definitions.foldl (bindFunctionBody positions)
      ((definitions.flatMap headIds).foldl (fun r id => bindScope id 0 r)
        (addBinders positions 0 (globalFrame ⟨definitions⟩) ⟨ScopeTree.initial, []⟩)) := by
  unfold analyze bindFunctionBodies checkGlobalDefinitions registerGlobalDefinitions
  rw [registerGlobalDefinitions_eq, checkGlobalDefinitions_eq]
  rfl

/-- On a program with distinct node ids, the analyzer reports the violations of
its sites, in their order, and makes the scopes of the program. -/
theorem analyze_spec (parsed : ParsedProgram) (hnodup : parsed.ast.ids.Nodup)
    (hvalid : ∀ id ∈ parsed.ast.ids, id ≠ kInvalidNodeId) :
    (analyze parsed).diagnostics =
      (programSites parsed.ast).filterMap (Site.diagnostic parsed.positions) ∧
    (analyze parsed).scopes.Scopes parsed.ast := by
  obtain ⟨⟨definitions⟩, positions⟩ := parsed
  simp only [Program.ids] at hnodup hvalid
  have hbodies : (definitions.flatMap bodyIds).Sublist (definitions.flatMap Definition.ids) :=
    List.Sublist.flatMap_right definitions fun d _ => bodyIds_sublist d
  have hheads : (definitions.flatMap headIds).Sublist (definitions.flatMap Definition.ids) :=
    List.Sublist.flatMap_right definitions fun d _ => headIds_sublist d
  -- the global scope
  have hexist : ScopeTree.initial.ResolvedExist := fun _ _ h => by cases h
  have hempty : ScopeTree.initial.FrameIs 0 [] := fun _ => rfl
  obtain ⟨hglobal, hframe⟩ := addBinders_step positions (r := ⟨ScopeTree.initial, []⟩)
    ScopeTree.initial_wellFormed hexist (Nat.zero_lt_one) hempty (globalFrame ⟨definitions⟩)
  rw [List.nil_append] at hframe
  obtain ⟨root, hroot, hparent, _⟩ := hglobal.grows.scope 0 ⟨none, kInvalidNodeId, .empty, []⟩ rfl
  have hc := Chain.root hroot hparent hframe
  obtain ⟨hcheck, hres, hnodes⟩ :=
    bindScopes_step positions hglobal.wellFormed hglobal.resolvedExist
    1 0 (fun id hid => hvalid id (hheads.subset hid))
  have hg2 := hcheck.grows.frameIs hglobal.wellFormed Nat.zero_lt_one hc.lt hframe
  obtain ⟨hfunctions, hplaced⟩ := bindFunctionBodies_step positions hcheck.wellFormed
    hcheck.resolvedExist (hc.grows hglobal.wellFormed hcheck.grows Nat.zero_lt_one) hg2
    (fun id hid => ⟨hvalid id (hbodies.subset hid), by
      rw [hres, hglobal.grows.resolved id (by simp)]
      rfl⟩)
    (hnodup.sublist hbodies)
  rw [analyze_eq]
  refine ⟨?_, hfunctions.wellFormed, hfunctions.resolvedExist, ?_, hplaced, fun dt hdt id hid => ?_⟩
  · rw [hfunctions.reports, hcheck.reports, hglobal.reports]
    simp [programSites, List.filterMap_append]
  · exact (hc.grows hglobal.wellFormed hcheck.grows Nat.zero_lt_one).grows hcheck.wellFormed
      hfunctions.grows (hc.grows hglobal.wellFormed hcheck.grows Nat.zero_lt_one).lt
  · have hbody : id ∉ definitions.flatMap bodyIds := dataTypeIds_not_bound hnodup hdt hid
    rw [hfunctions.grows.scopeId id hbody]
    exact hnodes id (List.mem_flatMap.mpr ⟨_, hdt, hid⟩)

end mf.semantics
