-- What the operations of the scope tree keep and change. A tree only grows:
-- old scopes keep their place, symbols keep their ids.
import MiniFunctional.Scoping

open mf.util mf.ast mf.parsing

namespace mf.semantics

open ScopeTree

/-- The scopes are a tree: a scope is made after its parent, and is once among
the children of its parent and not among those of any other. -/
structure ScopeTree.Linked (t : ScopeTree) : Prop where
  root : ∃ scope, t.getScope getRootScopeId = some scope ∧ scope.parent = none
  parent : ∀ (sid : Nat) scope, t.getScope sid = some scope → sid ≠ getRootScopeId →
    ∃ parent, scope.parent = some parent ∧ parent < sid
  children : ∀ (sid child : Nat) scope, t.getScope sid = some scope →
    scope.children.count child =
      if (t.getScope child).bind Scope.parent = some sid then 1 else 0

/-- Symbols are numbered and each is in one scope, under its name; the ids in a
scope are ids of symbols. -/
structure ScopeTree.WellFormed (t : ScopeTree) : Prop where
  linked : t.Linked
  numbered : ∀ (id : Nat) symbol, t.getSymbol id = some symbol → symbol.id = id
  filed : ∀ (id : Nat) symbol, t.getSymbol id = some symbol →
    ∃ sid, t.getLocalSymbolId sid symbol.name = some id
  named : ∀ (sid : Nat) name (id : Nat), t.getLocalSymbolId sid name = some id →
    ∃ symbol, t.getSymbol id = some symbol ∧ symbol.id = id ∧ symbol.name = name
  apart : ∀ (sid sid' : Nat) name name' (id : Nat), t.getLocalSymbolId sid name = some id →
    t.getLocalSymbolId sid' name' = some id → sid = sid'

/-- From `t` to `t'`, the scopes before `old` got no symbol, and no node but
those of `nodes` was bound. -/
structure ScopeTree.Grows (t t' : ScopeTree) (old : Nat) (nodes : List NodeId) : Prop where
  scope : ∀ (sid : Nat) scope, t.getScope sid = some scope →
    ∃ scope', t'.getScope sid = some scope' ∧
    scope'.parent = scope.parent ∧ scope'.owner = scope.owner ∧
    (sid < old → scope'.symbols = scope.symbols)
  symbols : t.symbols <+: t'.symbols
  scopeId : ∀ id ∉ nodes, t'.getScopeId id = t.getScopeId id
  resolved : ∀ id ∉ nodes, t'.resolved_symbols.find id = t.resolved_symbols.find id

/-- The symbols of a scope are the declarations of the frame. -/
def ScopeTree.FrameIs (t : ScopeTree) (sid : Nat) (frame : Frame) : Prop :=
  ∀ name, (t.getLocalSymbol sid name).map Symbol.binder = frame.lookup name

/-! ## Growth -/

theorem ScopeTree.Grows.refl (t : ScopeTree) (old : Nat) : Grows t t old [] :=
  ⟨fun _ scope h => ⟨scope, h, rfl, rfl, fun _ => rfl⟩, List.prefix_refl _, fun _ _ => rfl,
    fun _ _ => rfl⟩

theorem ScopeTree.Grows.trans {t t1 t2 : ScopeTree} {old old' : Nat}
    {nodes nodes' : List NodeId} (h : Grows t t1 old nodes) (h' : Grows t1 t2 old' nodes')
    (hold : old ≤ old') : Grows t t2 old (nodes ++ nodes') := by
  refine ⟨fun sid scope hs => ?_, h.symbols.trans h'.symbols, fun id hid => ?_, fun id hid => ?_⟩
  · obtain ⟨scope1, hs1, hp1, ho1, hy1⟩ := h.scope sid scope hs
    obtain ⟨scope2, hs2, hp2, ho2, hy2⟩ := h'.scope sid scope1 hs1
    refine ⟨scope2, hs2, hp2.trans hp1, ho2.trans ho1, fun hlt => ?_⟩
    rw [hy2 (by omega), hy1 hlt]
  · simp only [List.mem_append, not_or] at hid
    rw [h'.scopeId id hid.2, h.scopeId id hid.1]
  · simp only [List.mem_append, not_or] at hid
    rw [h'.resolved id hid.2, h.resolved id hid.1]

theorem ScopeTree.Grows.mono {t t' : ScopeTree} {old old' : Nat} {nodes nodes' : List NodeId}
    (h : Grows t t' old nodes) (hold : old' ≤ old) (hnodes : ∀ id ∈ nodes, id ∈ nodes') :
    Grows t t' old' nodes' := by
  refine ⟨fun sid scope hs => ?_, h.symbols, fun id hid => ?_, fun id hid => ?_⟩
  · obtain ⟨scope', hs', hp, ho, hy⟩ := h.scope sid scope hs
    exact ⟨scope', hs', hp, ho, fun hlt => hy (by omega)⟩
  · exact h.scopeId id fun hin => hid (hnodes id hin)
  · exact h.resolved id fun hin => hid (hnodes id hin)

theorem ScopeTree.Grows.getSymbol {t t' : ScopeTree} {old : Nat} {nodes : List NodeId}
    (h : Grows t t' old nodes) {id : Nat} {symbol : Symbol}
    (hs : t.getSymbol id = some symbol) : t'.getSymbol id = some symbol := by
  obtain ⟨new, hnew⟩ := h.symbols
  unfold ScopeTree.getSymbol at hs ⊢
  rw [← hnew, List.getElem?_append_left]
  · exact hs
  · exact (List.getElem?_eq_some_iff.mp hs).1

theorem ScopeTree.Grows.getLocalSymbolId {t t' : ScopeTree} {old : Nat} {nodes : List NodeId}
    (h : Grows t t' old nodes) {sid : Nat} (hsid : sid < old) (hlt : sid < t.scopes.length)
    (name : String) : t'.getLocalSymbolId sid name = t.getLocalSymbolId sid name := by
  have hs : t.getScope sid = some t.scopes[sid] := List.getElem?_eq_getElem hlt
  obtain ⟨scope', hs', _, _, hy⟩ := h.scope sid _ hs
  unfold ScopeTree.getLocalSymbolId
  rw [hs, hs', Option.bind_some, Option.bind_some, hy hsid]

theorem ScopeTree.Grows.getLocalSymbol {t t' : ScopeTree} {old : Nat} {nodes : List NodeId}
    (h : Grows t t' old nodes) (hw : t.WellFormed) {sid : Nat} (hsid : sid < old)
    (hlt : sid < t.scopes.length) (name : String) :
    t'.getLocalSymbol sid name = t.getLocalSymbol sid name := by
  unfold ScopeTree.getLocalSymbol
  rw [h.getLocalSymbolId hsid hlt]
  cases hid : t.getLocalSymbolId sid name with
  | none => rfl
  | some id =>
    obtain ⟨symbol, hsymbol, _⟩ := hw.named sid name id hid
    rw [Option.bind_some, Option.bind_some, hsymbol, h.getSymbol hsymbol]

theorem ScopeTree.Grows.frameIs {t t' : ScopeTree} {old : Nat} {nodes : List NodeId}
    (h : Grows t t' old nodes) (hw : t.WellFormed) {sid : Nat} (hsid : sid < old)
    (hlt : sid < t.scopes.length) {frame : Frame} (hf : t.FrameIs sid frame) :
    t'.FrameIs sid frame := by
  intro name
  rw [h.getLocalSymbol hw hsid hlt]
  exact hf name

theorem ScopeTree.Grows.length {t t' : ScopeTree} {old : Nat} {nodes : List NodeId}
    (h : Grows t t' old nodes) : t.scopes.length ≤ t'.scopes.length := by
  by_contra hlt
  have hs : t.getScope t'.scopes.length = some t.scopes[t'.scopes.length] :=
    List.getElem?_eq_getElem (by omega)
  obtain ⟨scope', hs', _⟩ := h.scope _ _ hs
  have := (List.getElem?_eq_some_iff.mp hs').1
  omega

/-! ## The links between scopes -/

theorem ScopeTree.Linked.parent_lt {t : ScopeTree} (h : t.Linked) {sid parent : Nat}
    (hp : (t.getScope sid).bind Scope.parent = some parent) : parent < sid := by
  obtain ⟨scope, hs, hscope⟩ := Option.bind_eq_some_iff.mp hp
  by_cases hroot : sid = getRootScopeId
  · obtain ⟨root, hr, hnone⟩ := h.root
    rw [hroot, hr] at hs
    cases hs
    rw [hnone] at hscope
    cases hscope
  · obtain ⟨parent', hparent, hlt⟩ := h.parent sid scope hs hroot
    rw [hparent] at hscope
    cases hscope
    exact hlt

/-- The links depend on the parents and the children only. -/
theorem ScopeTree.Linked.congr {t t' : ScopeTree} (h : t.Linked)
    (hsame : ∀ sid, (t'.getScope sid).map (fun scope => (scope.parent, scope.children)) =
      (t.getScope sid).map fun scope => (scope.parent, scope.children)) : t'.Linked := by
  have hscope : ∀ sid scope', t'.getScope sid = some scope' → ∃ scope, t.getScope sid = some scope ∧
      scope.parent = scope'.parent ∧ scope.children = scope'.children := by
    intro sid scope' hs'
    have hmap := hsame sid
    rw [hs', Option.map_some] at hmap
    obtain ⟨scope, hs, hpair⟩ := Option.map_eq_some_iff.mp hmap.symm
    exact ⟨scope, hs, congrArg Prod.fst hpair, congrArg Prod.snd hpair⟩
  have hparent : ∀ sid,
      (t'.getScope sid).bind Scope.parent = (t.getScope sid).bind Scope.parent := by
    intro sid
    have hmap := congrArg (fun o => o.bind Prod.fst) (hsame sid)
    simpa only [Option.bind_map, Function.comp_def] using hmap
  refine ⟨?_, fun sid scope' hs' hroot => ?_, fun sid child scope' hs' => ?_⟩
  · obtain ⟨root, hr, hnone⟩ := h.root
    have hmap := hsame getRootScopeId
    rw [hr, Option.map_some] at hmap
    obtain ⟨root', hr', hpair⟩ := Option.map_eq_some_iff.mp hmap
    exact ⟨root', hr', (congrArg Prod.fst hpair).trans hnone⟩
  · obtain ⟨scope, hs, hp, _⟩ := hscope sid scope' hs'
    rw [← hp]
    exact h.parent sid scope hs hroot
  · obtain ⟨scope, hs, _, hc⟩ := hscope sid scope' hs'
    rw [← hc, hparent]
    exact h.children sid child scope hs

/-! ## Binding a node -/

theorem bindNodeToScope_spec (t : ScopeTree) (hw : t.WellFormed) (id : NodeId) (sid : Nat)
    (old : Nat) : let t' := t.bindNodeToScope id sid
    t'.WellFormed ∧ Grows t t' old [id] ∧ t'.scopes = t.scopes ∧
      t'.resolved_symbols = t.resolved_symbols ∧
      (id ≠ kInvalidNodeId → t'.getScopeId id = some sid) := by
  simp only [ScopeTree.bindNodeToScope]
  split
  · rename_i hid
    exact ⟨hw, (Grows.refl t old).mono (Nat.le_refl _) (by simp), rfl, rfl, fun h => absurd hid h⟩
  · have hlinked : ScopeTree.Linked { t with scope_by_node := t.scope_by_node.insert id sid } :=
      hw.linked.congr fun _ => rfl
    refine ⟨⟨hlinked, hw.numbered, hw.filed, hw.named, hw.apart⟩,
      ⟨fun _ scope h => ⟨scope, h, rfl, rfl, fun _ => rfl⟩,
      List.prefix_refl _, fun node hnode => ?_, fun _ _ => rfl⟩, rfl, rfl, fun _ => ?_⟩
    · exact AssocMap.find_insert_of_ne _ _ (by simpa using hnode)
    · exact AssocMap.find_insert_self _ _ _

theorem bindNodeToSymbol_spec (t : ScopeTree) (hw : t.WellFormed) (id : NodeId)
    (symbol_id : SymbolId) (old : Nat) : let t' := t.bindNodeToSymbol id symbol_id
    t'.WellFormed ∧ Grows t t' old [id] ∧ t'.scopes = t.scopes ∧
      t'.scope_by_node = t.scope_by_node ∧
      (id ≠ kInvalidNodeId → t'.resolved_symbols.find id = some symbol_id) := by
  simp only [ScopeTree.bindNodeToSymbol]
  split
  · rename_i hid
    exact ⟨hw, (Grows.refl t old).mono (Nat.le_refl _) (by simp), rfl, rfl, fun h => absurd hid h⟩
  · have hlinked : ScopeTree.Linked
        { t with resolved_symbols := t.resolved_symbols.insert id symbol_id } :=
      hw.linked.congr fun _ => rfl
    refine ⟨⟨hlinked, hw.numbered, hw.filed, hw.named, hw.apart⟩,
      ⟨fun _ scope h => ⟨scope, h, rfl, rfl, fun _ => rfl⟩,
      List.prefix_refl _, fun _ _ => rfl, fun node hnode => ?_⟩, rfl, rfl, fun _ => ?_⟩
    · exact AssocMap.find_insert_of_ne _ _ (by simpa using hnode)
    · exact AssocMap.find_insert_self _ _ _

/-! ## A new scope -/

theorem getScope_createScope (t : ScopeTree) (parent : Nat) (owner : NodeId) (sid : Nat) :
    (t.createScope parent owner).getScope sid =
      (if sid = t.scopes.length then some ⟨some parent, owner, .empty, []⟩
        else t.getScope sid).map fun scope =>
          if parent = sid then addChild t.scopes.length scope else scope := by
  unfold ScopeTree.createScope ScopeTree.getScope
  simp only [List.getElem?_modify]
  by_cases hsid : sid = t.scopes.length
  · simp [hsid]
  · rw [if_neg hsid]
    by_cases hlt : sid < t.scopes.length
    · rw [List.getElem?_append_left hlt]
      rfl
    · rw [List.getElem?_eq_none (by simp; omega), List.getElem?_eq_none (by omega)]
      rfl

theorem getLocalSymbolId_createScope (t : ScopeTree) (parent : Nat) (owner : NodeId)
    (sid : Nat) (name : String) :
    (t.createScope parent owner).getLocalSymbolId sid name = t.getLocalSymbolId sid name := by
  unfold ScopeTree.getLocalSymbolId
  rw [getScope_createScope]
  by_cases hsid : sid = t.scopes.length
  · have hnone : t.getScope sid = none := List.getElem?_eq_none (by omega)
    rw [if_pos hsid, hnone]
    by_cases hp : parent = sid <;> simp [hp, addChild]
  · rw [if_neg hsid]
    cases t.getScope sid with
    | none => rfl
    | some scope => by_cases hp : parent = sid <;> simp [hp, addChild]

/-- The new scope is a child of its parent, and nobody's parent. -/
theorem createScope_linked {t : ScopeTree} (h : t.Linked) {parent : Nat}
    (hparent : parent < t.scopes.length) (owner : NodeId) :
    (t.createScope parent owner).Linked := by
  have hold : ∀ sid : Nat, sid < t.scopes.length → ∃ scope, t.getScope sid = some scope :=
    fun sid hlt => ⟨_, List.getElem?_eq_getElem hlt⟩
  have hnone : t.getScope t.scopes.length = none := List.getElem?_eq_none (Nat.le_refl _)
  have hbind : ∀ sid : Nat, ((t.createScope parent owner).getScope sid).bind Scope.parent =
      if sid = t.scopes.length then some parent else (t.getScope sid).bind Scope.parent := by
    intro sid
    rw [getScope_createScope]
    by_cases hsid : sid = t.scopes.length
    · have hne : ¬ parent = t.scopes.length := by omega
      simp [hsid, hne]
    · rw [if_neg hsid, if_neg hsid]
      cases t.getScope sid with
      | none => rfl
      | some scope => by_cases hp : parent = sid <;> simp [hp, addChild]
  refine ⟨?_, fun sid scope' hs' hroot => ?_, fun sid child scope' hs' => ?_⟩
  · obtain ⟨root, hr, hp⟩ := h.root
    have hne : getRootScopeId ≠ t.scopes.length :=
      Nat.ne_of_lt (List.getElem?_eq_some_iff.mp hr).1
    rw [getScope_createScope, if_neg hne, hr, Option.map_some]
    refine ⟨_, rfl, ?_⟩
    split
    · exact hp
    · exact hp
  · have hb := hbind sid
    rw [hs', Option.bind_some] at hb
    by_cases hsid : sid = t.scopes.length
    · rw [if_pos hsid] at hb
      exact ⟨parent, hb, Nat.lt_of_lt_of_eq hparent hsid.symm⟩
    · rw [if_neg hsid] at hb
      have hlt : sid < t.scopes.length := by
        have := (List.getElem?_eq_some_iff.mp hs').1
        simp only [createScope, List.length_modify, List.length_append,
          List.length_singleton] at this
        omega
      obtain ⟨scope, hs⟩ := hold sid hlt
      rw [hs, Option.bind_some] at hb
      rw [hb]
      exact h.parent sid scope hs hroot
  · rw [hbind]
    rw [getScope_createScope] at hs'
    -- a scope has no child before it is made
    have hunborn : ∀ scope, t.getScope sid = some scope →
        scope.children.count t.scopes.length = 0 := by
      intro scope hs
      rw [h.children sid _ scope hs, hnone]
      rfl
    by_cases hsid : sid = t.scopes.length
    · have hne : parent ≠ sid := by omega
      rw [if_pos hsid, Option.map_some, if_neg hne] at hs'
      cases hs'
      have hno : (t.getScope child).bind Scope.parent ≠ some sid := by
        intro hp
        have hlt := h.parent_lt hp
        obtain ⟨scope, hs, _⟩ := Option.bind_eq_some_iff.mp hp
        have := (List.getElem?_eq_some_iff.mp hs).1
        omega
      by_cases hchild : child = t.scopes.length
      · simp [hchild, hne]
      · simp [hchild, hno]
    · rw [if_neg hsid] at hs'
      obtain ⟨scope, hs, hscope⟩ := Option.map_eq_some_iff.mp hs'
      have hcount := h.children sid child scope hs
      by_cases hchild : child = t.scopes.length
      · subst hchild
        rw [if_pos rfl, ← hscope]
        by_cases hp : parent = sid
        · simp [hp, addChild, hunborn scope hs]
        · simp [hp, hunborn scope hs]
      · rw [if_neg hchild, ← hcount, ← hscope]
        by_cases hp : parent = sid
        · have hchild' : ¬ t.scopes.length = child := fun heq => hchild heq.symm
          simp [hp, addChild, hchild']
        · simp [hp]

theorem createScope_spec (t : ScopeTree) (hw : t.WellFormed) (parent : Nat)
    (hparent : parent < t.scopes.length) (owner : NodeId) (old : Nat) :
    let t' := t.createScope parent owner
    t'.WellFormed ∧ Grows t t' old [] ∧ t'.scopes.length = t.scopes.length + 1 ∧
      t'.getScope t.scopes.length = some ⟨some parent, owner, .empty, []⟩ ∧
      t'.resolved_symbols = t.resolved_symbols := by
  have hlocal := getLocalSymbolId_createScope t parent owner
  refine ⟨⟨createScope_linked hw.linked hparent owner, hw.numbered, fun id symbol hs => ?_, ?_, ?_⟩,
    ⟨fun sid scope hs => ?_, List.prefix_refl _, fun _ _ => rfl, fun _ _ => rfl⟩,
    ?_, ?_, rfl⟩
  · obtain ⟨sid, hsid⟩ := hw.filed id symbol hs
    exact ⟨sid, by rw [hlocal]; exact hsid⟩
  · intro sid name id h
    rw [hlocal] at h
    exact hw.named sid name id h
  · intro sid sid' name name' id h h'
    rw [hlocal] at h h'
    exact hw.apart sid sid' name name' id h h'
  · have hlt := (List.getElem?_eq_some_iff.mp hs).1
    rw [getScope_createScope, if_neg (by omega), hs, Option.map_some]
    refine ⟨_, rfl, ?_⟩
    by_cases hp : parent = sid <;> simp [hp, addChild]
  · simp [ScopeTree.createScope]
  · rw [getScope_createScope, if_pos rfl, Option.map_some, if_neg (by omega)]

/-! ## A new symbol -/

theorem getLocalSymbolId_addLocalSymbol {t t' : ScopeTree} {sid : Nat} {name : String}
    {kind : SymbolKind} {declaration : NodeId}
    (h : t.addLocalSymbol sid name kind declaration = some t') (hsid : sid < t.scopes.length)
    (sid' : Nat) (name' : String) : t'.getLocalSymbolId sid' name' =
      if sid' = sid ∧ name' = name then some t.symbols.length
      else t.getLocalSymbolId sid' name' := by
  unfold ScopeTree.addLocalSymbol at h
  split at h
  · cases h
  · rename_i hnot
    cases h
    unfold ScopeTree.getLocalSymbolId ScopeTree.getScope at hnot ⊢
    rw [List.getElem?_eq_getElem hsid] at hnot
    simp only [Option.bind_some, Option.not_isSome_iff_eq_none] at hnot
    simp only [List.getElem?_modify]
    by_cases hs : sid' = sid
    · subst hs
      rw [List.getElem?_eq_getElem hsid]
      simp [addName, AssocMap.emplace_of_none hnot, AssocMap.find_insert]
    · have hs' : ¬ sid = sid' := fun h => hs h.symm
      simp [hs, hs']

theorem addLocalSymbol_spec {t t' : ScopeTree} (hw : t.WellFormed) {sid : Nat} {name : String}
    {kind : SymbolKind} {declaration : NodeId}
    (h : t.addLocalSymbol sid name kind declaration = some t') (hsid : sid < t.scopes.length) :
    t'.WellFormed ∧ Grows t t' sid [] ∧ t'.scopes.length = t.scopes.length ∧
      t'.getLocalSymbolId sid name = some t.symbols.length ∧
      t'.getSymbol t.symbols.length = some ⟨t.symbols.length, name, kind, declaration⟩ ∧
      t'.resolved_symbols = t.resolved_symbols := by
  have hlocal := getLocalSymbolId_addLocalSymbol h hsid
  have hshape : t'.symbols = t.symbols ++ [⟨t.symbols.length, name, kind, declaration⟩] ∧
      t'.scopes = t.scopes.modify sid (addName name t.symbols.length) ∧
      t'.scope_by_node = t.scope_by_node ∧ t'.resolved_symbols = t.resolved_symbols := by
    unfold ScopeTree.addLocalSymbol at h
    split at h <;> cases h
    exact ⟨rfl, rfl, rfl, rfl⟩
  obtain ⟨hsymbols, hscopes, hnodes, hresolved⟩ := hshape
  have hnew : t'.getSymbol t.symbols.length = some ⟨t.symbols.length, name, kind, declaration⟩ := by
    unfold ScopeTree.getSymbol
    rw [hsymbols]
    simp
  have hgrows : Grows t t' sid [] := by
    refine ⟨fun sid' scope hs => ?_, hsymbols ▸ List.prefix_append _ _,
      fun id _ => ?_, fun id _ => by rw [hresolved]⟩
    · unfold ScopeTree.getScope at hs ⊢
      rw [hscopes, List.getElem?_modify, hs]
      refine ⟨_, rfl, ?_⟩
      by_cases heq : sid = sid' <;> simp [heq, addName]
    · unfold ScopeTree.getScopeId
      rw [hnodes]
  -- no old scope has the new id
  have hfresh : ∀ sid' name', t.getLocalSymbolId sid' name' ≠ some t.symbols.length := by
    intro sid' name' hid
    obtain ⟨symbol, hsymbol, _⟩ := hw.named _ _ _ hid
    have := (List.getElem?_eq_some_iff.mp hsymbol).1
    omega
  have hlinked : t'.Linked := by
    refine hw.linked.congr fun sid' => ?_
    unfold ScopeTree.getScope
    rw [hscopes, List.getElem?_modify]
    cases t.scopes[sid']? with
    | none => rfl
    | some scope => by_cases heq : sid = sid' <;> simp [heq, addName]
  -- a symbol of the new tree is an old one or the new one
  have hsplit : ∀ (id : Nat) symbol, t'.getSymbol id = some symbol → t.getSymbol id = some symbol ∨
      id = t.symbols.length ∧ symbol = ⟨t.symbols.length, name, kind, declaration⟩ := by
    intro id symbol hs
    by_cases hid : id < t.symbols.length
    · left
      unfold ScopeTree.getSymbol at hs ⊢
      rwa [hsymbols, List.getElem?_append_left hid] at hs
    · right
      have hlt := (List.getElem?_eq_some_iff.mp hs).1
      rw [hsymbols, List.length_append, List.length_singleton] at hlt
      obtain rfl : id = t.symbols.length := by omega
      rw [hnew] at hs
      exact ⟨rfl, (Option.some.inj hs).symm⟩
  refine ⟨⟨hlinked, ?_, ?_, ?_, ?_⟩, hgrows, by simp [hscopes], by simp [hlocal], hnew, hresolved⟩
  · intro id symbol hs
    rcases hsplit id symbol hs with hold | ⟨rfl, rfl⟩
    · exact hw.numbered id symbol hold
    · rfl
  · intro id symbol hs
    rcases hsplit id symbol hs with hold | ⟨rfl, rfl⟩
    · obtain ⟨sid', hsid'⟩ := hw.filed id symbol hold
      refine ⟨sid', ?_⟩
      rw [hlocal]
      split
      · rename_i heq
        obtain ⟨rfl, hname⟩ := heq
        have hcontains : (t.getLocalSymbolId sid' name).isSome := by
          rw [← hname, hsid']
          rfl
        unfold ScopeTree.addLocalSymbol at h
        rw [if_pos hcontains] at h
        cases h
      · exact hsid'
    · exact ⟨sid, by simp [hlocal]⟩
  · intro sid' name' id hid
    rw [hlocal] at hid
    split at hid
    · rename_i heq
      cases hid
      exact ⟨_, hnew, rfl, heq.2.symm⟩
    · obtain ⟨symbol, hsymbol, hrest⟩ := hw.named _ _ _ hid
      exact ⟨symbol, hgrows.getSymbol hsymbol, hrest⟩
  · intro sid1 sid2 name1 name2 id h1 h2
    rw [hlocal] at h1 h2
    split at h1 <;> split at h2
    · rename_i heq1 heq2
      exact heq1.1.trans heq2.1.symm
    · cases h1
      exact absurd h2 (hfresh _ _)
    · cases h2
      exact absurd h1 (hfresh _ _)
    · exact hw.apart _ _ _ _ _ h1 h2

end mf.semantics
