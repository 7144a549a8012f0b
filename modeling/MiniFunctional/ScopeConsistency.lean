-- The scope tree as a representation: what holds of the tree that the
-- analyzer leaves, whether or not it found the program well scoped.
import MiniFunctional.LexicalScoping
import Mathlib.Logic.Relation

open mf.util mf.ast mf.parsing mf.tokenization

namespace mf.semantics

open ScopeTree

variable {t : ScopeTree}

/-! ## The way to the root -/

def ScopeTree.HasParent (t : ScopeTree) (sid parent : Nat) : Prop :=
  (t.getScope sid).bind Scope.parent = some parent

/-- From parent to parent, every scope leads to the root. -/
theorem ScopeTree.Linked.leads_to_root (h : t.Linked) {sid : Nat} (hlt : sid < t.scopes.length) :
    Relation.ReflTransGen t.HasParent sid getRootScopeId := by
  induction sid using Nat.strongRecOn with
  | ind sid ih =>
    have hs : t.getScope sid = some t.scopes[sid] := List.getElem?_eq_getElem hlt
    by_cases hroot : sid = getRootScopeId
    · rw [hroot]
    · obtain ⟨parent, hp, hparent⟩ := h.parent sid _ hs hroot
      have hstep : t.HasParent sid parent := by
        unfold ScopeTree.HasParent
        rw [hs, Option.bind_some, hp]
      exact .head hstep (ih parent hparent (Nat.lt_trans hparent hlt))

/-- The walk of a resolution stops by itself: more turns than there are scopes
from `sid` down to the root change nothing. -/
theorem ScopeTree.Linked.resolveWithin (h : t.Linked) (name : String) {n m sid : Nat} (hn : sid < n)
    (hm : sid < m) : t.resolveWithin name n sid = t.resolveWithin name m sid := by
  induction sid using Nat.strongRecOn generalizing n m with
  | ind sid ih =>
    obtain ⟨n, rfl⟩ : ∃ k, n = k + 1 := ⟨n - 1, by omega⟩
    obtain ⟨m, rfl⟩ : ∃ k, m = k + 1 := ⟨m - 1, by omega⟩
    unfold ScopeTree.resolveWithin
    cases t.getLocalSymbolId sid name with
    | some id => rfl
    | none =>
      cases hs : t.getScope sid with
      | none => rfl
      | some scope =>
        cases hp : scope.parent with
        | none => simp [hp]
        | some parent =>
          have hlt : parent < sid := h.parent_lt (by rw [hs, Option.bind_some, hp])
          simp only [Option.bind_some, hp]
          exact ih parent hlt (Nat.lt_of_lt_of_le hlt (Nat.le_of_lt_succ hn))
            (Nat.lt_of_lt_of_le hlt (Nat.le_of_lt_succ hm))

/-! ## Symbols -/

/-- A symbol is in one scope, under its name. -/
theorem ScopeTree.WellFormed.filed_once (h : t.WellFormed) {id : Nat} {symbol : Symbol}
    (hs : t.getSymbol id = some symbol) : ∃ sid, ∀ (sid' : Nat) name,
      t.getLocalSymbolId sid' name = some id ↔ sid' = sid ∧ name = symbol.name := by
  obtain ⟨sid, hsid⟩ := h.filed id symbol hs
  refine ⟨sid, fun sid' name => ⟨fun hid => ⟨h.apart _ _ _ _ _ hid hsid, ?_⟩, ?_⟩⟩
  · obtain ⟨symbol', hsymbol', _, hname⟩ := h.named _ _ _ hid
    rw [hs] at hsymbol'
    cases hsymbol'
    exact hname.symm
  · rintro ⟨rfl, rfl⟩
    exact hsid

/-- Where the name is taken, a declaration leaves the scopes and the symbols as
they are. -/
theorem addSymbol_taken {positions : List Position} {r : AnalysisResult} {sid : Nat} {name : String}
    {id : Nat} (h : r.scopes.getLocalSymbolId sid name = some id) (kind : SymbolKind)
    (declaration : NodeId) :
    (addSymbol positions sid name kind declaration r).scopes = r.scopes := by
  unfold addSymbol ScopeTree.addLocalSymbol
  rw [h, Option.isSome_some, if_pos rfl]
  simp only []
  cases r.scopes.getLocalSymbol sid name with
  | some previous => rfl
  | none => rfl

/-! ## Programs -/

/-- A tree of scopes that represents a program: the root holds the globals,
each function and each branch has a scope of its own, and every node is bound
to the scope around it. -/
structure ScopeTree.Represents (t : ScopeTree) (program : Program) : Prop where
  linked : t.Linked
  leadsToRoot : ∀ (sid : Nat), sid < t.scopes.length →
    Relation.ReflTransGen t.HasParent sid getRootScopeId
  resolution : ∀ name (n sid : Nat), sid < n →
    t.resolveWithin name n sid = t.getResolvedSymbolId sid name
  numbered : ∀ (id : Nat) symbol, t.getSymbol id = some symbol → symbol.id = id
  filed : ∀ (id : Nat) symbol, t.getSymbol id = some symbol → ∃ sid, ∀ (sid' : Nat) name,
    t.getLocalSymbolId sid' name = some id ↔ sid' = sid ∧ name = symbol.name
  exist : ∀ (sid : Nat) name (id : Nat), t.getLocalSymbolId sid name = some id →
    ∃ symbol, t.getSymbol id = some symbol
  globals : t.FrameIs getRootScopeId (globalFrame program)
  dataTypes : ∀ dt, .DataTypeDefinition dt ∈ program.definitions →
    ∀ id ∈ dt.id :: dt.constructors.map (·.id), t.getScopeId id = some getRootScopeId
  functions : ∀ fd, .FunctionDefinition fd ∈ program.definitions → t.FunctionPlaced fd

/-- The analyzer leaves a consistent tree for every program that the parser
returns, and keeps it as it is when it rejects a redefinition. -/
theorem analyze_represents {tokens : TokenVector} {p : ParsedProgram} (hp : parse tokens = .ok p) :
    (analyze p).scopes.Represents p.ast ∧
    ∀ (r : AnalysisResult) (sid : Nat) name (id : Nat) kind declaration,
      r.scopes.getLocalSymbolId sid name = some id →
      (addSymbol p.positions sid name kind declaration r).scopes = r.scopes := by
  obtain ⟨hnodup, hvalid⟩ := parse_ids hp
  obtain ⟨_, hscopes⟩ := analyze_spec p hnodup fun id hid => (hvalid id hid).2
  have hw := hscopes.wellFormed
  refine ⟨?_, fun r sid name id kind declaration h => addSymbol_taken h kind declaration⟩
  exact {
    linked := hw.linked
    leadsToRoot := fun sid hlt => hw.linked.leads_to_root hlt
    resolution := fun name n sid hlt => hw.linked.resolveWithin name hlt (Nat.lt_succ_self sid)
    numbered := hw.numbered
    filed := fun id symbol hs => hw.filed_once hs
    exist := fun sid name id hid => by
      obtain ⟨symbol, hs, _⟩ := hw.named sid name id hid
      exact ⟨symbol, hs⟩
    globals := hscopes.globals
    dataTypes := hscopes.dataTypes
    functions := hscopes.functions
  }

/-- The tree of `defn f x = { f y }`, where `y` is unbound. -/
theorem analyze_represents_unbound :
    (analyze unboundProgram).scopes.Represents unboundProgram.ast ∧
    ∀ (r : AnalysisResult) (sid : Nat) name (id : Nat) kind declaration,
      r.scopes.getLocalSymbolId sid name = some id →
      (addSymbol unboundProgram.positions sid name kind declaration r).scopes = r.scopes := by
  have hp : parse unboundTokens = .ok unboundProgram := rfl
  exact analyze_represents hp

end mf.semantics
