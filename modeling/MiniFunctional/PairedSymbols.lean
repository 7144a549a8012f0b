-- The scope trees of two programs that differ in their node ids and in the
-- order of their definitions: which symbol of the one tree stands for which of
-- the other. A symbol is known by its binder, so by its name, its kind and the
-- node that declares it.
import MiniFunctional.GlobalSymbols
import MiniFunctional.NodeRenaming
import Mathlib.Data.Option.Basic

open mf.util mf.ast mf.parsing mf.tokenization

namespace mf.semantics

open ScopeTree

def Binder.mapIds (π : NodeId → NodeId) (b : Binder) : Binder :=
  { b with declaration := π b.declaration }

@[simp] theorem Binder.mapIds_kind (π : NodeId → NodeId) (b : Binder) :
    (b.mapIds π).kind = b.kind := rfl

@[simp] theorem Binder.mapIds_name (π : NodeId → NodeId) (b : Binder) :
    (b.mapIds π).name = b.name := rfl

/-- The symbol of a binder: a global one has it in the root scope, another one
in the scope of its node. -/
def ScopeTree.symbolOf (t : ScopeTree) (b : Binder) : Option Symbol :=
  if isLocalKind b.kind then (t.getScopeId b.declaration).bind (t.getLocalSymbol · b.name)
  else t.getLocalSymbol getRootScopeId b.name

/-- The symbol is found by its binder. -/
def ScopeTree.AtHome (t : ScopeTree) (s : Symbol) : Prop := t.symbolOf s.binder = some s

/-- The symbol `s` of `t` stands for the symbol `s'` of `t'`. -/
structure Paired (t t' : ScopeTree) (π : NodeId → NodeId) (s s' : Symbol) : Prop where
  atHome : t.AtHome s
  atHome' : t'.AtHome s'
  binder : s'.binder = s.binder.mapIds π

section

variable {t t' : ScopeTree}

theorem Paired.name {π : NodeId → NodeId} {s s' : Symbol} (h : Paired t t' π s s') :
    s'.name = s.name := congrArg Binder.name h.binder

theorem Paired.kind {π : NodeId → NodeId} {s s' : Symbol} (h : Paired t t' π s s') :
    s'.kind = s.kind := congrArg Binder.kind h.binder

theorem Paired.declaration {π : NodeId → NodeId} {s s' : Symbol} (h : Paired t t' π s s') :
    s'.declaration = π s.declaration := congrArg Binder.declaration h.binder

theorem Paired.symm {π : Equiv.Perm NodeId} {s s' : Symbol} (h : Paired t t' π s s') :
    Paired t' t π.symm s' s := by
  refine ⟨h.atHome', h.atHome, ?_⟩
  rw [h.binder]
  simp [Binder.mapIds]

/-- A symbol stands for one symbol only. -/
theorem Paired.right_unique {π : NodeId → NodeId} {s s₁ s₂ : Symbol} (h : Paired t t' π s s₁)
    (h' : Paired t t' π s s₂) : s₁ = s₂ := by
  have h1 := h.atHome'
  have h2 := h'.atHome'
  unfold ScopeTree.AtHome at h1 h2
  rw [h.binder] at h1
  rw [h'.binder, h1] at h2
  exact Option.some.inj h2

theorem Paired.left_unique {π : Equiv.Perm NodeId} {s₁ s₂ s' : Symbol} (h : Paired t t' π s₁ s')
    (h' : Paired t t' π s₂ s') : s₁ = s₂ := h.symm.right_unique h'.symm

theorem ScopeTree.AtHome.getSymbol (hw : t.WellFormed) {s : Symbol} (h : t.AtHome s) :
    t.getSymbol s.id = some s := by
  unfold ScopeTree.AtHome ScopeTree.symbolOf at h
  split at h
  · obtain ⟨sid, _, hs⟩ := Option.bind_eq_some_iff.mp h
    exact (hw.local hs).2.1
  · exact (hw.local h).2.1

/-- Paired symbols are told apart by their ids in both trees alike. -/
theorem Paired.id_eq_iff {π : Equiv.Perm NodeId} (hw : t.WellFormed) (hw' : t'.WellFormed)
    {s₁ s₂ s₁' s₂' : Symbol} (h₁ : Paired t t' π s₁ s₁') (h₂ : Paired t t' π s₂ s₂') :
    s₁.id = s₂.id ↔ s₁'.id = s₂'.id := by
  constructor
  · intro hid
    have hs := h₁.atHome.getSymbol hw
    rw [hid, h₂.atHome.getSymbol hw] at hs
    cases hs
    rw [h₁.right_unique h₂]
  · intro hid
    have hs := h₁.atHome'.getSymbol hw'
    rw [hid, h₂.atHome'.getSymbol hw'] at hs
    cases hs
    rw [h₁.left_unique h₂]

/-- Lookups that find paired symbols, or both none. -/
theorem paired_of_binders {π : NodeId → NodeId} {o o' : Option Symbol}
    (h : o'.map Symbol.binder = (o.map Symbol.binder).map (Binder.mapIds π))
    (hhome : ∀ s, o = some s → t.AtHome s) (hhome' : ∀ s', o' = some s' → t'.AtHome s') :
    Option.Rel (Paired t t' π) o o' := by
  cases o with
  | none =>
    cases o' with
    | none => exact .none
    | some s' => simp at h
  | some s =>
    cases o' with
    | none => simp at h
    | some s' =>
      simp only [Option.map_some, Option.some.injEq] at h
      exact .some ⟨hhome s rfl, hhome' s' rfl, h⟩

end

/-! ## Symbols are found by their binders -/

section

variable {t : ScopeTree}

theorem atHome_of_root {frame : Frame} (hg : t.FrameIs getRootScopeId frame)
    (hkinds : ∀ b ∈ frame, isLocalKind b.kind = false) (hw : t.WellFormed) {name : String}
    {s : Symbol} (hs : t.getLocalSymbol getRootScopeId name = some s) : t.AtHome s := by
  have hkind := hkinds _ (hg.mem hs)
  unfold ScopeTree.AtHome ScopeTree.symbolOf
  rw [hkind, if_neg Bool.false_ne_true]
  rw [show s.binder.name = name from (hw.local hs).2.2]
  exact hs

/-- The frame declares local names at the node whose scope is `sid`. -/
def ScopeTree.OwnsFrame (t : ScopeTree) (sid : ScopeId) (frame : Frame) : Prop :=
  ∀ b ∈ frame, isLocalKind b.kind ∧ t.getScopeId b.declaration = some sid

theorem atHome_of_scope {sid : ScopeId} {frame : Frame} (hf : t.FrameIs sid frame)
    (howns : t.OwnsFrame sid frame) (hw : t.WellFormed) {name : String} {s : Symbol}
    (hs : t.getLocalSymbol sid name = some s) : t.AtHome s := by
  obtain ⟨hkind, hscope⟩ := howns _ (hf.mem hs)
  unfold ScopeTree.AtHome ScopeTree.symbolOf
  rw [if_pos hkind, hscope, Option.bind_some]
  rw [show s.binder.name = name from (hw.local hs).2.2]
  exact hs

/-- What resolves from the scope is found by its binder. -/
def ScopeTree.ResolvesHome (t : ScopeTree) (sid : ScopeId) : Prop :=
  ∀ name s, (t.getResolvedSymbolId sid name).bind t.getSymbol = some s → t.AtHome s

theorem ScopeTree.ResolvesHome.nested (hw : t.WellFormed) {parent sid : ScopeId} {owner : NodeId}
    {context : Context} (hc : t.Chain parent context) (hb : t.BranchScope parent sid owner)
    {frame : Frame} (hf : t.FrameIs sid frame) (howns : t.OwnsFrame sid frame)
    (h : t.ResolvesHome parent) : t.ResolvesHome sid := by
  intro name s hs
  obtain ⟨scope, hscope, hparent, _, hlt⟩ := hb
  rw [Chain.getResolvedSymbolId hscope hparent hlt hc] at hs
  cases hid : t.getLocalSymbolId sid name with
  | none =>
    rw [hid, Option.none_or] at hs
    exact h name s hs
  | some id =>
    rw [hid, Option.some_or] at hs
    have hlocal : t.getLocalSymbol sid name = some s := by
      unfold ScopeTree.getLocalSymbol
      rw [hid]
      exact hs
    exact atHome_of_scope hf howns hw hlocal

end

/-! ## Frames and contexts of the other program -/

/-- The names that the frames give are declared at nodes renamed by `π`. -/
def Frame.Renames (π : NodeId → NodeId) (frame frame' : Frame) : Prop :=
  ∀ name, frame'.lookup name = (frame.lookup name).map (Binder.mapIds π)

def Context.Renames (π : NodeId → NodeId) (context context' : Context) : Prop :=
  ∀ name, context'.lookup name = (context.lookup name).map (Binder.mapIds π)

section

variable {π : NodeId → NodeId}

theorem Frame.renames_map (π : NodeId → NodeId) (frame : Frame) :
    Frame.Renames π frame (frame.map (Binder.mapIds π)) := by
  intro name
  unfold Frame.lookup
  rw [List.find?_map]
  rfl

theorem Context.Renames.cons {frame frame' : Frame} {context context' : Context}
    (hf : Frame.Renames π frame frame') (hc : Context.Renames π context context') :
    Context.Renames π (frame :: context) (frame' :: context') := by
  intro name
  rw [Context.lookup, Context.lookup, hf name, hc name]
  cases frame.lookup name <;> rfl

theorem Context.renames_nil (π : NodeId → NodeId) : Context.Renames π [] [] := fun _ => rfl

theorem Frame.lookup_eq_some_iff {frame : Frame} (hnodup : (frame.map (·.name)).Nodup)
    {name : String} {b : Binder} : frame.lookup name = some b ↔ b ∈ frame ∧ b.name = name := by
  constructor
  · exact Frame.lookup_mem
  · rintro ⟨hb, rfl⟩
    cases hl : frame.lookup b.name with
    | none =>
      have := List.find?_eq_none.mp hl b hb
      simp at this
    | some b' =>
      obtain ⟨hmem, hname⟩ := Frame.lookup_mem hl
      rw [List.inj_on_of_nodup_map hnodup hmem hb hname]

/-- Where no name repeats, the order of a frame does not matter. -/
theorem Frame.lookup_perm {frame frame' : Frame} (h : frame.Perm frame')
    (hnodup : (frame.map (·.name)).Nodup) (name : String) :
    frame.lookup name = frame'.lookup name := by
  have hnodup' : (frame'.map (·.name)).Nodup := (h.map (·.name)).nodup_iff.mp hnodup
  ext b
  rw [Frame.lookup_eq_some_iff hnodup, Frame.lookup_eq_some_iff hnodup', h.mem_iff]

theorem Pattern.binders_mapIds (π : NodeId → NodeId) (p : Pattern) :
    Pattern.binders (p.mapIds π) = (Pattern.binders p).map (Binder.mapIds π) := by
  cases p <;> simp [Pattern.binders, Pattern.mapIds, Binder.mapIds, Function.comp_def]

theorem parameterFrame_mapIds (π : NodeId → NodeId) (fd : FunctionDefinition) :
    parameterFrame (fd.mapIds π) = (parameterFrame fd).map (Binder.mapIds π) := by
  simp [parameterFrame, FunctionDefinition.mapIds, Binder.mapIds, Function.comp_def]

theorem Pattern.binders_renames (π : NodeId → NodeId) (p : Pattern) :
    Frame.Renames π (Pattern.binders p) (Pattern.binders (p.mapIds π)) := by
  rw [Pattern.binders_mapIds]
  exact Frame.renames_map π _

theorem parameterFrame_renames (π : NodeId → NodeId) (fd : FunctionDefinition) :
    Frame.Renames π (parameterFrame fd) (parameterFrame (fd.mapIds π)) := by
  rw [parameterFrame_mapIds]
  exact Frame.renames_map π _

theorem Definition.binders_mapIds (π : NodeId → NodeId) (d : Definition) :
    Definition.binders (d.mapIds π) = (Definition.binders d).map (Binder.mapIds π) := by
  cases d with
  | FunctionDefinition fd => rfl
  | DataTypeDefinition dt =>
    simp [Definition.binders, Definition.mapIds, DataTypeDefinition.mapIds, Constructor.mapIds,
      Binder.mapIds, Function.comp_def]

theorem globalFrame_perm {program program' : Program} (h : Reordered π program program')
    (hbuiltin : π kInvalidNodeId = kInvalidNodeId) :
    ((globalFrame program).map (Binder.mapIds π)).Perm (globalFrame program') := by
  have hdefs := (h.flatMap_right Definition.binders).symm
  rw [List.flatMap_map] at hdefs
  have hmap : (program.definitions.flatMap Definition.binders).map (Binder.mapIds π) =
      program.definitions.flatMap fun d => Definition.binders (d.mapIds π) := by
    rw [List.map_flatMap]
    exact List.flatMap_congr fun d _ => (Definition.binders_mapIds π d).symm
  unfold globalFrame
  rw [List.map_cons, hmap]
  have hint : (Binder.mk "Int" .BuiltinType kInvalidNodeId).mapIds π =
      Binder.mk "Int" .BuiltinType kInvalidNodeId := by
    unfold Binder.mapIds
    rw [hbuiltin]
  rw [hint]
  exact hdefs.cons _

theorem map_names (π : NodeId → NodeId) (frame : Frame) :
    (frame.map (Binder.mapIds π)).map (·.name) = frame.map (·.name) := by
  simp [Binder.mapIds, Function.comp_def]

theorem globalFrame_renames {program program' : Program} (h : Reordered π program program')
    (hbuiltin : π kInvalidNodeId = kInvalidNodeId)
    (hnodup : ((globalFrame program).map (·.name)).Nodup) :
    Frame.Renames π (globalFrame program) (globalFrame program') := by
  intro name
  rw [← Frame.renames_map π (globalFrame program) name]
  refine (Frame.lookup_perm (globalFrame_perm h hbuiltin) ?_ name).symm
  rw [map_names]
  exact hnodup

end

/-! ## Violations -/

/-- No site is in violation. -/
def Clean (sites : List Site) : Prop := ∀ site ∈ sites, site.violates = false

theorem clean_append {sites sites' : List Site} :
    Clean (sites ++ sites') ↔ Clean sites ∧ Clean sites' := by
  simp only [Clean, List.mem_append, or_imp, forall_and]

theorem clean_flatMap {α : Type} {f : α → List Site} {l : List α} :
    Clean (l.flatMap f) ↔ ∀ a ∈ l, Clean (f a) := by
  constructor
  · intro h a ha site hsite
    exact h site (List.mem_flatMap.mpr ⟨a, ha, hsite⟩)
  · intro h site hsite
    obtain ⟨a, ha, hsite⟩ := List.mem_flatMap.mp hsite
    exact h a ha site hsite

theorem declarations_clean {earlier binders : Frame}
    (h : ((earlier ++ binders).map (·.name)).Nodup) : Clean (declarations earlier binders) := by
  induction binders generalizing earlier with
  | nil =>
    intro site hsite
    cases hsite
  | cons b bs ih =>
    intro site hsite
    rcases List.mem_cons.mp hsite with rfl | hsite
    · have hnew : b.name ∉ earlier.map (·.name) := by
        rw [List.map_append, List.nodup_append'] at h
        exact fun hin => h.2.2 hin (by simp)
      unfold Site.violates
      rw [Option.isSome_eq_false_iff, Option.isNone_iff_eq_none, Frame.lookup,
        List.find?_eq_none]
      intro b' hb'
      have hne : b'.name ≠ b.name := fun heq => hnew (List.mem_map.mpr ⟨b', hb', heq⟩)
      simpa using hne
    · exact ih (by simpa using h) site hsite

/-- The declarations of a scope are in order just when no name repeats. -/
theorem declarations_clean_iff {binders : Frame} :
    Clean (declarations [] binders) ↔ (binders.map (·.name)).Nodup :=
  ⟨declarations_nodup', fun h => declarations_clean (by simpa using h)⟩

section

variable {π : NodeId → NodeId} {globals globals' : Frame}

theorem declarations_mapIds {binders : Frame} (h : Clean (declarations [] binders)) :
    Clean (declarations [] (binders.map (Binder.mapIds π))) := by
  rw [declarations_clean_iff, map_names]
  exact declarations_clean_iff.mp h

theorem Pattern.sites_mapIds (hg : Frame.Renames π globals globals') {p : Pattern}
    (h : Clean (Pattern.sites globals p)) : Clean (Pattern.sites globals' (p.mapIds π)) := by
  have hbinders := Pattern.binders_mapIds π p
  cases p with
  | VariablePattern id name =>
    unfold Pattern.sites at h ⊢
    simp only [Pattern.mapIds] at hbinders ⊢
    rw [hbinders]
    exact declarations_mapIds h
  | ConstructorPattern id name arguments =>
    unfold Pattern.sites at h ⊢
    simp only [Pattern.mapIds] at hbinders ⊢
    rw [hbinders]
    intro site hsite
    rcases List.mem_cons.mp hsite with rfl | hsite
    · have huse := h _ List.mem_cons_self
      simp only [Site.violates, hg name] at huse ⊢
      cases hl : globals.lookup name with
      | none => simp [hl] at huse
      | some b =>
        rw [hl] at huse
        exact huse
    · exact declarations_mapIds (fun site hs => h site (List.mem_cons_of_mem _ hs)) site hsite

theorem expressionSites_mapIds (hg : Frame.Renames π globals globals') {e : Expression}
    {context context' : Context} (hc : Context.Renames π context context')
    (h : Clean (expressionSites globals e context)) :
    Clean (expressionSites globals' (e.mapIds π) context') := by
  induction e generalizing context context' with
  | IntLiteral id value => exact h
  | Variable id name =>
    intro site hsite
    rw [List.mem_singleton.mp hsite]
    have huse := h _ List.mem_cons_self
    simp only [Site.violates, hc name] at huse ⊢
    cases hl : context.lookup name with
    | none => simp [hl] at huse
    | some b => simpa [hl] using huse
  | BinaryOperator kind id l r ihl ihr =>
    obtain ⟨hl, hr⟩ := clean_append.mp h
    exact clean_append.mpr ⟨ihl hc hl, ihr hc hr⟩
  | Application id f a ihf iha =>
    obtain ⟨hf, ha⟩ := clean_append.mp h
    exact clean_append.mpr ⟨ihf hc hf, iha hc ha⟩
  | CaseExpression id s bs ihs ihbs =>
    obtain ⟨hs, hbs⟩ := clean_append.mp h
    refine clean_append.mpr ⟨ihs hc hs, fun site hsite => ?_⟩
    rw [mapIdsBranches_eq] at hsite
    obtain ⟨b', hb', hsite⟩ := mem_branchSites.mp hsite
    obtain ⟨b, hb, rfl⟩ := List.mem_map.mp hb'
    rcases hsite with hsite | hsite
    · exact Pattern.sites_mapIds hg
        (fun site hs => hbs site (mem_branchSites.mpr ⟨b, hb, .inl hs⟩)) site hsite
    · exact ihbs b hb (Context.Renames.cons (Pattern.binders_renames π b.pattern) hc)
        (fun site hs => hbs site (mem_branchSites.mpr ⟨b, hb, .inr hs⟩)) site hsite

/-- Reordering a program and renaming its nodes brings no violation. -/
theorem programSites_mapIds {program program' : Program} (h : Reordered π program program')
    (hbuiltin : π kInvalidNodeId = kInvalidNodeId) (hclean : Clean (programSites program)) :
    Clean (programSites program') := by
  obtain ⟨hdecls, hbodies⟩ := clean_append.mp hclean
  rw [declarations_clean_iff] at hdecls
  have hg := globalFrame_renames h hbuiltin hdecls
  refine clean_append.mpr ⟨?_, clean_flatMap.mpr fun d' hd' => ?_⟩
  · have hnames := (globalFrame_perm h hbuiltin).map (·.name)
    rw [map_names] at hnames
    exact declarations_clean_iff.mpr (hnames.nodup_iff.mp hdecls)
  · obtain ⟨d, hd, rfl⟩ := List.mem_map.mp (h.mem_iff.mp hd')
    have hsites := clean_flatMap.mp hbodies d hd
    cases d with
    | DataTypeDefinition dt => exact hsites
    | FunctionDefinition fd =>
      obtain ⟨hparams, hbody⟩ := clean_append.mp hsites
      refine clean_append.mpr ⟨?_, expressionSites_mapIds hg ?_ hbody⟩
      · rw [parameterFrame_mapIds]
        exact declarations_mapIds hparams
      · exact Context.Renames.cons (parameterFrame_renames π fd)
          (Context.Renames.cons hg (Context.renames_nil π))

end

/-! ## The pairs of a program -/

section

variable (t t' : ScopeTree) (π : NodeId → NodeId)

/-- The names of the two scopes have paired symbols. -/
def SymbolsPaired (sid sid' : ScopeId) : Prop :=
  ∀ name, Option.Rel (Paired t t' π) (t.getLocalSymbol sid name) (t'.getLocalSymbol sid' name)

/-- The scopes of a node and of the renamed node have paired symbols. -/
def ScopePaired (id : NodeId) : Prop :=
  ∃ sid sid', t.getScopeId id = some sid ∧ t'.getScopeId (π id) = some sid' ∧
    SymbolsPaired t t' π sid sid'

/-- A node and the renamed node are bound to paired symbols. -/
def UsePaired (id : NodeId) : Prop :=
  Option.Rel (Paired t t' π) (t.getResolvedSymbol id) (t'.getResolvedSymbol (π id))

def PatternPaired (pattern : Pattern) : Prop :=
  ScopePaired t t' π pattern.id ∧
    match pattern with
    | .VariablePattern _ _ => True
    | .ConstructorPattern id _ _ => UsePaired t t' π id

mutual

/-- The names of an expression have paired symbols in the renamed expression. -/
@[simp] def ExpressionPaired : Expression → Prop
  | .IntLiteral _ _ => True
  | .Variable id _ => UsePaired t t' π id
  | .BinaryOperator _ _ left right => ExpressionPaired left ∧ ExpressionPaired right
  | .Application _ function argument => ExpressionPaired function ∧ ExpressionPaired argument
  | .CaseExpression _ scrutinee branches =>
    ExpressionPaired scrutinee ∧ BranchesPaired branches

@[simp] def BranchesPaired : List Branch → Prop
  | [] => True
  | ⟨_, pattern, body⟩ :: branches =>
    PatternPaired t t' π pattern ∧ ExpressionPaired body ∧ BranchesPaired branches

end

theorem branchesPaired_iff {bs : List Branch} : BranchesPaired t t' π bs ↔
    ∀ b ∈ bs, PatternPaired t t' π b.pattern ∧ ExpressionPaired t t' π b.body := by
  induction bs with
  | nil => simp
  | cons b bs ih =>
    obtain ⟨id, p, e⟩ := b
    simp [ih, and_assoc]

/-- The scope trees pair the symbols of the program with those of the other. -/
structure ProgramPaired (program : Program) : Prop where
  wellFormed : t.WellFormed
  wellFormed' : t'.WellFormed
  rooted : t.GlobalsRooted
  rooted' : t'.GlobalsRooted
  globals : SymbolsPaired t t' π getRootScopeId getRootScopeId
  functions : ∀ fd, .FunctionDefinition fd ∈ program.definitions →
    ScopePaired t t' π fd.id ∧ ExpressionPaired t t' π fd.body

end

section

variable {t t' : ScopeTree} {π : NodeId → NodeId}

theorem rel_none {R : Symbol → Symbol → Prop} {o' : Option Symbol} (h : Option.Rel R none o') :
    o' = none := by
  cases h
  rfl

theorem rel_some {R : Symbol → Symbol → Prop} {s : Symbol} {o' : Option Symbol}
    (h : Option.Rel R (some s) o') : ∃ s', o' = some s' ∧ R s s' := by
  cases h with
  | some hs => exact ⟨_, rfl, hs⟩

theorem rel_some_right {R : Symbol → Symbol → Prop} {o : Option Symbol} {s' : Symbol}
    (h : Option.Rel R o (some s')) : ∃ s, o = some s ∧ R s s' := by
  cases h with
  | some hs => exact ⟨_, rfl, hs⟩

theorem rel_filter {R : Symbol → Symbol → Prop} (keep : Symbol → Bool) {o o' : Option Symbol}
    (h : Option.Rel R o o') (hkeep : ∀ s s', R s s' → keep s = keep s') :
    Option.Rel R (o.filter keep) (o'.filter keep) := by
  cases h with
  | none => exact .none
  | @some s s' hs =>
    rw [Option.filter_some, Option.filter_some, ← hkeep s s' hs]
    split
    · exact .some hs
    · exact .none

theorem scope_paired (hw : t.WellFormed) (hw' : t'.WellFormed) {sid sid' : ScopeId}
    {frame frame' : Frame} (hf : t.FrameIs sid frame) (hf' : t'.FrameIs sid' frame')
    (hr : Frame.Renames π frame frame') (howns : t.OwnsFrame sid frame)
    (howns' : t'.OwnsFrame sid' frame') : SymbolsPaired t t' π sid sid' := by
  intro name
  apply paired_of_binders
  · rw [hf name, hf' name, hr name]
  · exact fun s hs => atHome_of_scope hf howns hw hs
  · exact fun s' hs' => atHome_of_scope hf' howns' hw' hs'

theorem variableTarget_paired (hw : t.WellFormed) (hw' : t'.WellFormed) {sid sid' : ScopeId}
    {context context' : Context} (hc : t.Chain sid context) (hc' : t'.Chain sid' context')
    (hr : Context.Renames π context context') (hhome : t.ResolvesHome sid)
    (hhome' : t'.ResolvesHome sid') (name : String) :
    Option.Rel (Paired t t' π) (t.variableTarget sid name) (t'.variableTarget sid' name) := by
  unfold ScopeTree.variableTarget
  refine rel_filter _ (paired_of_binders ?_ (hhome name) (hhome' name)) ?_
  · rw [hc.lookup hw name, hc'.lookup hw' name, hr name]
  · intro s s' hs
    rw [hs.kind]

theorem pattern_owns {sid : ScopeId} {p : Pattern} (h : t.getScopeId p.id = some sid) :
    t.OwnsFrame sid (Pattern.binders p) := by
  intro b hb
  refine ⟨by rw [Pattern.binders_kind hb]; rfl, ?_⟩
  cases p with
  | VariablePattern id name =>
    rw [List.mem_singleton.mp hb]
    exact h
  | ConstructorPattern id name arguments =>
    obtain ⟨a, _, rfl⟩ := List.mem_map.mp hb
    exact h

theorem parameter_owns {sid : ScopeId} {fd : FunctionDefinition}
    (h : t.getScopeId fd.id = some sid) :
    t.OwnsFrame sid (parameterFrame fd) := by
  intro b hb
  obtain ⟨name, _, rfl⟩ := List.mem_map.mp hb
  exact ⟨rfl, h⟩

theorem patternPaired (hw : t.WellFormed) (hw' : t'.WellFormed)
    (hglobals : SymbolsPaired t t' π getRootScopeId getRootScopeId) {sid sid' : ScopeId}
    {p : Pattern}
    (h : t.PatternPlaced sid p) (h' : t'.PatternPlaced sid' (p.mapIds π)) :
    PatternPaired t t' π p := by
  have hid := h'.1
  rw [Pattern.id_mapIds] at hid
  refine ⟨⟨sid, sid', h.1, hid, scope_paired hw hw' h.2.1 h'.2.1 (Pattern.binders_renames π p)
    (pattern_owns h.1) (pattern_owns h'.1)⟩, ?_⟩
  cases p with
  | VariablePattern id name => trivial
  | ConstructorPattern id name arguments =>
    have htarget := h.2.2
    have htarget' := h'.2.2
    simp only [Pattern.mapIds] at htarget htarget'
    have huse : UsePaired t t' π id := by
      unfold UsePaired
      rw [htarget, htarget']
      refine rel_filter _ (hglobals name) fun s s' hs => ?_
      rw [hs.kind]
    exact huse

theorem expressionPaired (hw : t.WellFormed) (hw' : t'.WellFormed)
    (hglobals : SymbolsPaired t t' π getRootScopeId getRootScopeId) {e : Expression}
    {sid sid' : ScopeId} {context context' : Context} (hc : t.Chain sid context)
    (hc' : t'.Chain sid' context')
    (hr : Context.Renames π context context') (hhome : t.ResolvesHome sid)
    (hhome' : t'.ResolvesHome sid') (h : t.Placed e sid) (h' : t'.Placed (e.mapIds π) sid') :
    ExpressionPaired t t' π e := by
  induction e generalizing sid sid' context context' with
  | IntLiteral id value => trivial
  | Variable id name =>
    have hpaired := variableTarget_paired hw hw' hc hc' hr hhome hhome' name
    rw [← h.2, ← h'.2] at hpaired
    exact hpaired
  | BinaryOperator kind id l r ihl ihr =>
    exact ⟨ihl hc hc' hr hhome hhome' h.2.1 h'.2.1, ihr hc hc' hr hhome hhome' h.2.2 h'.2.2⟩
  | Application id f a ihf iha =>
    exact ⟨ihf hc hc' hr hhome hhome' h.2.1 h'.2.1, iha hc hc' hr hhome hhome' h.2.2 h'.2.2⟩
  | CaseExpression id s bs ihs ihbs =>
    obtain ⟨_, hs, hbs⟩ := h
    obtain ⟨_, hs', hbs'⟩ := h'
    rw [placedBranches_iff] at hbs hbs'
    refine ⟨ihs hc hc' hr hhome hhome' hs hs', (branchesPaired_iff t t' π).mpr fun b hb => ?_⟩
    rw [mapIdsBranches_eq] at hbs'
    obtain ⟨bsid, hscope, _, hp, hbody⟩ := hbs b hb
    obtain ⟨bsid', hscope', _, hp', hbody'⟩ := hbs' _ (List.mem_map.mpr ⟨b, hb, rfl⟩)
    refine ⟨patternPaired hw hw' hglobals hp hp', ?_⟩
    have howns := pattern_owns hp.1
    have howns' := pattern_owns hp'.1
    exact ihbs b hb (hc.branch hscope hp.2.1) (hc'.branch hscope' hp'.2.1)
      (Context.Renames.cons (Pattern.binders_renames π b.pattern) hr)
      (hhome.nested hw hc hscope hp.2.1 howns) (hhome'.nested hw' hc' hscope' hp'.2.1 howns')
      hbody hbody'

theorem globalFrame_not_local {program : Program} :
    ∀ b ∈ globalFrame program, isLocalKind b.kind = false := by
  intro b hb
  obtain ⟨hparam, hpattern⟩ := globalFrame_kind hb
  simp [isLocalKind, hparam, hpattern]

theorem ScopeTree.Scopes.atHome {program : Program} (h : t.Scopes program) {name : String}
    {s : Symbol} (hs : t.getLocalSymbol getRootScopeId name = some s) : t.AtHome s :=
  atHome_of_root h.globals globalFrame_not_local h.wellFormed hs

theorem ScopeTree.Scopes.resolvesHome {program : Program} (h : t.Scopes program) :
    t.ResolvesHome 0 := by
  intro name s hs
  have hchain := h.chain
  cases hchain with
  | root hscope hparent _ =>
    rw [getResolvedSymbolId_root hscope hparent] at hs
    exact h.atHome hs
  | nested _ _ hlt _ _ => omega

/-- The scope trees that the analyzer makes of the two programs pair their
symbols, when no global name repeats. -/
theorem programPaired {program program' : Program} (h : t.Scopes program)
    (h' : t'.Scopes program') (hrooted : t.GlobalsRooted) (hrooted' : t'.GlobalsRooted)
    (hre : Reordered π program program')
    (hbuiltin : π kInvalidNodeId = kInvalidNodeId)
    (hnodup : ((globalFrame program).map (·.name)).Nodup) : ProgramPaired t t' π program := by
  have hw := h.wellFormed
  have hw' := h'.wellFormed
  have hr := globalFrame_renames hre hbuiltin hnodup
  have hglobals : SymbolsPaired t t' π getRootScopeId getRootScopeId := by
    intro name
    refine paired_of_binders ?_ (fun s hs => h.atHome hs) (fun s' hs' => h'.atHome hs')
    rw [show getRootScopeId = 0 from rfl, h.globals name, h'.globals name, hr name]
  refine ⟨hw, hw', hrooted, hrooted', hglobals, fun fd hfd => ?_⟩
  obtain ⟨fsid, hscope, hid, hf, hplaced⟩ := h.functions fd hfd
  obtain ⟨fsid', hscope', hid', hf', hplaced'⟩ := h'.functions _ (hre.function hfd)
  have hframe := parameterFrame_renames π fd
  have howns := parameter_owns hid
  have howns' := parameter_owns hid'
  refine ⟨⟨fsid, fsid', hid, hid', scope_paired hw hw' hf hf' hframe howns howns'⟩, ?_⟩
  exact expressionPaired hw hw' hglobals (h.chain.branch hscope hf) (h'.chain.branch hscope' hf')
    (Context.Renames.cons hframe (Context.Renames.cons hr (Context.renames_nil π)))
    (h.resolvesHome.nested hw h.chain hscope hf howns)
    (h'.resolvesHome.nested hw' h'.chain hscope' hf' howns') hplaced hplaced'

end

end mf.semantics
