-- A program and the same definitions among those of a larger program. What a
-- name stands for in the part, it stands for in the whole.
import MiniFunctional.PairedSymbols
import Mathlib.Data.List.Flatten
import Mathlib.Data.List.Perm.Subperm

open mf.util mf.ast mf.parsing mf.tokenization

namespace mf.ast

/-- `π` takes each definition of the part, node by node, to one of the whole. -/
def PartOf (π : NodeId → NodeId) (program program' : Program) : Prop :=
  ∀ d ∈ program.definitions, d.mapIds π ∈ program'.definitions

section

variable {π : NodeId → NodeId} {program program' : Program}

theorem PartOf.function (h : PartOf π program program') {fd : FunctionDefinition}
    (hfd : .FunctionDefinition fd ∈ program.definitions) :
    .FunctionDefinition (fd.mapIds π) ∈ program'.definitions := h _ hfd

theorem PartOf.dataType (h : PartOf π program program') {dt : DataTypeDefinition}
    (hdt : .DataTypeDefinition dt ∈ program.definitions) :
    .DataTypeDefinition (dt.mapIds π) ∈ program'.definitions := h _ hdt

end

/-- Two lists of as many numbers are a renaming of each other, which leaves the
numbers in neither as they are. -/
theorem exists_renaming_of_length {l l' : List NodeId} (hlen : l.length = l'.length)
    (hnodup : l.Nodup) (hnodup' : l'.Nodup) :
    ∃ π : Equiv.Perm NodeId, l.map π = l' ∧ ∀ id, id ∉ l → id ∉ l' → π id = id := by
  induction l generalizing l' with
  | nil =>
    cases l' with
    | nil => exact ⟨Equiv.refl NodeId, rfl, fun id _ _ => rfl⟩
    | cons y l' => cases hlen
  | cons x l ih =>
    cases l' with
    | nil => cases hlen
    | cons y l' =>
      rw [List.nodup_cons] at hnodup hnodup'
      obtain ⟨π, hmap, hfix⟩ := ih (Nat.succ.inj hlen) hnodup.2 hnodup'.2
      refine ⟨π.trans (Equiv.swap (π x) y), ?_, fun id hid hid' => ?_⟩
      · -- no number of `l'` is moved by the swap
        have hrest : ∀ id ∈ l, Equiv.swap (π x) y (π id) = π id := by
          intro id hid
          apply Equiv.swap_apply_of_ne_of_ne
          · intro heq
            rw [π.injective heq] at hid
            exact hnodup.1 hid
          · intro heq
            apply hnodup'.1
            rw [← hmap, ← heq]
            exact List.mem_map_of_mem hid
        rw [List.map_cons, Equiv.trans_apply, Equiv.swap_apply_left, ← hmap]
        congr 1
        exact List.map_congr_left hrest
      · simp only [List.mem_cons, not_or] at hid hid'
        rw [Equiv.trans_apply, hfix id hid.2 hid'.2]
        apply Equiv.swap_apply_of_ne_of_ne
        · intro heq
          apply hid.1
          apply π.injective
          rw [hfix id hid.2 hid'.2]
          exact heq
        · exact hid'.1

theorem length_flatMap_ids {ds ds' : List Definition}
    (h : List.Forall₂ (fun d d' => d.withoutIds = d'.withoutIds) ds ds') :
    (ds.flatMap Definition.ids).length = (ds'.flatMap Definition.ids).length := by
  induction h with
  | nil => rfl
  | cons hd _ ih =>
    rw [List.flatMap_cons, List.flatMap_cons, List.length_append, List.length_append,
      Definition.length_ids_eq hd, ih]

/-- The definitions of a program whose own are distinct, up to ids, are part of
a program that has them all. -/
theorem exists_partOf {program program' : Program}
    (hsub : program.withoutIds.definitions ⊆ program'.withoutIds.definitions)
    (hdistinct : program.withoutIds.definitions.Nodup) (hnodup : program.ids.Nodup)
    (hnodup' : program'.ids.Nodup) :
    ∃ π : Equiv.Perm NodeId, PartOf π program program' ∧
      ∀ id, id ∉ program.ids → id ∉ program'.ids → π id = id := by
  obtain ⟨l, hperm, hsublist⟩ := List.subperm_of_subset hdistinct hsub
  obtain ⟨inner, hinner, rfl⟩ := List.sublist_map_iff.mp hsublist
  -- the inner definitions in the order of those of the part
  obtain ⟨ds, hds, hsame⟩ : ∃ ds, ds.Perm inner ∧
      List.Forall₂ (fun d d' => d.withoutIds = d'.withoutIds) program.definitions ds := by
    have hsame : List.Forall₂ (fun d d' => d = Definition.withoutIds d')
        (inner.map Definition.withoutIds) inner := by
      rw [List.forall₂_map_left_iff, List.forall₂_same]
      exact fun _ _ => rfl
    obtain ⟨ds, hds, hperm⟩ := List.perm_comp_forall₂ hperm.symm hsame
    rw [Program.withoutIds, List.forall₂_map_left_iff] at hds
    exact ⟨ds, hperm, hds⟩
  have hids : ∀ id ∈ ds.flatMap Definition.ids, id ∈ program'.ids := by
    intro id hid
    obtain ⟨d, hd, hid⟩ := List.mem_flatMap.mp hid
    exact List.mem_flatMap.mpr ⟨d, hinner.subset (hds.mem_iff.mp hd), hid⟩
  have hlen : program.ids.length = (ds.flatMap Definition.ids).length :=
    length_flatMap_ids hsame
  have hdsNodup : (ds.flatMap Definition.ids).Nodup :=
    (hds.flatMap_right Definition.ids).nodup_iff.mpr
      ((hinner.flatMap Definition.ids).nodup hnodup')
  obtain ⟨π, hmap, hfix⟩ := exists_renaming_of_length hlen hnodup hdsNodup
  refine ⟨π, fun d hd => ?_, fun id hid hid' => hfix id hid fun hin => hid' (hids id hin)⟩
  have hall := definitions_eq_mapIds hsame hmap
  apply hinner.subset
  apply hds.mem_iff.mp
  rw [hall]
  exact List.mem_map_of_mem hd

end mf.ast

namespace mf.semantics

open ScopeTree

/-! ## What the part declares -/

/-- The names that the first frame gives, the second gives too. -/
def Frame.Includes (π : NodeId → NodeId) (frame frame' : Frame) : Prop :=
  ∀ name b, frame.lookup name = some b → frame'.lookup name = some (b.mapIds π)

def Context.Includes (π : NodeId → NodeId) (context context' : Context) : Prop :=
  ∀ name b, context.lookup name = some b → context'.lookup name = some (b.mapIds π)

section

variable {π : NodeId → NodeId} {program program' : Program}

/-- A frame that the scopes around do not change. -/
theorem Context.Includes.cons {frame frame' : Frame} {context context' : Context}
    (hf : Frame.Renames π frame frame') (hc : Context.Includes π context context') :
    Context.Includes π (frame :: context) (frame' :: context') := by
  intro name b h
  rw [Context.lookup] at h ⊢
  rw [hf name]
  cases hl : frame.lookup name with
  | some b' =>
    rw [hl, Option.some_or] at h
    cases h
    rfl
  | none =>
    rw [hl, Option.none_or] at h
    rw [hc name b h]
    rfl

theorem Context.includes_globals {frame frame' : Frame} (hf : Frame.Includes π frame frame') :
    Context.Includes π [frame] [frame'] := by
  intro name b h
  rw [Context.lookup, Context.lookup, Option.or_none] at h ⊢
  exact hf name b h

theorem globalFrame_subset (h : PartOf π program program')
    (hbuiltin : π kInvalidNodeId = kInvalidNodeId) {b : Binder} (hb : b ∈ globalFrame program) :
    b.mapIds π ∈ globalFrame program' := by
  rcases List.mem_cons.mp hb with rfl | hb
  · unfold Binder.mapIds
    rw [hbuiltin]
    exact List.mem_cons_self
  · obtain ⟨d, hd, hb⟩ := List.mem_flatMap.mp hb
    have hmem : b.mapIds π ∈ Definition.binders (d.mapIds π) := by
      rw [Definition.binders_mapIds]
      exact List.mem_map_of_mem hb
    exact mem_globalFrame (h d hd) hmem

theorem globalFrame_includes (h : PartOf π program program')
    (hbuiltin : π kInvalidNodeId = kInvalidNodeId)
    (hnodup' : ((globalFrame program').map (·.name)).Nodup) :
    Frame.Includes π (globalFrame program) (globalFrame program') := by
  intro name b hb
  obtain ⟨hmem, rfl⟩ := Frame.lookup_mem hb
  exact (Frame.lookup_eq_some_iff hnodup').mpr ⟨globalFrame_subset h hbuiltin hmem, rfl⟩

/-- The name that the definition begins with. -/
def Definition.headName : Definition → String
  | .FunctionDefinition fd => fd.name
  | .DataTypeDefinition dt => dt.name

theorem headNames_sublist (ds : List Definition) :
    (ds.map Definition.headName).Sublist ((ds.flatMap Definition.binders).map (·.name)) := by
  induction ds with
  | nil => exact List.Sublist.refl _
  | cons d ds ih =>
    rw [List.flatMap_cons, List.map_append, List.map_cons]
    have hhead : [Definition.headName d].Sublist ((Definition.binders d).map (·.name)) := by
      rw [List.singleton_sublist]
      cases d <;> exact List.mem_cons_self
    exact hhead.append ih

/-- Definitions whose global names are distinct are distinct. -/
theorem definitions_nodup (h : ((globalFrame program).map (·.name)).Nodup) :
    program.withoutIds.definitions.Nodup := by
  unfold globalFrame at h
  rw [List.map_cons, List.nodup_cons] at h
  have hnames := (headNames_sublist program.definitions).nodup h.2
  have hsame : (program.withoutIds.definitions.map Definition.headName) =
      program.definitions.map Definition.headName := by
    unfold Program.withoutIds
    rw [List.map_map]
    apply List.map_congr_left
    intro d _
    cases d <;> rfl
  rw [← hsame] at hnames
  exact hnames.of_map

end

/-! ## The pairs of a part -/

/-- The symbols of the part stand for symbols of the whole. -/
structure PartPaired (t t' : ScopeTree) (π : NodeId → NodeId) (program : Program) : Prop where
  wellFormed : t.WellFormed
  wellFormed' : t'.WellFormed
  rooted : t.GlobalsRooted
  rooted' : t'.GlobalsRooted
  globals : ∀ name s, t.getLocalSymbol getRootScopeId name = some s →
    ∃ s', t'.getLocalSymbol getRootScopeId name = some s' ∧ Paired t t' π s s'
  functions : ∀ fd, .FunctionDefinition fd ∈ program.definitions →
    ScopePaired t t' π fd.id ∧ ExpressionPaired t t' π fd.body

section

variable {t t' : ScopeTree} {π : NodeId → NodeId} {program program' : Program}

/-- A name in order stands for paired symbols. -/
theorem variableTarget_included (hw : t.WellFormed) (hw' : t'.WellFormed) {sid sid' : ScopeId}
    {context context' : Context} (hc : t.Chain sid context) (hc' : t'.Chain sid' context')
    (hi : Context.Includes π context context') (hhome : t.ResolvesHome sid)
    (hhome' : t'.ResolvesHome sid') {id : NodeId} {name : String}
    (hclean : (Site.variableUse context id name).violates = false) :
    Option.Rel (Paired t t' π) (t.variableTarget sid name) (t'.variableTarget sid' name) := by
  unfold ScopeTree.variableTarget
  refine rel_filter _ (paired_of_binders ?_ (hhome name) (hhome' name)) ?_
  · rw [hc.lookup hw name, hc'.lookup hw' name]
    cases hl : context.lookup name with
    | none => simp [Site.violates, hl] at hclean
    | some b => exact hi name b hl
  · intro s s' hs
    rw [hs.kind]

theorem constructorTarget_included
    (hglobals : ∀ name s, t.getLocalSymbol getRootScopeId name = some s →
      ∃ s', t'.getLocalSymbol getRootScopeId name = some s' ∧ Paired t t' π s s')
    {globals : Frame} (hf : t.FrameIs getRootScopeId globals) {id : NodeId} {name : String}
    (hclean : (Site.constructorPattern globals id name).violates = false) :
    Option.Rel (Paired t t' π) (t.constructorTarget name) (t'.constructorTarget name) := by
  unfold ScopeTree.constructorTarget
  have hfound := hf name
  cases hl : globals.lookup name with
  | none => simp [Site.violates, hl] at hclean
  | some b =>
    rw [hl] at hfound
    obtain ⟨s, hs, _⟩ := Option.map_eq_some_iff.mp hfound
    obtain ⟨s', hs', hpaired⟩ := hglobals name s hs
    rw [hs, hs']
    exact rel_filter _ (.some hpaired) fun s s' hs => by rw [hs.kind]

theorem patternPaired_of_clean (hw : t.WellFormed) (hw' : t'.WellFormed)
    (hglobals : ∀ name s, t.getLocalSymbol getRootScopeId name = some s →
      ∃ s', t'.getLocalSymbol getRootScopeId name = some s' ∧ Paired t t' π s s')
    {globals : Frame} (hf : t.FrameIs getRootScopeId globals) {sid sid' : ScopeId} {p : Pattern}
    (h : t.PatternPlaced sid p) (h' : t'.PatternPlaced sid' (p.mapIds π))
    (hclean : Clean (Pattern.sites globals p)) : PatternPaired t t' π p := by
  have hid := h'.1
  rw [Pattern.id_mapIds] at hid
  refine ⟨⟨sid, sid', h.1, hid, scope_paired hw hw' h.2.1 h'.2.1 (Pattern.binders_renames π p)
    (pattern_owns h.1) (pattern_owns h'.1)⟩, ?_⟩
  cases p with
  | VariablePattern id name => trivial
  | ConstructorPattern id name arguments =>
    have huse : UsePaired t t' π id := by
      unfold UsePaired
      rw [show t.getResolvedSymbol id = t.constructorTarget name from h.2.2,
        show t'.getResolvedSymbol (π id) = t'.constructorTarget name from h'.2.2]
      exact constructorTarget_included hglobals hf (hclean _ List.mem_cons_self)
    exact huse

theorem expressionPaired_of_clean (hw : t.WellFormed) (hw' : t'.WellFormed)
    (hglobals : ∀ name s, t.getLocalSymbol getRootScopeId name = some s →
      ∃ s', t'.getLocalSymbol getRootScopeId name = some s' ∧ Paired t t' π s s')
    {globals : Frame} (hf : t.FrameIs getRootScopeId globals) {e : Expression}
    {sid sid' : ScopeId} {context context' : Context} (hc : t.Chain sid context)
    (hc' : t'.Chain sid' context') (hi : Context.Includes π context context')
    (hhome : t.ResolvesHome sid) (hhome' : t'.ResolvesHome sid') (h : t.Placed e sid)
    (h' : t'.Placed (e.mapIds π) sid') (hclean : Clean (expressionSites globals e context)) :
    ExpressionPaired t t' π e := by
  induction e generalizing sid sid' context context' with
  | IntLiteral id value => trivial
  | Variable id name =>
    have hpaired := variableTarget_included hw hw' hc hc' hi hhome hhome'
      (hclean _ List.mem_cons_self)
    rw [← h.2, ← h'.2] at hpaired
    exact hpaired
  | BinaryOperator kind id l r ihl ihr =>
    obtain ⟨hl, hr⟩ := clean_append.mp hclean
    exact ⟨ihl hc hc' hi hhome hhome' h.2.1 h'.2.1 hl, ihr hc hc' hi hhome hhome' h.2.2 h'.2.2 hr⟩
  | Application id f a ihf iha =>
    obtain ⟨hcf, hca⟩ := clean_append.mp hclean
    exact ⟨ihf hc hc' hi hhome hhome' h.2.1 h'.2.1 hcf, iha hc hc' hi hhome hhome' h.2.2 h'.2.2 hca⟩
  | CaseExpression id s bs ihs ihbs =>
    obtain ⟨_, hs, hbs⟩ := h
    obtain ⟨_, hs', hbs'⟩ := h'
    obtain ⟨hcs, hcbs⟩ := clean_append.mp hclean
    rw [placedBranches_iff] at hbs hbs'
    rw [mapIdsBranches_eq] at hbs'
    refine ⟨ihs hc hc' hi hhome hhome' hs hs' hcs, (branchesPaired_iff t t' π).mpr fun b hb => ?_⟩
    obtain ⟨bsid, hscope, _, hp, hbody⟩ := hbs b hb
    obtain ⟨bsid', hscope', _, hp', hbody'⟩ := hbs' _ (List.mem_map.mpr ⟨b, hb, rfl⟩)
    have howns := pattern_owns hp.1
    have howns' := pattern_owns hp'.1
    refine ⟨patternPaired_of_clean hw hw' hglobals hf hp hp' fun site hsite =>
      hcbs site (mem_branchSites.mpr ⟨b, hb, .inl hsite⟩), ?_⟩
    exact ihbs b hb (hc.branch hscope hp.2.1) (hc'.branch hscope' hp'.2.1)
      (Context.Includes.cons (Pattern.binders_renames π b.pattern) hi)
      (hhome.nested hw hc hscope hp.2.1 howns) (hhome'.nested hw' hc' hscope' hp'.2.1 howns')
      hbody hbody' fun site hsite => hcbs site (mem_branchSites.mpr ⟨b, hb, .inr hsite⟩)

/-- The scope trees that the analyzer makes of a part in order, and of a whole
in which no global name repeats. -/
theorem partPaired (h : t.Scopes program) (h' : t'.Scopes program') (hrooted : t.GlobalsRooted)
    (hrooted' : t'.GlobalsRooted) (hpart : PartOf π program program')
    (hbuiltin : π kInvalidNodeId = kInvalidNodeId) (hclean : Clean (programSites program))
    (hnodup' : ((globalFrame program').map (·.name)).Nodup) : PartPaired t t' π program := by
  have hw := h.wellFormed
  have hw' := h'.wellFormed
  have hi := globalFrame_includes hpart hbuiltin hnodup'
  have hglobals : ∀ name s, t.getLocalSymbol getRootScopeId name = some s →
      ∃ s', t'.getLocalSymbol getRootScopeId name = some s' ∧ Paired t t' π s s' := by
    intro name s hs
    have hframe := h.globals name
    rw [show t.getLocalSymbol 0 name = some s from hs, Option.map_some] at hframe
    have hframe' := h'.globals name
    rw [hi name _ hframe.symm] at hframe'
    obtain ⟨s', hs', hbinder⟩ := Option.map_eq_some_iff.mp hframe'
    exact ⟨s', hs', h.atHome hs, h'.atHome hs', hbinder⟩
  refine ⟨hw, hw', hrooted, hrooted', hglobals, fun fd hfd => ?_⟩
  obtain ⟨fsid, hscope, hid, hf, hplaced⟩ := h.functions fd hfd
  obtain ⟨fsid', hscope', hid', hf', hplaced'⟩ := h'.functions _ (hpart.function hfd)
  have hframe := parameterFrame_renames π fd
  have howns := parameter_owns hid
  have howns' := parameter_owns hid'
  obtain ⟨_, hbodies⟩ := clean_append.mp hclean
  obtain ⟨_, hbody⟩ := clean_append.mp (clean_flatMap.mp hbodies _ hfd)
  refine ⟨⟨fsid, fsid', hid, hid', scope_paired hw hw' hf hf' hframe howns howns'⟩, ?_⟩
  exact expressionPaired_of_clean hw hw' hglobals h.globals (h.chain.branch hscope hf)
    (h'.chain.branch hscope' hf')
    (Context.Includes.cons hframe (Context.includes_globals hi))
    (h.resolvesHome.nested hw h.chain hscope hf howns)
    (h'.resolvesHome.nested hw' h'.chain hscope' hf' howns') hplaced hplaced' hbody

end

end mf.semantics
