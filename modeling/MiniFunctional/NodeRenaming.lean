-- Programs that differ in their node ids and in the order of their
-- definitions: the ids of one are a renaming of the ids of the other.
import MiniFunctional.Ast
import Mathlib.Data.List.Forall2
import Mathlib.Data.List.Perm.Basic
import Mathlib.Logic.Equiv.Basic

namespace mf.ast

/-! ## Renaming -/

def Pattern.mapIds (π : NodeId → NodeId) : Pattern → Pattern
  | .VariablePattern id name => .VariablePattern (π id) name
  | .ConstructorPattern id name arguments => .ConstructorPattern (π id) name arguments

mutual

@[simp] def Expression.mapIds (π : NodeId → NodeId) : Expression → Expression
  | .IntLiteral id value => .IntLiteral (π id) value
  | .Variable id name => .Variable (π id) name
  | .BinaryOperator kind id left right =>
    .BinaryOperator kind (π id) (left.mapIds π) (right.mapIds π)
  | .Application id function argument =>
    .Application (π id) (function.mapIds π) (argument.mapIds π)
  | .CaseExpression id scrutinee branches =>
    .CaseExpression (π id) (scrutinee.mapIds π) (mapIdsBranches π branches)

@[simp] def mapIdsBranches (π : NodeId → NodeId) : List Branch → List Branch
  | [] => []
  | ⟨id, pattern, body⟩ :: branches =>
    ⟨π id, pattern.mapIds π, body.mapIds π⟩ :: mapIdsBranches π branches

end

def Branch.mapIds (π : NodeId → NodeId) (b : Branch) : Branch :=
  ⟨π b.id, b.pattern.mapIds π, b.body.mapIds π⟩

theorem mapIdsBranches_eq (π : NodeId → NodeId) (bs : List Branch) :
    mapIdsBranches π bs = bs.map (Branch.mapIds π) := by
  induction bs with
  | nil => rfl
  | cons b bs ih =>
    obtain ⟨id, p, e⟩ := b
    simp [Branch.mapIds, ih]

def Constructor.mapIds (π : NodeId → NodeId) (c : Constructor) : Constructor :=
  { c with id := π c.id }

def FunctionDefinition.mapIds (π : NodeId → NodeId) (fd : FunctionDefinition) :
    FunctionDefinition := { fd with id := π fd.id, body := fd.body.mapIds π }

def DataTypeDefinition.mapIds (π : NodeId → NodeId) (dt : DataTypeDefinition) :
    DataTypeDefinition :=
  { dt with id := π dt.id, constructors := dt.constructors.map (Constructor.mapIds π) }

def Definition.mapIds (π : NodeId → NodeId) : Definition → Definition
  | .FunctionDefinition fd => .FunctionDefinition (fd.mapIds π)
  | .DataTypeDefinition dt => .DataTypeDefinition (dt.mapIds π)

section

variable (π : Equiv.Perm NodeId)

theorem Pattern.mapIds_symm (p : Pattern) : (p.mapIds π).mapIds π.symm = p := by
  cases p <;> simp [Pattern.mapIds]

theorem Expression.mapIds_symm (e : Expression) : (e.mapIds π).mapIds π.symm = e := by
  induction e with
  | IntLiteral id value => simp
  | Variable id name => simp
  | BinaryOperator kind id l r ihl ihr => simp [ihl, ihr]
  | Application id f a ihf iha => simp [ihf, iha]
  | CaseExpression id s bs ihs ihbs =>
    have hbs : ∀ b ∈ bs, (b.mapIds π).mapIds π.symm = b := by
      rintro ⟨bid, p, e⟩ hb
      have he := ihbs _ hb
      simp only [Branch.mapIds, Pattern.mapIds_symm, Equiv.symm_apply_apply] at he ⊢
      rw [he]
    have hmap := List.map_congr_left (f := Branch.mapIds π.symm ∘ Branch.mapIds π)
      (g := fun b => b) hbs
    rw [List.map_id'] at hmap
    simp only [Expression.mapIds, mapIdsBranches_eq, List.map_map, ihs, hmap,
      Equiv.symm_apply_apply]

theorem Definition.mapIds_symm (d : Definition) : (d.mapIds π).mapIds π.symm = d := by
  cases d with
  | FunctionDefinition fd =>
    simp [Definition.mapIds, FunctionDefinition.mapIds, Expression.mapIds_symm]
  | DataTypeDefinition dt =>
    have hc : ∀ c : Constructor, (c.mapIds π).mapIds π.symm = c := by
      intro c
      simp [Constructor.mapIds]
    simp [Definition.mapIds, DataTypeDefinition.mapIds, Function.comp_def, hc]

end

/-! ## Trees that are equal but for their ids -/

section

variable {π : NodeId → NodeId}

theorem Pattern.eq_mapIds {p p' : Pattern} (h : p.withoutIds = p'.withoutIds)
    (hid : π p.id = p'.id) : p' = p.mapIds π := by
  cases p <;> cases p' <;> simp_all [Pattern.withoutIds, Pattern.mapIds, Pattern.id]

theorem Pattern.id_mapIds (π : NodeId → NodeId) (p : Pattern) : (p.mapIds π).id = π p.id := by
  cases p <;> rfl

theorem Expression.length_ids (e : Expression) : e.withoutIds.ids.length = e.ids.length := by
  induction e with
  | IntLiteral id value => rfl
  | Variable id name => rfl
  | BinaryOperator kind id l r ihl ihr | Application id l r ihl ihr =>
    simp [Expression.withoutIds, Expression.ids, ihl, ihr]
  | CaseExpression id s bs ihs ihbs =>
    have hbs : (idsBranches (withoutIdsBranches bs)).length = (idsBranches bs).length := by
      clear ihs
      induction bs with
      | nil => rfl
      | cons b bs ih =>
        obtain ⟨bid, p, e⟩ := b
        have he := ihbs _ List.mem_cons_self
        have hrest := ih fun b hb => ihbs b (List.mem_cons_of_mem _ hb)
        simp only [withoutIdsBranches, idsBranches, List.length_cons, List.length_append] at he ⊢
        rw [he, hrest]
    simp [Expression.withoutIds, Expression.ids, ihs, hbs]

theorem map_append_eq {l r l' r' : List NodeId} (h : (l ++ r).map π = l' ++ r')
    (hlen : l.length = l'.length) : l.map π = l' ∧ r.map π = r' := by
  rw [List.map_append] at h
  exact List.append_inj h (by rw [List.length_map, hlen])

theorem Expression.length_ids_eq {e e' : Expression} (h : e.withoutIds = e'.withoutIds) :
    e.ids.length = e'.ids.length := by
  rw [← length_ids e, h, length_ids e']

/-- Two expressions that differ in their ids only, which `π` takes one by one
to each other. -/
theorem Expression.eq_mapIds {e e' : Expression} (h : e.withoutIds = e'.withoutIds)
    (hids : e.ids.map π = e'.ids) : e' = e.mapIds π := by
  induction e generalizing e' with
  | IntLiteral id value =>
    cases e' <;> simp_all [Expression.withoutIds, Expression.ids]
  | Variable id name =>
    cases e' <;> simp_all [Expression.withoutIds, Expression.ids]
  | BinaryOperator kind id l r ihl ihr =>
    cases e' with
    | BinaryOperator kind' id' l' r' =>
      simp only [withoutIds, Expression.BinaryOperator.injEq, true_and] at h
      obtain ⟨rfl, hl, hr⟩ := h
      simp only [ids, List.map_cons, List.cons.injEq] at hids
      obtain ⟨rfl, hids⟩ := hids
      obtain ⟨hidl, hidr⟩ := map_append_eq hids (length_ids_eq hl)
      rw [ihl hl hidl, ihr hr hidr]
      rfl
    | _ => simp [withoutIds] at h
  | Application id f a ihf iha =>
    cases e' with
    | Application id' f' a' =>
      simp only [withoutIds, Expression.Application.injEq, true_and] at h
      obtain ⟨hf, ha⟩ := h
      simp only [ids, List.map_cons, List.cons.injEq] at hids
      obtain ⟨rfl, hids⟩ := hids
      obtain ⟨hidf, hida⟩ := map_append_eq hids (length_ids_eq hf)
      rw [ihf hf hidf, iha ha hida]
      rfl
    | _ => simp [withoutIds] at h
  | CaseExpression id s bs ihs ihbs =>
    cases e' with
    | CaseExpression id' s' bs' =>
      simp only [withoutIds, Expression.CaseExpression.injEq, true_and] at h
      obtain ⟨hs, hbs⟩ := h
      simp only [ids, List.map_cons, List.cons.injEq] at hids
      obtain ⟨rfl, hids⟩ := hids
      obtain ⟨hidss, hidbs⟩ := map_append_eq hids (length_ids_eq hs)
      have hbranches : bs' = mapIdsBranches π bs := by
        clear ihs hids
        induction bs generalizing bs' with
        | nil =>
          cases bs' with
          | nil => rfl
          | cons b' bs' => simp [withoutIdsBranches_eq] at hbs
        | cons b bs ih =>
          obtain ⟨bid, p, e⟩ := b
          cases bs' with
          | nil => simp [withoutIdsBranches_eq] at hbs
          | cons b' bs' =>
            obtain ⟨bid', p', e'⟩ := b'
            simp only [withoutIdsBranches, List.cons.injEq, Branch.mk.injEq, true_and] at hbs
            obtain ⟨⟨hp, he⟩, hbs⟩ := hbs
            simp only [idsBranches, List.map_cons, List.cons.injEq] at hidbs
            obtain ⟨rfl, hidp, hidbs⟩ := hidbs
            obtain ⟨hide, hidrest⟩ := map_append_eq hidbs (length_ids_eq he)
            rw [mapIdsBranches, ← Pattern.eq_mapIds hp hidp,
              ← ihbs _ List.mem_cons_self he hide,
              ← ih (fun b hb => ihbs b (List.mem_cons_of_mem _ hb)) bs' hbs hidrest]
      rw [ihs hs hidss, hbranches]
      rfl
    | _ => simp [withoutIds] at h

theorem Constructor.eq_mapIds {c c' : Constructor} (h : c.withoutIds = c'.withoutIds)
    (hid : π c.id = c'.id) : c' = c.mapIds π := by
  obtain ⟨id, name, fields⟩ := c
  obtain ⟨id', name', fields'⟩ := c'
  simp only [Constructor.withoutIds, Constructor.mk.injEq, true_and] at h
  obtain ⟨rfl, rfl⟩ := h
  simp only [Constructor.mapIds, hid]

theorem Definition.eq_mapIds {d d' : Definition} (h : d.withoutIds = d'.withoutIds)
    (hids : d.ids.map π = d'.ids) : d' = d.mapIds π := by
  cases d with
  | FunctionDefinition fd =>
    obtain ⟨id, name, parameters, body⟩ := fd
    cases d' with
    | DataTypeDefinition dt' => simp [withoutIds] at h
    | FunctionDefinition fd' =>
      obtain ⟨id', name', parameters', body'⟩ := fd'
      simp only [withoutIds, Definition.FunctionDefinition.injEq, FunctionDefinition.mk.injEq,
        true_and] at h
      obtain ⟨rfl, rfl, hbody⟩ := h
      simp only [ids, List.map_cons, List.cons.injEq] at hids
      obtain ⟨rfl, hids⟩ := hids
      rw [Expression.eq_mapIds hbody hids]
      rfl
  | DataTypeDefinition dt =>
    obtain ⟨id, name, constructors⟩ := dt
    cases d' with
    | FunctionDefinition fd' => simp [withoutIds] at h
    | DataTypeDefinition dt' =>
      obtain ⟨id', name', constructors'⟩ := dt'
      simp only [withoutIds, Definition.DataTypeDefinition.injEq, DataTypeDefinition.mk.injEq,
        true_and] at h
      obtain ⟨rfl, hcs⟩ := h
      simp only [ids, List.map_cons, List.cons.injEq] at hids
      obtain ⟨rfl, hids⟩ := hids
      have hmap : constructors' = constructors.map (Constructor.mapIds π) := by
        induction constructors generalizing constructors' with
        | nil => simpa using hcs
        | cons c cs ih =>
          cases constructors' with
          | nil => simp at hcs
          | cons c' cs' =>
            simp only [List.map_cons, List.cons.injEq] at hcs hids
            rw [List.map_cons, ← Constructor.eq_mapIds hcs.1 hids.1, ← ih cs' hcs.2 hids.2]
      rw [hmap]
      rfl

end

theorem Definition.length_ids (d : Definition) : d.withoutIds.ids.length = d.ids.length := by
  cases d with
  | FunctionDefinition fd => simp [withoutIds, ids, Expression.length_ids]
  | DataTypeDefinition dt => simp [withoutIds, ids]

theorem Definition.length_ids_eq {d d' : Definition} (h : d.withoutIds = d'.withoutIds) :
    d.ids.length = d'.ids.length := by
  rw [← length_ids d, h, length_ids d']

/-! ## Programs -/

theorem Program.length_ids (program : Program) :
    program.withoutIds.ids.length = program.ids.length := by
  simp [withoutIds, ids, List.length_flatMap, Function.comp_def, Definition.length_ids]

/-- `π` takes the definitions of the one program, node by node, to those of the
other, which may stand in another order. -/
def Reordered (π : NodeId → NodeId) (program program' : Program) : Prop :=
  program'.definitions.Perm (program.definitions.map (Definition.mapIds π))

theorem Reordered.symm {π : Equiv.Perm NodeId} {program program' : Program}
    (h : Reordered π program program') : Reordered π.symm program' program := by
  have hback : Definition.mapIds π.symm ∘ Definition.mapIds π = fun d => d :=
    funext (Definition.mapIds_symm π)
  have hmap := (h.map (Definition.mapIds π.symm)).symm
  rw [List.map_map, hback, List.map_id'] at hmap
  exact hmap

theorem Reordered.function {π : NodeId → NodeId} {program program' : Program}
    (h : Reordered π program program') {fd : FunctionDefinition}
    (hfd : .FunctionDefinition fd ∈ program.definitions) :
    .FunctionDefinition (fd.mapIds π) ∈ program'.definitions :=
  h.mem_iff.mpr (List.mem_map.mpr ⟨_, hfd, rfl⟩)

theorem Reordered.dataType {π : NodeId → NodeId} {program program' : Program}
    (h : Reordered π program program') {dt : DataTypeDefinition}
    (hdt : .DataTypeDefinition dt ∈ program.definitions) :
    .DataTypeDefinition (dt.mapIds π) ∈ program'.definitions :=
  h.mem_iff.mpr (List.mem_map.mpr ⟨_, hdt, rfl⟩)

theorem Reordered.function_right {π : NodeId → NodeId} {program program' : Program}
    (h : Reordered π program program') {fd' : FunctionDefinition}
    (hfd' : .FunctionDefinition fd' ∈ program'.definitions) :
    ∃ fd, .FunctionDefinition fd ∈ program.definitions ∧ fd' = fd.mapIds π := by
  obtain ⟨d, hd, hmap⟩ := List.mem_map.mp (h.mem_iff.mp hfd')
  cases d with
  | DataTypeDefinition dt => cases hmap
  | FunctionDefinition fd =>
    cases hmap
    exact ⟨fd, hd, rfl⟩

theorem Reordered.dataType_right {π : NodeId → NodeId} {program program' : Program}
    (h : Reordered π program program') {dt' : DataTypeDefinition}
    (hdt' : .DataTypeDefinition dt' ∈ program'.definitions) :
    ∃ dt, .DataTypeDefinition dt ∈ program.definitions ∧ dt' = dt.mapIds π := by
  obtain ⟨d, hd, hmap⟩ := List.mem_map.mp (h.mem_iff.mp hdt')
  cases d with
  | FunctionDefinition fd => cases hmap
  | DataTypeDefinition dt =>
    cases hmap
    exact ⟨dt, hd, rfl⟩

/-- Two lists of the same numbers are a renaming of each other, which leaves
the other numbers as they are. -/
theorem exists_renaming {l l' : List NodeId} (h : l.Perm l') (hnodup : l.Nodup) :
    ∃ π : Equiv.Perm NodeId, l.map π = l' ∧ ∀ id ∉ l, π id = id := by
  induction h with
  | nil => exact ⟨Equiv.refl NodeId, rfl, fun id _ => rfl⟩
  | @cons x l l' _ ih =>
    rw [List.nodup_cons] at hnodup
    obtain ⟨π, hmap, hfix⟩ := ih hnodup.2
    refine ⟨π, ?_, fun id hid => hfix id fun hin => hid (List.mem_cons_of_mem _ hin)⟩
    rw [List.map_cons, hmap, hfix x hnodup.1]
  | swap x y l =>
    simp only [List.nodup_cons, List.mem_cons, not_or] at hnodup
    obtain ⟨⟨hyx, hy⟩, hx, _⟩ := hnodup
    refine ⟨Equiv.swap x y, ?_, fun id hid => ?_⟩
    · have hrest : l.map (Equiv.swap x y) = l := by
        have hsame : ∀ id ∈ l, Equiv.swap x y id = id := fun id hid =>
          Equiv.swap_apply_of_ne_of_ne (fun h => hx (h ▸ hid)) fun h => hy (h ▸ hid)
        rw [List.map_congr_left (g := fun id => id) hsame, List.map_id']
      rw [List.map_cons, List.map_cons, Equiv.swap_apply_right, Equiv.swap_apply_left, hrest]
    · simp only [List.mem_cons, not_or] at hid
      exact Equiv.swap_apply_of_ne_of_ne hid.2.1 hid.1
  | trans h h' ih ih' =>
    obtain ⟨π, hmap, hfix⟩ := ih hnodup
    obtain ⟨π', hmap', hfix'⟩ := ih' (h.nodup_iff.mp hnodup)
    refine ⟨π.trans π', ?_, fun id hid => ?_⟩
    · rw [← hmap', ← hmap, List.map_map]
      rfl
    · rw [Equiv.trans_apply, hfix id hid, hfix' id fun hin => hid (h.mem_iff.mpr hin)]

theorem definitions_eq_mapIds {π : NodeId → NodeId} {ds ds' : List Definition}
    (h : List.Forall₂ (fun d d' => d.withoutIds = d'.withoutIds) ds ds')
    (hids : (ds.flatMap Definition.ids).map π = ds'.flatMap Definition.ids) :
    ds' = ds.map (Definition.mapIds π) := by
  induction h with
  | nil => rfl
  | @cons d d' ds ds' hd _ ih =>
    rw [List.flatMap_cons, List.flatMap_cons] at hids
    obtain ⟨hhead, hrest⟩ := map_append_eq hids (Definition.length_ids_eq hd)
    rw [List.map_cons, ← Definition.eq_mapIds hd hhead, ← ih hrest]

/-- Programs of the same definitions, up to ids and in any order, whose nodes
are numbered by the same ids. -/
theorem exists_reordered {program program' : Program}
    (h : program.withoutIds.definitions.Perm program'.withoutIds.definitions)
    (hids : program.ids.Perm program'.ids) (hnodup : program.ids.Nodup) :
    ∃ π : Equiv.Perm NodeId, Reordered π program program' ∧ ∀ id ∉ program.ids, π id = id := by
  -- the definitions of `program'` in the order of those of `program`
  obtain ⟨ds, hds, hsame⟩ : ∃ ds, ds.Perm program'.definitions ∧
      List.Forall₂ (fun d d' => d.withoutIds = d'.withoutIds) program.definitions ds := by
    have hsame : List.Forall₂ (fun d d' => d = Definition.withoutIds d')
        program'.withoutIds.definitions program'.definitions := by
      rw [Program.withoutIds, List.forall₂_map_left_iff, List.forall₂_same]
      exact fun _ _ => rfl
    obtain ⟨ds, hds, hperm⟩ := List.perm_comp_forall₂ h hsame
    rw [Program.withoutIds, List.forall₂_map_left_iff] at hds
    exact ⟨ds, hperm, hds⟩
  have hperm : (program.definitions.flatMap Definition.ids).Perm (ds.flatMap Definition.ids) :=
    hids.trans (hds.symm.flatMap_right _)
  obtain ⟨π, hmap, hfix⟩ := exists_renaming hperm hnodup
  refine ⟨π, ?_, hfix⟩
  unfold Reordered
  rw [← definitions_eq_mapIds hsame hmap]
  exact hds.symm

end mf.ast
