-- Evaluation of a part of a program in the whole: the same values and the same
-- failures, with function calls and without. Environments and results differ
-- in the ids of symbols only.
import MiniFunctional.Evaluation
import MiniFunctional.ExceptLaws
import MiniFunctional.RestrictedTypings

open mf.util mf.ast mf.parsing mf.semantics mf.visitors ExceptLaws

namespace mf.evaluation

open ScopeTree

/-- Paired symbols have the same values. -/
def DataPaired (t t' : ScopeTree) (π : NodeId → NodeId) (env env' : Environment (BitVec 64)) :
    Prop := ∀ s s', Paired t t' π s s' → env.find s.id = env'.find s'.id

/-- The same value, or paired symbols with the same arguments. -/
inductive ResultPaired (t t' : ScopeTree) (π : NodeId → NodeId) : Result → Result → Prop
  | value (datum : Datum) : ResultPaired t t' π (.value datum) (.value datum)
  | applied {s s' : Symbol} (arguments : List Datum) : Paired t t' π s s' →
    ResultPaired t t' π (.applied s arguments) (.applied s' arguments)

section

variable {t t' : ScopeTree} {π : Equiv.Perm NodeId}

theorem dataPaired_empty (t t' : ScopeTree) (π : NodeId → NodeId) :
    DataPaired t t' π .empty .empty := fun _ _ _ => rfl

theorem ResultPaired.datum {r r' : Result} (h : ResultPaired t t' π r r') :
    Corresponds Eq r.datum r'.datum := by
  cases h with
  | value datum => exact .ok rfl
  | applied arguments hs => exact .error _

/-! ## Matching -/

section

variable (hw : t.WellFormed) (hw' : t'.WellFormed)

include hw hw'

theorem DataPaired.insert {env env' : Environment (BitVec 64)} (henv : DataPaired t t' π env env')
    {s s' : Symbol} (hs : Paired t t' π s s') (value : Datum) :
    DataPaired t t' π (env.insert s.id value) (env'.insert s'.id value) := by
  intro q q' hq
  rw [AssocMap.find_insert, AssocMap.find_insert]
  have hiff := hq.id_eq_iff hw hw' hs
  by_cases hid : q.id = s.id
  · rw [if_pos hid, if_pos (hiff.mp hid)]
  · rw [if_neg hid, if_neg fun h => hid (hiff.mpr h)]
    exact henv q q' hq

theorem bindNames_paired {id : NodeId} (hscope : ScopePaired t t' π id) (names : List String)
    (values : List Datum) {env env' : Environment (BitVec 64)} (henv : DataPaired t t' π env env') :
    Corresponds (DataPaired t t' π) (bindNames t id names values env)
      (bindNames t' (π id) names values env') := by
  induction names generalizing values env env' with
  | nil =>
    cases values with
    | nil => exact .ok henv
    | cons value values => exact .error _
  | cons name names ih =>
    cases values with
    | nil => exact .error _
    | cons value values =>
      obtain ⟨sid, sid', hsid, hsid', hnames⟩ := hscope
      have hrel := hnames name
      unfold bindNames
      rw [hsid, hsid', Option.bind_some, Option.bind_some]
      cases hs : t.getLocalSymbol sid name with
      | none =>
        rw [hs] at hrel
        rw [rel_none hrel]
        exact .error _
      | some s =>
        rw [hs] at hrel
        obtain ⟨s', hs', hpaired⟩ := rel_some hrel
        rw [hs']
        exact ih values (henv.insert hw hw' hpaired value)

theorem matchValue_paired {pattern : Pattern} (hpattern : PatternPaired t t' π pattern)
    (value : Datum) {env env' : Environment (BitVec 64)} (henv : DataPaired t t' π env env') :
    Corresponds (Option.Rel (DataPaired t t' π)) (matchValue t pattern value env)
      (matchValue t' (pattern.mapIds π) value env') := by
  obtain ⟨hscope, huse⟩ := hpattern
  cases pattern with
  | VariablePattern id name =>
    exact (bindNames_paired hw hw' hscope [name] [value] henv).map fun _ _ h => .some h
  | ConstructorPattern id name arguments =>
    have hrel : UsePaired t t' π id := huse
    unfold UsePaired at hrel
    unfold matchValue Pattern.mapIds
    simp only
    cases hctor : t.getResolvedSymbol id with
    | none =>
      rw [hctor] at hrel
      rw [rel_none hrel]
      exact .error _
    | some ctor =>
      rw [hctor] at hrel
      obtain ⟨ctor', hctor', hpaired⟩ := rel_some hrel
      rw [hctor']
      cases value with
      | int n => exact .ok .none
      | ConstructedValue name' fields =>
        simp only [hpaired.name]
        by_cases hmatch : name' = ctor.name ∧ fields.length = arguments.length
        · rw [if_pos hmatch, if_pos hmatch]
          exact (bindNames_paired hw hw' hscope arguments fields henv).map fun _ _ h => .some h
        · rw [if_neg hmatch, if_neg hmatch]
          exact .ok .none

end

/-! ## Expressions -/

variable {program program' : Program} {types types' : TypeTable} {τ τ' : Typing}
  (h : Embedded t t' π program program' types types' τ τ')

include h

/-- Paired functions have the same parameters and renamed bodies. -/
theorem function_paired {s s' : Symbol} (hpaired : Paired t t' π s s')
    (hkind : s.kind = .Function) : ∃ fd, .FunctionDefinition fd ∈ program.definitions ∧
    findFunctionById program s.declaration = some fd ∧
    findFunctionById program' s'.declaration = some (fd.mapIds π) := by
  have hsymbol := hpaired.atHome.getSymbol h.paired.wellFormed
  obtain ⟨hlocal, _⟩ := h.paired.rooted.find hsymbol (by rw [hkind]; rfl)
  obtain ⟨fd, hfd, _, hdeclaration⟩ := function_declared h.checked.scopes hlocal hkind
  refine ⟨fd, hfd, ?_, ?_⟩
  · rw [hdeclaration]
    exact findFunctionById_eq h.checked.ids hfd
  · rw [hpaired.declaration, hdeclaration]
    exact findFunctionById_eq h.checked'.ids (h.part.function hfd)

theorem arity_paired {s s' : Symbol} (hpaired : Paired t t' π s s') :
    arity program types s = arity program' types' s' := by
  unfold arity
  rw [hpaired.kind]
  cases hkind : s.kind with
  | Constructor =>
    obtain ⟨signature, hfind, hfind'⟩ := h.constructorSignature hpaired hkind
    simp only [hfind, hfind', Option.map_some]
    congr 1
    exact (List.length_map _).symm
  | Function =>
    obtain ⟨fd, _, hfind, hfind'⟩ := function_paired h hpaired hkind
    simp only [hfind, hfind', Option.map_some]
    rfl
  | _ => rfl

variable {calls calls' : Symbol → List Datum → Evaluated Datum}
  (hcalls : ∀ s s' arguments, Paired t t' π s s' → s.kind = .Function →
    calls s arguments = calls' s' arguments)

include hcalls

theorem complete_paired {s s' : Symbol} (hpaired : Paired t t' π s s') (arguments : List Datum) :
    Corresponds (ResultPaired t t' π) (complete program types calls s arguments)
      (complete program' types' calls' s' arguments) := by
  unfold complete
  rw [← arity_paired h hpaired]
  cases harity : arity program types s with
  | none => exact .error _
  | some n =>
    simp only
    by_cases hlen : arguments.length = n
    · rw [if_pos hlen, if_pos hlen, hpaired.kind, hpaired.name]
      by_cases hctor : s.kind = .Constructor
      · rw [if_pos hctor, if_pos hctor]
        exact .ok (.value _)
      · rw [if_neg hctor, if_neg hctor]
        have hkind : s.kind = .Function := by
          unfold arity at harity
          cases hkind : s.kind <;> simp_all
        rw [hcalls s s' arguments hpaired hkind]
        refine (corresponds_refl _).map fun _ _ heq => ?_
        rw [heq]
        exact .value _
    · rw [if_neg hlen, if_neg hlen]
      exact .ok (.applied arguments hpaired)

theorem evalVariable_paired {id : NodeId} (huse : UsePaired t t' π id)
    {env env' : Environment (BitVec 64)} (henv : DataPaired t t' π env env') :
    Corresponds (ResultPaired t t' π) (evalVariable program t types calls id env)
      (evalVariable program' t' types' calls' (π id) env') := by
  unfold UsePaired at huse
  unfold evalVariable
  cases hs : t.getResolvedSymbol id with
  | none =>
    rw [hs] at huse
    rw [rel_none huse]
    exact .error _
  | some s =>
    rw [hs] at huse
    obtain ⟨s', hs', hpaired⟩ := rel_some huse
    rw [hs']
    simp only [hpaired.kind, ← henv s s' hpaired]
    by_cases hctor : s.kind = .Constructor
    · rw [if_pos hctor, if_pos hctor]
      exact complete_paired h hcalls hpaired []
    · rw [if_neg hctor, if_neg hctor]
      cases env.find s.id with
      | none => exact complete_paired h hcalls hpaired []
      | some value => exact .ok (.value value)

/-- An expression of the part evaluates in the whole as in the part, when calls do. -/
theorem eval_paired {e : Expression} (he : ExpressionPaired t t' π e)
    {env env' : Environment (BitVec 64)} (henv : DataPaired t t' π env env') :
    Corresponds (ResultPaired t t' π) (eval program t types calls e env)
      (eval program' t' types' calls' (e.mapIds π) env') := by
  induction e generalizing env env' with
  | IntLiteral id value => exact .ok (.value _)
  | Variable id name => exact evalVariable_paired h hcalls he henv
  | BinaryOperator kind id l r ihl ihr =>
    simp only [eval, Expression.mapIds]
    apply (ihl he.1 henv).bind
    intro left left' hleft
    apply hleft.datum.bind
    rintro a _ rfl
    apply (corresponds_refl _).bind
    rintro n _ rfl
    apply (ihr he.2 henv).bind
    intro right right' hright
    apply hright.datum.bind
    rintro b _ rfl
    apply (corresponds_refl _).bind
    rintro m _ rfl
    apply (corresponds_refl _).bind
    rintro k _ rfl
    exact .ok (.value _)
  | Application id f a ihf iha =>
    simp only [eval, Expression.mapIds]
    apply (ihf he.1 henv).bind
    intro func func' hfunc
    apply (iha he.2 henv).bind
    intro r r' hr
    apply hr.datum.bind
    rintro arg _ rfl
    cases hfunc with
    | value datum => exact .error _
    | applied arguments hpaired => exact complete_paired h hcalls hpaired _
  | CaseExpression id s bs ihs ihbs =>
    obtain ⟨hes, hebs⟩ := he
    have hbranches : ∀ value, Corresponds (ResultPaired t t' π)
        (evalBranches program t types calls bs value env)
        (evalBranches program' t' types' calls' (mapIdsBranches π bs) value env') := by
      intro value
      clear ihs hes
      induction bs with
      | nil => exact .error _
      | cons b bs ih =>
        obtain ⟨bid, pattern, body⟩ := b
        obtain ⟨hpattern, hbody, hrest⟩ := hebs
        simp only [evalBranches, mapIdsBranches]
        apply (matchValue_paired h.paired.wellFormed h.paired.wellFormed' hpattern value henv).bind
        intro matched matched' hmatched
        cases hmatched with
        | none => exact ih (fun b hb => ihbs b (List.mem_cons_of_mem _ hb)) hrest
        | some hbound => exact ihbs _ List.mem_cons_self hbody hbound
    simp only [eval, Expression.mapIds]
    apply (ihs hes henv).bind
    intro r r' hr
    apply hr.datum.bind
    rintro value _ rfl
    exact hbranches value

omit hcalls in
/-- A function of the part is called in the whole as in the part. -/
theorem callWithin_paired (fuel : Nat) {s s' : Symbol} (hpaired : Paired t t' π s s')
    (hkind : s.kind = .Function) (arguments : List Datum) :
    callWithin program t types fuel s arguments =
      callWithin program' t' types' fuel s' arguments := by
  induction fuel generalizing s s' arguments with
  | zero => rfl
  | succ fuel ih =>
    obtain ⟨fd, hfd, hfind, hfind'⟩ := function_paired h hpaired hkind
    obtain ⟨hscope, hbody⟩ := h.paired.functions fd hfd
    unfold callWithin
    rw [hfind, hfind']
    apply Corresponds.eq
    apply (bindNames_paired h.paired.wellFormed h.paired.wellFormed' hscope fd.parameters arguments
      (dataPaired_empty t t' π)).bind
    intro env env' henv
    apply (eval_paired h (fun s s' arguments hs hkind => ih hs hkind arguments) hbody henv).bind
    intro r r' hr
    exact hr.datum

omit hcalls in
theorem calls_paired {s s' : Symbol} (hpaired : Paired t t' π s s') (hkind : s.kind = .Function)
    (arguments : List Datum) (outcome : Evaluated Datum) :
    Calls program t types s arguments outcome ↔ Calls program' t' types' s' arguments outcome := by
  unfold Calls
  simp only [callWithin_paired h _ hpaired hkind arguments]

end

end mf.evaluation
