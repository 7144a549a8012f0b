-- Name resolution is lexical scoping, and the analyzer's diagnostics are just
-- the violations.
import MiniFunctional.Resolution
import MiniFunctional.Writable

open mf.util mf.ast mf.parsing mf.tokenization

namespace mf.semantics

open ScopeTree

/-! ## The case of names

The parser makes types and constructors of upper-case names, and all else of
lower-case names. -/

def Binder.Cased (b : Binder) : Prop :=
  startsWithUppercase b.name = (isTypeSymbol b.kind || b.kind = .Constructor)

theorem variableError_isSome {b : Binder} (h : b.Cased) :
    (variableError b.name b.kind).isSome = isTypeSymbol b.kind := by
  unfold Binder.Cased at h
  unfold variableError
  cases hk : b.kind <;> simp_all [isTypeSymbol, isValueSymbol]

theorem Frame.lookup_mem {frame : Frame} {name : String} {b : Binder}
    (h : frame.lookup name = some b) : b ∈ frame ∧ b.name = name := by
  refine ⟨List.mem_of_find?_eq_some h, ?_⟩
  have := List.find?_some h
  simpa using this

theorem Context.lookup_mem {context : Context} {name : String} {b : Binder}
    (h : context.lookup name = some b) : (∃ frame ∈ context, b ∈ frame) ∧ b.name = name := by
  induction context with
  | nil => cases h
  | cons frame outer ih =>
    rw [Context.lookup, Option.or_eq_some_iff] at h
    rcases h with h | ⟨_, h⟩
    · obtain ⟨hmem, hname⟩ := Frame.lookup_mem h
      exact ⟨⟨frame, by simp, hmem⟩, hname⟩
    · obtain ⟨⟨frame', hframe, hmem⟩, hname⟩ := ih h
      exact ⟨⟨frame', List.mem_cons_of_mem _ hframe, hmem⟩, hname⟩

def Site.Cased : Site → Prop
  | .variableUse context _ _ => ∀ frame ∈ context, ∀ b ∈ frame, b.Cased
  | _ => True

/-- There is a diagnostic at a site just when the site is in violation. -/
theorem Site.diagnostic_isSome (positions : List Position) {site : Site} (h : site.Cased) :
    (site.diagnostic positions).isSome = site.violates := by
  cases site with
  | declaration earlier b => simp [diagnostic, violates]
  | variableUse context id name =>
    simp only [diagnostic, violates]
    cases hlookup : context.lookup name with
    | none => rfl
    | some b =>
      obtain ⟨⟨frame, hframe, hb⟩, hname⟩ := Context.lookup_mem hlookup
      have hsome := variableError_isSome (h frame hframe b hb)
      rw [hname] at hsome
      simpa using hsome
  | constructorPattern globals id name =>
    simp only [diagnostic, violates]
    cases globals.lookup name with
    | none => rfl
    | some b => by_cases hk : b.kind = .Constructor <;> simp [hk]

theorem Name.startsWithUppercase {first : Char → Bool} {name : String} (h : Name first name) :
    ∃ c, first c ∧ semantics.startsWithUppercase name = isUpper c := by
  obtain ⟨c, cs, hname, hc, _⟩ := h
  refine ⟨c, hc, ?_⟩
  unfold semantics.startsWithUppercase
  rw [hname]

theorem LowerName.cased {name : String} (h : LowerName name) {kind : SymbolKind}
    (hk : isTypeSymbol kind = false ∧ kind ≠ .Constructor) (declaration : NodeId) :
    (Binder.mk name kind declaration).Cased := by
  obtain ⟨c, hc, hs⟩ := Name.startsWithUppercase h.1
  have hupper : isUpper c = false := by
    by_contra hu
    simp only [isUpper, isLower, Bool.and_eq_true, decide_eq_true_eq, Bool.not_eq_false] at hc hu
    have hz : 'a' ≤ 'Z' := Nat.le_trans hc.1 hu.2
    revert hz
    decide
  unfold Binder.Cased
  rw [hs, hupper]
  simp [hk]

theorem UpperName.cased {name : String} (h : UpperName name) {kind : SymbolKind}
    (hk : isTypeSymbol kind = true ∨ kind = .Constructor) (declaration : NodeId) :
    (Binder.mk name kind declaration).Cased := by
  obtain ⟨c, hc, hs⟩ := Name.startsWithUppercase h
  unfold Binder.Cased
  rw [hs, hc]
  simpa using hk.symm.symm

theorem globalFrame_cased {program : Program} (h : program.Writable) :
    ∀ b ∈ globalFrame program, b.Cased := by
  intro b hb
  rcases List.mem_cons.mp hb with rfl | hb
  · rfl
  · obtain ⟨d, hd, hb⟩ := List.mem_flatMap.mp hb
    have hw := h d hd
    cases d with
    | FunctionDefinition fd =>
      rw [List.mem_singleton.mp hb]
      exact LowerName.cased hw.1 (by decide) _
    | DataTypeDefinition dt =>
      rcases List.mem_cons.mp hb with rfl | hb
      · exact UpperName.cased hw.1 (by decide) _
      · obtain ⟨c, hc, rfl⟩ := List.mem_map.mp hb
        exact UpperName.cased (hw.2.2 c hc).1 (by decide) _

theorem declarations_cased (earlier binders : Frame) :
    ∀ site ∈ declarations earlier binders, site.Cased := by
  induction binders generalizing earlier with
  | nil => simp [declarations]
  | cons b bs ih =>
    intro site hsite
    rcases List.mem_cons.mp hsite with rfl | hsite
    · trivial
    · exact ih _ site hsite

theorem Pattern.sites_cased (globals : Frame) (p : Pattern) :
    ∀ site ∈ Pattern.sites globals p, site.Cased := by
  intro site hsite
  cases p with
  | VariablePattern id name => exact declarations_cased _ _ site hsite
  | ConstructorPattern id name arguments =>
    rcases List.mem_cons.mp hsite with rfl | hsite
    · trivial
    · exact declarations_cased _ _ site hsite

theorem Pattern.binders_cased {p : Pattern} (h : p.Writable) :
    ∀ b ∈ Pattern.binders p, b.Cased := by
  intro b hb
  cases p with
  | VariablePattern id name =>
    rw [List.mem_singleton.mp hb]
    exact LowerName.cased h (by decide) _
  | ConstructorPattern id name arguments =>
    obtain ⟨a, ha, rfl⟩ := List.mem_map.mp hb
    exact LowerName.cased (h.2 a ha) (by decide) _

theorem expressionSites_cased {globals : Frame} {e : Expression} (h : e.Writable)
    {context : Context} (hc : ∀ frame ∈ context, ∀ b ∈ frame, Binder.Cased b) :
    ∀ site ∈ expressionSites globals e context, site.Cased := by
  induction e generalizing context with
  | IntLiteral id value => simp
  | Variable id name =>
    intro site hsite
    rw [List.mem_singleton.mp hsite]
    exact hc
  | BinaryOperator kind id l r ihl ihr | Application id l r ihl ihr =>
    intro site hsite
    rcases List.mem_append.mp hsite with hsite | hsite
    · exact ihl h.1 hc site hsite
    · exact ihr h.2 hc site hsite
  | CaseExpression id s bs ihs ihbs =>
    intro site hsite
    obtain ⟨hs, _, hbs⟩ := h
    rw [writableBranches_iff] at hbs
    rcases List.mem_append.mp hsite with hsite | hsite
    · exact ihs hs hc site hsite
    · obtain ⟨b, hb, hsite⟩ := mem_branchSites.mp hsite
      rcases hsite with hsite | hsite
      · exact Pattern.sites_cased globals b.pattern site hsite
      · refine ihbs b hb (hbs b hb).2 (fun frame hframe => ?_) site hsite
        rcases List.mem_cons.mp hframe with rfl | hframe
        · exact Pattern.binders_cased (hbs b hb).1
        · exact hc frame hframe

theorem programSites_cased {program : Program} (h : program.Writable) :
    ∀ site ∈ programSites program, site.Cased := by
  intro site hsite
  rcases List.mem_append.mp hsite with hsite | hsite
  · exact declarations_cased _ _ site hsite
  · obtain ⟨d, hd, hsite⟩ := List.mem_flatMap.mp hsite
    have hw := h d hd
    cases d with
    | DataTypeDefinition dt => cases hsite
    | FunctionDefinition fd =>
      rcases List.mem_append.mp hsite with hsite | hsite
      · exact declarations_cased _ _ site hsite
      · refine expressionSites_cased hw.2.2 (fun frame hframe b hb => ?_) site hsite
        rcases List.mem_cons.mp hframe with rfl | hframe
        · obtain ⟨p, hp, rfl⟩ := List.mem_map.mp hb
          exact LowerName.cased (hw.2.1 p hp) (by decide) _
        · rw [List.mem_singleton.mp hframe] at hb
          exact globalFrame_cased h b hb

/-! ## Resolution -/

/-- The node of a use is bound to the symbol of the declaration that it means,
or to none when it is in violation. -/
def Site.Resolved (t : ScopeTree) : Site → Prop
  | .declaration _ _ => True
  | site =>
    if site.violates then t.getResolvedSymbol site.node = none
    else ∃ symbol, t.getResolvedSymbol site.node = some symbol ∧ site.target = some symbol.binder

theorem declarations_resolved {t : ScopeTree} (earlier binders : Frame) :
    ∀ site ∈ declarations earlier binders, site.Resolved t := by
  induction binders generalizing earlier with
  | nil => simp [declarations]
  | cons b bs ih =>
    intro site hsite
    rcases List.mem_cons.mp hsite with rfl | hsite
    · trivial
    · exact ih _ site hsite

variable {t : ScopeTree} {globals : Frame}

theorem constructorPattern_resolved (hg : t.FrameIs 0 globals) {id : NodeId} {name : String}
    (h : t.getResolvedSymbol id = t.constructorTarget name) :
    (Site.constructorPattern globals id name).Resolved t := by
  have hlookup := hg name
  unfold ScopeTree.constructorTarget getRootScopeId at h
  unfold Site.Resolved
  simp only [Site.violates, Site.node, Site.target, ← hlookup, h]
  cases t.getLocalSymbol 0 name with
  | none => simp
  | some symbol =>
    have hbinder : symbol.binder.kind = symbol.kind := rfl
    by_cases hk : symbol.kind = .Constructor <;> simp [hbinder, hk, Option.filter]

theorem variableUse_resolved (hw : t.WellFormed) {sid : Nat} {context : Context}
    (hc : t.Chain sid context) (hcased : ∀ frame ∈ context, ∀ b ∈ frame, Binder.Cased b)
    {id : NodeId} {name : String} (h : t.getResolvedSymbol id = t.variableTarget sid name) :
    (Site.variableUse context id name).Resolved t := by
  have hlookup := hc.lookup hw name
  unfold ScopeTree.variableTarget at h
  unfold Site.Resolved
  simp only [Site.violates, Site.node, Site.target, h]
  cases hs : (t.getResolvedSymbolId sid name).bind t.getSymbol with
  | none =>
    rw [hs, Option.map_none] at hlookup
    simp [← hlookup]
  | some symbol =>
    rw [hs, Option.map_some] at hlookup
    obtain ⟨⟨frame, hframe, hb⟩, hname⟩ := Context.lookup_mem hlookup.symm
    have hsome := variableError_isSome (hcased frame hframe _ hb)
    rw [hname] at hsome
    simp only [← hlookup, ← hsome]
    change (variableError name symbol.binder.kind).isSome = _ at hsome
    have hkind : symbol.binder.kind = symbol.kind := rfl
    rw [hkind]
    cases herror : variableError name symbol.kind <;> simp [Option.filter, herror]

theorem expressionSites_resolved (hw : t.WellFormed) (hg : t.FrameIs 0 globals) {e : Expression}
    (he : e.Writable) {sid : Nat} {context : Context} (hc : t.Chain sid context)
    (hcased : ∀ frame ∈ context, ∀ b ∈ frame, Binder.Cased b) (h : t.Placed e sid) :
    ∀ site ∈ expressionSites globals e context, site.Resolved t := by
  induction e generalizing sid context with
  | IntLiteral id value => simp
  | Variable id name =>
    intro site hsite
    rw [List.mem_singleton.mp hsite]
    exact variableUse_resolved hw hc hcased h.2
  | BinaryOperator kind id l r ihl ihr | Application id l r ihl ihr =>
    intro site hsite
    rcases List.mem_append.mp hsite with hsite | hsite
    · exact ihl he.1 hc hcased h.2.1 site hsite
    · exact ihr he.2 hc hcased h.2.2 site hsite
  | CaseExpression id s bs ihs ihbs =>
    intro site hsite
    obtain ⟨hs, _, hbs⟩ := he
    rw [writableBranches_iff] at hbs
    simp only [ScopeTree.Placed, ScopeTree.placedBranches_iff] at h
    rcases List.mem_append.mp hsite with hsite | hsite
    · exact ihs hs hc hcased h.2.1 site hsite
    · obtain ⟨b, hb, hsite⟩ := mem_branchSites.mp hsite
      obtain ⟨bsid, hscope, _, hp, hbody⟩ := h.2.2 b hb
      rcases hsite with hsite | hsite
      · cases hpattern : b.pattern with
        | VariablePattern pid name =>
          rw [hpattern] at hsite
          exact declarations_resolved _ _ site hsite
        | ConstructorPattern pid name arguments =>
          rw [hpattern] at hsite
          have htarget := hp.2.2
          rw [hpattern] at htarget
          rcases List.mem_cons.mp hsite with rfl | hsite
          · exact constructorPattern_resolved hg htarget
          · exact declarations_resolved _ _ site hsite
      · refine ihbs b hb (hbs b hb).2 (hc.branch hscope hp.2.1) (fun frame hframe => ?_) hbody site
          hsite
        rcases List.mem_cons.mp hframe with rfl | hframe
        · exact Pattern.binders_cased (hbs b hb).1
        · exact hcased frame hframe

theorem programSites_resolved {program : Program} (hw : program.Writable)
    (h : t.Scopes program) : ∀ site ∈ programSites program, site.Resolved t := by
  intro site hsite
  rcases List.mem_append.mp hsite with hsite | hsite
  · exact declarations_resolved _ _ site hsite
  · obtain ⟨d, hd, hsite⟩ := List.mem_flatMap.mp hsite
    have hdw := hw d hd
    cases d with
    | DataTypeDefinition dt => cases hsite
    | FunctionDefinition fd =>
      rcases List.mem_append.mp hsite with hsite | hsite
      · exact declarations_resolved _ _ site hsite
      · obtain ⟨fsid, hb, _, hf, hplaced⟩ := h.functions fd hd
        refine expressionSites_resolved h.wellFormed h.globals hdw.2.2 (h.chain.branch hb hf)
          (fun frame hframe b hb => ?_) hplaced site hsite
        rcases List.mem_cons.mp hframe with rfl | hframe
        · obtain ⟨p, hp, rfl⟩ := List.mem_map.mp hb
          exact LowerName.cased (hdw.2.1 p hp) (by decide) _
        · rw [List.mem_singleton.mp hframe] at hb
          exact globalFrame_cased hw b hb

/-! ## Parsed programs -/

theorem parse_ids {tokens : TokenVector} {p : ParsedProgram} (h : parse tokens = .ok p) :
    p.ast.ids.Nodup ∧ ∀ id ∈ p.ast.ids, id < p.positions.length ∧ id ≠ kInvalidNodeId := by
  obtain ⟨_, _, _, hperm, hfits⟩ := parse_ok h
  refine ⟨hperm.nodup_iff.mpr List.nodup_range, fun id hid => ?_⟩
  have hlt : id < p.positions.length := List.mem_range.mp (hperm.mem_iff.mp hid)
  exact ⟨hlt, Nat.ne_of_lt (Nat.lt_of_lt_of_le hlt hfits)⟩

theorem filterMap_nodes (positions : List Position) {sites : List Site}
    (h : ∀ site ∈ sites, site.Cased) :
    (sites.filterMap (Site.diagnostic positions)).map (·.node_id) =
      (sites.filter Site.violates).map Site.node := by
  induction sites with
  | nil => rfl
  | cons site sites ih =>
    have hsite := Site.diagnostic_isSome positions (h site (by simp))
    have hrest := ih fun s hs => h s (List.mem_cons_of_mem _ hs)
    cases hd : site.diagnostic positions with
    | none =>
      rw [hd, Option.isSome_none] at hsite
      rw [List.filterMap_cons_none hd, List.filter_cons_of_neg (by simp [← hsite]), hrest]
    | some d =>
      rw [hd, Option.isSome_some] at hsite
      rw [List.filterMap_cons_some hd, List.filter_cons_of_pos (by simp [← hsite]), List.map_cons,
        List.map_cons, hrest, Site.diagnostic_node hd]

section

variable {tokens : TokenVector} {p : ParsedProgram} (hl : tokens.Lexed) (hp : parse tokens = .ok p)

include hl hp

theorem analyze_resolved : ∀ site ∈ programSites p.ast, site.Resolved (analyze p).scopes := by
  obtain ⟨hnodup, hvalid⟩ := parse_ids hp
  obtain ⟨_, hscopes⟩ := analyze_spec p hnodup fun id hid => (hvalid id hid).2
  exact programSites_resolved (parse_writable hl hp) hscopes

theorem analyze_nodes : (analyze p).diagnostics.map (·.node_id) =
    ((programSites p.ast).filter Site.violates).map Site.node := by
  obtain ⟨hnodup, hvalid⟩ := parse_ids hp
  obtain ⟨hreports, _⟩ := analyze_spec p hnodup fun id hid => (hvalid id hid).2
  rw [hreports, filterMap_nodes p.positions (programSites_cased (parse_writable hl hp))]

theorem analyze_ok_iff :
    (analyze p).ok ↔ ∀ site ∈ programSites p.ast, site.violates = false := by
  unfold AnalysisResult.ok
  rw [List.isEmpty_iff, ← List.map_eq_nil_iff (f := (·.node_id)), analyze_nodes hl hp,
    List.map_eq_nil_iff, List.filter_eq_nil_iff]
  simp

end

/-- Name resolution is lexical scoping: in a program that the parser made of
the scanner's tokens, each use of a name is bound to the declaration that
lexical scoping gives it, and there is one diagnostic for each violation, at
its node, and no other. -/
theorem analyze_lexical {tokens : TokenVector} (hl : tokens.Lexed) {p : ParsedProgram}
    (hp : parse tokens = .ok p) :
    (∀ site ∈ programSites p.ast, site.Resolved (analyze p).scopes) ∧
    (analyze p).diagnostics = (programSites p.ast).filterMap (Site.diagnostic p.positions) ∧
    (analyze p).diagnostics.map (·.node_id) =
      ((programSites p.ast).filter Site.violates).map Site.node ∧
    ((analyze p).ok ↔ ∀ site ∈ programSites p.ast, site.violates = false) := by
  obtain ⟨hnodup, hvalid⟩ := parse_ids hp
  obtain ⟨hreports, _⟩ := analyze_spec p hnodup fun id hid => (hvalid id hid).2
  exact ⟨analyze_resolved hl hp, hreports, analyze_nodes hl hp, analyze_ok_iff hl hp⟩

/-- `defn f x = { f y }`, where `y` is unbound. -/
def unboundTokens : TokenVector :=
  ⟨[.Function, .LowerVariable "f", .LowerVariable "x", .Equal, .LeftBrace, .LowerVariable "f",
    .LowerVariable "y", .RightBrace].map fun load => ⟨load, ⟨1, 1, 1, 1⟩⟩, by decide⟩

def unboundProgram : ParsedProgram :=
  ⟨⟨[.FunctionDefinition ⟨3, "f", ["x"], .Application 2 (.Variable 0 "f") (.Variable 1 "y")⟩]⟩,
    List.replicate 4 ⟨1, 1, 1, 1⟩⟩

theorem analyze_lexical_unbound :
    (∀ site ∈ programSites unboundProgram.ast, site.Resolved (analyze unboundProgram).scopes) ∧
    (analyze unboundProgram).diagnostics =
      (programSites unboundProgram.ast).filterMap (Site.diagnostic unboundProgram.positions) ∧
    (analyze unboundProgram).diagnostics.map (·.node_id) =
      ((programSites unboundProgram.ast).filter Site.violates).map Site.node ∧
    ((analyze unboundProgram).ok ↔
      ∀ site ∈ programSites unboundProgram.ast, site.violates = false) :=
  analyze_lexical (show unboundTokens.Lexed by decide) rfl

end mf.semantics
