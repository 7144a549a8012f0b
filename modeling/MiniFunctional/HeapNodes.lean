-- The nodes of constructors in the heap: what the emitted code has built it
-- finds again, however far it runs on.
import MiniFunctional.CompilerCorrectness
import MiniFunctional.NodeStores

open mf.util mf.ast mf.parsing mf.tokenization mf.evaluation llvm ExceptLaws
open mf.semantics hiding Frame

namespace llvm

variable {M : Module} {α : Type}

/-! ## Runs -/

/-- A state that a call of a function of the module comes to. -/
def Reached (M : Module) (S : State) : Prop :=
  ∃ function arguments m output, Steps M (.running (.enter function arguments) [] m output) S

/-- The frame comes to the code that was emitted from `b` to `b'`. -/
structure ComesTo (M : Module) (b b' : Builder) (frame : Frame) : Prop where
  opened : b.Open
  within : ∃ F, M.functions[frame.function]? = some F ∧ Within b b' F.blocks
  atEnd : AtEnd b frame

theorem Codes.returns {b b' : Builder} {B : Frame → Behaviour α} {Q : α → Frame → Prop}
    (h : Codes M b b' B Q) {frame : Frame} (hcomes : ComesTo M b b' frame) (callers : List Frame)
    {m m' : Memory} {output output' : String} {a : α}
    (hrun : B frame m output = .returns a m' output') :
    ∃ frame', Steps M (.running frame callers m output) (.running frame' callers m' output') ∧
      AtEnd b' frame' ∧ Q a frame' := by
  obtain ⟨F, hF, hw⟩ := hcomes.within
  have hrealises := h.runs frame callers m output F hF hw hcomes.atEnd
  rw [hrun] at hrealises
  obtain ⟨frame', ⟨hat, _, hq⟩, hsteps⟩ := hrealises
  exact ⟨frame', hsteps, hat, hq⟩

/-- In a module that writes each cell once, a block that is full stays as it is. -/
theorem Memory.Keeps.block {m m' : Memory} (h : m.Keeps m') {b : Nat} {cells : List Val}
    (hb : m[b]? = some cells) (hfull : ∀ v ∈ cells, v ≠ .poison) : m'[b]? = some cells := by
  obtain ⟨cells', hb', hlength, hkept⟩ := h b cells hb
  rw [hb']
  refine congrArg some (List.ext_getElem hlength fun i hi' hi => ?_)
  have hcell := hkept i cells[i] (List.getElem?_eq_getElem hi) (hfull _ (List.getElem_mem hi))
  exact (List.getElem?_eq_some_iff.mp hcell).2

theorem Reached.keeps (hM : M.WritesOnce) {S S' : State} (h : Reached M S) (h' : Steps M S S') :
    S.Keeps S' := by
  obtain ⟨function, arguments, m, output, hrun⟩ := h
  have hS := (steps_keep hM (holds_enter hM function arguments m output) hrun).1
  exact (steps_keep hM hS h').2

theorem Reached.trans {S S' : State} (h : Reached M S) (h' : Steps M S S') : Reached M S' := by
  obtain ⟨function, arguments, m, output, hrun⟩ := h
  exact ⟨function, arguments, m, output, hrun.trans h'⟩

end llvm

namespace mf.visitors

open ScopeTree

variable {t : ScopeTree} {program : Program} {types : TypeTable} {τ : Typing} {M : Module}
  {constructors_ : AssocMap SymbolId ConstructorLayout} {g : GeneratorState}
  {layout : ConstructorLayout} {ws : List Val} {b : Nat} {m m' : Memory}

/-! ## Nodes -/

/-- The node of a constructor with the arguments `ws`. -/
structure HasNode (layout : ConstructorLayout) (ws : List Val) (b : Nat) (pointer : Val)
    (m : Memory) : Prop where
  node : m[b]? = some [.int (BitVec.ofNat 64 layout.tag), .int (BitVec.ofNat 64 ws.length), pointer]
  fields : FieldsAt m pointer (ws.map pack)
  packs : List.Forall₂ Packs ws layout.fields
  full : ∀ w ∈ ws, w ≠ .poison

theorem pack_ne_poison {w : Val} (h : w ≠ .poison) : pack w ≠ .poison := by
  cases w with
  | poison => exact absurd rfl h
  | _ => simp [pack]

/-- All words of the node and of its fields are stored, and stay. -/
theorem HasNode.kept {pointer : Val} (h : HasNode layout ws b pointer m) (hm : m.Keeps m') :
    HasNode layout ws b pointer m' := by
  have hpointer : pointer ≠ .poison := by
    rcases h.fields with ⟨_, rfl⟩ | ⟨q, rfl, _⟩
    · simp
    · simp
  refine ⟨hm.block h.node ?_, ?_, h.packs, h.full⟩
  · intro v hv
    simp only [List.mem_cons, List.not_mem_nil, or_false] at hv
    rcases hv with rfl | rfl | rfl
    · simp
    · simp
    · exact hpointer
  · rcases h.fields with hnone | ⟨q, hq, hcells⟩
    · exact .inl hnone
    · refine .inr ⟨q, hq, hm.block hcells fun v hv => ?_⟩
      obtain ⟨w, hw, rfl⟩ := List.mem_map.mp hv
      exact pack_ne_poison (h.full w hw)

theorem Represents.ne_poison {v : Datum} {w : Val} (h : Represents t constructors_ m v w) :
    w ≠ .poison := by
  cases h with
  | int => simp
  | node => simp

theorem YieldsAll.packs {Ts : List TypeVariant} {vs : List Datum}
    (h : YieldsAll t program constructors_ Ts vs ws m) :
    List.Forall₂ Packs ws Ts ∧ ∀ w ∈ ws, w ≠ .poison := by
  obtain ⟨htyped, hrepresents⟩ := h
  induction htyped generalizing ws with
  | nil =>
    cases hrepresents
    exact ⟨.nil, by simp⟩
  | cons hv _ ih =>
    rcases hrepresents with _ | ⟨hw, hws⟩
    obtain ⟨hpacks, hfull⟩ := ih hws
    exact ⟨.cons (hw.packs hv) hpacks, List.forall_mem_cons.mpr ⟨hw.ne_poison, hfull⟩⟩

/-! ## Patterns -/

/-- The fields of the node, loaded from `index` on. -/
def Meaning.loadFields (node : Val) : Nat → List TypeVariant → Behaviour Unit
  | _, [] => pure ()
  | index, T :: Ts => do
    let _ ← loadField node index T
    loadFields node (index + 1) Ts

theorem loadFields_run (output : String) {tag arity pointer : Val} {values : List Val}
    {Ts : List TypeVariant} (hb : m[b]? = some [tag, arity, pointer]) (done : List Val)
    (hfields : FieldsAt m pointer ((done ++ values).map pack))
    (hpacks : List.Forall₂ Packs values Ts)
    (hlt : done.length + values.length < 0x8000000000000000) :
    Meaning.loadFields (.ptr ⟨b, 0⟩) done.length Ts m output = .returns () m output := by
  induction hpacks generalizing done with
  | nil => rfl
  | @cons w T values Ts hw _ ih =>
    rw [List.length_cons] at hlt
    have hfield : (done ++ w :: values)[done.length]? = some w := by simp
    have hload := loadField_run output hb hfields hfield hw (by omega)
    rw [List.append_cons] at hfields
    have hlen : (done ++ [w]).length = done.length + 1 := by simp
    have hrest := ih (done ++ [w]) hfields (by rw [hlen]; omega)
    rw [hlen] at hrest
    unfold Meaning.loadFields
    rw [Behaviour.bind_returns hload]
    exact hrest

/-- The code of a constructor pattern loads the fields of the node. -/
theorem emitted_bindPatternFields (M : Module) {name : String} {sid : ScopeId} {scrutinee : Operand}
    {index : Nat} {arguments : List String} {Ts : List TypeVariant}
    (hlen : arguments.length = Ts.length) (hopen : g.builder.Open)
    (hscrutinee : scrutinee.Below g.builder.next) :
    Ensures (bindPatternFields t name sid scrutinee index arguments Ts) g (fun _ => True)
      fun _ g' => Codes M g.builder g'.builder
        (fun frame => Meaning.loadFields (frame.eval scrutinee) index Ts) fun _ _ => True := by
  induction arguments generalizing index Ts g with
  | nil =>
    cases Ts with
    | nil => exact ensures_pure () (.pure hopen _ fun _ => trivial)
    | cons T Ts => cases hlen
  | cons argument arguments ih =>
    cases Ts with
    | nil => cases hlen
    | cons T Ts =>
      unfold bindPatternFields
      split
      · exact ensures_throw trivial
      · refine ensures_bind ((emitted_loadField M hopen scrutinee index T).mono
          fun field g1 hload => ensures_bind (ensures_setLocal ?_))
        obtain ⟨_, h1⟩ := hload
        refine (ih (Nat.succ.inj hlen) ?_ ?_).mono fun _ g2 h2 => ?_
        · exact h1.opened
        · exact hscrutinee.mono h1.next
        · exact h1.codes.bind (G := fun frame _ =>
            Meaning.loadFields (frame.eval scrutinee) (index + 1) Ts) h2
            fun frame frame1 v hkept _ => by rw [hkept.eval hscrutinee]

/-! ## Reading -/

/-- What the emitted code finds of the node at `b` in the memory `m`. -/
structure GivesBack (t : ScopeTree) (constructors_ : AssocMap SymbolId ConstructorLayout)
    (M : Module) (layout : ConstructorLayout) (ws : List Val) (b : Nat) (m : Memory) : Prop where
  tag : ∀ {node op : Operand} {g g' : GeneratorState} {frame : Frame} (callers : List Frame)
    (output : String), loadTag node g = .ok (op, g') → ComesTo M g.builder g'.builder frame →
    frame.eval node = .ptr ⟨b, 0⟩ →
    ∃ frame', Steps M (.running frame callers m output) (.running frame' callers m output) ∧
      AtEnd g'.builder frame' ∧ frame'.eval op = .int (BitVec.ofNat 64 layout.tag)
  field : ∀ {i : Nat} {T : TypeVariant} {w : Val} {node op : Operand} {g g' : GeneratorState}
    {frame : Frame} (callers : List Frame) (output : String),
    layout.fields[i]? = some T → ws[i]? = some w → loadField node i T g = .ok (op, g') →
    ComesTo M g.builder g'.builder frame → frame.eval node = .ptr ⟨b, 0⟩ →
    ∃ frame', Steps M (.running frame callers m output) (.running frame' callers m output) ∧
      AtEnd g'.builder frame' ∧ frame'.eval op = w
  /-- Under a tag that matches, the code of a pattern runs through, and each slot
  that it reads is in the block of the node's fields. -/
  pattern : ∀ {id : NodeId} {name : String} {arguments : List String} {s : SymbolId}
    {matched : ConstructorLayout} {node : Operand} {g g' : GeneratorState} {frame : Frame}
    (callers : List Frame) (output : String), constructors_.find s = some matched →
    BitVec.ofNat 64 matched.tag = BitVec.ofNat 64 layout.tag →
    emitConstructorPattern t id name arguments node matched g = .ok ((), g') →
    ComesTo M g.builder g'.builder frame → node.Below g.builder.next →
    frame.eval node = .ptr ⟨b, 0⟩ →
    (∃ frame', Steps M (.running frame callers m output) (.running frame' callers m output) ∧
      AtEnd g'.builder frame') ∧
    ∀ i, i < arguments.length → ∃ q tag arity cells, m[b]? = some [tag, arity, .ptr ⟨q, 0⟩] ∧
      m[q]? = some cells ∧ i < cells.length

theorem HasNode.givesBack (h : Checked t program types τ)
    (hlayouts : Layouts t types program constructors_) {s : SymbolId}
    (hlayout : constructors_.find s = some layout) {pointer : Val}
    (hnode : HasNode layout ws b pointer m) : GivesBack t constructors_ M layout ws b m := by
  have hbound : layout.fields.length ≤ maxTokens :=
    declared_length h (hlayouts.sound s layout hlayout).2
  have hlength := hnode.packs.length_eq
  constructor
  · intro node op g g' frame callers output hemit hcomes hpointer
    have hemitted := (emitted_loadTag (E := fun _ => True) M hcomes.opened node).of_ok hemit
    have hrun := loadTag_run output hnode.node rfl
    rw [← hpointer] at hrun
    exact hemitted.codes.returns hcomes callers hrun
  · intro i T w node op g g' frame callers output hT hw hemit hcomes hpointer
    obtain ⟨_, hemitted⟩ := (emitted_loadField M hcomes.opened node i T).of_ok hemit
    have hi : i < layout.fields.length := (List.getElem?_eq_some_iff.mp hT).1
    have hpacks : Packs w T := by
      have hget := (List.forall₂_iff_get.mp hnode.packs).2 i (hlength ▸ hi) hi
      rw [List.get_eq_getElem, List.get_eq_getElem] at hget
      rwa [(List.getElem?_eq_some_iff.mp hT).2, (List.getElem?_eq_some_iff.mp hw).2] at hget
    have hrun := loadField_run output hnode.node hnode.fields hw hpacks (by
      unfold maxTokens at hbound
      omega)
    rw [← hpointer] at hrun
    exact hemitted.codes.returns hcomes callers hrun
  · intro id name arguments s' matched node g g' frame callers output hmatched htag hemit hcomes
      hbelow hpointer
    -- a constructor of the tag is the node's
    obtain rfl := hlayouts.tag_inj hmatched hlayout htag
    rw [hlayout] at hmatched
    cases hmatched
    unfold emitConstructorPattern at hemit
    by_cases hlen : arguments.length = layout.fields.length
    · rw [if_neg (not_not.mpr hlen)] at hemit
      cases hsid : t.getScopeId id with
      | none =>
        rw [hsid] at hemit
        cases hemit
      | some sid =>
        rw [hsid] at hemit
        have hemitted := (emitted_bindPatternFields M hlen hcomes.opened hbelow).of_ok hemit
        have hrun := loadFields_run output hnode.node [] hnode.fields hnode.packs (by
          rw [List.length_nil, hlength]
          unfold maxTokens at hbound
          omega)
        rw [← hpointer] at hrun
        obtain ⟨frame', hsteps, hat, _⟩ := hemitted.returns hcomes callers hrun
        refine ⟨⟨frame', hsteps, hat⟩, fun i hi => ?_⟩
        rcases hnode.fields with ⟨hnil, _⟩ | ⟨q, rfl, hq⟩
        · rw [List.map_eq_nil_iff] at hnil
          rw [hnil, List.length_nil] at hlength
          omega
        · refine ⟨q, _, _, _, hnode.node, hq, ?_⟩
          rw [List.length_map]
          omega
    · rw [if_pos hlen] at hemit
      cases hemit

/-! ## Building -/

/-- In every run of the module: a node that is built gives back the tag and the
arguments in all memories that there are later, and no cell that holds
something is changed. -/
structure NodesSurvive (t : ScopeTree) (program : Program)
    (constructors_ : AssocMap SymbolId ConstructorLayout) (M : Module) : Prop where
  tags : ∀ s s' layout layout', constructors_.find s = some layout →
    constructors_.find s' = some layout' →
    BitVec.ofNat 64 layout.tag = BitVec.ofNat 64 layout'.tag → s = s'
  kept : ∀ S S', Reached M S → Steps M S S' → S.Keeps S'
  built : ∀ {s : SymbolId} {layout : ConstructorLayout} {values : List TypedValue}
    {value : TypedValue} {g g' : GeneratorState} {frame : Frame} {callers : List Frame}
    {m : Memory} {output : String} {vs : List Datum}, constructors_.find s = some layout →
    reserve values.length 24 g = .ok ((), g) →
    emitConstructedValue layout values g = .ok (value, g') →
    (∀ a ∈ values, a.value.Below g.builder.next) → ComesTo M g.builder g'.builder frame →
    Reached M (.running frame callers m output) →
    YieldsAll t program constructors_ layout.fields vs (operandValues frame values) m →
    ∃ frame' m', Steps M (.running frame callers m output) (.running frame' callers m' output) ∧
      AtEnd g'.builder frame' ∧ frame'.eval value.value = .ptr ⟨m.length, 0⟩ ∧
      ∀ S m1, Steps M (.running frame' callers m' output) S → S.memory = some m1 →
        GivesBack t constructors_ M layout (operandValues frame values) m.length m1

theorem nodesSurvive (h : Checked t program types τ)
    (hlayouts : Layouts t types program constructors_) (hM : M.WritesOnce) :
    NodesSurvive t program constructors_ M := by
  refine ⟨fun s s' layout layout' hs hs' => hlayouts.tag_inj hs hs',
    fun S S' hS hrun => hS.keeps hM hrun, ?_⟩
  intro s layout values value g g' frame callers m output vs hlayout hreserve hemit hbelow hcomes
    hreached hvalues
  have hfits := (requires_reserve values.length (by decide : 8 ≤ 24) g).of_ok hreserve
  obtain ⟨hpacks, hfull⟩ := hvalues.packs
  obtain ⟨_, hemitted⟩ := (emitted_constructedValue M hcomes.opened hbelow).of_ok hemit
  have hlen : (operandValues frame values).length = values.length := List.length_map _
  obtain ⟨pointer, m', hrun, _, hnode, hfields⟩ := constructedValue_run m output layout hpacks (by
    rw [hlen]
    unfold maxPointers at hfits
    omega)
  obtain ⟨frame', hsteps, hat, hvalue⟩ := hemitted.codes.returns hcomes callers hrun
  refine ⟨frame', m', hsteps, hat, hvalue, fun S m1 hlater hm1 => ?_⟩
  have hbuilt : HasNode layout (operandValues frame values) m.length pointer m' :=
    ⟨hnode, hfields, hpacks, hfull⟩
  obtain ⟨m2, hm2, hkeeps⟩ := (hreached.trans hsteps).keeps hM hlater m1 hm1
  cases hm2
  exact (hbuilt.kept hkeeps).givesBack h hlayouts hlayout

variable {tokens : TokenVector} {p : ParsedProgram} {result : TypeAnalysisResult}

/-- Constructor values survive in the heap of the module of an accepted program.
The tokens are the scanner's. -/
theorem generateModule_nodesSurvive (hl : tokens.Lexed) (hp : parse tokens = .ok p)
    (hok : (analyze p).ok) (hrun : analyzeTypes p (analyze p) = some result) (hresult : result.ok)
    (hgenerate : generateModule p.ast (analyze p).scopes result.types = .ok M) :
    NodesSurvive (analyze p).scopes p.ast
      (registerConstructors (analyze p).scopes result.types p.ast) M := by
  obtain ⟨τ, h⟩ := checked hl hp hok hrun hresult
  exact nodesSurvive h (layouts h) (generateModule_writesOnce hgenerate)

/-- Of `boxProgram`: `W`, of which `main` makes a node, and its code. -/
def boxLayout : ConstructorLayout := ⟨1, 0, [intType]⟩

def boxArguments : List TypedValue := [⟨.int 3, intType⟩]

def boxStart : GeneratorState := ⟨[], .entry, .empty⟩

def boxBuilder : Builder :=
  match emitConstructedValue boxLayout boxArguments boxStart with
  | .ok (_, g) => g.builder
  | .error _ => .entry

theorem boxBuilder_emitted : emitConstructedValue boxLayout boxArguments boxStart =
    .ok (⟨.result 0, dataType 1⟩, ⟨[], boxBuilder, .empty⟩) := rfl

/-- In the module of `boxProgram`, `main` comes to the code at once. -/
theorem boxProgram_comes : ∃ result M,
    analyzeTypes boxProgram (analyze boxProgram) = some result ∧ result.ok ∧
      generateModule boxProgram.ast (analyze boxProgram).scopes result.types = .ok M ∧
      (registerConstructors (analyze boxProgram).scopes result.types boxProgram.ast).find 2 =
        some boxLayout ∧
      ComesTo M boxStart.builder boxBuilder (.enter 0 []) := by
  have hrun : ∃ result, analyzeTypes boxProgram (analyze boxProgram) = some result ∧
      (result.ok && decide (((generateModule boxProgram.ast (analyze boxProgram).scopes
        result.types).toOption.bind (·.functions[0]?)).map (·.blocks) =
          some (boxBuilder.terminate (.ret (.result 0))).blocks) &&
        decide (((registerConstructors (analyze boxProgram).scopes result.types
          boxProgram.ast).find 2).map (fun layout =>
            (layout.data_type, layout.tag, layout.fields)) =
            some (1, 0, [intType]))) = true :=
    Option.map_eq_some_iff.mp (show (analyzeTypes boxProgram (analyze boxProgram)).map _ =
      some true by decide +kernel)
  obtain ⟨result, hrun, hall⟩ := hrun
  simp only [Bool.and_eq_true, decide_eq_true_eq] at hall
  obtain ⟨⟨hresult, hblocks⟩, hlayout⟩ := hall
  obtain ⟨F, hF, hblocks⟩ := Option.map_eq_some_iff.mp hblocks
  obtain ⟨M, hM, hF⟩ := Option.bind_eq_some_iff.mp hF
  obtain ⟨layout, hlayout, hwords⟩ := Option.map_eq_some_iff.mp hlayout
  obtain ⟨data_type, tag, fields⟩ := layout
  cases hwords
  have hgenerate : generateModule boxProgram.ast (analyze boxProgram).scopes result.types =
      .ok M := by
    cases h : generateModule boxProgram.ast (analyze boxProgram).scopes result.types with
    | ok M' =>
      rw [h] at hM
      cases hM
      rfl
    | error e =>
      rw [h] at hM
      cases hM
  refine ⟨result, M, hrun, hresult, hgenerate, hlayout, ⟨.empty, rfl, rfl⟩, ⟨F, hF, ?_⟩, rfl,
    .empty, rfl, rfl⟩
  have hopen : boxBuilder.Open := ⟨_, rfl, rfl⟩
  have hwhole : Within boxStart.builder (boxBuilder.terminate (.ret (.result 0))) F.blocks := by
    rw [hblocks]
    exact fun id _ block hblock => ⟨block, hblock, .refl block⟩
  exact hwhole.left (changes_terminate hopen _).1

/-- The node of `main` in `boxProgram` gives back `3`. -/
theorem generateModule_nodesSurvive_box : ∃ result M frame' m',
    analyzeTypes boxProgram (analyze boxProgram) = some result ∧
      generateModule boxProgram.ast (analyze boxProgram).scopes result.types = .ok M ∧
      Steps M (.running (.enter 0 []) [] [] "") (.running frame' [] m' "") ∧
      frame'.eval (.result 0) = .ptr ⟨0, 0⟩ ∧
      ∀ S m1, Steps M (.running frame' [] m' "") S → S.memory = some m1 →
        GivesBack (analyze boxProgram).scopes
          (registerConstructors (analyze boxProgram).scopes result.types boxProgram.ast) M
          boxLayout [.int 3] 0 m1 := by
  obtain ⟨result, M, hrun, hresult, hgenerate, hlayout, hcomes⟩ := boxProgram_comes
  have hsurvive := generateModule_nodesSurvive (show boxTokens.Lexed by decide) rfl rfl hrun
    hresult hgenerate
  have hreached : Reached M (.running (.enter 0 []) [] [] "") := ⟨0, [], [], "", .refl⟩
  have hthree : YieldsAll (analyze boxProgram).scopes boxProgram.ast
      (registerConstructors (analyze boxProgram).scopes result.types boxProgram.ast)
      [intType] [.int 3] [.int 3] [] := ⟨.cons .int .nil, .cons .int .nil⟩
  obtain ⟨frame', m', hsteps, _, hvalue, hlater⟩ := hsurvive.built hlayout rfl
    boxBuilder_emitted (by simp [boxArguments, Operand.Below]) hcomes hreached hthree
  exact ⟨result, M, frame', m', hrun, hgenerate, hsteps, hvalue, hlater⟩

end mf.visitors
