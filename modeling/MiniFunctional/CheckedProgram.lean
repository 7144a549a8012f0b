-- What the two analyses establish of a program that they accept, in the form
-- in which a code generator relies on it.
import MiniFunctional.ParseGrammar
import MiniFunctional.TypeSoundness

open mf.ast mf.parsing mf.tokenization mf.grammar

namespace mf.semantics

open ScopeTree TypeAnalyzer

/-! ## Sizes -/

def Definition.constructors : Definition → List Constructor
  | .FunctionDefinition _ => []
  | .DataTypeDefinition dt => dt.constructors

theorem Definition.constructors_withoutIds (d : Definition) :
    Definition.constructors d.withoutIds =
      (Definition.constructors d).map Constructor.withoutIds := by
  cases d with
  | FunctionDefinition fd => rfl
  | DataTypeDefinition dt => rfl

/-- There are at most `n` constructors, and none has more fields. -/
structure Sized (n : Nat) (constructors : List Constructor) : Prop where
  number : constructors.length ≤ n
  fields : ∀ ctor ∈ constructors, ctor.fields.length ≤ n

theorem Sized.append {n n' : Nat} {cs cs' : List Constructor} (h : Sized n cs)
    (h' : Sized n' cs') : Sized (n + n') (cs ++ cs') := by
  constructor
  · rw [List.length_append]
    exact Nat.add_le_add h.number h'.number
  · intro ctor hctor
    rcases List.mem_append.mp hctor with hctor | hctor
    · exact Nat.le_trans (h.fields ctor hctor) (Nat.le_add_right n n')
    · exact Nat.le_trans (h'.fields ctor hctor) (Nat.le_add_left n' n)

theorem Sized.mono {n n' : Nat} {cs : List Constructor} (h : Sized n cs) (hn : n ≤ n') :
    Sized n' cs :=
  ⟨Nat.le_trans h.number hn, fun ctor hctor => Nat.le_trans (h.fields ctor hctor) hn⟩

/-- No function has more than `n` parameters. -/
def Parameterized (n : Nat) (definitions : List Definition) : Prop :=
  ∀ fd, .FunctionDefinition fd ∈ definitions → fd.parameters.length ≤ n

theorem Parameterized.cons {n n' : Nat} {d : Definition} {ds : List Definition}
    (h : Parameterized n [d]) (h' : Parameterized n' ds) : Parameterized (n + n') (d :: ds) := by
  intro fd hfd
  rcases List.mem_cons.mp hfd with heq | hfd
  · exact Nat.le_trans (h fd (List.mem_singleton.mpr heq)) (Nat.le_add_right n n')
  · exact Nat.le_trans (h' fd hfd) (Nat.le_add_left n' n)

/-- What a derivation denotes is no larger than what it derives. -/
def Measured (n : Nat) : (s : Nonterminal) → Denotation s → Prop
  | .Program, definitions =>
    Sized n (List.flatMap Definition.constructors definitions) ∧ Parameterized n definitions
  | .Definition, definition =>
    Sized n (Definition.constructors definition) ∧ Parameterized n [definition]
  | .Constructor, constructor => Sized n [constructor]
  | .Constructors, constructors => Sized n constructors
  | _, _ => True

theorem measured {s : Nonterminal} (d : Tree s) : Measured d.yield.length s d.denote := by
  induction d with
  | programEnd => exact ⟨⟨Nat.zero_le _, by simp⟩, nofun⟩
  | nextDefinition d p ihd ihp =>
    have h : Sized _ (_ ++ _) := Sized.append ihd.1 ihp.1
    have h' : Parameterized _ (_ :: _) := ihd.2.cons ihp.2
    simpa [Measured] using And.intro h h'
  | functionDefinition name parameters e _ =>
    refine ⟨⟨Nat.zero_le _, by simp [Definition.constructors]⟩, ?_⟩
    intro fd hfd
    cases List.mem_singleton.mp hfd
    simp only [Tree.yield, List.length_cons, List.length_append, List.length_map]
    omega
  | dataTypeDefinition name c cs ihc ihcs =>
    have h : Sized _ (_ ++ _) := Sized.append ihc ihcs
    refine ⟨h.mono (by simp; omega), ?_⟩
    intro fd hfd
    cases List.mem_singleton.mp hfd
  | constructor name fields => exact ⟨by simp, by simp⟩
  | constructorsEnd => exact ⟨Nat.zero_le _, by simp⟩
  | nextConstructor c cs ihc ihcs =>
    have h : Sized _ (_ ++ _) := Sized.append ihc ihcs
    exact h.mono (by simp)
  | _ => trivial

theorem sized_withoutIds {n : Nat} {cs : List Constructor}
    (h : Sized n (cs.map Constructor.withoutIds)) : Sized n cs := by
  constructor
  · simpa using h.number
  · intro ctor hctor
    exact h.fields ctor.withoutIds (List.mem_map_of_mem hctor)

/-- A program has no more constructors, a constructor no more fields and a
function no more parameters than a vector holds tokens. -/
theorem parse_sized {tokens : TokenVector} {p : ParsedProgram} (h : parse tokens = .ok p) :
    Sized maxTokens (p.ast.definitions.flatMap Definition.constructors) ∧
      Parameterized maxTokens p.ast.definitions := by
  obtain ⟨d, hd, hast, -⟩ := parse_ok h
  have hlen := congrArg List.length hd
  simp only [loads, List.length_map] at hlen
  have hfits : d.yield.length ≤ maxTokens := by
    rw [hlen]
    exact tokens.fits
  have hmap : (p.ast.definitions.flatMap Definition.constructors).map Constructor.withoutIds =
      p.ast.withoutIds.definitions.flatMap Definition.constructors := by
    simp [Program.withoutIds, List.map_flatMap, List.flatMap_map,
      Definition.constructors_withoutIds]
  obtain ⟨hsized, hparameters⟩ := measured d
  constructor
  · apply sized_withoutIds
    rw [hmap, hast]
    exact hsized.mono hfits
  · intro fd hfd
    have hwithout : (Definition.FunctionDefinition fd).withoutIds ∈ p.ast.withoutIds.definitions :=
      List.mem_map_of_mem hfd
    rw [hast] at hwithout
    exact Nat.le_trans (hparameters ⟨0, fd.name, fd.parameters, fd.body.withoutIds⟩ hwithout) hfits

/-! ## Accepted programs -/

/-- The tables of an accepted program, and its typing. -/
structure Checked (t : ScopeTree) (program : Program) (types : TypeTable) (τ : Typing) : Prop where
  scopes : t.ProgramScoped program
  rooted : t.GlobalsRooted
  sound : types.Sound t program
  typing : IsConcreteTyping t program τ
  functions : ∀ fd, .FunctionDefinition fd ∈ program.definitions → ∃ s signature,
    t.getLocalSymbol getRootScopeId fd.name = some s ∧
    types.getFunctionSignature s.id = some signature ∧ FunctionHasType t program τ fd signature
  fields : FieldsNameTypes t program
  firstOrder : ∀ f signature, types.getFunctionSignature f = some signature →
    FirstOrder t f signature
  ids : program.ids.Nodup
  sized : Sized maxTokens (program.definitions.flatMap Definition.constructors)
  parameterized : Parameterized maxTokens program.definitions

theorem checked {tokens : TokenVector} {p : ParsedProgram} {result : TypeAnalysisResult}
    (hl : tokens.Lexed) (hp : parse tokens = .ok p) (hok : (analyze p).ok)
    (hrun : analyzeTypes p (analyze p) = some result) (hresult : result.ok) :
    ∃ τ, Checked (analyze p).scopes p.ast result.types τ := by
  have hsound := sound_of_ok hl hp hok hrun hresult
  obtain ⟨st, result', hrun', _, h, hsettled⟩ := analyzeTypes_run hl hp hok
  rw [hrun] at hrun'
  cases hrun'
  obtain ⟨τ, hτ, hfunctions⟩ := hsound.typing
  exact ⟨τ, analyze_scoped hl hp hok, analyze_rooted p, hsound, hτ, hfunctions,
    h.fields (hsettled.ok.mp hresult).1,
    fun f signature hf => analyzeTypes_firstOrder hl hp hok hrun hresult hf,
    (parse_ids hp).1, (parse_sized hp).1, (parse_sized hp).2⟩

end mf.semantics
