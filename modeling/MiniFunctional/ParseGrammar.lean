-- The parser against the grammar: `parse` accepts just the token lists that
-- have a derivation, and returns what the derivation denotes.
import MiniFunctional.ParseComplete

open mf.util mf.ast mf.tokenization mf.grammar

namespace mf.parsing

/-- A derivation of the tokens as a program. -/
def DerivedBy (tokens : TokenVector) (d : Tree .Program) : Prop := d.yield = loads tokens.tokens

/-- What `parse` returns has a derivation, and its nodes are numbered by the
order in which they were made, with a position for each. -/
theorem parse_ok {tokens : TokenVector} {p : ParsedProgram} (h : parse tokens = .ok p) :
    ∃ d, DerivedBy tokens d ∧ p.ast.withoutIds = d.toProgram ∧
      p.ast.ids.Perm (List.range p.positions.length) ∧ p.positions.length ≤ kInvalidNodeId := by
  have hm := meets_parseProgram ⟨tokens.tokens, [], false⟩
  unfold parse at h
  split at h
  · rename_i program s hp
    obtain ⟨hnil, d, hprog, hv⟩ := hm.of_ok hp
    cases h
    have htook := hprog.took
    have hgrew := hprog.grew
    have hmade := hprog.made
    simp only [hnil, List.map_nil, List.append_nil] at htook
    simp only [List.length_nil, Nat.zero_add] at hgrew hmade
    refine ⟨d, htook.symm, hv, ?_, hprog.fits (by simp)⟩
    rw [hgrew, List.range_eq_range']
    exact hmade
  · cases h

/-- The parser's own bounds on its loops are never reached. -/
theorem parse_ne_outOfFuel (tokens : TokenVector) : parse tokens ≠ .error .outOfFuel := by
  have hm := meets_parseProgram ⟨tokens.tokens, [], false⟩
  unfold parse
  split
  · simp
  · rename_i e s hp
    have := hm.of_error hp
    simpa using this

theorem kInvalidNodeId_fits {tokens : TokenVector} {d : Tree .Program} (h : DerivedBy tokens d) :
    nodes d ≤ kInvalidNodeId := by
  have hn := nodes_le d
  have hlen := congrArg List.length h
  have hfits := tokens.fits
  simp only [loads, List.length_map] at hlen
  unfold maxTokens at hfits
  unfold kInvalidNodeId
  omega

/-- What has a derivation, `parse` accepts. -/
theorem parse_of_derivedBy {tokens : TokenVector} {d : Tree .Program} (h : DerivedBy tokens d) :
    ∃ p, parse tokens = .ok p ∧ p.ast.withoutIds = d.toProgram := by
  have hlen := congrArg List.length h
  simp only [loads, List.length_map] at hlen
  have hrun : Accepts parseProgram d.yield [] (nodes d) fun p => p.withoutIds = d.toProgram := by
    refine Accepts.loop fun k hk => ?_
    exact (accepted d k [] (by simpa using hk)).mono fun p hp => hp
  obtain ⟨p, s', hp, _, _, hv⟩ := hrun ⟨tokens.tokens, [], false⟩
    (by rw [List.append_nil]; exact h.symm)
    (by simpa using kInvalidNodeId_fits h)
  refine ⟨⟨p, s'.positions⟩, ?_, hv⟩
  unfold parse
  rw [hp]

theorem derivedBy_unique {tokens : TokenVector} {d d' : Tree .Program} (h : DerivedBy tokens d)
    (h' : DerivedBy tokens d') : d = d' :=
  Tree.eq_of_yield_eq (Eq.trans h (Eq.symm h'))

/-- A derivation of what was parsed denotes the program. -/
theorem denotes_of_parse {tokens : TokenVector} {p : ParsedProgram} (hp : parse tokens = .ok p)
    {d : Tree .Program} (hd : DerivedBy tokens d) : p.ast.withoutIds = d.toProgram := by
  obtain ⟨d', hd', hv, _⟩ := parse_ok hp
  rw [derivedBy_unique hd hd']
  exact hv

/-- The parser accepts exactly the grammar: it returns a program just when the
tokens have a derivation, there is at most one derivation, it denotes the
program returned, and without one the parser throws. -/
theorem parse_accepts_grammar (tokens : TokenVector) :
    ((∃ p, parse tokens = .ok p) ↔ ∃ d, DerivedBy tokens d) ∧
    (∀ p, parse tokens = .ok p → ∀ d, DerivedBy tokens d → p.ast.withoutIds = d.toProgram) ∧
    (∀ d d', DerivedBy tokens d → DerivedBy tokens d' → d = d') ∧
    ((∀ d, ¬ DerivedBy tokens d) → ∃ e, e ≠ .outOfFuel ∧ parse tokens = .error e) := by
  refine ⟨⟨?_, ?_⟩, fun p hp d hd => denotes_of_parse hp hd, fun d d' h h' =>
    derivedBy_unique h h', ?_⟩
  · rintro ⟨p, hp⟩
    obtain ⟨d, hd, _⟩ := parse_ok hp
    exact ⟨d, hd⟩
  · rintro ⟨d, hd⟩
    obtain ⟨p, hp, _⟩ := parse_of_derivedBy hd
    exact ⟨p, hp⟩
  · intro hnone
    cases hp : parse tokens with
    | ok p =>
      obtain ⟨d, hd, _⟩ := parse_ok hp
      exact absurd hd (hnone d)
    | error e =>
      refine ⟨e, fun he => ?_, rfl⟩
      exact parse_ne_outOfFuel tokens (by rw [hp, he])

end mf.parsing
