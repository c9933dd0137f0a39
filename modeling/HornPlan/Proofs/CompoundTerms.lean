import HornPlan.Proofs.FlatFacts
import HornPlan.Proofs.ShortestPlans

/-!
# Planning fails only at compound terms

A search by the name of a strategy, other than the interactive one, finds a plan or says why there
is none, unless a grounding fails.  A grounding fails where a parameter is matched with a compound
term, and the error shows that term, which is part of a fact that is entailed or that planning comes
upon (`Proper.answers_or_refuses`).  That can happen (`not_forall_exists_answer`).

Where the initial facts, the entailed facts and what actions add have no compound terms, none ever
turns up, and every planning is answered (`Proper.exists_answer_of_isFlat`).
-/

namespace HornPlan

/-- What a strategy takes for granted of the nodes that wait: A\* adds their estimates to their
depths. -/
def StrategyName.Fit (p : Problem) : StrategyName → State → Prop
  | .astar => p.HasEstimate
  | _ => fun _ => True

namespace Problem

variable {p : Problem} {goals : List Atom} {name : StrategyName} {lines : List String} {b : Nat}
  {maxNodes : Int} {outOfTime verbose : Bool} {answer : Except Error PlanResult} {s t : State}
  {e : Error}

/-! ## The strategies with a name -/

theorem Proper.exists_reliable (hp : p.Proper) (hname : name ≠ .interactive) (lines : List String) :
    ∃ Valid : (name.strategy p lines).Memory → Prop, Valid (name.strategy p lines).memory ∧
      Search.Admissible p (name.strategy p lines).policy Valid ∧
      Search.Reliable p (name.strategy p lines).policy Valid (name.Fit p) := by
  cases name with
  | breadthFirst => exact ⟨_, trivial, Search.admissible_of_keepAll rfl, p.reliable_oldest⟩
  | depthFirst => exact ⟨_, trivial, Search.admissible_of_keepAll rfl, p.reliable_newest⟩
  | astar => exact ⟨_, Estimates.valid_empty, hp.admissible_leastCost, hp.reliable_leastCost⟩
  | interactive => exact absurd rfl hname

theorem Proper.fit_initialState (hp : p.Proper)
    (h : p.unreachable? (.start p.initialState) = .ok none) (name : StrategyName) :
    name.Fit p p.initialState := by
  cases name with
  | astar => exact hp.hasEstimate_of_unreachable? h
  | breadthFirst | depthFirst | interactive => trivial

/-- **Planning for a conjunction answers, or it fails where a grounding does.** -/
theorem Proper.named_answers_or_fails (hp : p.Proper) (hgoals : p.goal = .conjunction goals)
    (hname : name ≠ .interactive)
    (hanswer : (p.plan ⟨.whole b, .whole maxNodes, .ok outOfTime, verbose⟩
      (name.strategy p lines)).answer = answer) : (∃ result, answer = .ok result) ∨
      ∃ e, answer = .error e ∧ p.FailsFrom p.initialState e := by
  rcases hunreachable : p.unreachable? (.start p.initialState) with e | _ | layers
  · rw [← hanswer, answer_of_unreachable?_eq_error hunreachable]
    exact Or.inr ⟨e, rfl, hp.failsFrom_of_unreachable? hunreachable⟩
  · obtain ⟨_, hmemory, hpolicy, hreliable⟩ := hp.exists_reliable hname lines
    exact hp.answers_or_fails hgoals hpolicy hreliable hmemory
      (hp.fit_initialState hunreachable name) hunreachable
      hanswer
  · rw [← hanswer, answer_of_unreachable?_eq_some hunreachable]
    exact Or.inl ⟨_, rfl⟩

/-! ## Compound terms -/

/-- A term is part of a fact that is entailed, or of one that planning comes upon. -/
def ComesUpon (p : Problem) (t : Term) : Prop :=
  ∃ entailed s, p.kb.closure = .ok entailed ∧ Relation.ReflTransGen p.Explores p.initialState s ∧
    ∃ c ∈ s.facts ++ entailed, ∃ u ∈ c.args, t ∈ u.subterms

/-- Where a grounding fails there is a compound term that it cannot take for a parameter. -/
theorem FailsFrom.exists_compound (h : p.FailsFrom p.initialState e) (hp : p.Proper) :
    ∃ schema ∈ p.actions, ∃ f args, e = .schema (.badParameter schema.name (.app f args)) ∧
      p.ComesUpon (.app f args) := by
  obtain ⟨s, hs, schema, hschema, hfailed⟩ := h
  have hproper : s.Proper := proper_of_explores hp hs hp.initialState
  obtain ⟨entailed, hentailed, hknowledge, hclosure⟩ := hp.exists_knowledge
  obtain ⟨f, args, rfl, c, hc, u, hu, hmem⟩ := Action.exists_of_groundings_eq_error
    (hp.actions schema hschema) (fun f hf => hproper.closed f (Enumeration.mem_listing.mp hf))
    hknowledge hclosure
    hfailed
  rw [List.mem_append, Enumeration.mem_listing, ← List.mem_append] at hc
  exact ⟨schema, hschema, f, args, rfl, entailed, s, hentailed, hs, c, hc, u, hu, hmem⟩

/-- **Planning answers, or it refuses a compound term for a parameter**: a plan or a reason why
there is none, whatever the limits, or the error that shows a schema and the term, which planning
has come upon. -/
theorem Proper.answers_or_refuses (hp : p.Proper) (hgoals : p.goal = .conjunction goals)
    (hname : name ≠ .interactive)
    (hanswer : (p.plan ⟨.whole b, .whole maxNodes, .ok outOfTime, verbose⟩
      (name.strategy p lines)).answer = answer) :
      (∃ result, answer = .ok result) ∨ ∃ schema ∈ p.actions, ∃ f args,
        answer = .error (.schema (.badParameter schema.name (.app f args))) ∧
        p.ComesUpon (.app f args) := by
  rcases hp.named_answers_or_fails hgoals hname hanswer with hanswers | ⟨e, rfl, hfails⟩
  · exact Or.inl hanswers
  · obtain ⟨schema, hschema, f, args, rfl, hcomes⟩ := hfails.exists_compound hp
    exact Or.inr ⟨schema, hschema, f, args, rfl, hcomes⟩

/-- Whatever is there can be taken: a thing, and its front, which has no name but that of the
thing. -/
def takeWhatIsThere : Except Error Problem := do
  let take ← Worlds.action "Take" ["x"] [("At", ["x"])] [] [("Has", ["x"])] [] []
  let thing ← Worlds.atom ("At", ["A"])
  let front ← Worlds.atom ("F", ["A"])
  make? (.str "take_what_is_there") [.inl (.ofAtom ⟨thing.predicate, [front.toTerm]⟩),
    .inl (.ofAtom thing)]
    [.inl take] (← Worlds.goal [("Has", ["A"])])

theorem exists_takeWhatIsThere : ∃ p goals e, takeWhatIsThere = .ok p ∧ p.Proper ∧
    p.goal = .conjunction goals ∧
    p.unreachable? (.start p.initialState) = .error e := by
  obtain ⟨p, htake, hproper⟩ : ∃ p, takeWhatIsThere = .ok p ∧ p.Proper :=
    exists_ok_of_isProper (by decide +kernel)
  have hgoals : (takeWhatIsThere.toOption.bind goals?).isSome := by decide +kernel
  -- matching goes through functions whose recursion is not structural
  have hfails : (takeWhatIsThere.toOption.map fun p =>
      (p.unreachable? (.start p.initialState)).toOption.isNone) = some true := by
    decide +kernel
  obtain ⟨e, hunreachable⟩ := exists_error_of_isNone htake hfails
  rw [htake] at hgoals
  obtain ⟨goals, hgoals⟩ := Option.isSome_iff_exists.mp hgoals
  exact ⟨p, goals, e, htake, hproper, goals?_eq_some.mp hgoals, hunreachable⟩

/-- The front is no parameter, though a plan takes the thing only. -/
theorem answers_or_refuses_takeWhatIsThere : ∃ p goals e, takeWhatIsThere = .ok p ∧ p.Proper ∧
    p.goal = .conjunction goals ∧ StrategyName.astar ≠ .interactive ∧
    (p.plan ⟨.whole (1 : Nat), .whole 100, .ok false, false⟩
      (StrategyName.astar.strategy p [])).answer
      = .error e ∧
    ∃ schema ∈ p.actions, ∃ f args, e = .schema (.badParameter schema.name (.app f args)) ∧
      p.ComesUpon (.app f args) := by
  obtain ⟨p, goals, e, htake, hproper, hgoals, hunreachable⟩ := exists_takeWhatIsThere
  have hanswer : (p.plan ⟨.whole (1 : Nat), .whole 100, .ok false, false⟩
      (StrategyName.astar.strategy p [])).answer = .error e :=
      answer_of_unreachable?_eq_error hunreachable
  have hname : StrategyName.astar ≠ .interactive := nofun
  rcases hproper.answers_or_refuses hgoals hname hanswer with
      ⟨_, hresult⟩ | ⟨schema, hschema, f, args, heq, h⟩
  · cases hresult
  · exact ⟨p, goals, e, htake, hproper, hgoals, hname, hanswer, schema, hschema, f, args,
      Except.error.inj heq, h⟩

/-- Planning does not always answer. -/
theorem not_forall_exists_answer :
    ¬∀ (p : Problem) (goals : List Atom) (name : StrategyName) (b : Nat)
    (maxNodes : Int), p.Proper → p.goal = .conjunction goals → name ≠ .interactive → ∃ result,
      (p.plan ⟨.whole b, .whole maxNodes, .ok false, false⟩ (name.strategy p [])).answer =
      .ok result := by
  intro h
  obtain ⟨p, goals, e, -, hproper, hgoals, hunreachable⟩ := exists_takeWhatIsThere
  obtain ⟨result, hresult⟩ := h p goals .breadthFirst 1 100 hproper hgoals nofun
  rw [answer_of_unreachable?_eq_error hunreachable] at hresult
  cases hresult

/-! ## Problems without compound terms -/

/-- No initial fact and no entailed one has a compound term for an argument, and no action adds
one. -/
structure IsFlat (p : Problem) : Prop where
  initial : ∀ f ∈ p.initialState.facts, f.isFlat
  entailed : ∀ entailed, p.kb.closure = .ok entailed → ∀ f ∈ entailed, f.isFlat
  adds : ∀ schema ∈ p.actions, ∀ b ∈ schema.adds, ∀ t ∈ b.args, t.isParameter

/-- What an action adds is flat. -/
theorem IsFlat.isFlat_of_mem_adds (h : p.IsFlat) (hp : p.Proper) {a : Action}
    (ha : p.GroundedAt s a) {f : Atom} (hf : f ∈ a.adds) : f.isFlat := by
  obtain ⟨schema, hschema, _, σ, -, hσ⟩ := ha
  rw [hσ.instance_of.adds] at hf
  obtain ⟨b, hb, rfl⟩ := List.mem_map.mp (mem_of_mem_eraseDups hf)
  have hatom : b ∈ schema.atoms := by simp [Schema.atoms, hb]
  have hproper : b.isProper := (Schema.isProper_iff.mp (hp.actions schema hschema)).2.2 b hatom
  refine List.all_eq_true.mpr (List.forall_mem_map.mpr ?_)
  intro t ht
  have hparameter := h.adds schema hschema b hb t ht
  cases t with
  | const c => rfl
  | var x =>
      -- the variables of a grounding have become constants
      obtain ⟨c, hc⟩ := hσ.constants x (schema.mem_vars hatom (Atom.mem_vars.mpr ⟨_, ht, by simp⟩))
      simp [hc]
  | app => cases hparameter
  | foreign => cases (Atom.isProper_iff.mp hproper).2 _ ht

/-- Planning comes from a state without compound terms to others without them. -/
theorem IsFlat.explores (h : p.IsFlat) (hp : p.Proper) (hs : s.Proper)
    (hflat : ∀ f ∈ s.facts, f.isFlat) (hstep : p.Explores s t) : ∀ f ∈ t.facts, f.isFlat := by
  intro f hf
  cases hstep with
  | successor hl hmem =>
      obtain ⟨schema, hschema, grounded, hgrounded, ha, -, rfl⟩ :=
        exists_of_mem_successors hs hl hmem
      have hat := hp.groundedAt hs hschema hgrounded ha
      rcases (State.mem_insertAll fun f hf => (hat.closed_adds hp f hf).1).mp hf with hf | hf
      · exact h.isFlat_of_mem_adds hp hat hf
      · exact hflat f ((State.mem_removeAll hs).mp hf).1
  | layer hraises =>
      obtain ⟨added, hadded, rfl⟩ := hraises
      have hclosed : ∀ f ∈ added, f.Closed := fun f hf =>
        RelaxedGraph.closed_of_mem_additions hp hs hadded hf
      rcases (State.mem_insertAll fun f hf => (hclosed f hf).1).mp hf with hf | hf
      · obtain ⟨-, schema, hschema, grounded, hgrounded, a, ha, hfa⟩ :=
          (RelaxedGraph.additions_spec hs hadded).1 f hf
        exact h.isFlat_of_mem_adds hp (hp.groundedAt hs hschema hgrounded ha) hfa
      · exact hflat f hf

/-- **No compound term turns up where there was none.** -/
theorem IsFlat.not_comesUpon (h : p.IsFlat) (hp : p.Proper) (f : Symbol) (args : List Term) :
    ¬p.ComesUpon (.app f args) := by
  rintro ⟨entailed, s, hentailed, hs, c, hc, u, hu, hmem⟩
  have hflat : ∀ f ∈ s.facts, f.isFlat := by
    clear hc
    induction hs with
    | refl => exact h.initial
    | tail hsteps hstep ih =>
        exact h.explores hp (proper_of_explores hp hsteps hp.initialState) ih hstep
  have hc : c.isFlat := (List.mem_append.mp hc).elim (hflat c) (h.entailed entailed hentailed c)
  obtain ⟨k, rfl⟩ := Atom.exists_const_of_isFlat hc hu
  cases List.mem_singleton.mp hmem

/-- **Without compound terms every planning for a conjunction is answered.** -/
theorem Proper.exists_answer_of_isFlat (hp : p.Proper) (hgoals : p.goal = .conjunction goals)
    (hname : name ≠ .interactive) (hflat : p.IsFlat) : ∃ result,
      (p.plan ⟨.whole b, .whole maxNodes, .ok outOfTime, verbose⟩ (name.strategy p lines)).answer
        = .ok result := by
  rcases hp.named_answers_or_fails hgoals hname rfl with hanswers | ⟨e, -, hfails⟩
  · exact hanswers
  · obtain ⟨_, -, f, args, -, hcomes⟩ := hfails.exists_compound hp
    exact absurd hcomes (hflat.not_comesUpon hp f args)

end Problem

end HornPlan
