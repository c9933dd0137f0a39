import HornPlan.Proofs.Consequences
import HornPlan.Proofs.Levels

/-!
# Only groundings fail

On proper states nothing that a search asks of a problem can fail but the grounding of an action,
which may come upon a parameter that is neither a variable nor a constant.  Whether a conjunction
holds is always decided (`Problem.Proper.exists_reaches`).

What is asked about a state leads to others: to its successors, and to the layers above it
(`Problem.Explores`).  Successors and estimates fail with the error of a grounding in one of these
(`Problem.Proper.failsFrom_of_successors`, `Problem.Proper.failsFrom_of_estimate`).
-/

namespace HornPlan

variable {s : State} {goals : List Atom}

namespace Problem

variable {p : Problem} {e : Error}

theorem Proper.exists_reaches (hp : p.Proper) (hgoals : p.goal = .conjunction goals)
    (hs : s.Proper) :
    ∃ b, p.reaches s = .ok b := by
  rw [reaches, hgoals]
  exact hs.exists_holds hp.kb.base.rules (hp.goals goals hgoals) p.order

/-! ## Failures of groundings -/

/-- An error with which the grounding of an action of the problem fails in some state. -/
def GroundingFailure (p : Problem) (e : Error) : Prop :=
  ∃ s : State, s.Proper ∧
    ∃ schema ∈ p.actions, schema.groundings (p.order.listing s) p.knowledge = .error e

/-- What planning looks at next: a successor of a state, or the layer that the state raises. -/
inductive Explores (p : Problem) (s : State) : State → Prop
  | successor {t : State} {a : Action} {l : List (Action × State)} (hl : p.successors s = .ok l)
      (hmem : (a, t) ∈ l) : Explores p s t
  | layer {t : State} (h : RelaxedGraph.Raises p s t) : Explores p s t

/-- An error with which the grounding of an action fails in a state that planning comes to from this
one. -/
def FailsFrom (p : Problem) (s : State) (e : Error) : Prop :=
  ∃ t, Relation.ReflTransGen p.Explores s t ∧
    ∃ schema ∈ p.actions, schema.groundings (p.order.listing t) p.knowledge = .error e

theorem Explores.proper (hp : p.Proper) {s t : State} (h : p.Explores s t) (hs : s.Proper) :
    t.Proper := by
  cases h with
  | successor hl hmem => exact hp.successor hs hl hmem
  | layer h =>
      obtain ⟨added, hadded, rfl⟩ := h
      exact hs.insertAll fun f hf => RelaxedGraph.closed_of_mem_additions hp hs hadded hf

theorem proper_of_explores (hp : p.Proper) {s t : State} (h : Relation.ReflTransGen p.Explores s t)
    (hs : s.Proper) : t.Proper := by
  induction h with
  | refl => exact hs
  | tail _ hstep ih => exact hstep.proper hp ih

theorem Leads.explores {s t : State} {as : List Action} (h : p.Leads s as t) :
    Relation.ReflTransGen p.Explores s t := by
  induction h with
  | nil => exact .refl
  | cons hl hmem _ ih => exact .head (.successor hl hmem) ih

theorem FailsFrom.of_explores {s t : State} (h : p.FailsFrom t e)
    (hexplores : Relation.ReflTransGen p.Explores s t) : p.FailsFrom s e := by
  obtain ⟨u, hu, hfailed⟩ := h
  exact ⟨u, hexplores.trans hu, hfailed⟩

theorem FailsFrom.groundingFailure (hp : p.Proper) {s : State} (h : p.FailsFrom s e)
    (hs : s.Proper) :
    p.GroundingFailure e := by
  obtain ⟨t, ht, hfailed⟩ := h
  exact ⟨t, proper_of_explores hp ht hs, hfailed⟩

theorem exists_of_successors_eq_error (hs : s.Proper) (h : p.successors s = .error e) :
    ∃ schema ∈ p.actions, schema.groundings (p.order.listing s) p.knowledge = .error e := by
  rcases bind_eq_error.mp h with h | ⟨_, -, h⟩
  · rw [applicableActions, hs.factsByPredicate_eq, ok_bind] at h
    rcases bind_eq_error.mp h with h | ⟨_, -, h⟩
    · obtain ⟨schema, hschema, h⟩ := exists_of_mapM_eq_error h
      rcases bind_eq_error.mp h with h | ⟨_, -, h⟩
      · exact ⟨schema, hschema, h⟩
      · cases h
    · cases h
  · cases h

theorem Proper.failsFrom_of_successors (hs : s.Proper) (h : p.successors s = .error e) :
    p.FailsFrom s e :=
  ⟨s, .refl, exists_of_successors_eq_error hs h⟩

end Problem

namespace RelaxedGraph

variable {p : Problem} {g : RelaxedGraph} {e : Error}

theorem failsFrom_of_additions {layer : State} (hlayer : layer.Proper)
    (h : additions p layer = .error e) : p.FailsFrom layer e := by
  rw [additions, hlayer.factsByPredicate_eq, ok_bind] at h
  rcases bind_eq_error.mp h with h | ⟨_, -, h⟩
  · obtain ⟨schema, hschema, h⟩ := exists_of_mapM_eq_error h
    exact ⟨layer, .refl, schema, hschema, h⟩
  · cases h

theorem Layered.explores_top (h : Layered p s g) : Relation.ReflTransGen p.Explores s g.top := by
  have hchain := h.chain.imp fun _ _ hraises => Problem.Explores.layer hraises
  have hne : g.layers ≠ [] := List.cons_ne_nil _ _
  have hlast : g.layers.getLast hne = g.top :=
    Option.some.inj ((List.getLast?_eq_some_getLast hne).symm.trans (getLast?_layers g))
  have hsteps := List.relationReflTransGen_of_exists_isChain g.layers hchain hne
  rwa [hlast, show g.layers.head hne = s from h.first] at hsteps

theorem exists_levelWhere {passes : State → Except Error Bool} {layers : List State}
    (h : ∀ layer ∈ layers, ∃ b, passes layer = .ok b) (index : Nat) :
    ∃ level, levelWhere passes index layers = .ok level := by
  induction layers generalizing index with
  | nil => exact ⟨none, rfl⟩
  | cons layer rest ih =>
      obtain ⟨⟨b, hb⟩, hrest⟩ := List.forall_mem_cons.mp h
      rw [levelWhere, hb, ok_bind]
      cases b with
      | true => exact ⟨some index, rfl⟩
      | false => exact ih hrest (index + 1)

theorem Layered.failsFrom_of_goalLevelFrom (hp : p.Proper) (h : Layered p s g)
    (hgoals : ∀ goal ∈ goals, goal.isProper) {worst : Nat} {next : RelaxedGraph}
    (hlevel : goalLevelFrom p worst goals g = (.error e, next)) : p.FailsFrom s e := by
  induction goals generalizing worst g with
  | nil => cases (Prod.mk.inj hlevel).1
  | cons goal goals ih =>
      obtain ⟨hgoal, hrest⟩ := List.forall_mem_cons.mp hgoals
      rw [RelaxedGraph.goalLevelFrom] at hlevel
      split at hlevel
      · rename_i hg'
        exact ih (h.goalLevelOf_cases hp hgoal hg').1 hrest hlevel
      · cases (Prod.mk.inj hlevel).1
      · rename_i error g' hg'
        obtain ⟨herror, -⟩ := Prod.mk.inj hlevel
        obtain rfl := Except.error.inj herror
        obtain ⟨hlayered, hzero | ⟨-, -, hfailed⟩⟩ := h.goalLevelOf_cases hp hgoal hg'
        · cases hzero
        -- asking whether a layer matches does not fail, so it was the top layer that could not be
        -- raised
        rcases hfailed error rfl with hasked | hadded
        · obtain ⟨level, hlevel⟩ := exists_levelWhere (fun layer hlayer =>
            exists_matchesGoal (hlayered.proper_layers layer hlayer) hgoal) 0
          cases hlevel.symm.trans hasked
        · exact (failsFrom_of_additions hlayered.proper hadded).of_explores hlayered.explores_top

end RelaxedGraph

/-- **An estimate fails only with the error of a grounding** in the state or in a layer above it. -/
theorem Problem.Proper.failsFrom_of_estimate {p : Problem} (hp : p.Proper) (hs : s.Proper)
    {e : Error} (h : p.estimate s = .error e) : p.FailsFrom s e := by
  unfold Problem.estimate at h
  split at h
  · rename_i goals hgoals
    rw [RelaxedGraph.start?_eq_ok hp, ok_bind] at h
    exact (RelaxedGraph.layered_start hs).failsFrom_of_goalLevelFrom hp (hp.goals goals hgoals)
      (Prod.ext h rfl)
  · cases h

end HornPlan
