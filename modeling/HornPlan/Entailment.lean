import HornPlan.KnowledgeBase
import HornPlan.State

/-!
# What follows from a state

A knowledge base reasons, a state is acted upon.  The facts of a state and some rules make a
knowledge base, and the facts of a knowledge base, asserted or entailed, make a state.  A
conjunction holds in a state when it follows from its facts and the rules.

The facts go into the knowledge base as an enumeration meets them, once they are put in the order of
their texts.
-/

namespace HornPlan

/-- The state of facts, each of which has to be one that can be looked up. -/
def State.ofFacts? (facts : List Atom) : Except Error State :=
  if facts.all Atom.isIndexable then .ok (.ofList facts) else .error .wrongType

/-- The knowledge base of rules and the facts of a state: the rules come first, then the facts in
the order of their texts. -/
def Enumeration.knowledgeBase (e : Enumeration) (s : State) (rules : List Clause) :
    Except Error KnowledgeBase := do
  let entries ← e.entries? s
  KnowledgeBase.ofStatements (rules.map .inl ++ entries.map .inr)

/-- `Enumeration.knowledgeBase` with the facts in the order of their codes. -/
def KnowledgeBase.ofState (s : State) (rules : List Clause) : Except Error KnowledgeBase :=
  Enumeration.byCode.knowledgeBase s rules

/-- The facts that a knowledge base asserts. -/
def KnowledgeBase.asserted (kb : KnowledgeBase) : Except Error State :=
  State.ofFacts? kb.facts

/-- The facts that a knowledge base entails. -/
def KnowledgeBase.entailed (kb : KnowledgeBase) : Except Error State :=
  kb.closure.map State.ofList

/-- A goal can be looked up in a state: it is ground and no rule concludes it. -/
def Atom.isLookup (rules : List Clause) (goal : Atom) : Except Error Bool :=
  if goal.isGround then do
    goal.requireKey
    return !rules.any fun r => r.consequent.key == goal.key
  else .ok false

/-- A conjunction of goals follows from the facts of a state and rules; variables of a goal stand
for some term.  Where no rule concludes a goal and all goals are ground, looking them up is
enough. -/
def Enumeration.holds (e : Enumeration) (s : State) (goals : List Atom) (rules : List Clause) :
    Except Error Bool :=
  if goals.isEmpty then .ok true
  else do
    rules.forM fun r => r.consequent.requireKey
    if ← goals.allM (·.isLookup rules) then goals.allM fun g => s.lookUp g.toTerm
    -- some goal has a variable or is concluded by a rule
    else
      let kb ← e.knowledgeBase s rules
      return (← kb.ask goals).1.isSome

/-- `Atom.isLookup` for a goal that may be no atom.  A variable cannot be looked up, and anything
else has no predicate to compare with those of the rules. -/
def Term.isLookup (rules : List Clause) (goal : Term) : Except Error Bool :=
  match goal.atom? with
  | some a => a.isLookup rules
  | none => if goal.isGround then .error .unsupported else .ok false

/-- `holds` for goals and rules as they are handed over.  Where there are goals, a rule has to be a
clause.  Where one of the goals is no atom and none before it needs the rules, the answer is an
error without a look at the state; otherwise a state or a rule that no knowledge base accepts counts
before the goal. -/
def Enumeration.holdsQuery (e : Enumeration) (s : State) (query : Query) (rules : List Statement) :
    Except Error Bool :=
  match query, query.goals? with
  | .one _, .error error => .error error
  | .all [], _ => .ok true
  | query, goals? => do
    let rules ← rules.mapM fun rule => do
      match rule with
      | .inl r => r.consequent.requireKey; return r
      | .inr _ => throw .unsupported
    match query, goals? with
    | .all goals, .error error =>
      let _ ← goals.allM (·.isLookup rules)
      let _ ← e.knowledgeBase s rules
      throw error
    | _, .error error => throw error
    | _, .ok goals => e.holds s goals rules

/-- `Enumeration.holdsQuery` with the facts in the order of their codes. -/
def State.holdsQuery (s : State) (query : Query) (rules : List Statement) : Except Error Bool :=
  Enumeration.byCode.holdsQuery s query rules

end HornPlan
