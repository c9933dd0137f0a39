import HornPlan.Chaining
import HornPlan.TermData

/-!
# Knowledge bases

A knowledge base is a list of safe clauses in the order in which they were told.  It answers queries
by forward chaining, and keeps the facts that chaining ended with until a clause is added or
removed.

A conjunction of several goals is answered from all entailed facts.  A single goal may be answered
before chaining has come to its end; the answer is the same.
-/

namespace HornPlan

/-- Safe clauses, and the facts they entail where those are known. -/
structure KnowledgeBase where
  clauses : List Clause
  safe : ∀ c ∈ clauses, c.Safe
  cached : Option (List Atom)

namespace KnowledgeBase

/-- No clauses. -/
def empty : KnowledgeBase :=
  ⟨[], fun _ h => absurd h List.not_mem_nil, none⟩

/-! ## Telling and retracting -/

/-- Adds a safe clause at the end. -/
def addSafe (kb : KnowledgeBase) (c : Clause) (h : c.Safe) : KnowledgeBase :=
  ⟨kb.clauses ++ [c], fun d hd =>
    (List.mem_append.1 hd).elim (kb.safe d) fun hd => List.mem_singleton.1 hd ▸ h, none⟩

/-- Adds a clause at the end, if it is safe. -/
def tell (kb : KnowledgeBase) (c : Clause) : Except Error KnowledgeBase :=
  match h : c.refusal? with
  | none => .ok (kb.addSafe c (Clause.safe_of_refusal?_eq_none h))
  | some error => .error error

/-- Removes the first occurrence of a clause, and says whether there was one. -/
def retract (kb : KnowledgeBase) (c : Clause) : Bool × KnowledgeBase :=
  if kb.clauses.contains c then
    (true, ⟨kb.clauses.erase c, fun d hd => kb.safe d (List.mem_of_mem_erase hd), none⟩)
  else (false, kb)

/-- The knowledge base of a list of clauses. -/
def ofClauses (clauses : List Clause) : Except Error KnowledgeBase :=
  clauses.foldlM tell empty

/-- The knowledge base of what stands for clauses; every one is told as soon as it is read. -/
def ofStatements (clauses : List Statement) : Except Error KnowledgeBase :=
  clauses.foldlM (fun kb c => do kb.tell (← c.clause?)) empty

/-! ## What it holds -/

/-- The asserted facts, in order. -/
def facts (kb : KnowledgeBase) : List Atom :=
  Clause.factsOf kb.clauses

/-- The rules, in order. -/
def rules (kb : KnowledgeBase) : List Clause :=
  kb.clauses.filter (·.isRule)

/-- How many facts and rules there are, in words. -/
def summary (kb : KnowledgeBase) : String :=
  "KnowledgeBase(" ++ toString kb.facts.length ++ " facts, " ++ toString kb.rules.length ++
    " rules)"

/-! ## Inference -/

/-- The entailed facts, from the cache where it is filled. -/
def closure (kb : KnowledgeBase) : Except Error (List Atom) :=
  match kb.cached with
  | some facts => .ok facts
  | none => closureOf kb.facts kb.rules

/-- The entailed facts, and the knowledge base with the cache filled. -/
def saturated (kb : KnowledgeBase) : Except Error (List Atom × KnowledgeBase) := do
  let facts ← kb.closure
  return (facts, { kb with cached := some facts })

/-- Every goal has the predicate of a fact or of the consequent of a rule.  The predicates are put
down first, then the goals are looked up one after the other. -/
def couldMatch (kb : KnowledgeBase) (goals : List Atom) : Except Error Bool := do
  kb.clauses.forM fun c => c.consequent.requireKey
  goals.allM fun g => do
    g.requireKey
    return kb.clauses.any fun c => c.consequent.key == g.key

/-- Refuses goals with a variable that has a list for its name. -/
def requireNames (goals : List Atom) : Except Error Unit :=
  if goals.any Atom.hasListedVariable then .error .wrongType else .ok ()

/-- All answers to a conjunction, each once. -/
def askAll (kb : KnowledgeBase) (goals : List Atom) :
    Except Error (List Substitution × KnowledgeBase) := do
  requireNames goals
  if ← kb.couldMatch goals then
    let (facts, kb) ← kb.saturated
    return (answers facts goals, kb)
  else return ([], kb)

/-- The first answer to a conjunction. -/
def ask (kb : KnowledgeBase) (goals : List Atom) :
    Except Error (Option Substitution × KnowledgeBase) := do
  requireNames goals
  if ← kb.couldMatch goals then
    -- which answer to a conjunction comes first depends on how far chaining has got
    if kb.cached.isSome || goals.length > 1 then
      let (facts, kb) ← kb.saturated
      return (firstAnswer? facts goals, kb)
    else
      match ← chainUntilAnswer (renamedRules kb.rules) goals (capacity kb.facts kb.rules + 1)
        (← assertedFacts kb.facts) with
      | .inl answer => return (some answer, kb)
      | .inr known => return (none, { kb with cached := some known })
  else return (none, kb)

/-! ## As data -/

/-- A clause as a JSON document. -/
def clauseData (c : Clause) : Json :=
  .obj [("consequent", c.consequent.toData), ("antecedents", .arr (c.antecedents.map Atom.toData))]

/-- A knowledge base as a JSON document; what is cached is left out. -/
def toData (kb : KnowledgeBase) : Json :=
  .obj [("clauses", .arr (kb.clauses.map clauseData))]

/-- Reads a clause. -/
def clauseOfData? (document : Json) : Except Error Clause := do
  let consequent ← Term.ofData? (← document.require "consequent")
  let antecedents ← Term.ofDataList? (← document.optionalItems "antecedents")
  Clause.ofParts? antecedents consequent

/-- Reads a knowledge base; every clause is told as soon as it is read. -/
def ofData? (document : Json) : Except Error KnowledgeBase := do
  let clauses ← (← document.require "clauses").requireItems
  clauses.foldlM (fun kb item => do kb.tell (← clauseOfData? item)) empty

end KnowledgeBase

end HornPlan
