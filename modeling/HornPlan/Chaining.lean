import HornPlan.Clause
import HornPlan.Distinct
import HornPlan.Unification

/-!
# Forward chaining

`satisfy` matches a conjunction of goals against a list of facts, goal by goal from left to right,
and lists every way to do so.  A round of chaining matches the antecedents of every rule against the
facts known so far and adds the consequents that are new; chaining repeats rounds until one adds
nothing.

An argument of a derived fact is part of an argument of an asserted fact or of the consequent of a
rule, when the rules are safe.  So there are at most `capacity` facts to derive, and every round but
the last derives one of them.
-/

namespace HornPlan

/-! ## Matching goals against facts -/

/-- The facts that share predicate and number of arguments with a goal. -/
def Atom.candidates (goal : Atom) (facts : List Atom) : List Atom :=
  facts.filter fun f => f.key == goal.key

/-- Every extension of a substitution that makes each goal equal to a fact, in the order of the
facts for the first goal, then for the second, and so on. -/
def satisfy (facts : List Atom) : (goals : List Atom) → Substitution → List Substitution
  | [], σ => [σ]
  | goal :: goals, σ => (goal.candidates facts).flatMap fun f =>
    match σ.unifyAtoms? goal f with
    | some θ => satisfy facts goals θ
    | none => []

/-- The first of the extensions that `satisfy` lists; no other one is computed. -/
def firstMatch? (facts : List Atom) : (goals : List Atom) → Substitution → Option Substitution
  | [], σ => some σ
  | goal :: goals, σ => (goal.candidates facts).findSome? fun f =>
    match σ.unifyAtoms? goal f with
    | some θ => firstMatch? facts goals θ
    | none => none

theorem firstMatch?_eq_head? (facts goals : List Atom) (σ : Substitution) :
    firstMatch? facts goals σ = (satisfy facts goals σ).head? := by
  induction goals generalizing σ with
  | nil => rfl
  | cons goal goals ih =>
    rw [firstMatch?, satisfy, List.head?_flatMap]
    congr 1
    funext f
    split
    · exact ih _
    · rfl

/-- Nothing can be looked up by the predicate of an atom that is a list or an object. -/
def Atom.requireKey (a : Atom) : Except Error Unit :=
  if a.predicate.isIndexable then .ok () else .error .wrongType

/-- `satisfy` for goals as they are handed over.  A variable among them may be bound to the goal by
the time its turn comes; a goal that is no atom then fails the whole list. -/
def trySatisfy (facts : List Atom) :
    (goals : List Term) → Substitution → Except Error (List Substitution)
  | [], σ => .ok [σ]
  | t :: goals, σ => do
    match (← σ.tryApply t).atom? with
    | none => throw .unsupported
    | some goal =>
      goal.requireKey
      let found ← (goal.candidates facts).mapM fun f => do
        match ← σ.tryUnify goal.toTerm f.toTerm with
        | some θ => trySatisfy facts goals θ
        | none => return []
      return found.flatten

/-- The variables of a conjunction, each once. -/
def queryVariables (goals : List Atom) : List Variable :=
  (goals.flatMap Atom.vars).eraseDups

/-- The distinct answers to a conjunction: what its variables are bound to. -/
def answers (facts goals : List Atom) : List Substitution :=
  distinctBy Substitution.code
    ((satisfy facts goals ∅).map fun θ => θ.restrict (queryVariables goals))

theorem answers_eq_eraseDups (facts goals : List Atom) :
    answers facts goals =
      ((satisfy facts goals ∅).map fun θ => θ.restrict (queryVariables goals)).eraseDups :=
  distinctBy_eq_eraseDups Substitution.code (fun _ _ => Substitution.beq_iff_code_eq) _

/-- The first answer to a conjunction. -/
def firstAnswer? (facts goals : List Atom) : Option Substitution :=
  (firstMatch? facts goals ∅).map fun θ => θ.restrict (queryVariables goals)

/-! ## Rounds -/

/-- What a rule concludes from facts, in the order of the matches of its antecedents. -/
def Clause.conclusions (rule : Clause) (facts : List Atom) : List Atom :=
  (satisfy facts rule.antecedents ∅).map fun θ => θ.applyAtom rule.consequent

/-- A rule fails on facts when it comes to something by which nothing can be looked up: to the
predicate of an antecedent, once those before it are matched, or to a conclusion. -/
def Clause.misfires (rule : Clause) (facts : List Atom) : Bool :=
  let sound := rule.antecedents.takeWhile (·.predicate.isIndexable)
  (sound.length < rule.antecedents.length || !rule.consequent.isIndexable)
    && (firstMatch? facts sound ∅).isSome

/-- The facts that a round adds: what the rules conclude and was not known, each once. -/
def newFacts (rules : List Clause) (known : List Atom) : List Atom :=
  distinctFrom Atom.code (codesOf Atom.code known) (rules.flatMap (·.conclusions known))

theorem newFacts_eq_eraseDups (rules : List Clause) (known : List Atom) :
    newFacts rules known =
      ((rules.flatMap (·.conclusions known)).filter fun f => !known.contains f).eraseDups := by
  unfold newFacts
  rw [distinctFrom_eq_eraseDups Atom.code fun _ _ => Atom.beq_iff_code_eq]
  congr 1
  refine List.filter_congr fun f _ => ?_
  rw [contains_codesOf Atom.code fun _ _ => Atom.beq_iff_code_eq]

/-- A round of chaining, in which no rule may fail. -/
def round (rules : List Clause) (known : List Atom) : Except Error (List Atom) :=
  if rules.any (·.misfires known) then .error .wrongType else .ok (newFacts rules known)

/-- Chains until a round adds nothing, for at most `rounds` rounds. -/
def saturate (rules : List Clause) : (rounds : Nat) → (known : List Atom) → Except Error (List Atom)
  | 0, known => .ok known
  | rounds + 1, known => do
    match ← round rules known with
    | [] => return known
    | added => saturate rules rounds (known ++ added)

/-- Looks for an answer before chaining and after every round.  Where there is none, the facts that
chaining ended with are returned in its place. -/
def chainUntilAnswer (rules : List Clause) (goals : List Atom) :
    (rounds : Nat) → (known : List Atom) → Except Error (Substitution ⊕ List Atom)
  | 0, known =>
    match firstAnswer? known goals with
    | some answer => .ok (.inl answer)
    | none => .ok (.inr known)
  | rounds + 1, known =>
    match firstAnswer? known goals with
    | some answer => .ok (.inl answer)
    | none => do
      match ← round rules known with
      | [] => return .inr known
      | added => chainUntilAnswer rules goals rounds (known ++ added)

/-! ## How many facts there can be -/

/-- The rules with the variables of each one renamed by its number. -/
def renamedRules (rules : List Clause) : List Clause :=
  rules.zipIdx.map fun (rule, i) => rule.standardizeApart ("_" ++ toString i)

/-- The terms that can stand as arguments of derived facts. -/
def argumentTerms (facts : List Atom) (rules : List Clause) : List Term :=
  distinctBy Term.code
    ((facts ++ rules.map (·.consequent)).flatMap fun a => Term.subtermsList a.args)

/-- A bound on the number of facts that rules derive from facts: for each rule, the ways to fill the
arguments of its consequent. -/
def capacity (facts : List Atom) (rules : List Clause) : Nat :=
  rules.foldr (fun rule bound =>
    Nat.pow (argumentTerms facts rules).length rule.consequent.args.length + bound) 0

/-- The asserted facts, each once.  Every fact has to be one that can be looked up. -/
def assertedFacts (facts : List Atom) : Except Error (List Atom) :=
  if facts.all Atom.isIndexable then .ok (distinctBy Atom.code facts) else .error .wrongType

/-- The facts entailed by asserted facts and rules, in the order of their derivation. -/
def closureOf (facts : List Atom) (rules : List Clause) : Except Error (List Atom) := do
  saturate (renamedRules rules) (capacity facts rules + 1) (← assertedFacts facts)

end HornPlan
