import HornPlan.Distinct
import HornPlan.Entailment

/-!
# Action schemas

An action has parameters, facts it requires, facts it forbids, facts it adds and facts it deletes.
Its static conditions are never changed by an action; they are asked of a knowledge base and not
looked up in a state.

A schema may have variables.  They are bound by giving an argument for every parameter, or by a
substitution.  Only an action whose parameters are constants can be executed.
-/

namespace HornPlan

/-! ## Schemas -/

/-- What an action is made of. -/
structure Schema where
  name : Symbol
  parameters : List SimpleTerm
  requires : List Atom
  forbids : List Atom
  adds : List Atom
  deletes : List Atom
  static : List Atom

namespace Schema

instance : BEq Schema :=
  ⟨fun s t => s.name == t.name && s.parameters == t.parameters && s.requires == t.requires
    && s.forbids == t.forbids && s.adds == t.adds && s.deletes == t.deletes && s.static == t.static⟩

/-- All atoms of a schema, in the order in which they are checked. -/
def atoms (s : Schema) : List Atom :=
  s.requires ++ s.forbids ++ s.adds ++ s.deletes ++ s.static

/-- The variables among the parameters, in order. -/
def vars (s : Schema) : List Variable :=
  s.parameters.flatMap fun p => p.toTerm.vars

/-- The name and the parameters as an atom. -/
def signature (s : Schema) : Atom :=
  ⟨s.name, s.parameters.map SimpleTerm.toTerm⟩

/-- The text of the signature. -/
def text (s : Schema) : String :=
  s.signature.text

/-- The signature can be printed. -/
def isPrintable (s : Schema) : Bool :=
  s.signature.isPrintable

/-- Something can be looked up by the name and the parameters. -/
def isIndexable (s : Schema) : Bool :=
  s.signature.isIndexable

/-- All parameters are constants. -/
def isGround (s : Schema) : Bool :=
  s.parameters.all SimpleTerm.isConstant

/-- The schema with every list of atoms freed of repetitions. -/
def distinct (s : Schema) : Schema :=
  { s with
    requires := s.requires.eraseDups
    forbids := s.forbids.eraseDups
    adds := s.adds.eraseDups
    deletes := s.deletes.eraseDups
    static := s.static.eraseDups }

/-- No list of atoms has repetitions. -/
def AllDistinct (s : Schema) : Prop :=
  Distinct s.requires ∧ Distinct s.forbids ∧ Distinct s.adds ∧ Distinct s.deletes ∧
    Distinct s.static

theorem allDistinct_distinct (s : Schema) : s.distinct.AllDistinct :=
  ⟨distinct_eraseDups _, distinct_eraseDups _, distinct_eraseDups _, distinct_eraseDups _,
    distinct_eraseDups _⟩

/-- The first atom that uses a predicate with another number of arguments than an earlier one, or
has a variable that is no parameter.  `seen` holds the predicates met so far. -/
def atomFault? (action : Symbol) (parameters : List Variable) :
    (seen : List (Symbol × Nat)) → List Atom → Option SchemaFault
  | _, [] => none
  | seen, a :: rest =>
    let arity := a.args.length
    let first := (seen.lookup a.predicate).getD arity
    let stray := a.vars.filter fun x => !parameters.contains x
    if first ≠ arity then some (.arityClash action a.predicate first arity)
    else if !stray.isEmpty then some (.strayVariables action (variableNames stray) a)
    else atomFault? action parameters (seen ++ [(a.predicate, arity)]) rest

/-- The first thing that is wrong with a schema. -/
def fault? (s : Schema) : Option SchemaFault :=
  if s.vars.Nodup then atomFault? s.name s.vars [] s.atoms
  else some (.repeatedParameter s.name (s.vars.map (·.name)))

end Schema

/-- A schema with distinct variables for parameters, one number of arguments for every predicate, no
variable that is not a parameter, and no repeated atom. -/
structure Action extends Schema where
  distinct : toSchema.AllDistinct
  sound : toSchema.fault? = none

instance : BEq Action :=
  ⟨fun a b => a.toSchema == b.toSchema⟩

/-- The error that a fault of a schema is.  A fault that shows an atom needs one that can be
printed. -/
def SchemaFault.error (fault : SchemaFault) : Error :=
  .printing (match fault with
    | .badParameter _ part => part.isShowable
    | .strayVariables _ _ atom => atom.isPrintable
    | _ => true) (.schema fault)

/-- The action of a schema, with repeated atoms merged. -/
def Schema.toAction? (s : Schema) : Except Error Action :=
  match h : s.distinct.fault? with
  | none => .ok ⟨s.distinct, s.allDistinct_distinct, h⟩
  | some fault => .error fault.error

/-! ## Drafts -/

/-- What a caller hands over to make an action; without a name it makes none.  A bare text among the
parameters stands for the variable or constant of that name.  A strict draft must not forbid what it
requires. -/
structure Draft where
  name : Option Symbol
  parameters : List Term
  requires : List Term
  forbids : List Term
  adds : List Term
  deletes : List Term
  static : List Term
  strict : Bool

/-- What can be a parameter: a variable or a constant. -/
def Term.isParameter : Term → Bool
  | .var _ => true
  | .const _ => true
  | .foreign (.listed _ _) => true
  | _ => false

/-- Terms as the parameters of an action.  The kinds of all of them are checked before the names. -/
def parameters? (action : Symbol) (terms : List Term) : Except Error (List SimpleTerm) :=
  match terms.find? fun t => !t.isParameter with
  | some bad => .error (SchemaFault.badParameter action bad).error
  | none => terms.mapM fun t =>
    match SimpleTerm.ofTerm? t with
    | some p => .ok p
    | none => .error .wrongType

/-- The facts that a schema both requires and forbids, as they stand in the shorter of the two
lists. -/
def Schema.contradictions (s : Schema) : List Atom :=
  if s.forbids.length ≤ s.requires.length then s.forbids.filter s.requires.contains
  else s.requires.filter s.forbids.contains

/-- The error that a schema forbids what it requires. -/
def Schema.contradiction (s : Schema) : Error :=
  let clash := s.contradictions
  .printing (clash.all Atom.isPrintable) (.schema (.contradiction s.name
    ((clash.map Atom.text).mergeSort fun a b => decide (a ≤ b))))

/-- Makes an action.  The name is checked first, then the parameters, then the atoms one by one:
what is no atom counts only when nothing is wrong with the atoms before it.  Whatever stands among
the atoms has to be something that can be looked up, and this counts before the kinds of the
parameters. -/
def Draft.toAction? (d : Draft) : Except Error Action :=
  match d.name with
  | none => .error (.schema .emptyName)
  | some name => do
    let parameters ← d.parameters.mapM Term.named
    let terms := d.requires ++ d.forbids ++ d.adds ++ d.deletes ++ d.static
    if !terms.all Term.isIndexable then throw .wrongType
    let parameters ← parameters? name parameters
    match terms.find? (·.atom?.isNone) with
    | some bad =>
      let before := (terms.takeWhile (·.atom?.isSome)).filterMap Term.atom?
      match Schema.fault? ⟨name, parameters, before, [], [], [], []⟩ with
      | some fault => throw fault.error
      | none => throw (.schema (.notAtom name bad))
    | none =>
      let action ← Schema.toAction? ⟨name, parameters, d.requires.filterMap Term.atom?,
        d.forbids.filterMap Term.atom?, d.adds.filterMap Term.atom?, d.deletes.filterMap Term.atom?,
        d.static.filterMap Term.atom?⟩
      if d.strict && !action.contradictions.isEmpty then throw action.contradiction
      return action

namespace Action

/-! ## Instantiation -/

/-- An action with a substitution applied to every part; variables may remain.  As in a draft, an
atom by which nothing can be looked up counts before the kinds of the parameters. -/
def substitute (a : Action) (σ : Substitution) : Except Error Action := do
  let parameters ← a.parameters.mapM fun p => σ.tryApply p.toTerm
  let requires ← a.requires.mapM σ.tryApplyAtom
  let forbids ← a.forbids.mapM σ.tryApplyAtom
  let adds ← a.adds.mapM σ.tryApplyAtom
  let deletes ← a.deletes.mapM σ.tryApplyAtom
  let static ← a.static.mapM σ.tryApplyAtom
  if !(requires ++ forbids ++ adds ++ deletes ++ static).all Atom.isIndexable then throw .wrongType
  Schema.toAction? ⟨a.name, ← parameters? a.name parameters, requires, forbids, adds,
    deletes, static⟩

/-- The ground instance of an action under a substitution.  An instance that forbids what it
requires is no error: it never applies. -/
def ground (a : Action) (σ : Substitution) : Except Error Action := do
  -- a cycle is refused before anything is instantiated
  let σ ← σ.checkAcyclic
  let instantiated ← a.substitute σ
  if instantiated.isGround then return instantiated
  else throw (.printing σ.isPrintable (.openAction
    (.unboundParameters a.name (variableNames instantiated.vars) σ.text)))

/-- Binds the parameters to arguments, position by position. -/
def call (a : Action) (args : List Term) : Except Error Action := do
  let args ← args.mapM Term.named
  if args.length ≠ a.parameters.length then
    throw (.schema (.argumentCount a.name a.parameters.length args.length))
  let given ← Atom.build? (some a.name) args
  match ← Substitution.empty.tryUnify a.signature.toTerm given.toTerm with
  | none =>
    throw (.printing (given.isPrintable && a.isPrintable) (.schema (.mismatch given.text a.text)))
  | some σ => a.ground σ

/-! ## Execution -/

/-- Every required fact is in a state and no forbidden one is. -/
def enabled (a : Action) (s : State) : Bool :=
  a.requires.all s.holdsFact && a.forbids.all fun f => !s.holdsFact f

/-- The state after an action: its deletions are taken away, then its additions are put in, so that
a fact both deleted and added is there. -/
def result (a : Action) (s : State) : State :=
  (s.removeAll a.deletes).insertAll a.adds

/-- Refuses an action with variables. -/
def requireGround (a : Action) : Except Error Unit :=
  if a.isGround then .ok ()
  else .error (.printing a.isPrintable (.openAction (.notExecutable a.text)))

/-- Whether a ground action is enabled in a state. -/
def isApplicable (a : Action) (s : State) : Except Error Bool := do
  a.requireGround
  return a.enabled s

/-- The state after a ground action. -/
def apply (a : Action) (s : State) : Except Error State := do
  a.requireGround
  return a.result s

/-! ## Groundings -/

/-- The ways to bind the variables of an action: each match of the required facts, extended by each
answer to the static conditions.  Without a knowledge base no static condition has an answer; what
it takes to compute one is done when a condition is asked. -/
@[macro_inline]
def bindings (a : Action) (facts : List Atom) (kb : Option KnowledgeBase) :
    Except Error (List (Substitution × Substitution)) := do
  let found ← (satisfy facts a.requires ∅).mapM fun θ =>
    if a.static.isEmpty then .ok [(∅, θ)]
    else
      match kb with
      | none => .ok []
      | some kb => do
        let (extensions, _) ← kb.askAll (a.static.map θ.applyAtom)
        return extensions.map fun extension => (extension, θ)
  return found.flatten

/-- Instantiates an action under one pair of bindings after the other; pairs that leave a parameter
open, and parameters met before, are passed over. -/
def instantiate (a : Action) :
    (met : List (List Term)) → List (Substitution × Substitution) → Except Error (List Action)
  | _, [] => .ok []
  | met, (extension, θ) :: rest => do
    let σ ← extension.compose θ
    let parameters := a.parameters.map fun p => σ.apply p.toTerm
    if !parameters.all Term.isGround then a.instantiate met rest
    else if !parameters.all Term.isIndexable then throw .wrongType
    -- two pairs of bindings may differ only in variables that are no parameters
    else if met.contains parameters then a.instantiate met rest
    else
      let grounded ← a.ground σ
      let others ← a.instantiate (met ++ [parameters]) rest
      return grounded :: others

/-- The ground instances of an action that its required facts and static conditions allow, each
once.  Facts are tried in the order given. -/
@[macro_inline]
def groundings (a : Action) (facts : List Atom) (kb : Option KnowledgeBase) :
    Except Error (List Action) := do
  a.instantiate [] (← a.bindings facts kb)

/-! ## As data -/

/-- An action as a JSON document. -/
def toData (a : Action) : Json :=
  let list (atoms : List Atom) : Json := .arr (atoms.map Atom.toData)
  .obj [("name", a.name.toData),
    ("parameters", .arr (a.parameters.map fun p => p.toTerm.toData)),
    ("precond_pos", list a.requires), ("precond_neg", list a.forbids),
    ("effect_add", list a.adds), ("effect_rem", list a.deletes), ("static", list a.static)]

/-- Reads an action.  The lists may be left out; they are read before the name.  Only an object has
fields that may be left out. -/
def ofData? (document : Json) : Except Error Action := do
  let .obj _ := document | throw .unsupported
  let list (key : String) : Except Error (List Term) := do
    Term.ofDataList? (← document.optionalItems key)
  let parameters ← list "parameters"
  let requires ← list "precond_pos"
  let forbids ← list "precond_neg"
  let adds ← list "effect_add"
  let deletes ← list "effect_rem"
  let static ← list "static"
  let name := Symbol.ofData? (← document.require "name")
  Draft.toAction? ⟨name, parameters, requires, forbids, adds, deletes, static, false⟩

end Action

end HornPlan
