import HornPlan.Code
import HornPlan.TermData

/-!
# Substitutions

A substitution binds names to terms, each name once, and remembers the order in which the names were
bound.  It is triangular: the term bound to one variable may mention others that are bound too, and
applying the substitution follows such chains to their end.

Chains end exactly when no variable reaches itself through bindings.  A caller may hand over a
substitution with a cycle; `checkAcyclic` refuses it, and `tryApply` fails where it meets the cycle.
-/

namespace HornPlan

/-- Bindings of distinct names, in the order in which the names were bound. -/
structure Substitution where
  bindings : List (String × Term)
  nodup : (bindings.map Prod.fst).Nodup

namespace Substitution

/-- No bindings. -/
def empty : Substitution :=
  ⟨[], List.nodup_nil⟩

instance : EmptyCollection Substitution :=
  ⟨empty⟩

/-- The bound names, in order. -/
def names (σ : Substitution) : List String :=
  σ.bindings.map Prod.fst

/-- The term bound to a name. -/
def lookup (σ : Substitution) (name : String) : Option Term :=
  List.lookup name σ.bindings

/-- Maps every bound term. -/
def mapTerms (σ : Substitution) (f : Term → Term) : Substitution :=
  ⟨σ.bindings.map fun binding => (binding.1, f binding.2), by
    rw [List.map_map]
    exact σ.nodup⟩

/-- Keeps the bindings that pass a test. -/
def filter (σ : Substitution) (keep : String → Term → Bool) : Substitution :=
  ⟨σ.bindings.filter fun binding => keep binding.1 binding.2,
    σ.nodup.sublist (List.filter_sublist.map _)⟩

/-- Puts a new term into the binding of a name. -/
def rebind (name : String) (t : Term) (binding : String × Term) : String × Term :=
  if binding.1 = name then (name, t) else binding

theorem fst_comp_rebind (name : String) (t : Term) : Prod.fst ∘ rebind name t = Prod.fst := by
  funext binding
  by_cases h : binding.1 = name
  · simp [rebind, h]
  · simp [rebind, h]

/-- Binds a name: a bound name keeps its place, a new one goes to the end. -/
def insert (σ : Substitution) (name : String) (t : Term) : Substitution :=
  if h : name ∈ σ.names then
    ⟨σ.bindings.map (rebind name t), by
      rw [List.map_map, fst_comp_rebind]
      exact σ.nodup⟩
  else
    ⟨σ.bindings ++ [(name, t)], by
      rw [List.map_append]
      refine List.nodup_append.2 ⟨σ.nodup, List.pairwise_singleton .., fun a ha b hb e => h ?_⟩
      have hname : b = name := List.mem_singleton.1 hb
      exact hname ▸ e ▸ ha⟩

/-- Binds a name unless it is bound. -/
def insertNew (σ : Substitution) (name : String) (t : Term) : Substitution :=
  if name ∈ σ.names then σ else σ.insert name t

/-- The substitution of a list of bindings; of two terms for one name the later counts. -/
def ofList (bindings : List (String × Term)) : Substitution :=
  bindings.foldl (fun σ binding => σ.insert binding.1 binding.2) empty

/-! ## Codes -/

/-- Bindings as a list of numbers: the name and the term of one after the other. -/
def codeOf : List (String × Term) → List Nat
  | [] => []
  | (name, t) :: rest => textCode name ++ t.code ++ codeOf rest

/-- A substitution as a list of numbers. -/
def code (σ : Substitution) : List Nat :=
  codeOf σ.bindings

instance : BEq Substitution :=
  ⟨fun σ τ => σ.code == τ.code⟩

theorem beq_iff_code_eq {σ τ : Substitution} : σ == τ ↔ σ.code = τ.code :=
  beq_iff_eq (α := List Nat)

/-! ## Application -/

/-- Follows chains of bindings, at most `depth` links long, from every variable of a term. -/
def resolve (σ : Substitution) : (depth : Nat) → Term → Term
  | 0, t => t
  | depth + 1, t => t.bind fun x =>
    match σ.lookup x.name with
    | some u => resolve σ depth u
    | none => .var x

/-- Applies a substitution.  A chain without a cycle has at most as many links as there are
bindings. -/
def apply (σ : Substitution) (t : Term) : Term :=
  σ.resolve σ.bindings.length t

/-- Applies a substitution to the arguments of an atom. -/
def applyAtom (σ : Substitution) (a : Atom) : Atom :=
  ⟨a.predicate, a.args.map σ.apply⟩

/-! ## Checked application -/

mutual
/-- Replaces every variable `x` by what `f x` answers, from left to right, and builds every compound
term anew.  A variable whose name is a list has no binding to be looked up. -/
def bindEach (f : Variable → Except Error Term) : Term → Except Error Term
  | .var x => f x
  | .const c => .ok (.const c)
  | .app g args => do Term.build? (some g) (← bindAll f args)
  | .foreign a => if a.isVariable then .error .wrongType else .ok (.foreign a)
def bindAll (f : Variable → Except Error Term) : List Term → Except Error (List Term)
  | [] => .ok []
  | t :: ts => do
    let t ← bindEach f t
    let ts ← bindAll f ts
    return t :: ts
end

/-- `resolve` for a substitution that may have a cycle. -/
def tryResolve (σ : Substitution) : (depth : Nat) → Term → Except Error Term
  | 0, t => bindEach (fun x =>
    if (σ.lookup x.name).isSome then .error .endless else .ok (.var x)) t
  | depth + 1, t => bindEach (fun x =>
    match σ.lookup x.name with
    | some u => tryResolve σ depth u
    | none => .ok (.var x)) t

/-- Applies a substitution that may have a cycle, and may bind variables to bare values: the one has
no outcome, and the other cannot be arguments. -/
def tryApply (σ : Substitution) (t : Term) : Except Error Term :=
  σ.tryResolve σ.bindings.length t

/-- `tryApply` for the arguments of an atom. -/
def tryApplyAtom (σ : Substitution) (a : Atom) : Except Error Atom := do
  Atom.build? (some a.predicate) (← a.args.mapM σ.tryApply)

/-! ## Cycles -/

/-- The number of bindings and of the variables that stand in their terms. -/
def weight : List (String × Term) → Nat
  | [] => 0
  | binding :: rest => binding.2.vars.length + 1 + weight rest

theorem weight_eraseP_lookup {bindings : List (String × Term)} {name : String} {t : Term}
    (h : bindings.lookup name = some t) :
    weight (bindings.eraseP (·.1 == name)) + (t.vars.length + 1) = weight bindings := by
  induction bindings with
  | nil => cases h
  | cons binding rest ih =>
    rw [List.lookup_cons] at h
    by_cases hname : name = binding.1
    · rw [beq_iff_eq.2 hname] at h
      rw [List.eraseP_cons, hname, BEq.rfl, cond_true, ← Option.some.inj h]
      rw [weight]
      omega
    · rw [beq_false_of_ne hname] at h
      have hrest := ih h
      rw [List.eraseP_cons, beq_false_of_ne (Ne.symm hname), cond_false]
      rw [weight, weight]
      omega

/-- Whether a variable that passes a test, or a bound term that does, is met on the way from some
variables through bindings.  Every binding is followed at most once: `unvisited` are those not
followed yet. -/
def meets (stops : Variable → Bool) (ends : Term → Bool) :
    (unvisited : List (String × Term)) → (pending : List Variable) → Bool
  | _, [] => false
  | unvisited, x :: pending =>
    if stops x then true
    else
      match h : unvisited.lookup x.name with
      | none => meets stops ends unvisited pending
      | some t =>
        have := weight_eraseP_lookup h
        ends t || meets stops ends (unvisited.eraseP (·.1 == x.name)) (t.vars ++ pending)
termination_by unvisited pending => weight unvisited + pending.length
decreasing_by
  · exact Nat.add_lt_add_left (Nat.lt_succ_self _) _
  · rw [List.length_append, List.length_cons]
    omega

/-- The name of a binding is met on the way from the term it is bound to. -/
def onCycle (σ : Substitution) (binding : String × Term) : Bool :=
  meets (·.name == binding.1) (fun _ => false) σ.bindings binding.2.vars

/-- A variable whose name is a list is met on the way from the term of a binding, which goes past
some other term. -/
def leadsToListed (σ : Substitution) (binding : String × Term) : Bool :=
  σ.bindings.any (·.2.hasListedVariable)
    && meets (fun _ => false) Term.hasListedVariable σ.bindings binding.2.vars

/-- The first binding whose name lies on a cycle. -/
def cyclicBinding? (σ : Substitution) : Option (String × Term) :=
  σ.bindings.find? σ.onCycle

/-- No variable reaches itself through bindings. -/
def Acyclic (σ : Substitution) : Prop :=
  σ.cyclicBinding? = none

/-- What is wrong with a binding: it lies on a cycle, or the way from it cannot be followed. -/
def bindingFault? (σ : Substitution) (binding : String × Term) : Option Error :=
  if binding.2.hasListedVariable then some .wrongType
  else if σ.onCycle binding then
    some (.printing binding.2.isPrintable (.cyclicBinding binding.1 binding.2))
  else if σ.leadsToListed binding then some .wrongType
  else none

/-- The substitution, unless one of its variables reaches itself. -/
def checkAcyclic (σ : Substitution) : Except Error Substitution :=
  match σ.bindings.findSome? σ.bindingFault? with
  | none => .ok σ
  | some error => .error error

/-! ## Composition and restriction -/

/-- A binding of a variable to itself. -/
def isIdentity (name : String) : Term → Bool
  | .var x => x.name == name
  | _ => false

/-- The substitution that applies `inner` first and `outer` to the outcome: the terms of `inner`
under `outer`, then the bindings of `outer` for other names, without bindings of a variable to
itself. -/
def compose (outer inner : Substitution) : Except Error Substitution := do
  let outer ← outer.checkAcyclic
  let inner ← inner.checkAcyclic
  -- a binding to a bare value may have no place in the terms of `inner`
  inner.bindings.forM fun binding => do discard (outer.tryApply binding.2)
  let applied := inner.mapTerms outer.apply
  let joined := outer.bindings.foldl (fun σ binding => σ.insertNew binding.1 binding.2) applied
  (joined.filter fun name t => !isIdentity name t).checkAcyclic

/-- The bindings of some variables, with chains followed to their end. -/
def restrict (σ : Substitution) (xs : List Variable) : Substitution :=
  ofList ((xs.filter fun x => (σ.lookup x.name).isSome).map fun x => (x.name, σ.apply (.var x)))

/-- The bindings of some names, looked up one after the other.  A bound name has to be that of a
variable. -/
def restrictNames? (σ : Substitution) (names : List Json) : Except Error Substitution := do
  let bindings ← names.mapM fun name => do
    let _ ← name.requireKey
    match name.text?.bind fun text => (σ.lookup text).map fun _ => text with
    | none => return none
    | some text => return some (text, ← σ.tryApply (.var (← Variable.ofName? text)))
  return ofList (bindings.filterMap id)

/-! ## Text -/

/-- The bindings in the order of their names. -/
def sorted (σ : Substitution) : List (String × Term) :=
  σ.bindings.mergeSort fun a b => decide (a.1 ≤ b.1)

/-- A substitution can be printed. -/
def isPrintable (σ : Substitution) : Bool :=
  σ.bindings.all fun binding => binding.2.isPrintable

/-- The text of a substitution, in the order of its names. -/
def text (σ : Substitution) : String :=
  "\x7b" ++ ", ".intercalate (σ.sorted.map fun binding => binding.1 ++ ": " ++ binding.2.text)
    ++ "\x7d"

end Substitution

end HornPlan
