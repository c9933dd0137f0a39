import HornPlan.Occurrence

/-!
# Unification

Pairs of terms are unified from left to right.  The leftmost place in which the two terms of a pair
differ decides what happens: where one of them has a variable there that does not occur in the
other, the variable is bound, and the search for a difference goes on to the right of that place;
any other difference is final.

Bindings are not replaced in the pairs still to come.  A pair is read under the bindings when its
turn comes, so that terms whose full size is never needed are never written out.  Every binding
binds one more variable, so there are at most as many as there are variables.

Failure is an ordinary answer.  The bindings found extend the substitution that the terms were read
under.
-/

namespace HornPlan

/-- A place in which two terms differ: the subterms found there, and the pairs of subterms to the
right of it. -/
structure Difference where
  left : Term
  right : Term
  rest : List (Term × Term)

mutual
/-- The leftmost place in which two terms differ. -/
def Term.difference? : Term → Term → Option Difference
  | .var x, .var y => if x = y then none else some ⟨.var x, .var y, []⟩
  | .const c, .const d => if c = d then none else some ⟨.const c, .const d, []⟩
  | .app f ts, .app g us =>
    if f == g ∧ ts.length = us.length then
      match Term.differenceList? ts us with
      | some d => some (if f.isUndefined then ⟨.app f ts, .app g us, []⟩ else d)
      | none => none
    else some ⟨.app f ts, .app g us, []⟩
  | .foreign a, .foreign b => if a == b then none else some ⟨.foreign a, .foreign b, []⟩
  | t, u => some ⟨t, u, []⟩
def Term.differenceList? : List Term → List Term → Option Difference
  | t :: ts, u :: us =>
    match Term.difference? t u with
    | some d => some { d with rest := d.rest ++ ts.zip us }
    | none => Term.differenceList? ts us
  | _, _ => none
end

/-- The binding that removes a difference: a variable, and a term in which it does not occur. -/
def Difference.binding? (d : Difference) : Option (Variable × Term) :=
  match d.left, d.right with
  | .var x, u => if u.vars.contains x then none else some (x, u)
  | t, .var y => if t.vars.contains y then none else some (y, t)
  | _, _ => none

namespace Substitution

/-- The leftmost difference that a substitution leaves in a list of pairs. -/
def difference? (σ : Substitution) : List (Term × Term) → Option Difference
  | [] => none
  | (t, u) :: pairs =>
    match Term.difference? (σ.apply t) (σ.apply u) with
    | some d => some { d with rest := d.rest ++ pairs }
    | none => σ.difference? pairs

/-- Extends a substitution until it makes the terms of every pair equal, if no more than `budget`
bindings are needed. -/
def solve : (budget : Nat) → Substitution → List (Term × Term) → Option Substitution
  | budget, σ, pairs =>
    match σ.difference? pairs with
    | none => some σ
    | some d =>
      match d.binding?, budget with
      | some (x, t), budget + 1 => solve budget (σ.insert x.name t) d.rest
      | _, _ => none

/-- The occurrences of variables in pairs of terms and in the terms of a substitution: no more
variables than that can be bound. -/
def occurrences (σ : Substitution) (pairs : List (Term × Term)) : List Variable :=
  pairs.flatMap (fun (t, u) => t.vars ++ u.vars) ++ σ.bindings.flatMap fun binding => binding.2.vars

/-- Extends a substitution so that it makes the terms of every pair equal. -/
def unifyPairs? (σ : Substitution) (pairs : List (Term × Term)) : Option Substitution :=
  solve (σ.occurrences pairs).length σ pairs

/-- Extends a substitution so that it makes two terms equal. -/
def unify? (σ : Substitution) (t u : Term) : Option Substitution :=
  σ.unifyPairs? [(t, u)]

/-- Extends a substitution so that it makes two atoms equal. -/
def unifyAtoms? (σ : Substitution) (a b : Atom) : Option Substitution :=
  σ.unify? a.toTerm b.toTerm

/-! ## Checked unification -/

/-- `unify?` for terms to which a substitution may not be applicable. -/
def tryUnify (σ : Substitution) (t u : Term) : Except Error (Option Substitution) := do
  discard (σ.tryApply t)
  discard (σ.tryApply u)
  return σ.unify? t u

/-- Unifies two terms under a substitution that is not known to be free of cycles. -/
def checkedUnify (σ : Substitution) (t u : Term) : Except Error (Option Substitution) := do
  (← σ.checkAcyclic).tryUnify t u

/-- Unifies the two terms of one pair after the other. -/
def tryUnifyAll : Substitution → List (Term × Term) → Except Error (Option Substitution)
  | σ, [] => .ok (some σ)
  | σ, (t, u) :: pairs => do
    match ← σ.tryUnify t u with
    | some θ => tryUnifyAll θ pairs
    | none => return none

/-- Unifies the two terms of every pair under a substitution that is not known to be free of
cycles. -/
def checkedUnifyAll (σ : Substitution) (pairs : List (Term × Term)) :
    Except Error (Option Substitution) := do
  (← σ.checkAcyclic).tryUnifyAll pairs

end Substitution

end HornPlan
