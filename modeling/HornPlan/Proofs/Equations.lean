import HornPlan.Proofs.Cycles
import HornPlan.Proofs.Unification

/-!
# Unification solves equations

A substitution that is free of loops is a system of equations in solved form, and unification adds
equations to it.  Its outcome is again free of loops, keeps all bindings and has the solutions of
the whole system, or there is none and the system has no solution (`IsOutcome`).

For several pairs this goes on from one pair to the next: a solution of the equations so far,
extended to a solution of the others, solves all of them (`Solution.cons`), and where the equations
so far or the others have no solution, all of them have none.  Since the outcome depends on what can
be solved, and a system of equations has the solutions that it has in whatever order and from
whichever side it is read, so does success.
-/

namespace HornPlan.Substitution

variable {σ θ μ : Substitution} {pairs others : List (Term × Term)} {t u : Term}

/-! ## Solutions as substitutions -/

/-- An extension of a substitution in solved form that has the solutions of the substitution which
make some pairs equal. -/
structure Solution (σ : Substitution) (pairs : List (Term × Term)) (θ : Substitution) : Prop where
  loopfree : θ.Loopfree
  proper : θ.IsProper
  extends_bindings : σ.bindings <+: θ.bindings
  solvedBy : ∀ h, θ.SolvedBy h ↔ σ.SolvedBy h ∧ Unifies h pairs

/-- What unifying some pairs under a substitution may answer. -/
def IsOutcome (σ : Substitution) (pairs : List (Term × Term)) : Option Substitution → Prop
  | some θ => σ.Solution pairs θ
  | none => ∀ h, ¬(σ.SolvedBy h ∧ Unifies h pairs)

theorem Loopfree.solution_nil (hσ : σ.Loopfree) (hproper : σ.IsProper) : σ.Solution [] σ :=
  ⟨hσ, hproper, List.prefix_refl _, fun h => by simp⟩

theorem Solution.cons (hθ : σ.Solution [(t, u)] θ) (hμ : θ.Solution pairs μ) :
    σ.Solution ((t, u) :: pairs) μ where
  loopfree := hμ.loopfree
  proper := hμ.proper
  extends_bindings := hθ.extends_bindings.trans hμ.extends_bindings
  solvedBy h := by
    rw [hμ.solvedBy, hθ.solvedBy]
    simp [and_assoc]

/-- There is an outcome exactly when the system can be solved, since a substitution in solved form
has a solution. -/
theorem IsOutcome.isSome_iff {outcome : Option Substitution} (h : σ.IsOutcome pairs outcome) :
    outcome.isSome ↔ ∃ f, σ.SolvedBy f ∧ Unifies f pairs := by
  cases outcome with
  | none => exact iff_of_false Bool.false_ne_true fun ⟨f, hf⟩ => h f hf
  | some θ => exact iff_of_true rfl ⟨_, (h.solvedBy _).mp h.loopfree.triangular.solvedBy_apply⟩

/-! ## One pair -/

theorem Loopfree.tryUnify_eq (hσ : σ.Loopfree) (hproper : σ.IsProper) (ht : t.isProper)
    (hu : u.isProper) : σ.tryUnify t u = .ok (σ.unify? t u) := by
  rw [tryUnify, hσ.triangular.tryApply_eq hproper ht, hσ.triangular.tryApply_eq hproper hu]
  rfl

theorem Loopfree.isOutcome_unify? (hσ : σ.Loopfree) (hproper : σ.IsProper) (ht : t.isProper)
    (hu : u.isProper) : σ.IsOutcome [(t, u)] (σ.unify? t u) := by
  have hpairs : ProperPairs [(t, u)] := List.forall_mem_singleton.mpr ⟨ht, hu⟩
  cases hunify : σ.unify? t u with
  | none =>
      rintro h ⟨hsolved, hunifies⟩
      exact not_unifies_of_unifyPairs? hσ.triangular hproper hpairs hunify hsolved hunifies
  | some θ =>
      have hθ := mostGeneral_of_unifyPairs? hσ.triangular hproper hpairs hunify
      exact ⟨hθ.triangular.loopfree, hθ.proper, hθ.extends_bindings, hθ.solvedBy⟩

/-! ## Several pairs -/

/-- **Unifying one pair after the other solves all of them.** -/
theorem Loopfree.exists_tryUnifyAll (hσ : σ.Loopfree) (hproper : σ.IsProper)
    (hpairs : ProperPairs pairs) :
    ∃ outcome, σ.tryUnifyAll pairs = .ok outcome ∧ σ.IsOutcome pairs outcome := by
  induction pairs generalizing σ with
  | nil => exact ⟨some σ, rfl, hσ.solution_nil hproper⟩
  | cons pair rest ih =>
      obtain ⟨t, u⟩ := pair
      obtain ⟨⟨ht, hu⟩, hrest⟩ := List.forall_mem_cons.mp hpairs
      have hfirst := hσ.isOutcome_unify? hproper ht hu
      rw [tryUnifyAll, hσ.tryUnify_eq hproper ht hu, ok_bind]
      cases hunify : σ.unify? t u with
      | none =>
          rw [hunify] at hfirst
          refine ⟨none, rfl, ?_⟩
          rintro h ⟨hsolved, hunifies⟩
          exact hfirst h ⟨hsolved, by simpa using (unifies_cons.mp hunifies).1⟩
      | some θ =>
          rw [hunify] at hfirst
          obtain ⟨outcome, houtcome, hsolves⟩ := ih hfirst.loopfree hfirst.proper hrest
          refine ⟨outcome, houtcome, ?_⟩
          cases outcome with
          | some μ => exact hfirst.cons hsolves
          | none =>
              -- a solution of all would solve the first pair, hence the extension, and then the
              -- rest
              rintro h ⟨hsolved, hunifies⟩
              obtain ⟨hpair, hothers⟩ := unifies_cons.mp hunifies
              exact hsolves h ⟨(hfirst.solvedBy h).mpr ⟨hsolved, by simpa using hpair⟩, hothers⟩

/-- Pairs in another order, some of them with their sides exchanged. -/
def Rearranges (pairs others : List (Term × Term)) : Prop :=
  ∃ middle, pairs.Perm middle ∧ List.Forall₂ (fun p q => q = p ∨ q = p.swap) middle others

/-- Rearranged pairs have the same members up to an exchange of sides. -/
theorem Rearranges.forall_mem (h : Rearranges pairs others) {P : Term × Term → Prop}
    (hswap : ∀ p, P p.swap ↔ P p) : (∀ p ∈ pairs, P p) ↔ ∀ p ∈ others, P p := by
  obtain ⟨middle, hperm, hsides⟩ := h
  have hmiddle : (∀ p ∈ pairs, P p) ↔ ∀ p ∈ middle, P p := by simp only [hperm.mem_iff]
  rw [hmiddle]
  clear hperm hmiddle
  induction hsides with
  | nil => simp
  | cons hpq _ ih =>
      rw [List.forall_mem_cons, List.forall_mem_cons]
      refine and_congr ?_ ih
      rcases hpq with rfl | rfl
      · exact Iff.rfl
      · exact (hswap _).symm

theorem Rearranges.unifies_iff (h : Rearranges pairs others) (f : Variable → Term) :
    Unifies f pairs ↔ Unifies f others :=
  h.forall_mem (P := fun p => p.1.bind f = p.2.bind f) fun _ => eq_comm

theorem Rearranges.properPairs_iff (h : Rearranges pairs others) :
    ProperPairs pairs ↔ ProperPairs others :=
  h.forall_mem (P := fun p => p.1.isProper ∧ p.2.isProper) fun _ => and_comm

theorem Loopfree.exists_checkedUnifyAll (hσ : σ.Loopfree) (hproper : σ.IsProper)
    (hpairs : ProperPairs pairs) :
    ∃ outcome, σ.checkedUnifyAll pairs = .ok outcome ∧ σ.IsOutcome pairs outcome := by
  rw [checkedUnifyAll, hσ.checkAcyclic_eq hproper, ok_bind]
  exact hσ.exists_tryUnifyAll hproper hpairs

/-- **Unification ends and solves the equations that it is given**: two terms, or any number of
pairs taken together.  The outcome extends the substitution to one that is free of loops and has the
same solutions as the whole system, or there is none and the system has no solution.  Success does
not depend on the order of the pairs or of their sides. -/
theorem Loopfree.unification_solves (hσ : σ.Loopfree) (hproper : σ.IsProper) :
    (∀ t u, t.isProper → u.isProper →
      ∃ outcome, σ.checkedUnify t u = .ok outcome ∧ σ.IsOutcome [(t, u)] outcome) ∧
    ∀ pairs, ProperPairs pairs →
      ∃ outcome, σ.checkedUnifyAll pairs = .ok outcome ∧ σ.IsOutcome pairs outcome ∧
        ∀ others, Rearranges pairs others →
          ∃ outcome', σ.checkedUnifyAll others = .ok outcome' ∧
          outcome'.isSome = outcome.isSome := by
  constructor
  · intro t u ht hu
    refine ⟨σ.unify? t u, ?_, hσ.isOutcome_unify? hproper ht hu⟩
    rw [checkedUnify, hσ.checkAcyclic_eq hproper, ok_bind, hσ.tryUnify_eq hproper ht hu]
  · intro pairs hpairs
    obtain ⟨outcome, houtcome, hsolves⟩ := hσ.exists_checkedUnifyAll hproper hpairs
    refine ⟨outcome, houtcome, hsolves, ?_⟩
    intro others hothers
    obtain ⟨outcome', houtcome', hsolves'⟩ :=
      hσ.exists_checkedUnifyAll hproper (hothers.properPairs_iff.mp hpairs)
    refine ⟨outcome', houtcome', ?_⟩
    rw [Bool.eq_iff_iff, hsolves'.isSome_iff, hsolves.isSome_iff]
    simp only [hothers.unifies_iff]

/-- A chain of two bindings: a variable stands for a compound term with a variable that is bound in
turn. -/
def chained : Substitution :=
  let f : Symbol := .text "F" (by decide)
  let v : Variable := ⟨"v", by decide⟩
  ((∅ : Substitution).insert "u" (.app f [.var v])).insert "v" (.var ⟨"w", by decide⟩)

theorem unification_solves_of_chained : chained.Loopfree ∧ chained.IsProper ∧
    (∀ t u, t.isProper → u.isProper →
      ∃ outcome, chained.checkedUnify t u = .ok outcome ∧ chained.IsOutcome [(t, u)] outcome) ∧
    ∀ pairs, ProperPairs pairs →
      ∃ outcome, chained.checkedUnifyAll pairs = .ok outcome ∧ chained.IsOutcome pairs outcome ∧
        ∀ others, Rearranges pairs others →
          ∃ outcome', chained.checkedUnifyAll others = .ok outcome' ∧
          outcome'.isSome = outcome.isSome := by
  have hfirst := triangular_empty.insert (x := ⟨"u", by decide⟩)
    (t := .app (.text "F" (by decide)) [.var ⟨"v", by decide⟩]) (by decide) (by decide) (by decide)
  have hloopfree : chained.Loopfree :=
    (hfirst.insert (x := ⟨"v", by decide⟩) (t := .var ⟨"w", by decide⟩) (by decide) (by decide)
      (by decide)).loopfree
  have hproper : chained.IsProper := by unfold IsProper; decide
  exact ⟨hloopfree, hproper, hloopfree.unification_solves hproper⟩

end HornPlan.Substitution
