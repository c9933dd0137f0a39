import HornPlan.Substitution

/-!
# Occurrence

Whether a variable occurs in a term under the bindings of a substitution.  The substitution is
applied, and a compound term is searched by asking the same question of each of its arguments.  The
substitution is applied to those once more, which changes nothing (`tryApply_of_mem`), so that the
search ends.
-/

namespace HornPlan

/-! ## Compound terms -/

theorem Term.eq_of_asArgument {f : Symbol} {t u : Term} (h : t.asArgument f = .ok u) : u = t := by
  unfold asArgument at h
  split at h
  · cases h
  · exact (Except.ok.inj h).symm

theorem Term.eq_of_mapM_asArgument {f : Symbol} {args args' : List Term}
    (h : args.mapM (fun t => t.asArgument f) = .ok args') : args' = args := by
  induction args generalizing args' with
  | nil => exact (Except.ok.inj h).symm
  | cons t ts ih =>
    rw [List.mapM_cons] at h
    cases ht : t.asArgument f with
    | error e => rw [ht] at h; cases h
    | ok u =>
      cases hts : ts.mapM (fun t => t.asArgument f) with
      | error e => rw [ht, hts] at h; cases h
      | ok us =>
        rw [ht, hts] at h
        rw [← Except.ok.inj h, eq_of_asArgument ht, ih hts]

theorem Term.eq_app_of_build? {f : Symbol} {args : List Term} {t : Term}
    (h : Term.build? (some f) args = .ok t) : t = .app f args := by
  cases hargs : args.mapM (fun t => t.asArgument f) with
  | error e =>
    rw [build?, Atom.build?, hargs] at h
    cases h
  | ok args' =>
    rw [build?, Atom.build?, hargs, eq_of_mapM_asArgument hargs] at h
    exact (Except.ok.inj h).symm

namespace Substitution

/-! ## Applying a substitution again -/

section

variable {f g : Variable → Except Error Term}

theorem exists_of_bindEach_app {s : Symbol} {args : List Term} {t : Term}
    (h : bindEach f (.app s args) = .ok t) :
    ∃ outcomes, bindAll f args = .ok outcomes ∧ Term.build? (some s) outcomes = .ok t := by
  rw [bindEach] at h
  cases hargs : bindAll f args with
  | error e => rw [hargs] at h; cases h
  | ok outcomes => rw [hargs] at h; exact ⟨outcomes, rfl, h⟩

theorem exists_of_bindAll_cons {t : Term} {ts us : List Term} (h : bindAll f (t :: ts) = .ok us) :
    ∃ u rest, us = u :: rest ∧ bindEach f t = .ok u ∧ bindAll f ts = .ok rest := by
  rw [bindAll] at h
  cases ht : bindEach f t with
  | error e => rw [ht] at h; cases h
  | ok u =>
    cases hts : bindAll f ts with
    | error e => rw [ht, hts] at h; cases h
    | ok rest => rw [ht, hts] at h; exact ⟨u, rest, (Except.ok.inj h).symm, rfl, rfl⟩

mutual
/-- Replacement leaves alone what another has made of a term, where it leaves alone what that has
made of the variables. -/
theorem bindEach_bindEach (hvar : ∀ x u, f x = .ok u → bindEach g u = .ok u) :
    (t : Term) → {u : Term} → bindEach f t = .ok u → bindEach g u = .ok u
  | .var x, u, h => hvar x u h
  | .const c, u, h => by
    rw [← Except.ok.inj h]
    rfl
  | .foreign a, u, h => by
    rw [bindEach] at h
    split at h
    · cases h
    · rename_i hno
      rw [← Except.ok.inj h, bindEach, if_neg hno]
  | .app s args, u, h => by
    obtain ⟨outcomes, hargs, hbuild⟩ := exists_of_bindEach_app h
    obtain rfl := Term.eq_app_of_build? hbuild
    rw [bindEach, bindAll_bindAll hvar args hargs]
    exact hbuild
theorem bindAll_bindAll (hvar : ∀ x u, f x = .ok u → bindEach g u = .ok u) :
    (ts : List Term) → {us : List Term} → bindAll f ts = .ok us → bindAll g us = .ok us
  | [], us, h => by
    rw [← Except.ok.inj h]
    rfl
  | t :: ts, us, h => by
    obtain ⟨u, rest, rfl, ht, hts⟩ := exists_of_bindAll_cons h
    rw [bindAll, bindEach_bindEach hvar t ht, bindAll_bindAll hvar ts hts]
    rfl
end

theorem bindEach_of_mem {args : List Term} (h : bindAll f args = .ok args) :
    ∀ a ∈ args, bindEach f a = .ok a := by
  induction args with
  | nil => exact fun a ha => absurd ha List.not_mem_nil
  | cons t ts ih =>
    obtain ⟨u, rest, heq, ht, hts⟩ := exists_of_bindAll_cons h
    obtain ⟨rfl, rfl⟩ := List.cons.inj heq
    exact List.forall_mem_cons.2 ⟨ht, ih hts⟩

end

variable {σ : Substitution}

theorem exists_tryResolve_eq (σ : Substitution) (depth : Nat) :
    ∃ f, σ.tryResolve depth = bindEach f := by
  cases depth with
  | zero => exact ⟨_, funext fun t => by rw [tryResolve]⟩
  | succ depth => exact ⟨_, funext fun t => by rw [tryResolve]⟩

/-- No binding can be followed from an outcome. -/
theorem tryResolve_tryResolve {depth depth' : Nat} {t u : Term} (h : σ.tryResolve depth t = .ok u) :
    σ.tryResolve depth' u = .ok u := by
  have hfree : ∀ x, σ.lookup x.name = none → σ.tryResolve depth' (.var x) = .ok (.var x) := by
    intro x hx
    cases depth' with
    | zero => rw [tryResolve, bindEach, hx]; rfl
    | succ depth' => rw [tryResolve, bindEach, hx]
  obtain ⟨g, hg⟩ := exists_tryResolve_eq σ depth'
  -- a bound variable is replaced by what becomes of its term, or it fails where no depth is left
  induction depth generalizing t u with
  | zero =>
    rw [tryResolve] at h
    rw [hg] at hfree ⊢
    refine bindEach_bindEach (fun x v hv => ?_) t h
    split at hv
    · cases hv
    · rename_i hno
      rw [← Except.ok.inj hv]
      exact hfree x (Option.not_isSome_iff_eq_none.1 hno)
  | succ depth ih =>
    rw [tryResolve] at h
    rw [hg] at hfree ⊢
    refine bindEach_bindEach (fun x v hv => ?_) t h
    split at hv
    · exact hg ▸ ih hv
    · rename_i hno
      rw [← Except.ok.inj hv]
      exact hfree x hno

theorem tryApply_of_mem {t a : Term} {f : Symbol} {args : List Term}
    (h : σ.tryApply t = .ok (.app f args)) (ha : a ∈ args) : σ.tryApply a = .ok a := by
  have hagain : σ.tryApply (.app f args) = .ok (.app f args) := tryResolve_tryResolve h
  obtain ⟨g, hg⟩ := exists_tryResolve_eq σ σ.bindings.length
  unfold tryApply at hagain ⊢
  rw [hg] at hagain ⊢
  obtain ⟨outcomes, hargs, hbuild⟩ := exists_of_bindEach_app hagain
  obtain ⟨-, rfl⟩ := Term.app.inj (Term.eq_app_of_build? hbuild)
  exact bindEach_of_mem hargs a ha

/-! ## Search -/

/-- Whether something has the name of a variable.  What is neither a variable nor a constant has no
name. -/
def hasNameOf (x : Variable) : Term → Except Error Bool
  | .var y => .ok (x.name == y.name)
  | .const c => .ok (x.name == c.name)
  | .foreign (.listed _ _) => .ok false
  | _ => .error .unsupported

/-- Whether something occurs in a term under the bindings of a substitution.  Neither the constants
that are left nor the bare values are compared with it. -/
def tryOccurs (σ : Substitution) (t u : Term) : Except Error Bool :=
  match h : σ.tryApply u with
  | .error error => .error error
  | .ok (.var x) => hasNameOf x t
  | .ok (.app _ args) => args.attach.anyM fun ⟨a, ha⟩ =>
    have := tryApply_of_mem h ha
    σ.tryOccurs t a
  | .ok _ => .ok false
termination_by sizeOf (σ.tryApply u)
decreasing_by
  have hmem := List.sizeOf_lt_of_mem ha
  rw [this, h, Except.ok.sizeOf_spec, Except.ok.sizeOf_spec, Term.app.sizeOf_spec]
  omega

end Substitution

end HornPlan
