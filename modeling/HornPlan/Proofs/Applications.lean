import HornPlan.Occurrence
import HornPlan.Proofs.Cycles
import Mathlib.Order.WellFounded

/-!
# Where applying a substitution ends

Applying a substitution goes on from a bound variable to its term, and from a compound term to each
of its arguments (`AppliesNext`).  Nothing in this recursion keeps it from going on for ever; it
ends at a term exactly when the term is accessible (`EndsAt`).  In `tryApply` a bound on the length
of chains stands in for the recursion.  The bound loses nothing: there is an outcome exactly where
the recursion ends (`exists_tryApply_iff`).

* A path of bindings is a path of applications, so that the recursion does not end at a name on a
  loop (`loopfree_of_endsAt`).
* Where it ends at a name, every name in the term of that name reaches fewer names, and none reaches
  more than there are bindings (`EndsAt.exists_tryResolve`).

The check for cycles takes the bindings in their order and stops at the first that lies on a loop; a
binding that only leads into a loop is passed over (`IsProper.checkAcyclic_exact`).
-/

namespace HornPlan.Substitution

variable {σ : Substitution} {t u : Term} {x : Variable} {name : String}

/-! ## The recursion -/

/-- Applying a substitution to the second term applies it to the first: the term that a variable is
bound to, or an argument of a compound term. -/
inductive AppliesNext (σ : Substitution) : Term → Term → Prop
  | bound {x : Variable} {t : Term} (h : σ.lookup x.name = some t) : AppliesNext σ t (.var x)
  | argument {f : Symbol} {args : List Term} {t : Term} (h : t ∈ args) :
      AppliesNext σ t (.app f args)

/-- Applying a substitution to a term ends. -/
def EndsAt (σ : Substitution) (t : Term) : Prop :=
  Acc σ.AppliesNext t

theorem appliesNext_of_mem_vars (hx : x ∈ t.vars) :
    Relation.ReflTransGen σ.AppliesNext (.var x) t := by
  induction t using Term.inductionOnArgs with
  | var y =>
      obtain rfl := List.mem_singleton.mp hx
      exact .refl
  | app f args ih =>
      obtain ⟨t, ht, hxt⟩ := Term.mem_vars_app.mp hx
      exact (ih t ht hxt).tail (.argument ht)
  | _ => exact absurd hx List.not_mem_nil

theorem EndsAt.of_mem_vars (h : σ.EndsAt t) (hx : x ∈ t.vars) : σ.EndsAt (.var x) := by
  rcases Relation.reflTransGen_iff_eq_or_transGen.mp (appliesNext_of_mem_vars hx) with rfl | hpath
  · exact h
  · exact Acc.inv_of_transGen h hpath

theorem endsAt_of_vars (h : ∀ x ∈ t.vars, σ.EndsAt (.var x)) : σ.EndsAt t := by
  induction t using Term.inductionOnArgs with
  | var x => exact h x (List.mem_singleton_self x)
  | app f args ih =>
      refine Acc.intro _ ?_
      intro t hnext
      cases hnext with
      | argument ht => exact ih t ht fun x hx => h x (Term.mem_vars_app.mpr ⟨t, ht, hx⟩)
  | _ => exact Acc.intro _ nofun

/-- At an unbound variable the recursion ends, at a bound one it ends if it ends at the term. -/
theorem endsAt_var (h : ∀ t, σ.lookup x.name = some t → σ.EndsAt t) : σ.EndsAt (.var x) := by
  refine Acc.intro _ ?_
  intro t hnext
  cases hnext with
  | bound ht => exact h t ht

theorem EndsAt.of_lookup (h : σ.EndsAt (.var x)) (ht : σ.lookup x.name = some t) : σ.EndsAt t :=
  h.inv (.bound ht)

/-! ## Loops -/

/-- A name is led back to itself. -/
def OnLoop (σ : Substitution) (name : String) : Prop :=
  Relation.TransGen (LeadsTo σ.bindings) name name

theorem exists_appliesNext {other : String}
    (h : Relation.TransGen (LeadsTo σ.bindings) x.name other) :
    ∃ y : Variable, y.name = other ∧ Relation.TransGen σ.AppliesNext (.var y) (.var x) := by
  induction h with
  | single hstep =>
      obtain ⟨t, ht, y, hy, rfl⟩ := hstep
      exact ⟨y, rfl, .tail' (appliesNext_of_mem_vars hy) (.bound ht)⟩
  | tail _ hstep ih =>
      obtain ⟨z, rfl, hz⟩ := ih
      obtain ⟨t, ht, y, hy, rfl⟩ := hstep
      exact ⟨y, rfl, .trans (.tail' (appliesNext_of_mem_vars hy) (.bound ht)) hz⟩

theorem EndsAt.not_onLoop (h : σ.EndsAt (.var x)) : ¬σ.OnLoop x.name := by
  intro hloop
  obtain ⟨y, hy, hround⟩ := exists_appliesNext hloop
  obtain rfl := Variable.eq_of_name_eq hy
  -- going round for ever
  exact (acc_iff_isEmpty_descending_chain.mp h.transGen).false
    ⟨fun _ => .var y, rfl, fun _ => hround⟩

theorem OnLoop.exists_variable (h : σ.OnLoop name) : ∃ x : Variable, x.name = name := by
  obtain ⟨_, -, t, -, x, -, hx⟩ := Relation.TransGen.tail'_iff.mp h
  exact ⟨x, hx⟩

theorem loopfree_of_endsAt (h : ∀ x, σ.EndsAt (.var x)) : σ.Loopfree := by
  intro name hloop
  obtain ⟨x, rfl⟩ := OnLoop.exists_variable hloop
  exact (h x).not_onLoop hloop

/-! ## Outcomes -/

theorem isProper_of_lookup (hσ : σ.IsProper) (ht : σ.lookup name = some t) : t.isProper :=
  hσ _ (lookup_eq_some_iff.mp ht)

/-- Where chains of some length have all been followed to their end, the recursion ends. -/
theorem endsAt_of_tryResolve {depth : Nat} (h : σ.tryResolve depth t = .ok u) : σ.EndsAt t := by
  induction depth generalizing t u with
  | zero =>
      refine endsAt_of_vars fun x hx => endsAt_var fun v hv => ?_
      obtain ⟨_, hx⟩ := exists_of_bindEach h hx
      simp [hv] at hx
  | succ depth ih =>
      refine endsAt_of_vars fun x hx => endsAt_var fun v hv => ?_
      obtain ⟨w, hw⟩ := exists_of_bindEach h hx
      simp only [hv] at hw
      exact ih hw

/-- Where the recursion ends, following chains as long as the number of names reached allows has an
outcome. -/
theorem EndsAt.exists_tryResolve (h : σ.EndsAt t) (hσ : σ.IsProper) (ht : t.isProper) {depth : Nat}
    (hdepth : ∀ x ∈ t.vars, x.name ∈ σ.names → (σ.reached x.name).card < depth) :
    ∃ u, σ.tryResolve depth t = .ok u ∧ u.isProper := by
  induction depth generalizing t with
  | zero =>
      refine exists_bindEach ht fun x hx => ⟨.var x, ?_, rfl⟩
      have hunbound : σ.lookup x.name = none :=
        lookup_eq_none_iff.mpr fun hmem => absurd (hdepth x hx hmem) (Nat.not_lt_zero _)
      simp [hunbound]
  | succ depth ih =>
      refine exists_bindEach ht fun x hx => ?_
      cases hlookup : σ.lookup x.name with
      | none => exact ⟨.var x, rfl, rfl⟩
      | some v =>
          have hv : σ.EndsAt v := (h.of_mem_vars hx).of_lookup hlookup
          refine ih hv (isProper_of_lookup hσ hlookup) ?_
          intro y hy hmem
          have hlower :=
            card_reached_lt ⟨v, hlookup, y, hy, rfl⟩ hmem (hv.of_mem_vars hy).not_onLoop
          have hbelow := hdepth x hx (mem_names.mpr ⟨v, lookup_eq_some_iff.mp hlookup⟩)
          omega

/-- **Applying a substitution has an outcome exactly where the recursion ends.** -/
theorem IsProper.exists_tryApply_iff (hσ : σ.IsProper) (ht : t.isProper) :
    (∃ u, σ.tryApply t = .ok u) ↔ σ.EndsAt t := by
  constructor
  · rintro ⟨u, hu⟩
    exact endsAt_of_tryResolve hu
  · intro h
    have hfew : ∀ x ∈ t.vars, x.name ∈ σ.names → (σ.reached x.name).card < σ.bindings.length :=
      fun x hx hmem => card_reached_lt_length hmem (h.of_mem_vars hx).not_onLoop
    obtain ⟨u, hu, -⟩ := h.exists_tryResolve hσ ht hfew
    exact ⟨u, hu⟩

/-- **Applying a substitution ends at every term exactly when there is no loop.** -/
theorem IsProper.loopfree_iff_endsAt (hσ : σ.IsProper) :
    σ.Loopfree ↔ ∀ t, t.isProper → σ.EndsAt t := by
  constructor
  · intro hloopfree t ht
    exact (hσ.exists_tryApply_iff ht).mp ⟨_, hloopfree.triangular.tryApply_eq hσ ht⟩
  · intro h
    exact loopfree_of_endsAt fun x => h (.var x) rfl

/-! ## The check -/

/-- The check refuses a substitution that has a loop because of the first binding on one. -/
theorem IsProper.exists_cyclicBinding (hσ : σ.IsProper) (hloop : ¬σ.Loopfree) :
    ∃ before name t after, σ.bindings = before ++ (name, t) :: after ∧ σ.OnLoop name ∧
      (∀ binding ∈ before, ¬σ.OnLoop binding.1) ∧
      σ.checkAcyclic = .error (.cyclicBinding name t) := by
  cases hcyclic : σ.cyclicBinding? with
  | none => exact absurd (acyclic_iff.mp hcyclic) hloop
  | some binding =>
      obtain ⟨hround, before, after, hsplit, hearlier⟩ := List.find?_eq_some_iff_append.mp hcyclic
      have hbinding : binding ∈ σ.bindings := hsplit ▸ List.mem_append_right _ List.mem_cons_self
      have hbefore : ∀ other ∈ before, other ∈ σ.bindings := fun other hother =>
        hsplit ▸ List.mem_append_left _ hother
      have hstraight : ∀ other ∈ before, ¬σ.onCycle other := fun other hother => by
        simpa using hearlier other hother
      have hfault :
          σ.bindings.findSome? σ.bindingFault? = some (.cyclicBinding binding.1 binding.2) := by
        refine List.findSome?_eq_some_iff.mpr ⟨before, binding, after, hsplit, ?_, ?_⟩
        · rw [hσ.bindingFault?_eq hbinding, if_pos hround]
        · intro other hother
          rw [hσ.bindingFault?_eq (hbefore other hother), if_neg (hstraight other hother)]
      refine ⟨before, binding.1, binding.2, after, hsplit, (onCycle_iff hbinding).mp hround, ?_, ?_⟩
      · intro other hother hother'
        exact hstraight other hother ((onCycle_iff (hbefore other hother)).mpr hother')
      · rw [checkAcyclic, hfault]

theorem IsProper.checkAcyclic_eq_ok_iff (hσ : σ.IsProper) :
    σ.checkAcyclic = .ok σ ↔ σ.Loopfree := by
  refine ⟨fun hok => ?_, fun hloopfree => hloopfree.checkAcyclic_eq hσ⟩
  by_contra hloop
  obtain ⟨_, _, _, _, -, -, -, herror⟩ := hσ.exists_cyclicBinding hloop
  cases hok.symm.trans herror

/-! ## What is returned -/

theorem apply_eq_self (h : ∀ y ∈ t.vars, y.name ∉ σ.names) : σ.apply t = t := by
  rw [apply, resolve_eq_bind]
  refine Term.bind_eq_self fun y hy => ?_
  cases σ.bindings.length with
  | zero => rfl
  | succ depth => rw [resolve, Term.bind_var, lookup_eq_none_iff.mpr (h y hy)]

/-- A compound outcome is searched by asking for its arguments one after the other. -/
theorem tryOccurs_eq (h : σ.tryApply t = .ok u) (v : Term) : σ.tryOccurs v t =
    match u with
    | .var x => hasNameOf x v
    | .app _ args => args.anyM (σ.tryOccurs v)
    | _ => .ok false := by
  rw [tryOccurs]
  split
  · rename_i h'
    cases h'.symm.trans h
  · rename_i h'
    cases h'.symm.trans h
    rfl
  · rename_i args h'
    cases h'.symm.trans h
    -- the recursion attaches to each argument that it is one, which does not matter for the answer
    have hforget : ∀ items : List {a // a ∈ args},
        items.anyM (fun a => σ.tryOccurs v a.1) = (items.map Subtype.val).anyM (σ.tryOccurs v) := by
      intro items
      induction items with
      | nil => rfl
      | cons a items ih => rw [List.anyM_cons, List.map_cons, List.anyM_cons, ih]
    exact (hforget args.attach).trans (by rw [List.attach_map_subtype_val])
  · rename_i w hvar happ h'
    cases h'.symm.trans h
    split
    · exact absurd rfl (hvar _)
    · exact absurd rfl (happ _ _)
    · rfl

/-- A variable occurs in a term under a substitution when it is in the outcome. -/
theorem tryOccurs_var (h : σ.tryApply t = .ok u) (x : Variable) :
    σ.tryOccurs (.var x) t = .ok (decide (x ∈ u.vars)) := by
  rw [tryOccurs_eq h]
  induction u using Term.inductionOnArgs generalizing t with
  | var y =>
      refine congrArg Except.ok (Bool.eq_iff_iff.mpr ?_)
      rw [beq_iff_eq, decide_eq_true_iff, Term.vars, List.mem_singleton]
      -- names of variables differ where the variables do
      exact ⟨fun hname => by cases x; cases y; cases hname; rfl, fun h => h ▸ rfl⟩
  | const c => rfl
  | foreign a => rfl
  | app f args ih =>
      have hargs : ∀ a ∈ args, σ.tryOccurs (.var x) a = .ok (decide (x ∈ a.vars)) := by
        intro a ha
        have houtcome := tryApply_of_mem h ha
        rw [tryOccurs_eq houtcome]
        exact ih a ha houtcome
      refine (anyM_eq_ok hargs).trans (congrArg Except.ok (Bool.eq_iff_iff.mpr ?_))
      simp only [List.any_eq_true, decide_eq_true_iff, Term.mem_vars_app]

/-- **The check for cycles is exact.**  It returns the substitution when no name is led back to
itself by one or more bindings, which is when applying the substitution ends at every term; where
there is a loop, it names the first binding on one.  A substitution that is accepted leaves no bound
name in an outcome, so that applying it again changes nothing, and a variable occurs in a term under
the substitution when it is in the outcome. -/
theorem IsProper.checkAcyclic_exact (hσ : σ.IsProper) :
    (σ.checkAcyclic = .ok σ ↔ σ.Loopfree) ∧ (σ.Loopfree ↔ ∀ t, t.isProper → σ.EndsAt t) ∧
    (∀ t, t.isProper → ((∃ u, σ.tryApply t = .ok u) ↔ σ.EndsAt t)) ∧
    (¬σ.Loopfree → ∃ before name t after, σ.bindings = before ++ (name, t) :: after ∧
      σ.OnLoop name ∧
      (∀ binding ∈ before, ¬σ.OnLoop binding.1) ∧ σ.checkAcyclic = .error (.cyclicBinding name t)) ∧
    (σ.checkAcyclic = .ok σ → ∀ t, t.isProper → ∃ u, σ.tryApply t = .ok u ∧
      (∀ y ∈ u.vars, y.name ∉ σ.names) ∧ σ.tryApply u = .ok u ∧
        ∀ x, σ.tryOccurs (.var x) t = .ok (decide (x ∈ u.vars))) := by
  refine ⟨hσ.checkAcyclic_eq_ok_iff, hσ.loopfree_iff_endsAt, fun t ht => hσ.exists_tryApply_iff ht,
    hσ.exists_cyclicBinding, ?_⟩
  intro hok t ht
  have htriangular := (hσ.checkAcyclic_eq_ok_iff.mp hok).triangular
  have houtcome := htriangular.tryApply_eq hσ ht
  have hunbound : ∀ y ∈ (σ.apply t).vars, y.name ∉ σ.names :=
    fun y hy => htriangular.not_mem_names hy
  refine ⟨σ.apply t, houtcome, hunbound, ?_, tryOccurs_var houtcome⟩
  rw [htriangular.tryApply_eq hσ (isProper_apply hσ ht), apply_eq_self hunbound]

/-- Bindings of which the first leads into the loop of the other two. -/
def roundabout : Substitution :=
  let a : Variable := ⟨"a", by decide⟩
  let b : Variable := ⟨"b", by decide⟩
  (((∅ : Substitution).insert "x" (.var a)).insert "a"
  (.app (.text "Next" (by decide)) [.var b])).insert "b" (.var a)

theorem checkAcyclic_exact_roundabout : roundabout.IsProper ∧ roundabout.checkAcyclic =
    .error (.cyclicBinding "a" (.app (.text "Next" (by decide)) [.var ⟨"b", by decide⟩])) := by
  have hproper : roundabout.IsProper := by unfold IsProper; decide
  have hround : roundabout.OnLoop "a" :=
    .head ⟨_, rfl, ⟨"b", by decide⟩, by decide, rfl⟩
      (.single ⟨_, rfl, ⟨"a", by decide⟩, by decide, rfl⟩)
  have hstraight : ¬roundabout.OnLoop "x" := by
    -- no binding leads to the name
    have hnone : ∀ binding ∈ roundabout.bindings, ∀ y ∈ binding.2.vars, y.name ≠ "x" := by decide
    intro hloop
    obtain ⟨_, -, t, ht, y, hy, hname⟩ := Relation.TransGen.tail'_iff.mp hloop
    exact hnone _ (lookup_eq_some_iff.mp ht) y hy hname
  obtain ⟨before, name, t, after, hsplit, hname, hearlier, herror⟩ :=
    hproper.checkAcyclic_exact.2.2.2.1 fun hloopfree => hloopfree "a" hround
  rcases before with _ | ⟨first, _ | ⟨second, rest⟩⟩
  · cases hsplit
    exact absurd hname hstraight
  · cases hsplit
    exact ⟨hproper, herror⟩
  · have hsecond : "a" = second.1 := congrArg Prod.fst (List.cons.inj (List.cons.inj hsplit).2).1
    exact absurd (hsecond ▸ hround) (hearlier _ (List.mem_cons_of_mem _ List.mem_cons_self))

end HornPlan.Substitution
