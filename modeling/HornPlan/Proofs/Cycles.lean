import HornPlan.Expression
import HornPlan.Proofs.Outcomes
import HornPlan.Proofs.Substitutions
import Mathlib.Data.Finset.Card
import Mathlib.Logic.Relation

/-!
# Cycles of bindings

A binding leads from its name to the names of the variables in its term (`LeadsTo`).  A substitution
is free of loops when no name is led back to itself (`Loopfree`).  What is said of cycles comes in
three forms, and they are the same:

* the search for a cycle, which follows every binding at most once, finds none (`acyclic_iff`);
* no name is led back to itself;
* the bound names have ranks that every binding lowers (`Triangular.loopfree`,
  `Loopfree.triangular`).

The search is exact because a path that comes back to a name can be cut there: what is met from a
name is met from its term without the binding of the name (`leadsTo_cut`).

Where a substitution is free of loops, applying it never fails, and it is accepted wherever it is
checked.
-/

namespace HornPlan

namespace Substitution

/-! ## Paths of bindings -/

/-- One of some bindings leads from a name to another. -/
def LeadsTo (bindings : List (String × Term)) (name other : String) : Prop :=
  ∃ t, bindings.lookup name = some t ∧ ∃ y ∈ t.vars, y.name = other

/-- No name is led back to itself by one or more bindings. -/
def Loopfree (σ : Substitution) : Prop :=
  ∀ name, ¬Relation.TransGen (LeadsTo σ.bindings) name name

variable {bindings : List (String × Term)} {name : String} {t : Term}

theorem lookup_eraseP_of_ne {other : String} (hne : other ≠ name) :
    (bindings.eraseP (·.1 == name)).lookup other = bindings.lookup other := by
  induction bindings with
  | nil => rfl
  | cons binding rest ih =>
      by_cases hname : binding.1 = name
      · have hother : (other == binding.1) = false := beq_eq_false_iff_ne.mpr (hname ▸ hne)
        rw [List.eraseP_cons_of_pos (by simpa using hname), List.lookup_cons, hother]
      · rw [List.eraseP_cons_of_neg (by simpa using hname), List.lookup_cons, List.lookup_cons, ih]

theorem lookup_eraseP_self (hnodup : (bindings.map Prod.fst).Nodup) :
    (bindings.eraseP (·.1 == name)).lookup name = none := by
  induction bindings with
  | nil => rfl
  | cons binding rest ih =>
      obtain ⟨hfresh, hrest⟩ := List.nodup_cons.mp hnodup
      by_cases hname : binding.1 = name
      · rw [List.eraseP_cons_of_pos (by simpa using hname), List.lookup_eq_none_iff]
        intro other hother
        have hne : name ≠ other.1 := by
          rintro rfl
          exact hfresh (hname ▸ List.mem_map_of_mem hother)
        simpa using hne
      · have hother : (name == binding.1) = false := beq_eq_false_iff_ne.mpr (Ne.symm hname)
        rw [List.eraseP_cons_of_neg (by simpa using hname), List.lookup_cons, hother]
        exact ih hrest

theorem LeadsTo.of_eraseP (hnodup : (bindings.map Prod.fst).Nodup) {x y : String}
    (h : LeadsTo (bindings.eraseP (·.1 == name)) x y) : LeadsTo bindings x y := by
  obtain ⟨u, hu, hy⟩ := h
  have hne : x ≠ name := by
    rintro rfl
    rw [lookup_eraseP_self hnodup] at hu
    cases hu
  rw [lookup_eraseP_of_ne hne] at hu
  exact ⟨u, hu, hy⟩

/-- Where a path ends that may come to a name is the name, or it is led to without the binding of
the name, from the start or from the term that the name is bound to. -/
theorem leadsTo_cut (ht : bindings.lookup name = some t) {start finish : String}
    (h : Relation.ReflTransGen (LeadsTo bindings) start finish) :
    finish = name ∨ Relation.ReflTransGen (LeadsTo (bindings.eraseP (·.1 == name))) start finish ∨
      ∃ v ∈ t.vars,
      Relation.ReflTransGen (LeadsTo (bindings.eraseP (·.1 == name))) v.name finish := by
  induction h with
  | refl => exact Or.inr (Or.inl .refl)
  | @tail middle finish _ hstep ih =>
      obtain ⟨u, hu, y, hy, rfl⟩ := hstep
      by_cases hmiddle : middle = name
      · -- the path starts anew from the term of the name
        subst hmiddle
        obtain rfl := Option.some.inj (ht.symm.trans hu)
        exact Or.inr (Or.inr ⟨y, hy, .refl⟩)
      · have hlast : LeadsTo (bindings.eraseP (·.1 == name)) middle y.name :=
          ⟨u, by rwa [lookup_eraseP_of_ne hmiddle], y, hy, rfl⟩
        rcases ih with heq | hdirect | ⟨v, hv, hpath⟩
        · exact absurd heq hmiddle
        · exact Or.inr (Or.inl (hdirect.tail hlast))
        · exact Or.inr (Or.inr ⟨v, hv, hpath.tail hlast⟩)

theorem eq_of_leadsTo (hnone : bindings.lookup name = none) {finish : String}
    (h : Relation.ReflTransGen (LeadsTo bindings) name finish) : finish = name := by
  rcases h.cases_head with heq | ⟨_, ⟨u, hu, -⟩, -⟩
  · exact heq.symm
  · cases hnone.symm.trans hu

theorem exists_variable_of_leadsTo {x : Variable} {finish : String}
    (h : Relation.ReflTransGen (LeadsTo bindings) x.name finish) :
    ∃ y : Variable, y.name = finish := by
  rcases h.cases_tail with heq | ⟨_, -, _, -, y, -, hy⟩
  · exact ⟨x, heq.symm⟩
  · exact ⟨y, hy⟩

/-! ## What is met -/

/-- The search through bindings stops at a variable that passes the test, or whose term does. -/
def IsStop (stops : Variable → Bool) (ends : Term → Bool) (bindings : List (String × Term))
    (y : Variable) : Prop :=
  stops y ∨ ∃ t, bindings.lookup y.name = some t ∧ ends t

variable {stops : Variable → Bool} {ends : Term → Bool}

theorem isStop_eraseP_iff {x y : Variable} (hne : y ≠ x) :
    IsStop stops ends (bindings.eraseP (·.1 == x.name)) y ↔ IsStop stops ends bindings y := by
  have hname : y.name ≠ x.name := fun h => hne (Variable.eq_of_name_eq h)
  rw [IsStop, IsStop, lookup_eraseP_of_ne hname]

/-- The search stops somewhere on a path from some variables. -/
def StopsFrom (stops : Variable → Bool) (ends : Term → Bool) (bindings : List (String × Term))
    (pending : List Variable) : Prop :=
  ∃ x ∈ pending, ∃ y, IsStop stops ends bindings y ∧
    Relation.ReflTransGen (LeadsTo bindings) x.name y.name

/-- Where the search does not stop at a variable and goes no further from it, the others decide. -/
theorem stopsFrom_cons_of_unbound {x : Variable} {pending : List Variable} (hstops : ¬stops x)
    (hnone : bindings.lookup x.name = none) :
    StopsFrom stops ends bindings (x :: pending) ↔ StopsFrom stops ends bindings pending := by
  refine ⟨?_, fun ⟨z, hz, hmet⟩ => ⟨z, List.mem_cons_of_mem _ hz, hmet⟩⟩
  rintro ⟨z, hz, y, hy, hpath⟩
  rcases List.mem_cons.mp hz with rfl | hz
  · obtain rfl := Variable.eq_of_name_eq (eq_of_leadsTo hnone hpath)
    rcases hy with hy | ⟨u, hu, -⟩
    · exact absurd hy hstops
    · cases hnone.symm.trans hu
  · exact ⟨z, hz, y, hy, hpath⟩

/-- Where the search does not stop at a bound variable, it stops at the term of the variable, or it
goes on from there without the binding. -/
theorem stopsFrom_cons_of_bound (hnodup : (bindings.map Prod.fst).Nodup) {x : Variable}
    {pending : List Variable} (hstops : ¬stops x) (ht : bindings.lookup x.name = some t) :
    StopsFrom stops ends bindings (x :: pending) ↔ ends t ∨
      StopsFrom stops ends (bindings.eraseP (·.1 == x.name)) (t.vars ++ pending) := by
  have herased : (bindings.eraseP (·.1 == x.name)).lookup x.name = none := lookup_eraseP_self hnodup
  constructor
  · rintro ⟨z, hz, y, hy, hpath⟩
    -- without its binding the variable has no term to stop at
    by_cases heq : y = x
    · subst heq
      rcases hy with hy | ⟨u, hu, hends⟩
      · exact absurd hy hstops
      · obtain rfl := Option.some.inj (ht.symm.trans hu)
        exact Or.inl hends
    · have hstop := (isStop_eraseP_iff heq).mpr hy
      refine Or.inr ?_
      -- a path that uses the binding is cut where it does so last, and begins at its term from
      -- there
      rcases leadsTo_cut ht hpath with hsame | hdirect | ⟨v, hv, hrest⟩
      · exact absurd (Variable.eq_of_name_eq hsame) heq
      · rcases List.mem_cons.mp hz with rfl | hz
        · exact absurd (Variable.eq_of_name_eq (eq_of_leadsTo herased hdirect)) heq
        · exact ⟨z, List.mem_append_right _ hz, y, hstop, hdirect⟩
      · exact ⟨v, List.mem_append_left _ hv, y, hstop, hrest⟩
  · rintro (hends | ⟨z, hz, y, hy, hpath⟩)
    · exact ⟨x, List.mem_cons_self, x, Or.inr ⟨t, ht, hends⟩, .refl⟩
    · have hstop : IsStop stops ends bindings y := by
        by_cases heq : y = x
        · subst heq
          refine hy.imp_right ?_
          rintro ⟨u, hu, -⟩
          cases herased.symm.trans hu
        · exact (isStop_eraseP_iff heq).mp hy
      have hwhole := Relation.ReflTransGen.mono (fun _ _ => LeadsTo.of_eraseP hnodup) _ _ hpath
      rcases List.mem_append.mp hz with hz | hz
      · exact ⟨x, List.mem_cons_self, y, hstop, hwhole.head ⟨t, ht, z, hz, rfl⟩⟩
      · exact ⟨z, List.mem_cons_of_mem _ hz, y, hstop, hwhole⟩

/-- **The search meets exactly what bindings lead to.** -/
theorem meets_iff {unvisited : List (String × Term)} {pending : List Variable}
    (hnodup : (unvisited.map Prod.fst).Nodup) :
    meets stops ends unvisited pending ↔ StopsFrom stops ends unvisited pending := by
  fun_induction meets stops ends unvisited pending with
  | case1 unvisited => simp [StopsFrom]
  | case2 unvisited x pending hstops =>
      exact iff_of_true rfl ⟨x, List.mem_cons_self, x, Or.inl hstops, .refl⟩
  | case3 unvisited x pending hstops hnone ih =>
      rw [ih hnodup, stopsFrom_cons_of_unbound hstops hnone]
  | case4 unvisited x pending hstops t ht _ ih =>
      have hkept : ((unvisited.eraseP (·.1 == x.name)).map Prod.fst).Nodup :=
        hnodup.sublist (List.eraseP_sublist.map _)
      rw [Bool.or_eq_true, ih hkept, stopsFrom_cons_of_bound hnodup hstops ht]

/-! ## Cycles -/

variable {σ : Substitution}

theorem onCycle_iff {binding : String × Term} (hbinding : binding ∈ σ.bindings) :
    σ.onCycle binding ↔ Relation.TransGen (LeadsTo σ.bindings) binding.1 binding.1 := by
  have hlookup : σ.bindings.lookup binding.1 = some binding.2 := lookup_eq_some_iff.mpr hbinding
  rw [onCycle, meets_iff σ.nodup, Relation.TransGen.head'_iff]
  constructor
  · rintro ⟨x, hx, y, hy, hpath⟩
    have hname : y.name = binding.1 := by
      rcases hy with hy | ⟨_, -, hends⟩
      · exact beq_iff_eq.mp hy
      · cases hends
    exact ⟨x.name, ⟨binding.2, hlookup, x, hx, rfl⟩, hname ▸ hpath⟩
  · rintro ⟨_, ⟨u, hu, x, hx, rfl⟩, hpath⟩
    obtain rfl := Option.some.inj (hlookup.symm.trans hu)
    obtain ⟨y, hy⟩ := exists_variable_of_leadsTo hpath
    exact ⟨x, hx, y, Or.inl (beq_iff_eq.mpr hy), hy ▸ hpath⟩

theorem mem_names_of_leadsTo {name other : String} (h : LeadsTo σ.bindings name other) :
    name ∈ σ.names := by
  obtain ⟨t, ht, -⟩ := h
  exact mem_names.mpr ⟨t, lookup_eq_some_iff.mp ht⟩

theorem mem_names_of_transGen {name other : String}
    (h : Relation.TransGen (LeadsTo σ.bindings) name other) : name ∈ σ.names := by
  obtain ⟨_, hstep, -⟩ := Relation.TransGen.head'_iff.mp h
  exact mem_names_of_leadsTo hstep

/-- **No cycle is found exactly when there is none.** -/
theorem acyclic_iff : σ.Acyclic ↔ σ.Loopfree := by
  rw [Acyclic, cyclicBinding?, List.find?_eq_none]
  constructor
  · intro h name hloop
    obtain ⟨t, ht⟩ := mem_names.mp (mem_names_of_transGen hloop)
    exact h _ ht ((onCycle_iff ht).mpr hloop)
  · intro h binding hbinding hcycle
    exact h binding.1 ((onCycle_iff hbinding).mp hcycle)

/-- All that can be wrong with a binding of a proper substitution is that it lies on a cycle. -/
theorem IsProper.bindingFault?_eq (hproper : σ.IsProper) {binding : String × Term}
    (hbinding : binding ∈ σ.bindings) : σ.bindingFault? binding =
      if σ.onCycle binding then some (.cyclicBinding binding.1 binding.2) else none := by
  have hlisted : ∀ other ∈ σ.bindings, other.2.hasListedVariable = false := fun other hother =>
    Term.hasListedVariable_eq_false (hproper other hother)
  have hleads : σ.leadsToListed binding = false := by
    rw [leadsToListed, List.any_eq_false.mpr fun other hother => by simp [hlisted other hother],
      Bool.false_and]
  have hprintable : binding.2.isPrintable := Term.isPrintable_of_isProper (hproper binding hbinding)
  simp [bindingFault?, hlisted binding hbinding, hleads, Error.printing, hprintable]

theorem Loopfree.checkAcyclic_eq (hσ : σ.Loopfree) (hproper : σ.IsProper) :
    σ.checkAcyclic = .ok σ := by
  have hfaults : σ.bindings.findSome? σ.bindingFault? = none := by
    refine List.findSome?_eq_none_iff.mpr ?_
    intro binding hbinding
    rw [hproper.bindingFault?_eq hbinding, if_neg]
    exact fun hcycle => hσ binding.1 ((onCycle_iff hbinding).mp hcycle)
  rw [checkAcyclic, hfaults]

/-! ## Ranks -/

/-- Ranks go down along a path to a bound name. -/
theorem rank_lt_of_transGen {rank : String → Nat}
    (hrank : ∀ name t, σ.lookup name = some t →
      ∀ y ∈ t.vars, y.name ∈ σ.names → rank y.name < rank name)
    {name other : String} (h : Relation.TransGen (LeadsTo σ.bindings) name other)
    (hother : other ∈ σ.names) : rank other < rank name := by
  induction h with
  | single hstep =>
      obtain ⟨t, ht, y, hy, rfl⟩ := hstep
      exact hrank _ t ht y hy hother
  | tail _ hstep ih =>
      have hmiddle := ih (mem_names_of_leadsTo hstep)
      obtain ⟨t, ht, y, hy, rfl⟩ := hstep
      have hlast := hrank _ t ht y hy hother
      omega

theorem Triangular.loopfree (hσ : σ.Triangular) : σ.Loopfree := by
  obtain ⟨rank, hrank⟩ := hσ
  intro name hloop
  have hlt := rank_lt_of_transGen (fun name t h => (hrank name t h).2) hloop
    (mem_names_of_transGen hloop)
  omega

open Classical in
/-- The bound names that a name leads to. -/
noncomputable def reached (σ : Substitution) (name : String) : Finset String :=
  σ.names.toFinset.filter fun other => Relation.TransGen (LeadsTo σ.bindings) name other

theorem mem_reached {name other : String} : other ∈ σ.reached name ↔
    other ∈ σ.names ∧ Relation.TransGen (LeadsTo σ.bindings) name other := by
  simp [reached]

/-- A bound name that does not reach itself reaches fewer names than there are bindings. -/
theorem card_reached_lt_length {name : String} (hname : name ∈ σ.names)
    (hloop : ¬Relation.TransGen (LeadsTo σ.bindings) name name) :
    (σ.reached name).card < σ.bindings.length := by
  have hfewer : σ.reached name ⊂ σ.names.toFinset := by
    refine (Finset.ssubset_iff_of_subset ?_).mpr ⟨name, List.mem_toFinset.mpr hname, ?_⟩
    · intro other hother
      exact List.mem_toFinset.mpr (mem_reached.mp hother).1
    · intro hmem
      exact hloop (mem_reached.mp hmem).2
  calc (σ.reached name).card < σ.names.toFinset.card := Finset.card_lt_card hfewer
    _ ≤ σ.names.length := List.toFinset_card_le _
    _ = σ.bindings.length := List.length_map _

/-- A binding leads to names that reach fewer names, unless they reach themselves. -/
theorem card_reached_lt {name other : String} (hstep : LeadsTo σ.bindings name other)
    (hother : other ∈ σ.names) (hloop : ¬Relation.TransGen (LeadsTo σ.bindings) other other) :
    (σ.reached other).card < (σ.reached name).card := by
  refine Finset.card_lt_card ((Finset.ssubset_iff_of_subset ?_).mpr ⟨other, ?_, ?_⟩)
  · intro last hlast
    obtain ⟨hmem, hpath⟩ := mem_reached.mp hlast
    exact mem_reached.mpr ⟨hmem, hpath.head hstep⟩
  · exact mem_reached.mpr ⟨hother, .single hstep⟩
  · intro hmem
    exact hloop (mem_reached.mp hmem).2

/-- Without loops the number of names reached is a rank. -/
theorem Loopfree.triangular (hσ : σ.Loopfree) : σ.Triangular := by
  refine ⟨fun name => (σ.reached name).card, ?_⟩
  intro name t ht
  have hname : name ∈ σ.names := mem_names.mpr ⟨t, lookup_eq_some_iff.mp ht⟩
  refine ⟨card_reached_lt_length hname (hσ name), ?_⟩
  intro y hy hbound
  exact card_reached_lt ⟨t, ht, y, hy, rfl⟩ hbound (hσ y.name)

end Substitution

/-! ## Checked application -/

theorem asArgument_eq_ok {t : Term} (ht : t.isBuilt) (f : Symbol) : t.asArgument f = .ok t := by
  cases t with
  | foreign a =>
      cases a with
      | listed => rfl
      | value => cases ht
  | _ => rfl

theorem build?_of_isBuilt {args : List Term} (hargs : ∀ t ∈ args, t.isBuilt) (f : Symbol) :
    Atom.build? (some f) args = .ok ⟨f, args⟩ := by
  have hmap : args.mapM (fun t => t.asArgument f) = .ok (args.map id) :=
    mapM_eq_ok_map fun t ht => asArgument_eq_ok (hargs t ht) f
  rw [Atom.build?, hmap, List.map_id]
  rfl

theorem build?_eq_ok {args : List Term} (hargs : ∀ t ∈ args, t.isProper) (f : Symbol) :
    Atom.build? (some f) args = .ok ⟨f, args⟩ :=
  build?_of_isBuilt (fun t ht => Term.isBuilt_of_isProper (hargs t ht)) f

namespace Substitution

theorem bindAll_eq_ok {f : Variable → Except Error Term} {g : Term → Term} {ts : List Term}
    (h : ∀ t ∈ ts, bindEach f t = .ok (g t)) : bindAll f ts = .ok (ts.map g) := by
  induction ts with
  | nil => rfl
  | cons t ts ih =>
      obtain ⟨ht, hts⟩ := List.forall_mem_cons.mp h
      rw [bindAll, ht, ok_bind, ih hts]
      rfl

/-- Where every variable has a proper outcome, checked replacement is replacement. -/
theorem bindEach_eq_ok {f : Variable → Except Error Term} {h : Variable → Term} {t : Term}
    (ht : t.isProper) (hf : ∀ x ∈ t.vars, f x = .ok (h x))
    (hproper : ∀ x ∈ t.vars, (h x).isProper) :
    bindEach f t = .ok (t.bind h) := by
  induction t using Term.inductionOnArgs with
  | var x => exact hf x (List.mem_singleton_self x)
  | const c => rfl
  | foreign a => cases ht
  | app g args ih =>
      have hargs := (Term.isProper_app.mp ht).2
      have hmem : ∀ t ∈ args, ∀ x ∈ t.vars, x ∈ (Term.app g args).vars :=
        fun t htmem x hx => Term.mem_vars_app.mpr ⟨t, htmem, hx⟩
      have hall : bindAll f args = .ok (args.map (·.bind h)) := bindAll_eq_ok fun t htmem =>
        ih t htmem (hargs t htmem) (fun x hx => hf x (hmem t htmem x hx))
          fun x hx => hproper x (hmem t htmem x hx)
      have hbound : ∀ u ∈ args.map (·.bind h), u.isProper := by
        refine List.forall_mem_map.mpr fun t htmem => Term.isProper_bind.mpr ⟨hargs t htmem, ?_⟩
        intro x hx
        exact hproper x (hmem t htmem x hx)
      rw [bindEach, hall, ok_bind, Term.build?, build?_eq_ok hbound, Term.bind_app]
      rfl

theorem exists_bindEach {f : Variable → Except Error Term} {t : Term} (ht : t.isProper)
    (hf : ∀ x ∈ t.vars, ∃ u, f x = .ok u ∧ u.isProper) :
    ∃ u, bindEach f t = .ok u ∧ u.isProper := by
  have houtcome : ∀ x ∈ t.vars, f x = .ok ((f x).toOption.getD (.var x)) := by
    intro x hx
    obtain ⟨u, hu, -⟩ := hf x hx
    rw [hu]
    rfl
  have hproper : ∀ x ∈ t.vars, ((f x).toOption.getD (.var x)).isProper := by
    intro x hx
    obtain ⟨u, hu, hproper⟩ := hf x hx
    rw [hu]
    exact hproper
  exact ⟨_, bindEach_eq_ok ht houtcome hproper, Term.isProper_bind.mpr ⟨ht, hproper⟩⟩

theorem exists_of_bindAll {f : Variable → Except Error Term} {ts us : List Term}
    (h : bindAll f ts = .ok us) {t : Term} (ht : t ∈ ts) : ∃ u, bindEach f t = .ok u := by
  induction ts generalizing us with
  | nil => cases ht
  | cons first rest ih =>
      rw [bindAll] at h
      obtain ⟨u, hu, h⟩ := bind_eq_ok.mp h
      obtain ⟨us, hus, -⟩ := bind_eq_ok.mp h
      rcases List.mem_cons.mp ht with rfl | ht
      · exact ⟨u, hu⟩
      · exact ih hus ht

theorem exists_of_bindEach {f : Variable → Except Error Term} {t u : Term}
    (h : bindEach f t = .ok u) {x : Variable} (hx : x ∈ t.vars) : ∃ v, f x = .ok v := by
  induction t using Term.inductionOnArgs generalizing u with
  | var y =>
      obtain rfl := List.mem_singleton.mp hx
      exact ⟨u, h⟩
  | app g args ih =>
      rw [bindEach] at h
      obtain ⟨us, hus, -⟩ := bind_eq_ok.mp h
      obtain ⟨t, ht, hxt⟩ := Term.mem_vars_app.mp hx
      obtain ⟨v, hv⟩ := exists_of_bindAll hus ht
      exact ih t ht hv hxt
  | _ => exact absurd hx List.not_mem_nil

variable {σ : Substitution}

/-- Chains no longer than a rank allows can be followed to their end. -/
theorem tryResolve_eq (hproper : σ.IsProper) {rank : String → Nat}
    (hrank : ∀ name t, σ.lookup name = some t →
      ∀ y ∈ t.vars, y.name ∈ σ.names → rank y.name < rank name)
    {depth : Nat} {t : Term} (ht : t.isProper)
    (hdepth : ∀ x ∈ t.vars, x.name ∈ σ.names → rank x.name < depth) :
    σ.tryResolve depth t = .ok (σ.resolve depth t) := by
  induction depth generalizing t with
  | zero =>
      have hunbound : ∀ x ∈ t.vars, σ.lookup x.name = none := fun x hx =>
        lookup_eq_none_iff.mpr fun hmem => absurd (hdepth x hx hmem) (Nat.not_lt_zero _)
      have hsame : σ.resolve 0 t = t.bind Term.var := (Term.bind_eq_self fun _ _ => rfl).symm
      rw [hsame]
      refine bindEach_eq_ok ht ?_ fun x _ => rfl
      intro x hx
      simp [hunbound x hx]
  | succ depth ih =>
      refine bindEach_eq_ok ht ?_ ?_
      · intro x hx
        cases hlookup : σ.lookup x.name with
        | none => rfl
        | some u =>
            have hbound : x.name ∈ σ.names := mem_names.mpr ⟨u, lookup_eq_some_iff.mp hlookup⟩
            -- the rank goes down along the binding, so one step less is enough for its term
            have hbelow := hdepth x hx hbound
            refine ih (hproper _ (lookup_eq_some_iff.mp hlookup)) ?_
            intro y hy hmem
            have hlower := hrank _ u hlookup y hy hmem
            omega
      · intro x _
        cases hlookup : σ.lookup x.name with
        | none => rfl
        | some u => exact isProper_resolve hproper depth (hproper _ (lookup_eq_some_iff.mp hlookup))

/-- **Applying a substitution that is free of loops does not fail.** -/
theorem Triangular.tryApply_eq (hσ : σ.Triangular) (hproper : σ.IsProper) {t : Term}
    (ht : t.isProper) :
    σ.tryApply t = .ok (σ.apply t) := by
  obtain ⟨rank, hrank⟩ := hσ
  refine tryResolve_eq hproper (fun name t h => (hrank name t h).2) ht ?_
  intro x _ hmem
  obtain ⟨u, hu⟩ := mem_names.mp hmem
  exact (hrank _ _ (lookup_eq_some_iff.mpr hu)).1

end Substitution

end HornPlan
