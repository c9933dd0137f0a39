import HornPlan.Proofs.Entailment
import HornPlan.Proofs.Instances
import Mathlib.Data.Set.List

/-!
# What is written is read back

Terms, actions and states are written as JSON documents.  Reading such a document gives back what
was written, as long as it is proper: `Term.ofData?_toData`, `Action.ofData?_toData`,
`State.Proper.exists_stateData`.

A term is read by the first of three keys that its document has, and each kind of term is written
under one key alone.  An action is made again from its parts; it has no repetitions to be merged and
nothing wrong with it, so that it comes out as it went in.  A state is written as a list in the
order of the texts, and the set of the terms in that list is put in the order of the codes again.
Two lists in that order with the same members are the same (`OrderedBy.eq_of_mem_iff`).
-/

namespace HornPlan

/-! ## Terms -/

theorem Symbol.ofData?_toData (f : Symbol) : Symbol.ofData? f.toData = some f := by
  cases f with
  | text name nonempty => exact dif_neg nonempty
  | value v content notText =>
      unfold Symbol.ofData? Symbol.toData
      split
      · rename_i name hname
        cases notText.symm.trans hname
      · exact dif_pos content

namespace Term

theorem toDataList_eq_map (ts : List Term) : toDataList ts = ts.map toData := by
  induction ts with
  | nil => rfl
  | cons t ts ih => rw [toDataList, ih, List.map_cons]

theorem ofDataList?_map {ts : List Term} (h : ∀ t ∈ ts, ofData? t.toData = .ok t) :
    ofDataList? (ts.map toData) = .ok ts := by
  induction ts with
  | nil => rfl
  | cons t ts ih =>
      obtain ⟨ht, hrest⟩ := List.forall_mem_cons.mp h
      rw [List.map_cons, ofDataList?, ht, ok_bind, ih hrest]
      rfl

theorem ofArgsField?_app (f : Symbol) (items : List Json) :
    ofArgsField? [("op", f.toData), ("args", .arr items)] = ofDataList? items := by
  have hop : ("op" : String) ≠ "args" := by decide
  have hargs : ofArgsField? [("args", .arr items)] = ofDataList? items := by
    rw [ofArgsField?.eq_def]
    rfl
  rw [ofArgsField?.eq_def]
  cases f.toData <;> simp only [if_neg hop, hargs]

/-- **A built term is read back**, whatever stands in the place of its names and symbols. -/
theorem ofData?_of_isBuilt {t : Term} (ht : t.isBuilt) : ofData? t.toData = .ok t := by
  induction t using Term.inductionOnArgs with
  | var x =>
      have hread : Variable.ofName? x.name = .ok x := dif_pos x.lowercase
      rw [toData, ofData?]
      exact congrArg (Except.map var) hread
  | const c =>
      have hread : Constant.ofName? c.name = .ok c := by
        rw [Constant.ofName?, dif_neg c.nonempty, dif_pos c.notLowercase]
      rw [toData, ofData?]
      exact congrArg (Except.map const) hread
  | foreign f =>
      cases f with
      | value => cases ht
      | listed first rest =>
          -- the first item of the list says under which key it is written
          cases hfirst : Text.isLowercaseText first <;>
            simp [toData, Foreign.toData, hfirst, ofData?, List.lookup_cons, ofVariableData?,
              ofConstantData?, Foreign.listName, Json.startsLowercase?, Json.listed, Json.isTruthy]
  | app f args ih =>
      have hargs := isBuilt_app.mp ht
      have hread : ofDataList? (args.map toData) = .ok args :=
        ofDataList?_map fun t hmem => ih t hmem (hargs t hmem)
      have hbuild : build? (some f) args = .ok (app f args) := by
        rw [build?, build?_of_isBuilt hargs f]
        rfl
      rw [toData, ofData?.eq_def, toDataList_eq_map]
      change (ofArgsField? _ >>= fun args => build? (Symbol.ofData? f.toData) args) = _
      rw [ofArgsField?_app, hread, ok_bind, Symbol.ofData?_toData, hbuild]

/-- **A proper term is read back.** -/
theorem ofData?_toData {t : Term} (ht : t.isProper) : ofData? t.toData = .ok t :=
  ofData?_of_isBuilt (isBuilt_of_isProper ht)

end Term

theorem Atom.ofDataList?_of_isBuilt {as : List Atom} (has : ∀ a ∈ as, a.toTerm.isBuilt) :
    Term.ofDataList? (as.map Atom.toData) = .ok (as.map Atom.toTerm) := by
  have hmap : as.map Atom.toData = (as.map Atom.toTerm).map Term.toData := by
    rw [List.map_map]
    rfl
  rw [hmap]
  refine Term.ofDataList?_map ?_
  intro t ht
  obtain ⟨a, ha, rfl⟩ := List.mem_map.mp ht
  exact Term.ofData?_of_isBuilt (has a ha)

theorem Atom.ofDataList?_toData {as : List Atom} (has : ∀ a ∈ as, a.isProper) :
    Term.ofDataList? (as.map Atom.toData) = .ok (as.map Atom.toTerm) :=
  ofDataList?_of_isBuilt fun a ha => Term.isBuilt_of_isProper (has a ha)

/-! ## Actions -/

theorem SimpleTerm.ofTerm?_toTerm {q : SimpleTerm} (hq : q.toTerm.isProper) :
    SimpleTerm.ofTerm? q.toTerm = some q := by
  cases q with
  | listed => cases hq
  | _ => rfl

theorem parameters?_toTerm {f : Symbol} {ps : List SimpleTerm} (hps : ∀ q ∈ ps, q.toTerm.isProper) :
    parameters? f (ps.map SimpleTerm.toTerm) = .ok ps := by
  have hkinds : (ps.map SimpleTerm.toTerm).find? (fun t => !t.isParameter) = none := by
    refine List.find?_eq_none.mpr ?_
    intro t ht
    obtain ⟨q, -, rfl⟩ := List.mem_map.mp ht
    cases q <;> exact Bool.false_ne_true
  rw [parameters?, hkinds]
  refine mapM_eq_ok.mpr (List.forall₂_map_left_iff.mpr (List.forall₂_same.mpr ?_))
  intro q hq
  rw [SimpleTerm.ofTerm?_toTerm (hps q hq)]

theorem mapM_named {ps : List SimpleTerm} :
    (ps.map SimpleTerm.toTerm).mapM Term.named = .ok (ps.map SimpleTerm.toTerm) := by
  refine mapM_eq_ok.mpr (List.forall₂_same.mpr ?_)
  intro t ht
  obtain ⟨q, -, rfl⟩ := List.mem_map.mp ht
  cases q <;> rfl

theorem filterMap_atom? (as : List Atom) : (as.map Atom.toTerm).filterMap Term.atom? = as := by
  rw [List.filterMap_map]
  exact List.filterMap_some

namespace Schema

theorem distinct_eq_self {s : Schema} (h : s.AllDistinct) : s.distinct = s := by
  obtain ⟨hrequires, hforbids, hadds, hdeletes, hstatic⟩ := h
  rw [distinct, eraseDups_eq_self hrequires, eraseDups_eq_self hforbids, eraseDups_eq_self hadds,
    eraseDups_eq_self hdeletes, eraseDups_eq_self hstatic]

end Schema

namespace Action

variable {a : Action}

theorem toAction?_toSchema (a : Action) : a.toSchema.toAction? = .ok a := by
  have hdistinct := Schema.distinct_eq_self a.distinct
  have hsound : a.toSchema.distinct.fault? = none := by
    rw [hdistinct]
    exact a.sound
  unfold Schema.toAction?
  split
  · obtain ⟨schema, _, _⟩ := a
    simp only at hdistinct
    simp only [hdistinct]
  · rename_i fault hfault
    cases hsound.symm.trans hfault

/-- The draft that an action is made from. -/
def toDraft (a : Action) : Draft :=
  ⟨some a.name, a.parameters.map SimpleTerm.toTerm, a.requires.map Atom.toTerm,
    a.forbids.map Atom.toTerm, a.adds.map Atom.toTerm, a.deletes.map Atom.toTerm,
    a.static.map Atom.toTerm, false⟩

/-- A proper action is made again from its draft. -/
theorem toAction?_toDraft (ha : a.isProper) : a.toDraft.toAction? = .ok a := by
  obtain ⟨-, hparameters, hatoms⟩ := Schema.isProper_iff.mp ha
  have hterms : a.requires.map Atom.toTerm ++ a.forbids.map Atom.toTerm ++ a.adds.map Atom.toTerm
      ++ a.deletes.map Atom.toTerm ++ a.static.map Atom.toTerm = a.atoms.map Atom.toTerm := by
    simp only [Schema.atoms, List.map_append]
  have hindexable : (a.atoms.map Atom.toTerm).all Term.isIndexable = true := by
    rw [List.all_map]
    exact List.all_eq_true.mpr fun b hb => Term.isIndexable_of_isProper (hatoms b hb)
  have hkinds : (a.atoms.map Atom.toTerm).find? (·.atom?.isNone) = none := by
    refine List.find?_eq_none.mpr ?_
    intro t ht
    obtain ⟨b, -, rfl⟩ := List.mem_map.mp ht
    exact Bool.false_ne_true
  simp only [Draft.toAction?, toDraft, hterms]
  rw [mapM_named, ok_bind, hindexable, parameters?_toTerm hparameters, hkinds]
  simp only [filterMap_atom?, Bool.not_true, Bool.false_eq_true, if_false, ok_bind]
  rw [toAction?_toSchema]
  rfl

/-- **A proper action is read back.** -/
theorem ofData?_toData (ha : a.isProper) : ofData? a.toData = .ok a := by
  obtain ⟨-, hparameters, hatoms⟩ := Schema.isProper_iff.mp ha
  have hlist : ∀ as : List Atom, (∀ b ∈ as, b ∈ a.atoms) →
      Term.ofDataList? (as.map Atom.toData) = .ok (as.map Atom.toTerm) := fun as hsub =>
    Atom.ofDataList?_toData fun b hb => hatoms b (hsub b hb)
  have hterms : Term.ofDataList? (a.parameters.map fun q => q.toTerm.toData)
      = .ok (a.parameters.map SimpleTerm.toTerm) := by
    have hmap : (a.parameters.map fun q => q.toTerm.toData)
        = (a.parameters.map SimpleTerm.toTerm).map Term.toData := by
      rw [List.map_map]
      rfl
    rw [hmap]
    exact Term.ofDataList?_map fun t ht => by
      obtain ⟨q, hq, rfl⟩ := List.mem_map.mp ht
      exact Term.ofData?_toData (hparameters q hq)
  have hrequires := hlist a.requires (by simp +contextual [Schema.atoms])
  have hforbids := hlist a.forbids (by simp +contextual [Schema.atoms])
  have hadds := hlist a.adds (by simp +contextual [Schema.atoms])
  have hdeletes := hlist a.deletes (by simp +contextual [Schema.atoms])
  have hstatic := hlist a.static (by simp +contextual [Schema.atoms])
  -- the fields are read in the order in which they are written
  change (do
    let parameters ← Term.ofDataList? (a.parameters.map fun q : SimpleTerm => q.toTerm.toData)
    let requires ← Term.ofDataList? (a.requires.map Atom.toData)
    let forbids ← Term.ofDataList? (a.forbids.map Atom.toData)
    let adds ← Term.ofDataList? (a.adds.map Atom.toData)
    let deletes ← Term.ofDataList? (a.deletes.map Atom.toData)
    let static ← Term.ofDataList? (a.static.map Atom.toData)
    Draft.toAction? ⟨Symbol.ofData? a.name.toData, parameters, requires, forbids, adds,
      deletes, static, false⟩) = _
  rw [hterms, ok_bind, hrequires, ok_bind, hforbids, ok_bind, hadds, ok_bind, hdeletes,
    ok_bind, hstatic, ok_bind, Symbol.ofData?_toData]
  exact toAction?_toDraft ha

end Action

/-! ## States -/

/-- **Two lists in the order of the codes with the same members are the same.** -/
theorem OrderedBy.eq_of_mem_iff {α : Type} {code : α → List Nat} {items others : List α}
    (h : OrderedBy code items) (h' : OrderedBy code others) (hmem : ∀ a, a ∈ items ↔ a ∈ others) :
    items = others := by
  have hnodup : ∀ l : List α, OrderedBy code l → l.Nodup := by
    intro l hl
    refine hl.imp fun {a b} hlt heq => ?_
    subst heq
    exact List.lt_irrefl _ hlt
  have hperm : items.Perm others :=
    (List.perm_ext_iff_of_nodup (hnodup items h) (hnodup others h')).mpr hmem
  refine hperm.eq_of_pairwise ?_ h h'
  intro a b _ _ hab hba
  exact absurd (List.lt_trans hab hba) (List.lt_irrefl _)

namespace State

variable {s : State}

/-- The set of the facts of a state, in whatever order they come, is the state. -/
theorem ofTerms_eq (hs : s.Proper) {facts : List Atom} (hmem : ∀ f, f ∈ facts ↔ f ∈ s.facts) :
    ofTerms (facts.map Atom.toTerm) = s := by
  have hproper : ∀ f ∈ facts, f.isProper := fun f hf => (hs.closed f ((hmem f).mp hf)).1
  have hothers : (facts.map Atom.toTerm).filter (·.atom?.isNone) = [] := by
    refine List.filter_eq_nil_iff.mpr ?_
    intro t ht
    obtain ⟨f, -, rfl⟩ := List.mem_map.mp ht
    exact Bool.false_ne_true
  refine eq_of_facts_eq ?_ ?_
  · change sortBy Atom.code ((facts.map Atom.toTerm).filterMap Term.atom?) = s.facts
    rw [filterMap_atom?]
    refine (sortBy_ordered Atom.code facts).eq_of_mem_iff s.facts_ordered ?_
    intro f
    rw [mem_sortBy hproper, hmem]
  · change sortBy Term.code ((facts.map Atom.toTerm).filter (·.atom?.isNone)) = s.others
    rw [hothers, hs.others]
    rfl

/-- The entries of a proper state are its facts. -/
theorem exists_entries_eq (hs : s.Proper) (e : Enumeration) :
    ∃ facts : List Atom, facts.map Atom.toTerm = e.entries s ∧ ∀ f, f ∈ facts ↔ f ∈ s.facts := by
  have hrange : e.entries s ∈ Set.range (List.map Atom.toTerm) := by
    rw [Set.range_list_map]
    intro t ht
    obtain ⟨f, -, hf⟩ := hs.mem_entries.mp ht
    exact ⟨f, hf⟩
  obtain ⟨facts, hfacts⟩ := hrange
  refine ⟨facts, hfacts, fun f => ?_⟩
  rw [← List.mem_map_of_injective Atom.toTerm_injective, hfacts, hs.mem_entries]
  constructor
  · rintro ⟨g, hg, heq⟩
    exact Atom.toTerm_injective heq ▸ hg
  · exact fun hf => ⟨f, hf, rfl⟩

/-- **A proper state is written, and read back,** in whatever order its facts are met. -/
theorem Proper.exists_stateData (hs : s.Proper) (e : Enumeration) :
    ∃ document, e.stateData s = .ok document ∧ ofData? document = .ok s := by
  obtain ⟨facts, hentries, hmem⟩ := exists_entries_eq hs e
  have hproper : ∀ f ∈ facts, f.isProper := fun f hf => (hs.closed f ((hmem f).mp hf)).1
  refine ⟨.arr (facts.map Atom.toData), ?_, ?_⟩
  · refine bind_eq_ok.mpr ⟨e.entries s, hs.entries?_eq e,
      bind_eq_ok.mpr ⟨facts.map Atom.toData, ?_, rfl⟩⟩
    rw [← hentries, mapM_eq_ok, List.forall₂_map_left_iff, List.forall₂_map_right_iff]
    exact List.forall₂_same.mpr fun f _ => rfl
  · have hread : (facts.map Atom.toData).mapM (fun item => do
        let t ← Term.ofData? item
        if t.isIndexable then return t else throw Error.wrongType) =
            .ok (facts.map Atom.toTerm) := by
      refine mapM_eq_ok.mpr ?_
      rw [List.forall₂_map_left_iff, List.forall₂_map_right_iff]
      refine List.forall₂_same.mpr fun f hf => ?_
      rw [Atom.toData, Term.ofData?_toData (hproper f hf), ok_bind,
        if_pos (Term.isIndexable_of_isProper (hproper f hf))]
      rfl
    have hitems : (Json.arr (facts.map Atom.toData)).requireItems = .ok (facts.map Atom.toData) :=
      rfl
    rw [ofData?, hitems, ok_bind, hread, ok_bind]
    exact congrArg Except.ok (ofTerms_eq hs hmem)

end State

end HornPlan
