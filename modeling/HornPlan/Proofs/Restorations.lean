import HornPlan.Proofs.Caching
import HornPlan.Proofs.Documents

/-!
# Knowledge bases are read back

A knowledge base is written as the list of its clauses, and reading the list tells the clauses one
after the other to a new knowledge base.  Two things could go wrong on the way, and neither does:

* A clause is written as the documents of its atoms.  It comes back as it was when it is *built*,
  that is when no bare value stands in the place of a term (`clauseOfData?_clauseData`).  What has
  been told is (`Call.isBuilt`), and neither retracting nor asking brings in another clause
  (`Built.perform`).
* A clause that is read is checked once more.  It passes, since it was checked when it was told
  (`Coherent`).

So whatever has been called before, the knowledge base that is read has the same clauses in the same
order, and answers in the same way (`performAll_reads_back`).
-/

namespace HornPlan

/-! ## Clauses -/

namespace Clause

/-- No bare value stands in the place of a term. -/
def isBuilt (c : Clause) : Bool :=
  c.antecedents.all (fun a => a.toTerm.isBuilt) && c.consequent.toTerm.isBuilt

theorem isBuilt_iff {c : Clause} :
    c.isBuilt ↔ (∀ a ∈ c.antecedents, a.toTerm.isBuilt) ∧ c.consequent.toTerm.isBuilt := by
  simp [isBuilt]

theorem ofParts?_toTerm (c : Clause) :
    ofParts? (c.antecedents.map Atom.toTerm) c.consequent.toTerm = .ok c := by
  have hparts : (c.antecedents.map Atom.toTerm).mapM Term.asClausePart = .ok c.antecedents := by
    rw [mapM_eq_ok, List.forall₂_map_left_iff, List.forall₂_same]
    exact fun a _ => rfl
  have hhead : c.consequent.toTerm.asClausePart = .ok c.consequent := rfl
  rw [ofParts?, hhead, ok_bind, hparts]
  rfl

end Clause

/-! ## Calls -/

/-- A statement of which the terms are built. -/
def Statement.isBuilt : Statement → Bool
  | .inl c => c.isBuilt
  | .inr t => t.isBuilt

theorem Statement.isBuilt_clause {statement : Statement} (h : statement.isBuilt) {c : Clause}
    (hc : statement.clause? = .ok c) : c.isBuilt := by
  cases statement with
  | inl d =>
      obtain rfl := Except.ok.inj hc
      exact h
  | inr t =>
      cases t with
      | app f args =>
          obtain rfl := Except.ok.inj hc
          exact Clause.isBuilt_iff.mpr ⟨fun _ ha => absurd ha List.not_mem_nil, h⟩
      | _ => cases hc

namespace KnowledgeBase

variable {kb next : KnowledgeBase}

/-- What a call tells is built. -/
def Call.isBuilt : Call → Bool
  | .tell statement => statement.isBuilt
  | _ => true

/-- All clauses are built. -/
def Built (kb : KnowledgeBase) : Prop :=
  ∀ c ∈ kb.clauses, c.isBuilt

theorem built_empty : empty.Built :=
  fun _ h => absurd h List.not_mem_nil

theorem Built.tell (h : kb.Built) {c : Clause} (hc : c.isBuilt) (htell : kb.tell c = .ok next) :
    next.Built := by
  intro d hd
  rw [clauses_of_tell htell, List.mem_append, List.mem_singleton] at hd
  rcases hd with hd | rfl
  · exact h d hd
  · exact hc

theorem Built.retract (h : kb.Built) (c : Clause) : (kb.retract c).2.Built := by
  unfold KnowledgeBase.retract
  split
  · exact fun d hd => h d (List.mem_of_mem_erase hd)
  · exact h

theorem Built.filled (h : kb.Built) (hnext : Filled kb next) : next.Built := by
  rcases hnext with rfl | ⟨facts, -, rfl⟩
  · exact h
  · exact h

theorem Built.outcome (h : kb.Built) {call : Call} (hcall : call.isBuilt)
    (hnext : kb.outcome call = .ok next) :
    next.Built := by
  rcases outcome_cases hnext with ⟨statement, c, rfl, hc, htell⟩ | ⟨c, rfl⟩ | hfilled
  · exact h.tell (Statement.isBuilt_clause hcall hc) htell
  · exact h.retract c
  · exact h.filled hfilled

theorem Built.perform (h : kb.Built) {call : Call} (hcall : call.isBuilt) :
    (kb.perform call).Built := by
  unfold KnowledgeBase.perform
  split
  · rename_i hnext
    exact h.outcome hcall hnext
  · exact h

theorem built_performAll {calls : List Call} (hcalls : ∀ call ∈ calls, call.isBuilt) :
    (performAll calls).Built :=
  List.foldlRecOn calls KnowledgeBase.perform built_empty
    fun _ hkb call hcall => Built.perform hkb (hcalls call hcall)

/-! ## Reading -/

theorem clauseOfData?_clauseData {c : Clause} (hc : c.isBuilt) :
    clauseOfData? (clauseData c) = .ok c := by
  obtain ⟨hantecedents, hconsequent⟩ := Clause.isBuilt_iff.mp hc
  have hbody :
      Term.ofDataList? (c.antecedents.map Atom.toData) = .ok (c.antecedents.map Atom.toTerm) :=
    Atom.ofDataList?_of_isBuilt hantecedents
  have hhead : Term.ofData? c.consequent.toData = .ok c.consequent.toTerm :=
    Term.ofData?_of_isBuilt hconsequent
  change (do
    let consequent ← Term.ofData? c.consequent.toData
    let antecedents ← Term.ofDataList? (c.antecedents.map Atom.toData)
    Clause.ofParts? antecedents consequent) = _
  rw [hhead, ok_bind, hbody, ok_bind, Clause.ofParts?_toTerm]

theorem foldlM_clauseData {clauses : List Clause} (hclauses : ∀ c ∈ clauses, c.isBuilt) :
    (clauses.map clauseData).foldlM (fun kb item => do kb.tell (← clauseOfData? item)) kb
      = clauses.foldlM tell kb := by
  induction clauses generalizing kb with
  | nil => rfl
  | cons c clauses ih =>
      obtain ⟨hc, hrest⟩ := List.forall_mem_cons.mp hclauses
      rw [List.map_cons, List.foldlM_cons, List.foldlM_cons, clauseOfData?_clauseData hc, ok_bind]
      exact bind_congr fun told => ih hrest

theorem Built.ofData?_toData (h : kb.Built) : ofData? kb.toData = ofClauses kb.clauses :=
  foldlM_clauseData h

/-- **What is written is read back.**  After any sequence of calls, of which those that tell
something tell built terms, the document of a knowledge base is read without an error.  What is read
has the same clauses in the same order, hence the same closure, and gives the same answers. -/
theorem performAll_reads_back {calls : List Call} (hcalls : ∀ call ∈ calls, call.isBuilt) :
    ∃ restored, ofData? (performAll calls).toData = .ok restored ∧
    AnswersAs (performAll calls) restored := by
  have hcoherent := coherent_performAll calls
  obtain ⟨restored, hrestored, hclauses, hnew⟩ := hcoherent.exists_ofClauses
  refine ⟨restored, ?_, hcoherent.answersAs hclauses hnew⟩
  rw [(built_performAll hcalls).ofData?_toData, hrestored]

/-- The roads, a ferry to a place that is a compound term, and a fact without arguments that is told
twice.  One of the first roads is retracted, and the closure is asked for. -/
def gazetteer : List Call :=
  let snow : Atom := ⟨.text "Snow" (by decide), []⟩
  let pass : Term := .app (.text "Pass" (by decide))
    [.const ⟨"North", by decide, by decide⟩, .app (.text "Coast" (by decide)) []]
  let ferry : Atom := ⟨.text "Ferry" (by decide), [.const ⟨"Harbour", by decide, by decide⟩, pass]⟩
  roads.map (fun c => .tell (.inl c)) ++ [.tell (.inr ferry.toTerm), .tell (.inr snow.toTerm),
    .tell (.inl (.ofAtom snow))] ++ (roads.take 1).map (fun c => .retract (.inl c)) ++ [.closure]

/-- Five of the clauses are left to be written. -/
theorem performAll_reads_back_gazetteer : (∀ call ∈ gazetteer, call.isBuilt) ∧
    (performAll gazetteer).clauses.length = 5 ∧ (performAll gazetteer).cached.isSome ∧
    ∃ restored, ofData? (performAll gazetteer).toData = .ok restored ∧
      AnswersAs (performAll gazetteer) restored := by
  have hcalls : ∀ call ∈ gazetteer, call.isBuilt := by decide
  exact ⟨hcalls, by decide +kernel, by decide +kernel, performAll_reads_back hcalls⟩

end KnowledgeBase

end HornPlan
