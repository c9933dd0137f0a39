import HornPlan.Code
import HornPlan.TermData
import Std.Data.TreeSet

/-!
# States

A state is a finite set of facts; whatever it does not hold is false.  The facts are kept in the
order of their codes, each once, so that two states with the same facts are equal.  Of equal facts a
state keeps the one that came first.

A state carries a number made from all that it holds.  Where the numbers of two states differ so do
the states, and most comparisons end there.

A state that a caller makes up may also hold what is no atom: variables, constants and bare values.
No action touches them, but the facts of such a state cannot be listed by predicate.

What a person sees, and what the planner enumerates, is the listing of a state: its facts in the
order of their texts.  Facts that have one text are listed as they are met, and in which order the
facts of a set are met is not up to the set: an `Enumeration` says so for all states.
-/

namespace HornPlan

/-! ## Listings -/

/-- Puts an item before the first of a list whose text is not smaller. -/
def insertByText {α : Type} (text : α → String) (a : α) : List α → List α
  | [] => [a]
  | b :: items => if text a ≤ text b then a :: b :: items else b :: insertByText text a items

/-- Items in the order of their texts; items with one text stay in the order in which they come.
The texts are made once. -/
def sortedByText {α : Type} (text : α → String) (items : List α) : List α :=
  ((items.map fun item => (text item, item)).foldr (insertByText Prod.fst) []).map Prod.snd

/-- Facts in the order of their texts. -/
def sortedFacts (facts : List Atom) : List Atom :=
  sortedByText Atom.text facts

/-! ## Lists ordered by code -/

section Coded

variable {α : Type} (code : α → List Nat)

/-- The items of a list follow each other in the order of their codes, each once. -/
def OrderedBy (items : List α) : Prop :=
  items.Pairwise fun a b => code a < code b

/-- Puts `a` where its code belongs in a list, which `rest` goes on with from there.  An item of the
list with the same code stays in its place. -/
def mergeStep (a : α) (rest : List α → List α) : List α → List α
  | [] => a :: rest []
  | b :: items =>
    if code a < code b then a :: rest (b :: items)
    else if code b < code a then b :: mergeStep a rest items
    else b :: rest items

/-- Items in the order of their codes, of items with one code the first. -/
def sortBy (items : List α) : List α :=
  (items.foldl (fun met item => met.insert item) (∅ : Std.TreeSet α (compareOn code))).toList

/-- Merges two lists ordered by code; of two items with one code that of the second list is kept. -/
def mergeBy : List α → List α → List α
  | [], items => items
  | a :: added, items => mergeStep code a (mergeBy added) items

theorem lt_of_compare_eq_lt {c d : List Nat} (h : compare c d = .lt) : c < d := by
  induction c generalizing d with
  | nil =>
    cases d with
    | nil => cases h
    | cons m d => exact List.nil_lt_cons ..
  | cons n c ih =>
    cases d with
    | nil => cases h
    | cons m d =>
      rw [List.compare_cons_cons, Ordering.then_eq_lt, Nat.compare_eq_lt, Nat.compare_eq_eq] at h
      refine List.cons_lt_cons_iff.2 (h.imp_right fun ⟨hnm, hcd⟩ => ⟨hnm, ih hcd⟩)

theorem sortBy_ordered (items : List α) : OrderedBy code (sortBy code items) := by
  have h : (sortBy code items).Pairwise fun a b => compareOn code a b = .lt :=
    Std.TreeSet.ordered_toList
  exact h.imp lt_of_compare_eq_lt

theorem mem_mergeBy {b : α} {added items : List α} (h : b ∈ mergeBy code added items) :
    b ∈ added ∨ b ∈ items := by
  induction added generalizing items with
  | nil => exact .inr h
  | cons a added ih =>
    unfold mergeBy at h
    induction items with
    | nil =>
      rcases List.mem_cons.1 h with rfl | h
      · exact .inl (List.mem_cons_self ..)
      · exact (ih h).imp_left (List.mem_cons_of_mem _)
    | cons c items ih' =>
      unfold mergeStep at h
      split at h
      · rcases List.mem_cons.1 h with rfl | h
        · exact .inl (List.mem_cons_self ..)
        · exact (ih h).imp_left (List.mem_cons_of_mem _)
      · split at h
        · rcases List.mem_cons.1 h with rfl | h
          · exact .inr (List.mem_cons_self ..)
          · exact (ih' h).imp_right (List.mem_cons_of_mem _)
        · rcases List.mem_cons.1 h with rfl | h
          · exact .inr (List.mem_cons_self ..)
          · exact (ih h).imp (List.mem_cons_of_mem _) (List.mem_cons_of_mem _)

theorem mergeBy_ordered {added items : List α} (hadded : OrderedBy code added)
    (hitems : OrderedBy code items) : OrderedBy code (mergeBy code added items) := by
  induction added generalizing items with
  | nil => exact hitems
  | cons a added ih =>
    obtain ⟨ha, hadded⟩ := List.pairwise_cons.1 hadded
    unfold mergeBy
    -- inner induction, as for the recursion: either list may give the next item
    induction items with
    | nil =>
      refine List.pairwise_cons.2 ⟨fun c hc => ?_, ih hadded hitems⟩
      exact ha c ((mem_mergeBy code hc).resolve_right List.not_mem_nil)
    | cons b items ih' =>
      obtain ⟨hb, hrest⟩ := List.pairwise_cons.1 hitems
      unfold mergeStep
      split
      · rename_i hab
        refine List.pairwise_cons.2 ⟨fun c hc => ?_, ih hadded hitems⟩
        rcases mem_mergeBy code hc with hc | hc
        · exact ha c hc
        · rcases List.mem_cons.1 hc with rfl | hc
          · exact hab
          · exact List.lt_trans hab (hb c hc)
      · rename_i hab
        split
        · rename_i hba
          refine List.pairwise_cons.2 ⟨fun c hc => ?_, ih' hrest⟩
          have hc : c ∈ mergeBy code (a :: added) items := hc
          rcases mem_mergeBy code hc with hc | hc
          · rcases List.mem_cons.1 hc with rfl | hc
            · exact hba
            · exact List.lt_trans hba (ha c hc)
          · exact hb c hc
        · rename_i hba
          -- of two items with one code the one that was there stays
          have hsame : code a = code b := List.le_antisymm hba hab
          refine List.pairwise_cons.2 ⟨fun c hc => ?_, ih hadded hrest⟩
          rcases mem_mergeBy code hc with hc | hc
          · exact hsame ▸ ha c hc
          · exact hb c hc

end Coded

/-! ## Fingerprints -/

/-- Mixes a number into a fingerprint. -/
def mix (fingerprint n : Nat) : Nat :=
  (fingerprint * 1000003 + n + 1) % 2147483647

/-- Mixes a text into a fingerprint. -/
def mixText (fingerprint : Nat) (text : String) : Nat :=
  text.toList.foldl (fun fingerprint c => mix fingerprint c.toNat) (mix fingerprint text.length)

/-- Mixes a symbol into a fingerprint. -/
def mixSymbol (fingerprint : Nat) : Symbol → Nat
  | .text name _ => mixText fingerprint name
  | .value v _ _ => v.code.foldl mix fingerprint

mutual
/-- Mixes a term into a fingerprint. -/
def mixTerm (fingerprint : Nat) : Term → Nat
  | .var x => mixText (mix fingerprint 0) x.name
  | .const c => mixText (mix fingerprint 1) c.name
  | .app f args => mixTerms (mixSymbol (mix fingerprint 2) f) args
  | .foreign f => f.code.foldl mix fingerprint
def mixTerms (fingerprint : Nat) : List Term → Nat
  | [] => mix fingerprint 3
  | t :: ts => mixTerms (mixTerm fingerprint t) ts
end

/-- A number made from facts and other terms. -/
def fingerprintOf (facts : List Atom) (others : List Term) : Nat :=
  others.foldl mixTerm (facts.foldl (fun fingerprint f => mixTerm fingerprint f.toTerm) 0)

/-! ## States -/

/-- A finite set of facts, and of the terms that stand among them and are no atoms. -/
structure State where
  fingerprint : Nat
  facts : List Atom
  others : List Term
  facts_ordered : OrderedBy Atom.code facts
  others_ordered : OrderedBy Term.code others
  fingerprint_eq : fingerprint = fingerprintOf facts others

namespace State

-- the fingerprint is the first to be compared
instance : BEq State :=
  ⟨fun s t => s.fingerprint == t.fingerprint && s.facts == t.facts && s.others == t.others⟩

/-- The state of two ordered lists. -/
def ofOrdered (facts : List Atom) (others : List Term) (hfacts : OrderedBy Atom.code facts)
    (hothers : OrderedBy Term.code others) : State :=
  ⟨fingerprintOf facts others, facts, others, hfacts, hothers, rfl⟩

theorem eq_of_facts_eq {s t : State} (hfacts : s.facts = t.facts) (hothers : s.others = t.others) :
    s = t := by
  obtain ⟨_, _, _, _, _, rfl⟩ := s
  obtain ⟨_, _, _, _, _, rfl⟩ := t
  cases hfacts
  cases hothers
  rfl

/-- No facts. -/
def empty : State :=
  ofOrdered [] [] List.Pairwise.nil List.Pairwise.nil

/-- Adds facts; a fact that is there stays as it is. -/
def insertAll (s : State) (facts : List Atom) : State :=
  ofOrdered (mergeBy Atom.code (sortBy Atom.code facts) s.facts) s.others
    (mergeBy_ordered Atom.code (sortBy_ordered Atom.code facts) s.facts_ordered) s.others_ordered

/-- Takes facts away. -/
def removeAll (s : State) (facts : List Atom) : State :=
  ofOrdered (s.facts.filter fun f => !facts.contains f) s.others (s.facts_ordered.filter _)
    s.others_ordered

/-- The set of the facts in a list. -/
def ofList (facts : List Atom) : State :=
  empty.insertAll facts

/-- A fact is in a state. -/
def holdsFact (s : State) (f : Atom) : Bool :=
  s.facts.contains f

/-- The set of the terms in a list; the atoms among them are its facts. -/
def ofTerms (terms : List Term) : State :=
  ofOrdered (sortBy Atom.code (terms.filterMap Term.atom?))
    (sortBy Term.code (terms.filter (·.atom?.isNone)))
    (sortBy_ordered Atom.code _) (sortBy_ordered Term.code _)

/-- Whether a term is in a state. -/
def containsTerm (s : State) (t : Term) : Bool :=
  match t.atom? with
  | some f => s.holdsFact f
  | none => s.others.contains t

/-- Looks a term up in a state. -/
def lookUp (s : State) (t : Term) : Except Error Bool :=
  if t.isIndexable then .ok (s.containsTerm t) else .error .wrongType

/-- All that a state holds can be printed. -/
def isPrintable (s : State) : Bool :=
  s.facts.all Atom.isPrintable && s.others.all Term.isPrintable

/-- The facts can be listed by their predicates: they can be printed, and nothing but atoms stands
among them. -/
def requireListing (s : State) : Except Error Unit :=
  if !s.isPrintable then .error .wrongType
  else if s.others.isEmpty then .ok ()
  else .error .unsupported

/-- The number of things a state holds. -/
def size (s : State) : Nat :=
  s.facts.length + s.others.length

end State

/-! ## Going through states -/

/-- The facts of every state, each once, in the order in which they are met.  A set has no order of
its own, and whoever goes through one twice may meet its facts in two orders. -/
structure Enumeration where
  facts : State → List Atom
  perm (s : State) : (facts s).Perm s.facts

namespace Enumeration

/-- The facts in the order of their codes, which is how states keep them. -/
def byCode : Enumeration :=
  ⟨State.facts, fun s => .refl s.facts⟩

/-- The facts in the opposite order. -/
def reversed (e : Enumeration) : Enumeration :=
  ⟨fun s => (e.facts s).reverse, fun s => (List.reverse_perm _).trans (e.perm s)⟩

variable (e : Enumeration)

/-- The facts of a state in the order of their texts; facts with one text stay in the order in which
they are met. -/
def listing (s : State) : List Atom :=
  sortedFacts (e.facts s)

/-- All that a state holds, in the order of the texts. -/
def entries (s : State) : List Term :=
  sortedByText Term.text (s.others ++ (e.facts s).map Atom.toTerm)

/-- The facts in the order of their texts, where each of them can be found by its predicate. -/
def factsByPredicate (s : State) : Except Error (List Atom) := do
  s.requireListing
  return e.listing s

/-- All that a state holds, in the order of the texts, where it can be printed. -/
def entries? (s : State) : Except Error (List Term) :=
  if s.isPrintable then .ok (e.entries s) else .error .wrongType

/-- A state as a JSON document.  A bare value has no form there. -/
def stateData (s : State) : Except Error Json := do
  let entries ← e.entries? s
  return .arr (← entries.mapM fun t =>
    match t with
    | .foreign (.value _) => throw .unsupported
    | t => pure t.toData)

end Enumeration

namespace State

/-- `Enumeration.factsByPredicate` with the facts in the order of their codes. -/
def factsByPredicate (s : State) : Except Error (List Atom) :=
  Enumeration.byCode.factsByPredicate s

/-- `Enumeration.entries?` with the facts in the order of their codes. -/
def entries? (s : State) : Except Error (List Term) :=
  Enumeration.byCode.entries? s

/-- Reads a state; every term has to be one that can be looked up. -/
def ofData? (document : Json) : Except Error State := do
  let terms ← (← document.requireItems).mapM fun item => do
    let t ← Term.ofData? item
    if t.isIndexable then return t else throw .wrongType
  return ofTerms terms

end State

end HornPlan
