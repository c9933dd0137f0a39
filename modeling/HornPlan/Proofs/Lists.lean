import HornPlan.Distinct
import Mathlib.Algebra.Group.Nat.Defs
import Mathlib.Data.List.Perm.Subperm
import Mathlib.Data.List.Nodup

/-!
# Lists as finite sets

Facts are compared by an equality that is that of values, and the lists of the program hold members
on which the two notions agree.  Over such a list `List.eraseDups` keeps the members and makes a
list without repetitions, in the usual sense of both.

A loop that adds a new member of a finite universe in every round ends after as many rounds as the
universe has members.  The universes counted here are made of `tuples` over a list.
-/

namespace HornPlan

section

variable {α : Type} [BEq α]

theorem mem_eraseDups_of_mem {a : α} : {as : List α} → (∀ b ∈ as, ∀ c, b == c → b = c) → a ∈ as →
    a ∈ as.eraseDups
  | [], _, h => h
  | b :: as, hlawful, h => by
      rw [List.eraseDups_cons, List.mem_cons]
      rcases List.mem_cons.mp h with rfl | h
      · exact Or.inl rfl
      · by_cases hab : a == b
        · exact Or.inl (hlawful a (List.mem_cons_of_mem _ h) b hab)
        · refine Or.inr (mem_eraseDups_of_mem (fun c hc => ?_)
        (List.mem_filter.mpr ⟨h, by simp [hab]⟩))
          exact hlawful c (List.mem_cons_of_mem _ (List.mem_filter.mp hc).1)
termination_by as => as.length
decreasing_by exact Nat.lt_succ_of_le (List.length_filter_le ..)

theorem mem_eraseDups_iff {as : List α} (hlawful : ∀ b ∈ as, ∀ c, b == c → b = c) {a : α} :
    a ∈ as.eraseDups ↔ a ∈ as :=
  ⟨mem_of_mem_eraseDups, mem_eraseDups_of_mem hlawful⟩

theorem eq_of_list_beq {as bs : List α} (hlawful : ∀ a ∈ as, ∀ b ∈ bs, a == b → a = b)
    (h : as == bs) : as = bs := by
  induction as generalizing bs with
  | nil =>
      cases bs with
      | nil => rfl
      | cons b bs => cases h
  | cons a as ih =>
      cases bs with
      | nil => cases h
      | cons b bs =>
          rw [List.cons_beq_cons, Bool.and_eq_true] at h
          have ha := hlawful a List.mem_cons_self b List.mem_cons_self h.1
          have hrest := ih (fun c hc d hd =>
            hlawful c (List.mem_cons_of_mem _ hc) d (List.mem_cons_of_mem _ hd)) h.2
          rw [ha, hrest]

theorem exists_of_lookup_eq_some {β : Type} {l : List (α × β)} {a : α} {b : β}
    (h : l.lookup a = some b) : ∃ entry ∈ l, a == entry.1 ∧ entry.2 = b := by
  induction l with
  | nil => cases h
  | cons entry rest ih =>
      rw [List.lookup_cons] at h
      split at h
      · rename_i heq
        exact ⟨entry, List.mem_cons_self, heq, Option.some.inj h⟩
      · obtain ⟨found, hfound, hresult⟩ := ih h
        exact ⟨found, List.mem_cons_of_mem _ hfound, hresult⟩

theorem nodup_eraseDups [EquivBEq α] (as : List α) : as.eraseDups.Nodup := by
  refine (distinct_eraseDups as).imp fun hab heq => ?_
  rw [heq, BEq.rfl] at hab
  cases hab

end

/-! ## Tuples -/

section

variable {α : Type}

/-- All lists of a given length with members from a list. -/
def tuples (as : List α) : (size : Nat) → List (List α)
  | 0 => [[]]
  | size + 1 => as.flatMap fun a => (tuples as size).map (a :: ·)

theorem length_tuples (as : List α) (size : Nat) : (tuples as size).length = as.length ^ size := by
  induction size with
  | zero => rfl
  | succ size ih =>
      rw [tuples, List.length_flatMap]
      simp [ih, Nat.pow_succ, Nat.mul_comm]

theorem mem_tuples {as bs : List α} (h : bs ⊆ as) : bs ∈ tuples as bs.length := by
  induction bs with
  | nil => exact List.mem_singleton_self []
  | cons b bs ih =>
      obtain ⟨hb, hbs⟩ := List.cons_subset.mp h
      exact List.mem_flatMap.mpr ⟨b, hb, List.mem_map.mpr ⟨bs, ih hbs, rfl⟩⟩

theorem length_le_of_nodup_of_subset {as bs : List α} (hnodup : as.Nodup) (h : as ⊆ bs) :
    as.length ≤ bs.length :=
  (hnodup.subperm h).length_le

end

end HornPlan
