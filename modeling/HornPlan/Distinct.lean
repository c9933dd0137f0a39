import Std.Data.TreeSet

/-!
# Lists without repetitions

A list has no repetitions when no two of its members are equal.  `List.eraseDups` keeps the first of
equal members.  The outcome has no repetitions, and a list without repetitions is left as it is.

For long lists `distinctBy` finds the repetitions by looking codes up in a tree.  Where members are
equal exactly when their codes are the same, the outcome is that of `List.eraseDups`.
-/

namespace HornPlan

section

variable {α : Type} [BEq α]

/-- No two members of a list are equal. -/
def Distinct (as : List α) : Prop :=
  as.Pairwise fun a b => (a == b) = false

theorem mem_of_mem_eraseDups {a : α} : {as : List α} → a ∈ as.eraseDups → a ∈ as
  | [], h => h
  | b :: as, h => by
    rw [List.eraseDups_cons] at h
    rcases List.mem_cons.1 h with rfl | h
    · exact List.mem_cons_self ..
    · exact List.mem_cons_of_mem _ (List.mem_filter.1 (mem_of_mem_eraseDups h)).1
termination_by as => as.length
decreasing_by exact Nat.lt_succ_of_le (List.length_filter_le ..)

theorem distinct_eraseDups [PartialEquivBEq α] : (as : List α) → Distinct as.eraseDups
  | [] => List.Pairwise.nil
  | a :: as => by
    rw [List.eraseDups_cons]
    refine List.pairwise_cons.2 ⟨fun b hb => ?_, distinct_eraseDups _⟩
    have hba : (!b == a) = true := (List.mem_filter.1 (mem_of_mem_eraseDups hb)).2
    rw [BEq.comm]
    exact Bool.not_inj hba
termination_by as => as.length
decreasing_by exact Nat.lt_succ_of_le (List.length_filter_le ..)

theorem eraseDups_eq_self [PartialEquivBEq α] {as : List α} (h : Distinct as) :
    as.eraseDups = as := by
  induction as with
  | nil => rfl
  | cons a as ih =>
    have ha := List.pairwise_cons.1 h
    have hsame : as.filter (fun b => !b == a) = as := by
      refine List.filter_eq_self.2 fun b hb => ?_
      rw [BEq.comm, ha.1 b hb]
      rfl
    rw [List.eraseDups_cons, hsame, ih ha.2]

end

/-! ## By codes -/

section

variable {α : Type} (code : α → List Nat)

/-- Keeps the members whose codes are not in `met`, and of members with one code the first. -/
def distinctFrom : (met : Std.TreeSet (List Nat)) → List α → List α
  | _, [] => []
  | met, a :: as =>
    if met.contains (code a) then distinctFrom met as
    else a :: distinctFrom (met.insert (code a)) as

/-- Keeps the first of members with one code. -/
def distinctBy (as : List α) : List α :=
  distinctFrom code ∅ as

/-- The codes of the members of a list. -/
def codesOf (as : List α) : Std.TreeSet (List Nat) :=
  .ofList (as.map code)

variable [BEq α]

theorem distinctFrom_eq_eraseDups (hcode : ∀ a b, a == b ↔ code a = code b)
    (met : Std.TreeSet (List Nat)) (as : List α) :
    distinctFrom code met as = (as.filter fun a => !met.contains (code a)).eraseDups := by
  induction as generalizing met with
  | nil => rfl
  | cons a as ih =>
    unfold distinctFrom
    split
    · rename_i hmet
      rw [ih, List.filter_cons_of_neg (by simp [hmet])]
    · rename_i hmet
      rw [List.filter_cons_of_pos (by rw [Bool.eq_false_iff.2 hmet]; rfl), List.eraseDups_cons, ih,
        List.filter_filter]
      congr 2
      refine List.filter_congr fun b _ => ?_
      have hsame : (compare (code a) (code b) == .eq) = (b == a) := by
        rw [Bool.eq_iff_iff, beq_iff_eq, Std.LawfulEqCmp.compare_eq_iff_eq, hcode]
        exact eq_comm
      rw [Std.TreeSet.contains_insert, hsame, Bool.not_or]

theorem distinctBy_eq_eraseDups (hcode : ∀ a b, a == b ↔ code a = code b) (as : List α) :
    distinctBy code as = as.eraseDups := by
  unfold distinctBy
  rw [distinctFrom_eq_eraseDups code hcode]
  congr 1
  refine List.filter_eq_self.2 fun a _ => ?_
  rw [Std.TreeSet.contains_emptyc]
  rfl

theorem contains_codesOf (hcode : ∀ a b, a == b ↔ code a = code b) (as : List α) (a : α) :
    (codesOf code as).contains (code a) = as.contains a := by
  unfold codesOf
  rw [Std.TreeSet.contains_ofList, Bool.eq_iff_iff, List.contains_iff_mem, List.mem_map,
    List.contains_eq_any_beq, List.any_eq_true]
  exact ⟨fun ⟨b, hb, hba⟩ => ⟨b, hb, (hcode a b).2 hba.symm⟩,
    fun ⟨b, hb, hab⟩ => ⟨b, hb, ((hcode a b).1 hab).symm⟩⟩

end

end HornPlan
