import HornPlan.Term

/-!
# Codes

A code writes a term as a list of numbers, so that terms can be put in order and looked up.

A code ends by itself: where it stands at the start of a longer list, the list says where it ends.
Terms are equal exactly when their codes are the same.
-/

namespace HornPlan

/-! ## Codes of symbols -/

/-- A symbol as a tag for its kind and its name or value. -/
def Symbol.code : Symbol → List Nat
  | text name _ => 0 :: textCode name
  | value v _ _ => 1 :: enclose v.code

/-- What stands in the place of a term as a tag for its kind and its value. -/
def Foreign.code : Foreign → List Nat
  | listed first rest => 0 :: enclose (listName first rest).code
  | value v => 1 :: enclose v.code

theorem Symbol.code_append_inj {f g : Symbol} {v w : List Nat}
    (h : f.code ++ v = g.code ++ w) : f == g ∧ v = w := by
  cases f <;> cases g <;> try cases (List.cons.inj h).1
  case text.text s _ t _ =>
    obtain ⟨hname, hvw⟩ := textCode_append_inj (List.cons.inj h).2
    exact ⟨beq_of_eq (α := String) hname, hvw⟩
  case value.value v _ _ w _ _ =>
    obtain ⟨hcode, hvw⟩ := enclose_append_inj (List.cons.inj h).2
    exact ⟨beq_of_eq (α := List Nat) hcode, hvw⟩

theorem Symbol.code_eq_of_beq {f g : Symbol} (h : f == g) : f.code = g.code := by
  cases f <;> cases g
  case text.text s _ t _ => exact congrArg (fun name => 0 :: textCode name) (eq_of_beq h)
  case value.value v _ _ w _ _ => exact congrArg (fun code => 1 :: enclose code) (eq_of_beq h)
  case text.value => cases h
  case value.text => cases h

theorem Foreign.code_append_inj {f g : Foreign} {v w : List Nat}
    (h : f.code ++ v = g.code ++ w) : f == g ∧ v = w := by
  cases f <;> cases g <;> try cases (List.cons.inj h).1
  all_goals
    obtain ⟨hcode, hvw⟩ := enclose_append_inj (List.cons.inj h).2
    exact ⟨beq_of_eq (α := List Nat) hcode, hvw⟩

theorem Foreign.code_eq_of_beq {f g : Foreign} (h : f == g) : f.code = g.code := by
  cases f <;> cases g
  case listed.listed => exact congrArg (fun code => 0 :: enclose code) (eq_of_beq h)
  case value.value => exact congrArg (fun code => 1 :: enclose code) (eq_of_beq h)
  case listed.value => cases h
  case value.listed => cases h

/-! ## Codes of terms -/

mutual
/-- A term as a list of numbers: a tag for its kind, then its name, then its arguments and their
number. -/
def Term.code : Term → List Nat
  | .var x => 0 :: textCode x.name
  | .const c => 1 :: textCode c.name
  | .app f args => 2 :: f.code ++ args.length :: Term.codeList args
  | .foreign f => 3 :: f.code
def Term.codeList : List Term → List Nat
  | [] => []
  | t :: ts => Term.code t ++ Term.codeList ts
end

theorem Term.app_same {f g : Symbol} {ts us : List Term} (hfg : f == g) (h : Term.sameList ts us) :
    (Term.app f ts).same (.app g us) :=
  Bool.and_eq_true_iff.2 ⟨hfg, h⟩

mutual
theorem Term.code_append_inj : (t u : Term) → {v w : List Nat} →
    t.code ++ v = u.code ++ w → t.same u ∧ v = w
  | .var x, .var y, v, w, h => by
    obtain ⟨hname, hvw⟩ := textCode_append_inj (List.cons.inj h).2
    cases x; cases y; cases hname
    exact ⟨decide_eq_true rfl, hvw⟩
  | .const c, .const d, v, w, h => by
    obtain ⟨hname, hvw⟩ := textCode_append_inj (List.cons.inj h).2
    cases c; cases d; cases hname
    exact ⟨decide_eq_true rfl, hvw⟩
  | .app f ts, .app g us, v, w, h => by
    rw [Term.code, Term.code, List.cons_append, List.cons_append, List.cons_append,
      List.cons_append, List.append_assoc, List.append_assoc] at h
    obtain ⟨hfg, hrest⟩ := Symbol.code_append_inj (List.cons.inj h).2
    -- the number of arguments stands before their codes, so that both lists of codes end at one
    -- place
    obtain ⟨hlength, hargs⟩ := List.cons.inj hrest
    obtain ⟨hsame, hvw⟩ := Term.codeList_append_inj ts us hlength hargs
    exact ⟨Term.app_same hfg hsame, hvw⟩
  | .foreign f, .foreign g, v, w, h => Foreign.code_append_inj (List.cons.inj h).2
  -- terms of different kinds have codes that start differently
  | .var _, .const _, _, _, h => by cases (List.cons.inj h).1
  | .var _, .app _ _, _, _, h => by cases (List.cons.inj h).1
  | .var _, .foreign _, _, _, h => by cases (List.cons.inj h).1
  | .const _, .var _, _, _, h => by cases (List.cons.inj h).1
  | .const _, .app _ _, _, _, h => by cases (List.cons.inj h).1
  | .const _, .foreign _, _, _, h => by cases (List.cons.inj h).1
  | .app _ _, .var _, _, _, h => by cases (List.cons.inj h).1
  | .app _ _, .const _, _, _, h => by cases (List.cons.inj h).1
  | .app _ _, .foreign _, _, _, h => by cases (List.cons.inj h).1
  | .foreign _, .var _, _, _, h => by cases (List.cons.inj h).1
  | .foreign _, .const _, _, _, h => by cases (List.cons.inj h).1
  | .foreign _, .app _ _, _, _, h => by cases (List.cons.inj h).1
theorem Term.codeList_append_inj : (ts us : List Term) → {v w : List Nat} →
    ts.length = us.length → Term.codeList ts ++ v = Term.codeList us ++ w →
      Term.sameList ts us ∧ v = w
  | [], [], _, _, _, h => ⟨rfl, h⟩
  | t :: ts, u :: us, v, w, hlength, h => by
    rw [Term.codeList, Term.codeList, List.append_assoc, List.append_assoc] at h
    obtain ⟨hsame, hrest⟩ := Term.code_append_inj t u h
    obtain ⟨hothers, hvw⟩ := Term.codeList_append_inj ts us (Nat.succ.inj hlength) hrest
    exact ⟨Bool.and_eq_true_iff.2 ⟨hsame, hothers⟩, hvw⟩
  | [], _ :: _, _, _, hlength, _ => nomatch hlength
  | _ :: _, [], _, _, hlength, _ => nomatch hlength
end

mutual
theorem Term.code_eq_of_same : (t u : Term) → t.same u → t.code = u.code
  | .var _, .var _, h => congrArg (fun x : Variable => 0 :: textCode x.name) (eq_of_beq h)
  | .const _, .const _, h => congrArg (fun c : Constant => 1 :: textCode c.name) (eq_of_beq h)
  | .app f ts, .app g us, h => by
    obtain ⟨hfg, hsame⟩ := Bool.and_eq_true_iff.1 h
    obtain ⟨hlength, hcodes⟩ := Term.codeList_eq_of_same ts us hsame
    rw [Term.code, Term.code, Symbol.code_eq_of_beq hfg, hlength, hcodes]
  | .foreign _, .foreign _, h => congrArg (3 :: ·) (Foreign.code_eq_of_beq h)
  | .var _, .const _, h => nomatch h
  | .var _, .app _ _, h => nomatch h
  | .var _, .foreign _, h => nomatch h
  | .const _, .var _, h => nomatch h
  | .const _, .app _ _, h => nomatch h
  | .const _, .foreign _, h => nomatch h
  | .app _ _, .var _, h => nomatch h
  | .app _ _, .const _, h => nomatch h
  | .app _ _, .foreign _, h => nomatch h
  | .foreign _, .var _, h => nomatch h
  | .foreign _, .const _, h => nomatch h
  | .foreign _, .app _ _, h => nomatch h
theorem Term.codeList_eq_of_same : (ts us : List Term) → Term.sameList ts us →
    ts.length = us.length ∧ Term.codeList ts = Term.codeList us
  | [], [], _ => ⟨rfl, rfl⟩
  | t :: ts, u :: us, h => by
    obtain ⟨hsame, hothers⟩ := Bool.and_eq_true_iff.1 h
    obtain ⟨hlength, hcodes⟩ := Term.codeList_eq_of_same ts us hothers
    exact ⟨congrArg (· + 1) hlength, by
      rw [Term.codeList, Term.codeList, Term.code_eq_of_same t u hsame, hcodes]⟩
  | [], _ :: _, h => nomatch h
  | _ :: _, [], h => nomatch h
end

theorem Term.beq_iff_code_eq {t u : Term} : t == u ↔ t.code = u.code :=
  ⟨Term.code_eq_of_same t u, fun h => (Term.code_append_inj t u (congrArg (· ++ []) h)).1⟩

/-- An atom as a list of numbers. -/
def Atom.code (a : Atom) : List Nat :=
  a.toTerm.code

theorem Atom.beq_eq_toTerm (a b : Atom) : (a == b) = (a.toTerm == b.toTerm) :=
  congrArg (a.predicate == b.predicate && ·) (Term.sameList_eq_beq a.args b.args).symm

theorem Atom.beq_iff_code_eq {a b : Atom} : a == b ↔ a.code = b.code := by
  rw [Atom.beq_eq_toTerm]
  exact Term.beq_iff_code_eq

/-- A simple term as a list of numbers. -/
def SimpleTerm.code (t : SimpleTerm) : List Nat :=
  t.toTerm.code

/-! ## Equality -/

instance : EquivBEq Term where
  rfl := Term.beq_iff_code_eq.2 rfl
  symm h := Term.beq_iff_code_eq.2 (Term.beq_iff_code_eq.1 h).symm
  trans h k := Term.beq_iff_code_eq.2 ((Term.beq_iff_code_eq.1 h).trans (Term.beq_iff_code_eq.1 k))

instance : EquivBEq Atom where
  rfl := Atom.beq_iff_code_eq.2 rfl
  symm h := Atom.beq_iff_code_eq.2 (Atom.beq_iff_code_eq.1 h).symm
  trans h k := Atom.beq_iff_code_eq.2 ((Atom.beq_iff_code_eq.1 h).trans (Atom.beq_iff_code_eq.1 k))

end HornPlan
