import HornPlan.Proofs.Terms

/-!
# Facts are told apart by their texts

The text of a term is its name, or its symbol with the texts of the arguments in parentheses and
commas between them.  Two terms may have one text: a constant and a symbol without arguments of the
same name, or terms in which a name has a comma or a parenthesis of its own.

A term is *plain* when nothing of the kind occurs in it: names and symbols are free of the three
characters that print an application, and a symbol that stands as an argument without any of its own
starts with a lowercase character, as no constant does.  Plain facts with one text are the same fact
(`Atom.eq_of_text_eq`).

For the proof the texts are read from the left with whatever comes after them: a name ends where one
of the three characters stands (`eq_of_name_append_eq`), and an argument ends before a comma or a
closing parenthesis, which is all that the induction over terms has to know of the rest (`Follows`).

What is put together from plain parts is plain: replacing the variables of a plain term by plain
terms, as rules and actions do (`Term.isPlain_bind`).
-/

namespace HornPlan

/-! ## Plain names -/

namespace Text

/-- The characters that print an application. -/
def isDelimiter (c : Char) : Bool :=
  c == '(' || c == ')' || c == ','

/-- A name without the characters that print an application. -/
def isPlain (name : String) : Bool :=
  name.toList.all fun c => !isDelimiter c

/-- A rest that starts with a delimiter, if with anything. -/
def IsDelimited : List Char → Prop
  | [] => True
  | c :: _ => isDelimiter c = true

theorem IsDelimited.takeWhile_eq {rest : List Char} (h : IsDelimited rest) :
    rest.takeWhile (fun c => !isDelimiter c) = [] := by
  cases rest with
  | nil => rfl
  | cons c rest =>
      have hc : isDelimiter c = true := h
      rw [List.takeWhile_cons, hc]
      rfl

/-- **A plain name ends where a delimiter stands.** -/
theorem eq_of_name_append_eq {a b : String} (ha : isPlain a) (hb : isPlain b)
    {rest rest' : List Char} (hrest : IsDelimited rest) (hrest' : IsDelimited rest')
    (h : a.toList ++ rest = b.toList ++ rest') :
    a = b ∧ rest = rest' := by
  have hread : ∀ (name : String) (tail : List Char), isPlain name → IsDelimited tail →
      (name.toList ++ tail).takeWhile (fun c => !isDelimiter c) = name.toList := by
    intro name tail hname htail
    rw [List.takeWhile_append_of_pos (List.all_eq_true.mp hname), htail.takeWhile_eq,
      List.append_nil]
  have hnames : a.toList = b.toList := by
    rw [← hread a rest ha hrest, h, hread b rest' hb hrest']
  rw [hnames] at h
  exact ⟨String.toList_inj.mp hnames, List.append_cancel_left h⟩

/-- What may stand behind an argument: nothing, a comma or a closing parenthesis. -/
def Follows : List Char → Prop
  | [] => True
  | c :: _ => c = ',' ∨ c = ')'

theorem follows_nil : Follows [] :=
  trivial

theorem Follows.isDelimited {rest : List Char} (h : Follows rest) : IsDelimited rest := by
  cases rest with
  | nil => trivial
  | cons c rest => rcases h with rfl | rfl <;> rfl

theorem Follows.ne_opening {rest tail : List Char} (h : Follows rest) : rest ≠ '(' :: tail := by
  rintro rfl
  rcases h with h | h <;> exact absurd h (by decide)

end Text

/-! ## Plain terms -/

theorem Symbol.eq_of_name_eq {f g : Symbol} (hf : f.isText) (hg : g.isText) (h : f.name = g.name) :
    f = g := by
  cases f with
  | value => cases hf
  | text =>
      cases g with
      | value => cases hg
      | text =>
          cases h
          rfl

namespace Term

mutual
/-- No name in a term has a delimiter, and symbols that stand alone look like no constant. -/
def isPlain : Term → Bool
  | var _ => true
  | const c => Text.isPlain c.name
  | app f args =>
      Text.isPlain f.name && (!args.isEmpty || Text.startsLowercase f.name) && arePlain args
  | foreign _ => false
def arePlain : List Term → Bool
  | [] => true
  | t :: ts => isPlain t && arePlain ts
end

theorem arePlain_iff {ts : List Term} : arePlain ts ↔ ∀ t ∈ ts, t.isPlain := by
  induction ts with
  | nil => simp [arePlain]
  | cons t ts ih => simp [arePlain, ih]

theorem isPlain_app {f : Symbol} {args : List Term} : (app f args).isPlain ↔
    Text.isPlain f.name ∧ (args = [] → Text.startsLowercase f.name) ∧ ∀ t ∈ args, t.isPlain := by
  cases args with
  | nil => simp [isPlain, arePlain]
  | cons t ts => simp [isPlain, arePlain, arePlain_iff]

theorem isPlain_of_mem_subterms {s t : Term} (ht : t.isPlain) (h : s ∈ t.subterms) : s.isPlain := by
  induction t using Term.inductionOnArgs with
  | app f args ih =>
      rcases mem_subterms_app.mp h with rfl | ⟨u, hu, hsu⟩
      · exact ht
      · exact ih u hu ((isPlain_app.mp ht).2.2 u hu) hsu
  | _ =>
      obtain rfl := List.mem_singleton.mp h
      exact ht

/-- Plain terms for the variables of a plain term make a plain term. -/
theorem isPlain_bind {f : Variable → Term} {t : Term} (ht : t.isPlain)
    (hf : ∀ x ∈ t.vars, (f x).isPlain) :
    (t.bind f).isPlain := by
  induction t using Term.inductionOnArgs with
  | var x => exact hf x (List.mem_singleton_self x)
  | app g args ih =>
      obtain ⟨hname, halone, hargs⟩ := isPlain_app.mp ht
      rw [bind_app, isPlain_app]
      refine ⟨hname, fun hnil => halone (List.map_eq_nil_iff.mp hnil), List.forall_mem_map.mpr ?_⟩
      intro u hu
      exact ih u hu (hargs u hu) fun x hx => hf x (mem_vars_app.mpr ⟨u, hu, hx⟩)
  | _ => exact ht

/-! ## Texts with something behind them -/

/-- The name of a term: its own, or its outermost symbol. -/
def name : Term → String
  | var x => x.name
  | const c => c.name
  | app f _ => f.name
  | foreign f => f.text

/-- The arguments of a term. -/
def args : Term → List Term
  | app _ args => args
  | _ => []

/-- The arguments behind the first one, up to the closing parenthesis. -/
def tailText (ts : List Term) : List Char :=
  ts.flatMap (fun t => ',' :: ' ' :: t.text.toList) ++ [')']

/-- The arguments in parentheses, or nothing where there are none. -/
def argsText : List Term → List Char
  | [] => []
  | t :: ts => '(' :: (t.text.toList ++ tailText ts)

theorem texts_eq_map (ts : List Term) : texts ts = ts.map text := by
  induction ts with
  | nil => rfl
  | cons t ts ih => rw [texts, ih, List.map_cons]

theorem toList_intercalate (t : Term) (ts : List Term) :
    (", ".intercalate (texts (t :: ts))).toList
      = t.text.toList ++ ts.flatMap fun u => ',' :: ' ' :: u.text.toList := by
  rw [texts_eq_map]
  induction ts generalizing t with
  | nil => simp
  | cons u ts ih =>
      rw [List.map_cons, List.map_cons, String.intercalate_cons_cons, String.toList_append,
        String.toList_append, ← List.map_cons, ih, List.flatMap_cons, List.append_assoc]
      rfl

/-- **The text of a term is its name and then its arguments.** -/
theorem toList_text (t : Term) : t.text.toList = t.name.toList ++ argsText t.args := by
  cases t with
  | app f args =>
      cases args with
      | nil => exact (List.append_nil _).symm
      | cons t ts =>
          have htexts : text t :: texts ts = texts (t :: ts) := rfl
          rw [text, htexts, String.toList_append, String.toList_append, String.toList_append,
            toList_intercalate]
          simp [name, args, argsText, tailText]
  | _ => exact (List.append_nil _).symm

theorem tailText_cons (t : Term) (ts : List Term) :
    tailText (t :: ts) = ',' :: ' ' :: (t.text.toList ++ tailText ts) := by
  simp [tailText]

theorem follows_tailText (ts : List Term) (rest : List Char) :
    Text.Follows (tailText ts ++ rest) := by
  cases ts with
  | nil => exact Or.inr rfl
  | cons t ts => exact Or.inl rfl

theorem isDelimited_argsText (ts : List Term) {rest : List Char} (h : Text.Follows rest) :
    Text.IsDelimited (argsText ts ++ rest) := by
  cases ts with
  | nil => exact h.isDelimited
  | cons t ts => rfl

/-! ## Terms with one text -/

/-- No other closed plain term has the text of a term, whatever comes behind the two. -/
def ToldApart (t : Term) : Prop :=
  ∀ {u : Term} {rest rest' : List Char}, u.Closed → u.isPlain → Text.Follows rest →
    Text.Follows rest' →
    t.text.toList ++ rest = u.text.toList ++ rest' → t = u ∧ rest = rest'

section

variable {ts us : List Term} {rest rest' : List Char}

theorem eq_of_tailText_append_eq (hts : ∀ t ∈ ts, t.ToldApart)
    (hus : ∀ u ∈ us, u.Closed ∧ u.isPlain) (h : tailText ts ++ rest = tailText us ++ rest') :
    ts = us ∧ rest = rest' := by
  induction ts generalizing us with
  | nil =>
      cases us with
      | nil => exact ⟨rfl, List.tail_eq_of_cons_eq h⟩
      | cons u us =>
          -- the first list is over, the second one is not
          have hhead : ')' = ',' := List.head_eq_of_cons_eq h
          exact absurd hhead (by decide)
  | cons t ts ih =>
      obtain ⟨ht, hrest⟩ := List.forall_mem_cons.mp hts
      cases us with
      | nil =>
          have hhead : ',' = ')' := List.head_eq_of_cons_eq h
          exact absurd hhead (by decide)
      | cons u us =>
          obtain ⟨⟨huclosed, huplain⟩, husrest⟩ := List.forall_mem_cons.mp hus
          rw [tailText_cons, tailText_cons, List.cons_append, List.cons_append, List.cons_append,
            List.cons_append, List.append_assoc, List.append_assoc] at h
          have htexts := List.tail_eq_of_cons_eq (List.tail_eq_of_cons_eq h)
          obtain ⟨rfl, htails⟩ :=
            ht huclosed huplain (follows_tailText ts rest) (follows_tailText us rest') htexts
          obtain ⟨rfl, hrests⟩ := ih hrest husrest htails
          exact ⟨rfl, hrests⟩

theorem eq_of_argsText_append_eq (hts : ∀ t ∈ ts, t.ToldApart)
    (hus : ∀ u ∈ us, u.Closed ∧ u.isPlain) (hrest : Text.Follows rest) (hrest' : Text.Follows rest')
    (h : argsText ts ++ rest = argsText us ++ rest') :
    ts = us ∧ rest = rest' := by
  cases ts with
  | nil =>
      cases us with
      | nil => exact ⟨rfl, h⟩
      | cons u us => exact absurd h hrest.ne_opening
  | cons t ts =>
      obtain ⟨ht, htsrest⟩ := List.forall_mem_cons.mp hts
      cases us with
      | nil => exact absurd h.symm hrest'.ne_opening
      | cons u us =>
          obtain ⟨⟨huclosed, huplain⟩, husrest⟩ := List.forall_mem_cons.mp hus
          rw [argsText, argsText, List.cons_append, List.cons_append, List.append_assoc,
            List.append_assoc] at h
          have htexts := List.tail_eq_of_cons_eq h
          obtain ⟨rfl, htails⟩ :=
            ht huclosed huplain (follows_tailText ts rest) (follows_tailText us rest') htexts
          obtain ⟨rfl, hrests⟩ := eq_of_tailText_append_eq htsrest husrest htails
          exact ⟨rfl, hrests⟩

theorem eq_of_text_append_eq {t u : Term} (hname : Text.isPlain t.name)
    (hname' : Text.isPlain u.name) (hargs : ∀ s ∈ t.args, s.ToldApart)
    (hargs' : ∀ s ∈ u.args, s.Closed ∧ s.isPlain) (hrest : Text.Follows rest)
    (hrest' : Text.Follows rest') (h : t.text.toList ++ rest = u.text.toList ++ rest') :
    t.name = u.name ∧ t.args = u.args ∧ rest = rest' := by
  rw [toList_text, toList_text, List.append_assoc, List.append_assoc] at h
  obtain ⟨hnames, hbehind⟩ := Text.eq_of_name_append_eq hname hname' (isDelimited_argsText _ hrest)
    (isDelimited_argsText _ hrest') h
  exact ⟨hnames, eq_of_argsText_append_eq hargs hargs' hrest hrest' hbehind⟩

end

theorem Closed.of_mem_args {t s : Term} (ht : t.Closed) (hs : s ∈ t.args) : s.Closed := by
  cases t with
  | app f args =>
      exact ht.of_mem_subterms (mem_subterms_app.mpr (Or.inr ⟨s, hs, mem_subterms_self s⟩))
  | _ => exact absurd hs List.not_mem_nil

theorem isPlain_of_mem_args {t s : Term} (ht : t.isPlain) (hs : s ∈ t.args) : s.isPlain := by
  cases t with
  | app f args => exact (isPlain_app.mp ht).2.2 s hs
  | _ => exact absurd hs List.not_mem_nil

theorem isPlain_name {t : Term} (ht : t.Closed) (hplain : t.isPlain) : Text.isPlain t.name := by
  cases t with
  | var x => exact absurd ht.2 (by simp)
  | const c => exact hplain
  | app f args => exact (isPlain_app.mp hplain).1
  | foreign f => cases hplain

/-- A constant does not look like a symbol that stands alone in a plain term. -/
theorem ne_app_of_const {c : Constant} {f : Symbol} (hplain : (app f []).isPlain) :
    c.name ≠ f.name := by
  intro h
  have hlowercase := (isPlain_app.mp hplain).2.1 rfl
  rw [← h, c.notLowercase] at hlowercase
  cases hlowercase

/-- A closed plain term is known by its name and its arguments. -/
theorem eq_of_name_eq {t u : Term} (ht : t.Closed) (hu : u.Closed) (htplain : t.isPlain)
    (huplain : u.isPlain) (hname : t.name = u.name) (hargs : t.args = u.args) : t = u := by
  cases t with
  | var x => exact absurd ht.2 (by simp)
  -- terms of different kinds cannot have one name and the same arguments where they are plain
  | foreign f => cases htplain
  | const c =>
      cases u with
      | var x => exact absurd hu.2 (by simp)
      | foreign f => cases huplain
      | const d =>
          obtain ⟨cname, _, _⟩ := c
          obtain ⟨dname, _, _⟩ := d
          cases (hname : cname = dname)
          rfl
      | app g us =>
          obtain rfl : [] = us := hargs
          exact absurd hname (ne_app_of_const huplain)
  | app f ts =>
      cases u with
      | var x => exact absurd hu.2 (by simp)
      | foreign f => cases huplain
      | const d =>
          obtain rfl : ts = [] := hargs
          exact absurd hname.symm (ne_app_of_const htplain)
      | app g us =>
          obtain rfl : ts = us := hargs
          rw [Symbol.eq_of_name_eq (isProper_app.mp ht.1).1 (isProper_app.mp hu.1).1 hname]

theorem toldApart_of_args {t : Term} (ht : t.Closed) (hplain : t.isPlain)
    (hargs : ∀ s ∈ t.args, s.ToldApart) :
    t.ToldApart := by
  intro u rest rest' hu huplain hrest hrest' h
  obtain ⟨hnames, hargs, hrests⟩ :=
    eq_of_text_append_eq (isPlain_name ht hplain) (isPlain_name hu huplain) hargs
    (fun s hs => ⟨hu.of_mem_args hs, isPlain_of_mem_args huplain hs⟩) hrest hrest' h
  exact ⟨eq_of_name_eq ht hu hplain huplain hnames hargs, hrests⟩

/-- **Closed plain terms are told apart by their texts.** -/
theorem toldApart {t : Term} (ht : t.Closed) (hplain : t.isPlain) : t.ToldApart := by
  induction t using Term.inductionOnArgs with
  | app f ts ih =>
      exact toldApart_of_args ht hplain
        fun s hs => ih s hs (ht.of_mem_args hs) (isPlain_of_mem_args hplain hs)
  | _ => exact toldApart_of_args ht hplain fun s hs => absurd hs List.not_mem_nil

end Term

/-! ## Plain atoms -/

namespace Atom

/-- The predicate has no delimiter, and the arguments are plain.  A predicate that stands alone may
look like a constant, since it is compared with atoms only. -/
def isPlain (a : Atom) : Bool :=
  Text.isPlain a.predicate.name && Term.arePlain a.args

theorem isPlain_iff {a : Atom} :
    a.isPlain ↔ Text.isPlain a.predicate.name ∧ ∀ t ∈ a.args, t.isPlain := by
  simp [isPlain, Term.arePlain_iff]

/-- **Closed plain atoms are told apart by their texts.** -/
theorem eq_of_text_eq {a b : Atom} (ha : a.Closed) (hb : b.Closed) (haplain : a.isPlain)
    (hbplain : b.isPlain) (h : a.text = b.text) : a = b := by
  obtain ⟨haname, haargs⟩ := isPlain_iff.mp haplain
  obtain ⟨hbname, hbargs⟩ := isPlain_iff.mp hbplain
  have htexts : a.toTerm.text.toList ++ [] = b.toTerm.text.toList ++ [] :=
    congrArg (fun text : String => text.toList ++ []) h
  obtain ⟨hnames, hargs, -⟩ :=
    Term.eq_of_text_append_eq (t := a.toTerm) (u := b.toTerm) haname hbname
    (fun s hs => Term.toldApart (ha.of_mem_args hs) (haargs s hs))
    (fun s hs => ⟨hb.of_mem_args hs, hbargs s hs⟩) Text.follows_nil Text.follows_nil htexts
  obtain ⟨f, ts⟩ := a
  obtain ⟨g, us⟩ := b
  obtain rfl : f = g :=
    Symbol.eq_of_name_eq (Term.isProper_app.mp ha.1).1 (Term.isProper_app.mp hb.1).1 hnames
  obtain rfl : ts = us := hargs
  rfl

theorem isPlain_bind {f : Variable → Term} {a : Atom} (ha : a.isPlain)
    (hf : ∀ x ∈ a.vars, (f x).isPlain) :
    (a.bind f).isPlain := by
  obtain ⟨hname, hargs⟩ := isPlain_iff.mp ha
  refine isPlain_iff.mpr ⟨hname, List.forall_mem_map.mpr fun t ht => ?_⟩
  exact Term.isPlain_bind (hargs t ht) fun x hx => hf x (mem_vars.mpr ⟨t, ht, hx⟩)

theorem isPlain_of_bind {f : Variable → Term} {a : Atom} (h : (a.bind f).isPlain) {x : Variable}
    (hx : x ∈ a.vars) :
    (f x).isPlain := by
  obtain ⟨t, ht, hxt⟩ := mem_vars.mp hx
  have hplain : (t.bind f).isPlain := (isPlain_iff.mp h).2 _ (List.mem_map_of_mem ht)
  exact Term.isPlain_of_mem_subterms hplain (Term.mem_subterms_bind hxt)

end Atom

end HornPlan
