import HornPlan.Proofs.Encodings
import HornPlan.Proposal

/-!
# Reading a plan out of a reply

A reply holds its plan among prose or in a fence.  The plan is cut out of the reply, trimmed, and
read as the document at the start of what is left; the items of the document are checked one after
the other.  What comes of it is said for replies that hold an encoded plan (`Encodes`) and for all
others (`parsePlan_reads_or_refuses`).

* *Cutting.*  A text is cut where the pattern occurs first (`cut?_append`).  The opening fence and
  the brace end with a character of their own, so that what stands before them decides.  The closing
  fence does not; but in front of it there are only blanks and a closing brace, over which it does
  not reach (`isInfix_append_cons`).
* *Trimming.*  Trimming takes the blanks in front of a document away, and behind it nothing of the
  document itself, which starts and ends with a brace (`exists_trim_eq`).  What else is left behind
  it is not looked at.
* *Reading.*  Whatever way a plan is written, the reader returns it (`IsPlan.parsePlan_eq`).
* *Checking.*  The outcome follows from the items that the reply holds: the steps that they give
  (`parsePlan_eq_ok`), or the first thing that is wrong (`parsePlan_eq_error`).
-/

namespace HornPlan

/-! ## Finding a part of a text -/

section

variable {pattern part before after text : List Char} {c last : Char}

/-- A text is cut at the first place where the pattern occurs. -/
theorem cut?_append (h : ¬pattern <:+: before ++ pattern.dropLast) :
    cut? pattern (before ++ (pattern ++ after)) = some (before, after) := by
  -- induction on the text before the pattern, at none of whose places the pattern starts
  induction before with
  | nil =>
      cases pattern with
      | nil => exact absurd List.nil_infix h
      | cons c pattern =>
          have hfirst : (c :: pattern).isPrefixOf (c :: (pattern ++ after)) = true :=
            List.isPrefixOf_iff_prefix.mpr (List.prefix_append (c :: pattern) after)
          rw [List.nil_append, List.cons_append, cut?, if_pos hfirst, ← List.cons_append,
            List.drop_left]
  | cons c before ih =>
      have hlater := ih fun hoccurs => h (hoccurs.trans (List.suffix_cons ..).isInfix)
      have hfirst : ¬pattern.isPrefixOf (c :: (before ++ (pattern ++ after))) = true := by
        intro hfirst
        have hpattern := List.isPrefixOf_iff_prefix.mp hfirst
        have hshorter : c :: (before ++ pattern.dropLast) <+: c :: (before ++ (pattern ++ after)) :=
          (List.prefix_append_right_inj (c :: before)).mpr
            ((List.dropLast_prefix _).trans (List.prefix_append ..))
        refine h (List.prefix_of_prefix_length_le hpattern hshorter ?_).isInfix
        rw [List.length_cons, List.length_append, List.length_dropLast]
        omega
      rw [List.cons_append, cut?, if_neg hfirst, hlater]
      rfl

/-- A pattern that ends with a character of its own does not start inside itself. -/
theorem cut?_append_of_notMem (hlast : last ∉ part) (h : ¬part ++ [last] <:+: before) :
    cut? (part ++ [last]) (before ++ (part ++ [last] ++ after)) = some (before, after) := by
  refine cut?_append ?_
  rw [List.dropLast_concat]
  intro hoccurs
  rcases List.infix_append_iff.mp hoccurs with hbefore | hpart | ⟨left, right, heq, hleft, hright⟩
  · exact h hbefore
  · exact hlast (hpart.subset (List.mem_append_right _ List.mem_cons_self))
  · rcases List.eq_nil_or_concat right with rfl | ⟨init, c, rfl⟩
    · rw [List.append_nil] at heq
      exact h (heq ▸ hleft.isInfix)
    · rw [List.concat_eq_append, ← List.append_assoc] at heq
      obtain ⟨-, hc⟩ := List.append_inj' heq rfl
      obtain rfl := List.singleton_inj.mp hc
      exact hlast
        (hright.subset (List.concat_eq_append ▸ List.mem_append_right _ List.mem_cons_self))

theorem cut?_eq_none : cut? pattern text = none ↔ ¬pattern <:+: text := by
  induction text with
  | nil =>
      rw [cut?, List.infix_nil, ← List.isEmpty_iff]
      cases pattern.isEmpty <;> simp
  | cons c text ih =>
      rw [cut?, List.infix_cons_iff, ← List.isPrefixOf_iff_prefix]
      cases pattern.isPrefixOf (c :: text) <;> simp [ih]

/-- No pattern reaches over a character that does not belong to it. -/
theorem isInfix_append_cons (hc : c ∉ pattern) (h : pattern <:+: before ++ c :: after) :
    pattern <:+: before ∨ pattern <:+: after := by
  have hafter : ∀ {part : List Char}, part ⊆ pattern → part <+: c :: after → part = [] := by
    intro part hpart hstart
    cases part with
    | nil => rfl
    | cons d part =>
        obtain ⟨rfl, -⟩ := List.cons_prefix_cons.mp hstart
        exact absurd (hpart List.mem_cons_self) hc
  rcases List.infix_append_iff.mp h with hbefore | hlater | ⟨left, right, rfl, hleft, hright⟩
  · exact Or.inl hbefore
  · rcases List.infix_cons_iff.mp hlater with hstart | hlater
    · rw [hafter (List.Subset.refl _) hstart]
      exact Or.inl List.nil_infix
    · exact Or.inr hlater
  · rw [hafter (List.subset_append_right ..) hright, List.append_nil]
    exact Or.inl hleft.isInfix

/-- What does not belong to a pattern can be left out in front of it. -/
theorem isInfix_of_append (hpattern : pattern ≠ []) (hbefore : ∀ c ∈ before, c ∉ pattern)
    (h : pattern <:+: before ++ after) : pattern <:+: after := by
  induction before with
  | nil => exact h
  | cons c before ih =>
      obtain ⟨hc, hlater⟩ := List.forall_mem_cons.mp hbefore
      rcases isInfix_append_cons hc (show pattern <:+: [] ++ c :: (before ++ after) from h) with
          hnil | h
      · exact absurd (List.infix_nil.mp hnil) hpattern
      · exact ih hlater h

end

/-! ## Blanks -/

/-- White space, and the separators that are trimmed with it. -/
def AreBlank (blanks : List Char) : Prop :=
  ∀ c ∈ blanks, Text.isBlank c = true

theorem AreBlank.append {blanks more : List Char} (h : AreBlank blanks) (h' : AreBlank more) :
    AreBlank (blanks ++ more) :=
  List.forall_mem_append.mpr ⟨h, h'⟩

theorem areBlank_of_isGap {gap : List Char} (h : Json.IsGap gap) : AreBlank gap := by
  intro c hc
  have hspace := h c hc
  simp only [Json.isSpace, Bool.or_eq_true, decide_eq_true_eq] at hspace
  rcases hspace with ((rfl | rfl) | rfl) | rfl <;> rfl

theorem AreBlank.notMem {blanks : List Char} {c : Char} (h : AreBlank blanks)
    (hc : Text.isBlank c = false) :
    c ∉ blanks := by
  intro hmem
  rw [h c hmem] at hc
  cases hc

theorem AreBlank.notMem_fence {blanks : List Char} (h : AreBlank blanks) :
    ∀ c ∈ blanks, c ∉ "```".toList := by
  intro c hc hfence
  have htick : c = '\x60' := by simpa using hfence
  exact h.notMem rfl (htick ▸ hc)

/-- Blanks in front of a text are trimmed, and behind it at most what does not belong to it. -/
theorem exists_trim_eq {blanks inside rest : List Char} {first last : Char}
    (hblanks : AreBlank blanks) (hfirst : Text.isBlank first = false)
    (hlast : Text.isBlank last = false) :
    ∃ left, Text.trim (blanks ++ (first :: (inside ++ [last]) ++ rest)) =
      first :: (inside ++ [last]) ++ left := by
  have hstart : (blanks ++ (first :: (inside ++ [last]) ++ rest)).dropWhile Text.isBlank
      = first :: (inside ++ [last]) ++ rest := by
    rw [List.dropWhile_append_of_pos hblanks, List.cons_append]
    exact List.dropWhile_cons_of_neg (Bool.eq_false_iff.mp hfirst)
  have hend : (first :: (inside ++ [last])).reverse.dropWhile Text.isBlank
      = (first :: (inside ++ [last])).reverse := by
    rw [List.reverse_cons, List.reverse_append]
    exact List.dropWhile_cons_of_neg (Bool.eq_false_iff.mp hlast)
  refine ⟨(rest.reverse.dropWhile Text.isBlank).reverse, ?_⟩
  rw [Text.trim, Text.trimAll, hstart, List.reverse_append, List.dropWhile_append]
  split
  · rename_i hempty
    rw [List.isEmpty_iff.mp hempty, hend, List.reverse_reverse, List.reverse_nil, List.append_nil]
  · rw [List.reverse_append, List.reverse_reverse]

/-! ## What a reply holds -/

/-- The document at the start of the part of a reply that should be JSON. -/
def Holds (reply : String) (document : Json) : Prop :=
  ∃ rest, Json.readLeading? (Text.trim (jsonPart reply.toList)) = .ok (document, rest)

/-- A reply holds a list of steps. -/
def HoldsItems (reply : String) (items : List Json) : Prop :=
  ∃ document, Holds reply document ∧ document.field? "plan" = some (.arr items)

/-- An item gives a step: the name, and the arguments unless there are none. -/
def Gives (item : Json) (step : ProposedStep) : Prop :=
  item.field? "name" = some (.str step.name) ∧
    (item.field? "args" = some (.arr (step.args.map .str)) ∨ item.field? "args" = none ∧
    step.args = [])

/-- An item has no name, or one that is no text. -/
def IsUnnamed (item : Json) : Prop :=
  ∀ name, item.field? "name" ≠ some (.str name)

/-- An item has a name, but its arguments are no list of texts. -/
def HasBadArguments (item : Json) : Prop :=
  (∃ name, item.field? "name" = some (.str name)) ∧
    ∃ given, item.field? "args" = some given ∧ ∀ args : List String, given ≠ .arr (args.map .str)

/-- Why a reply is refused.  Of several items that give no step, the first one is named. -/
inductive Refuses (reply : String) : ReplyFault → Prop
  | unreadable {error : Json.ReadError}
      (h : Json.readLeading? (Text.trim (jsonPart reply.toList)) = .error error) :
      Refuses reply (.unreadable error)
  | noPlan {document : Json} (h : Holds reply document)
      (hplan : ∀ items, document.field? "plan" ≠ some (.arr items)) : Refuses reply .noPlan
  | unnamedStep {earlier later : List Json} {item : Json} {steps : List ProposedStep}
      (h : HoldsItems reply (earlier ++ item :: later))
      (hearlier : List.Forall₂ Gives earlier steps) (hitem : IsUnnamed item) :
      Refuses reply (.unnamedStep earlier.length)
  | badArguments {earlier later : List Json} {item : Json} {steps : List ProposedStep}
      (h : HoldsItems reply (earlier ++ item :: later))
      (hearlier : List.Forall₂ Gives earlier steps) (hitem : HasBadArguments item) :
      Refuses reply (.badArguments earlier.length)

/-! ## Items -/

section

variable {item given : Json} {items : List Json} {field : Option Json} {name : String}
  {args : List String} {step : ProposedStep} {fault : ReplyFault} {index : Nat}

theorem text?_eq_some : item.text? = some name ↔ item = .str name := by
  cases item <;> simp [Json.text?]

theorem bind_text?_eq_some : field.bind Json.text? = some name ↔ field = some (.str name) := by
  simp [Option.bind_eq_some_iff, text?_eq_some]

theorem items?_eq_some : item.items? = some items ↔ item = .arr items := by
  cases item <;> simp [Json.items?]

theorem bind_items?_eq_some : field.bind Json.items? = some items ↔ field = some (.arr items) := by
  simp [Option.bind_eq_some_iff, items?_eq_some]

theorem mapM_text?_eq_some : items.mapM Json.text? = some args ↔ items = args.map .str := by
  induction items generalizing args with
  | nil => simp [eq_comm]
  | cons item items ih =>
      simp only [List.mapM_cons, Option.bind_eq_bind, Option.bind_eq_some_iff, text?_eq_some, ih,
        Option.pure_def, Option.some.injEq]
      constructor
      · rintro ⟨arg, rfl, args, rfl, rfl⟩
        rfl
      · intro h
        cases args with
        | nil => cases h
        | cons arg args =>
            obtain ⟨rfl, rfl⟩ := List.cons.inj h
            exact ⟨arg, rfl, args, rfl, rfl⟩

theorem items?_bind_mapM_eq_some :
    (given.items?.bind fun items => items.mapM Json.text?) = some args ↔
    given = .arr (args.map .str) := by
  simp [Option.bind_eq_some_iff, items?_eq_some, mapM_text?_eq_some]

theorem given_eq_some :
    (((field.getD (.arr [])).items?.bind fun items => items.mapM Json.text?) = some args) ↔
      field = some (.arr (args.map .str)) ∨ field = none ∧ args = [] := by
  rw [items?_bind_mapM_eq_some]
  cases field with
  | none => simp [eq_comm]
  | some value => simp

theorem ofData?_eq_ok : ProposedStep.ofData? index item = .ok step ↔ Gives item step := by
  obtain ⟨name, args⟩ := step
  unfold Gives ProposedStep.ofData?
  rw [← bind_text?_eq_some, ← given_eq_some]
  split
  · rename_i hname
    simp [hname]
  · rename_i found hname
    split
    · rename_i hargs
      simp [hargs]
    · rename_i given hargs
      simp [hname, hargs]

theorem ofData?_eq_error : ProposedStep.ofData? index item = .error fault ↔
    IsUnnamed item ∧ fault = .unnamedStep index ∨ HasBadArguments item ∧
    fault = .badArguments index := by
  unfold ProposedStep.ofData?
  split
  · rename_i hname
    have hunnamed : IsUnnamed item := by
      intro name hfield
      rw [bind_text?_eq_some.mpr hfield] at hname
      cases hname
    have hgood : ¬HasBadArguments item := fun ⟨⟨name, hfield⟩, _⟩ => hunnamed name hfield
    simp [hunnamed, hgood, eq_comm]
  · rename_i found hname
    replace hname := bind_text?_eq_some.mp hname
    have hnamed : ¬IsUnnamed item := fun h => h found hname
    split
    · rename_i hargs
      have hbad : HasBadArguments item := by
        refine ⟨⟨found, hname⟩, ?_⟩
        cases hfield : item.field? "args" with
        | none =>
            rw [hfield] at hargs
            cases hargs
        | some given =>
            refine ⟨given, rfl, ?_⟩
            rintro args rfl
            rw [given_eq_some.mpr (Or.inl hfield)] at hargs
            cases hargs
      simp [hnamed, hbad, eq_comm]
    · rename_i args hargs
      have hgood : ¬HasBadArguments item := by
        rintro ⟨-, given, hgiven, hbad⟩
        rcases given_eq_some.mp hargs with hlist | ⟨hnone, -⟩
        · exact hbad args (Option.some.inj (hgiven.symm.trans hlist))
        · cases hgiven.symm.trans hnone
      simp [hnamed, hgood]

theorem mapM_ofData?_eq_ok {steps : List ProposedStep} :
    (items.zipIdx.mapM fun (item, i) => ProposedStep.ofData? i item) = .ok steps ↔
      List.Forall₂ Gives items steps := by
  conv_rhs => rw [← List.zipIdx_map_fst 0 items]
  rw [mapM_eq_ok, List.forall₂_map_left_iff]
  simp only [ofData?_eq_ok]

/-- The first item that gives no step is the one that is named. -/
theorem mapM_ofData?_eq_error :
    (items.zipIdx.mapM fun (item, i) => ProposedStep.ofData? i item) = .error fault ↔
      ∃ earlier item later steps, items = earlier ++ item :: later ∧
      List.Forall₂ Gives earlier steps ∧
        ProposedStep.ofData? earlier.length item = .error fault := by
  rw [mapM_eq_error]
  constructor
  · rintro ⟨before, ⟨item, i⟩, after, steps, hitems, hearlier, hfault⟩
    obtain ⟨earlier, others, rfl, rfl, hothers⟩ := List.zipIdx_eq_append_iff.mp hitems
    obtain ⟨first, later, rfl, hfirst, -⟩ := List.zipIdx_eq_cons_iff.mp hothers.symm
    obtain ⟨rfl, rfl⟩ := Prod.mk.inj hfirst
    rw [Nat.zero_add] at hfault
    exact ⟨earlier, item, later, steps, rfl, mapM_ofData?_eq_ok.mp hearlier, hfault⟩
  · rintro ⟨earlier, item, later, steps, rfl, hearlier, hfault⟩
    refine ⟨earlier.zipIdx, (item, earlier.length), later.zipIdx (earlier.length + 1), steps, ?_,
      mapM_ofData?_eq_ok.mpr hearlier, hfault⟩
    rw [List.zipIdx_append, List.zipIdx_cons, Nat.zero_add]

end

/-! ## What a reply gives, and what it is refused for -/

section

variable {reply : String} {steps : List ProposedStep} {fault : ReplyFault}

/-- A reply holds no document, one without a plan, or a list of items. -/
theorem holds_cases (reply : String) :
    (∃ error, Json.readLeading? (Text.trim (jsonPart reply.toList)) = .error error) ∨
      (∃ document, Holds reply document ∧ ∀ items, document.field? "plan" ≠ some (.arr items)) ∨
      ∃ items, HoldsItems reply items := by
  rcases hread : Json.readLeading? (Text.trim (jsonPart reply.toList)) with error | ⟨document, rest⟩
  · exact Or.inl ⟨error, rfl⟩
  · by_cases hplan : ∃ items, document.field? "plan" = some (.arr items)
    · obtain ⟨items, hitems⟩ := hplan
      exact Or.inr (Or.inr ⟨items, document, ⟨rest, hread⟩, hitems⟩)
    · exact Or.inr (Or.inl ⟨document, ⟨rest, hread⟩, not_exists.mp hplan⟩)

theorem parsePlan_unreadable {error : Json.ReadError}
    (h : Json.readLeading? (Text.trim (jsonPart reply.toList)) = .error error) :
    parsePlan reply = .error (.unreadable error) := by
  rw [parsePlan, h]

theorem parsePlan_noPlan {document : Json} (h : Holds reply document)
    (hplan : ∀ items, document.field? "plan" ≠ some (.arr items)) :
    parsePlan reply = .error .noPlan := by
  obtain ⟨rest, hread⟩ := h
  have hnone : (document.field? "plan").bind Json.items? = none :=
    Option.eq_none_iff_forall_ne_some.mpr
      fun items hitems => hplan items (bind_items?_eq_some.mp hitems)
  rw [parsePlan, hread]
  simp only [hnone]

theorem HoldsItems.parsePlan_eq {items : List Json} (h : HoldsItems reply items) :
    parsePlan reply = items.zipIdx.mapM fun (item, i) => ProposedStep.ofData? i item := by
  obtain ⟨document, ⟨rest, hread⟩, hplan⟩ := h
  rw [parsePlan, hread]
  simp only [bind_items?_eq_some.mpr hplan]

theorem parsePlan_eq_ok :
    parsePlan reply = .ok steps ↔ ∃ items, HoldsItems reply items ∧
    List.Forall₂ Gives items steps := by
  constructor
  · intro h
    rcases holds_cases reply with ⟨error, hread⟩ | ⟨document, hdocument, hplan⟩ | ⟨items, hitems⟩
    · cases (parsePlan_unreadable hread).symm.trans h
    · cases (parsePlan_noPlan hdocument hplan).symm.trans h
    · exact ⟨items, hitems, mapM_ofData?_eq_ok.mp (hitems.parsePlan_eq.symm.trans h)⟩
  · rintro ⟨items, hitems, hgives⟩
    rw [hitems.parsePlan_eq, mapM_ofData?_eq_ok]
    exact hgives

/-- A reply is refused for one of four reasons. -/
theorem parsePlan_eq_error : parsePlan reply = .error fault ↔ Refuses reply fault := by
  constructor
  · intro h
    rcases holds_cases reply with ⟨error, hread⟩ | ⟨document, hdocument, hplan⟩ | ⟨items, hitems⟩
    · obtain rfl := Except.error.inj ((parsePlan_unreadable hread).symm.trans h)
      exact .unreadable hread
    · obtain rfl := Except.error.inj ((parsePlan_noPlan hdocument hplan).symm.trans h)
      exact .noPlan hdocument hplan
    · obtain ⟨earlier, item, later, steps, rfl, hearlier, hfault⟩ :=
        mapM_ofData?_eq_error.mp (hitems.parsePlan_eq.symm.trans h)
      rcases ofData?_eq_error.mp hfault with ⟨hitem, rfl⟩ | ⟨hitem, rfl⟩
      · exact .unnamedStep hitems hearlier hitem
      · exact .badArguments hitems hearlier hitem
  · intro h
    cases h with
    | unreadable hread => exact parsePlan_unreadable hread
    | noPlan hdocument hplan => exact parsePlan_noPlan hdocument hplan
    | unnamedStep hitems hearlier hitem =>
        rw [hitems.parsePlan_eq, mapM_ofData?_eq_error]
        exact ⟨_, _, _, _, rfl, hearlier, ofData?_eq_error.mpr (Or.inl ⟨hitem, rfl⟩)⟩
    | badArguments hitems hearlier hitem =>
        rw [hitems.parsePlan_eq, mapM_ofData?_eq_error]
        exact ⟨_, _, _, _, rfl, hearlier, ofData?_eq_error.mpr (Or.inr ⟨hitem, rfl⟩)⟩

end

/-! ## Encoded plans -/

/-- An item of an encoded plan: the name and the arguments of a step, in either order, and nothing
else. -/
def IsStep (item : Json) (step : ProposedStep) : Prop :=
  let name := ("name", Json.str step.name)
  let args := ("args", Json.arr (step.args.map .str))
  item = .obj [name, args] ∨ item = .obj [args, name]

/-- An encoded plan: its steps, and nothing else. -/
def IsPlan (document : Json) (steps : List ProposedStep) : Prop :=
  ∃ items, document = .obj [("plan", .arr items)] ∧ List.Forall₂ IsStep items steps

/-- A text encodes steps when it writes a plan with these steps, by the grammar of JSON and in any
of the ways that it allows. -/
def Encodes (text : String) (steps : List ProposedStep) : Prop :=
  ∃ document, IsPlan document steps ∧ Json.Padded (Json.Writes document) text.toList

section

variable {document item : Json} {steps : List ProposedStep} {step : ProposedStep}
  {reply encoded : String}

theorem IsStep.gives (h : IsStep item step) : Gives item step := by
  rcases h with rfl | rfl
  · exact ⟨rfl, Or.inl rfl⟩
  · exact ⟨rfl, Or.inl rfl⟩

theorem IsPlan.exists_braces (h : IsPlan document steps) {text : List Char}
    (hwrites : Json.Writes document text) :
    ∃ inside, text = '\x7b' :: (inside ++ ['\x7d']) := by
  obtain ⟨items, rfl, -⟩ := h
  obtain ⟨-, inside, -, rfl⟩ := hwrites
  exact ⟨inside, rfl⟩

/-- Steps are read from a reply in which nothing but blanks stands before them, in the part that
should be JSON. -/
theorem IsPlan.parsePlan_eq (h : IsPlan document steps) {text blanks rest : List Char}
    (hwrites : Json.Writes document text) (hblanks : AreBlank blanks)
    (hpart : jsonPart reply.toList = blanks ++ (text ++ rest)) : parsePlan reply = .ok steps := by
  obtain ⟨left, hleft⟩ : ∃ left, Text.trim (jsonPart reply.toList) = text ++ left := by
    obtain ⟨inside, rfl⟩ := h.exists_braces hwrites
    rw [hpart]
    exact exists_trim_eq hblanks rfl rfl
  obtain ⟨items, rfl, hitems⟩ := h
  have hfuel : 2 * text.length ≤ Json.fuelFor (text ++ left) := by
    rw [Json.fuelFor, List.length_append]
    omega
  have hread : Json.readLeading? (text ++ left) = .ok (.obj [("plan", .arr items)], left) := by
    rw [Json.readLeading?, Json.isReadOff_of_writes hwrites _ _ hfuel]
    rfl
  have hholds : HoldsItems reply items := ⟨_, ⟨left, hleft ▸ hread⟩, rfl⟩
  exact parsePlan_eq_ok.mpr ⟨items, hholds, hitems.imp fun _ _ => IsStep.gives⟩

theorem jsonPart_bare {before after : List Char} (hbrace : '\x7b' ∉ before)
    (hfence : ¬"```json".toList <:+: before ++ '\x7b' :: after) :
    jsonPart (before ++ '\x7b' :: after) = '\x7b' :: after := by
  have hfirst : cut? ['\x7b'] (before ++ '\x7b' :: after) = some (before, after) :=
    cut?_append_of_notMem List.not_mem_nil fun hoccurs => hbrace (hoccurs.subset List.mem_cons_self)
  unfold jsonPart
  simp only [cut?_eq_none.mpr hfence, hfirst]

theorem jsonPart_fenced {before inside after : List Char} (hbefore : ¬"```json".toList <:+: before)
    (hinside : ¬"```".toList <:+: inside ++ "```".toList.dropLast) :
    jsonPart (before ++ ("```json".toList ++ (inside ++ ("```".toList ++ after)))) = inside := by
  have hfence : "```json".toList = "```jso".toList ++ ['n'] := rfl
  have hopening :
      cut? "```json".toList (before ++ ("```json".toList ++ (inside ++ ("```".toList ++ after))))
      = some (before, inside ++ ("```".toList ++ after)) := by
    rw [hfence] at hbefore ⊢
    exact cut?_append_of_notMem (by simp) hbefore
  unfold jsonPart
  simp only [hopening, cut?_append hinside]

/-- Without a fence, the steps are read from the first brace on. -/
theorem Encodes.parsePlan_bare (h : Encodes encoded steps) {before after : String}
    (hbrace : '\x7b' ∉ before.toList)
    (hfence : ¬"```json".toList <:+: (before ++ encoded ++ after).toList) :
    parsePlan (before ++ encoded ++ after) = .ok steps := by
  obtain ⟨document, hplan, gap, text, gap', hgap, hwrites, -, hencoded⟩ := h
  obtain ⟨inside, htext⟩ := hplan.exists_braces hwrites
  have hwhole : (before ++ encoded ++ after).toList
      = before.toList ++ gap ++ '\x7b' :: (inside ++ ['\x7d'] ++ (gap' ++ after.toList)) := by
    simp [hencoded, htext]
  have hgapbrace : '\x7b' ∉ before.toList ++ gap := fun hmem =>
    (List.mem_append.mp hmem).elim hbrace ((areBlank_of_isGap hgap).notMem rfl)
  have hpart :
      jsonPart (before ++ encoded ++ after).toList = [] ++ (text ++ (gap' ++ after.toList)) := by
    rw [hwhole] at hfence ⊢
    rw [jsonPart_bare hgapbrace hfence, htext]
    rfl
  exact hplan.parsePlan_eq hwrites (List.forall_mem_nil _) hpart

/-- The end of a fence does not start before the closing brace in front of it, nor among the blanks
behind the brace. -/
theorem not_isInfix_closed {blanks inside blanks' : List Char} (hblanks : AreBlank blanks)
    (hblanks' : AreBlank blanks') (h : ¬"```".toList <:+: inside) :
    ¬"```".toList <:+: blanks ++ (inside ++ ['\x7d']) ++ blanks' ++ "```".toList.dropLast := by
  have hsplit : blanks ++ (inside ++ ['\x7d']) ++ blanks' ++ "```".toList.dropLast
      = blanks ++ inside ++ '\x7d' :: (blanks' ++ "```".toList.dropLast) := by simp
  rw [hsplit]
  intro hoccurs
  rcases isInfix_append_cons (by simp) hoccurs with hoccurs | hoccurs
  · exact h (isInfix_of_append (by simp) hblanks.notMem_fence hoccurs)
  · have hshort := (isInfix_of_append (by simp) hblanks'.notMem_fence hoccurs).length_le
    simp at hshort

/-- In a fence, the steps are read up to its end. -/
theorem Encodes.parsePlan_fenced (h : Encodes encoded steps) {before blanks blanks' after : String}
    (hbefore : ¬"```json".toList <:+: before.toList) (hblanks : AreBlank blanks.toList)
    (hblanks' : AreBlank blanks'.toList) (hfence : ¬"```".toList <:+: encoded.toList) :
    parsePlan (before ++ "```json" ++ blanks ++ encoded ++ blanks' ++ "```" ++ after) =
      .ok steps := by
  obtain ⟨document, hplan, gap, text, gap', hgap, hwrites, hgap', hencoded⟩ := h
  obtain ⟨inside, htext⟩ := hplan.exists_braces hwrites
  have hfront := hblanks.append (areBlank_of_isGap hgap)
  have hback := (areBlank_of_isGap hgap').append hblanks'
  have hencoded' : encoded.toList = gap ++ '\x7b' :: inside ++ ['\x7d'] ++ gap' := by
    simp [hencoded, htext]
  -- the fence does not end inside of the document, since it does not occur in what encodes it
  have hopen : ¬"```".toList <:+: gap ++ '\x7b' :: inside := fun hoccurs => by
    refine hfence (hoccurs.trans ?_)
    rw [hencoded', List.append_assoc]
    exact (List.prefix_append ..).isInfix
  have hend := not_isInfix_closed hblanks hback hopen
  rw [← List.append_assoc, List.append_assoc blanks.toList, ← hencoded'] at hend
  have hpart :
      jsonPart (before ++ "```json" ++ blanks ++ encoded ++ blanks' ++ "```" ++ after).toList
      = blanks.toList ++ gap ++ (text ++ (gap' ++ blanks'.toList)) := by
    have hparts : (before ++ "```json" ++ blanks ++ encoded ++ blanks' ++ "```" ++ after).toList
        = before.toList ++ ("```json".toList
          ++ (blanks.toList ++ encoded.toList ++ blanks'.toList ++
          ("```".toList ++ after.toList))) := by
      simp only [String.toList_append, List.append_assoc]
    rw [hparts, jsonPart_fenced hbefore hend, hencoded]
    simp only [List.append_assoc]
  exact hplan.parsePlan_eq hwrites hfront hpart

/-- The document of a step. -/
def ProposedStep.toData (step : ProposedStep) : Json :=
  .obj [("name", .str step.name), ("args", .arr (step.args.map .str))]

/-- The document of a plan. -/
def planData (steps : List ProposedStep) : Json :=
  .obj [("plan", .arr (steps.map ProposedStep.toData))]

theorem isPlan_planData (steps : List ProposedStep) : IsPlan (planData steps) steps :=
  ⟨_, rfl, List.forall₂_map_left_iff.mpr (List.forall₂_same.mpr fun _ _ => Or.inl rfl)⟩

theorem isPrinted_toData (step : ProposedStep) : Json.IsPrinted step.toData := by
  have hargs : Json.IsPrinted (.arr (step.args.map .str)) :=
    Json.isPrinted_arr (List.forall_mem_map.mpr fun arg _ => Json.isPrinted_str arg)
  refine Json.isPrinted_obj (by simp) fun field hfield => ?_
  rcases List.mem_pair.mp hfield with rfl | rfl
  · exact Json.isPrinted_str step.name
  · exact hargs

theorem encodes_print (steps : List ProposedStep) : Encodes (planData steps).print steps := by
  have hsteps : Json.IsPrinted (.arr (steps.map ProposedStep.toData)) :=
    Json.isPrinted_arr (List.forall_mem_map.mpr fun step _ => isPrinted_toData step)
  have hplan : Json.IsPrinted (planData steps) :=
    Json.isPrinted_obj (by simp) (List.forall_mem_singleton.mpr hsteps)
  exact ⟨_, isPlan_planData steps, [], _, [], Json.isGap_nil, hplan 0, Json.isGap_nil,
    (List.append_nil _).symm⟩

end

/-- **Reading a reply.**  An encoded plan is read from among prose if no brace stands before it and
there is no fence at all.  It is read from the first fence, whatever stands behind the end of the
fence, if it holds no such end itself.  Every reply gives the steps that its items give, or is
refused for the first thing that is wrong: there is no other outcome. -/
theorem parsePlan_reads_or_refuses :
    (∀ encoded steps, Encodes encoded steps →
      (∀ before after : String, '\x7b' ∉ before.toList →
      ¬"```json".toList <:+: (before ++ encoded ++ after).toList →
        parsePlan (before ++ encoded ++ after) = .ok steps) ∧
      ∀ before blanks blanks' after : String, ¬"```json".toList <:+: before.toList →
      AreBlank blanks.toList →
        AreBlank blanks'.toList → ¬"```".toList <:+: encoded.toList →
        parsePlan (before ++ "```json" ++ blanks ++ encoded ++ blanks' ++ "```" ++ after) =
        .ok steps) ∧
    ∀ reply,
      (∃ steps items, parsePlan reply = .ok steps ∧ HoldsItems reply items ∧
      List.Forall₂ Gives items steps) ∨
        ∃ fault, parsePlan reply = .error fault ∧ Refuses reply fault := by
  refine ⟨fun encoded steps h => ⟨fun before after => h.parsePlan_bare,
    fun before blanks blanks' after => h.parsePlan_fenced⟩, fun reply => ?_⟩
  rcases hparsed : parsePlan reply with fault | steps
  · exact Or.inr ⟨fault, rfl, parsePlan_eq_error.mp hparsed⟩
  · obtain ⟨items, hitems, hgives⟩ := parsePlan_eq_ok.mp hparsed
    exact Or.inl ⟨steps, items, rfl, hitems, hgives⟩

theorem parsePlan_reads_or_refuses_flight :
    parsePlan ("Fly: " ++ (planData [⟨"Fly", ["Sibiu"]⟩]).print ++ " \x7bThen\x7d stay.") =
      .ok [⟨"Fly", ["Sibiu"]⟩] ∧
      parsePlan ("\x7b" ++ "```json" ++ "\n" ++ (planData [⟨"Fly", ["Sibiu"]⟩]).print ++ " " ++
      "```" ++ "```json")
        = .ok [⟨"Fly", ["Sibiu"]⟩] := by
  obtain ⟨hbare, hfenced⟩ := parsePlan_reads_or_refuses.1 _ _ (encodes_print [⟨"Fly", ["Sibiu"]⟩])
  constructor
  · exact hbare "Fly: " " \x7bThen\x7d stay." (by decide +kernel)
      (cut?_eq_none.mp (by decide +kernel))
  · have hline : AreBlank "\n".toList := List.forall_mem_singleton.mpr rfl
    have hspace : AreBlank " ".toList := List.forall_mem_singleton.mpr rfl
    exact hfenced "\x7b" "\n" " " "```json" (cut?_eq_none.mp (by decide +kernel)) hline hspace
      (cut?_eq_none.mp (by decide +kernel))

end HornPlan
