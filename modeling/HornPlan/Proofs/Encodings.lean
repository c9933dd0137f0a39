import HornPlan.Proofs.Printing

/-!
# Every text of a document is read as the document

A document can be written in many ways: with any white space between its parts, and with escapes for
any characters of its texts.  `Writes` says which texts write a document that is made of texts,
lists and objects, by the grammar of JSON.

Whatever stands behind such a text, the reader takes exactly the text and returns the document
(`isReadOff_of_writes`).  A text, a list and an object end with a character of their own, so that
nothing has to be asked of the rest, as it has for a number.  What the printer writes is one of
these texts (`IsPrinted`).
-/

namespace HornPlan.Json

/-! ## The grammar -/

/-- Something with white space around it. -/
def Padded (IsText : List Char → Prop) (padded : List Char) : Prop :=
  ∃ before text after, IsGap before ∧ IsText text ∧ IsGap after ∧ padded = before ++ (text ++ after)

/-- Two things with a character between them. -/
def Joined (separator : Char) (IsLeft IsRight : List Char → Prop) (joined : List Char) : Prop :=
  ∃ left right, IsLeft left ∧ IsRight right ∧ joined = left ++ separator :: right

mutual
/-- A text writes a document that is made of texts, lists and objects.  No object names a field
twice. -/
def Writes : Json → List Char → Prop
  | .str s, text => WritesString s text
  | .arr items, text => ∃ body, WritesItems items body ∧ text = '[' :: (body ++ [']'])
  | .obj fields, text =>
    (fields.map Prod.fst).Nodup ∧ ∃ body, WritesFields fields body ∧
    text = '\x7b' :: (body ++ ['\x7d'])
  | _, _ => False
def WritesItems : List Json → List Char → Prop
  | [], body => IsGap body
  | [item], body => Padded (Writes item) body
  | item :: next :: items, body =>
      Joined ',' (Padded (Writes item)) (WritesItems (next :: items)) body
def WritesFields : List (String × Json) → List Char → Prop
  | [], body => IsGap body
  | [(name, value)], body => Joined ':' (Padded (WritesString name)) (Padded (Writes value)) body
  | (name, value) :: next :: fields, body =>
    Joined ',' (Joined ':' (Padded (WritesString name)) (Padded (Writes value)))
      (WritesFields (next :: fields)) body
end

/-! ## White space -/

theorem Padded.imp {P Q : List Char → Prop} (himp : ∀ text, P text → Q text) {padded : List Char}
    (h : Padded P padded) : Padded Q padded := by
  obtain ⟨before, text, after, hbefore, htext, hafter, heq⟩ := h
  exact ⟨before, text, after, hbefore, himp text htext, hafter, heq⟩

/-! ## Lists and objects -/

/-- A text is read as a document, whatever stands behind it. -/
def IsReadOff (document : Json) (text : List Char) : Prop :=
  ∀ fuel rest, 2 * text.length ≤ fuel → readValue fuel (text ++ rest) = .ok (document, rest)

section

variable {document : Json} {fuel : Nat} {padded rest : List Char}

/-- White space before a document is skipped, and what is left behind it may start with white
space. -/
theorem readValue_of_padded (h : Padded (IsReadOff document) padded)
    (hfuel : 2 * padded.length ≤ fuel) (rest : List Char) :
    ∃ left, skipSpace left = skipSpace rest ∧
    readValue fuel (skipSpace (padded ++ rest)) = .ok (document, left) := by
  obtain ⟨before, text, after, hbefore, htext, hafter, rfl⟩ := h
  rw [List.length_append, List.length_append] at hfuel
  have hread := htext fuel (after ++ rest) (by omega)
  refine ⟨after ++ rest, hafter.skipSpace_append, ?_⟩
  rw [List.append_assoc, hbefore.skipSpace_append, List.append_assoc, (starts_of_readValue hread).1,
    hread]

theorem readItems_of_padded (h : Padded (IsReadOff document) padded)
    (hfuel : 2 * padded.length ≤ fuel) (done : List Json) :
    (∀ tail, skipSpace rest = ']' :: tail →
      readItems (fuel + 1) done (skipSpace (padded ++ rest)) =
      .ok (.arr (done ++ [document]), tail)) ∧
    ∀ tail, skipSpace rest = ',' :: tail →
      readItems (fuel + 1) done (skipSpace (padded ++ rest))
        = readItems fuel (done ++ [document]) (skipSpace tail) := by
  obtain ⟨left, hleft, hread⟩ := readValue_of_padded h hfuel rest
  rw [← hleft]
  exact readItems_step hread done

theorem readFields_of_field {name : String}
    (h : Joined ':' (Padded (WritesString name)) (Padded (IsReadOff document)) padded)
    (hfuel : 2 * padded.length ≤ fuel) (done : List (String × Json)) :
    (∀ tail, skipSpace rest = '\x7d' :: tail →
      readFields (fuel + 1) done (skipSpace (padded ++ rest)) =
      .ok (.obj (setField done name document), tail)) ∧
    ∀ tail, skipSpace rest = ',' :: tail →
      readFields (fuel + 1) done (skipSpace (padded ++ rest))
        = readFields fuel (setField done name document) (skipSpace tail) := by
  obtain ⟨_, right, ⟨before, text, after, hbefore, hname, hafter, rfl⟩, hvalue, rfl⟩ := h
  obtain ⟨body, rfl, hstring⟩ := hname.readString_eq
  rw [List.length_append, List.length_append, List.length_append, List.length_cons,
    List.length_cons] at hfuel
  have hlength : ('"' :: body).length ≤ fuel := by rw [List.length_cons]; omega
  have hright : 2 * right.length ≤ fuel := by omega
  obtain ⟨left, hleft, hread⟩ := readValue_of_padded hvalue hright rest
  have hquote : ∀ tail, skipSpace ('"' :: tail) = '"' :: tail := fun _ => rfl
  have hcolon : skipSpace (after ++ ':' :: (right ++ rest)) = ':' :: (right ++ rest) :=
    hafter.skipSpace_append
  rw [List.append_assoc, List.append_assoc, hbefore.skipSpace_append, List.append_assoc,
    List.cons_append, hquote, ← hleft]
  exact readFields_step (hstring _ _ _ hlength) hcolon hread done

end

/-! ## Documents -/

theorem isReadOff_str {s : String} {text : List Char} (h : WritesString s text) :
    IsReadOff (.str s) text := by
  intro fuel rest hfuel
  obtain ⟨body, rfl, hstring⟩ := h.readString_eq
  have hlength : ('"' :: body).length = body.length + 1 := rfl
  cases fuel with
  | zero => omega
  | succ fuel => rw [List.cons_append, readValue, hstring _ _ _ (by omega)]

/-- The items of a list are read up to its closing bracket. -/
def AreReadOff (items : List Json) (body : List Char) : Prop :=
  ∀ fuel done rest, 2 * body.length < fuel →
    readItems fuel done (skipSpace (body ++ ']' :: rest)) = .ok (.arr (done ++ items), rest)

/-- The fields of an object are read up to its closing bracket. -/
def AreFieldsReadOff (fields : List (String × Json)) (body : List Char) : Prop :=
  ∀ fuel done rest, ((done ++ fields).map Prod.fst).Nodup → 2 * body.length < fuel →
    readFields fuel done (skipSpace (body ++ '\x7d' :: rest)) = .ok (.obj (done ++ fields), rest)

section

variable {item value : Json} {items : List Json} {name : String} {fields : List (String × Json)}
  {padded body : List Char}

theorem areReadOff_singleton (h : Padded (IsReadOff item) body) : AreReadOff [item] body := by
  intro fuel done rest hfuel
  cases fuel with
  | zero => cases hfuel
  | succ fuel => exact (readItems_of_padded h (Nat.le_of_lt_succ hfuel) done).1 rest rfl

theorem areReadOff_cons (h : Padded (IsReadOff item) padded) (hlater : AreReadOff items body) :
    AreReadOff (item :: items) (padded ++ ',' :: body) := by
  intro fuel done rest hfuel
  rw [List.length_append, List.length_cons] at hfuel
  cases fuel with
  | zero => cases hfuel
  | succ fuel =>
      have hitem : 2 * padded.length ≤ fuel := by omega
      rw [List.append_assoc, List.cons_append,
        (readItems_of_padded h hitem done).2 (body ++ ']' :: rest) rfl, hlater _ _ _ (by omega),
        List.append_assoc, List.singleton_append]

theorem areFieldsReadOff_singleton
    (h : Joined ':' (Padded (WritesString name)) (Padded (IsReadOff value)) body) :
    AreFieldsReadOff [(name, value)] body := by
  intro fuel done rest hnames hfuel
  have hnew := setField_of_nodup hnames
  cases fuel with
  | zero => cases hfuel
  | succ fuel => rw [(readFields_of_field h (Nat.le_of_lt_succ hfuel) done).1 rest rfl, hnew]

theorem areFieldsReadOff_cons
    (h : Joined ':' (Padded (WritesString name)) (Padded (IsReadOff value)) padded)
    (hlater : AreFieldsReadOff fields body) :
    AreFieldsReadOff ((name, value) :: fields) (padded ++ ',' :: body) := by
  intro fuel done rest hnames hfuel
  have hnew := setField_of_nodup hnames
  rw [List.append_cons] at hnames
  rw [List.length_append, List.length_cons] at hfuel
  cases fuel with
  | zero => cases hfuel
  | succ fuel =>
      have hfield : 2 * padded.length ≤ fuel := by omega
      rw [List.append_assoc, List.cons_append,
        (readFields_of_field h hfield done).2 (body ++ '\x7d' :: rest) rfl, hnew,
        hlater _ _ _ hnames (by omega), List.append_assoc, List.singleton_append]

theorem isReadOff_arr (h : AreReadOff items body) :
    IsReadOff (.arr items) ('[' :: (body ++ [']'])) := by
  intro fuel rest hfuel
  rw [List.length_cons, List.length_append] at hfuel
  cases fuel with
  | zero => omega
  | succ fuel =>
      rw [List.cons_append, List.append_assoc, List.singleton_append]
      exact readValue_bracket (h fuel [] rest (by omega))

theorem isReadOff_obj (hnames : (fields.map Prod.fst).Nodup) (h : AreFieldsReadOff fields body) :
    IsReadOff (.obj fields) ('\x7b' :: (body ++ ['\x7d'])) := by
  intro fuel rest hfuel
  rw [List.length_cons, List.length_append] at hfuel
  cases fuel with
  | zero => omega
  | succ fuel =>
      rw [List.cons_append, List.append_assoc, List.singleton_append]
      exact readValue_brace (h fuel [] rest hnames (by omega))

theorem isReadOff_arr_nil (h : IsGap body) : IsReadOff (.arr []) ('[' :: (body ++ [']'])) := by
  intro fuel rest hfuel
  rw [List.length_cons] at hfuel
  cases fuel with
  | zero => omega
  | succ fuel =>
      rw [List.cons_append, List.append_assoc, readValue, h.skipSpace_append]
      rfl

theorem isReadOff_obj_nil (h : IsGap body) :
    IsReadOff (.obj []) ('\x7b' :: (body ++ ['\x7d'])) := by
  intro fuel rest hfuel
  rw [List.length_cons] at hfuel
  cases fuel with
  | zero => omega
  | succ fuel =>
      rw [List.cons_append, List.append_assoc, readValue, h.skipSpace_append]
      rfl

end

-- By induction on the document, as the grammar goes.
mutual
/-- **What writes a document is read as the document.** -/
theorem isReadOff_of_writes : {document : Json} → {text : List Char} → Writes document text →
    IsReadOff document text
  | .str _, _, h => isReadOff_str h
  | .arr [], _, ⟨_, hgap, htext⟩ => htext ▸ isReadOff_arr_nil hgap
  | .arr (_ :: _), _, ⟨_, hitems, htext⟩ =>
      htext ▸ isReadOff_arr (areReadOff_of_writes (List.cons_ne_nil _ _) hitems)
  | .obj [], _, ⟨_, _, hgap, htext⟩ => htext ▸ isReadOff_obj_nil hgap
  | .obj (_ :: _), _, ⟨hnames, _, hfields, htext⟩ =>
      htext ▸ isReadOff_obj hnames (areFieldsReadOff_of_writes (List.cons_ne_nil _ _) hfields)
theorem areReadOff_of_writes : {items : List Json} → {body : List Char} → items ≠ [] →
    WritesItems items body →
    AreReadOff items body
  | [], _, hne, _ => absurd rfl hne
  | [_], _, _, h => areReadOff_singleton (h.imp fun _ => isReadOff_of_writes)
  | _ :: _ :: _, _, _, ⟨_, _, hitem, hlater, hbody⟩ =>
      hbody ▸ areReadOff_cons (hitem.imp fun _ => isReadOff_of_writes)
        (areReadOff_of_writes (List.cons_ne_nil _ _) hlater)
theorem areFieldsReadOff_of_writes : {fields : List (String × Json)} → {body : List Char} →
    fields ≠ [] →
    WritesFields fields body → AreFieldsReadOff fields body
  | [], _, hne, _ => absurd rfl hne
  | [(_, _)], _, _, ⟨left, right, hname, hvalue, hbody⟩ =>
      areFieldsReadOff_singleton ⟨left, right, hname, hvalue.imp fun _ => isReadOff_of_writes,
      hbody⟩
  | (_, _) :: _ :: _, _, _, ⟨_, _, ⟨left, right, hname, hvalue, hfield⟩, hlater, hbody⟩ =>
      hbody ▸
      areFieldsReadOff_cons ⟨left, right, hname, hvalue.imp fun _ => isReadOff_of_writes, hfield⟩
        (areFieldsReadOff_of_writes (List.cons_ne_nil _ _) hlater)
end

/-! ## What the printer writes -/

/-- The printer writes a document in one of the ways that the grammar has. -/
def IsPrinted (document : Json) : Prop :=
  ∀ level, Writes document (printAt level document).toList

section

variable {item : Json} {items : List Json} {field : String × Json} {fields : List (String × Json)}

theorem isGap_nil : IsGap [] :=
  List.forall_mem_nil _

theorem isPrinted_str (s : String) : IsPrinted (.str s) := by
  intro level
  rw [printAt]
  exact writesString_printString s

theorem writesItems_stacked (level outer : Nat) (h : ∀ other ∈ item :: items, IsPrinted other) :
    WritesItems (item :: items) ((newline level).toList
      ++ (stacked level ((item :: items).map (printAt level)) ++ (newline outer).toList)) := by
  induction items generalizing item with
  | nil =>
      have hitem := h item List.mem_cons_self level
      rw [List.map_singleton, stacked_singleton]
      exact ⟨_, _, _, isGap_newline level, hitem, isGap_newline outer, rfl⟩
  | cons next items ih =>
      obtain ⟨hitem, hothers⟩ := List.forall_mem_cons.mp h
      refine ⟨_, _, ⟨_, _, [], isGap_newline level, hitem level, isGap_nil, rfl⟩, ih hothers, ?_⟩
      rw [List.map_cons, List.map_cons, stacked_cons_cons]
      simp [separator]

theorem joined_printField {gap : List Char} (level : Nat) (hgap : IsGap gap)
    (h : IsPrinted field.2) :
    Joined ':' (Padded (WritesString field.1)) (Padded (Writes field.2))
      ((newline level).toList ++ ((printField level field).toList ++ gap)) := by
  have hspace : IsGap [' '] := by simp [IsGap, isSpace]
  refine ⟨_, _, ⟨_, _, [], isGap_newline level, writesString_printString field.1, isGap_nil, rfl⟩,
    ⟨_, _, _, hspace, h level, hgap, rfl⟩, ?_⟩
  rw [toList_printField]
  simp

theorem writesFields_stacked (level outer : Nat)
    (h : ∀ other ∈ field :: fields, IsPrinted other.2) :
    WritesFields (field :: fields) ((newline level).toList
      ++ (stacked level ((field :: fields).map (printField level)) ++ (newline outer).toList)) := by
  induction fields generalizing field with
  | nil =>
      have hfield := h field List.mem_cons_self
      rw [List.map_singleton, stacked_singleton]
      exact joined_printField level (isGap_newline outer) hfield
  | cons next fields ih =>
      obtain ⟨hfield, hothers⟩ := List.forall_mem_cons.mp h
      refine ⟨_, _, joined_printField level isGap_nil hfield, ih hothers, ?_⟩
      rw [List.map_cons, List.map_cons, stacked_cons_cons]
      simp [separator]

theorem isPrinted_arr (h : ∀ item ∈ items, IsPrinted item) : IsPrinted (.arr items) := by
  intro level
  rw [printAt, printItems_eq]
  cases items with
  | nil => exact ⟨[], isGap_nil, by rw [List.map_nil, block, String.toList_append]; rfl⟩
  | cons item items =>
      refine ⟨_, writesItems_stacked (level + 1) level h, ?_⟩
      rw [toList_block _ _ _ (by simp)]
      simp

theorem isPrinted_obj (hnames : (fields.map Prod.fst).Nodup)
    (h : ∀ field ∈ fields, IsPrinted field.2) :
    IsPrinted (.obj fields) := by
  intro level
  rw [printAt, printFields_eq]
  cases fields with
  | nil => exact ⟨hnames, [], isGap_nil, by rw [List.map_nil, block, String.toList_append]; rfl⟩
  | cons field fields =>
      refine ⟨hnames, _, writesFields_stacked (level + 1) level h, ?_⟩
      rw [toList_block _ _ _ (by simp)]
      simp

end

end HornPlan.Json
