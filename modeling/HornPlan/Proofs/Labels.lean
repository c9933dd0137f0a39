import HornPlan.Planner
import HornPlan.Proofs.SearchTrees
import Mathlib.Data.List.DropRight

/-!
# The labels of a tree

A label stands between quotes.  Whoever reads the file takes a backslash before a quote for a quote
inside the label, keeps two backslashes as they are, and takes any other quote for the end
(`readQuoted`).  Writing a label sets off its quotes and leaves its backslashes alone.  So a
backslash of the label can pair with the one that sets off a quote, and the label ends there; and a
backslash at the end sets off the quote that was to end the label.

These are the only ways to lose the end.  What the reader carries from one character to the next is
whether a backslash waits to be paired, and the end is met where none waits at a quote of the label
or at the end of it (`endsAtQuote_iff`).
-/

namespace HornPlan

open Search (escapeLabel)

/-! ## Reading -/

/-- Puts characters before what was read. -/
def kept (cs : List Char) (read : Option (List Char × List Char)) :
    Option (List Char × List Char) :=
  read.map fun found => (cs ++ found.1, found.2)

/-- Reads a text up to the quote that ends it, and what follows that quote. -/
def readQuoted : List Char → Option (List Char × List Char)
  | [] => none
  | '"' :: rest => some ([], rest)
  | '\\' :: '"' :: rest => kept ['"'] (readQuoted rest)
  | '\\' :: '\\' :: rest => kept ['\\', '\\'] (readQuoted rest)
  | c :: rest => kept [c] (readQuoted rest)

/-- The text that is opened before a label ends at the quote that is written after the label. -/
def EndsAtQuote (label : String) (rest : List Char) : Prop :=
  ∃ value, readQuoted ((escapeLabel label).toList ++ '"' :: rest) = some (value, rest)

/-- A quote in a label, or the end of it, stands after an odd number of backslashes. -/
def LeavesBackslash (label : List Char) : Prop :=
  ∃ before after, label = before ++ after ∧ (after = [] ∨ after.head? = some '"') ∧
    (before.rtakeWhile (· == '\\')).length % 2 = 1

section

variable {c : Char} {cs rest value after : List Char} {read : Option (List Char × List Char)}

@[simp] theorem kept_nil : kept [] read = read := by
  unfold kept
  cases read <;> rfl

@[simp] theorem kept_kept : kept cs (kept [c] read) = kept (cs ++ [c]) read := by
  unfold kept
  cases read <;> simp

theorem kept_eq_some_iff :
    kept cs read = some (value, after) ↔ ∃ inner, read = some (inner, after) ∧
    cs ++ inner = value := by
  unfold kept
  cases read <;> simp [Prod.ext_iff, eq_comm, and_comm]

theorem readQuoted_cons (hquote : c ≠ '"') (hslash : c ≠ '\\') :
    readQuoted (c :: rest) = kept [c] (readQuoted rest) := by
  simp [readQuoted, hslash]

theorem readQuoted_slash_cons (hquote : c ≠ '"') (hslash : c ≠ '\\') :
    readQuoted ('\\' :: c :: rest) = kept ['\\'] (kept [c] (readQuoted rest)) := by
  rw [← readQuoted_cons hquote hslash]
  simp [readQuoted, hquote, hslash]

theorem length_lt_of_readQuoted {cs : List Char} (h : readQuoted cs = some (value, after)) :
    after.length < cs.length := by
  fun_induction readQuoted cs generalizing value with
  | case1 => cases h
  | case2 rest =>
      obtain ⟨-, rfl⟩ := Prod.mk.inj (Option.some.inj h)
      exact Nat.lt_succ_self _
  | case3 rest ih | case4 rest ih | case5 c rest _ _ _ ih =>
      obtain ⟨inner, hinner, -⟩ := kept_eq_some_iff.mp h
      have hlt := ih hinner
      simp only [List.length_cons]
      omega

end

/-! ## Backslashes that wait -/

/-- Whether a backslash waits to be paired after a character. -/
def waitsAfter (waiting : Bool) (c : Char) : Bool :=
  decide (c = '\\') && !waiting

/-- No backslash waits where a quote of the label comes, nor at the end of the label. -/
def Paired (waiting : Bool) (label : List Char) : Prop :=
  ∀ before after, label = before ++ after → after = [] ∨ after.head? = some '"' →
    before.foldl waitsAfter waiting = false

/-- After a text a backslash waits exactly when the text ends with an odd number of them. -/
theorem foldl_waitsAfter (text : List Char) :
    text.foldl waitsAfter false = decide ((text.rtakeWhile (· == '\\')).length % 2 = 1) := by
  induction text using List.reverseRecOn with
  | nil => rfl
  | append_singleton text c ih =>
      rw [List.foldl_append, List.foldl_cons, List.foldl_nil, ih, waitsAfter]
      by_cases hc : c = '\\'
      · rw [List.rtakeWhile_concat_pos _ _ _ (by simpa using hc), List.length_append]
        rcases Nat.mod_two_eq_zero_or_one (text.rtakeWhile (· == '\\')).length with hmod | hmod <;>
          simp [hc, hmod, Nat.add_mod]
      · rw [List.rtakeWhile_concat_neg _ _ _ (by simpa using hc)]
        simp [hc]

theorem paired_iff (label : List Char) : Paired false label ↔ ¬LeavesBackslash label := by
  simp only [Paired, LeavesBackslash, foldl_waitsAfter, not_exists, not_and,
    decide_eq_false_iff_not]

section

variable {waiting : Bool} {c : Char} {label rest : List Char}

theorem paired_nil_iff : Paired waiting [] ↔ waiting = false := by
  refine ⟨fun h => h [] [] rfl (Or.inl rfl), fun h before after heq _ => ?_⟩
  obtain ⟨rfl, rfl⟩ := List.append_eq_nil_iff.mp heq.symm
  exact h

theorem paired_cons_iff :
    Paired waiting (c :: label) ↔ (c = '"' → waiting = false) ∧
    Paired (waitsAfter waiting c) label := by
  constructor
  · intro h
    refine ⟨fun hc => h [] (c :: label) rfl (Or.inr (by rw [hc]; rfl)),
      fun before after heq hafter => ?_⟩
    exact h (c :: before) after (by rw [heq, List.cons_append]) hafter
  · rintro ⟨hc, hlabel⟩ before after heq hafter
    cases before with
    | nil =>
        rw [List.nil_append] at heq
        subst heq
        exact hc (Option.some.inj (hafter.resolve_left (List.cons_ne_nil c label)))
    | cons d before =>
        obtain ⟨rfl, rfl⟩ := List.cons.inj heq
        exact hlabel before after rfl hafter

/-! ## Where the text ends -/

/-- What is written for a backslash that waits, for a label, and for what comes after it. -/
def written (waiting : Bool) (label rest : List Char) : List Char :=
  (bif waiting then ['\\'] else []) ++
    (label.flatMap fun c => if c = '"' then ['\\', '"'] else [c]) ++ '"' :: rest

/-- A character that does not end the text is read together with a backslash that waits, and where
it is such a backslash itself it is left for the next one. -/
theorem readQuoted_written_cons (h : c = '"' → waiting = false) :
    readQuoted (written waiting (c :: label) rest) =
      kept (if waitsAfter waiting c then [] else (bif waiting then ['\\'] else []) ++ [c])
        (readQuoted (written (waitsAfter waiting c) label rest)) := by
  by_cases hquote : c = '"'
  · rw [h hquote, hquote]
    rfl
  · by_cases hslash : c = '\\'
    · subst hslash
      cases waiting
      · simp [written, waitsAfter]
      · rfl
    · cases waiting
      · simpa [written, waitsAfter, hquote, hslash] using readQuoted_cons hquote hslash
      · simpa [written, waitsAfter, hquote, hslash] using readQuoted_slash_cons hquote hslash

theorem readQuoted_written (h : Paired waiting label) :
    readQuoted (written waiting label rest) =
      some ((bif waiting then ['\\'] else []) ++ label, rest) := by
  induction label generalizing waiting with
  | nil =>
      rw [paired_nil_iff] at h
      subst h
      rfl
  | cons c label ih =>
      obtain ⟨hc, hlabel⟩ := paired_cons_iff.mp h
      rw [readQuoted_written_cons hc, ih hlabel, kept_eq_some_iff]
      refine ⟨_, rfl, ?_⟩
      cases waiting <;> by_cases hslash : c = '\\' <;> simp [waitsAfter, hslash]

/-- Where a backslash waits at a quote of the label the text ends too early, and where one waits at
the end of the label, too late. -/
theorem ne_rest_of_not_paired (h : ¬Paired waiting label) {value after : List Char}
    (hread : readQuoted (written waiting label rest) = some (value, after)) : after ≠ rest := by
  induction label generalizing waiting value with
  | nil =>
      rw [paired_nil_iff, Bool.not_eq_false] at h
      subst h
      obtain ⟨inner, hinner, -⟩ :=
        kept_eq_some_iff.mp (show kept ['"'] (readQuoted rest) = _ from hread)
      -- the quote at the end was read as part of the text, so that less is left
      rintro rfl
      exact Nat.lt_irrefl _ (length_lt_of_readQuoted hinner)
  | cons c label ih =>
      by_cases hc : c = '"' → waiting = false
      · rw [readQuoted_written_cons hc] at hread
        obtain ⟨inner, hinner, -⟩ := kept_eq_some_iff.mp hread
        exact ih (fun hlabel => h (paired_cons_iff.mpr ⟨hc, hlabel⟩)) hinner
      · simp only [Classical.not_imp, Bool.not_eq_false] at hc
        obtain ⟨rfl, rfl⟩ := hc
        have hend : readQuoted (written true ('"' :: label) rest) =
            some (['\\', '\\'], written false label rest) := rfl
        rw [hend] at hread
        obtain ⟨-, rfl⟩ := Prod.mk.inj (Option.some.inj hread)
        intro heq
        have hlength := congrArg List.length heq
        simp [written] at hlength
        omega

end

theorem written_label (label : String) (rest : List Char) :
    (escapeLabel label).toList ++ '"' :: rest = written false label.toList rest := by
  simp [escapeLabel, written]

/-- **The end of a label.**  The text ends at the quote that is written after the label exactly when
no quote of the label, and not its end, stands after an odd number of backslashes. -/
theorem endsAtQuote_iff (label : String) (rest : List Char) :
    EndsAtQuote label rest ↔ ¬LeavesBackslash label.toList := by
  rw [← paired_iff, EndsAtQuote, written_label]
  refine ⟨fun ⟨value, hread⟩ => ?_, fun h => ⟨_, readQuoted_written h⟩⟩
  exact by_contra fun h => ne_rest_of_not_paired h hread rfl

theorem EndsAtQuote.readQuoted_eq {label : String} {rest : List Char} (h : EndsAtQuote label rest) :
    readQuoted ((escapeLabel label).toList ++ '"' :: rest) = some (label.toList, rest) := by
  rw [written_label]
  exact readQuoted_written ((paired_iff _).mpr ((endsAtQuote_iff label rest).mp h))

namespace Search

variable {search : Search} {p q : List Action}

theorem nodeLabel_congr (search : Search) (h : p == q) :
    search.nodeLabel p = search.nodeLabel q := by
  have hsame : (fun path : List Action => path == p) = fun path => path == q :=
    funext fun path => BEq.congr_right h
  rw [nodeLabel, nodeLabel, hsame]

theorem IsStart.exists_node_mem (hp : search.IsStart p) :
    ∃ colour, .node (nodeId search.treeNodes p) (search.nodeLabel p) colour ∈ search.treeLines := by
  obtain ⟨q, hq, hqp⟩ := hp.exists_node
  refine ⟨search.nodeColour q, List.mem_flatMap.mpr ⟨q, hq, ?_⟩⟩
  rw [← nodeId_congr _ hqp, ← nodeLabel_congr _ hqp]
  exact List.mem_cons_self

theorem exists_label_in_drawing {lines : List DotLine} {id label colour : String}
    (h : .node id label colour ∈ lines) : ∃ before after, drawing lines =
      before ++ "  " ++ id ++ " [label=\"" ++ escapeLabel label ++ "\"" ++ after := by
  obtain ⟨earlier, later, rfl⟩ := List.append_of_mem h
  have hquote : "\", fillcolor=" = "\"" ++ ", fillcolor=" := rfl
  have hline : (DotLine.node id label colour).text =
      "  " ++ (id ++ (" [label=\"" ++ (escapeLabel label ++ ("\""
      ++ (", fillcolor=" ++ colour ++ ", style=filled];\n"))))) := by
    simp only [DotLine.text, hquote, String.append_assoc]
  refine ⟨opening ++ String.join (earlier.map DotLine.text),
    (", fillcolor=" ++ colour ++ ", style=filled];\n") ++
    (String.join (later.map DotLine.text) ++ "\x7d\n"), ?_⟩
  rw [drawing, List.map_append, List.map_cons, String.join_append, String.join_cons, hline]
  simp only [String.append_assoc]

/-- **The labels of a search.**  In the file that is written for a search, the label of each start
of a path stands between quotes; the text that the first of them opens ends at the second exactly
when no quote of the label, and not its end, stands after an odd number of backslashes, and then the
label is read. -/
theorem dot_labels_end_iff (h : search.IsDrawable) (hp : search.IsStart p) :
    ∃ before after, search.dot = .ok (before ++ "  " ++ nodeId search.treeNodes p ++ " [label=\""
        ++ escapeLabel (search.nodeLabel p) ++ "\"" ++ after) ∧
      (EndsAtQuote (search.nodeLabel p) after.toList ↔
      ¬LeavesBackslash (search.nodeLabel p).toList) ∧
      (EndsAtQuote (search.nodeLabel p) after.toList →
        readQuoted ((escapeLabel (search.nodeLabel p)).toList ++ '"' :: after.toList) =
          some ((search.nodeLabel p).toList, after.toList)) := by
  obtain ⟨colour, hnode⟩ := hp.exists_node_mem
  obtain ⟨before, after, hdrawing⟩ := exists_label_in_drawing hnode
  exact ⟨before, after, by rw [h.dot_eq, hdrawing], endsAtQuote_iff _ _, EndsAtQuote.readQuoted_eq⟩

/-- The search that has found a way there, by an action of some name. -/
def goneThereBy (name : String) : Except Error Search := do
  let go ← Worlds.action name [] [("Here", [])] [] [("There", [])] [("Here", [])] []
  let p ← Problem.make? (.str "there") (← Worlds.facts [("Here", [])]) [.inl go]
    (← Worlds.goal [("There", [])])
  return (p.plan ⟨.whole 1, .whole 10, .ok false, false⟩
    (StrategyName.breadthFirst.strategy p [])).search

theorem exists_labelled {name : String} (h : ((goneThereBy name).toOption.map fun search =>
    decide search.IsDrawable && search.treeNodes.any fun p => search.nodeLabel p == name) =
      some true) :
    ∃ search p, goneThereBy name = .ok search ∧ search.IsDrawable ∧ search.IsStart p ∧
      search.nodeLabel p = name := by
  obtain ⟨search, hsearch, hdrawable, hnode⟩ := exists_drawable h
  obtain ⟨p, hp, hlabel⟩ := List.any_eq_true.mp hnode
  exact ⟨search, p, hsearch, hdrawable, isStart_of_mem_treeNodes hp, beq_iff_eq.mp hlabel⟩

/-- A label with quotes, and with two backslashes before one of them, is read as it was. -/
theorem dot_labels_end_iff_quoted :
    ∃ search p before after, goneThereBy "Go \"far\\\\\"" = .ok search ∧
    search.IsDrawable ∧ search.IsStart p ∧ search.nodeLabel p = "Go \"far\\\\\"" ∧
    search.dot = .ok (before ++ "  " ++ nodeId search.treeNodes p ++ " [label=\""
      ++ "Go \\\"far\\\\\\\"" ++ "\"" ++ after) ∧
    readQuoted ("Go \\\"far\\\\\\\"".toList ++ '"' :: after.toList) =
      some ("Go \"far\\\\\"".toList, after.toList) := by
  have hdecided :
      ((goneThereBy "Go \"far\\\\\"").toOption.map fun search => decide search.IsDrawable &&
      search.treeNodes.any fun p => search.nodeLabel p == "Go \"far\\\\\"") = some true := by
    decide +kernel
  obtain ⟨search, p, hsearch, hdrawable, hstart, hlabel⟩ := exists_labelled hdecided
  obtain ⟨before, after, hdot, hends, hread⟩ := dot_labels_end_iff hdrawable hstart
  have hpaired : ¬LeavesBackslash "Go \"far\\\\\"".toList := by
    rw [← paired_iff]
    simp [paired_cons_iff, paired_nil_iff, waitsAfter]
  have hwritten : escapeLabel "Go \"far\\\\\"" = "Go \\\"far\\\\\\\"" := by decide
  rw [hlabel] at hdot hends hread
  rw [hwritten] at hdot hread
  exact ⟨search, p, before, after, hsearch, hdrawable, hstart, hlabel, hdot,
    hread (hends.mpr hpaired)⟩

/-- Not every label ends at its quote: where the name of an action ends in a backslash, this sets
off the quote that was to end the label. -/
theorem not_forall_labels_end : ¬∀ (search : Search) (p : List Action), search.IsDrawable →
    search.IsStart p →
    ∃ before after, search.dot = .ok (before ++ "  " ++ nodeId search.treeNodes p ++ " [label=\""
        ++ escapeLabel (search.nodeLabel p) ++ "\"" ++ after) ∧
      EndsAtQuote (search.nodeLabel p) after.toList := by
  intro hall
  have hdecided : ((goneThereBy "Go\\").toOption.map fun search => decide search.IsDrawable &&
      search.treeNodes.any fun p => search.nodeLabel p == "Go\\") = some true := by
    decide +kernel
  obtain ⟨search, p, -, hdrawable, hstart, hlabel⟩ := exists_labelled hdecided
  obtain ⟨before, after, -, hends⟩ := hall search p hdrawable hstart
  rw [endsAtQuote_iff, hlabel] at hends
  exact hends ⟨"Go\\".toList, [], by rw [List.append_nil], Or.inl rfl, by decide⟩

end Search

end HornPlan
