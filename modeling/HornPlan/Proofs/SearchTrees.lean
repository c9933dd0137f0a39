import HornPlan.Code
import HornPlan.Proofs.Instances
import HornPlan.Proofs.Lists
import HornPlan.Search.Tree
import HornPlan.Worlds.Stating
import Mathlib.Data.List.Induction
import Mathlib.Logic.Relation

/-!
# The tree of a search

The tree of a search is written as a list of lines, one for every node and one for every edge
(`Search.treeLines`, `Search.IsDrawable.dot_eq`).  Its nodes are the starts of the paths to the
known nodes, and two starts are the same node when they are equal as lists of actions
(`Search.IsStart`).

The nodes are kept in a list without repetitions, and the place of a start in that list is its name.
So names say which starts are equal (`Search.nodeId_eq_iff`), a start without its last action is in
the list as well (`Search.IsStart.dropLast`), and what is drawn is a rooted tree
(`Search.dot_draws_tree`).
-/

namespace HornPlan

/-! ## Equal actions -/

section

variable {α β : Type} [BEq α] {code : α → β}

/-- Members that are equal exactly when their codes are make lists of which the same can be said. -/
theorem list_beq_iff_map_eq (hcode : ∀ a b, a == b ↔ code a = code b) (as bs : List α) :
    as == bs ↔ as.map code = bs.map code := by
  induction as generalizing bs with
  | nil => cases bs <;> simp
  | cons a as ih => cases bs <;> simp [hcode, ih]

theorem equivBEq_of_code (hcode : ∀ a b, a == b ↔ code a = code b) : EquivBEq α where
  rfl {a} := (hcode a a).mpr rfl
  symm {a b} h := (hcode b a).mpr ((hcode a b).mp h).symm
  trans {a b c} h h' := (hcode a c).mpr (((hcode a b).mp h).trans ((hcode b c).mp h'))

end

namespace Schema

/-- The signature and the lists of atoms as numbers. -/
def code (s : Schema) : List (List (List Nat)) :=
  [s.signature.code] :: [s.requires, s.forbids, s.adds, s.deletes, s.static].map (·.map Atom.code)

theorem signature_beq_iff {s t : Schema} :
    s.signature == t.signature ↔ (s.name == t.name) = true ∧
    (s.parameters == t.parameters) = true := by
  have hsimple : ∀ q r : SimpleTerm, q == r ↔ q.code = r.code := fun _ _ => Term.beq_iff_code_eq
  have hargs : (s.signature.args == t.signature.args) = (s.parameters == t.parameters) := by
    rw [Bool.eq_iff_iff, list_beq_iff_map_eq fun _ _ => Term.beq_iff_code_eq,
      list_beq_iff_map_eq hsimple]
    simp only [signature, List.map_map]
    exact Iff.rfl
  show (s.name == t.name && s.signature.args == t.signature.args) = true ↔ _
  rw [hargs, Bool.and_eq_true]

theorem beq_iff_code_eq (s t : Schema) : s == t ↔ s.code = t.code := by
  have hatoms := list_beq_iff_map_eq fun (a b : Atom) => Atom.beq_iff_code_eq
  show (s.name == t.name && _ && _ && _ && _ && _ && _) = true ↔ _
  simp only [Bool.and_eq_true, hatoms, ← signature_beq_iff, Atom.beq_iff_code_eq]
  simp [code, and_assoc]

end Schema

theorem Action.beq_iff_code_eq (a b : Action) : a == b ↔ a.toSchema.code = b.toSchema.code :=
  Schema.beq_iff_code_eq a.toSchema b.toSchema

theorem path_beq_iff (p q : List Action) :
    p == q ↔ p.map (·.toSchema.code) = q.map (·.toSchema.code) :=
  list_beq_iff_map_eq Action.beq_iff_code_eq p q

instance : EquivBEq (List Action) :=
  equivBEq_of_code path_beq_iff

theorem dropLast_beq {p q : List Action} (h : p == q) : p.dropLast == q.dropLast := by
  rw [path_beq_iff] at h ⊢
  rw [List.map_dropLast, List.map_dropLast, h]

theorem eq_nil_iff_of_beq {p q : List Action} (h : p == q) : p = [] ↔ q = [] := by
  rw [path_beq_iff] at h
  rw [← List.map_eq_nil_iff, h, List.map_eq_nil_iff]

/-! ## Places in a list -/

section

variable {α : Type} [BEq α] [EquivBEq α] {a b : α}

theorem exists_mem_eraseDups_beq : {as : List α} → a ∈ as → ∃ b ∈ as.eraseDups, b == a
  | [], h => absurd h List.not_mem_nil
  | c :: as, h => by
      rw [List.eraseDups_cons]
      by_cases hac : a == c
      · exact ⟨c, List.mem_cons_self, BEq.symm hac⟩
      · have ha : a ∈ as := (List.mem_cons.mp h).resolve_left fun heq => hac (heq ▸ BEq.rfl)
        have hrest : a ∈ as.filter fun b => !b == c := List.mem_filter.mpr ⟨ha, by simp [hac]⟩
        obtain ⟨b, hb, hba⟩ := exists_mem_eraseDups_beq hrest
        exact ⟨b, List.mem_cons_of_mem c hb, hba⟩
termination_by as => as.length
decreasing_by exact Nat.lt_succ_of_le (List.length_filter_le ..)

theorem idxOf_congr (as : List α) (h : a == b) : as.idxOf a = as.idxOf b := by
  unfold List.idxOf
  congr 1
  exact funext fun c => BEq.congr_right h

omit [EquivBEq α] in
theorem getElem_idxOf_beq {as : List α} (h : as.idxOf a < as.length) : as[as.idxOf a] == a :=
  List.findIdx_getElem (p := fun c => c == a)

theorem idxOf_eq_iff {as : List α} (ha : ∃ c ∈ as, c == a) (hb : ∃ c ∈ as, c == b) :
    as.idxOf a = as.idxOf b ↔ a == b := by
  refine ⟨fun h => ?_, idxOf_congr as⟩
  have hfound := getElem_idxOf_beq (List.findIdx_lt_length_of_exists ha)
  have hfound' := getElem_idxOf_beq (List.findIdx_lt_length_of_exists hb)
  simp only [h] at hfound
  exact BEq.trans (BEq.symm hfound) hfound'

end

theorem toString_nat_inj {m n : Nat} : toString m = toString n ↔ m = n := by
  refine ⟨fun h => ?_, fun h => h ▸ rfl⟩
  have hdigits : Nat.toDigits 10 m = Nat.toDigits 10 n := by
    simpa only [Nat.toString_eq_repr, Nat.toList_repr] using congrArg String.toList h
  rw [← Nat.ofDigitChars_ten_toDigits (n := m), hdigits, Nat.ofDigitChars_ten_toDigits]

/-! ## Drawings -/

/-- A line of a drawing: a node with its label and its colour, or an edge from one node to
another. -/
inductive DotLine
  | node (id label colour : String)
  | edge (parent child : String)

namespace DotLine

/-- How a line is written. -/
def text : DotLine → String
  | node id label colour => "  " ++ id ++ " [label=\"" ++ Search.escapeLabel label
      ++ "\", fillcolor=" ++ colour ++ ", style=filled];\n"
  | edge parent child => "  " ++ parent ++ " -> " ++ child ++ ";\n"

/-- The node that a line declares. -/
def declared? : DotLine → Option String
  | node id _ _ => some id
  | edge _ _ => none

/-- The two ends of an edge. -/
def ends? : DotLine → Option (String × String)
  | node _ _ _ => none
  | edge parent child => some (parent, child)

end DotLine

/-- How the file of a drawing begins. -/
def opening : String :=
  "digraph search \x7b\n  rankdir=TB;\n  node [shape=box, style=rounded];\n"

/-- The file that holds the lines of a drawing. -/
def drawing (lines : List DotLine) : String :=
  opening ++ String.join (lines.map DotLine.text) ++ "\x7d\n"

/-- The nodes that are declared, in order. -/
def declared (lines : List DotLine) : List String :=
  lines.filterMap DotLine.declared?

/-- The edges, in order, each with its two ends. -/
def edges (lines : List DotLine) : List (String × String) :=
  lines.filterMap DotLine.ends?

/-- The lines draw a tree: every node is declared once, one edge leads to every node but the root,
it comes from a node that is declared, and every node is reached from the root. -/
structure IsRootedTree (lines : List DotLine) (root : String) : Prop where
  nodup : (declared lines).Nodup
  root_mem : root ∈ declared lines
  children : (edges lines).map Prod.snd = (declared lines).erase root
  parents : ∀ e ∈ edges lines, e.1 ∈ declared lines
  reached : ∀ x ∈ declared lines, Relation.ReflTransGen (fun x y => (x, y) ∈ edges lines) root x

namespace Search

variable {search : Search} {p q : List Action}

/-- The actions on the known paths can be printed and looked up. -/
def IsDrawable (search : Search) : Prop :=
  ∀ path ∈ search.paths, ∀ a ∈ path, a.isPrintable ∧ a.isIndexable

instance (search : Search) : Decidable search.IsDrawable :=
  inferInstanceAs (Decidable (∀ path ∈ search.paths, ∀ a ∈ path, a.isPrintable ∧ a.isIndexable))

/-! ## The starts of the paths -/

/-- A sequence of actions with which the path of a frontier node or of the solution starts.  The
empty sequence is one even where there is no path. -/
def IsStart (search : Search) (p : List Action) : Prop :=
  p = [] ∨ ∃ path ∈ search.paths, p <+: path

theorem mem_starts_iff {path : List Action} : p ∈ starts path ↔ p ≠ [] ∧ p <+: path := by
  constructor
  · intro h
    obtain ⟨i, hi, rfl⟩ := List.mem_map.mp h
    rw [List.mem_range] at hi
    refine ⟨fun hnil => ?_, List.take_prefix ..⟩
    have hlength : (path.take (i + 1)).length = 0 := congrArg List.length hnil
    rw [List.length_take] at hlength
    omega
  · rintro ⟨hne, hprefix⟩
    have hpos := List.length_pos_iff.mpr hne
    have hle := hprefix.length_le
    refine List.mem_map.mpr ⟨p.length - 1, List.mem_range.mpr (by omega), ?_⟩
    rw [Nat.sub_add_cancel hpos, ← List.prefix_iff_eq_take.mp hprefix]

theorem mem_treePaths_iff : p ∈ search.treePaths ↔ p ≠ [] ∧ ∃ path ∈ search.paths, p <+: path := by
  unfold treePaths
  simp only [List.mem_flatMap, mem_starts_iff]
  grind

theorem isStart_iff_mem : search.IsStart p ↔ p ∈ [] :: search.treePaths := by
  rw [List.mem_cons, mem_treePaths_iff]
  unfold IsStart
  by_cases hp : p = [] <;> simp [hp]

theorem IsStart.dropLast (h : search.IsStart p) : search.IsStart p.dropLast := by
  rcases h with rfl | ⟨path, hpath, hprefix⟩
  · exact Or.inl rfl
  · exact Or.inr ⟨path, hpath, (List.dropLast_prefix p).trans hprefix⟩

/-! ## The nodes -/

theorem isStart_of_mem_treeNodes (h : p ∈ search.treeNodes) : search.IsStart p :=
  isStart_iff_mem.mpr (mem_of_mem_eraseDups h)

theorem IsStart.exists_node (h : search.IsStart p) : ∃ q ∈ search.treeNodes, q == p :=
  exists_mem_eraseDups_beq (isStart_iff_mem.mp h)

theorem treeNodes_eq_cons (search : Search) :
    search.treeNodes = [] :: search.treePaths.eraseDups := by
  have hkept : search.treePaths.filter (fun p => !p == []) = search.treePaths := by
    refine List.filter_eq_self.mpr fun p hp => ?_
    rw [Bool.not_eq_true']
    exact Bool.eq_false_iff.mpr fun h => (mem_treePaths_iff.mp hp).1 ((eq_nil_iff_of_beq h).mpr rfl)
  rw [treeNodes, List.eraseDups_cons, hkept]

theorem nodeId_congr (nodes : List (List Action)) (h : p == q) :
    nodeId nodes p = nodeId nodes q := by
  rw [nodeId, nodeId, idxOf_congr nodes h]

theorem nodeId_nil (search : Search) : nodeId search.treeNodes [] = "n0" := by
  rw [nodeId, treeNodes_eq_cons, List.idxOf_cons_self]
  rfl

theorem nodeId_eq_iff (hp : search.IsStart p) (hq : search.IsStart q) :
    nodeId search.treeNodes p = nodeId search.treeNodes q ↔ p == q := by
  rw [← idxOf_eq_iff hp.exists_node hq.exists_node, ← toString_nat_inj]
  simp [nodeId]

/-! ## The lines of the tree -/

/-- The lines for a node of the tree. -/
def pathLines (search : Search) (p : List Action) : List DotLine :=
  .node (nodeId search.treeNodes p) (search.nodeLabel p) (search.nodeColour p) ::
    if p.isEmpty then [] else [.edge (nodeId search.treeNodes p.dropLast)
      (nodeId search.treeNodes p)]

/-- The lines of the tree. -/
def treeLines (search : Search) : List DotLine :=
  search.treeNodes.flatMap search.pathLines

theorem nodeLines_eq_join (search : Search) (p : List Action) :
    search.nodeLines search.treeNodes p = String.join ((search.pathLines p).map DotLine.text) := by
  unfold nodeLines pathLines
  by_cases hp : p.isEmpty
  · simp [hp, DotLine.text]
  · simp only [hp, Bool.false_eq_true, if_false, List.map_cons, List.map_nil, DotLine.text,
      String.join_cons, String.join_nil, String.append_assoc, String.append_empty]

theorem IsDrawable.dot_eq (h : search.IsDrawable) :
    search.dot = .ok (drawing search.treeLines) := by
  have hall : search.paths.all fun path => path.all fun a => a.isPrintable && a.isIndexable := by
    simpa only [List.all_eq_true, Bool.and_eq_true, IsDrawable] using h
  have hjoin :
      ∀ nodes : List (List Action), String.join (nodes.map (search.nodeLines search.treeNodes)) =
      String.join ((nodes.flatMap search.pathLines).map DotLine.text) := by
    intro nodes
    induction nodes with
    | nil => rfl
    | cons p nodes ih => simp [nodeLines_eq_join, ih]
  simp only [dot, if_pos hall, hjoin]
  rfl

theorem declared_treeLines (search : Search) :
    declared search.treeLines = search.treeNodes.map (nodeId search.treeNodes) := by
  have hline :
      ∀ p, (search.pathLines p).filterMap DotLine.declared? = [nodeId search.treeNodes p] := by
    intro p
    unfold pathLines
    split <;> rfl
  rw [declared, treeLines, List.filterMap_flatMap, funext hline]
  exact List.flatMap_pure_eq_map ..

theorem edges_treeLines (search : Search) :
    edges search.treeLines = search.treePaths.eraseDups.map fun p =>
      (nodeId search.treeNodes p.dropLast, nodeId search.treeNodes p) := by
  have hlines : search.treeLines =
      search.pathLines [] ++ search.treePaths.eraseDups.flatMap search.pathLines := by
    rw [treeLines, treeNodes_eq_cons, List.flatMap_cons]
  have hline : ∀ p ∈ search.treePaths.eraseDups, (search.pathLines p).filterMap DotLine.ends? =
      [(nodeId search.treeNodes p.dropLast, nodeId search.treeNodes p)] := by
    intro p hp
    have hne := (mem_treePaths_iff.mp (mem_of_mem_eraseDups hp)).1
    rw [pathLines, if_neg (by simpa using hne)]
    rfl
  rw [edges, hlines, List.filterMap_append, List.filterMap_flatMap, List.flatMap_congr hline]
  exact List.flatMap_pure_eq_map ..

/-- Exactly the starts of the paths are declared. -/
theorem mem_declared_treeLines {x : String} :
    x ∈ declared search.treeLines ↔ ∃ p, search.IsStart p ∧ nodeId search.treeNodes p = x := by
  rw [declared_treeLines, List.mem_map]
  constructor
  · rintro ⟨p, hp, rfl⟩
    exact ⟨p, isStart_of_mem_treeNodes hp, rfl⟩
  · rintro ⟨p, hp, rfl⟩
    obtain ⟨q, hq, hqp⟩ := hp.exists_node
    exact ⟨q, hq, nodeId_congr _ hqp⟩

/-- Exactly the starts that are not empty have an edge, and it comes from the start without the last
action. -/
theorem mem_edges_treeLines {x y : String} :
    (x, y) ∈ edges search.treeLines ↔ ∃ p, search.IsStart p ∧ p ≠ [] ∧
      nodeId search.treeNodes p.dropLast = x ∧ nodeId search.treeNodes p = y := by
  simp only [edges_treeLines, List.mem_map, Prod.mk.injEq]
  constructor
  · rintro ⟨p, hp, hids⟩
    obtain ⟨hne, hstart⟩ := mem_treePaths_iff.mp (mem_of_mem_eraseDups hp)
    exact ⟨p, Or.inr hstart, hne, hids⟩
  · rintro ⟨p, hp, hne, rfl, rfl⟩
    obtain ⟨q, hq, hqp⟩ :=
      exists_mem_eraseDups_beq (mem_treePaths_iff.mpr ⟨hne, hp.resolve_left hne⟩)
    exact ⟨q, hq, nodeId_congr _ (dropLast_beq hqp), nodeId_congr _ hqp⟩

theorem nodup_declared_treeLines (search : Search) : (declared search.treeLines).Nodup := by
  have hdistinct : Distinct search.treeNodes := distinct_eraseDups _
  rw [declared_treeLines]
  refine List.pairwise_map.mpr (hdistinct.imp_of_mem ?_)
  intro p q hp hq hne heq
  have hpq := (nodeId_eq_iff (isStart_of_mem_treeNodes hp) (isStart_of_mem_treeNodes hq)).mp heq
  rw [hne] at hpq
  cases hpq

theorem declared_treeLines_eq_cons (search : Search) :
    declared search.treeLines =
      "n0" :: search.treePaths.eraseDups.map (nodeId search.treeNodes) := by
  have hcons := congrArg (List.map (nodeId search.treeNodes)) search.treeNodes_eq_cons
  rw [declared_treeLines, hcons, List.map_cons, nodeId_nil]

theorem IsStart.reached (h : search.IsStart p) :
    Relation.ReflTransGen (fun x y => (x, y) ∈ edges search.treeLines) "n0"
      (nodeId search.treeNodes p) := by
  induction p using List.reverseRecOn with
  | nil =>
      rw [nodeId_nil]
  | append_singleton p a ih =>
      have hp : search.IsStart p := by simpa using h.dropLast
      exact (ih hp).tail (mem_edges_treeLines.mpr ⟨p ++ [a], h, by simp, by simp, rfl⟩)

/-- **The lines draw a rooted tree.** -/
theorem isRootedTree_treeLines (search : Search) : IsRootedTree search.treeLines "n0" where
  nodup := nodup_declared_treeLines search
  root_mem := mem_declared_treeLines.mpr ⟨[], Or.inl rfl, nodeId_nil search⟩
  children := by
    rw [declared_treeLines_eq_cons, List.erase_cons_head, edges_treeLines, List.map_map]
    rfl
  parents := by
    intro e he
    obtain ⟨p, hp, -, hparent, -⟩ := mem_edges_treeLines.mp he
    exact mem_declared_treeLines.mpr ⟨p.dropLast, hp.dropLast, hparent⟩
  reached := by
    intro x hx
    obtain ⟨p, hp, rfl⟩ := mem_declared_treeLines.mp hx
    exact hp.reached

/-! ## What is written -/

/-- The lines draw the starts of the paths: equal starts are one node and others are not, the empty
start is the root, and an edge leads to each of the others from the start without its last action.
Whatever is looked up in writing the lines is among the nodes. -/
structure DrawsStarts (search : Search) (lines : List DotLine) : Prop where
  same_node : ∀ p q, search.IsStart p → search.IsStart q →
    (nodeId search.treeNodes p = nodeId search.treeNodes q ↔ p == q)
  root : nodeId search.treeNodes [] = "n0"
  nodes : ∀ x, x ∈ declared lines ↔ ∃ p, search.IsStart p ∧ nodeId search.treeNodes p = x
  parents : ∀ x y, (x, y) ∈ edges lines ↔ ∃ p, search.IsStart p ∧ p ≠ [] ∧
    nodeId search.treeNodes p.dropLast = x ∧ nodeId search.treeNodes p = y
  found : ∀ p, search.IsStart p → search.treeNodes.contains p ∧ search.treeNodes.contains p.dropLast

theorem IsStart.contains (h : search.IsStart p) : search.treeNodes.contains p := by
  obtain ⟨q, hq, hqp⟩ := h.exists_node
  rw [List.contains_eq_any_beq, List.any_eq_true]
  exact ⟨q, hq, BEq.symm hqp⟩

theorem drawsStarts_treeLines (search : Search) : search.DrawsStarts search.treeLines where
  same_node _ _ hp hq := nodeId_eq_iff hp hq
  root := nodeId_nil search
  nodes _ := mem_declared_treeLines
  parents _ _ := mem_edges_treeLines
  found _ hp := ⟨hp.contains, hp.dropLast.contains⟩

/-- **The tree of a search.**  Where the actions can be printed and looked up, what is written draws
a rooted tree with a node for every different start of the path of a frontier node or of the
solution. -/
theorem dot_draws_tree (search : Search) (h : search.IsDrawable) :
    search.dot = .ok (drawing search.treeLines) ∧ IsRootedTree search.treeLines "n0" ∧
      search.DrawsStarts search.treeLines :=
  ⟨h.dot_eq, isRootedTree_treeLines search, drawsStarts_treeLines search⟩

theorem exists_drawable {made : Except Error Search} {check : Search → Bool}
    (h : (made.toOption.map fun search => decide search.IsDrawable && check search) = some true) :
    ∃ search, made = .ok search ∧ search.IsDrawable ∧ check search = true := by
  cases made with
  | error e => cases h
  | ok search =>
      have hboth := Option.some.inj h
      rw [Bool.and_eq_true, decide_eq_true_eq] at hboth
      exact ⟨search, rfl, hboth⟩

/-- A search in which two paths wait, from the street down to the beach and on to the pier or the
cave, and which has found the ridge. -/
def partingWays : Except Error Search := do
  let way (name origin destination : String) :=
    Worlds.action name [] [(origin, [])] [] [(destination, [])] [(origin, [])] []
  let climb ← way "Climb" "Street" "Ridge"
  let descend ← way "Descend" "Street" "Beach"
  let wade ← way "Wade" "Beach" "Pier"
  let swim ← way "Swim" "Beach" "Cave"
  return { empty with
    frontier := [⟨.empty, [descend, wade], 2⟩, ⟨.empty, [descend, swim], 2⟩]
    solution := some ⟨.empty, [climb], 1⟩ }

/-- The way down is one node, with two nodes below it. -/
theorem dot_draws_tree_partingWays : ∃ search, partingWays = .ok search ∧ search.IsDrawable ∧
    search.paths.map List.length = [2, 2, 1] ∧
    edges search.treeLines = [("n0", "n1"), ("n1", "n2"), ("n1", "n3"), ("n0", "n4")] ∧
    search.dot = .ok (drawing search.treeLines) ∧ IsRootedTree search.treeLines "n0" ∧
    search.DrawsStarts search.treeLines := by
  have hdecided : (partingWays.toOption.map fun search => decide search.IsDrawable &&
      (search.paths.map List.length == [2, 2, 1] &&
        edges search.treeLines == [("n0", "n1"), ("n1", "n2"), ("n1", "n3"), ("n0", "n4")])) =
          some true := by
    decide +kernel
  obtain ⟨search, hsearch, hdrawable, hdrawn⟩ := exists_drawable hdecided
  rw [Bool.and_eq_true, beq_iff_eq, beq_iff_eq] at hdrawn
  exact ⟨search, hsearch, hdrawable, hdrawn.1, hdrawn.2, dot_draws_tree search hdrawable⟩

end Search

end HornPlan
