import HornPlan.CommandLine.Files
import HornPlan.CommandLine.Options
import HornPlan.Json.Printer
import HornPlan.Proposal
import HornPlan.Report
import HornPlan.Search.Tree

/-!
# Sessions

A session runs one command line among some files, with the lines that a person will type.  It
answers a query, or solves a problem, and says how it ended: with an exit code or with an error.
Whatever was printed before an error, and the files written before it, remain.

The exit code is zero when a query was answered or a plan was found.
-/

namespace HornPlan.CommandLine

/-- How a session ended. -/
structure Ending where
  exit : Except Error Int
  printed : String
  files : Files

/-! ## Asking -/

/-- A query and its answers.  Nothing but texts comes from a command line. -/
def reportAnswers (query : Atom) (answers : List Substitution) (quiet : Bool) : String :=
  if answers.isEmpty then line (query.text ++ ": no")
  else
    let plural := if answers.length = 1 then "" else "s"
    let shown := answers.filter fun σ => !σ.bindings.isEmpty
    line (query.text ++ ": yes (" ++ toString answers.length ++ " answer" ++ plural ++ ")")
      ++ if quiet then "" else unlines (shown.map fun σ =>
        "  " ++ ", ".intercalate (σ.sorted.map fun binding => binding.1 ++ " = " ++ binding.2.text))

/-- Asks the knowledge base of a problem for a predicate with arguments. -/
def ask (files : Files) (p : Problem) (words : List String) (quiet : Bool) : Ending :=
  match Atom.ofNames? (words.head?.getD "") (words.drop 1) with
  | .error error => ⟨.error error, "", files⟩
  | .ok query =>
    match p.knowledge.askAll [query] with
    | .error error => ⟨.error error, "", files⟩
    | .ok (answers, _) => ⟨.ok 0, reportAnswers query answers quiet, files⟩

/-! ## Searching -/

/-- The search to begin with: one from a file, or the one that starts at the initial state. -/
def openSearch (files : Files) (p : Problem) : Option String → Except Error (Search × String)
  | none => .ok (.start p.initialState, "")
  | some path => do
    let text ← files.read? path
    let document ← (Json.read? text.toList).mapError .unreadableFile
    let search ← Search.ofData? document
    return (search, line ("Loaded search from " ++ path ++ " (step " ++ search.step.text ++ ")"))

/-- Plans, and keeps checkpoints under `save`.  Where no checkpoint can be written, planning fails
after the first step. -/
def planAndSave (files : Files) (p : Problem) (request : Request) (strategy : Strategy)
    (search : Search) (save : Option String) : Planning × Files :=
  let planning := p.planWith request strategy search
  match save, planning.checkpoint with
  | some path, some checkpoint =>
    match checkpoint.toData >>= fun document => files.write? path document.print with
    | .ok files => (planning, files)
    | .error error =>
      -- what is left is what one step left, since saving after it failed
      let first := p.planWith { request with maxNodes := search.step.limitOnce } strategy search
      ({ first with answer := .error error }, files)
  | _, _ => (planning, files)

/-- What is printed about an answer, and whether it is a plan. -/
def reportAnswer (p : Problem) (quiet : Bool) : PlanResult → Except Error String
  | .notFound reason nodes bound => (PlanResult.notFound reason nodes bound).report (!quiet)
  | .found plan => do
    let check ← p.simulate (plan.actions.map .action)
    return (← plan.report (!quiet)) ++ line ("Check: " ++ check.message)

/-- Writes a file and says so. -/
def writeAndSay (path : String) (text : Except Error String) (message printed : String)
    (files : Files) :
    Ending :=
  match text >>= files.write? path with
  | .ok files => ⟨.ok 0, printed ++ line message, files⟩
  | .error error => ⟨.error error, printed, files⟩

/-- Continues after a session that went well. -/
def Ending.andThen (ending : Ending) (next : String → Files → Ending) : Ending :=
  match ending.exit with
  | .ok _ => next ending.printed ending.files
  | .error _ => ending

/-- Prints what can be printed, and goes on if nothing failed. -/
def Ending.say (printed : String) (files : Files) : Except Error String → Ending
  | .ok text => ⟨.ok 0, printed ++ text, files⟩
  | .error error => ⟨.error error, printed, files⟩

/-- A search and its history in words, as far as they can be shown. -/
def reportSearch (search : Search) (printed : String) (files : Files) : Ending :=
  match search.report with
  | .error error => ⟨.error error, printed, files⟩
  | .ok summary =>
    match search.reportHistory with
    | (history, none) => ⟨.ok 0, printed ++ summary ++ history, files⟩
    | (history, some error) => ⟨.error error, printed ++ summary ++ history, files⟩

/-- A path that was given and is not empty. -/
def given (path : Option String) : Option String :=
  path.filter (· ≠ "")

/-- Writes a file where a path is given. -/
def writeGiven (path : Option String) (text : Except Error String) (message printed : String)
    (files : Files) : Ending :=
  match given path with
  | none => ⟨.ok 0, printed, files⟩
  | some path => writeAndSay path text (message ++ path) printed files

/-- What a session ends with where nothing fails. -/
def exitCode : Option PlanResult → Int
  | some (.found _) => 0
  | _ => 1

/-- The end of a session: the files that were asked for, and the exit code. -/
def close (options : Options) (answer : Option PlanResult) (search : Search) (printed : String)
    (files : Files) : Ending :=
  (writeGiven options.dot search.dot "Graph exported to " printed files).andThen
    fun printed files =>
  (writeGiven options.save (search.toData.map Json.print) "Search saved to " printed files).andThen
    fun printed files => ⟨.ok (exitCode answer), printed, files⟩

/-- A session's search, its history and its answer in words, then the files that were asked for. -/
def conclude (options : Options) (p : Problem) (answer : Option PlanResult) (search : Search)
    (printed : String) (files : Files) : Ending :=
  (if options.quiet then ⟨.ok 0, printed, files⟩ else reportSearch search printed files).andThen
    fun printed files =>
  (Ending.say printed files (answer.elim (.ok "") (reportAnswer p options.quiet))).andThen
    (close options answer search)

/-! ## Solving -/

/-- What a session asks the planner for. -/
def Options.request (options : Options) (entry : CatalogueEntry) : Request :=
  ⟨options.bound.getD entry.bound, options.maxNodes,
    options.maxSeconds.elim (.ok false) TimeLimit.isOver, !options.quiet⟩

/-- The strategy of a session. -/
def Options.chosen (options : Options) (entry : CatalogueEntry) (p : Problem)
    (lines : List String) :
    Strategy :=
  (options.strategy.getD entry.strategy).strategy p lines

/-- Solves a problem by searching. -/
def solve (options : Options) (entry : CatalogueEntry) (p : Problem) (lines : List String)
    (printed : String) (files : Files) : Ending :=
  match openSearch files p (given options.load) with
  | .error error => ⟨.error error, printed, files⟩
  | .ok (search, opened) =>
    let (planning, files) :=
      planAndSave files p (options.request entry) (options.chosen entry p lines)
      search (given options.save)
    let printed := printed ++ opened ++ planning.printed
    match planning.answer with
    | .ok result => conclude options p (some result) planning.search printed files
    | .error .interrupted =>
      conclude options p none planning.search (printed ++ line "\nInterrupted.") files
    | .error error => ⟨.error error, printed, files⟩

/-- Asks a language model, of which there is none. -/
def consult (printed : String) (files : Files) : Ending :=
  ⟨.ok 1, printed ++ line "pip install anthropic" ++ reportNoPlan NoPlanReason.noClient.text, files⟩

/-- Runs a command line. -/
def run (files : Files) (lines words : List String) : Ending :=
  match parse words with
  | .error .help => ⟨.ok 0, "", files⟩
  | .error .invalid => ⟨.ok 2, "", files⟩
  | .ok options =>
    match options.problem with
    | none => ⟨.error .wrongType, "", files⟩
    | some name =>
      match CatalogueEntry.ofName? name with
      | none => ⟨.ok 2, "", files⟩
      | some entry =>
        match entry.problem with
        | .error error => ⟨.error error, "", files⟩
        | .ok p =>
          match options.ask with
          | some words => ask files p words options.quiet
          | none =>
            let printed := line ("Problem: " ++ name) ++ if options.quiet then "" else p.report
            if entry.asksModel then consult printed files
            else solve options entry p lines printed files

end HornPlan.CommandLine
