import HornPlan.CommandLine.Session
import HornPlan.Proofs.Resumption

/-!
# What it means that a session ends with zero

A session that solves a problem prints the plan it comes to, then what a simulation finds out about
the plan, and ends with zero.  The simulation has no part in how it ends: the search may come from a
file, and a file may hold a solution of another problem, or paths that lead nowhere
(`not_forall_accepted`).

An honest search (`HonestSearches`) that begins at the initial state of the problem has a plan that
is accepted (`Honest.accepted`).  So a session that begins afresh, or with what was saved of a
search for the same problem, ends with zero only if the plan passes (`accepted_of_exit_eq_zero`).
-/

namespace HornPlan

/-- The plan of an honest search that begins at the initial state of the problem is accepted. -/
theorem Search.Honest.accepted {p : Problem} {search : Search} (h : Honest p p.initialState search)
    (hp : p.Proper) {request : Request} {strategy : Strategy} {plan : Plan}
    (hfound : (p.planWith request strategy search).answer = .ok (.found plan)) :
    ∃ report, p.simulate (plan.actions.map .action) = .ok report ∧ report.accepted := by
  rcases Problem.planWith_cases hfound with ⟨hanswer, -, -⟩ | ⟨run, hrun, -, -, hresult⟩
  · cases hanswer
  · have hhonest : Honest p p.initialState run.search := hrun ▸ h.runFor
    obtain ⟨node, hsolution, hplan⟩ := exists_of_result_eq_found hresult
    obtain ⟨hleads, hreaches⟩ := hhonest.solution node hsolution
    rw [hhonest.initialState] at hplan
    obtain ⟨ss, hss, hplan⟩ := bind_eq_ok.mp hplan
    obtain rfl := Except.ok.inj hplan
    exact (hp.solves_of_leads hleads le_rfl hreaches hss rfl rfl).accepted

theorem CatalogueEntry.proper {name : String} {entry : CatalogueEntry} {p : Problem}
    (hentry : CatalogueEntry.ofName? name = some entry) (hp : entry.problem = .ok p) :
    p.Proper := by
  have hcatalogue :
      catalogue.all fun entry => entry.problem.toOption.map Problem.isProper == some true := by
    decide +kernel
  have hproper := List.all_eq_true.mp hcatalogue entry (List.mem_of_find?_eq_some hentry)
  rw [hp] at hproper
  exact Problem.proper_of_isProper (Option.some.inj (eq_of_beq hproper))

namespace CommandLine

variable {files : Files} {lines words : List String} {options : Options} {entry : CatalogueEntry}
  {p : Problem} {search : Search} {printed : String} {code : Int}

/-! ## One ending after the other -/

namespace Ending

variable {ending : Ending} {next : String → Files → Ending}

/-- What was printed begins with a text. -/
def Extends (ending : Ending) (printed : String) : Prop :=
  ∃ after, ending.printed = printed ++ after

theorem extends_mk (exit : Except Error Int) (printed : String) (files : Files) :
    (Ending.mk exit printed files).Extends printed :=
  ⟨"", String.append_empty.symm⟩

theorem andThen_of_exit (h : (ending.andThen next).exit = .ok code) :
    (∃ earlier, ending.exit = .ok earlier) ∧
    ending.andThen next = next ending.printed ending.files := by
  rw [andThen] at h ⊢
  cases hexit : ending.exit with
  | ok earlier => exact ⟨⟨earlier, rfl⟩, rfl⟩
  | error error =>
      rw [hexit] at h
      dsimp only at h
      cases hexit.symm.trans h

theorem Extends.andThen (h : ending.Extends printed)
    (hnext : ∀ printed files, (next printed files).Extends printed) :
    (ending.andThen next).Extends printed := by
  rw [Ending.andThen]
  split
  · obtain ⟨between, hbetween⟩ := h
    obtain ⟨after, hafter⟩ := hnext ending.printed ending.files
    exact ⟨between ++ after, by rw [hafter, hbetween, String.append_assoc]⟩
  · exact h

theorem say_of_exit {said : Except Error String} (h : (say printed files said).exit = .ok code) :
    ∃ text, said = .ok text ∧ say printed files said = ⟨.ok 0, printed ++ text, files⟩ := by
  cases said with
  | ok text => exact ⟨text, rfl, rfl⟩
  | error error => cases h

end Ending

theorem extends_writeAndSay (path : String) (text : Except Error String) (message printed : String)
    (files : Files) : (writeAndSay path text message printed files).Extends printed := by
  rw [writeAndSay]
  split
  · exact ⟨_, rfl⟩
  · exact Ending.extends_mk _ _ _

theorem extends_writeGiven (path : Option String) (text : Except Error String)
    (message printed : String) (files : Files) :
    (writeGiven path text message printed files).Extends printed := by
  rw [writeGiven]
  split
  · exact Ending.extends_mk _ _ _
  · exact extends_writeAndSay _ _ _ _ _

/-! ## What a session prints that ends with zero -/

theorem extends_close (answer : Option PlanResult) (printed : String) (files : Files) :
    (close options answer search printed files).Extends printed := by
  refine (extends_writeGiven _ _ _ _ _).andThen fun printed files => ?_
  exact (extends_writeGiven _ _ _ _ _).andThen fun printed files => Ending.extends_mk _ _ _

theorem code_of_close {answer : Option PlanResult}
    (h : (close options answer search printed files).exit = .ok code) : code = exitCode answer := by
  rw [close] at h
  rw [(Ending.andThen_of_exit h).2] at h
  rw [(Ending.andThen_of_exit h).2] at h
  exact (Except.ok.inj h).symm

/-- What is printed about a plan: the plan, and what a simulation finds out about it. -/
structure Reports (p : Problem) (quiet : Bool) (plan : Plan) (check : SimulationReport)
    (text : String) : Prop where
  simulates : p.simulate (plan.actions.map .action) = .ok check
  shows : ∃ shown, plan.report (!quiet) = .ok shown ∧
    text = shown ++ line ("Check: " ++ check.message)

theorem reportAnswer_found {quiet : Bool} {plan : Plan} {text : String} :
    reportAnswer p quiet (.found plan) = .ok text ↔ ∃ check, Reports p quiet plan check text := by
  rw [reportAnswer]
  constructor
  · intro h
    obtain ⟨check, hcheck, h⟩ := bind_eq_ok.mp h
    obtain ⟨shown, hshown, h⟩ := bind_eq_ok.mp h
    exact ⟨check, hcheck, shown, hshown, (Except.ok.inj h).symm⟩
  · rintro ⟨check, hcheck, shown, hshown, rfl⟩
    rw [hcheck, ok_bind, hshown]
    rfl

/-- **A session concludes with zero only after it has printed a plan and what the simulation found
out.** -/
theorem reports_of_conclude {answer : Option PlanResult}
    (h : (conclude options p answer search printed files).exit = .ok 0) :
    ∃ plan check text, answer = some (.found plan) ∧ Reports p options.quiet plan check text ∧
      ∃ before after,
      (conclude options p answer search printed files).printed = before ++ text ++ after := by
  rw [conclude] at h ⊢
  generalize (if options.quiet then (⟨.ok 0, printed, files⟩ : Ending)
    else reportSearch search printed files) = start at h ⊢
  have hsaying := (Ending.andThen_of_exit h).2
  rw [hsaying] at h ⊢
  obtain ⟨⟨_, hsaid⟩, hclose⟩ := Ending.andThen_of_exit h
  obtain ⟨text, htext, hsay⟩ := Ending.say_of_exit hsaid
  rw [hclose, hsay] at h ⊢
  obtain ⟨after, hafter⟩ : (close options answer search (start.printed ++ text) start.files).Extends
      (start.printed ++ text) := extends_close answer _ _
  have hcode := code_of_close h
  rcases answer with _ | plan | _
  · cases hcode
  · obtain ⟨check, hreports⟩ := reportAnswer_found.mp htext
    exact ⟨plan, check, text, rfl, hreports, start.printed, after, hafter⟩
  · cases hcode

/-! ## Sessions that search -/

/-- The planning of a session that begins with a search. -/
def Options.planning (options : Options) (entry : CatalogueEntry) (p : Problem)
    (lines : List String) (search : Search) : Planning :=
  p.planWith (options.request entry) (options.chosen entry p lines) search

theorem answer_of_planAndSave {request : Request} {strategy : Strategy} {save : Option String}
    {result : PlanResult}
    (h : (planAndSave files p request strategy search save).1.answer = .ok result) :
    (p.planWith request strategy search).answer = .ok result := by
  unfold planAndSave at h
  dsimp only at h
  split at h
  · split at h
    · exact h
    · cases h
  · exact h

theorem solve_of_answer {opened : String}
    (hopened : openSearch files p (given options.load) = .ok (search, opened)) {result : PlanResult}
    (hresult : (planAndSave files p (options.request entry) (options.chosen entry p lines)
      search (given options.save)).1.answer = .ok result) (printed : String) : ∃ left text kept,
      solve options entry p lines printed files =
      conclude options p (some result) left text kept := by
  rw [solve, hopened]
  dsimp only
  rw [hresult]
  exact ⟨_, _, _, rfl⟩

/-- A session that solves a problem and ends with zero concludes with the answer of the planner. -/
theorem conclude_of_solve (h : (solve options entry p lines printed files).exit = .ok 0) :
    ∃ search opened result left text kept,
    openSearch files p (given options.load) = .ok (search, opened) ∧
      (options.planning entry p lines search).answer = .ok result ∧
      solve options entry p lines printed files =
      conclude options p (some result) left text kept := by
  unfold solve at h
  split at h
  · cases h
  · rename_i search opened hopened
    dsimp only at h
    split at h
    · rename_i result hresult
      obtain ⟨left, text, kept, heq⟩ := solve_of_answer hopened hresult printed
      exact ⟨search, opened, result, left, text, kept, hopened, answer_of_planAndSave hresult, heq⟩
    · obtain ⟨_, _, _, hnone, -⟩ := reports_of_conclude h
      cases hnone
    · cases h

/-- A command line asks for a problem of the catalogue to be solved by searching, which begins with
a search. -/
structure Begins (files : Files) (words : List String) (options : Options) (entry : CatalogueEntry)
    (p : Problem) (search : Search) : Prop where
  parsed : parse words = .ok options
  unasked : options.ask = none
  named : options.problem = some entry.name
  listed : CatalogueEntry.ofName? entry.name = some entry
  searches : entry.asksModel = false
  problem : entry.problem = .ok p
  opened : ∃ text, openSearch files p (given options.load) = .ok (search, text)

theorem Begins.run_eq (h : Begins files words options entry p search) (lines : List String) :
    run files lines words = solve options entry p lines
      (line ("Problem: " ++ entry.name) ++ if options.quiet then "" else p.report) files := by
  simp [run, h.parsed, h.named, h.listed, h.problem, h.unasked, h.searches]

/-- A session that searches and ends with zero concludes with the answer of the planner. -/
theorem conclude_of_run (hparse : parse words = .ok options) (hask : options.ask = none)
    (h : (run files lines words).exit = .ok 0) :
    ∃ entry p search result left text kept, Begins files words options entry p search ∧
      (options.planning entry p lines search).answer = .ok result ∧
      run files lines words = conclude options p (some result) left text kept := by
  rw [run, hparse] at h
  dsimp only at h
  split at h
  · cases h
  · rename_i name hname
    split at h
    · cases h
    · rename_i entry hentry
      obtain rfl : entry.name = name := by simpa using List.find?_some hentry
      split at h
      · cases h
      · rename_i p hp
        rw [hask] at h
        dsimp only at h
        split at h
        · cases h
        · rename_i hsearches
          obtain ⟨search, opened, result, left, text, kept, hopened, hresult, hsolve⟩ :=
            conclude_of_solve h
          rw [Bool.not_eq_true] at hsearches
          have hbegins : Begins files words options entry p search :=
            ⟨hparse, hask, hname, hentry, hsearches, hp, opened, hopened⟩
          exact ⟨entry, p, search, result, left, text, kept, hbegins, hresult,
            (hbegins.run_eq lines).trans hsolve⟩

/-- A quiet session that writes no files ends with zero where the planner finds a plan that can be
shown and simulated, whatever the simulation finds out. -/
theorem Begins.exit_eq_zero (h : Begins files words options entry p search)
    (hquiet : options.quiet = true) (hdot : options.dot = none) (hsave : options.save = none)
    {plan : Plan} (hfound : (options.planning entry p lines search).answer = .ok (.found plan))
    {check : SimulationReport} {text : String} (hreports : Reports p true plan check text) :
    (run files lines words).exit = .ok 0 := by
  have hanswer : reportAnswer p true (.found plan) = .ok text :=
    reportAnswer_found.mpr ⟨check, hreports⟩
  have hclose : ∀ left printed files,
      (close options (some (.found plan)) left printed files).exit = .ok 0 := by
    intro left printed files
    rw [close, hdot, hsave]
    rfl
  have hconclude : ∀ left printed files,
      (conclude options p (some (.found plan)) left printed files).exit = .ok 0 := by
    intro left printed files
    rw [conclude, hquiet, Option.elim_some, hanswer]
    exact hclose _ _ _
  have hplan : (planAndSave files p (options.request entry) (options.chosen entry p lines) search
      (given options.save)).1.answer = .ok (.found plan) := by
    rw [hsave]
    exact hfound
  obtain ⟨opened, hopened⟩ := h.opened
  obtain ⟨left, text, kept, hsolve⟩ := solve_of_answer hopened hplan
    (line ("Problem: " ++ entry.name) ++ if options.quiet then "" else p.report)
  rw [h.run_eq, hsolve]
  exact hconclude left text kept

/-! ## What a file has to hold -/

theorem load?_of_openSearch {path text opened : String} (hread : files.read? path = .ok text)
    (h : openSearch files p (some path) = .ok (search, opened)) :
    Search.load? text = .ok search := by
  rw [openSearch, hread, ok_bind] at h
  obtain ⟨document, hdocument, h⟩ := bind_eq_ok.mp h
  obtain ⟨loaded, hloaded, h⟩ := bind_eq_ok.mp h
  obtain ⟨rfl, -⟩ := Prod.mk.inj (Except.ok.inj h)
  rw [Search.load?, hdocument]
  exact hloaded

/-- A text is that of a saved search which begins where a problem does and which the problem can
come to.  The document in it is plain, so that it is read as it was printed. -/
def IsSave (p : Problem) (text : String) : Prop :=
  ∃ search document, Search.Reachable p search ∧ search.initialState = p.initialState ∧
    search.toData = .ok document ∧ document.isPlain ∧ text = document.print

theorem honest_of_isSave (hp : p.Proper) {text : String} (h : IsSave p text)
    (hload : Search.load? text = .ok search) : search.Honest p p.initialState := by
  obtain ⟨saved, document, hreachable, hinitial, hdocument, hplain, rfl⟩ := h
  have hread :
      ∀ written, saved.toData = .ok written → Json.read? written.print.toList = .ok written := by
    intro written hwritten
    obtain rfl := Except.ok.inj (hdocument.symm.trans hwritten)
    exact Json.read?_print hplain
  obtain ⟨text, hsave, hloaded⟩ := (hreachable.storable hp).exists_save .byCode hread
  rw [Enumeration.save] at hsave
  rw [show Enumeration.byCode.searchData saved = .ok document from hdocument] at hsave
  obtain rfl := Except.ok.inj hsave
  obtain rfl := Except.ok.inj (hload.symm.trans hloaded)
  exact hinitial ▸ hreachable.honest

/-! ## Sessions about a cake -/

/-- The entry of the cake in the catalogue. -/
def cakeEntry : CatalogueEntry :=
  ⟨"have_cake", Worlds.haveCake, 3, .breadthFirst, false⟩

/-- A quiet session about the cake, which may begin with what is loaded. -/
def cakeOptions (load : Option String) : Options :=
  { Options.default with problem := some "have_cake", load := load, quiet := true }

theorem ofName?_haveCake : CatalogueEntry.ofName? "have_cake" = some cakeEntry := by rfl

theorem begins_haveCake (hp : Worlds.haveCake = .ok p) :
    Begins .empty ["--problem", "have_cake", "--quiet"]
      (cakeOptions none) cakeEntry p (.start p.initialState) := by
  have hwords : readWords? ["--problem", "have_cake", "--quiet"]
      = some [.option .problem none, .value "have_cake", .option .quiet none] := by rfl
  refine ⟨?_, rfl, rfl, ofName?_haveCake, rfl, hp, "", rfl⟩
  rw [parse, hwords]
  simp [takeOptions, setValue?, ofName?_haveCake, cakeOptions, Options.default]

/-- A single file. -/
def fileWith (text : String) : Files :=
  ⟨[], [(⟨.above 0, ["search.json"]⟩, text)]⟩

theorem split_search : Files.split "search.json" = .ok (.working, ["search.json"]) := by
  have hnames : "search.json".splitOn "/" = ["search.json"] := by
    rw [String.splitOn]
    -- once for every character and once for the end
    iterate 12 rw [String.splitOnAux]
    decide +kernel
  have hcharacter : ("search.json".toList.contains '\x00') = false := by decide +kernel
  have hlength : ¬Files.maxPath < "search.json".utf8ByteSize := by decide +kernel
  have hrelative : "search.json".startsWith "/" = false := by decide +kernel
  rw [Files.split, hcharacter, if_neg Bool.false_ne_true, if_neg hlength, hrelative, hnames]
  rfl

theorem read?_fileWith (text : String) : (fileWith text).read? "search.json" = .ok text := by
  rw [Files.read?, Files.find, split_search]
  rfl

theorem begins_fileWith (hp : Worlds.haveCake = .ok p) {text : String}
    (hload : Search.load? text = .ok search) :
    Begins (fileWith text) ["--problem", "have_cake", "--load", "search.json", "--quiet"]
      (cakeOptions (some "search.json")) cakeEntry p
      search := by
  have hwords : readWords? ["--problem", "have_cake", "--load", "search.json", "--quiet"]
      = some [.option .problem none, .value "have_cake", .option .load none, .value "search.json",
        .option .quiet none] := by
    rfl
  refine ⟨?_, rfl, rfl, ofName?_haveCake, rfl, hp, ?_⟩
  · rw [parse, hwords]
    simp [takeOptions, setValue?, ofName?_haveCake, cakeOptions, Options.default]
  · obtain ⟨document, hdocument, hsearch⟩ := bind_eq_ok.mp hload
    refine ⟨line ("Loaded search from search.json (step " ++ search.step.text ++ ")"), ?_⟩
    change openSearch _ _ (some "search.json") = _
    rw [openSearch, read?_fileWith, ok_bind, hdocument, ok_bind, hsearch, ok_bind]
    rfl

/-- Whether a plan for the cake is accepted, where one is found that can be shown and simulated. -/
def cakeVerdict? (load : Option String) (search : Problem → Search) : Option Bool :=
  Worlds.haveCake.toOption.bind fun p =>
    ((cakeOptions load).planning cakeEntry p [] (search p)).answer.toOption.bind fun answer =>
      answer.plan?.bind fun plan => (plan.report false).toOption.bind fun _ =>
        (p.simulate (plan.actions.map .action)).toOption.map SimulationReport.accepted

theorem exists_of_cakeVerdict? {load : Option String} {search : Problem → Search} {accepted : Bool}
    (h : cakeVerdict? load search = some accepted) : ∃ p plan check text, Worlds.haveCake = .ok p ∧
      ((cakeOptions load).planning cakeEntry p [] (search p)).answer = .ok (.found plan) ∧
      Reports p true plan check text ∧ check.accepted = accepted := by
  obtain ⟨p, hcake, h⟩ := Option.bind_eq_some_iff.mp h
  obtain ⟨answer, hanswer, h⟩ := Option.bind_eq_some_iff.mp h
  obtain ⟨plan, hplan, h⟩ := Option.bind_eq_some_iff.mp h
  obtain ⟨shown, hshown, h⟩ := Option.bind_eq_some_iff.mp h
  obtain ⟨check, hcheck, haccepted⟩ := Option.map_eq_some_iff.mp h
  have hfound :
      ((cakeOptions load).planning cakeEntry p [] (search p)).answer = .ok (.found plan) := by
    refine PlanResult.eq_found_of_plan?_eq ?_
    rw [hanswer]
    exact hplan
  exact ⟨p, plan, check, _, eq_ok_of_toOption hcake, hfound,
    ⟨eq_ok_of_toOption hcheck, shown, eq_ok_of_toOption hshown, rfl⟩, haccepted⟩

/-- A search that begins without a cake is loaded, and its plan is to bake one first. -/
theorem exists_rejected : ∃ p files plan check text, Worlds.haveCake = .ok p ∧
    Begins files ["--problem", "have_cake", "--load", "search.json", "--quiet"]
      (cakeOptions (some "search.json")) cakeEntry p
      (.start .empty) ∧
    ((cakeOptions (some "search.json")).planning cakeEntry p [] (.start .empty)).answer =
      .ok (.found plan) ∧
    Reports p true plan check text ∧ check.accepted = false := by
  have hplain : (Search.start .empty).toData.toOption.map Json.isPlain = some true := by
    decide +kernel
  have hverdict : cakeVerdict? (some "search.json") (fun _ => .start .empty) = some false := by
    decide +kernel
  obtain ⟨p, plan, check, text, hcake, hfound, hreports, haccepted⟩ :=
    exists_of_cakeVerdict? hverdict
  have hread : ∀ document, (Search.start .empty).toData = .ok document →
      Json.read? document.print.toList = .ok document := by
    intro document hdocument
    rw [hdocument] at hplain
    exact Json.read?_print (Option.some.inj hplain)
  obtain ⟨saved, -, hload⟩ := (Search.storable_start State.proper_empty).exists_save .byCode hread
  exact ⟨p, fileWith saved, plan, check, text, hcake, begins_fileWith hcake hload, hfound,
    hreports, haccepted⟩

/-! ## Ending with zero -/

/-- **A session that searches and ends with zero has printed a plan and what a simulation found out
about it.**  The plan is accepted where the search that the session began with is honest.  It is
that where the session began afresh, and where it began with what was saved of a search for the same
problem. -/
theorem accepted_of_exit_eq_zero (hparse : parse words = .ok options) (hask : options.ask = none)
    (h : (run files lines words).exit = .ok 0) :
    ∃ entry p search plan check text, Begins files words options entry p search ∧
      (options.planning entry p lines search).answer = .ok (.found plan) ∧
      Reports p options.quiet plan check text ∧
      (∃ before after, (run files lines words).printed = before ++ text ++ after) ∧
      (search.Honest p p.initialState → check.accepted) ∧
      (given options.load = none → check.accepted) ∧
      ∀ path saved, given options.load = some path → files.read? path = .ok saved → IsSave p saved →
        check.accepted := by
  obtain ⟨entry, p, search, result, left, printed, kept, hbegins, hresult, hrun⟩ :=
    conclude_of_run hparse hask h
  rw [hrun] at h ⊢
  obtain ⟨plan, check, text, hfound, hreports, hprinted⟩ := reports_of_conclude h
  obtain rfl := Option.some.inj hfound
  have hp : p.Proper := CatalogueEntry.proper hbegins.listed hbegins.problem
  obtain ⟨opened, hopened⟩ := hbegins.opened
  have haccepted : search.Honest p p.initialState → check.accepted := by
    intro hhonest
    obtain ⟨report, hreport, haccepted⟩ := hhonest.accepted hp hresult
    obtain rfl := Except.ok.inj (hreports.simulates.symm.trans hreport)
    exact haccepted
  refine ⟨entry, p, search, plan, check, text, hbegins, hresult, hreports, hprinted,
    haccepted, ?_, ?_⟩
  · -- a session that loads nothing begins with the initial state of its problem
    intro hload
    rw [hload] at hopened
    obtain ⟨rfl, -⟩ := Prod.mk.inj (Except.ok.inj hopened)
    exact haccepted (Search.honest_start p p.initialState)
  · -- what a save holds is loaded again, and it was honest when it was saved
    intro path saved hload hread hsave
    rw [hload] at hopened
    exact haccepted (honest_of_isSave hp hsave (load?_of_openSearch hread hopened))

/-- A session that begins afresh finds that the cake is to be eaten and baked again. -/
theorem accepted_of_exit_eq_zero_haveCake : ∃ entry p search plan check text,
    parse ["--problem", "have_cake", "--quiet"] = .ok (cakeOptions none) ∧
    (cakeOptions none).ask = none ∧
    (run .empty [] ["--problem", "have_cake", "--quiet"]).exit = .ok 0 ∧
    Begins .empty ["--problem", "have_cake", "--quiet"] (cakeOptions none) entry p search ∧
    Reports p true plan check text ∧
    (∃ before after,
      (run .empty [] ["--problem", "have_cake", "--quiet"]).printed = before ++ text ++ after) ∧
    check.accepted := by
  have hverdict : cakeVerdict? none (fun p => .start p.initialState) = some true := by
    decide +kernel
  obtain ⟨p, plan, check, text, hcake, hfound, hreports, -⟩ := exists_of_cakeVerdict? hverdict
  have hbegins := begins_haveCake hcake
  have hexit : (run .empty [] ["--problem", "have_cake", "--quiet"]).exit = .ok 0 :=
    hbegins.exit_eq_zero rfl rfl rfl hfound hreports
  obtain ⟨entry, p', search, plan', check', text', hbegins', -, hreports', hprinted, -,
      hfresh, -⟩ :=
    accepted_of_exit_eq_zero hbegins.parsed rfl hexit
  exact ⟨entry, p', search, plan', check', text', hbegins.parsed, rfl, hexit, hbegins',
    hreports', hprinted, hfresh rfl⟩

/-- A session may end with zero although the plan it has printed is not accepted. -/
theorem not_forall_accepted : ¬∀ (files : Files) (lines words : List String) (options : Options)
    (entry : CatalogueEntry) (p : Problem) (search : Search) (plan : Plan)
    (check : SimulationReport) (text : String),
    Begins files words options entry p search →
    (options.planning entry p lines search).answer = .ok (.found plan) →
    Reports p options.quiet plan check text →
    (run files lines words).exit = .ok 0 → check.accepted := by
  intro h
  obtain ⟨p, files, plan, check, text, -, hbegins, hfound, hreports, haccepted⟩ := exists_rejected
  have hexit := hbegins.exit_eq_zero rfl rfl rfl hfound hreports
  have htrue := h files [] _ _ _ p _ plan check text hbegins hfound hreports hexit
  rw [haccepted] at htrue
  cases htrue

end CommandLine

end HornPlan
