import HornPlan.Catalogue
import HornPlan.Text.Decimal

/-!
# Options

A command line is a list of words.  A word that starts with a dash names an option, in full or by a
start that no other option shares; the value of an option is the next word or follows an equals
sign.  A number below zero is a value and not an option.  There are no words besides options and
their values.

Two dashes end the options.  After an equals sign they stand for no value at all: a query, a
strategy or a file is then as good as not asked for, but a problem or a number is missed where it is
needed.

Options are taken one after the other, and of one that is given twice the later counts.  The first
bad value makes the command line invalid; a request for help before it is granted.
-/

namespace HornPlan.CommandLine

/-- A limit on the time of a search: a number of seconds, or nothing in the place of one. -/
inductive TimeLimit
  | seconds (limit : Text.Seconds)
  | missing

/-- The time is over before anything has been done. -/
def TimeLimit.isOver : TimeLimit → Except Error Bool
  | seconds limit => .ok limit.spent
  | missing => .error .wrongType

/-- What the command line asks for.  There is no problem if its option was given without a value. -/
structure Options where
  problem : Option String
  bound : Option Count
  maxNodes : Count
  maxSeconds : Option TimeLimit
  strategy : Option StrategyName
  ask : Option (List String)
  save : Option String
  load : Option String
  dot : Option String
  quiet : Bool

/-- What is asked for without options. -/
def Options.default : Options :=
  ⟨some "romania", none, 10000, none, none, none, none, none, none, false⟩

/-- The options. -/
inductive OptionName
  | help
  | problem
  | bound
  | maxNodes
  | maxSeconds
  | strategy
  | ask
  | save
  | load
  | dot
  | quiet
  deriving DecidableEq

/-- The words for the options. -/
def optionWords : List (String × OptionName) :=
  [("-h", .help), ("--help", .help), ("--problem", .problem), ("--bound", .bound),
   ("--max-nodes", .maxNodes), ("--max-seconds", .maxSeconds), ("--strategy", .strategy),
   ("--ask", .ask), ("--save", .save), ("--load", .load), ("--dot", .dot), ("--quiet", .quiet)]

/-- Why a command line stops short of options. -/
inductive Refusal
  | invalid
  | help
  deriving DecidableEq

/-! ## Words -/

/-- A word as it stands on a command line. -/
inductive Word
  /-- A value. -/
  | value (text : String)
  /-- An option, with the value written after its equals sign. -/
  | option (name : OptionName) (given : Option String)
  /-- The short word for help, with letters after it. -/
  | shortHelp (letters : String)
  /-- The word that ends the options. -/
  | separator
  /-- A word that looks like an option and is none. -/
  | unknown

/-- A number below zero: a dash and digits, or digits around a point with some after it.  The end of
a line may follow. -/
def isNegativeNumber (word : List Char) : Bool :=
  let isDigit (c : Char) : Bool := (Text.decimalValue? c).isSome
  let isEnd (rest : List Char) : Bool := rest = [] || rest = ['\n']
  match word with
  | '-' :: rest =>
    let digits := rest.takeWhile isDigit
    match rest.dropWhile isDigit with
    | '.' :: fraction => (fraction.head?.any isDigit) && isEnd (fraction.dropWhile isDigit)
    | others => !digits.isEmpty && isEnd others
  | _ => false

/-- Splits a word at its first equals sign. -/
def splitEquals (word : String) : String × Option String :=
  let chars := word.toList
  match chars.dropWhile (· ≠ '=') with
  | [] => (word, none)
  | _ :: given => (String.ofList (chars.takeWhile (· ≠ '=')), some (String.ofList given))

/-- The options whose words start with a word, with the value after an equals sign. -/
def optionsStartingWith (word : String) : List (OptionName × Option String) :=
  let (start, given) := splitEquals word
  (optionWords.filter fun entry => start.toList.isPrefixOf entry.1.toList).map fun entry =>
    (entry.2, given)

/-- What a word may abbreviate. -/
def abbreviated (word : String) : List Word :=
  match word.toList with
  | '-' :: '-' :: _ => (optionsStartingWith word).map fun (name, given) => .option name given
  | '-' :: 'h' :: rest => [.shortHelp (String.ofList rest)]
  | _ => []

/-- Reads a word, unless it abbreviates several options. -/
def readWord? (word : String) : Option Word :=
  match word.toList with
  | '-' :: _ :: _ =>
    let (start, given) := splitEquals word
    match optionWords.lookup word, optionWords.lookup start with
    | some name, _ => some (.option name none)
    | none, some name =>
      if start = "-h" then some (.shortHelp (given.getD ""))
      else some (.option name given)
    | none, none =>
      match abbreviated word with
      -- no option: a number below zero and a phrase are values all the same
      | [] =>
        if isNegativeNumber word.toList || word.toList.contains ' ' then some (.value word)
        else some .unknown
      | [option] => some option
      | _ => none
  | _ => some (.value word)

/-- Reads all words.  After the separator every word is a value. -/
def readWords? : List String → Option (List Word)
  | [] => some []
  | word :: rest =>
    if word = "--" then some (.separator :: rest.map .value)
    else do
      let first ← readWord? word
      let others ← readWords? rest
      return first :: others

/-! ## Values -/

/-- Sets an option that takes one value. -/
def setValue? (options : Options) (name : OptionName) (text : String) : Option Options :=
  match name with
  | .problem =>
    if (CatalogueEntry.ofName? text).isSome then some { options with problem := some text }
    else none
  | .bound => (Text.integer? text).map fun n => { options with bound := some (.whole n) }
  | .maxNodes => (Text.integer? text).map fun n => { options with maxNodes := .whole n }
  | .maxSeconds => (Text.seconds? text).map fun s =>
    { options with maxSeconds := some (.seconds s) }
  | .strategy =>
    (StrategyName.all.find? fun strategy => strategy.text = text).map fun strategy =>
      { options with strategy := some strategy }
  | .ask => some { options with ask := some [text] }
  | .save => some { options with save := some text }
  | .load => some { options with load := some text }
  | .dot => some { options with dot := some text }
  | .help | .quiet => none

/-- Leaves an option that takes values without any. -/
def withoutValue? (options : Options) : OptionName → Option Options
  | .problem => some { options with problem := none }
  | .bound => some { options with bound := some .missing }
  | .maxNodes => some { options with maxNodes := .missing }
  | .maxSeconds => some { options with maxSeconds := some .missing }
  | .strategy => some { options with strategy := none }
  | .ask => some { options with ask := none }
  | .save => some { options with save := none }
  | .load => some { options with load := none }
  | .dot => some { options with dot := none }
  | .help | .quiet => none

/-- Sets an option to what is written after its equals sign. -/
def setGiven? (options : Options) (name : OptionName) (given : String) : Option Options :=
  if given = "--" then withoutValue? options name else setValue? options name given

/-- Letters after `-h` ask for help when each of them asks for it again. -/
def grantsHelp (letters : String) : Bool :=
  letters ≠ "" && letters.toList.all (· = 'h')

/-- The values at the start of a list of words, and the other words. -/
def leadingValues : List Word → List String × List Word
  | .value text :: rest => ((leadingValues rest).map (text :: ·) id)
  | words => ([], words)

theorem length_leadingValues (words : List Word) :
    (leadingValues words).2.length ≤ words.length := by
  induction words with
  | nil => exact Nat.le_refl _
  | cons word rest ih =>
    cases word with
    | value text => exact Nat.le_succ_of_le ih
    | option name given => exact Nat.le_refl _
    | shortHelp letters => exact Nat.le_refl _
    | separator => exact Nat.le_refl _
    | unknown => exact Nat.le_refl _

/-- Takes the options one after the other.  Words that are neither options nor values of one are
passed over, and make the command line invalid in the end. -/
def takeOptions (options : Options) (stray : Bool) : List Word → Except Refusal Options
  | [] => if stray then .error .invalid else .ok options
  | .option .help none :: _ => .error .help
  | .shortHelp letters :: _ => .error (if grantsHelp letters then .help else .invalid)
  | .option .quiet none :: rest => takeOptions { options with quiet := true } stray rest
  -- the only option that takes more than one value, and all that follow
  | .option .ask none :: rest =>
    match h : leadingValues rest with
    | ([], _) => .error .invalid
    | (words, others) =>
      have : others.length ≤ rest.length := by
        have := length_leadingValues rest
        rw [h] at this
        exact this
      takeOptions { options with ask := some words } stray others
  | .option name (some text) :: rest =>
    match setGiven? options name text with
    | some options => takeOptions options stray rest
    | none => .error .invalid
  | .option name none :: .value text :: rest =>
    match setValue? options name text with
    | some options => takeOptions options stray rest
    | none => .error .invalid
  | .option _ none :: _ => .error .invalid
  | _ :: rest => takeOptions options true rest
termination_by words => words.length
decreasing_by all_goals simp only [List.length_cons]; omega

/-- Reads a command line. -/
def parse (words : List String) : Except Refusal Options :=
  match readWords? words with
  | some words => takeOptions .default false words
  | none => .error .invalid

end HornPlan.CommandLine
