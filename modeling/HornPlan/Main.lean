import HornPlan.CommandLine.Session

/-!
# The program

Looks up the directories on the paths of a command line, reads the file that a search is loaded from
and, for an interactive search, the lines that a person types; runs the command line; prints, and
writes the files that the session left behind.
-/

open HornPlan

/-- The lines of standard input. -/
partial def inputLines (input : IO.FS.Stream) (lines : List String) : IO (List String) := do
  let text ← input.getLine
  if text.isEmpty then return lines.reverse
  else inputLines input ((if text.endsWith "\n" then (text.dropEnd 1).toString else text) :: lines)

/-- Whether a path is that of a directory: one cannot be read as a file. -/
def isDirectory (path : String) : IO Bool := do
  try
    let _ ← IO.FS.readFile path
    return false
  catch
    | .inappropriateType .. => return true
    | _ => return false

/-- Adds the directories that are met when names are followed from a place. -/
def addDirectories (files : Files) (place : Place) : List String → IO Files
  | [] => return files
  | name :: names => do
    if name = "" ∨ name = "." then addDirectories files place names
    else if name = ".." then addDirectories files place.parent names
    else
      let next := place.child name
      if ← isDirectory next.path then
        addDirectories { files with directories := files.directories ++ [next] } next names
      else return files

/-- The directories on a path. -/
def lookAlong (files : Files) (path : String) : IO Files :=
  match Files.split path with
  | .ok (start, names) => addDirectories files start names
  | .error _ => return files

/-- The files that a command line refers to. -/
def filesFor (options : CommandLine.Options) : IO Files := do
  let paths := [options.load, options.save, options.dot].filterMap CommandLine.given
  let files ← paths.foldlM lookAlong Files.empty
  match CommandLine.given options.load with
  | none => return files
  | some path =>
    let text ← try some <$> IO.FS.readFile path catch _ => pure none
    match text.map (files.write? path) with
    | some (.ok files) => return files
    | _ => return files

/-- Runs a command line; an error ends the program with code one. -/
def main (words : List String) : IO UInt32 := do
  let (files, lines) ← match CommandLine.parse words with
    | .error _ => pure (Files.empty, [])
    | .ok options => do
      let files ← filesFor options
      let lines ←
        if options.strategy = some .interactive then inputLines (← IO.getStdin) [] else pure []
      pure (files, lines)
  let ending := CommandLine.run files lines words
  IO.print ending.printed
  for (place, text) in ending.files.texts do
    if files.texts.lookup place ≠ some text then IO.FS.writeFile place.path text
  match ending.exit with
  | .ok code => return code.toNat.toUInt32
  | .error error => do
    IO.eprintln error.message
    return 1
