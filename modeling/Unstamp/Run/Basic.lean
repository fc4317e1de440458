import Unstamp.Cleaner.InTree
import Unstamp.Run.Setup

/-! A run over the files below its roots. One bad file or root does not keep it from the others. -/
namespace Unstamp.Run

structure State where
  tree : FileTree
  claimed : List (Place × Text) := []
  deriving DecidableEq, Repr

/-- Writes the result of one file to its output, or into the file read if it changed. A check
writes nothing. -/
def put (check : Bool) (t : FileTree) (place : Place) (output : Option Place)
    (cleaned : Cleaned) : Except FileFault Unit × FileTree :=
  match check, output with
  | true, _ => (.ok (), t)
  | false, none =>
    if cleaned.changed then
      match Cleaner.store t [] place.path cleaned.after with
      | .error fault => (.error (.clean fault), t)
      | .ok t => (.ok (), t)
    else (.ok (), t)
  | false, some output =>
    match t.makeDirAll [] (Place.path output.dropLast) with
    | (.error fault, t) => (.error (.noDirectory (Place.path output.dropLast) fault), t)
    | (.ok (), t) =>
      match Cleaner.store t [] output.path cleaned.after with
      | .error fault => (.error (.clean fault), t)
      | .ok t => (.ok (), t)

def reportEvents (file : Text) (c : Cleaner) (cleaned : Cleaned) : List Event :=
  let report := Event.report ⟨file, c.name, cleaned.outcome, cleaned.changed⟩
  match cleaned.outcome with
  | .filtered _ (n + 1) => [.notice (.linesLost file (n + 1)), report]
  | _ => [report]

def cleanFile (check : Bool) (t : FileTree) (c : Cleaner) (file : Text) (place : Place)
    (output : Option Place) : FileTree × List Event :=
  match c.load t [] place.path with
  | .error fault => (t, [.notice (.notCleaned file (.clean fault))])
  | .ok cleaned =>
    match put check t place output cleaned with
    | (.error fault, t) => (t, [.notice (.notCleaned file fault)])
    | (.ok (), t) => (t, reportEvents file c cleaned)

/-- The names from a root down to a place. A root that is itself a file is left with its own
name. -/
def namesBelow (root place : Place) : List Name :=
  if place = root then place.getLast?.toList else place.drop root.length

/-- Handles a file of the walk. The first file to ask for an output has it, whatever comes of
cleaning it. -/
def visitFile (cfg : Config) (out : Option Place) (root : Place) (s : State) (place : Place) :
    State × List Event :=
  match Selection.cleanerFor? cfg.charset cfg.policy place.path with
  | none => (s, [])
  | some c =>
    let file := Path.display root.path place.path
    match out with
    | none =>
      let done := cleanFile cfg.check s.tree c file place none
      ({ s with tree := done.1 }, done.2)
    | some out =>
      let output := out ++ namesBelow root place
      match s.claimed.lookup output with
      | some first => (s, [.notice (.clash file (Place.path output) first)])
      | none =>
        let done := cleanFile cfg.check s.tree c file place (some output)
        (⟨done.1, (output, file) :: s.claimed⟩, done.2)

def visit (cfg : Config) (out : Option Place) (root : Place) (s : State) :
    Visit → State × List Event
  | .fault fault => (s, [.notice (.walk fault)])
  | .file place => visitFile cfg out root s place

/-- Handles the items of a walk one after another, and each time asks the walk to go on in the tree
that there is by then. -/
def attend (cfg : Config) (out : Option Place) (root : Place) (s : State) :
    Walking → State × List Event
  | .ended => (s, [])
  | .item v next =>
    let now := visit cfg out root s v
    let later := attend cfg out root now.1 (next now.1.tree)
    (later.1, now.2 ++ later.2)

def visitRoot (walk : Walker) (cfg : Config) (isExcluded : Text → Bool) (out : Option Place)
    (cwd : Place) (s : State) (root : Path) : State × List Event :=
  match s.tree.resolve cwd root with
  | .error fault => (s, [.notice (.rootSkipped root fault)])
  | .ok place =>
    attend cfg out place s (walk (walkOptions cfg isExcluded out place) place s.tree)

def sweep (walk : Walker) (cfg : Config) (isExcluded : Text → Bool) (out : Option Place)
    (cwd : Place) (s : State) : List Path → State × List Event
  | [] => (s, [])
  | r :: rs =>
    let now := visitRoot walk cfg isExcluded out cwd s r
    let later := sweep walk cfg isExcluded out cwd now.1 rs
    (later.1, now.2 ++ later.2)

def runWith (lib : PatternLibrary) (walk : Walker) (cfg : Config) (cwd : Place) (t : FileTree) :
    Result × FileTree :=
  match readExcludes lib cfg.excludes with
  | .error fault => (.refused fault, t)
  | .ok isExcluded =>
    match openOutDir cfg cwd t with
    | (.error fault, t) => (.refused fault, t)
    | (.ok out, t) =>
      let done := sweep walk cfg isExcluded out cwd { tree := t } cfg.roots
      (.swept done.2, done.1.tree)

def run (cfg : Config) (cwd : Place) (t : FileTree) : Result × FileTree :=
  runWith Glob.library Walk.sorted cfg cwd t

end Unstamp.Run
