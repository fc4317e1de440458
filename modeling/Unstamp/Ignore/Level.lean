import Unstamp.FileTree.Access
import Unstamp.Ignore.Rule

/-! A file of a stronger kind decides before all of a weaker kind; among those of one kind an inner
directory decides before an outer one. -/
namespace Unstamp.Ignore

structure Level where
  dir : Place
  ignore : List Rule := []
  gitignore : List Rule := []
  exclude : List Rule := []

def ignoreFile : List Name :=
  [".ignore".toUTF8.toList]

def gitignoreFile : List Name :=
  [".gitignore".toUTF8.toList]

def excludeFile : List Name :=
  [".git".toUTF8.toList, "info".toUTF8.toList, "exclude".toUTF8.toList]

structure Complaint where
  file : Path
  line : Nat
  fault : Fault
  deriving DecidableEq, Repr

def Complaint.message (c : Complaint) : String :=
  String.ofList c.file.shown ++ ": line " ++ toString c.line ++ ": " ++ c.fault.message

def readFile (t : FileTree) (file : Place) : List Rule × List Complaint :=
  match t.read [] file.path with
  | .error _ => ([], [])
  | .ok data =>
    match ofFile data with
    | (rules, [(_, .notUtf8)]) => (rules, [])
    | (rules, faults) => (rules, faults.map fun f => ⟨file.path, f.1, f.2⟩)

def readLevel (t : FileTree) (dir : Place) : Level × List Complaint :=
  let a := readFile t (dir ++ ignoreFile)
  let b := readFile t (dir ++ gitignoreFile)
  let c := readFile t (dir ++ excludeFile)
  ({ dir, ignore := a.1, gitignore := b.1, exclude := c.1 }, a.2 ++ b.2 ++ c.2)

def verdictOf? (kind : Level → List Rule) (levels : List Level) (place : Place) (isDir : Bool) :
    Option Bool :=
  levels.findSome? fun l =>
    verdict? (kind l) (joinWith Path.slash (place.drop l.dir.length)) isDir

/-- Whether an entry is ignored, kept, or not spoken of. -/
def levelVerdict? (levels : List Level) (place : Place) (isDir : Bool) : Option Bool :=
  (verdictOf? Level.ignore levels place isDir).or <|
    (verdictOf? Level.gitignore levels place isDir).or <|
      verdictOf? Level.exclude levels place isDir

end Unstamp.Ignore
