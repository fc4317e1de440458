import Unstamp.Glob.Library
import Unstamp.Path.Display
import Unstamp.Run.Result

namespace Unstamp.Run

def patterns (excludes : List Text) : List Text :=
  (excludes.map Text.trim).filter (· ≠ [])

def readExcludes (lib : PatternLibrary) (excludes : List Text) :
    Except SetupFault (Text → Bool) :=
  if excludes = [] then .ok fun _ => false
  else
    match (patterns excludes).findSome? fun p => (lib.refusal? p).map (SetupFault.badExclude p) with
    | some fault => .error fault
    | none => (lib.build (patterns excludes)).mapError .badExcludes

def openOutDir (cfg : Config) (cwd : Place) (t : FileTree) :
    Except SetupFault (Option Place) × FileTree :=
  match cfg.check, cfg.outDir with
  | false, some dir =>
    match t.makeDirAll cwd dir with
    | (.error fault, t) => (.error (.noOutDir dir fault), t)
    | (.ok (), t) =>
      match t.resolve cwd dir with
      | .error fault => (.error (.lostOutDir dir fault), t)
      | .ok place => (.ok (some place), t)
  | _, _ => (.ok none, t)

def seenPath (root place : Place) : Text :=
  Path.slashed (joinWith Path.slash (place.drop root.length))

/-- Whether a run goes into an entry below a root: nothing of its own output, and nothing excluded.
A directory is also tried with a slash at its end, unless its path has one there already. -/
def keeps (isExcluded : Text → Bool) (out : Option Place) (root place : Place) (isDir : Bool) :
    Bool :=
  !(out.any fun o => o.isPrefixOf place) && !isExcluded (seenPath root place) &&
    !(isDir && (seenPath root place).getLast? != some '/' &&
      isExcluded (seenPath root place ++ ['/']))

def walkOptions (cfg : Config) (isExcluded : Text → Bool) (out : Option Place) (root : Place) :
    Walk.Options where
  followLinks := cfg.followLinks
  useIgnoreFiles := cfg.useIgnoreFiles
  keeps := keeps isExcluded out root

end Unstamp.Run
