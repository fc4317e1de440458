import Unstamp.Cleaner.Basic
import Unstamp.FileTree.Access

namespace Unstamp

structure Cleaned where
  before : Bytes
  after : Bytes
  outcome : Outcome
  deriving DecidableEq, Repr

def Cleaned.changed (c : Cleaned) : Bool :=
  c.after != c.before

namespace Cleaner

def load (c : Cleaner) (t : FileTree) (cwd : Place) (input : Path) :
    Except CleanFault Cleaned :=
  match t.read cwd input with
  | .error fault => .error (.io input (.os fault))
  | .ok before =>
    match c.cleanBytes before with
    | .error fault => .error (fault.atPath input)
    | .ok (outcome, after) => .ok { before, after, outcome }

def store (t : FileTree) (cwd : Place) (output : Path) (data : Bytes) :
    Except CleanFault FileTree :=
  (t.write cwd output data).mapError fun fault => .io output (.os fault)

def cleanFile (c : Cleaner) (t : FileTree) (cwd : Place) (input output : Path) :
    Except CleanFault Outcome × FileTree :=
  match c.load t cwd input with
  | .error fault => (.error fault, t)
  | .ok cleaned =>
    match store t cwd output cleaned.after with
    | .error fault => (.error fault, t)
    | .ok t => (.ok cleaned.outcome, t)

end Cleaner

end Unstamp
