import Unstamp.Charset.Basic
import Unstamp.Path.Basic
import Unstamp.Stream.Fault

namespace Unstamp

inductive Outcome where
  /-- The input was none to be cleaned, and was copied. -/
  | passedThrough
  /-- Comments were removed. -/
  | stripped
  /-- Marked lines were dropped. -/
  | filtered (droppedLines failedWrites : Nat)
  deriving DecidableEq, Repr

inductive CleanFault where
  | io (path : Path) (fault : IoFault)
  | stream (fault : IoFault)
  | encoding (fault : EncodingFault)
  deriving DecidableEq, Repr

namespace CleanFault

def atPath (path : Path) : CleanFault → CleanFault
  | stream fault => io path fault
  | other => other

def message : CleanFault → String
  | io path fault => "I/O error on " ++ String.ofList path.shown ++ ": " ++ fault.message
  | stream fault => "stream I/O error: " ++ fault.message
  | encoding fault => fault.message

def messageWithCause : CleanFault → String
  | io path fault => message (io path fault) ++ ": " ++ fault.message
  | stream fault => message (stream fault) ++ ": " ++ fault.message
  | encoding fault => fault.message

end CleanFault

end Unstamp
