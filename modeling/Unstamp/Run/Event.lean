import Unstamp.Path.Display
import Unstamp.Run.Report
import Unstamp.Walk

namespace Unstamp

inductive FileFault where
  | clean (fault : CleanFault)
  /-- The directory for the output could not be made. -/
  | noDirectory (dir : Path) (fault : OsFault)
  deriving DecidableEq, Repr

def FileFault.message : FileFault → String
  | clean fault => fault.messageWithCause
  | noDirectory dir fault =>
    "Failed to create " ++ String.ofList dir.shown ++ ": " ++ fault.message

inductive Notice where
  | rootSkipped (root : Path) (fault : OsFault)
  | walk (fault : WalkFault)
  /-- Another file has the same output. -/
  | clash (file : Text) (output : Path) (first : Text)
  | notCleaned (file : Text) (fault : FileFault)
  | linesLost (file : Text) (count : Nat)
  deriving DecidableEq, Repr

namespace Notice

def message : Notice → String
  | rootSkipped root fault =>
    "Skipping root " ++ String.ofList root.quoted ++ ": " ++ fault.message
  | walk fault => "Walk error: " ++ fault.message
  | clash file output first =>
    "Error stripping " ++ String.ofList file ++ ": output " ++ String.ofList output.shown ++
      " is already written from " ++ String.ofList first
  | notCleaned file fault =>
    "Error stripping " ++ String.ofList file ++ ": " ++ fault.message
  | linesLost file count =>
    "Warning: " ++ toString count ++ " line(s) of " ++ String.ofList file ++
      " could not be written"

def isError : Notice → Bool
  | linesLost _ _ => false
  | _ => true

end Notice

inductive Event where
  | report (report : Report)
  | notice (notice : Notice)
  deriving DecidableEq, Repr

namespace Event

def report? : Event → Option Report
  | report r => some r
  | notice _ => none

def notice? : Event → Option Notice
  | report _ => none
  | notice n => some n

end Event

end Unstamp
