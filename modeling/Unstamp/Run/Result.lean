import Unstamp.Cleaner.CommentLines
import Unstamp.Run.Event

namespace Unstamp

structure Config where
  roots : List Path := [[Path.dot]]
  charset : Charset := .utf8
  followLinks : Bool := false
  useIgnoreFiles : Bool := true
  excludes : List Text := []
  /-- Where results go instead of into the files read. -/
  outDir : Option Path := none
  /-- Whether nothing is written. -/
  check : Bool := false
  /-- Whether all reports are printed, as an array. -/
  json : Bool := false
  policy : WritePolicy := .abort
  deriving Repr

end Unstamp

namespace Unstamp.Run

inductive SetupFault where
  | badExclude (pattern : Text) (cause : String)
  | badExcludes (cause : String)
  | noOutDir (dir : Path) (fault : OsFault)
  | lostOutDir (dir : Path) (fault : OsFault)
  deriving DecidableEq, Repr

def SetupFault.message : SetupFault → String
  | badExclude pattern cause =>
    "Invalid --exclude glob pattern: " ++ String.ofList pattern ++ ": " ++ cause
  | badExcludes cause => "Failed to build exclude glob set: " ++ cause
  | noOutDir dir fault =>
    "Failed to create output directory " ++ String.ofList dir.shown ++ ": " ++ fault.message
  | lostOutDir dir fault =>
    "Failed to resolve " ++ String.ofList dir.shown ++ ": " ++ fault.message

inductive Failure where
  | setup (fault : SetupFault)
  | someFailed
  | wouldChange (count : Nat)
  deriving DecidableEq, Repr

def Failure.message : Failure → String
  | setup fault => fault.message
  | someFailed => "One or more files could not be stripped. See stderr for details."
  | wouldChange count => toString count ++ " file(s) would change when stripped."

inductive Result where
  | refused (fault : SetupFault)
  | swept (events : List Event)
  deriving DecidableEq, Repr

namespace Result

def events : Result → List Event
  | refused _ => []
  | swept es => es

def reports (r : Result) : List Report :=
  r.events.filterMap Event.report?

def notices (r : Result) : List Notice :=
  r.events.filterMap Event.notice?

def changes (r : Result) : Nat :=
  r.reports.countP Report.changed

def failure? (check : Bool) (r : Result) : Option Failure :=
  match r with
  | refused fault => some (.setup fault)
  | swept _ =>
    if r.notices.any Notice.isError then some .someFailed
    else if check ∧ 0 < r.changes then some (.wouldChange r.changes)
    else none

def answer (check : Bool) (r : Result) : Except Failure (List Report) :=
  match r.failure? check with
  | some failure => .error failure
  | none => .ok r.reports

def listing (cfg : Config) (r : Result) : Text :=
  match r with
  | refused _ => []
  | swept _ => Report.listing cfg.json cfg.check r.reports

end Result

end Unstamp.Run
