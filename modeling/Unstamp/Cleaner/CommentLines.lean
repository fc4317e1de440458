import Unstamp.Cleaner.Outcome
import Unstamp.Text.Basic
import Unstamp.Stream.Buffer
import Unstamp.Stream.Source

/-! Cleaning of property files, in which only whole lines are comments. -/
namespace Unstamp

inductive WritePolicy where
  /-- Stop and report it. -/
  | abort
  /-- Count it and go on. -/
  | bestEffort
  deriving DecidableEq, Repr

structure CommentLines where
  marker : Char := '#'
  policy : WritePolicy := .abort
  deriving DecidableEq, Repr

namespace CommentLines
variable {σ : Type}

/-- Writes one line and its line feed. After a line that could not be written its line feed is
not tried. -/
def writeLine (w : Buffer σ) (line : Text) : Except IoFault Unit × Buffer σ :=
  match w.writeAll (Utf8.encode line) with
  | (.error fault, w) => (.error fault, w)
  | (.ok (), w) => w.writeAll (Utf8.encode ['\n'])

def writeLines (policy : WritePolicy) (w : Buffer σ) :
    List Text → Except IoFault Nat × Buffer σ
  | [] => (.ok 0, w)
  | line :: rest =>
    match writeLine w line with
    | (.ok (), w) => writeLines policy w rest
    | (.error fault, w) =>
      match policy with
      | .abort => (.error fault, w)
      | .bestEffort =>
        match writeLines policy w rest with
        | (.error fault, w) => (.error fault, w)
        | (.ok n, w) => (.ok (n + 1), w)

/-- Writes the lines of a text that the filter keeps. A buffer that is left with a fault is given
up. -/
def filter (f : CommentLines) (text : Text) (sink : Sink σ) :
    Except CleanFault Outcome × Sink σ :=
  let lines := Line.split text
  let kept := lines.filter fun l => !Line.isMarked f.marker l
  match writeLines f.policy { sink } kept with
  | (.error fault, w) => (.error (.stream fault), w.release)
  | (.ok failed, w) =>
    match w.flush with
    | (.error fault, w) => (.error (.stream fault), w.release)
    | (.ok (), w) => (.ok (.filtered (lines.length - kept.length) failed), w.sink)

def clean (f : CommentLines) (source : Source) (sink : Sink σ) :
    Except CleanFault Outcome × Sink σ :=
  match source.readAll with
  | .error fault => (.error (.stream fault), sink)
  | .ok bytes =>
    match Charset.utf8.decode bytes with
    | .error fault => (.error (.encoding fault), sink)
    | .ok text => f.filter text sink

end CommentLines

end Unstamp
