import Unstamp.Text.Basic

/-! Removal of comments in one pass. A block opened by a slash and two stars is documentation and is
text like any other; a comment left open reaches to the end. -/
namespace Unstamp.Comment

inductive Mode where
  | code
  | line
  | block
  deriving DecidableEq, Repr

/-- What a scan does at one place: the mode it goes on in, whether it copies what it takes, and
whether it takes the next character too. -/
structure Step where
  mode : Mode
  copies : Bool
  takesNext : Bool
  deriving DecidableEq, Repr

def Step.copied (s : Step) (taken : Text) : Text :=
  if s.copies then taken else []

/-- The step at a character, with the two after it in view. The second of them only tells a plain
block from documentation, of which the slash and the first star are taken at once. -/
def step : Mode → Char → Option Char → Option Char → Step
  | .code, '/', some '*', some '*' => ⟨.code, true, true⟩
  | .code, '/', some '*', _ => ⟨.block, false, true⟩
  | .code, '/', some '/', _ => ⟨.line, false, true⟩
  | .code, _, _, _ => ⟨.code, true, false⟩
  | .block, '*', some '/', _ => ⟨.code, false, true⟩
  | .block, _, _, _ => ⟨.block, false, false⟩
  | .line, '\r', some '\n', _ => ⟨.code, false, true⟩
  | .line, '\r', _, _ => ⟨.code, false, false⟩
  | .line, '\n', _, _ => ⟨.code, false, false⟩
  | .line, _, _, _ => ⟨.line, false, false⟩

def scan : Mode → Text → Text
  | _, [] => []
  | mode, [c] => (step mode c none none).copied [c]
  | mode, c :: d :: r =>
    let s := step mode c (some d) r.head?
    if s.takesNext then s.copied [c, d] ++ scan s.mode r
    else s.copied [c] ++ scan s.mode (d :: r)

def remove (t : Text) : Text :=
  scan .code t

end Unstamp.Comment
