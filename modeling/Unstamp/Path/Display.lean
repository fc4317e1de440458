import Unstamp.Path.Basic
import Unstamp.Text.Shown

namespace Unstamp.Path

def bodyAfter : List Component → List Name → Option (List Name)
  | [], body => some body
  | _ :: _, [] => none
  | c :: cs, s :: body =>
    match step? s with
    | none => bodyAfter (c :: cs) body
    | some d => if c = d then bodyAfter cs body else none

/-- The rest of a path after the steps of a root. What makes no step is left out at the end of the
rest, and at its start unless nothing was taken off. -/
def below? (root p : Path) : Option Path :=
  let l := p.layout
  let rest (cs : List Component) : Option Path :=
    (bodyAfter cs l.body).map fun body => joinWith slash (trimLeft (trimRight body))
  match root.components, l.start.steps with
  | [], _ => some (Layout.path ⟨l.start, trimRight l.body⟩)
  | c :: cs, s :: _ => if c = s then rest cs else none
  | cs, [] => rest cs

/-- The path below a root. A root that is itself the file stands for its name. A path that is not
below the root stays as it is. -/
def relativeTo (root p : Path) : Path :=
  match below? root p with
  | none => p
  | some [] => p.fileName?.getD []
  | some rest => rest

def slashed (p : Path) : Text :=
  p.shown.map fun c => if c = '\\' then '/' else c

def display (root p : Path) : Text :=
  match relativeTo root p with
  | [] => p.shown
  | rest => slashed rest

end Unstamp.Path

namespace Unstamp.Path

def quotedByte (b : UInt8) : Text :=
  ['\\', 'x'] ++ [b.toNat / 16, b.toNat % 16].map fun d => d.digitChar.toUpper

def quotedPiece (p : Piece) : Text :=
  match p.char? with
  | some c => Text.escaped c
  | none => p.bytes.flatMap quotedByte

def quoted (p : Path) : Text :=
  ['\x22'] ++ (Piece.cut Utf8.read p).flatMap quotedPiece ++ ['\x22']

end Unstamp.Path
