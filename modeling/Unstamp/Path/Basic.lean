import Unstamp.Charset.Utf8

/-! Paths as byte strings. Repeated slashes, a slash at the end and dots inside a path make no
component; a dot at the start of a relative path does, and so do two dots anywhere. -/
namespace Unstamp

abbrev Path := Bytes

abbrev Name := Bytes

namespace Path

def slash : UInt8 := 0x2F

def dot : UInt8 := 0x2E

def shown (p : Path) : Text :=
  Utf8.decodeLossy p

inductive Component where
  | root
  | here
  | up
  | name (n : Name)
  deriving DecidableEq, Repr

inductive Start where
  | root
  | here
  | bare
  deriving DecidableEq, Repr

/-- A path cut into its start and what stands between the slashes after it. -/
structure Layout where
  start : Start
  body : List Name
  deriving DecidableEq, Repr

def segments (p : Path) : List Name :=
  splitWhere (· == slash) p

def layout (p : Path) : Layout :=
  match p with
  | [] => ⟨.bare, segments []⟩
  | a :: r =>
    if a = slash then ⟨.root, segments r⟩
    else if a = dot ∧ (r = [] ∨ r.head? = some slash) then ⟨.here, segments r⟩
    else ⟨.bare, segments p⟩

def step? (s : Name) : Option Component :=
  if s = [] ∨ s = [dot] then none
  else if s = [dot, dot] then some .up
  else some (.name s)

def Start.steps : Start → List Component
  | .root => [.root]
  | .here => [.here]
  | .bare => []

def Start.text : Start → Path
  | .root => [slash]
  | .here => [dot]
  | .bare => []

def components (p : Path) : List Component :=
  p.layout.start.steps ++ p.layout.body.filterMap step?

def trimRight (body : List Name) : List Name :=
  (body.reverse.dropWhile fun s => (step? s).isNone).reverse

def trimLeft (body : List Name) : List Name :=
  body.dropWhile fun s => (step? s).isNone

def Layout.path (l : Layout) : Path :=
  l.start.text ++ joinWith slash l.body

def isAbsolute (p : Path) : Bool :=
  p.head? == some slash

def parent? (p : Path) : Option Path :=
  let l := p.layout
  match trimRight l.body with
  | [] => if l.start = .here then some [] else none
  | s :: body => some (Layout.path ⟨l.start, trimRight (s :: body).dropLast⟩)

def fileName? (p : Path) : Option Name :=
  match p.components.getLast? with
  | some (.name n) => some n
  | _ => none

/-- The part of a name after its last dot. A dot at the very start does not count. -/
def extension? (n : Name) : Option Name :=
  let after := (n.reverse.takeWhile (· != dot)).reverse
  if after.length + 1 < n.length then some after else none

def join (p : Path) (n : Path) : Path :=
  if p = [] ∨ p.getLast? = some slash then p ++ n else p ++ slash :: n

end Path

end Unstamp
