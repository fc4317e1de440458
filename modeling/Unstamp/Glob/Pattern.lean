import Unstamp.Path.Basic

/-! Matching goes through the tokens of a pattern with all that can be left of the subject after
those so far. The subject is a byte string: a wildcard and a class each stand for one byte. -/
namespace Unstamp

namespace Glob

inductive Token where
  | literal (c : Char)
  /-- Any one byte. -/
  | any
  /-- Any bytes. -/
  | many
  /-- Any directories at the front, or none. -/
  | leadingDirs
  /-- A slash and anything after it. -/
  | insideDir
  /-- A slash, or any directories between two slashes. -/
  | innerDirs
  /-- One byte of the ranges, or one of all others. -/
  | oneOf (negated : Bool) (ranges : List (Char × Char))
  /-- One of several patterns. -/
  | choice (branches : List (List Token))

end Glob

structure Glob where
  tokens : List Glob.Token
  stopsAtSlash : Bool

namespace Glob

def dropFront? : Bytes → Bytes → Option Bytes
  | [], s => some s
  | _ :: _, [] => none
  | a :: p, b :: s => if a = b then dropFront? p s else none

def ends (stops : Bool) : Bytes → List Bytes
  | [] => [[]]
  | b :: s => (b :: s) :: (if stops && b == Path.slash then [] else ends stops s)

def afterSlashes : Bytes → List Bytes
  | [] => []
  | b :: s => if b = Path.slash then s :: afterSlashes s else afterSlashes s

/-- Whether a byte belongs to a range of characters. A character of several bytes lends each of
them; the range runs from the last byte of its lower end to the first of its upper end. -/
def inRange (b : UInt8) (r : Char × Char) : Bool :=
  let low := Utf8.encodeChar r.1
  let high := Utf8.encodeChar r.2
  low.contains b || high.contains b ||
    (r.1 != r.2 && (low.getLast?.getD b ≤ b && b ≤ high.head?.getD b))

mutual

/-- Whether a token can stand for nothing but the empty byte string by its spelling: a choice
without a branch that spells anything. -/
def Token.isVoid : Token → Bool
  | .choice branches => allVoid branches
  | _ => false

def isVoidRow : List Token → Bool
  | [] => true
  | t :: ts => t.isVoid && isVoidRow ts

def allVoid : List (List Token) → Bool
  | [] => true
  | b :: bs => isVoidRow b && allVoid bs

end

mutual

def Token.rests (stops : Bool) (s : Bytes) : Token → List Bytes
  | .literal c => (dropFront? (Utf8.encodeChar c) s).toList
  | .any =>
    match s with
    | [] => []
    | b :: r => if stops && b == Path.slash then [] else [r]
  | .many => ends stops s
  | .leadingDirs => s :: afterSlashes s
  | .insideDir =>
    match s with
    | [] => []
    | b :: r => if b = Path.slash then ends false r else []
  | .innerDirs =>
    match s with
    | [] => []
    | b :: r => if b = Path.slash then r :: afterSlashes r else []
  | .oneOf negated ranges =>
    match s with
    | [] => []
    | b :: r => if ranges.any (inRange b) != negated then [r] else []
  | .choice branches => if allVoid branches then [s] else choiceRests stops s branches

def rowRests (stops : Bool) (ss : List Bytes) : List Token → List Bytes
  | [] => ss
  | t :: ts => rowRests stops (ss.flatMap fun s => t.rests stops s).eraseDups ts

def choiceRests (stops : Bool) (s : Bytes) : List (List Token) → List Bytes
  | [] => []
  | b :: bs =>
    (if isVoidRow b then [] else rowRests stops [s] b) ++ choiceRests stops s bs

end

/-- Whether a pattern matches a subject as a whole. Two stars alone match everything. -/
def isMatch (g : Glob) (s : Bytes) : Bool :=
  match g.tokens with
  | [.leadingDirs] => true
  | ts => (rowRests g.stopsAtSlash [s] ts).contains []

end Glob

end Unstamp
