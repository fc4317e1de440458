import Unstamp.Glob.Reading

namespace Unstamp

/-- A library may refuse a pattern, in its own words. Of patterns that it takes it builds a test for
paths, unless they are too much for it. -/
structure PatternLibrary where
  refusal? : Text → Option String
  build : List Text → Except String (Text → Bool)

namespace Glob

mutual

def Token.depth : Token → Nat
  | .choice branches => 2 + deepest branches
  | .leadingDirs | .innerDirs => 4
  | .literal _ | .any => 0
  | _ => 1

def rowDepth : List Token → Nat
  | [] => 0
  | t :: ts => max t.depth (rowDepth ts)

def deepest : List (List Token) → Nat
  | [] => 0
  | b :: bs => max (rowDepth b) (deepest bs)

end

/-- The depth to which the parts of a pattern may be nested when a test is built of it. -/
def maxDepth : Nat := 250

def refusal? (pattern : Text) : Option String :=
  match ofText false false pattern with
  | .error fault => some (faultMessage pattern fault)
  | .ok _ => none

def tooDeep? (globs : List Glob) : Option Nat :=
  globs.findIdx? fun g => maxDepth ≤ rowDepth g.tokens

def build (patterns : List Text) : Except String (Text → Bool) :=
  let globs := patterns.filterMap fun p => (ofText false false p).toOption
  match tooDeep? globs with
  | some n => .error ("error parsing pattern " ++ toString n)
  | none => .ok fun path => globs.any fun g => g.isMatch (Utf8.encode path)

def library : PatternLibrary where
  refusal? := refusal?
  build := build

end Glob

end Unstamp
