import Unstamp.Glob.Pattern

/-! Two stars that make up a whole component stand for any directories; anywhere else they are two
wildcards. -/
namespace Unstamp.Glob

inductive Fault where
  | unclosedClass
  | unopenedChoice
  | unclosedChoice
  | invalidRange (low high : Char)
  | danglingEscape
  deriving DecidableEq, Repr

def Fault.message : Fault → String
  | unclosedClass => "unclosed character class; missing ']'"
  | unopenedChoice =>
    "unopened alternate group; missing '\x7b' (maybe escape '\x7d' with '[\x7d]'?)"
  | unclosedChoice =>
    "unclosed alternate group; missing '\x7d' (maybe escape '\x7b' with '[\x7b]'?)"
  | invalidRange low high =>
    "invalid range; '" ++ low.toString ++ "' > '" ++ high.toString ++ "'"
  | danglingEscape => "dangling '\\'"

def faultMessage (text : Text) (fault : Fault) : String :=
  "error parsing glob '" ++ String.ofList text ++ "': " ++ fault.message

/-- A choice that is still open: the tokens before it and its branches so far, each list with the
latest first. -/
structure Open where
  before : List Token
  branches : List (List Token)

structure Progress where
  choices : List Open := []
  tokens : List Token := []
  plainBrackets : Bool := false

namespace Progress

def push (g : Progress) (t : Token) : Progress :=
  { g with tokens := t :: g.tokens }

def pushStars (g : Progress) : Progress :=
  (g.push .many).push .many

def replaceSlash (g : Progress) (t : Token) : Progress :=
  match g.tokens with
  | .leadingDirs :: _ => g
  | .insideDir :: _ => g
  | _ :: ts => { g with tokens := t :: ts }
  | [] => { g with tokens := [t] }

/-- Whether a component starts after a character: after a slash, and within a choice also where a
branch starts. -/
def startsComponent (g : Progress) (last : Option Char) : Bool :=
  last == some '/' || (!g.choices.isEmpty && (last == some ',' || last == some '\x7b'))

def openChoice (g : Progress) : Progress :=
  { g with choices := ⟨g.tokens, []⟩ :: g.choices, tokens := [] }

def nextBranch (g : Progress) : Progress :=
  match g.choices with
  | [] => g.push (.literal ',')
  | o :: os =>
    { g with choices := { o with branches := g.tokens :: o.branches } :: os, tokens := [] }

def closeChoice (g : Progress) : Except Fault Progress :=
  match g.choices with
  | [] => .error .unopenedChoice
  | o :: os =>
    let branches := (g.tokens :: o.branches).reverse.map List.reverse
    .ok { g with choices := os, tokens := .choice branches :: o.before }

end Progress

/-- A class as far as it was read: its ranges, the latest first, and whether a hyphen waits for the
upper end of a range. -/
structure ClassProgress where
  ranges : List (Char × Char) := []
  waiting : Bool := false

namespace ClassProgress

def add (g : ClassProgress) (c : Char) : Except Fault ClassProgress :=
  match g.waiting, g.ranges with
  | true, (low, _) :: rs =>
    if c < low then .error (.invalidRange low c) else .ok ⟨(low, c) :: rs, false⟩
  | _, rs => .ok ⟨(c, c) :: rs, false⟩

def finish (g : ClassProgress) : List (Char × Char) :=
  (if g.waiting then ('-', '-') :: g.ranges else g.ranges).reverse

end ClassProgress

def readClassRest (g : ClassProgress) (count : Nat) :
    Text → Except Fault (Option (List (Char × Char) × Nat))
  | [] => .ok none
  | c :: r =>
    if c = ']' then .ok (some (g.finish, count + 1))
    else if c = '-' ∧ ¬ g.waiting then readClassRest { g with waiting := true } (count + 1) r
    else
      match g.add c with
      | .error fault => .error fault
      | .ok g => readClassRest g (count + 1) r

def readClass (count : Nat) : Text → Except Fault (Option (List (Char × Char) × Nat))
  | [] => .ok none
  | c :: r => readClassRest ⟨[(c, c)], false⟩ (count + 1) r

/-- Reads tokens up to the end. `last` is the character read last. With `lenient`, a bracket that
nothing closes is a plain character and no fault. -/
def readTokens (lenient : Bool) (last : Option Char) (g : Progress) :
    Text → Except Fault (List Token)
  | [] => if g.choices.isEmpty then .ok g.tokens.reverse else .error .unclosedChoice
  | '?' :: r => readTokens lenient (some '?') (g.push .any) r
  | '*' :: '*' :: r =>
    if g.tokens.isEmpty then
      match r with
      | [] => readTokens lenient (some '*') (g.push .leadingDirs) []
      | '/' :: r => readTokens lenient (some '/') (g.push .leadingDirs) r
      | c :: r => readTokens lenient (some '*') g.pushStars (c :: r)
    else if ¬ g.startsComponent last then
      readTokens lenient (some '*') g.pushStars r
    else
      match r with
      | [] => readTokens lenient (some '*') (g.replaceSlash .insideDir) []
      | '/' :: r => readTokens lenient (some '/') (g.replaceSlash .innerDirs) r
      | c :: r =>
        if ¬ g.choices.isEmpty ∧ (c = ',' ∨ c = '\x7d') then
          readTokens lenient (some '*') (g.replaceSlash .insideDir) (c :: r)
        else readTokens lenient (some '*') g.pushStars (c :: r)
  | '*' :: r => readTokens lenient (some '*') (g.push .many) r
  | '\x7b' :: r => readTokens lenient (some '\x7b') g.openChoice r
  | '\x7d' :: r =>
    match g.closeChoice with
    | .error fault => .error fault
    | .ok g => readTokens lenient (some '\x7d') g r
  | ',' :: r => readTokens lenient (some ',') g.nextBranch r
  | '\\' :: [] => .error .danglingEscape
  | '\\' :: c :: r => readTokens lenient (some c) (g.push (.literal c)) r
  | '[' :: r =>
    if g.plainBrackets then readTokens lenient (some '[') (g.push (.literal '[')) r
    else
      let negated := r.head? = some '!' ∨ r.head? = some '^'
      match readClass 0 (r.drop (if negated then 1 else 0)) with
      | .error fault => .error fault
      | .ok (some (ranges, count)) =>
        readTokens lenient (some ']') (g.push (.oneOf negated ranges))
          (r.drop ((if negated then 1 else 0) + count))
      | .ok none =>
        if lenient then
          readTokens lenient (some '[') { g.push (.literal '[') with plainBrackets := true } r
        else .error .unclosedClass
  | c :: r => readTokens lenient (some c) (g.push (.literal c)) r
termination_by t => t.length
decreasing_by
  all_goals simp only [List.length_cons, List.length_drop, List.length_nil]; omega

def ofText (lenient stopsAtSlash : Bool) (t : Text) : Except Fault Glob :=
  (readTokens lenient none {} t).map fun tokens => { tokens, stopsAtSlash }

end Unstamp.Glob
