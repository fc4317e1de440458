import Unstamp.Glob.Reading
import Unstamp.Text.Basic

/-! Ignore files: one rule a line, and of the rules that match an entry the last one decides. -/
namespace Unstamp.Ignore

structure Rule where
  pattern : Glob
  keeps : Bool
  onlyDirs : Bool

def dropLastChar? (c : Char) (t : Text) : Option Text :=
  if t.getLast? = some c then some t.dropLast else none

/-- A line without the white space at its end, unless that is escaped. -/
def trimLine (line : Text) : Text :=
  if ['\\', ' '].isSuffixOf line then line else Text.trimEnd line

def readSigns (line : Text) : Bool × Bool × Text :=
  match line with
  | '\\' :: '!' :: r => (false, false, '!' :: r)
  | '\\' :: '#' :: r => (false, false, '#' :: r)
  | '!' :: '/' :: r => (true, true, r)
  | '!' :: r => (true, false, r)
  | '/' :: r => (false, true, r)
  | r => (false, false, r)

/-- The slash at the end of a pattern, with which it is for directories only. A backslash before
that slash goes with it. -/
def readDirSign (t : Text) : Bool × Text :=
  match dropLastChar? '/' t with
  | none => (false, t)
  | some t => (true, (dropLastChar? '\\' t).getD t)

/-- The pattern that a line stands for. One without a slash matches in any directory, and one that
ends in two stars does not match the directory before them. -/
def fullPattern (bound : Bool) (t : Text) : Text :=
  let t := if ¬ bound ∧ ¬ t.contains '/' ∧ t ≠ ['*', '*'] then ['*', '*', '/'] ++ t else t
  if ['/', '*', '*'].isSuffixOf t then t ++ ['/', '*'] else t

def Rule.ofLine? (line : Text) : Except (Text × Glob.Fault) (Option Rule) :=
  let line := trimLine line
  if line.head? = some '#' ∨ line = [] then .ok none
  else
    let (keeps, bound, rest) := readSigns line
    let (onlyDirs, rest) := readDirSign rest
    match Glob.ofText true true (fullPattern bound rest) with
    | .error fault => .error (line, fault)
    | .ok pattern => .ok (some { pattern, keeps, onlyDirs })

inductive Fault where
  | notUtf8
  | pattern (line : Text) (fault : Glob.Fault)
  deriving DecidableEq, Repr

def Fault.message : Fault → String
  | notUtf8 => "stream did not contain valid UTF-8"
  | pattern line fault => Glob.faultMessage line fault

def lines (data : Bytes) : List Bytes :=
  let all := splitWhere (· == 0x0A) data
  let ended := all.dropLast.map fun l => if l.getLast? = some 0x0D then l.dropLast else l
  ended ++ all.getLast?.toList.filter (· ≠ [])

/-- Reads rules from numbered lines. A line that is not UTF-8 ends the reading; other faults only
lose their line. -/
def readRules (number : Nat) : List Bytes → List Rule × List (Nat × Fault)
  | [] => ([], [])
  | l :: ls =>
    match Utf8.decode? l with
    | none => ([], [(number, .notUtf8)])
    | some t =>
      let t := if number = 1 then t.dropWhile (· = '\uFEFF') else t
      let (rules, faults) := readRules (number + 1) ls
      match Rule.ofLine? t with
      | .error (line, fault) => (rules, (number, .pattern line fault) :: faults)
      | .ok none => (rules, faults)
      | .ok (some rule) => (rule :: rules, faults)

def ofFile (data : Bytes) : List Rule × List (Nat × Fault) :=
  readRules 1 (lines data)

def verdict? (rules : List Rule) (path : Bytes) (isDir : Bool) : Option Bool :=
  (rules.reverse.find? fun r => (isDir || !r.onlyDirs) && r.pattern.isMatch path).map
    fun r => !r.keeps

end Unstamp.Ignore
