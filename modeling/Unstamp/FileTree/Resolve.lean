import Unstamp.FileTree.Basic
import Unstamp.Stream.Fault

/-! Resolution of paths, with the refusals in the order in which they arise. -/
namespace Unstamp

namespace Path

/-- The names that resolution steps through. A slash at the end leaves an empty name, which asks
for a directory. -/
def steps (p : Path) : List Name :=
  let all := p.segments
  all.dropLast.filter (· ≠ []) ++ all.getLast?.toList

def maxName : Nat := 255

def maxPath : Nat := 4095

def maxLinks : Nat := 40

end Path

inductive Found where
  | entry (place : Place)
  | free (place : Place)
  deriving DecidableEq, Repr

namespace FileTree

/-- Steps through names from a place, passing at most so many links. When a file is to be created,
a last name with a slash after it is refused whatever stands there. -/
def follow (t : FileTree) (creating : Bool) (links : Nat) (here : Place) :
    List Name → Except OsFault Found
  | [] => .ok (.entry here)
  | n :: rest =>
    if ¬ t.isDir here then .error .notDirectory
    else if n = [] ∨ n = [Path.dot] then follow t creating links here rest
    else if n = [Path.dot, Path.dot] then follow t creating links here.dropLast rest
    else if creating ∧ rest = [[]] then .error .isDirectory
    else if Path.maxName < n.length then .error .nameTooLong
    else
      match t.get? (here ++ [n]) with
      | none => if rest = [] then .ok (.free (here ++ [n])) else .error .missing
      | some (.link target) =>
        match links with
        | 0 => .error .tooManyLinks
        | links + 1 =>
          follow t creating links (if target.isAbsolute then [] else here) (target.steps ++ rest)
      | some _ => follow t creating links (here ++ [n]) rest
termination_by names => (links, names.length)

def malformed? (p : Path) : Option OsFault :=
  if p = [] then some .missing
  else if p.contains 0 then some .nulInPath
  else if Path.maxPath < p.length then some .nameTooLong
  else none

def origin (cwd : Place) (p : Path) : Place :=
  if p.isAbsolute then [] else cwd

def find (t : FileTree) (creating : Bool) (cwd : Place) (p : Path) : Except OsFault Found :=
  match malformed? p with
  | some fault => .error fault
  | none => t.follow creating Path.maxLinks (origin cwd p) p.steps

def resolve (t : FileTree) (cwd : Place) (p : Path) : Except OsFault Place :=
  match t.find false cwd p with
  | .error fault => .error fault
  | .ok (.free _) => .error .missing
  | .ok (.entry place) => .ok place

def leadsToDir (t : FileTree) (cwd : Place) (p : Path) : Bool :=
  match t.resolve cwd p with
  | .ok place => t.isDir place
  | .error _ => false

end FileTree

end Unstamp
