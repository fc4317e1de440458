import Unstamp.FileTree.Resolve

namespace Unstamp.FileTree

def read (t : FileTree) (cwd : Place) (p : Path) : Except OsFault Bytes :=
  match t.resolve cwd p with
  | .error fault => .error fault
  | .ok place =>
    match t.get? place with
    | some (.file data) => .ok data
    | _ => .error .isDirectory

/-- The place of the file that a write to a path creates or replaces. -/
def writePlace (t : FileTree) (cwd : Place) (p : Path) : Except OsFault Place :=
  match t.find true cwd p with
  | .error fault => .error fault
  | .ok (.free place) => if t.isLocked place then .error .denied else .ok place
  | .ok (.entry place) =>
    if t.isDir place then .error .isDirectory
    else if t.isLocked place then .error .denied
    else .ok place

def write (t : FileTree) (cwd : Place) (p : Path) (data : Bytes) : Except OsFault FileTree :=
  (t.writePlace cwd p).map fun place => t.set place (.file data)

def bareSteps (p : Path) : List Name :=
  p.steps.reverse.dropWhile (· = []) |>.reverse

/-- Makes a directory, in one that is there already. A link is not followed at the last name. -/
def makeDir (t : FileTree) (cwd : Place) (p : Path) : Except OsFault FileTree :=
  match malformed? p with
  | some fault => .error fault
  | none =>
    let names := bareSteps p
    match t.follow false Path.maxLinks (origin cwd p) names.dropLast, names.getLast? with
    | .error fault, _ => .error fault
    | .ok (.free _), _ => .error .missing
    | .ok (.entry _), none => .error .alreadyThere
    | .ok (.entry dir), some n =>
      if ¬ t.isDir dir then .error .notDirectory
      else if n = [Path.dot] ∨ n = [Path.dot, Path.dot] then .error .alreadyThere
      else if Path.maxName < n.length then .error .nameTooLong
      else if (t.get? (dir ++ [n])).isSome then .error .alreadyThere
      else .ok (t.set (dir ++ [n]) .dir)

/-- A path, its parent and so on, as long as there is a parent; at most so many. -/
def lineage : Nat → Path → List Path
  | 0, _ => []
  | n + 1, p =>
    match p.parent? with
    | none => []
    | some q => p :: lineage n q

def makeDirs (t : FileTree) (cwd : Place) : List Path → Except OsFault Unit × FileTree
  | [] => (.ok (), t)
  | p :: parents =>
    match t.makeDir cwd p with
    | .ok t => (.ok (), t)
    | .error .missing =>
      match t.makeDirs cwd parents with
      | (.error fault, t) => (.error fault, t)
      | (.ok (), t) =>
        match t.makeDir cwd p with
        | .ok t => (.ok (), t)
        | .error fault => (if t.leadsToDir cwd p then .ok () else .error fault, t)
    | .error fault => (if t.leadsToDir cwd p then .ok () else .error fault, t)

def makeDirAll (t : FileTree) (cwd : Place) (p : Path) : Except OsFault Unit × FileTree :=
  t.makeDirs cwd (lineage p.length p)

end Unstamp.FileTree
