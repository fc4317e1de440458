import Unstamp.Ignore.Level

/-! The walk below a root. The tree can change while it is under way: each directory and link is
looked at when the walk comes to it. -/
namespace Unstamp

inductive WalkFault where
  /-- A link leads nowhere. -/
  | unreadable (place : Place) (fault : OsFault)
  /-- A link leads back to a directory that the walk is in. -/
  | loop (place ancestor : Place)
  /-- The ignore files above the root have faults. -/
  | ignoreFiles (complaints : List Ignore.Complaint)
  deriving DecidableEq, Repr

def WalkFault.message : WalkFault → String
  | unreadable place fault =>
    let p := String.ofList place.path.shown
    p ++ ": IO error for operation on " ++ p ++ ": " ++ fault.message
  | loop place ancestor =>
    "File system loop found: " ++ String.ofList place.path.shown ++ " points to an ancestor " ++
      String.ofList ancestor.path.shown
  | ignoreFiles complaints => "\n".intercalate (complaints.map Ignore.Complaint.message)

inductive Visit where
  | file (place : Place)
  | fault (fault : WalkFault)
  deriving DecidableEq, Repr

/-- A walk under way. For what comes after an item it is asked with the tree as it is by then. -/
inductive Walking where
  | ended
  | item (v : Visit) (next : FileTree → Walking)

namespace Walk

/-- How to walk: whether links are followed, whether ignore files count, and which entries below
the root are kept, by their place and whether they are directories. -/
structure Options where
  followLinks : Bool
  useIgnoreFiles : Bool
  keeps : Place → Bool → Bool

end Walk

abbrev Walker := Walk.Options → Place → FileTree → Walking

namespace Walk

structure Station where
  place : Place
  real : Place
  deriving DecidableEq, Repr

inductive Sight where
  | file
  | dir (real : Place)
  | nothing
  | fault (fault : WalkFault)
  deriving DecidableEq, Repr

def look (t : FileTree) (o : Options) (trail : List Station) (place real : Place) : Sight :=
  match t.get? real with
  | some (.file _) => .file
  | some .dir => .dir real
  | some (.link _) =>
    if o.followLinks then
      match t.resolve [] place.path with
      | .error fault => .fault (.unreadable place fault)
      | .ok target =>
        if t.isDir target then
          match trail.find? fun s => s.real = target with
          | some s => .fault (.loop place s.place)
          | none => .dir target
        else .file
    else .nothing
  | none => .nothing

def isHidden (n : Name) : Bool :=
  n.head? == some Path.dot

/-- Whether the walk takes an entry: ignore rules decide, then hidden names are left out, then the
options decide. -/
def takes (o : Options) (levels : List Ignore.Level) (place : Place) (n : Name) (isDir : Bool) :
    Bool :=
  !((Ignore.levelVerdict? levels place isDir).getD (isHidden n)) && o.keeps place isDir

def enter (t : FileTree) (o : Options) (levels : List Ignore.Level) (dir : Place) :
    List Ignore.Level :=
  if o.useIgnoreFiles then (Ignore.readLevel t dir).1 :: levels else levels

/-- Walks through what is below a directory, to a given depth, and then goes on. The levels hold the
rules of the directory and of those around it, and the trail the directories that the walk came
through. -/
def below (order : List Name → List Name) (o : Options) :
    Nat → List Ignore.Level → Station → List Station → (FileTree → Walking) → FileTree → Walking
  | 0, _, _, _, next => next
  | depth + 1, levels, here, trail, next => fun t =>
    (order (t.names here.real)).foldr (fun n next t =>
      let place := here.place ++ [n]
      match look t o (here :: trail) place (here.real ++ [n]) with
      | .nothing => next t
      | .fault fault => .item (.fault fault) next
      | .file => if takes o levels place n false then .item (.file place) next else next t
      | .dir real =>
        if takes o levels place n true then
          below order o depth (enter t o levels place) ⟨place, real⟩ (here :: trail) next t
        else next t) next t

/-- A depth that no walk exceeds: the path of a directory gets longer with each step down, and one
that is too long cannot be opened. -/
def maxDepth : Nat := Path.maxPath

def parents (p : Place) : List Place :=
  (List.range p.length).map p.take

def above (t : FileTree) (o : Options) (root : Place) : List
    (Ignore.Level × List Ignore.Complaint) :=
  if o.useIgnoreFiles then (parents root).map (Ignore.readLevel t) else []

def arranged (order : List Name → List Name) : Walker := fun o root t =>
  if t.isDir root then
    let levels := ((above t o root).map Prod.fst).reverse
    let complaints := (above t o root).flatMap Prod.snd
    let inside := fun t =>
      below order o maxDepth (enter t o levels root) ⟨root, root⟩ [] (fun _ => .ended) t
    if complaints = [] then inside t else .item (.fault (.ignoreFiles complaints)) inside
  else .item (.file root) fun _ => .ended

def sorted : Walker :=
  arranged id

end Walk

end Unstamp
