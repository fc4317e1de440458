import Unstamp.Path.Basic

/-! File trees. Links are entries of their own, and no file has two places. -/
namespace Unstamp

/-- The place of an entry: the names from the root down to it. -/
abbrev Place := List Name

def Place.path : Place → Path
  | [] => [Path.slash]
  | n :: p => (n :: p).flatMap (Path.slash :: ·)

inductive Entry where
  | file (data : Bytes)
  | dir
  | link (target : Path)
  deriving DecidableEq, Repr

/-- Entries by their places, of which the first counts, and the places where no file can be opened
for writing. -/
structure FileTree where
  entries : List (Place × Entry) := []
  locked : List Place := []
  deriving DecidableEq, Repr

namespace FileTree

def get? (t : FileTree) : Place → Option Entry
  | [] => some .dir
  | n :: p => t.entries.lookup (n :: p)

def set (t : FileTree) (p : Place) (e : Entry) : FileTree :=
  { t with entries := (p, e) :: t.entries.filter fun x => x.1 != p }

def erase (t : FileTree) (p : Place) : FileTree :=
  { t with entries := t.entries.filter fun x => !p.isPrefixOf x.1 }

def isDir (t : FileTree) (p : Place) : Bool :=
  t.get? p == some .dir

def isLocked (t : FileTree) (p : Place) : Bool :=
  t.locked.contains p

def nameIn? (dir : Place) (p : Place) : Option Name :=
  match p.getLast? with
  | some n => if p.dropLast = dir then some n else none
  | none => none

def ordered : Bytes → Bytes → Bool
  | [], _ => true
  | _ :: _, [] => false
  | a :: r, b :: s => a < b || (a == b && ordered r s)

def insertName (n : Name) : List Name → List Name
  | [] => [n]
  | m :: ms => if ordered n m then n :: m :: ms else m :: insertName n ms

def names (t : FileTree) (dir : Place) : List Name :=
  (t.entries.filterMap fun x => nameIn? dir x.1).foldr
    (fun n ns => if n ∈ ns then ns else insertName n ns) []

@[simp] theorem locked_set (t : FileTree) (p : Place) (e : Entry) :
    (t.set p e).locked = t.locked := rfl

@[simp] theorem get?_root (t : FileTree) : t.get? [] = some .dir := rfl

theorem get?_set_self (t : FileTree) {p : Place} (e : Entry) (h : p ≠ []) :
    (t.set p e).get? p = some e := by
  cases p with
  | nil => contradiction
  | cons n p => simp [get?, set]

theorem get?_set_of_ne (t : FileTree) {p q : Place} (e : Entry) (h : q ≠ p) :
    (t.set p e).get? q = t.get? q := by
  cases q with
  | nil => rfl
  | cons n q =>
    have hne : (n :: q == p) = false := by simpa using h
    rw [get?, get?, set, List.lookup_cons, hne]
    induction t.entries with
    | nil => rfl
    | cons x xs ih =>
      obtain ⟨y, f⟩ := x
      by_cases hy : y = p
      · subst hy
        simp [List.lookup_cons, hne, ih]
      · by_cases hq : n :: q = y
        · simp [hy, hq]
        · have hb : (n :: q == y) = false := by simpa using hq
          simp [List.lookup_cons, hy, hb, ih]

end FileTree

end Unstamp
