import Unstamp.Proofs.Walk

namespace Unstamp

def Visit.place? : Visit → Option Place
  | file p => some p
  | fault _ => none

namespace Walk
variable {t : FileTree} {o : Options} {lets : Place → Bool → Bool} {p here root : Place}

def files (vs : List Visit) : List Place :=
  vs.filterMap Visit.place?

theorem mem_files {vs : List Visit} : p ∈ files vs ↔ .file p ∈ vs := by
  rw [files, List.mem_filterMap]
  constructor
  · rintro ⟨v, hv, h⟩
    cases v with
    | file q =>
      cases h
      exact hv
    | fault f => cases h
  · intro h
    exact ⟨_, h, rfl⟩

theorem files_append (vs ws : List Visit) : files (vs ++ ws) = files vs ++ files ws :=
  List.filterMap_append

theorem files_flatMap {α : Type} (l : List α) (f : α → List Visit) :
    files (l.flatMap f) = l.flatMap fun a => files (f a) :=
  List.filterMap_flatMap

/-- Whether a test lets a walk through from a directory to a file, by the names on the way. -/
def opens (lets : Place → Bool → Bool) (here : Place) : List Name → Bool
  | [] => true
  | [n] => lets (here ++ [n]) false
  | n :: m :: names => lets (here ++ [n]) true && opens lets (here ++ [n]) (m :: names)

end Walk

/-! The walk that goes through each directory in some order. -/
namespace Walk
variable {t : FileTree} {o : Options} {order : List Name → List Name} {lets : Place → Bool → Bool}
  {p root : Place}

end Walk

end Unstamp
