import Unstamp.Proofs.FileTree.Places

namespace Unstamp

namespace Path
variable {n : Name} {names : List Name}

/-- What stands before a slash and what stands after it are cut apart from each other. -/
theorem segments_append_slash (p r : Path) :
    segments (p ++ slash :: r) = segments p ++ segments r := by
  induction p with
  | nil =>
    obtain ⟨s, ss, hs⟩ := List.exists_cons_of_ne_nil (splitWhere_ne_nil (· == slash) r)
    change splitWhere (· == slash) (slash :: r) = [] :: splitWhere (· == slash) r
    rw [splitWhere, hs]
    rfl
  | cons a p ih =>
    obtain ⟨s, ss, hs⟩ := List.exists_cons_of_ne_nil (splitWhere_ne_nil (· == slash) p)
    rw [segments, segments, hs] at ih
    rw [List.cons_append, segments, segments, splitWhere, splitWhere, hs, ih]
    dsimp only [List.cons_append]
    split <;> rfl

def IsNormal (n : Name) : Prop :=
  n ≠ [] ∧ n ≠ [dot] ∧ n ≠ [dot, dot] ∧ slash ∉ n

instance (n : Name) : Decidable (IsNormal n) :=
  inferInstanceAs (Decidable (_ ∧ _))

theorem IsName.normal (h : IsName n) : IsNormal n :=
  ⟨h.1, h.2.1, h.2.2.1, h.2.2.2.1⟩

theorem IsNormal.step? (h : IsNormal n) : step? n = some (.name n) := by
  rw [Path.step?, if_neg (not_or.mpr ⟨h.1, h.2.1⟩), if_neg h.2.2.1]

/-- Nothing is left out at an end that is a name. -/
theorem trimRight_append (hne : names ≠ []) (h : ∀ n ∈ names, IsNormal n) (body : List Name) :
    trimRight (body ++ names) = body ++ names := by
  obtain ⟨q, n, rfl⟩ := names.eq_nil_or_concat.resolve_left hne
  rw [List.concat_eq_append] at h ⊢
  rw [trimRight, ← List.append_assoc, List.reverse_append]
  simp [(h n (by simp)).step?]

end Path

namespace Place
open Unstamp.Path
variable {p : Place} {n : Name}

private theorem path_of_ne_nil (h : p ≠ []) : p.path = p.flatMap (slash :: ·) := by
  cases p with
  | nil => contradiction
  | cons n p => rfl

theorem path_concat (p : Place) (n : Name) :
    path (p ++ [n]) = p.flatMap (slash :: ·) ++ slash :: n := by
  rw [path_of_ne_nil (List.concat_ne_nil n p), List.flatMap_append, List.flatMap_singleton]

theorem length_le_length_path (p : Place) : p.length ≤ p.path.length := by
  have hle : p.length ≤ (p.flatMap (slash :: ·)).length := by
    induction p with
    | nil => exact Nat.le_refl 0
    | cons n p ih =>
      rw [List.flatMap_cons, List.length_append, List.length_cons, List.length_cons]
      omega
  cases p with
  | nil => exact Nat.zero_le 1
  | cons n p => exact hle

theorem length_path_le_concat (p : Place) (n : Name) :
    p.path.length ≤ (path (p ++ [n])).length := by
  rw [path_concat, List.length_append, List.length_cons]
  cases p with
  | nil => exact Nat.le_add_left 1 _
  | cons m p => exact Nat.le_add_right _ _

private theorem flatMap_slash (h : p ≠ []) : p.flatMap
    (slash :: ·) = slash :: joinWith slash p := by
  induction p with
  | nil => contradiction
  | cons n p ih =>
    cases p with
    | nil => exact List.flatMap_singleton _ n
    | cons m p =>
      rw [List.flatMap_cons, ih (List.cons_ne_nil m p)]
      rfl

theorem segments_joinWith (h : ∀ n ∈ p, slash ∉ n) (hp : p ≠ []) :
    segments (joinWith slash p) = p := by
  have hs := segments_flatMap h
  rw [flatMap_slash hp, ← List.nil_append (slash :: _), segments_append_slash] at hs
  exact (List.cons.inj hs).2

private theorem layout_path (h : ∀ n ∈ p, IsName n) (hp : p ≠ []) :
    Path.layout p.path = ⟨.root, p⟩ := by
  rw [path_of_ne_nil hp, flatMap_slash hp, layout, if_pos rfl,
    segments_joinWith (fun n hn => (h n hn).2.2.2.1) hp]

private theorem trimRight_names (h : ∀ n ∈ p, IsName n) : Path.trimRight p = p := by
  by_cases hp : p = []
  · rw [hp]
    rfl
  · exact trimRight_append hp (fun n hn => (h n hn).normal) []

theorem parent?_path_concat (h : ∀ m ∈ p ++ [n], IsName m) :
    Path.parent? (path (p ++ [n])) = some p.path := by
  have hp : ∀ m ∈ p, IsName m := fun m hm => h m (List.mem_append_left [n] hm)
  obtain ⟨m, q, hq⟩ := List.exists_cons_of_ne_nil (List.concat_ne_nil n p)
  have htext : Layout.path ⟨.root, p⟩ = p.path := by
    cases p with
    | nil => rfl
    | cons m p =>
      rw [path_of_ne_nil (List.cons_ne_nil m p), flatMap_slash (List.cons_ne_nil m p)]
      rfl
  rw [parent?, layout_path h (List.concat_ne_nil n p)]
  simp only [trimRight_names h, ← htext]
  rw [hq]
  simp only
  rw [← hq, List.dropLast_concat, trimRight_names hp]

theorem bareSteps_path (h : ∀ m ∈ p, IsName m) : FileTree.bareSteps p.path = p := by
  rw [FileTree.bareSteps, steps_path h]
  split
  · rename_i hp
    subst hp
    rfl
  · rcases p.eq_nil_or_concat with rfl | ⟨q, n, rfl⟩
    · rfl
    · rw [List.concat_eq_append] at h ⊢
      have hn := (h n (by simp)).1
      simp [hn]

end Place

end Unstamp
