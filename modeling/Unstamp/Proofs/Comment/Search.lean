import Unstamp.Proofs.Comment.Removal

namespace Unstamp.Comment

def cutBySearch (t : Text) : Text :=
  match _ : firstIndex? Opens t with
  | none => t
  | some i =>
    t.take i ++
      if OpensLine (t.drop i) then cutBySearch (after lineEnd (t.drop (i + 2)))
      else cutBySearch (after blockEnd (t.drop (i + 2)))
termination_by t.length
decreasing_by
  all_goals
    have hi := firstIndex?_lt (by decide) ‹firstIndex? Opens t = some i›
    refine Nat.lt_of_le_of_lt (after_suffix _ _).length_le ?_
    rw [List.length_drop]
    omega

private theorem cutBySearch_of_none {t : Text} (h : firstIndex? Opens t = none) :
    cutBySearch t = t := by
  rw [cutBySearch]
  split
  · rfl
  · rename_i hi
    rw [h] at hi
    cases hi

private theorem cutBySearch_of_some {t : Text} {i : Nat} (h : firstIndex? Opens t = some i) :
    cutBySearch t = t.take i ++
      if OpensLine (t.drop i) then cutBySearch (after lineEnd (t.drop (i + 2)))
      else cutBySearch (after blockEnd (t.drop (i + 2))) := by
  rw [cutBySearch]
  split
  · rename_i hi
    rw [h] at hi
    cases hi
  · rename_i hi
    rw [h] at hi
    cases hi
    rfl

private theorem cutBySearch_of_opens {t : Text} (h : Opens t) :
    cutBySearch t =
      if OpensLine t then cutBySearch (after lineEnd (t.drop 2))
      else cutBySearch (after blockEnd (t.drop 2)) := by
  have hi : firstIndex? Opens t = some 0 := by
    cases t with
    | nil => exact absurd h (by decide)
    | cons c r => rw [firstIndex?_cons, if_pos h]
  exact cutBySearch_of_some hi

private theorem cutBySearch_line (r : Text) :
    cutBySearch ('/' :: '/' :: r) = cutBySearch (after lineEnd r) := by
  rw [cutBySearch_of_opens (opens_line r), if_pos ⟨r, rfl⟩]
  rfl

private theorem cutBySearch_block {r : Text} (h : ¬ ['*'] <+: r) :
    cutBySearch ('/' :: '*' :: r) = cutBySearch (after blockEnd r) := by
  have hl : ¬ OpensLine ('/' :: '*' :: r) := by simp [OpensLine, List.cons_prefix_cons]
  rw [cutBySearch_of_opens ((opens_star r).mpr h), if_neg hl]
  rfl

private theorem cutBySearch_copy {c : Char} {r : Text} (h : ¬ Opens (c :: r)) :
    cutBySearch (c :: r) = c :: cutBySearch r := by
  have hi := firstIndex?_cons Opens c r
  rw [if_neg h] at hi
  cases hr : firstIndex? Opens r with
  | none =>
    rw [hr] at hi
    rw [cutBySearch_of_none hi, cutBySearch_of_none hr]
  | some i =>
    rw [hr] at hi
    rw [cutBySearch_of_some hi, cutBySearch_of_some hr]
    rfl

/-- The one-pass scan and the search remove the same from every text. -/
theorem remove_eq_cutBySearch (t : Text) : remove t = cutBySearch t := by
  induction t using openingInduction with
  | nil => rw [remove_nil, cutBySearch_of_none rfl]
  | line r ih => rw [remove_line, cutBySearch_line, ih]
  | block r h ih => rw [remove_block h, cutBySearch_block h, ih]
  | copy c r h ih => rw [remove_copy h, cutBySearch_copy h, ih]

end Unstamp.Comment
