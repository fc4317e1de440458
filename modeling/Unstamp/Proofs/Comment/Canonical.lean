import Unstamp.Proofs.Comment.Removal
import Mathlib.Data.Set.Image

namespace Unstamp.Comment

/-- No comment opens anywhere: two slashes never meet, and a star follows every slash with a star
after it. -/
structure Canonical (t : Text) : Prop where
  no_line : ¬ ['/', '/'] <:+: t
  doc_only : ∀ a b, t = a ++ '/' :: '*' :: b → ['*'] <+: b

theorem canonical_iff_suffix {t : Text} : Canonical t ↔ ∀ s, s <:+ t → ¬ Opens s := by
  constructor
  · rintro h s ⟨a, rfl⟩ ho
    rcases opens_cases ho with ⟨r, rfl⟩ | ⟨r, rfl, hr⟩
    · exact h.no_line ⟨a, r, by simp⟩
    · exact hr (h.doc_only a r rfl)
  · intro h
    constructor
    · rintro ⟨a, b, rfl⟩
      exact h ('/' :: '/' :: b) ⟨a, by simp⟩ (opens_line b)
    · rintro a b rfl
      have hs := h ('/' :: '*' :: b) ⟨a, rfl⟩
      exact Decidable.by_contra fun hb => hs ((opens_star b).mpr hb)

theorem canonical_nil : Canonical [] := by
  rw [canonical_iff_suffix]
  intro s hs
  rw [List.suffix_nil.mp hs]
  decide

theorem canonical_cons {c : Char} {r : Text} :
    Canonical (c :: r) ↔ ¬ Opens (c :: r) ∧ Canonical r := by
  simp only [canonical_iff_suffix, List.suffix_cons_iff, forall_eq_or_imp]

/-- A text in which no comment opens is left as it is. -/
theorem remove_of_canonical {t : Text} (h : Canonical t) : remove t = t := by
  induction t with
  | nil => exact remove_nil
  | cons c r ih =>
    obtain ⟨ho, hr⟩ := canonical_cons.mp h
    rw [remove_copy ho, ih hr]

/-- A copied character opens no comment with what removal puts after it: a slash is only ever
followed by what followed it before. -/
theorem not_opens_cons_remove {c : Char} {r : Text} (h : ¬ Opens (c :: r)) :
    ¬ Opens (c :: remove r) := by
  by_cases hc : c = '/'
  · subst hc
    cases r with
    | nil => exact h
    | cons d s =>
      by_cases hl : d = '/'
      · subst hl
        exact absurd (opens_line s) h
      · rw [remove_copy (not_opens_of_ne hl s)]
        by_cases hd : d = '*'
        · subst hd
          obtain ⟨u, rfl⟩ := Decidable.by_contra fun hs => h ((opens_star s).mpr hs)
          rw [opens_star, List.singleton_append, remove_copy (not_opens_of_ne (by decide) u)]
          exact not_not_intro ⟨remove u, rfl⟩
        · exact not_opens_slash hl hd (remove s)
  · exact not_opens_of_ne hc _

/-- No comment opens in what removal leaves, be the comments of the text closed or not. -/
theorem canonical_remove (t : Text) : Canonical (remove t) := by
  induction t using openingInduction with
  | nil => exact canonical_nil
  | line r ih => rw [remove_line]; exact ih
  | block r h ih => rw [remove_block h]; exact ih
  | copy c r h ih =>
    rw [remove_copy h]
    exact canonical_cons.mpr ⟨not_opens_cons_remove h, ih⟩

theorem remove_eq_self_iff {t : Text} : remove t = t ↔ Canonical t :=
  ⟨fun h => h ▸ canonical_remove t, remove_of_canonical⟩

/-- Removal retracts all texts onto those in which no comment opens. They are what it leaves, and
just what it leaves unchanged. -/
theorem remove_retraction :
    (∀ t, Canonical (remove t)) ∧ (∀ u, remove u = u ↔ Canonical u) ∧
      Set.range remove = {u | remove u = u} ∧ ∀ t, remove (remove t) = remove t := by
  have again (t : Text) : remove (remove t) = remove t := remove_of_canonical (canonical_remove t)
  refine ⟨canonical_remove, fun u => remove_eq_self_iff, ?_, again⟩
  apply Set.Subset.antisymm
  · rintro _ ⟨t, rfl⟩
    exact again t
  · intro u hu
    exact ⟨u, hu⟩

end Unstamp.Comment
