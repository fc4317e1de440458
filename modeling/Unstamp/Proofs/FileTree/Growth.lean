import Unstamp.Proofs.FileTree.Overlay

namespace Unstamp

namespace Path

private theorem mem_splitWhere {α : Type} {p : α → Bool} {t s : List α} (hs : s ∈ splitWhere p t)
    {a : α}
    (ha : a ∈ s) : a ∈ t ∧ p a = false := by
  induction t generalizing s with
  | nil =>
    obtain rfl := List.mem_singleton.mp hs
    cases ha
  | cons b t ih =>
    rw [splitWhere] at hs
    split at hs
    · obtain rfl := List.mem_singleton.mp hs
      cases ha
    · rename_i u us ht
      split at hs
      · rcases List.mem_cons.mp hs with rfl | hs
        · cases ha
        · obtain ⟨hm, hp⟩ := ih (ht ▸ hs) ha
          exact ⟨List.mem_cons_of_mem b hm, hp⟩
      · rename_i hb
        rcases List.mem_cons.mp hs with rfl | hs
        · rcases List.mem_cons.mp ha with rfl | ha
          · exact ⟨List.mem_cons_self, Bool.eq_false_iff.mpr hb⟩
          · obtain ⟨hm, hp⟩ := ih (ht ▸ List.mem_cons_self) ha
            exact ⟨List.mem_cons_of_mem b hm, hp⟩
        · obtain ⟨hm, hp⟩ := ih (ht ▸ List.mem_cons_of_mem u hs) ha
          exact ⟨List.mem_cons_of_mem b hm, hp⟩

theorem slash_not_mem_segment {p : Path} {s : Name} (h : s ∈ p.segments) : slash ∉ s := by
  intro hs
  exact absurd (mem_splitWhere h hs).2 (by decide)

private theorem mem_segments_of_steps {p : Path} {n : Name} (h : n ∈ p.steps) : n ∈ p.segments := by
  rw [steps] at h
  rcases List.mem_append.mp h with h | h
  · exact List.dropLast_subset _ (List.mem_filter.mp h).1
  · exact List.mem_of_getLast? (Option.mem_toList.mp h)

end Path

namespace FileTree
open Unstamp.Path
variable {t u w : FileTree} {cwd : Place} {path : Path} {n : Name}

private theorem getLast?_bareSteps (h : (bareSteps path).getLast? = some n) :
    n ≠ [] ∧ n ∈ path.segments := by
  rw [bareSteps, List.getLast?_reverse] at h
  constructor
  · have hn := List.head?_dropWhile_not (fun s : Name => decide (s = [])) path.steps.reverse
    rw [h] at hn
    simpa using hn
  · apply mem_segments_of_steps
    exact List.mem_reverse.mp ((List.dropWhile_sublist _).subset (List.mem_of_head? h))

/-- What a path names last, dots apart, can be the name of an entry. -/
private theorem isName_of_bareSteps (h : (bareSteps path).getLast? = some n)
    (h0 : path.contains 0 = false)
    (hdots : ¬ (n = [dot] ∨ n = [dot, dot])) (hlen : ¬ maxName < n.length) : IsName n := by
  obtain ⟨hne, hseg⟩ := getLast?_bareSteps h
  obtain ⟨hdot, hup⟩ := not_or.mp hdots
  refine ⟨hne, hdot, hup, slash_not_mem_segment hseg, fun hz => ?_, Nat.not_lt.mp hlen⟩
  rw [List.contains_eq_mem, decide_eq_false_iff_not] at h0
  exact h0 (mem_splitWhere hseg hz).1

/-- Making a directory puts it into one that is there, in a free place. -/
theorem makeDir_ok (h : t.makeDir cwd path = .ok u) :
    ∃ dir n, t.get? dir = some .dir ∧ IsName n ∧ t.get? (dir ++ [n]) = none ∧
      u = t.set (dir ++ [n]) .dir := by
  rw [makeDir] at h
  split at h
  · cases h
  · rename_i hm
    have h0 : path.contains 0 = false := by
      rw [malformed?] at hm
      split at hm
      · cases hm
      · split at hm
        · cases hm
        · rename_i h0
          exact Bool.eq_false_iff.mpr h0
    simp only at h
    split at h
    · cases h
    · cases h
    · cases h
    · rename_i dir n _ hlast
      split at h
      · cases h
      · rename_i hd
        split at h
        · cases h
        · rename_i hdots
          split at h
          · cases h
          · rename_i hlen
            split at h
            · cases h
            · rename_i hfree
              cases h
              exact ⟨dir, n, beq_iff_eq.mp (Decidable.of_not_not hd),
                isName_of_bareSteps hlast h0 hdots hlen,
                Option.not_isSome_iff_eq_none.mp hfree, rfl⟩

/-- Nothing is new but directories. -/
def Grown (t u : FileTree) : Prop :=
  ∀ p, u.get? p = t.get? p ∨ t.get? p = none ∧ u.get? p = some .dir

namespace Grown
variable {p : Place} {e : Entry}

theorem refl (t : FileTree) : t.Grown t :=
  fun _ => .inl rfl

theorem trans (h : t.Grown u) (h' : u.Grown w) : t.Grown w := by
  intro p
  rcases h' p with hw | ⟨hu, hw⟩
  · rw [hw]
    exact h p
  · rcases h p with ht | ⟨-, hu'⟩
    · exact .inr ⟨ht ▸ hu, hw⟩
    · rw [hu] at hu'
      cases hu'

theorem set (h : t.get? p = none) : t.Grown (t.set p .dir) := by
  intro q
  have hne : p ≠ [] := by
    rintro rfl
    cases h
  by_cases hq : q = p
  · subst hq
    exact .inr ⟨h, t.get?_set_self .dir hne⟩
  · exact .inl (t.get?_set_of_ne .dir hq)

theorem eq_of_ne_dir (h : t.Grown u) (hu : u.get? p = some e) (he : e ≠ .dir) :
    t.get? p = some e := by
  rcases h p with hp | ⟨-, hp⟩
  · exact hp ▸ hu
  · rw [hu] at hp
    exact absurd (Option.some.inj hp) he

end Grown

theorem WellFormed.grown_makeDir (ht : t.WellFormed) (h : t.makeDir cwd path = .ok u) :
    t.Grown u ∧ u.WellFormed := by
  obtain ⟨dir, n, hd, hn, hfree, rfl⟩ := makeDir_ok h
  exact ⟨.set hfree, ht.set hd hn (by rw [hfree]; nofun) .dir⟩

theorem WellFormed.grown_makeDirs (ht : t.WellFormed) (paths : List Path) :
    t.Grown (t.makeDirs cwd paths).2 ∧ (t.makeDirs cwd paths).2.WellFormed := by
  induction paths with
  | nil => exact ⟨.refl t, ht⟩
  | cons p paths ih =>
    rw [FileTree.makeDirs]
    split
    · rename_i u hm
      exact ht.grown_makeDir hm
    · split
      · rename_i fault u hs
        rwa [hs] at ih
      · rename_i u hs
        rw [hs] at ih
        split
        · rename_i w hm
          obtain ⟨hgrown, hwf⟩ := ih.2.grown_makeDir hm
          exact ⟨ih.1.trans hgrown, hwf⟩
        · exact ih
    · exact ⟨.refl t, ht⟩

end FileTree

end Unstamp
