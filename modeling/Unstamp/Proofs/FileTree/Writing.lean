import Unstamp.Proofs.FileTree.Shape

namespace Unstamp.FileTree
variable {t u : FileTree} {cwd p : Place} {path : Path} {names : List Name}
  {links : Nat} {here : Place} {found : Found}

/-- A link is followed from the directory that it stands in, or from the root. -/
theorem follow_link {creating : Bool} {n : Name} {target : Path} (hd : t.isDir here = true)
    (hn : Path.IsName n) (hg : t.get? (here ++ [n]) = some (.link target))
    (hlast : ¬ (creating = true ∧ names = [[]])) :
    t.follow creating (links + 1) here (n :: names) =
      t.follow creating links (if target.isAbsolute then [] else here) (target.steps ++ names) := by
  obtain ⟨hn0, hn1, hn2, -, -, hlen⟩ := hn
  rw [follow, if_neg (not_not_intro hd), if_neg (by simp [hn0, hn1]), if_neg hn2, if_neg hlast,
    if_neg (Nat.not_lt.mpr hlen), hg]

/-- What a path leads to when a file is to be created, it leads to in any case. -/
private theorem follow_of_creating (h : t.follow true links here names = .ok found) :
    t.follow false links here names = .ok found := by
  fun_induction FileTree.follow t true links here names with
  | case1 => rwa [follow]
  | case3 links here n rest hd hn ih => rw [follow, if_neg hd, if_pos hn, ih h]
  | case4 links here rest hd hn ih => rw [follow, if_neg hd, if_neg hn, if_pos rfl, ih h]
  | case7 links here n hd hn hup hlen hg hc =>
    rw [follow, if_neg hd, if_neg hn, if_neg hup, if_neg (by simp), if_neg hlen, hg]
    exact h
  | case10 here n rest hd hn hup hc hlen target hg links ih =>
    rw [follow, if_neg hd, if_neg hn, if_neg hup, if_neg (by simp), if_neg hlen, hg]
    exact ih h
  | case11 links here n rest hd hn hup hc hlen e hl hg ih =>
    rw [follow, if_neg hd, if_neg hn, if_neg hup, if_neg (by simp), if_neg hlen, hg]
    cases e with
    | link target => exact absurd rfl (hl target)
    | file data => exact ih h
    | dir => exact ih h
  | case2 | case5 | case6 | case8 | case9 => cases h

/-- Nothing stands at a free name. -/
private theorem free_of_follow {creating : Bool}
    (h : t.follow creating links here names = .ok (.free p)) : t.get? p = none := by
  fun_induction FileTree.follow t creating links here names with
  | case3 links here n rest hd hn ih => exact ih h
  | case4 links here rest hd hn ih => exact ih h
  | case7 links here n hd hn hup hlen hg hc =>
    cases h
    exact hg
  | case10 here n rest hd hn hup hc hlen target hg links ih => exact ih h
  | case11 links here n rest hd hn hup hc hlen e hl hg ih => exact ih h
  | case1 | case2 | case5 | case6 | case8 | case9 => cases h

/-- Where a path led, it leads once a file stands there: at a name that was free, or in place of
another file. -/
theorem Kept.follow (hk : t.Kept u) (h : t.follow false links here names = .ok found)
    (hp : found = .entry p ∨ found = .free p ∧ ∃ data, u.get? p = some (.file data)) :
    u.follow false links here names = .ok (.entry p) := by
  fun_induction FileTree.follow t false links here names with
  | case1 links here =>
    cases h
    obtain he | ⟨hf, -⟩ := hp
    · rw [FileTree.follow, he]
    · cases hf
  | case3 links here n rest hd hn ih =>
    have hd' := hk.isDir (Decidable.of_not_not hd)
    rw [FileTree.follow, if_neg (not_not_intro hd'), if_pos hn, ih h]
  | case4 links here rest hd hn ih =>
    have hd' := hk.isDir (Decidable.of_not_not hd)
    rw [FileTree.follow, if_neg (not_not_intro hd'), if_neg hn, if_pos rfl, ih h]
  | case7 links here n hd hn hup hlen hg hc =>
    have hd' := hk.isDir (Decidable.of_not_not hd)
    cases h
    obtain he | ⟨hf, data, hfile⟩ := hp
    · cases he
    · cases hf
      rw [FileTree.follow, if_neg (not_not_intro hd'), if_neg hn, if_neg hup, if_neg hc,
        if_neg hlen, hfile]
      show u.follow false links (here ++ [n]) [] = .ok (.entry (here ++ [n]))
      rw [FileTree.follow]
  | case10 here n rest hd hn hup hc hlen target hg links ih =>
    have hd' := hk.isDir (Decidable.of_not_not hd)
    have hg' : u.get? (here ++ [n]) = some (.link target) := by
      rcases hk _ _ hg with hu | ⟨_, _, hne, -⟩
      · exact hu
      · cases hne
    rw [FileTree.follow, if_neg (not_not_intro hd'), if_neg hn, if_neg hup, if_neg hc, if_neg hlen,
      hg']
    exact ih h
  | case11 links here n rest hd hn hup hc hlen e hl hg ih =>
    have hd' := hk.isDir (Decidable.of_not_not hd)
    rw [FileTree.follow, if_neg (not_not_intro hd'), if_neg hn, if_neg hup, if_neg hc, if_neg hlen]
    rcases hk _ _ hg with hu | ⟨_, _, -, hu⟩
    · rw [hu]
      cases e with
      | link target => exact absurd rfl (hl target)
      | file data => exact ih h
      | dir => exact ih h
    · rw [hu]
      exact ih h
  | case2 | case5 | case6 | case8 | case9 => cases h

private theorem find_of_creating (h : t.find true cwd path = .ok found) :
    t.find false cwd path = .ok found := by
  obtain ⟨hm, hf⟩ := find_eq_ok_iff.mp h
  exact find_eq_ok_iff.mpr ⟨hm, follow_of_creating hf⟩

theorem Kept.find (hk : t.Kept u) (h : t.find false cwd path = .ok found)
    (hp : found = .entry p ∨ found = .free p ∧ ∃ data, u.get? p = some (.file data)) :
    u.find false cwd path = .ok (.entry p) := by
  obtain ⟨hm, hf⟩ := find_eq_ok_iff.mp h
  exact find_eq_ok_iff.mpr ⟨hm, hk.follow hf hp⟩

theorem find_of_resolve (h : t.resolve cwd path = .ok p) :
    t.find false cwd path = .ok (.entry p) := by
  rw [resolve] at h
  split at h
  · cases h
  · cases h
  · rename_i hf
    cases h
    exact hf

/-- Where a path leads, it leads from then on. -/
theorem Kept.resolve (hk : t.Kept u) (h : t.resolve cwd path = .ok p) :
    u.resolve cwd path = .ok p := by
  rw [FileTree.resolve, hk.find (find_of_resolve h) (.inl rfl)]

/-- Where a write to a path puts its file: at a name that is free, or where a file stands that the
path leads to. -/
inductive Slot (t : FileTree) (cwd : Place) (path : Path) (p : Place) : Prop where
  | free (hf : t.find false cwd path = .ok (.free p)) (hg : t.get? p = none)
  | file {old : Bytes} (hf : t.find false cwd path = .ok (.entry p))
      (hg : t.get? p = some (.file old))

theorem WellFormed.slot (ht : t.WellFormed) (h : t.writePlace cwd path = .ok p) :
    t.Slot cwd path p := by
  rw [writePlace] at h
  split at h
  · cases h
  · rename_i place hf
    split at h
    · cases h
    · cases h
      exact .free (find_of_creating hf) (free_of_follow (find_eq_ok_iff.mp hf).2)
  · rename_i place hf
    split at h
    · cases h
    · rename_i hd
      split at h
      · cases h
      · cases h
        have hentry := find_of_creating hf
        have hplace : t.resolve cwd path = .ok p := by
          rw [resolve, hentry]
        obtain hdir | ⟨old, hold⟩ := ht.holds_of_resolve hplace
        · exact absurd hdir hd
        · exact .file hentry hold

namespace Slot

private theorem ne_root (h : t.Slot cwd path p) : p ≠ [] := by
  rintro rfl
  cases h with
  | free _ hg | file _ hg => cases hg

theorem get?_set (h : t.Slot cwd path p) (data : Bytes) :
    (t.set p (.file data)).get? p = some (.file data) :=
  t.get?_set_self _ h.ne_root

theorem kept (h : t.Slot cwd path p) (data : Bytes) : t.Kept (t.set p (.file data)) := by
  intro q e he
  by_cases hq : q = p
  · subst hq
    have hset := h.get?_set data
    cases h with
    | free _ hg => cases hg.symm.trans he
    | file _ hg =>
      cases hg.symm.trans he
      exact .inr ⟨_, data, rfl, hset⟩
  · exact .inl ((t.get?_set_of_ne _ hq).trans he)

/-- After the write the path leads to the file. -/
theorem resolve_set (h : t.Slot cwd path p) (data : Bytes) :
    (t.set p (.file data)).resolve cwd path = .ok p := by
  have hk := h.kept data
  have hset := h.get?_set data
  have hfind : (t.set p (.file data)).find false cwd path = .ok (.entry p) := by
    cases h with
    | free hf _ => exact hk.find hf (.inr ⟨rfl, data, hset⟩)
    | file hf _ => exact hk.find hf (.inl rfl)
  rw [resolve, hfind]

end Slot

end Unstamp.FileTree
