import Unstamp.Proofs.FileTree.Leads

namespace Unstamp.FileTree
variable {t u : FileTree} {p : Place}

/-- The same entries stand everywhere, but for the bytes of files. -/
def SameShape (t u : FileTree) : Prop :=
  ∀ p, t.SameAt u p

namespace SameShape

theorem symm (h : t.SameShape u) : u.SameShape t :=
  fun p => (h p).symm

theorem trans {w : FileTree} (h : t.SameShape u) (h' : u.SameShape w) : t.SameShape w :=
  fun p => (h p).trans (h' p)

theorem file (h : t.SameShape u) {data : Bytes} (hp : t.get? p = some (.file data)) :
    ∃ data', u.get? p = some (.file data') := by
  rcases h p with he | ⟨_, data', _, hu⟩
  · exact ⟨data, he.symm.trans hp⟩
  · exact ⟨data', hu⟩

theorem isDir (h : t.SameShape u) (p : Place) : t.isDir p = u.isDir p :=
  (h p).isDir

theorem wellFormed (h : t.SameShape u) (ht : t.WellFormed) : u.WellFormed := by
  have hsome {p : Place} {e : Entry} (he : u.get? p = some e) : ∃ e', t.get? p = some e' := by
    rcases h p with hp | ⟨data, _, hp, _⟩
    · exact ⟨e, hp.trans he⟩
    · exact ⟨_, hp⟩
  constructor
  · intro p e he
    obtain ⟨e', he'⟩ := hsome he
    exact ht.name he'
  · intro p n e he
    obtain ⟨e', he'⟩ := hsome he
    have hd := ht.parent he'
    rcases h p with hp | ⟨data, _, hp, _⟩
    · exact hp.symm.trans hd
    · rw [hp] at hd
      cases hd

theorem follow (h : t.SameShape u) (creating : Bool) (links : Nat) (here : Place)
    (names : List Name) :
    t.follow creating links here names = u.follow creating links here names :=
  follow_congr creating links fun m n _ _ => ⟨h m, h (m ++ [n])⟩

theorem find (h : t.SameShape u) (creating : Bool) (cwd : Place) (p : Path) :
    t.find creating cwd p = u.find creating cwd p := by
  rw [FileTree.find, FileTree.find]
  simp only [h.follow]

theorem resolve (h : t.SameShape u) (cwd : Place) (p : Path) :
    t.resolve cwd p = u.resolve cwd p := by
  rw [FileTree.resolve, FileTree.resolve, h.find]

end SameShape

/-- Other bytes in a file leave the shape of a tree as it is. -/
theorem sameShape_set_file {data : Bytes} (h : t.get? p = some (.file data)) (data' : Bytes) :
    t.SameShape (t.set p (.file data')) := by
  intro q
  by_cases hq : q = p
  · subst hq
    have hne : q ≠ [] := by
      rintro rfl
      cases h
    exact .inr ⟨data, data', h, t.get?_set_self _ hne⟩
  · exact .inl (t.get?_set_of_ne _ hq).symm

def Holds (t : FileTree) (p : Place) : Prop :=
  t.isDir p = true ∨ ∃ data, t.get? p = some (.file data)

namespace WellFormed

theorem isDir_dropLast (ht : t.WellFormed) (h : t.isDir p = true) : t.isDir p.dropLast = true := by
  rcases p.eq_nil_or_concat with rfl | ⟨q, n, rfl⟩
  · rfl
  · rw [List.concat_eq_append] at h ⊢
    rw [List.dropLast_concat, FileTree.isDir, ht.parent (beq_iff_eq.mp h)]
    rfl

theorem holds_of_follow (ht : t.WellFormed) {creating : Bool} {links : Nat} {here : Place}
    {names : List Name} (hh : t.Holds here ∨ names ≠ [])
    (h : t.follow creating links here names = .ok (.entry p)) : t.Holds p := by
  fun_induction FileTree.follow t creating links here names with
  | case1 links here =>
    cases h
    exact hh.resolve_right (not_not_intro rfl)
  | case3 links here n rest hd hn ih => exact ih (.inl (.inl (Decidable.of_not_not hd))) h
  | case4 links here rest hd hn ih =>
    exact ih (.inl (.inl (ht.isDir_dropLast (Decidable.of_not_not hd)))) h
  | case10 here n rest hd hn hup hc hlen target hg links ih =>
    refine ih (.inl (.inl ?_)) h
    split
    · rfl
    · exact Decidable.of_not_not hd
  | case11 links here n rest hd hn hup hc hlen e hl hg ih =>
    refine ih (.inl ?_) h
    cases e with
    | file data => exact .inr ⟨data, hg⟩
    | dir => exact .inl (beq_iff_eq.mpr hg)
    | link target => exact absurd rfl (hl target)
  | case2 | case5 | case6 | case7 | case8 | case9 => cases h

/-- What a path resolves to is a directory or a file. -/
theorem holds_of_resolve (ht : t.WellFormed) {cwd : Place} {path : Path}
    (h : t.resolve cwd path = .ok p) : t.Holds p := by
  rw [resolve] at h
  split at h
  · cases h
  · cases h
  · rename_i place he
    cases h
    exact ht.holds_of_follow (.inr (Path.steps_ne_nil path)) (find_eq_ok_iff.mp he).2

end WellFormed

end Unstamp.FileTree
