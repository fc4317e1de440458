import Unstamp.Proofs.FileTree.Shape

namespace Unstamp.FileTree
variable {t t' u u' w : FileTree} {p q : Place} {e : Entry} {f g : Place → Option Entry}

/-- Some entries, laid over one tree, give another. -/
structure Overlaid (t : FileTree) (f : Place → Option Entry) (u : FileTree) : Prop where
  get? : ∀ p, u.get? p = (f p).or (t.get? p)
  locked : u.locked = t.locked

namespace Overlaid

theorem refl (t : FileTree) : t.Overlaid (fun _ => none) t :=
  ⟨fun _ => rfl, rfl⟩

theorem set (t : FileTree) (e : Entry) (h : p ≠ []) :
    t.Overlaid (fun q => if q = p then some e else none) (t.set p e) := by
  refine ⟨fun q => ?_, rfl⟩
  by_cases hq : q = p
  · subst hq
    rw [get?_set_self t e h, if_pos rfl, Option.some_or]
  · rw [get?_set_of_ne t e hq, if_neg hq, Option.none_or]

theorem trans (h : t.Overlaid f u) (h' : u.Overlaid g w) :
    t.Overlaid (fun p => (g p).or (f p)) w := by
  refine ⟨fun p => ?_, h'.locked.trans h.locked⟩
  rw [h'.get?, h.get?, Option.or_assoc]

theorem congr (h : t.Overlaid f u) (he : ∀ p, f p = g p) : t.Overlaid g u :=
  funext he ▸ h

end Overlaid

structure Alike (t u : FileTree) : Prop where
  get? : ∀ p, t.get? p = u.get? p
  locked : t.locked = u.locked

namespace Alike

theorem refl (t : FileTree) : t.Alike t :=
  ⟨fun _ => rfl, rfl⟩

theorem trans (h : t.Alike u) (h' : u.Alike w) : t.Alike w :=
  ⟨fun p => (h.get? p).trans (h'.get? p), h.locked.trans h'.locked⟩

theorem sameShape (h : t.Alike u) : t.SameShape u :=
  fun p => .inl (h.get? p)

theorem overlaid (h : t.Alike t') (hu : t.Overlaid f u) (hu' : t'.Overlaid f u') : u.Alike u' := by
  refine ⟨fun p => ?_, ?_⟩
  · rw [hu.get?, hu'.get?, h.get?]
  · rw [hu.locked, hu'.locked, h.locked]

end Alike

/-- A new entry has a proper name and stands in a directory, so that the tree stays as a file
system has it. -/
theorem WellFormed.set (ht : t.WellFormed) (hd : t.get? p = some .dir) {n : Name}
    (hn : Path.IsName n) (hf : t.get? (p ++ [n]) ≠ some .dir) (e : Entry) :
    (t.set (p ++ [n]) e).WellFormed := by
  have hne : p ++ [n] ≠ [] := List.concat_ne_nil n p
  constructor
  · intro q e' he m hm
    by_cases hq : q = p ++ [n]
    · subst hq
      rcases List.mem_append.mp hm with hm | hm
      · exact ht.name hd m hm
      · exact List.mem_singleton.mp hm ▸ hn
    · rw [t.get?_set_of_ne e hq] at he
      exact ht.name he m hm
  · intro q m e' he
    by_cases hq : q ++ [m] = p ++ [n]
    · obtain ⟨rfl, -⟩ := List.append_inj' hq rfl
      rw [t.get?_set_of_ne e (by simp), hd]
    · rw [t.get?_set_of_ne e hq] at he
      have hd' := ht.parent he
      rw [t.get?_set_of_ne e, hd']
      rintro rfl
      exact hf hd'

end Unstamp.FileTree
