import Unstamp.Proofs.FileTree.Overlay
import Unstamp.Proofs.FileTree.Ways
import Unstamp.Proofs.Path

namespace Unstamp.FileTree
open Unstamp.Path
variable {t u : FileTree} {p q : Place} {n : Name} {e : Entry}

private theorem not_below_self (p : Place) (n : Name) : ¬ p ++ [n] <+: p := by
  intro h
  have hlen := h.length_le
  rw [List.length_append, List.length_singleton] at hlen
  omega

/-- One step of making the directories above a place. -/
private theorem lineage_concat (hp : ∀ m ∈ p ++ [n], IsName m) (k : Nat) :
    lineage (k + 1) (Place.path (p ++ [n])) = Place.path (p ++ [n]) :: lineage k p.path := by
  rw [lineage, Place.parent?_path_concat hp]

/-- The directories that are missing on the way down to a place. -/
def paving (t : FileTree) (p q : Place) : Option Entry :=
  if q <+: p ∧ t.get? q = none then some .dir else none

private theorem paving_of_dir (ht : t.WellFormed) (hp : t.get? p = some .dir) (q : Place) :
    t.paving p q = none := by
  refine if_neg ?_
  rintro ⟨hq, hn⟩
  rw [ht.dir_above hp hq] at hn
  cases hn

theorem paving_below (t : FileTree) (p : Place) (n : Name) : t.paving p (p ++ [n]) = none :=
  if_neg fun h => not_below_self p n h.1

/-- The way down to a place is made whole. -/
theorem dir_of_paving (ho : t.isOpen p = true) (hl : t.Unlinked p)
    (hu : t.Overlaid (t.paving p) u) : u.get? p = some .dir := by
  rw [hu.get?, paving]
  cases he : t.get? p with
  | none => rw [if_pos ⟨List.prefix_refl p, rfl⟩, Option.some_or]
  | some e =>
    have hd := eq_dir_of_open ho hl he
    rw [he] at hd
    rw [if_neg (fun h => nomatch h.2), Option.none_or, hd]

private theorem paving_concat (hn : t.get? (p ++ [n]) = none) (q : Place) :
    t.paving (p ++ [n]) q =
      (if q = p ++ [n] then some Entry.dir else none).or (t.paving p q) := by
  rw [paving, paving]
  by_cases hq : q = p ++ [n]
  · subst hq
    rw [if_pos ⟨List.prefix_refl _, hn⟩, if_pos rfl, Option.some_or]
  · simp only [List.prefix_concat_iff, hq, false_or, if_false, Option.none_or]

theorem unlinked_of_paving (hu : t.Overlaid (t.paving q) u) (h : t.Unlinked p) : u.Unlinked p := by
  intro r hr target he
  rw [hu.get?, paving] at he
  split at he
  · cases he
  · exact h r hr target he

namespace WellFormed

/-- A directory is made in one that is there, where nothing stands yet. -/
private theorem makeDir_path (ht : t.WellFormed) (hp : ∀ m ∈ p ++ [n], IsName m)
    (hl : t.Unlinked (p ++ [n])) :
    t.makeDir [] (Place.path (p ++ [n])) =
      if maxPath < (Place.path (p ++ [n])).length then .error .nameTooLong
      else if t.isDir p then
        if (t.get? (p ++ [n])).isSome then .error .alreadyThere
        else .ok (t.set (p ++ [n]) .dir)
      else .error (if t.isOpen p then .missing else .notDirectory) := by
  have hp' : ∀ m ∈ p, IsName m := fun m hm => hp m (List.mem_append_left [n] hm)
  have hn : IsName n := hp n (List.mem_append_right p (List.mem_singleton.mpr rfl))
  rw [makeDir, malformed?_path hp]
  by_cases hlen : maxPath < (Place.path (p ++ [n])).length
  · rw [if_pos hlen, if_pos hlen]
  · have hfollow := ht.follow_unlinked false maxLinks (p := []) (q := p) rfl hp'
      (hl.above (List.prefix_append p [n]))
    rw [List.nil_append] at hfollow
    simp only [if_neg hlen, Place.bareSteps_path hp, List.dropLast_concat, List.getLast?_concat,
      origin_path]
    by_cases hd : t.get? p = some .dir
    · have hdir : t.isDir p = true := isDir_iff.mpr hd
      rw [hd] at hfollow
      simp only [hfollow, hdir, Option.isSome_some, if_true, not_true, if_false,
        if_neg (not_or.mpr ⟨hn.2.1, hn.2.2.1⟩), if_neg (Nat.not_lt.mpr hn.2.2.2.2.2)]
    · have hdir : t.isDir p = false := isDir_eq_false_iff.mpr hd
      cases he : t.get? p with
      | some e =>
        have hopen : t.isOpen p = false := not_isOpen_of_entry hd he
          (hl.above (List.prefix_append p [n]))
        rw [he] at hfollow
        simp only [hfollow, hdir, hopen, Option.isSome_some, if_true, Bool.false_eq_true,
          not_false_eq_true, if_false]
      | none =>
        rw [he] at hfollow
        by_cases hup : t.isDir p.dropLast = true
        · simp only [hfollow, hdir, hup, ht.isOpen_of_none he hup, Option.isSome_none,
            Bool.false_eq_true, if_false, if_true]
        · simp only [hfollow, hdir, hup, Option.isSome_none, Bool.false_eq_true, if_false]

private theorem makeDirs_of_closed (ht : t.WellFormed) (hp : ∀ n ∈ p, IsName n) (hl : t.Unlinked p)
    (hlen : p.path.length ≤ maxPath) (hc : t.isOpen p = false) {k : Nat} (hk : p.length ≤ k) :
    ∃ fault, t.makeDirs [] (lineage k p.path) = (.error fault, t) := by
  have hnd : t.isDir p = false := by
    rw [Bool.eq_false_iff] at hc ⊢
    exact fun h => hc (ht.isOpen_of_dir (isDir_iff.mp h))
  have hleads := ht.leadsToDir_path hp hl hlen
  rw [hnd] at hleads
  cases k with
  | zero =>
    rw [List.length_eq_zero_iff.mp (Nat.le_zero.mp hk)] at hnd
    cases hnd
  | succ k =>
    rcases p.eq_nil_or_concat with rfl | ⟨q, n, rfl⟩
    · cases hnd
    · rw [List.concat_eq_append] at *
      -- A file is in the way above the last name or stands there itself, and making the directories
      -- ends with the first attempt, which is not for lack of a directory.
      have hblocked (hq : t.isOpen q = true) : t.get? (q ++ [n]) ≠ none := fun hn =>
        Bool.eq_false_iff.mp hc (isOpen_concat hq (isFile_of_none hn))
      rw [lineage_concat hp, makeDirs, ht.makeDir_path hp hl, if_neg (Nat.not_lt.mpr hlen)]
      by_cases hd : t.get? q = some .dir
      · have hsome := Option.isSome_iff_ne_none.mpr (hblocked (ht.isOpen_of_dir hd))
        have hdir : t.isDir q = true := isDir_iff.mpr hd
        simp only [hdir, hsome, if_true, hleads]
        exact ⟨_, rfl⟩
      · have hdir : t.isDir q = false := isDir_eq_false_iff.mpr hd
        have hshut : t.isOpen q = false := Bool.eq_false_iff.mpr fun h =>
          hblocked h (ht.eq_none_of_append hd (List.cons_ne_nil n []))
        simp only [hdir, hshut, Bool.false_eq_true, if_false, hleads]
        exact ⟨_, rfl⟩

private theorem makeDirs_of_open (ht : t.WellFormed) (hp : ∀ n ∈ p, IsName n) (hl : t.Unlinked p)
    (hlen : p.path.length ≤ maxPath) (hc : t.isOpen p = true) {k : Nat} (hk : p.length ≤ k) :
    ∃ u, t.makeDirs [] (lineage k p.path) = (.ok (), u) ∧ u.WellFormed ∧
      t.Overlaid (t.paving p) u := by
  induction k generalizing p with
  | zero =>
    obtain rfl := List.length_eq_zero_iff.mp (Nat.le_zero.mp hk)
    exact ⟨t, rfl, ht, (Overlaid.refl t).congr fun q => (paving_of_dir ht rfl q).symm⟩
  | succ k ih =>
    rcases p.eq_nil_or_concat with rfl | ⟨q, n, rfl⟩
    · exact ⟨t, rfl, ht, (Overlaid.refl t).congr fun q => (paving_of_dir ht rfl q).symm⟩
    · rw [List.concat_eq_append] at *
      have hn : IsName n := hp n (List.mem_append_right q (List.mem_singleton.mpr rfl))
      have hne : q ++ [n] ≠ [] := List.concat_ne_nil n q
      have hlt := Nat.not_lt.mpr hlen
      rw [lineage_concat hp, makeDirs, ht.makeDir_path hp hl, if_neg hlt]
      by_cases hd : t.get? q = some .dir
      · have hdir : t.isDir q = true := isDir_iff.mpr hd
        cases he : t.get? (q ++ [n]) with
        | none =>
          simp only [hdir, Option.isSome_none, if_true, Bool.false_eq_true, if_false]
          refine ⟨_, rfl, ht.set hd hn (by rw [he]; nofun) .dir, (Overlaid.set t .dir hne).congr ?_⟩
          intro r
          rw [paving_concat he, paving_of_dir ht hd, Option.or_none]
        | some e =>
          have he' : t.get? (q ++ [n]) = some .dir := eq_dir_of_open hc hl he
          have hleads := ht.leadsToDir_path hp hl hlen
          rw [isDir, he', beq_self_eq_true] at hleads
          simp only [hdir, Option.isSome_some, if_true, hleads]
          exact ⟨t, rfl, ht, (Overlaid.refl t).congr fun r => (paving_of_dir ht he' r).symm⟩
      · -- The directory above is missing too, and is made first.
        have hl' : t.Unlinked q := hl.above (List.prefix_append q [n])
        have hopen : t.isOpen q = true := isOpen_of_concat hc
        have hdir : t.isDir q = false := isDir_eq_false_iff.mpr hd
        obtain ⟨u, hu, hwf, ho⟩ := ih (fun m hm => hp m (List.mem_append_left [n] hm)) hl'
          (Nat.le_trans (Place.length_path_le_concat q n) hlen) hopen (by simpa using hk)
        have hud : u.get? q = some .dir := dir_of_paving hopen hl' ho
        have hfree : t.get? (q ++ [n]) = none := ht.eq_none_of_append hd (List.cons_ne_nil n [])
        have hun : u.get? (q ++ [n]) = none := by
          rw [ho.get?, paving_below, Option.none_or, hfree]
        have hudir : u.isDir q = true := isDir_iff.mpr hud
        have hmake := hwf.makeDir_path hp (unlinked_of_paving ho hl)
        rw [if_neg hlt, if_pos hudir, hun] at hmake
        simp only [hdir, hopen, Bool.false_eq_true, if_false, if_true, hu, hmake,
          Option.isSome_none]
        refine ⟨_, rfl, hwf.set hud hn (by rw [hun]; nofun) .dir,
          (ho.trans (Overlaid.set u .dir hne)).congr ?_⟩
        exact fun r => (paving_concat hfree r).symm

/-- Making the directories down to a place adds those that are missing, or it fails and adds
none. -/
theorem makeDirAll_path (ht : t.WellFormed) (hp : ∀ n ∈ p, IsName n) (hl : t.Unlinked p) :
    if p.path.length ≤ maxPath ∧ t.isOpen p = true then
      ∃ u, t.makeDirAll [] p.path = (.ok (), u) ∧ u.WellFormed ∧ t.Overlaid (t.paving p) u
    else ∃ fault, t.makeDirAll [] p.path = (.error fault, t) := by
  have hk := p.length_le_length_path
  by_cases hlen : p.path.length ≤ maxPath
  · by_cases hc : t.isOpen p = true
    · rw [if_pos ⟨hlen, hc⟩]
      exact ht.makeDirs_of_open hp hl hlen hc hk
    · rw [if_neg fun h => hc h.2]
      exact ht.makeDirs_of_closed hp hl hlen (Bool.eq_false_iff.mpr hc) hk
  · rw [if_neg fun h => hlen h.1]
    have hlt := Nat.lt_of_not_le hlen
    rcases p.eq_nil_or_concat with rfl | ⟨q, n, rfl⟩
    · exact absurd (by decide) hlen
    · rw [List.concat_eq_append] at *
      have hleads : t.leadsToDir [] (Place.path (q ++ [n])) = false := by
        rw [leadsToDir, resolve, find, malformed?_path hp, if_pos hlt]
      obtain ⟨k, hk⟩ := Nat.exists_eq_add_one_of_ne_zero (Nat.ne_zero_of_lt hlt)
      rw [makeDirAll, hk, lineage_concat hp, makeDirs, ht.makeDir_path hp hl, if_pos hlt]
      simp only [hleads]
      exact ⟨_, rfl⟩

end WellFormed

end Unstamp.FileTree
