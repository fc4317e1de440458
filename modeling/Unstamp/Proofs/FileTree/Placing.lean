import Unstamp.Proofs.FileTree.Directories

/-! Two files of which neither stands at or above the place of the other can be put in either order.
-/
namespace Unstamp.FileTree
open Unstamp.Path
variable {t t' u u' w w' : FileTree} {p q r : Place} {n : Name} {a b : Bytes}

def hasWay (t : FileTree) (p : Place) : Bool :=
  decide (p.path.length ≤ maxPath) && t.isOpen p

def accepts (t : FileTree) (p : Place) : Bool :=
  decide (p.path.length ≤ maxPath) && t.isOpen p.dropLast && !t.isDir p && !t.isLocked p

theorem hasWay_iff : t.hasWay p = true ↔ p.path.length ≤ maxPath ∧ t.isOpen p = true := by
  rw [hasWay, Bool.and_eq_true, decide_eq_true_iff]

theorem accepts_iff : t.accepts p = true ↔
    p.path.length ≤ maxPath ∧ t.isOpen p.dropLast = true ∧ t.isDir p = false ∧
      t.isLocked p = false := by
  simp only [accepts, Bool.and_eq_true, decide_eq_true_iff, Bool.not_eq_true', and_assoc]

/-- A file can only be put where the directories down to it can be made. -/
private theorem hasWay_of_accepts (h : t.accepts (p ++ [n]) = true) : t.hasWay p = true := by
  obtain ⟨hlen, hopen, -⟩ := accepts_iff.mp h
  rw [List.dropLast_concat] at hopen
  exact hasWay_iff.mpr ⟨Nat.le_trans (Place.length_path_le_concat p n) hlen, hopen⟩

private theorem write_of_long (hp : ∀ n ∈ p, IsName n) (hlen : maxPath < p.path.length)
    (t : FileTree)
    (data : Bytes) : t.write [] p.path data = .error .nameTooLong := by
  rw [write, writePlace, find, malformed?_path hp, if_pos hlen]
  rfl

/-- In a directory that is there, a file is written just where one can be put. -/
theorem WellFormed.write_accepted (ht : t.WellFormed) (hp : ∀ m ∈ p ++ [n], IsName m)
    (hl : t.Unlinked (p ++ [n])) (hd : t.get? p = some .dir) (data : Bytes) :
    if t.accepts (p ++ [n]) then
      t.write [] (Place.path (p ++ [n])) data = .ok (t.set (p ++ [n]) (.file data))
    else ∃ fault, t.write [] (Place.path (p ++ [n])) data = .error fault := by
  rw [accepts, List.dropLast_concat, ht.isOpen_of_dir hd, Bool.and_true]
  by_cases hlen : (Place.path (p ++ [n])).length ≤ maxPath
  · rw [ht.write_unlinked hp hl (by rw [List.dropLast_concat, isDir_iff, hd]) hlen data,
      decide_eq_true hlen, Bool.true_and]
    cases t.isDir (p ++ [n]) with
    | true => exact ⟨_, rfl⟩
    | false =>
      cases t.isLocked (p ++ [n]) with
      | true => exact ⟨_, rfl⟩
      | false => rfl
  · rw [decide_eq_false hlen]
    exact ⟨_, write_of_long hp (Nat.lt_of_not_le hlen) t data⟩

/-- The missing directories make no difference to whether a file can be put into the last of them.
-/
theorem accepts_paving (ho : t.isOpen p = true) (hl : t.Unlinked p) (hu : t.Overlaid (t.paving p) u)
    (hwf : u.WellFormed) (n : Name) : u.accepts (p ++ [n]) = t.accepts (p ++ [n]) := by
  rw [accepts, accepts, List.dropLast_concat, ho, hwf.isOpen_of_dir (dir_of_paving ho hl hu),
    isDir, isDir, hu.get?, paving_below, Option.none_or, isLocked, isLocked, hu.locked]

/-- What is new in a tree when a file is put at a place: the directories above it that were missing,
unless they cannot be made, and the file itself, if it can be put there. -/
def placing (t : FileTree) (p : Place) (data : Bytes) (q : Place) : Option Entry :=
  if q = p then if t.accepts p then some (.file data) else none
  else if t.hasWay p.dropLast then t.paving p.dropLast q
  else none

theorem placing_self (t : FileTree) (p : Place) (data : Bytes) :
    t.placing p data p = if t.accepts p then some (.file data) else none :=
  if_pos rfl

private theorem placing_of_ne (t : FileTree) (data : Bytes) (h : q ≠ p) :
    t.placing p data q =
      if t.hasWay p.dropLast = true ∧ q <+: p.dropLast ∧ t.get? q = none then some .dir
      else none := by
  rw [placing, if_neg h, paving]
  by_cases hw : t.hasWay p.dropLast = true <;> simp [hw]

theorem placing_of_not_above (t : FileTree) (data : Bytes) (h : ¬ q <+: p) :
    t.placing p data q = none := by
  have hne : q ≠ p := by
    rintro rfl
    exact h (List.prefix_refl q)
  rw [placing_of_ne t data hne, if_neg]
  exact fun hw => h (hw.2.1.trans (List.dropLast_prefix p))

private theorem placing_concat_of_ne (hw : t.hasWay p = true) (data : Bytes) (h : q ≠ p ++ [n]) :
    t.placing (p ++ [n]) data q = t.paving p q := by
  rw [placing, if_neg h, List.dropLast_concat, if_pos hw]

theorem placing_of_accepts (h : t.accepts (p ++ [n]) = true) (data : Bytes) (q : Place) :
    t.placing (p ++ [n]) data q =
      (if q = p ++ [n] then some (.file data) else none).or (t.paving p q) := by
  by_cases hq : q = p ++ [n]
  · rw [if_pos hq, hq, placing_self, if_pos h, Option.some_or]
  · rw [if_neg hq, Option.none_or, placing_concat_of_ne (hasWay_of_accepts h) data hq]

/-- A file that cannot be put in its directory leaves the directories that were made for it. -/
theorem placing_of_refused (hw : t.hasWay p = true) (h : t.accepts (p ++ [n]) = false)
    (data : Bytes) (q : Place) : t.placing (p ++ [n]) data q = t.paving p q := by
  by_cases hq : q = p ++ [n]
  · rw [hq, placing_self, h, paving_below]
    rfl
  · exact placing_concat_of_ne hw data hq

theorem placing_of_blocked (hw : t.hasWay p = false) (n : Name) (data : Bytes) (q : Place) :
    t.placing (p ++ [n]) data q = none := by
  have hno : ¬ t.accepts (p ++ [n]) = true := fun h => by
    rw [hasWay_of_accepts h] at hw
    cases hw
  rw [placing, if_neg hno, List.dropLast_concat, hw, if_neg Bool.false_ne_true, ite_self]

/-- A place that is taken changes only if the file itself is put there. -/
theorem placing_of_some (t : FileTree) (data : Bytes) (h : q ≠ p) (hq : t.get? q ≠ none) :
    t.placing p data q = none := by
  rw [placing_of_ne t data h, if_neg fun hw => hq hw.2.2]

/-- Neither place is above the other, nor are they the same. -/
structure Apart (p q : Place) : Prop where
  left : ¬ p <+: q
  right : ¬ q <+: p

theorem Apart.symm (h : Apart p q) : Apart q p :=
  ⟨h.right, h.left⟩

theorem Apart.ne (h : Apart p q) : p ≠ q :=
  fun he => h.left (he ▸ List.prefix_refl p)

section
variable (hu : t.Overlaid (t.placing p a) u)
include hu

private theorem isFile_placing (h : q ≠ p) : u.isFile q = t.isFile q := by
  rw [isFile, isFile, hu.get?, placing_of_ne t a h]
  by_cases hw : t.hasWay p.dropLast = true ∧ q <+: p.dropLast ∧ t.get? q = none
  · rw [if_pos hw, hw.2.2]
    rfl
  · rw [if_neg hw, Option.none_or]

private theorem isOpen_placing (h : ¬ p <+: q) : u.isOpen q = t.isOpen q := by
  rw [Bool.eq_iff_iff, isOpen_iff, isOpen_iff]
  refine forall_congr' fun r => imp_congr_right fun hr => ?_
  rw [isFile_placing hu]
  rintro rfl
  exact h hr

private theorem isDir_placing (h : ¬ q <+: p) : u.isDir q = t.isDir q := by
  rw [isDir, isDir, hu.get?, placing_of_not_above t a h, Option.none_or]

private theorem hasWay_placing (h : Apart p q) : u.hasWay q.dropLast = t.hasWay q.dropLast := by
  rw [hasWay, hasWay, isOpen_placing hu fun hp => h.left (hp.trans (List.dropLast_prefix q))]

theorem accepts_placing (h : Apart p q) : u.accepts q = t.accepts q := by
  rw [accepts, accepts, isOpen_placing hu fun hp => h.left (hp.trans (List.dropLast_prefix q)),
    isDir_placing hu h.right, isLocked, isLocked, hu.locked]

/-- What the second file adds to what the first has added. -/
private theorem placing_placing (h : Apart p q) (r : Place) :
    (u.placing q b r).or (t.placing p a r) =
      if r = p then t.placing p a p
      else if r = q then t.placing q b q
      else if ((t.hasWay p.dropLast = true ∧ r <+: p.dropLast) ∨
        (t.hasWay q.dropLast = true ∧ r <+: q.dropLast)) ∧ t.get? r = none then some .dir
      else none := by
  by_cases hp : r = p
  · subst hp
    rw [placing_of_not_above u b h.left, Option.none_or, if_pos rfl]
  · by_cases hq : r = q
    · subst hq
      rw [placing_of_not_above t a h.right, Option.or_none, placing_self, placing_self,
        accepts_placing hu h, if_neg hp, if_pos rfl, placing_self]
    · -- What is missing after the first file was missing before, and was not made for it.
      have hfree : u.get? r = none ↔
          t.get? r = none ∧ ¬ (t.hasWay p.dropLast = true ∧ r <+: p.dropLast) := by
        rw [hu.get?, placing_of_ne t a hp]
        grind
      rw [placing_of_ne u b hq, placing_of_ne t a hp, hasWay_placing hu h, if_neg hp, if_neg hq]
      grind

end

theorem placing_comm (h : Apart p q) (hu : t.Overlaid (t.placing p a) u)
    (hw : u.Overlaid (u.placing q b) w) (hu' : t.Overlaid (t.placing q b) u')
    (hw' : u'.Overlaid (u'.placing p a) w') : w.Alike w' := by
  refine (Alike.refl t).overlaid (hu.trans hw) ((hu'.trans hw').congr fun r => ?_)
  rw [placing_placing hu h, placing_placing hu' h.symm]
  by_cases hp : r = p
  · subst hp
    rw [if_pos rfl, if_neg h.ne, if_pos rfl]
  · rw [if_neg hp, if_neg hp]
    simp only [or_comm]

theorem Alike.placing (h : t.Alike t') (p : Place) (data : Bytes) :
    t.placing p data = t'.placing p data := by
  have hget : t.get? = t'.get? := funext h.get?
  funext q
  unfold FileTree.placing accepts hasWay isOpen isFile isDir paving isLocked
  rw [hget, h.locked]

def placing? (t : FileTree) (d : Place) : Option Bytes → Place → Option Entry
  | none, _ => none
  | some data, q => t.placing d data q

theorem placing?_ne_link (t : FileTree) (d : Place) (data : Option Bytes) (target : Path) :
    placing? t d data p ≠ some (.link target) := by
  cases data with
  | none => nofun
  | some data =>
    rw [placing?]
    by_cases h : p = d
    · rw [h, placing_self]
      split <;> nofun
    · rw [placing_of_ne t data h]
      split <;> nofun

/-- The only file that is new is the one that was to be put there. -/
theorem eq_of_placing?_file {d : Place} {data : Option Bytes}
    (h : placing? t d data p = some (.file a)) : p = d ∧ data = some a := by
  cases data with
  | none => cases h
  | some data =>
    rw [placing?] at h
    by_cases hp : p = d
    · subst hp
      rw [placing_self] at h
      split at h
      · cases h
        exact ⟨rfl, rfl⟩
      · cases h
    · rw [placing_of_ne t data hp] at h
      split at h <;> cases h

theorem placing?_of_some (t : FileTree) (data : Option Bytes) (h : q ≠ p)
    (hq : t.get? q ≠ none) : placing? t p data q = none := by
  cases data with
  | none => rfl
  | some data => exact placing_of_some t data h hq

theorem Alike.placing? (h : t.Alike t') (p : Place) (data : Option Bytes) :
    t.placing? p data = t'.placing? p data := by
  cases data with
  | none => rfl
  | some data => exact h.placing p data

theorem placing?_comm {a b : Option Bytes} (h : Apart p q) (hu : t.Overlaid (t.placing? p a) u)
    (hw : u.Overlaid (u.placing? q b) w) (hu' : t.Overlaid (t.placing? q b) u')
    (hw' : u'.Overlaid (u'.placing? p a) w') : w.Alike w' := by
  cases a with
  | none =>
    have hsame : t.Alike u := (Alike.refl t).overlaid (.refl t) hu
    refine (Alike.refl t).overlaid (hu.trans hw) ((hu'.trans hw').congr fun r => ?_)
    rw [hsame.placing?]
    exact (Option.or_none).symm
  | some a =>
    cases b with
    | none =>
      have hsame : t.Alike u' := (Alike.refl t).overlaid (.refl t) hu'
      refine (Alike.refl t).overlaid (hu.trans hw) ((hu'.trans hw').congr fun r => ?_)
      rw [← hsame.placing?]
      exact Option.or_none
    | some b => exact placing_comm h hu hw hu' hw'

end Unstamp.FileTree
