import Unstamp.Proofs.FileTree.Ways
import Unstamp.Proofs.FileTree.Writing

/-! Trees that differ below one place alone, and paths to which this makes no difference. -/
namespace Unstamp.FileTree
open Unstamp.Path
variable {t u w : FileTree} {out cwd p q m : Place} {n : Name} {ms ns : List Name} {path : Path}

/-- The same stands everywhere but below a place. -/
def Beside (out : Place) (t u : FileTree) : Prop :=
  ∀ p, (out <+: p → p = out) → u.get? p = t.get? p

/-- Names do not lead into a directory, as far as they can be followed. -/
def KeepsOff (t : FileTree) (out p : Place) (ns : List Name) : Prop :=
  ∀ q rest, t.Goes p ns q rest → ¬ out <+: q

theorem KeepsOff.next (h : t.KeepsOff out p (n :: ns)) (hs : t.Step p n m ms) :
    t.KeepsOff out m (ms ++ ns) :=
  fun q rest hg => h q rest (.next hs hg)

namespace Beside

theorem refl (out : Place) (t : FileTree) : t.Beside out t :=
  fun _ _ => rfl

theorem symm (h : Beside out t u) : Beside out u t :=
  fun p hp => (h p hp).symm

theorem trans (h : Beside out t u) (h' : Beside out u w) : Beside out t w :=
  fun p hp => (h' p hp).trans (h p hp)

theorem sameAt (h : Beside out t u) (hp : ¬ out <+: p) : t.SameAt u p :=
  .inl (h p fun ho => absurd ho hp).symm

/-- Even the directory itself stands in both trees. -/
theorem sameAt_concat (h : Beside out t u) (hp : ¬ out <+: p) (n : Name) : t.SameAt u
    (p ++ [n]) := by
  refine .inl (h _ fun ho => ?_).symm
  rcases List.prefix_concat_iff.mp ho with he | ho
  · exact he.symm
  · exact absurd ho hp

theorem follow (h : Beside out t u) (hk : t.KeepsOff out p ns) (creating : Bool) (links : Nat) :
    t.follow creating links p ns = u.follow creating links p ns :=
  follow_congr creating links fun m n _ hg =>
    ⟨h.sameAt (hk m _ hg), h.sameAt_concat (hk m _ hg) n⟩

theorem resolve (h : Beside out t u) (hk : t.KeepsOff out (origin cwd path) path.steps) :
    t.resolve cwd path = u.resolve cwd path := by
  rw [FileTree.resolve, FileTree.resolve, FileTree.find, FileTree.find, h.follow hk]

theorem step (h : Beside out t u) (hp : ¬ out <+: p) (hs : u.Step p n m ms) : t.Step p n m ms := by
  have hd := (h.sameAt hp).isDir
  have hn := h.symm.sameAt_concat hp n
  cases hs with
  | stay hd' hn' => exact .stay (hd.trans hd') hn'
  | up hd' hn' => exact .up (hd.trans hd') hn'
  | down hd' hn' he hl =>
    rcases hn with hn | ⟨_, data, _, hn⟩
    · exact .down (hd.trans hd') hn' (hn.symm.trans he) hl
    · exact .down (hd.trans hd') hn' hn nofun
  | link hd' hn' he => exact .link (hd.trans hd') hn' (hn.link he)

/-- Names that keep off the directory in one tree lead nowhere else in the other. -/
theorem leads (h : Beside out t u) (hk : t.KeepsOff out p ns) (hl : u.Leads p ns q) :
    t.Leads p ns q := by
  induction hl with
  | here p => exact .here p
  | next hs _ ih =>
    have hs' := h.step (hk _ _ (.here _ _)) hs
    exact .next hs' (ih (hk.next hs'))

end Beside

/-- A path leads to something that is no file in a directory, or it leads nowhere without the
directory being on its way. -/
def Steady (t : FileTree) (out cwd : Place) (path : Path) : Prop :=
  match t.resolve cwd path with
  | .ok q => out <+: q → t.isDir q = true
  | .error _ => t.KeepsOff out (origin cwd path) path.steps

/-- What is new in the directory makes no difference to where such a path leads. -/
theorem Steady.resolve (hp : t.Steady out cwd path) (hk : t.Kept u) (hb : Beside out t u) :
    u.resolve cwd path = t.resolve cwd path := by
  rw [Steady] at hp
  split at hp
  · rename_i q hr
    rw [hr, hk.resolve hr]
  · exact (hb.resolve hp).symm

theorem Steady.read (hp : t.Steady out cwd path) (hk : t.Kept u) (hb : Beside out t u) :
    u.read cwd path = t.read cwd path := by
  have hr := hp.resolve hk hb
  rw [FileTree.read, FileTree.read, hr]
  rw [Steady] at hp
  cases hq : t.resolve cwd path with
  | error fault => rfl
  | ok q =>
    rw [hq] at hp
    simp only
    by_cases ho : out <+: q
    · have hd := hp ho
      rw [isDir_iff.mp hd, isDir_iff.mp (hk.isDir hd)]
    · rw [hb q fun h => absurd h ho]

end Unstamp.FileTree
