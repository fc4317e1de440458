import Mathlib.Data.List.Dedup
import Unstamp.Cleaner.Basic
import Unstamp.Proofs.FileTree.Beside
import Unstamp.Proofs.Walk.Links
import Unstamp.Proofs.Walk.Pruning

/-! Walks that go through directories in different orders, while a directory that they keep out of
is filled. -/
namespace Unstamp

namespace FileTree
variable {t u w : FileTree} {out dir p : Place} {n : Name} {ns : List Name}

private theorem nameIn?_eq_some_iff : nameIn? dir p = some n ↔ p = dir ++ [n] := by
  rw [nameIn?]
  constructor
  · intro h
    split at h
    · rename_i m hm
      obtain ⟨q, rfl⟩ := List.getLast?_eq_some_iff.mp hm
      rw [List.dropLast_concat] at h
      split at h
      · rename_i hq
        cases h
        rw [hq]
      · cases h
    · cases h
  · rintro rfl
    rw [List.getLast?_concat, List.dropLast_concat]
    exact if_pos rfl

private theorem insertName_perm (n : Name) (ns : List Name) : (insertName n ns).Perm (n :: ns) := by
  induction ns with
  | nil => exact .refl _
  | cons m ns ih =>
    rw [insertName]
    split
    · exact .refl _
    · exact (ih.cons m).trans (.swap n m ns)

private theorem nodup_mem_insert (ns : List Name) :
    let ms := ns.foldr (fun n ms => if n ∈ ms then ms else insertName n ms) []
    ms.Nodup ∧ ∀ n, n ∈ ms ↔ n ∈ ns := by
  induction ns with
  | nil => exact ⟨.nil, fun _ => .rfl⟩
  | cons m ns ih =>
    obtain ⟨hnodup, hmem⟩ := ih
    dsimp only [List.foldr_cons] at *
    generalize ns.foldr _ [] = ms at *
    split
    · rename_i hm
      exact ⟨hnodup, fun n => by
        rw [hmem, List.mem_cons, iff_or_self]
        rintro rfl
        exact (hmem n).mp hm⟩
    · rename_i hm
      have hperm := insertName_perm m ms
      exact ⟨hperm.nodup_iff.mpr (List.nodup_cons.mpr ⟨hm, hnodup⟩), fun n => by
        rw [hperm.mem_iff, List.mem_cons, List.mem_cons, hmem]⟩

/-- The names in a directory are those under which something stands in it. -/
theorem mem_names : n ∈ t.names dir ↔ t.get? (dir ++ [n]) ≠ none := by
  rw [names, (nodup_mem_insert _).2, List.mem_filterMap]
  simp only [nameIn?_eq_some_iff]
  have hlookup : t.get? (dir ++ [n]) = t.entries.lookup (dir ++ [n]) := by
    cases dir <;> rfl
  rw [hlookup, ne_eq, List.lookup_eq_none_iff]
  simp only [bne_iff_ne, not_forall, not_not, exists_prop]
  exact exists_congr fun x => and_congr_right fun _ => eq_comm

private theorem nodup_names (t : FileTree) (dir : Place) : (t.names dir).Nodup :=
  (nodup_mem_insert _).1

private theorem names_perm (h : ∀ n, t.get? (dir ++ [n]) = none ↔ u.get? (dir ++ [n]) = none) :
    (t.names dir).Perm (u.names dir) := by
  refine (List.perm_ext_iff_of_nodup (nodup_names t dir) (nodup_names u dir)).mpr fun n => ?_
  rw [mem_names, mem_names, ne_eq, h]

end FileTree

/-- Which files a walk may read for the rules of a directory. No cleaner is for them. -/
structure Walk.RuleFiles where
  files : Place → List Place
  name : ∀ {dir}, (∀ n ∈ dir, Path.IsName n) → ∀ p ∈ files dir, ∀ n ∈ p, Path.IsName n
  spared : ∀ {dir}, ∀ p ∈ files dir, ∃ n, p.getLast? = some n ∧
    Selection.forName? .utf8 .abort n = none

def Walk.RuleFiles.Same (rules : Walk.RuleFiles) (t u : FileTree) (dir : Place) : Prop :=
  ∀ p ∈ rules.files dir, (u.read [] p.path).toOption = (t.read [] p.path).toOption

namespace Ignore
variable {t u : FileTree} {dir p : Place}

def files (dir : Place) : List Place :=
  [dir ++ ignoreFile, dir ++ gitignoreFile, dir ++ excludeFile]

private theorem exists_of_mem_files (hp : p ∈ files dir) :
    ∃ ns n, p = dir ++ (ns ++ [n]) ∧ (∀ m ∈ ns ++ [n], Path.IsName m) ∧
      Selection.forName? .utf8 .abort n = none := by
  simp only [files, List.mem_cons, List.not_mem_nil, or_false] at hp
  rcases hp with rfl | rfl | rfl
  · exact ⟨[], _, rfl, by decide +kernel, by decide +kernel⟩
  · exact ⟨[], _, rfl, by decide +kernel, by decide +kernel⟩
  · exact ⟨[_, _], _, rfl, by decide +kernel, by decide +kernel⟩

def ruleFiles : Walk.RuleFiles where
  files := files
  name hdir p hp := by
    obtain ⟨ns, n, rfl, hns, -⟩ := exists_of_mem_files hp
    exact List.forall_mem_append.mpr ⟨hdir, hns⟩
  spared p hp := by
    obtain ⟨ns, n, rfl, -, hn⟩ := exists_of_mem_files hp
    exact ⟨n, by rw [← List.append_assoc, List.getLast?_concat], hn⟩

theorem readLevel_congr (h : ruleFiles.Same t u dir) : readLevel u dir = readLevel t dir := by
  have hfile (p : Place) (hp : p ∈ files dir) : readFile u p = readFile t p := by
    have hread := h p hp
    rw [readFile, readFile]
    cases hu : u.read [] p.path with
    | error fault =>
      cases ht : t.read [] p.path with
      | error fault' => rfl
      | ok data =>
        rw [hu, ht] at hread
        cases hread
    | ok data =>
      cases ht : t.read [] p.path with
      | error fault =>
        rw [hu, ht] at hread
        cases hread
      | ok data' =>
        rw [hu, ht] at hread
        cases hread
        rfl
  simp only [Ignore.readLevel, hfile _ List.mem_cons_self,
    hfile (dir ++ gitignoreFile) (by simp [files]),
    hfile (dir ++ excludeFile) (by simp [files])]

end Ignore

/-- What is new is all in one directory, and no file that holds rules of others reads otherwise for
it. -/
structure FileTree.Unseen (rules : Walk.RuleFiles) (out : Place) (t u : FileTree) : Prop where
  grows : t.Grows u
  beside : Beside out t u
  rules : ∀ dir, t.isDir dir = true → ¬ out <+: dir → rules.Same t u dir

namespace FileTree.Unseen
variable {rules : Walk.RuleFiles} {t u w : FileTree} {out : Place}

theorem refl (ht : t.WellFormed) (rules : Walk.RuleFiles) (out : Place) : Unseen rules out t t :=
  ⟨.refl ht, .refl out t, fun _ _ _ _ _ => rfl⟩

theorem trans (h : Unseen rules out t u) (h' : Unseen rules out u w) : Unseen rules out t w :=
  ⟨h.grows.trans h'.grows, h.beside.trans h'.beside, fun dir hd ho p hp =>
    (h'.rules dir (h.grows.kept.isDir hd) ho p hp).trans (h.rules dir hd ho p hp)⟩

end FileTree.Unseen

/-- Two walks that follow no links give the same files below a root, each in an order of its own,
whatever is new by the time in a directory that the options keep them out of. -/
def Walker.SameFiles (rules : Walk.RuleFiles) (walk walk' : Walker) : Prop :=
  ∀ (o : Walk.Options) (root out : Place) (t u : FileTree) (vs ws : List Visit),
    o.followLinks = false → (∀ p isDir, o.keeps p isDir = true → ¬ out <+: p) → ¬ out <+: root →
    t.WellFormed → t.Holds root → t.Unseen rules out u →
    (walk o root t).Gives (FileTree.Unseen rules out) t vs →
    (walk' o root u).Gives (FileTree.Unseen rules out) u ws → (Walk.files vs).Perm (Walk.files ws)

namespace Walk
open FileTree
variable {t u : FileTree} {o : Options} {order order' : List Name → List Name} {here : Station}
  {trail : List Station} {levels : List Ignore.Level} {next : FileTree → Walking} {n : Name}
  {out root p q : Place} {ps qs : List Place}

/-- Whatever is new out of sight, a walk goes on to give these files, in some order. -/
private def Ends (out : Place) (t : FileTree) (next : FileTree → Walking) (ps : List Place) :
    Prop :=
  ∀ u vs, t.Unseen Ignore.ruleFiles out u → (next u).Gives (Unseen Ignore.ruleFiles out) u vs →
    (files vs).Perm ps

private theorem Ends.item_file (h : Ends out t next ps) (p : Place) :
    Ends out t (fun _ => .item (.file p) next) (p :: ps) := by
  intro u vs hu hg
  cases hg with
  | item hstep hg => exact (h _ _ (hu.trans hstep) hg).cons p

private theorem Ends.item_fault (h : Ends out t next ps) (fault : WalkFault) :
    Ends out t (fun _ => .item (.fault fault) next) ps := by
  intro u vs hu hg
  cases hg with
  | @item _ _ _ _ vs hstep hg => exact h _ vs (hu.trans hstep) hg

private theorem ends_foldr {f : Name → (FileTree → Walking) → FileTree → Walking}
    {g : Name → List Place} (hnext : Ends out t next ps)
    (hone : ∀ n rest qs, Ends out t rest qs → Ends out t (f n rest) (g n ++ qs))
    (ns : List Name) : Ends out t (ns.foldr f next) (ns.flatMap g ++ ps) := by
  induction ns with
  | nil => exact hnext
  | cons n ns ih =>
    rw [List.foldr_cons, List.flatMap_cons, List.append_assoc]
    exact hone n _ _ ih

private theorem look_congr (ho : o.followLinks = false) (h : t.SameAt u q) :
    look u o trail p q = look t o trail p q := by
  rw [look, look, ho]
  rcases h with he | ⟨_, _, ht, hu⟩
  · rw [he]
    rfl
  · rw [ht, hu]

private theorem eq_of_look_dir (ho : o.followLinks = false) (h : look t o trail p q = .dir root) :
    root = q ∧ t.isDir q = true := by
  rw [look, ho] at h
  split at h
  · cases h
  · rename_i he
    cases h
    exact ⟨rfl, beq_iff_eq.mpr he⟩
  · cases h
  · cases h

private theorem enter_congr (h : Ignore.ruleFiles.Same t u p) :
    enter u o levels p = enter t o levels p := by
  rw [enter, enter, Ignore.readLevel_congr h]

private theorem below_ends (horder : ∀ ns, (order ns).Perm ns) (ho : o.followLinks = false)
    (hkeeps : ∀ p isDir, o.keeps p isDir = true → ¬ out <+: p) {depth : Nat}
    (hown : here.place = here.real) (hd : t.isDir here.real = true) (hout : ¬ out <+: here.real)
    (hnext : Ends out t next ps) :
    Ends out t (below order o depth levels here trail next)
      (files (visitsBelow t id o depth levels here trail) ++ ps) := by
  induction depth generalizing levels here trail next ps with
  | zero => exact hnext
  | succ depth ih =>
    intro u vs hu hg
    have hnames : (order (u.names here.real)).Perm (t.names here.real) :=
      (horder _).trans (names_perm fun n => by
        have hn := hu.beside.sameAt_concat hout n
        exact ⟨hn.symm.none, hn.none⟩)
    rw [visitsBelow, files_flatMap]
    rw [below] at hg
    refine (ends_foldr hnext (fun n rest qs hrest => ?_) _ u vs hu hg).trans
      ((hnames.flatMap_right _).append_right ps)
    -- In each tree that the walk may come to the entry is what it is in this one.
    intro u vs hu hg
    have hn := hu.beside.sameAt_concat hout n
    have hlook : look u o (here :: trail) (here.place ++ [n]) (here.real ++ [n]) =
        look t o (here :: trail) (here.place ++ [n]) (here.real ++ [n]) := look_congr ho hn
    simp only [hlook] at hg ⊢
    cases hl : look t o (here :: trail) (here.place ++ [n]) (here.real ++ [n]) with
    | nothing =>
      rw [hl] at hg
      exact hrest u vs hu hg
    | fault fault =>
      rw [hl] at hg
      exact hrest.item_fault fault u vs hu hg
    | file =>
      simp only [hl] at hg
      cases htakes : takes o levels (here.place ++ [n]) n false with
      | false =>
        rw [htakes] at hg
        exact hrest u vs hu hg
      | true =>
        rw [htakes] at hg
        exact hrest.item_file _ u vs hu hg
    | dir real =>
      obtain ⟨rfl, hdir⟩ := eq_of_look_dir ho hl
      simp only [hl] at hg
      cases htakes : takes o levels (here.place ++ [n]) n true with
      | false =>
        rw [htakes] at hg
        exact hrest u vs hu hg
      | true =>
        have hkept := htakes
        rw [takes, Bool.and_eq_true] at hkept
        have hplace : ¬ out <+: here.place ++ [n] := hkeeps _ _ hkept.2
        have hrules : Ignore.ruleFiles.Same t u (here.place ++ [n]) :=
          hu.rules _ (hown ▸ hdir) hplace
        simp only [htakes, if_true, enter_congr hrules] at hg
        exact @ih ⟨here.place ++ [n], here.real ++ [n]⟩ _ _ _ _ (by rw [hown]) hdir (hown ▸ hplace)
          hrest u vs hu hg

private theorem arranged_ends (horder : ∀ ns, (order ns).Perm ns) (ho : o.followLinks = false)
    (hkeeps : ∀ p isDir, o.keeps p isDir = true → ¬ out <+: p) (ht : t.WellFormed)
    (hout : ¬ out <+: root) :
    Ends out t (arranged order o root) (files ((arranged id o root t).still t)) := by
  intro u vs hu hg
  have hroot := (hu.beside.sameAt hout).isDir
  rw [still_arranged]
  rw [arranged, ← hroot] at hg
  by_cases hd : t.isDir root = true
  · have habove : above u o root = above t o root := by
      rw [above, above]
      split
      · refine List.map_congr_left fun p hp => ?_
        obtain ⟨k, -, rfl⟩ := List.mem_map.mp hp
        have hprefix : root.take k <+: root := List.take_prefix k root
        have hdir := isDir_iff.mpr (ht.dir_above (isDir_iff.mp hd) hprefix)
        exact Ignore.readLevel_congr (hu.rules _ hdir fun h => hout (h.trans hprefix))
      · rfl
    have hbelow (levels : List Ignore.Level) :
        Ends out t (fun u => below order o maxDepth (enter u o levels root) ⟨root, root⟩ []
          (fun _ => .ended) u)
          (files (visitsBelow t id o maxDepth (enter t o levels root) ⟨root, root⟩ [])) := by
      intro u vs hu hg
      dsimp only at hg
      rw [enter_congr (hu.rules root hd hout)] at hg
      have hend : Ends out t (fun _ => .ended) [] := fun _ _ _ hg => by
        cases hg
        exact .refl _
      have hfrom : Ends out t
          (below order o maxDepth (enter t o levels root) ⟨root, root⟩ [] fun _ => .ended)
          (files (visitsBelow t id o maxDepth (enter t o levels root) ⟨root, root⟩ []) ++ []) :=
        below_ends horder ho hkeeps rfl hd hout hend
      rw [List.append_nil] at hfrom
      exact hfrom u vs hu hg
    rw [if_pos hd] at hg ⊢
    simp only [habove] at hg ⊢
    rw [files_append]
    split at hg
    · rename_i hnone
      rw [if_pos hnone]
      exact hbelow _ u vs hu hg
    · rename_i hsome
      rw [if_neg hsome]
      exact (hbelow _).item_fault _ u vs hu hg
  · rw [if_neg hd] at hg ⊢
    cases hg with
    | item _ hg =>
      cases hg
      exact .refl _

/-- Directories may be gone through in any order. -/
theorem arranged_sameFiles (horder : ∀ ns, (order ns).Perm ns)
    (horder' : ∀ ns, (order' ns).Perm ns) :
    (arranged order).SameFiles Ignore.ruleFiles (arranged order') := by
  intro o root out t u vs ws ho hkeeps hout ht _ hu hvs hws
  exact (arranged_ends horder ho hkeeps ht hout t vs (.refl ht _ out) hvs).trans
    (arranged_ends horder' ho hkeeps ht hout u ws hu hws).symm

end Walk

end Unstamp
