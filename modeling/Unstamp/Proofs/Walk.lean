import Unstamp.Proofs.FileTree.Shape
import Unstamp.Walk

/-! Walks under way, and what they may give while the tree changes between the items. -/
namespace Unstamp

namespace Walking
variable {step step' : FileTree → FileTree → Prop} {right right' : FileTree → Visit → Prop}
  {t : FileTree} {w : Walking} {vs : List Visit}

def still (t : FileTree) : Walking → List Visit
  | ended => []
  | item v next => v :: (next t).still t

/-- Each item is right in the tree in which it is given, whatever steps the tree takes meanwhile. -/
def Always (step : FileTree → FileTree → Prop) (right : FileTree → Visit → Prop) :
    FileTree → Walking → Prop
  | _, ended => True
  | t, item v next => right t v ∧ ∀ u, step t u → Always step right u (next u)

/-- A walk gives these items if the tree takes certain steps meanwhile. -/
inductive Gives (step : FileTree → FileTree → Prop) : FileTree → Walking → List Visit → Prop
  | ended (t : FileTree) : Gives step t ended []
  | item {t u : FileTree} {v : Visit} {next : FileTree → Walking} {vs : List Visit}
      (hstep : step t u) (h : Gives step u (next u) vs) : Gives step t (item v next) (v :: vs)

theorem Always.mono (good : FileTree → Prop)
    (hstep : ∀ t u, good t → step' t u → good u ∧ step t u)
    (hright : ∀ t v, good t → right t v → right' t v) (ht : good t)
    (h : Always step right t w) : Always step' right' t w := by
  induction w generalizing t with
  | ended => trivial
  | item v next ih =>
    refine ⟨hright t v ht h.1, fun u hu => ?_⟩
    obtain ⟨hgood, hu'⟩ := hstep t u ht hu
    exact ih u hgood (h.2 u hu')

theorem Always.still (hrefl : step t t) (h : Always step right t w) :
    ∀ v ∈ w.still t, right t v := by
  induction w with
  | ended => nofun
  | item v next ih => exact List.forall_mem_cons.mpr ⟨h.1, ih t (h.2 t hrefl)⟩

end Walking

namespace Visit

def OfFiles (t : FileTree) (vs : List Visit) : Prop :=
  ∀ p, .file p ∈ vs → ∃ data, t.get? p = some (.file data)

namespace OfFiles
variable {t u : FileTree} {v : Visit} {vs : List Visit}

theorem sameShape (h : OfFiles t vs) (hu : t.SameShape u) : OfFiles u vs := by
  intro p hp
  obtain ⟨data, hd⟩ := h p hp
  exact hu.file hd

theorem head (h : OfFiles t (v :: vs)) : OfFiles t [v] := by
  intro p hp
  rw [List.mem_singleton] at hp
  exact h p (hp ▸ List.mem_cons_self)

theorem tail (h : OfFiles t (v :: vs)) : OfFiles t vs :=
  fun p hp => h p (List.mem_cons_of_mem v hp)

end OfFiles

end Visit

/-- A walk that follows no links, from a directory or a file, gives files by their own places,
whatever bytes are written into files meanwhile. -/
def Walker.VisitsFiles (walk : Walker) : Prop :=
  ∀ (o : Walk.Options) (root : Place) (t : FileTree), o.followLinks = false → t.WellFormed →
    t.Holds root → (walk o root t).Always FileTree.SameShape (fun u v => Visit.OfFiles u [v]) t

namespace Walk
variable {t : FileTree} {o : Options} {order : List Name → List Name}

def visitsBelow (t : FileTree) (order : List Name → List Name) (o : Options) :
    Nat → List Ignore.Level → Station → List Station → List Visit
  | 0, _, _, _ => []
  | depth + 1, levels, here, trail =>
    (order (t.names here.real)).flatMap fun n =>
      let place := here.place ++ [n]
      match look t o (here :: trail) place (here.real ++ [n]) with
      | .nothing => []
      | .fault fault => [.fault fault]
      | .file => if takes o levels place n false then [.file place] else []
      | .dir real =>
        if takes o levels place n true then
          visitsBelow t order o depth (enter t o levels place) ⟨place, real⟩ (here :: trail)
        else []

private theorem still_below (depth : Nat) (levels : List Ignore.Level) (here : Station)
    (trail : List Station) (next : FileTree → Walking) :
    (below order o depth levels here trail next t).still t =
      visitsBelow t order o depth levels here trail ++ (next t).still t := by
  induction depth generalizing levels here trail next with
  | zero => rfl
  | succ depth ih =>
    rw [below, visitsBelow]
    dsimp only
    generalize order (t.names here.real) = names
    induction names with
    | nil => rfl
    | cons n names ihn =>
      rw [List.foldr_cons, List.flatMap_cons, List.append_assoc, ← ihn]
      cases look t o (here :: trail) (here.place ++ [n]) (here.real ++ [n]) with
      | nothing => rfl
      | fault fault => rfl
      | file => cases takes o levels (here.place ++ [n]) n false <;> rfl
      | dir real =>
        cases takes o levels (here.place ++ [n]) n true with
        | false => rfl
        | true => exact ih _ _ _ _

theorem arranged_of_file {root : Place} (hd : t.isDir root = false) :
    arranged order o root t = .item (.file root) fun _ => .ended := by
  rw [arranged, hd]
  rfl

/-- Before its last file a directory may have others that are left out. -/
theorem arranged_of_last_file {root : Place} {ns : List Name} {n : Name} (hd : t.isDir root = true)
    (hi : o.useIgnoreFiles = false) (hn : order (t.names root) = ns ++ [n])
    (hns : ∀ m ∈ ns, look t o [⟨root, root⟩] (root ++ [m]) (root ++ [m]) = .dir (root ++ [m]) ∧
      takes o [] (root ++ [m]) m true = false)
    (hl : look t o [⟨root, root⟩] (root ++ [n]) (root ++ [n]) = .file ∧
      takes o [] (root ++ [n]) n false = true) :
    arranged order o root t = .item (.file (root ++ [n])) fun _ => .ended := by
  obtain ⟨m, hm⟩ : ∃ m, maxDepth = m + 1 := ⟨4094, rfl⟩
  rw [arranged, if_pos hd, above, hi, hm]
  simp only [Bool.false_eq_true, if_false, List.map_nil, List.reverse_nil, List.flatMap_nil,
    if_true,
    below, hn, enter, hi]
  clear hn
  induction ns with
  | nil => simp only [List.nil_append, List.foldr_cons, List.foldr_nil, hl.1, hl.2, if_true]
  | cons k ns ih =>
    obtain ⟨hk, hns⟩ := List.forall_mem_cons.mp hns
    simp only [List.cons_append, List.foldr_cons, hk.1, hk.2, Bool.false_eq_true, if_false]
    exact ih hns

theorem arranged_of_lone_file {root : Place} {n : Name} (hd : t.isDir root = true)
    (hi : o.useIgnoreFiles = false) (hn : order (t.names root) = [n])
    (hl : look t o [⟨root, root⟩] (root ++ [n]) (root ++ [n]) = .file ∧
      takes o [] (root ++ [n]) n false = true) :
    arranged order o root t = .item (.file (root ++ [n])) fun _ => .ended :=
  arranged_of_last_file hd hi (hn.trans (List.nil_append [n]).symm) (List.forall_mem_nil _) hl

structure LoneDir (t : FileTree) (o : Options) (order : List Name → List Name) (root : Place)
    (k n : Name) : Prop where
  dir : look t o [⟨root, root⟩] (root ++ [k]) (root ++ [k]) = .dir (root ++ [k])
  taken : takes o [] (root ++ [k]) k true = true
  names : order (t.names (root ++ [k])) = [n]
  file : look t o [⟨root ++ [k], root ++ [k]⟩, ⟨root, root⟩] (root ++ [k] ++ [n])
    (root ++ [k] ++ [n]) = .file
  fileTaken : takes o [] (root ++ [k] ++ [n]) n false = true

/-- Of two such directories the walk looks at the second in the tree that there is after the first.
-/
theorem arranged_of_lone_dirs {root : Place} {k l n m : Name} {u : FileTree}
    (hd : t.isDir root = true) (hi : o.useIgnoreFiles = false)
    (hn : order (t.names root) = [k, l]) (hk : LoneDir t o order root k n)
    (hl : LoneDir u o order root l m) :
    ∃ next, arranged order o root t = .item (.file (root ++ [k] ++ [n])) next ∧
      next u = .item (.file (root ++ [l] ++ [m])) fun _ => .ended := by
  obtain ⟨d, hdepth⟩ : ∃ d, maxDepth = d + 2 := ⟨4093, rfl⟩
  rw [arranged, if_pos hd, above, hi, hdepth]
  simp only [Bool.false_eq_true, if_false, List.map_nil, List.reverse_nil, List.flatMap_nil,
    if_true,
    below, hn, enter, hi, List.foldr_cons, List.foldr_nil, hk.dir, hk.taken, hk.names, hk.file,
    hk.fileTaken]
  refine ⟨_, rfl, ?_⟩
  simp only [hl.dir, hl.taken, hl.names, hl.file, hl.fileTaken, if_true, List.foldr_cons,
    List.foldr_nil]

theorem still_arranged (root : Place) :
    (arranged order o root t).still t =
      if t.isDir root then
        let levels := ((above t o root).map Prod.fst).reverse
        let complaints := (above t o root).flatMap Prod.snd
        (if complaints = [] then [] else [.fault (.ignoreFiles complaints)]) ++
          visitsBelow t order o maxDepth (enter t o levels root) ⟨root, root⟩ []
      else [.file root] := by
  rw [arranged]
  split
  · dsimp only
    split
    · rw [still_below]
      exact List.append_nil _
    · rw [Walking.still, still_below]
      exact congrArg _ (List.append_nil _)
  · rfl

end Walk

end Unstamp
