import Mathlib.Data.List.Induction
import Unstamp.Proofs.FileTree.Leads
import Unstamp.Proofs.FileTree.Placing
import Unstamp.Proofs.Walk

namespace Unstamp

namespace FileTree
open Unstamp.Path
variable {t u w : FileTree} {out p q : Place}

/-- No link leads to a place, or below it, or above it. -/
def LinksApart (t : FileTree) (out : Place) : Prop :=
  ∀ p target q, t.get? p = some (.link target) → t.Leads [] p q → Apart q out

theorem Apart.append (h : Apart p out) (names : List Name) : Apart (p ++ names) out := by
  refine ⟨fun hp => h.left ((List.prefix_append p names).trans hp), fun hp => ?_⟩
  rcases List.prefix_or_prefix_of_prefix hp (List.prefix_append p names) with hp | hp
  · exact h.right hp
  · exact h.left hp

/-- Names leave the places that they spell only through a link, and then they lead to a place apart
from what no link leads to. -/
theorem LinksApart.eq_or_apart (hl : t.LinksApart out) (ht : t.WellFormed) (hp : ∀ n ∈ p, IsName n)
    (h : t.Leads [] p q) : p = q ∨ Apart q out := by
  induction p using List.reverseRecOn generalizing q with
  | nil => exact .inl (h.unique (.here [])).symm
  | append_singleton p n ih =>
    obtain ⟨m, hm, hq⟩ := h.split
    have hn : step? n = some (.name n) := (hp n (by simp)).normal.step?
    have hm' := ih (fun k hk => hp k (List.mem_append_left [n] hk)) hm
    cases hq with
    | next hs hrest =>
      cases hs with
      | stay _ hn' | up _ hn' => cases hn.symm.trans hn'
      | down =>
        obtain rfl := hrest.unique (.here _)
        exact hm'.imp (fun he => by rw [he]) fun ha => ha.append [n]
      | link hd hn' he =>
        exact .inr (hl _ _ _ he (ht.leads_concat hd (.next (.link hd hn' he) hrest)))

/-- A tree goes on to one where other entries are new and files can have other bytes. -/
structure Grows (t u : FileTree) : Prop where
  kept : t.Kept u
  wellFormed : u.WellFormed

namespace Grows

theorem refl (ht : t.WellFormed) : t.Grows t :=
  ⟨.refl t, ht⟩

theorem trans (h : t.Grows u) (h' : u.Grows w) : t.Grows w :=
  ⟨h.kept.trans h'.kept, h'.wellFormed⟩

theorem of_sameShape (h : t.SameShape u) (ht : t.WellFormed) : t.Grows u := by
  refine ⟨fun p e he => ?_, h.wellFormed ht⟩
  rcases h p with hp | ⟨data, data', hp, hp'⟩
  · exact .inl (hp.symm.trans he)
  · exact .inr ⟨data, data', Option.some.inj (he.symm.trans hp), hp'⟩

end Grows

end FileTree

open Unstamp.Path FileTree

namespace Walk
variable {t u : FileTree} {o : Options} {here : Station} {trail : List Station} {n : Name}
  {root p q : Place}

structure Delivered (t : FileTree) (root p q : Place) : Prop where
  below : root <+: p
  name : ∀ n ∈ p, IsName n
  leads : t.Leads [] p q
  file : ∃ data, t.get? q = some (.file data)

theorem Delivered.ne_nil (h : Delivered t root p q) : p ≠ [] := by
  rintro rfl
  obtain ⟨data, hd⟩ := h.file
  obtain rfl := h.leads.unique (.here [])
  cases hd

/-- The root is given whatever the options say of it, and all else only if they keep it. Links come
in only if they are followed. -/
def Fits (o : Options) (root : Place) (t : FileTree) : Visit → Prop
  | .fault _ => True
  | .file p => ∃ q, Delivered t root p q ∧ (p = root ∨ o.keeps p false = true) ∧
      (o.followLinks = false → p = q)

/-- What leads into a directory that all else is kept off from, and that no link leads to, is the
root. -/
theorem Fits.eq_root (hv : Fits o root t (.file p)) (ht : t.WellFormed) {out : Place}
    (hk : ∀ p, o.keeps p false = true → ¬ out <+: p)
    (hl : o.followLinks = true → t.LinksApart out) (hq : t.Leads [] p q) (ho : out <+: q) :
    p = root ∧ q = root := by
  obtain ⟨q', hp, hkeeps, hown⟩ := hv
  obtain rfl := hq.unique hp.leads
  have hpq : p = q := by
    by_cases hf : o.followLinks = true
    · exact ((hl hf).eq_or_apart ht hp.name hq).resolve_right fun ha => ha.right ho
    · exact hown (Bool.eq_false_iff.mpr hf)
  have hpr : p = root := hkeeps.resolve_right fun h => hk p h (hpq ▸ ho)
  exact ⟨hpr, hpq ▸ hpr⟩

end Walk

/-- A walk, from a directory or a file, gives files below its root that the options keep, and a root
that is a file itself. This holds whatever is new in the tree by the time, or written into files. -/
structure Walker.Faithful (walk : Walker) : Prop where
  fits : ∀ (o : Walk.Options) (root : Place) (t : FileTree), t.WellFormed → t.Holds root →
    (walk o root t).Always Grows (Walk.Fits o root) t
  root : ∀ (o : Walk.Options) (root : Place) (t : FileTree) (vs : List Visit), t.WellFormed →
    t.Holds root → t.isDir root = false → (walk o root t).Gives Grows t vs → .file root ∈ vs

theorem Walker.Faithful.visitsFiles {walk : Walker} (hw : walk.Faithful) : walk.VisitsFiles := by
  intro o root t ho ht hr
  refine (hw.fits o root t ht hr).mono FileTree.WellFormed (fun t u ht hu => ?_)
    (fun t v _ hv p hp => ?_) ht
  · exact ⟨hu.wellFormed ht, .of_sameShape hu ht⟩
  · obtain rfl := List.mem_singleton.mp hp
    obtain ⟨q, hq, -, hown⟩ := hv
    exact hown ho ▸ hq.file

/-! The walk that goes through each directory in some order. -/
namespace Walk
variable {t u : FileTree} {o : Options} {order : List Name → List Name} {here : Station}
  {trail : List Station} {n : Name} {root p q : Place}

private structure Station.Stands (t : FileTree) (o : Options) (s : Station) : Prop where
  name : ∀ n ∈ s.place, IsName n
  leads : t.Leads [] s.place s.real
  dir : t.isDir s.real = true
  own : o.followLinks = false → s.place = s.real

private structure Reached (t : FileTree) (o : Options) (here : Station) (n : Name) (q : Place) :
    Prop where
  name : ∀ m ∈ here.place ++ [n], IsName m
  leads : t.Leads [] (here.place ++ [n]) q
  own : o.followLinks = false → here.place ++ [n] = q

namespace Station.Stands

private theorem kept (hs : here.Stands t o) (hu : t.Kept u) : here.Stands u o :=
  ⟨hs.name, hu.leads hs.leads, hu.isDir hs.dir, hs.own⟩

private theorem name_concat (hs : here.Stands t o) (hn : IsName n) :
    ∀ m ∈ here.place ++ [n], IsName m :=
  List.forall_mem_append.mpr ⟨hs.name, List.forall_mem_singleton.mpr hn⟩

private theorem reached (hs : here.Stands t o) (ht : t.WellFormed) {e : Entry}
    (he : t.get? (here.real ++ [n]) = some e) (hl : ∀ target, e ≠ .link target) :
    Reached t o here n (here.real ++ [n]) := by
  have hn : IsName n := ht.name he n (by simp)
  exact ⟨hs.name_concat hn, hs.leads.concat hs.dir hn he hl, fun ho => by rw [hs.own ho]⟩

private theorem reached_link (hs : here.Stands t o) (ht : t.WellFormed) {target : Path}
    (he : t.get? (here.real ++ [n]) = some (.link target)) (ho : o.followLinks = true)
    (hr : t.resolve [] (Place.path (here.place ++ [n])) = .ok q) : Reached t o here n q := by
  have hname := hs.name_concat (ht.name he n (by simp))
  refine ⟨hname, (leads_of_resolve hname hr).2, fun ho' => ?_⟩
  rw [ho] at ho'
  cases ho'

end Station.Stands

private theorem look_file_reached (ht : t.WellFormed) (hs : here.Stands t o)
    (h : look t o trail (here.place ++ [n]) (here.real ++ [n]) = .file) :
    ∃ q, Reached t o here n q ∧ ∃ data, t.get? q = some (.file data) := by
  rw [look] at h
  split at h
  · rename_i data he
    exact ⟨_, hs.reached ht he (by simp), data, he⟩
  · cases h
  · rename_i target he
    split at h
    · rename_i ho
      split at h
      · cases h
      · rename_i q hr
        split at h
        · split at h <;> cases h
        · rename_i hd
          exact ⟨q, hs.reached_link ht he ho hr, (ht.holds_of_resolve hr).resolve_left hd⟩
    · cases h
  · cases h

private theorem look_dir_stands (ht : t.WellFormed) (hs : here.Stands t o)
    (h : look t o trail (here.place ++ [n]) (here.real ++ [n]) = .dir q) :
    Station.Stands t o ⟨here.place ++ [n], q⟩ := by
  have hstands (hq : Reached t o here n q) (hd : t.isDir q = true) :
      Station.Stands t o ⟨here.place ++ [n], q⟩ := ⟨hq.name, hq.leads, hd, hq.own⟩
  rw [look] at h
  split at h
  · cases h
  · rename_i he
    cases h
    exact hstands (hs.reached ht he (by simp)) (beq_iff_eq.mpr he)
  · rename_i target he
    split at h
    · rename_i ho
      split at h
      · cases h
      · rename_i hr
        split at h
        · rename_i hd
          split at h
          · cases h
          · cases h
            exact hstands (hs.reached_link ht he ho hr) hd
        · cases h
    · cases h
  · cases h

private theorem below_fits {depth : Nat} {levels : List Ignore.Level} {next : FileTree → Walking}
    (ht : t.WellFormed) (hs : here.Stands t o) (hb : root <+: here.place)
    (hnext : ∀ u, t.Grows u → (next u).Always Grows (Fits o root) u) :
    (below order o depth levels here trail next t).Always Grows (Fits o root) t := by
  induction depth generalizing t levels here trail next with
  | zero => exact hnext t (.refl ht)
  | succ depth ih =>
    rw [below]
    -- After each name, all that comes later fits in whatever tree there is by then.
    refine List.foldrRecOn (motive := fun (next : FileTree → Walking) => ∀ u, t.Grows u →
      (next u).Always Grows (Fits o root) u) _ _ hnext (fun later hlater n _ u hu => ?_) t
        (.refl ht)
    have hsu := hs.kept hu.kept
    have hbelow : root <+: here.place ++ [n] := hb.trans (List.prefix_append _ _)
    have hrest (w : FileTree) (hw : u.Grows w) : (later w).Always Grows (Fits o root) w :=
      hlater w (hu.trans hw)
    dsimp only
    cases hl : look u o (here :: trail) (here.place ++ [n]) (here.real ++ [n]) with
    | nothing => exact hlater u hu
    | fault fault => exact ⟨trivial, hrest⟩
    | file =>
      cases htakes : takes o levels (here.place ++ [n]) n false with
      | false => exact hlater u hu
      | true =>
        rw [takes, Bool.and_eq_true] at htakes
        obtain ⟨q, hq, hfile⟩ := look_file_reached hu.wellFormed hsu hl
        exact ⟨⟨q, ⟨hbelow, hq.name, hq.leads, hfile⟩, .inr htakes.2, hq.own⟩, hrest⟩
    | dir real =>
      cases takes o levels (here.place ++ [n]) n true with
      | false => exact hlater u hu
      | true => exact ih hu.wellFormed (look_dir_stands hu.wellFormed hsu hl) hbelow hrest

theorem arranged_faithful (order : List Name → List Name) : (arranged order).Faithful := by
  constructor
  · intro o root t ht hr
    rw [arranged]
    by_cases hd : t.isDir root = true
    · have hstands {u : FileTree} (hu : t.Grows u) : Station.Stands u o ⟨root, root⟩ := by
        have he := beq_iff_eq.mp (hu.kept.isDir hd)
        exact ⟨hu.wellFormed.name he, hu.wellFormed.leads he (by simp), hu.kept.isDir hd,
          fun _ => rfl⟩
      have hinside (levels : List Ignore.Level) {u : FileTree} (hu : t.Grows u) :
          (below order o maxDepth (enter u o levels root) ⟨root, root⟩ [] (fun _ => .ended)
            u).Always Grows (Fits o root) u :=
        below_fits hu.wellFormed (hstands hu) (List.prefix_refl root) fun _ _ => trivial
      rw [if_pos hd]
      dsimp only
      split
      · exact hinside _ (.refl ht)
      · exact ⟨trivial, fun u hu => hinside _ hu⟩
    · rw [if_neg hd]
      obtain ⟨data, he⟩ := hr.resolve_left hd
      exact ⟨⟨root, ⟨List.prefix_refl root, ht.name he, ht.leads he (by simp), data, he⟩, .inl rfl,
        fun _ => rfl⟩, fun _ _ => trivial⟩
  · intro o root t vs _ _ hd h
    rw [arranged, hd] at h
    cases h with
    | item => exact List.mem_cons_self

end Walk

end Unstamp
