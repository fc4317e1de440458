import Unstamp.Proofs.FileTree.Growth
import Unstamp.Proofs.Run.Delivery
import Unstamp.Proofs.Walk.Order

namespace Unstamp

/-- A file with the rules of a directory elsewhere that is read through links does not lead to a
file in the output directory, nor nowhere with that directory on its way. -/
def FileTree.SteadyRules (rules : Walk.RuleFiles) (t : FileTree) (out : Place) : Prop :=
  ∀ dir, t.isDir dir = true → ¬ out <+: dir → ∀ p ∈ rules.files dir,
    t.Unlinked p ∨ t.Steady out [] p.path

namespace Run
open Unstamp.Path FileTree Walk
variable {walk : Walker} {cfg : Config} {isExcluded : Text → Bool} {out cwd root p : Place}
  {s s' : State} {t u base : FileTree} {vs : List Visit} {rs : List Path} {v : Visit}
  {o : Walk.Options} {rules : RuleFiles}

theorem openOutDir_grown (ht : t.WellFormed) (cfg : Config) (cwd : Place) :
    t.Grown (openOutDir cfg cwd t).2 ∧ (openOutDir cfg cwd t).2.WellFormed := by
  rw [openOutDir]
  split
  · rename_i dir _ _
    have hmake : t.Grown (t.makeDirAll cwd dir).2 ∧ (t.makeDirAll cwd dir).2.WellFormed :=
      ht.grown_makeDirs (lineage dir.length dir)
    split
    · rename_i h
      rwa [h] at hmake
    · rename_i h
      rw [h] at hmake
      split <;> exact hmake
  · exact ⟨.refl t, ht⟩

private theorem openOutDir_holds (ht : t.WellFormed)
    (h : openOutDir cfg cwd t = (.ok (some out), u)) :
    u.Holds out := by
  have hwf := (openOutDir_grown ht cfg cwd).2
  rw [h] at hwf
  rw [openOutDir] at h
  split at h
  · split at h
    · cases h
    · split at h
      · cases h
      · rename_i hr
        cases h
        exact hwf.holds_of_resolve hr
  · cases h

/-- A run that is to have an output directory starts with it or not at all. -/
theorem openOutDir_ne_none (hc : cfg.check = false) {dir : Path} (ho : cfg.outDir = some dir) :
    openOutDir cfg cwd t ≠ (.ok none, u) := by
  rw [openOutDir, hc, ho]
  simp only
  split
  · nofun
  · split <;> nofun

theorem grown_outlet (h : t.Grown u) (hu : u.Holds out)
    (hl : ∀ p target, t.get? (out ++ p) ≠ some (.link target)) : u.Outlet out :=
  ⟨hu, fun p target he => hl p target (h.eq_of_ne_dir he nofun)⟩

theorem keeps_outside {isDir : Bool} (h : keeps isExcluded (some out) root p isDir = true) :
    ¬ out <+: p := by
  intro hp
  simp [keeps, List.isPrefixOf_iff_prefix.mpr hp] at h

/-- A run starts with nothing new in its directory. -/
theorem running_opened (ht : t.WellFormed) (ho : openOutDir cfg cwd t = (.ok (some out), u))
    (hl : ∀ p target, t.get? (out ++ p) ≠ some (.link target)) :
    t.Grown u ∧ Running cfg u out { tree := u } := by
  have hopened := openOutDir_grown ht cfg cwd
  rw [ho] at hopened
  exact ⟨hopened.1, hopened.2, grown_outlet hopened.1 (openOutDir_holds ht ho) hl, .refl out u,
    .refl u, fun _ _ _ _ _ h => h⟩

/-! Files that hold rules. -/

private theorem forName?_eq_none {charset : Charset} {policy : WritePolicy} {n : Name}
    (h : Selection.forName? .utf8 .abort n = none) :
    Selection.forName? charset policy n = none := by
  rw [Selection.forName?] at h ⊢
  cases hd : Utf8.decode? n with
  | none => rfl
  | some name =>
    simp only [hd] at h ⊢
    split at h
    · cases h
    · rename_i hname
      rw [if_neg hname]
      cases he : (Path.extension? n).bind Utf8.decode? with
      | none => rfl
      | some e =>
        simp only [he] at h ⊢
        split at h
        · cases h
        · rename_i hext
          exact if_neg hext

/-- A file with a name that no cleaner is for is what it was at the start. -/
private theorem Running.file_iff (hs : Running cfg base out s) {n : Name} (hn : p.getLast? = some n)
    (hnone : Selection.forName? cfg.charset cfg.policy n = none) (data : Bytes) :
    s.tree.get? p = some (.file data) ↔ base.get? p = some (.file data) := by
  refine ⟨hs.spared p n data hn hnone, fun h => ?_⟩
  rcases hs.kept p _ h with hu | ⟨_, data', -, hu⟩
  · exact hu
  · exact (hs.spared p n data' hn hnone hu).symm.trans h ▸ hu

/-- The rules of directories elsewhere read all along as they did at the start. -/
theorem Running.sameRules (hs : Running cfg base out s) (hwf : base.WellFormed)
    (hr : base.SteadyRules rules out) {dir : Place} (hd : base.isDir dir = true)
    (ho : ¬ out <+: dir) :
    rules.Same base s.tree dir := by
  intro p hp
  rcases hr dir hd ho p hp with hl | hsteady
  · have hname := rules.name (hwf.name (isDir_iff.mp hd)) p hp
    obtain ⟨n, hn, hnone⟩ := rules.spared p hp
    have hnone' : Selection.forName? cfg.charset cfg.policy n = none := forName?_eq_none hnone
    have hl' : s.tree.Unlinked p := by
      intro q hq target he
      by_cases hout : out <+: q
      · obtain ⟨r, rfl⟩ := hout
        exact hs.outlet.unlinked r target he
      · exact hl q hq target ((hs.outside hout).symm.trans he)
    have hread (data : Bytes) : s.tree.read [] (p.path) = .ok data ↔
        base.read [] (p.path) = .ok data := by
      rw [hs.wellFormed.read_unlinked hname hl', hwf.read_unlinked hname hl, hs.file_iff hn hnone']
    cases hu : s.tree.read [] (p.path) with
    | ok data => rw [(hread data).mp hu]
    | error fault =>
      cases hb : base.read [] (p.path) with
      | ok data =>
        rw [(hread data).mpr hb] at hu
        cases hu
      | error fault' => rfl
  · rw [hsteady.read hs.kept hs.beside]

theorem Running.unseen (hs : Running cfg base out s) (hs' : Running cfg base out s')
    (hwf : base.WellFormed) (hr : base.SteadyRules rules out) (hk : s.tree.Kept s'.tree) :
    s.tree.Unseen rules out s'.tree := by
  refine ⟨⟨hk, hs'.wellFormed⟩, hs.beside.symm.trans hs'.beside, fun dir hd ho p hp => ?_⟩
  have hd' : base.isDir dir = true := by rw [isDir, ← hs.outside ho, ← isDir, hd]
  exact (hs'.sameRules hwf hr hd' ho p hp).trans (hs.sameRules hwf hr hd' ho p hp).symm

/-! Visits of what a walk gives. -/

theorem visit_frame (hc : cfg.check = false) (hs : Running cfg base out s)
    (hv : Fits o root s.tree v) :
    Running cfg base out (visit cfg (some out) root s v).1 ∧
      s.tree.Kept (visit cfg (some out) root s v).1.tree := by
  cases v with
  | fault fault => exact ⟨hs, .refl _⟩
  | file p =>
    obtain ⟨q, hq, -⟩ := hv
    exact visitFile_frame hc hs hq.below hq.name hq.ne_nil

section
variable (hw : walk.Faithful) (hc : cfg.check = false) (hs : Running cfg base out s)
  (hroot : s.tree.Holds root)
include hw hc hs hroot

/-- Each file given fits the tree that there is when it has its turn. -/
theorem given_frame :
    Running cfg base out
        (visitAll cfg (some out) root s (given walk cfg isExcluded (some out) root s)).1 ∧
      ∀ a ∈ stops cfg (some out) root s (given walk cfg isExcluded (some out) root s),
        a.root = root ∧ (Running cfg base out a.state ∧ s.tree.Kept a.state.tree) ∧
          Fits (walkOptions cfg isExcluded (some out) root) root a.state.tree (.file a.place) := by
  let good (s' : State) : Prop := Running cfg base out s' ∧ s.tree.Kept s'.tree
  have hvisit (s' : State) (v : Visit) (hs' : good s')
      (hv : Fits (walkOptions cfg isExcluded (some out) root) root s'.tree v) :
      good (visit cfg (some out) root s' v).1 ∧
        s'.tree.Grows (visit cfg (some out) root s' v).1.tree := by
    obtain ⟨hnext, hkept⟩ := visit_frame hc hs'.1 hv
    exact ⟨⟨hnext, hs'.2.trans hkept⟩, hkept, hnext.wellFormed⟩
  have halways :=
    hw.fits (walkOptions cfg isExcluded (some out) root) root s.tree hs.wellFormed hroot
  exact ⟨(visitAll_good hvisit ⟨hs, .refl _⟩ halways).1, stops_good hvisit ⟨hs, .refl _⟩ halways⟩

/-- A root that is a file is itself among what is given. -/
theorem root_mem_given (hd : s.tree.isDir root = false) :
    .file root ∈ given walk cfg isExcluded (some out) root s := by
  refine hw.root (walkOptions cfg isExcluded (some out) root) root s.tree _ hs.wellFormed hroot hd
    (gives_delivered (fun s' v hs' hv => ?_) hs (hw.fits _ root s.tree hs.wellFormed hroot))
  obtain ⟨hnext, hkept⟩ := visit_frame hc hs' hv
  exact ⟨hnext, hkept, hnext.wellFormed⟩

theorem given_gives (hwf : base.WellFormed) (hr : base.SteadyRules rules out) :
    (walk (walkOptions cfg isExcluded (some out) root) root s.tree).Gives (Unseen rules out) s.tree
      (given walk cfg isExcluded (some out) root s) := by
  refine gives_delivered (fun s' v hs' hv => ?_) hs
    ((hw.fits (walkOptions cfg isExcluded (some out) root) root s.tree hs.wellFormed hroot).mono
      FileTree.WellFormed (fun t u _ hu => ⟨hu.grows.wellFormed, hu.grows⟩) (fun _ _ _ h => h)
      hs.wellFormed)
  obtain ⟨hnext, hkept⟩ := visit_frame hc hs' hv
  exact ⟨hnext, hs'.unseen hnext hwf hr hkept⟩

/-- What a walk gives without following links stands outside of the output directory, unless the
root is a file in it. -/
theorem source_of_given (hl : cfg.followLinks = false)
    (hdir : out <+: root → s.tree.isDir root = true) (p : Place)
    (hp : .file p ∈ given walk cfg isExcluded (some out) root s) : Source base out root p := by
  obtain ⟨a, ha, rfl⟩ := List.mem_map.mp ((place_stops _ p).mpr hp)
  obtain ⟨-, ⟨hrun, hkept⟩, hfits⟩ := (given_frame hw hc hs hroot).2 a ha
  have hown : Delivered a.state.tree root a.place a.place := by
    obtain ⟨q, hq, -, hown⟩ := hfits
    exact hown hl ▸ hq
  obtain ⟨data, hfile⟩ := hown.file
  have hout : ¬ out <+: a.place := by
    intro hin
    have hunfollowed (hf : cfg.followLinks = true) : a.state.tree.LinksApart out := by
      rw [hl] at hf
      cases hf
    obtain ⟨he, -⟩ :=
      hfits.eq_root hrun.wellFormed (fun _ => keeps_outside) hunfollowed hown.leads hin
    have hd := hkept.isDir (hdir (he ▸ hin))
    rw [← he, isDir, hfile] at hd
    cases hd
  exact ⟨hown.below, hout, data, (hrun.outside hout).symm.trans hfile⟩

end

/-- A root leads all along where it led at the start, which is to no file in the output directory.
-/
theorem Running.isDir_root (hs : Running cfg base out s) {r : Path} (hr : base.Steady out cwd r)
    (h : s.tree.resolve cwd r = .ok root) : out <+: root → s.tree.isDir root = true := by
  intro hin
  rw [hr.resolve hs.kept hs.beside] at h
  rw [Steady, h] at hr
  exact hs.kept.isDir (hr hin)

theorem source_of_rounds (hw : walk.Faithful) (hc : cfg.check = false)
    (hl : cfg.followLinks = false)
    (hs : Running cfg base out s) (hroots : ∀ r ∈ rs, base.Steady out cwd r) :
    ∀ a ∈ (rounds walk cfg isExcluded (some out) cwd s rs).flatMap (Round.stops cfg (some out)),
      Source base out a.root a.place := by
  induction rs generalizing s with
  | nil => nofun
  | cons r rs ih =>
    obtain ⟨hr, hrs⟩ := List.forall_mem_cons.mp hroots
    cases hres : s.tree.resolve cwd r with
    | error fault =>
      rw [rounds_of_error hres]
      exact ih hs hrs
    | ok place =>
      have hholds := hs.wellFormed.holds_of_resolve hres
      obtain ⟨hnext, hnow⟩ := @given_frame walk cfg isExcluded out place s base hw hc hs hholds
      rw [rounds_of_ok hres, List.flatMap_cons]
      intro a ha
      rcases List.mem_append.mp ha with ha | ha
      · rw [(hnow a ha).1]
        exact source_of_given hw hc hs hholds hl (hs.isDir_root hr hres) a.place
          ((place_stops _ _).mp (List.mem_map_of_mem ha))
      · exact ih hnext hrs a ha

end Run

end Unstamp
