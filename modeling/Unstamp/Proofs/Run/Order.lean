import Unstamp.Proofs.Run.Opening

/-! The files below one root have outputs of which none stands above another, so that they can be
visited in any order. -/
namespace Unstamp.Run
open FileTree
variable {lib : PatternLibrary} {walk walk' : Walker} {cfg : Config} {isExcluded : Text → Bool}
  {out cwd root p q d : Place}
  {s s' : State} {t base : FileTree} {data : Bytes} {vs ws : List Visit} {rs : List Path}

structure State.Alike (s s' : State) : Prop where
  tree : s.tree.Alike s'.tree
  claimed : ∀ d, s.claimed.lookup d = s'.claimed.lookup d

namespace State.Alike

theorem refl (s : State) : s.Alike s :=
  ⟨.refl s.tree, fun _ => rfl⟩

theorem trans {m : State} (h : s.Alike m) (h' : m.Alike s') : s.Alike s' :=
  ⟨h.tree.trans h'.tree, fun d => (h.claimed d).trans (h'.claimed d)⟩

theorem running (h : s.Alike s') (hs : Running cfg base out s) : Running cfg base out s' := by
  have hget := h.tree.get?
  refine ⟨h.tree.sameShape.wellFormed hs.wellFormed, ⟨?_, ?_⟩, ?_, ?_, ?_⟩
  · rw [Holds, ← h.tree.sameShape.isDir, ← hget]
    exact hs.outlet.holds
  · intro p target
    rw [← hget]
    exact hs.outlet.unlinked p target
  · intro p hp
    rw [← hget, hs.beside p hp]
  · intro p e he
    rw [← hget]
    exact hs.kept p e he
  · intro p n data
    rw [← hget]
    exact hs.spared p n data

theorem offer? (h : s.Alike s') (cfg : Config) (out root p : Place) (data : Bytes) :
    offer? cfg out root s p data = offer? cfg out root s' p data := by
  rw [Run.offer?, Run.offer?, h.claimed]

end State.Alike

/-- Nothing stands below a file. -/
private theorem eq_of_prefix_of_file (ht : t.WellFormed) (hp : t.get? p = some (.file data))
    {e : Entry}
    (hq : t.get? q = some e) (h : p <+: q) : p = q := by
  obtain ⟨r, rfl⟩ := h
  cases r with
  | nil => exact (List.append_nil p).symm
  | cons n r =>
    have hd := ht.dir_of_append hq (List.cons_ne_nil n r)
    rw [hp] at hd
    cases hd

theorem destination_not_above (hs : Running cfg base out s) (hp : Source base out root p)
    (hq : Source base out root q) (hne : p ≠ q) :
    ¬ destination out root p <+: destination out root q := by
  intro h
  obtain ⟨_, hfile⟩ := hs.file hp
  obtain ⟨_, hfile'⟩ := hs.file hq
  have hwf := hs.wellFormed
  apply hne
  by_cases hpr : p = root
  · exact eq_of_prefix_of_file hwf hfile hfile' (hpr ▸ hq.below)
  · by_cases hqr : q = root
    · exact (eq_of_prefix_of_file hwf hfile' hfile (hqr ▸ hp.below)).symm
    · obtain ⟨x, rfl⟩ := hp.below
      obtain ⟨y, rfl⟩ := hq.below
      rw [destination, destination, namesBelow, namesBelow, if_neg hpr, if_neg hqr,
        List.drop_left, List.drop_left, List.prefix_append_right_inj] at h
      exact eq_of_prefix_of_file hwf hfile hfile' ((List.prefix_append_right_inj root).mpr h)

private theorem apart_destination (hs : Running cfg base out s) (hp : Source base out root p)
    (hq : Source base out root q) (hne : p ≠ q) :
    Apart (destination out root p) (destination out root q) :=
  ⟨destination_not_above hs hp hq hne, destination_not_above hs hq hp hne.symm⟩

private theorem claim?_of_ne (cfg : Config) (h : d ≠ destination out root p) :
    claim? cfg out root p d = none :=
  if_neg fun hd => h hd.2

section
variable (hc : cfg.check = false) (hs : Running cfg base out s)
include hc hs

private theorem visitFile_alike (h : s.Alike s') (hp : Source base out root p) :
    (visitFile cfg (some out) root s p).1.Alike (visitFile cfg (some out) root s' p).1 := by
  obtain ⟨data, hd⟩ := hs.file hp
  have hnow := visitFile_comes hc hs hp hd
  have hnow' := visitFile_comes hc (h.running hs) hp ((h.tree.get? p).symm.trans hd)
  have ho := hnow'.overlaid
  rw [← h.offer?, ← h.tree.placing?] at ho
  refine ⟨h.tree.overlaid hnow.overlaid ho, fun d => ?_⟩
  rw [hnow.lookup, hnow'.lookup, h.claimed]

/-- Two files below one root can be visited in either order. -/
theorem visitFile_comm (hp : Source base out root p) (hq : Source base out root q) :
    (visitFile cfg (some out) root (visitFile cfg (some out) root s p).1 q).1.Alike
      (visitFile cfg (some out) root (visitFile cfg (some out) root s q).1 p).1 := by
  by_cases hne : p = q
  · subst hne
    exact .refl _
  · have hapart := apart_destination hs hp hq hne
    obtain ⟨data, hd⟩ := hs.file hp
    obtain ⟨data', hd'⟩ := hs.file hq
    have hsp := visitFile_running hc hs hp
    have hsq := visitFile_running hc hs hq
    have hp₁ := visitFile_comes hc hs hp hd
    have hq₁ := visitFile_comes hc hs hq hd'
    have hp₂ := visitFile_comes hc hsq hp
      ((hsq.outside hp.outside).trans ((hs.outside hp.outside).symm.trans hd))
    have hq₂ := visitFile_comes hc hsp hq
      ((hsp.outside hq.outside).trans ((hs.outside hq.outside).symm.trans hd'))
    constructor
    · have hop := hp₂.overlaid
      have hoq := hq₂.overlaid
      rw [offer?, hq₁.lookup, claim?_of_ne cfg hapart.ne, Option.or_none, ← offer?] at hop
      rw [offer?, hp₁.lookup, claim?_of_ne cfg hapart.ne.symm, Option.or_none, ← offer?] at hoq
      exact placing?_comm hapart hp₁.overlaid hoq hq₁.overlaid hop
    · intro d
      rw [hq₂.lookup, hp₁.lookup, hp₂.lookup, hq₁.lookup, Option.or_assoc, Option.or_assoc]
      by_cases hdp : d = destination out root p
      · rw [claim?_of_ne (p := q) cfg (hdp ▸ hapart.ne), Option.or_none, Option.none_or]
      · rw [claim?_of_ne cfg hdp, Option.or_none, Option.none_or]

private theorem visit_alike (h : s.Alike s') {v : Visit}
    (hv : ∀ p, .file p ∈ [v] → Source base out root p) :
    (visit cfg (some out) root s v).1.Alike (visit cfg (some out) root s' v).1 := by
  cases v with
  | fault fault => exact h
  | file p => exact visitFile_alike hc hs h (hv p (List.mem_singleton.mpr rfl))

private theorem visit_comm {v w : Visit} (hv : ∀ p, .file p ∈ [v, w] → Source base out root p) :
    (visit cfg (some out) root (visit cfg (some out) root s v).1 w).1.Alike
      (visit cfg (some out) root (visit cfg (some out) root s w).1 v).1 := by
  cases v with
  | fault fault => exact .refl _
  | file p =>
    cases w with
    | fault fault => exact .refl _
    | file q => exact visitFile_comm hc hs (hv p (by simp)) (hv q (by simp))

private theorem visit_running {v : Visit} (hv : ∀ p, .file p ∈ [v] → Source base out root p) :
    Running cfg base out (visit cfg (some out) root s v).1 := by
  cases v with
  | fault fault => exact hs
  | file p => exact visitFile_running hc hs (hv p (List.mem_singleton.mpr rfl))

private theorem visitAll_alike (h : s.Alike s') (hv : ∀ p, .file p ∈ vs → Source base out root p) :
    (visitAll cfg (some out) root s vs).1.Alike (visitAll cfg (some out) root s' vs).1 := by
  induction vs generalizing s s' with
  | nil => exact h
  | cons v vs ih =>
    have hnow (p : Place) (hp : .file p ∈ [v]) : Source base out root p :=
      hv p (List.mem_append_left vs hp)
    exact ih (visit_running hc hs hnow) (visit_alike hc hs h hnow)
      fun p hp => hv p (List.mem_cons_of_mem v hp)

/-- The order of the files below one root makes no difference. -/
private theorem visitAll_perm (hperm : vs.Perm ws) (h : s.Alike s')
    (hv : ∀ p, .file p ∈ vs → Source base out root p) :
    (visitAll cfg (some out) root s vs).1.Alike (visitAll cfg (some out) root s' ws).1 := by
  induction hperm generalizing s s' with
  | nil => exact h
  | @cons v vs ws _ ih =>
    have hnow (p : Place) (hp : .file p ∈ [v]) : Source base out root p :=
      hv p (List.mem_append_left vs hp)
    exact ih (visit_running hc hs hnow) (visit_alike hc hs h hnow)
      fun p hp => hv p (List.mem_cons_of_mem v hp)
  | swap v w vs =>
    have hboth (p : Place) (hp : .file p ∈ [w, v]) : Source base out root p :=
      hv p (List.mem_append_left vs hp)
    have hw (p : Place) (hp : .file p ∈ [w]) : Source base out root p :=
      hboth p (List.mem_append_left [v] hp)
    have hv' (p : Place) (hp : .file p ∈ [v]) : Source base out root p :=
      hboth p (List.mem_append_right [w] hp)
    -- The two visits change places on the one state, and only then the other state comes in.
    have hsw := visit_running hc hs hw
    have hsv := visit_running hc hs hv'
    have hswap := (visit_comm hc hs hboth).trans
      (visit_alike hc hsv (visit_alike hc hs h hv') hw)
    exact visitAll_alike hc (visit_running hc hsw hv') hswap
      fun p hp => hv p (List.mem_append_right [w, v] hp)
  | trans hperm _ ih ih' =>
    exact (ih hs (.refl s) hv).trans (ih' hs h fun p hp => hv p (hperm.mem_iff.mpr hp))

omit hc hs in
/-- Faults of a walk make no difference to the state. -/
private theorem visitAll_files (vs : List Visit) :
    (visitAll cfg (some out) root s vs).1 =
      (visitAll cfg (some out) root s ((Walk.files vs).map .file)).1 := by
  induction vs generalizing s with
  | nil => rfl
  | cons v vs ih =>
    cases v with
    | fault fault => exact ih
    | file p => exact ih

theorem sweep_alike (hw : walk.Faithful) (hw' : walk'.Faithful) {rules : Walk.RuleFiles}
    (hsame : walk.SameFiles rules walk')
    (hl : cfg.followLinks = false) (h : s.Alike s') (hwf : base.WellFormed)
    (hrules : base.SteadyRules rules out) (hroots : ∀ r ∈ rs, base.Steady out cwd r) :
    (sweep walk cfg isExcluded (some out) cwd s rs).1.Alike
      (sweep walk' cfg isExcluded (some out) cwd s' rs).1 := by
  induction rs generalizing s s' with
  | nil => exact h
  | cons r rs ih =>
    obtain ⟨hr, hrs⟩ := List.forall_mem_cons.mp hroots
    have hs' := h.running hs
    rw [sweep, sweep]
    have hresolve := h.tree.sameShape.resolve cwd r
    cases hres : s.tree.resolve cwd r with
    | error fault =>
      rw [visitRoot_of_error hres, visitRoot_of_error (hresolve.symm.trans hres)]
      exact ih hs h hrs
    | ok place =>
      have hholds := hs.wellFormed.holds_of_resolve hres
      have hholds' := hs'.wellFormed.holds_of_resolve (hresolve.symm.trans hres)
      have hdir := hs.isDir_root hr hres
      have hsource := @source_of_given walk cfg isExcluded out place s base hw hc hs hholds hl hdir
      have hsource' := @source_of_given walk' cfg isExcluded out place s' base hw' hc hs' hholds' hl
        (hs'.isDir_root hr (hresolve.symm.trans hres))
      have hnext := (@given_frame walk cfg isExcluded out place s base hw hc hs hholds).1
      have hperm : (Walk.files (given walk cfg isExcluded (some out) place s)).Perm
          (Walk.files (given walk' cfg isExcluded (some out) place s')) := by
        by_cases hin : out <+: place
        · -- From a root in the output directory neither walk gives a file.
          have hnone {vs : List Visit} (hv : ∀ p, .file p ∈ vs → Source base out place p) :
              Walk.files vs = [] := List.eq_nil_iff_forall_not_mem.mpr fun p hp =>
            (hv p (Walk.mem_files.mp hp)).outside (hin.trans (hv p (Walk.mem_files.mp hp)).below)
          rw [hnone hsource, hnone hsource']
        · exact hsame _ place out s.tree s'.tree _ _ hl (fun _ _ => keeps_outside) hin hs.wellFormed
            hholds (hs.unseen hs' hwf hrules fun p e he => .inl ((h.tree.get? p).symm.trans he))
            (given_gives hw hc hs hholds hwf hrules) (given_gives hw' hc hs' hholds' hwf hrules)
      rw [visitRoot_of_ok hres, visitRoot_of_ok (hresolve.symm.trans hres)]
      refine ih hnext ?_ hrs
      rw [visitAll_files, visitAll_files (given walk' cfg isExcluded (some out) place s')]
      refine visitAll_perm hc hs (hperm.map Visit.file) h fun p hp => ?_
      obtain ⟨q, hq, he⟩ := List.mem_map.mp hp
      cases he
      exact hsource p (Walk.mem_files.mp hq)

end

end Unstamp.Run
