import Unstamp.Proofs.Run.Check

namespace Unstamp.Run
variable {lib : PatternLibrary} {walk walk' : Walker} {cfg : Config} {isExcluded : Text → Bool}
  {out : Option Place}
  {cwd root : Place} {s : State} {t u : FileTree} {w : Walking} {vs : List Visit} {v : Visit}
  {rs : List Path}

/-- An item of a walk whose visit would find nothing to change and nothing to complain of. -/
def Settled (cfg : Config) (t : FileTree) : Visit → Prop
  | .fault _ => False
  | .file p => ∀ c, Selection.cleanerFor? cfg.charset cfg.policy p.path = some c →
      p.path.length ≤ Path.maxPath ∧
        ∃ data outcome, t.get? p = some (.file data) ∧ c.cleanBytes data = .ok (outcome, data)

/-- What is settled stays so while a run in place goes on. -/
private theorem Settled.cleans (h : Settled cfg t v) (hu : Cleans cfg vs t u) :
    Settled cfg u v := by
  cases v with
  | fault fault => exact h
  | file p =>
    intro c hs
    obtain ⟨hlen, data, outcome, hd, hc⟩ := h c hs
    refine ⟨hlen, data, outcome, ?_, hc⟩
    by_cases hp : .file p ∈ vs
    · -- Another visit gives the bytes a form that they have already.
      obtain ⟨data', hd', hu'⟩ := hu.visited hp
      cases hd.symm.trans hd'
      rw [Config.inPlace, hs] at hu'
      exact Cleaner.inPlace_of_unchanged hc ▸ hu'
    · exact (hu.other hp).trans hd

/-! What a run in place without an error has visited. -/

private theorem visit_settles (hc : cfg.check = false) (ht : s.tree.WellFormed)
    (hv : Visit.OfFiles s.tree [v]) (hf : Faultless (visit cfg none root s v).2) :
    Settled cfg (visit cfg none root s v).1.tree v := by
  have hu : Cleans cfg [v] s.tree (visit cfg none root s v).1.tree := visit_cleans hc ht hv
  cases v with
  | fault fault => cases hf _ (List.mem_singleton.mpr rfl)
  | file p =>
    intro c hs
    obtain ⟨data, hp, hu⟩ := hu.visited (List.mem_singleton.mpr rfl)
    rw [Config.inPlace_of_cleaner hs] at hu
    rw [visit, visitFile, hs, hc] at hf
    rcases cleanFile_cases false c (Path.display root.path p.path) ht hp with
      ⟨fault, -, he⟩ | ⟨outcome, after, hlen, hd⟩
    · simp only [he] at hf
      cases hf _ (List.mem_singleton.mpr rfl)
    · rw [Cleaner.inPlace_of_cleaned hlen hd] at hu
      obtain ⟨outcome', hagain⟩ := Cleaner.cleanBytes_again hd
      by_cases hsame : after = data
      · rw [hsame, ite_self] at hu
        exact ⟨hlen, data, outcome, hu, hsame ▸ hd⟩
      · cases hlock : s.tree.isLocked p with
        | true =>
          simp only [cleanFile_of_locked _ ht hp hlen hd hsame hlock] at hf
          cases hf _ (List.mem_singleton.mpr rfl)
        | false =>
          rw [if_neg (Bool.eq_false_iff.mp hlock)] at hu
          exact ⟨hlen, after, outcome', hu, hagain⟩

private theorem visitAll_settles (hc : cfg.check = false) (ht : s.tree.WellFormed)
    (hv : Visit.OfFiles s.tree vs) (hf : Faultless (visitAll cfg none root s vs).2) :
    ∀ v ∈ vs, Settled cfg (visitAll cfg none root s vs).1.tree v := by
  induction vs generalizing s with
  | nil => exact nofun
  | cons v vs ih =>
    obtain ⟨hnow, hlater⟩ := faultless_append.mp hf
    have hu : Cleans cfg [v] s.tree (visit cfg none root s v).1.tree := visit_cleans hc ht hv.head
    have ht' := hu.sameShape.wellFormed ht
    have hv' := hv.tail.sameShape hu.sameShape
    intro w hw
    rcases List.mem_cons.mp hw with rfl | hw
    · exact (visit_settles hc ht hv.head hnow).cleans (visitAll_cleans hc ht' hv')
    · exact ih ht' hv' hlater w hw

private theorem visitRoot_settles (hw : walk.VisitsFiles) (hc : cfg.check = false)
    (hl : cfg.followLinks = false) (ht : s.tree.WellFormed) {r : Path}
    (hf : Faultless (visitRoot walk cfg isExcluded none cwd s r).2) :
    (∃ place, s.tree.resolve cwd r = .ok place) ∧
      ∀ v ∈ rootVisits walk cfg isExcluded none cwd s r,
        Settled cfg (visitRoot walk cfg isExcluded none cwd s r).1.tree v := by
  rw [rootVisits]
  cases hr : s.tree.resolve cwd r with
  | error fault =>
    rw [visitRoot_of_error hr] at hf
    cases hf _ (List.mem_singleton.mpr rfl)
  | ok place =>
    rw [visitRoot_of_ok hr] at hf ⊢
    exact ⟨⟨place, rfl⟩,
      visitAll_settles hc ht (ofFiles_given hw hc hl ht (ht.holds_of_resolve hr)) hf⟩

private theorem sweep_settles (hw : walk.VisitsFiles) (hc : cfg.check = false)
    (hl : cfg.followLinks = false) (ht : s.tree.WellFormed)
    (hf : Faultless (sweep walk cfg isExcluded none cwd s rs).2) :
    (∀ r ∈ rs, ∃ place, s.tree.resolve cwd r = .ok place) ∧
      ∀ v ∈ sweepVisits walk cfg isExcluded none cwd s rs,
        Settled cfg (sweep walk cfg isExcluded none cwd s rs).1.tree v := by
  induction rs generalizing s with
  | nil => exact ⟨nofun, nofun⟩
  | cons r rs ih =>
    obtain ⟨hnow, hlater⟩ := faultless_append.mp hf
    have hu : Cleans cfg (rootVisits walk cfg isExcluded none cwd s r) s.tree
        (visitRoot walk cfg isExcluded none cwd s r).1.tree := visitRoot_cleans hw hc hl ht r
    have ht' := hu.sameShape.wellFormed ht
    obtain ⟨hr, hv⟩ := visitRoot_settles hw hc hl ht hnow
    obtain ⟨hrs, hvs⟩ := ih ht' hlater
    constructor
    · intro r' hr'
      rcases List.mem_cons.mp hr' with rfl | hr'
      · exact hr
      · -- Only bytes of files have changed since, so the root led to the same place before.
        rw [hu.sameShape.resolve]
        exact hrs r' hr'
    · intro v hv'
      rcases List.mem_append.mp hv' with hv' | hv'
      · exact (hv v hv').cleans (sweep_cleans hw hc hl ht' rs)
      · exact hvs v hv'

/-! Visits of what is settled, by a run that writes or by one that checks. -/

private theorem visit_settled (ht : s.tree.WellFormed) (hv : Settled cfg s.tree v) :
    (visit cfg none root s v).1 = s ∧ Quiet (visit cfg none root s v).2 := by
  cases v with
  | fault fault => exact hv.elim
  | file p =>
    rw [visit, visitFile]
    cases hs : Selection.cleanerFor? cfg.charset cfg.policy p.path with
    | none => exact ⟨rfl, .nil⟩
    | some c =>
      obtain ⟨hlen, data, outcome, hp, hd⟩ := hv c hs
      simp only [cleanFile_of_cleaned cfg.check _ ht hp hlen hd (.inr (.inl rfl)), or_true, if_true]
      exact ⟨trivial, .reportEvents _ c (bne_self_eq_false data)⟩

/-- The walk goes on in the tree that it started in. -/
private theorem attend_settled (ht : s.tree.WellFormed)
    (hv : ∀ v ∈ w.still s.tree, Settled cfg s.tree v) :
    (attend cfg none root s w).1 = s ∧ Quiet (attend cfg none root s w).2 := by
  induction w with
  | ended => exact ⟨rfl, .nil⟩
  | item v next ih =>
    obtain ⟨hnow, hvs⟩ := List.forall_mem_cons.mp hv
    obtain ⟨he, hq⟩ : (visit cfg none root s v).1 = s ∧ Quiet (visit cfg none root s v).2 :=
      visit_settled ht hnow
    obtain ⟨he', hq'⟩ := ih s.tree hvs
    simp only [attend, he, he']
    exact ⟨trivial, hq.append hq'⟩

private theorem visitRoot_settled (ht : s.tree.WellFormed) {r : Path} {place : Place}
    (hr : s.tree.resolve cwd r = .ok place)
    (hv : ∀ v ∈ stillVisits walk cfg isExcluded none cwd s.tree r, Settled cfg s.tree v) :
    (visitRoot walk cfg isExcluded none cwd s r).1 = s ∧
      Quiet (visitRoot walk cfg isExcluded none cwd s r).2 := by
  rw [stillVisits, hr] at hv
  rw [visitRoot, hr]
  exact attend_settled ht hv

private theorem sweep_settled (ht : s.tree.WellFormed)
    (hr : ∀ r ∈ rs, ∃ place, s.tree.resolve cwd r = .ok place)
    (hv : ∀ r ∈ rs, ∀ v ∈ stillVisits walk cfg isExcluded none cwd s.tree r,
      Settled cfg s.tree v) :
    (sweep walk cfg isExcluded none cwd s rs).1 = s ∧
      Quiet (sweep walk cfg isExcluded none cwd s rs).2 := by
  induction rs with
  | nil => exact ⟨rfl, .nil⟩
  | cons r rs ih =>
    obtain ⟨⟨place, hr⟩, hrs⟩ := List.forall_mem_cons.mp hr
    obtain ⟨hv, hvs⟩ := List.forall_mem_cons.mp hv
    obtain ⟨he, hq⟩ := visitRoot_settled ht hr hv
    obtain ⟨he', hq'⟩ := ih hrs hvs
    simp only [sweep, he, he']
    exact ⟨trivial, hq.append hq'⟩

/-- After a run in place that succeeded, another run, checking or not, succeeds too, reports no
change and leaves the tree as it is, if its walks go only to what the first run visited. -/
theorem runWith_again (hw : walk.VisitsFiles) (hc : cfg.check = false) (ho : cfg.outDir = none)
    (hl : cfg.followLinks = false) (ht : t.WellFormed) {reports : List Report}
    (ha : (runWith lib walk cfg cwd t).1.answer false = .ok reports)
    (hv : visited lib walk' { cfg with check := true } cwd (runWith lib walk cfg cwd t).2 ⊆
      visited lib walk cfg cwd t) (check : Bool) :
    (∃ reports',
      (runWith lib walk' { cfg with check } cwd (runWith lib walk cfg cwd t).2).1.answer check =
        .ok reports' ∧ ∀ r ∈ reports', r.changed = false) ∧
      (runWith lib walk' { cfg with check } cwd (runWith lib walk cfg cwd t).2).2 =
        (runWith lib walk cfg cwd t).2 := by
  obtain ⟨es, hes, hf⟩ := faultless_of_answer ha
  have hrun : Cleans cfg (visited lib walk cfg cwd t) t (runWith lib walk cfg cwd t).2 :=
    runWith_cleans hw hc ho hl ht cwd
  cases hx : readExcludes lib cfg.excludes with
  | error fault =>
    rw [runWith, hx] at hes
    cases hes
  | ok isExcluded =>
    have hfirst := runWith_of_excludes walk cfg cwd t hx ho
    rw [hfirst] at hes
    cases hes
    obtain ⟨hroots, hsettled⟩ := sweep_settles hw hc hl ht hf
    rw [visited_of_excludes walk cfg cwd t hx ho] at hv
    rw [hfirst] at hv hrun ⊢
    generalize (sweep walk cfg isExcluded none cwd { tree := t } cfg.roots).1.tree = u at *
    have hr : ∀ r ∈ cfg.roots, ∃ place, u.resolve cwd r = .ok place := by
      intro r hr
      rw [← hrun.sameShape.resolve]
      exact hroots r hr
    have hs : ∀ r ∈ cfg.roots, ∀ v ∈ stillVisits walk' cfg isExcluded none cwd u r,
        Settled cfg u v := by
      intro r hr v hv'
      -- A check writes nothing, so every one of its walks sees what the first run left.
      apply hsettled
      apply hv
      rw [visited_of_excludes walk' { cfg with check := true } cwd u hx ho, sweepVisits_check rfl,
        List.mem_flatMap]
      exact ⟨r, hr, hv'⟩
    obtain ⟨he, hq⟩ : (sweep walk' { cfg with check } isExcluded none cwd { tree := u }
      cfg.roots).1 =
        { tree := u } ∧
        Quiet (sweep walk' { cfg with check } isExcluded none cwd { tree := u } cfg.roots).2 :=
      sweep_settled (hrun.sameShape.wellFormed ht) hr hs
    rw [runWith_of_excludes walk' { cfg with check } cwd u hx ho]
    exact ⟨hq.answer check, congrArg State.tree he⟩

/-- A directory and a file in it as roots. The file loses the comment that its signature stood in,
so that the second visit already takes another branch. -/
theorem runWith_again_inner_root :
    let dir : Place := [[0x61]]
    let java : Place := [[0x61], Utf8.encode "A.java".toList]
    let banner : Bytes := Utf8.encode ("//".toList ++ Signature.xjc.text ++ "\nx".toList)
    let t : FileTree := { entries := [(dir, .dir), (java, .file banner)] }
    let cfg : Config := { roots := [dir.path, java.path], useIgnoreFiles := false }
    let u := t.set java (.file [0x78])
    Walker.VisitsFiles Walk.sorted ∧ t.WellFormed ∧
      (∃ reports, (runWith Glob.library Walk.sorted cfg [] t).1.answer false = .ok reports) ∧
      (runWith Glob.library Walk.sorted cfg [] t).2 = u ∧
      (∃ reports,
        (runWith Glob.library Walk.sorted { cfg with check := true } [] u).1.answer true =
          .ok reports ∧
          ∀ r ∈ reports, r.changed = false) ∧
      (runWith Glob.library Walk.sorted cfg [] u).2 = u := by
  intro dir java banner t cfg u
  let c : Cleaner := .source {}
  let unbarred : Text → Bool := fun _ => false
  have hw : Walk.sorted.VisitsFiles := (Walk.arranged_faithful id).visitsFiles
  have ht : t.WellFormed := FileTree.wellFormed_of_entries (by decide +kernel)
  have hu : u.WellFormed := (FileTree.sameShape_set_file rfl _).wellFormed ht
  have hs : Selection.cleanerFor? cfg.charset cfg.policy java.path = some c := by decide +kernel
  have hlen : java.path.length ≤ Path.maxPath := by decide +kernel
  have hstrip : c.cleanBytes banner = .ok (.stripped, [0x78]) := by decide +kernel
  have hpass : c.cleanBytes [0x78] = .ok (.passedThrough, [0x78]) := by decide +kernel
  have hdir : t.resolve [] dir.path = .ok dir := ht.resolve_path (e := .dir) rfl nofun (by decide)
  have hdir' : u.resolve [] dir.path = .ok dir := hu.resolve_path (e := .dir) rfl nofun (by decide)
  have hjava : u.resolve [] java.path = .ok java := hu.resolve_path (e := .file _) rfl nofun hlen
  have hbelow : Walk.sorted (walkOptions cfg unbarred none dir) dir t =
      .item (.file java) fun _ => .ended :=
    Walk.arranged_of_lone_file (by decide) rfl (by decide +kernel) (by decide +kernel)
  have hbelow' : Walk.sorted (walkOptions cfg unbarred none dir) dir u =
      .item (.file java) fun _ => .ended :=
    Walk.arranged_of_lone_file (by decide) rfl (by decide +kernel) (by decide +kernel)
  have hself : Walk.sorted (walkOptions cfg unbarred none java) java u =
      .item (.file java) fun _ => .ended := Walk.arranged_of_file (by decide +kernel)
  have hfirst : visitRoot Walk.sorted cfg unbarred none [] { tree := t } dir.path =
      ({ tree := u }, [.report ⟨Path.display dir.path java.path, c.name, .stripped, true⟩]) := by
    simp only [visitRoot, hdir, hbelow, attend, visit, visitFile, hs,
      cleanFile_of_cleaned cfg.check _ ht rfl hlen hstrip (.inr (.inr rfl))]
    rfl
  have hsecond : visitRoot Walk.sorted cfg unbarred none [] { tree := u } java.path =
      ({ tree := u },
        [.report ⟨Path.display java.path java.path, c.name, .passedThrough, false⟩]) := by
    simp only [visitRoot, hjava, hself, attend, visit, visitFile, hs,
      cleanFile_of_cleaned cfg.check _ hu rfl hlen hpass (.inr (.inl rfl))]
    rfl
  have hrun : runWith Glob.library Walk.sorted cfg [] t =
      (.swept
        [.report ⟨Path.display dir.path java.path, c.name, .stripped, true⟩,
          .report ⟨Path.display java.path java.path, c.name, .passedThrough, false⟩], u) := by
    rw [runWith_of_excludes Walk.sorted cfg [] t rfl rfl]
    simp only [cfg, sweep]
    rw [hfirst, hsecond]
    rfl
  obtain ⟨reports, ha⟩ : ∃ reports,
      (runWith Glob.library Walk.sorted cfg [] t).1.answer false = .ok reports := by
    rw [hrun]
    exact ⟨_, rfl⟩
  have hv : visited Glob.library Walk.sorted { cfg with check := true } []
      (runWith Glob.library Walk.sorted cfg [] t).2 ⊆
        visited Glob.library Walk.sorted cfg [] t := by
    have hfrom : .file java ∈
        rootVisits Walk.sorted cfg unbarred none [] { tree := t } dir.path := by
      rw [rootVisits, hdir]
      simp only [given, hbelow]
      exact List.mem_cons_self
    have hstill : stillVisits Walk.sorted cfg unbarred none [] u dir.path = [.file java] := by
      simp only [stillVisits, hdir', hbelow']
      rfl
    have hjava' : stillVisits Walk.sorted cfg unbarred none [] u java.path = [.file java] := by
      simp only [stillVisits, hjava, hself]
      rfl
    rw [hrun, visited_of_excludes Walk.sorted { cfg with check := true } [] u rfl rfl,
      sweepVisits_check rfl, visited_of_excludes Walk.sorted cfg [] t rfl rfl]
    intro v hv
    obtain ⟨r, hr, hv⟩ := List.mem_flatMap.mp hv
    apply List.mem_append_left
    have hone : stillVisits Walk.sorted cfg unbarred none [] u r = [.file java] := by
      rcases List.mem_cons.mp hr with rfl | hr
      · exact hstill
      · obtain rfl := List.mem_singleton.mp hr
        exact hjava'
    obtain rfl := List.mem_singleton.mp (hone ▸ hv)
    exact hfrom
  have hagain := runWith_again hw rfl rfl rfl ht ha hv
  have hu' : (runWith Glob.library Walk.sorted cfg [] t).2 = u := by rw [hrun]
  rw [hu'] at hagain
  exact ⟨hw, ht, ⟨reports, ha⟩, hu', (hagain true).1, (hagain false).2⟩

end Unstamp.Run
