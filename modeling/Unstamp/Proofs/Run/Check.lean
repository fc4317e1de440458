import Unstamp.Proofs.Cleaner.Canonical
import Unstamp.Proofs.Cleaner.InTree
import Unstamp.Proofs.Run.InPlace

namespace Unstamp

namespace Run
variable {lib : PatternLibrary} {walk : Walker} {cfg : Config} {isExcluded : Text → Bool}
  {out : Option Place}
  {cwd root : Place} {s : State} {t : FileTree} {vs : List Visit} {rs : List Path}

/-! A check sees one tree all along. -/

theorem cleanFile_check (t : FileTree) (c : Cleaner) (file : Text) (place : Place)
    (output : Option Place) :
    cleanFile true t c file place output =
      (t, match c.load t [] place.path with
        | .error fault => [.notice (.notCleaned file (.clean fault))]
        | .ok cleaned => reportEvents file c cleaned) := by
  rw [cleanFile]
  cases c.load t [] place.path <;> rfl

theorem visitFile_check (hc : cfg.check = true) (p : Place) :
    (visitFile cfg out root s p).1.tree = s.tree := by
  unfold visitFile
  cases Selection.cleanerFor? cfg.charset cfg.policy p.path with
  | none => rfl
  | some c =>
    cases out with
    | none => simp only [hc, cleanFile_check]
    | some out =>
      simp only [hc, cleanFile_check]
      split <;> rfl

theorem visit_check (hc : cfg.check = true) (v : Visit) :
    (visit cfg out root s v).1.tree = s.tree := by
  cases v with
  | fault fault => rfl
  | file p => exact visitFile_check hc p

private theorem visitAll_check (hc : cfg.check = true) (vs : List Visit) :
    (visitAll cfg out root s vs).1.tree = s.tree := by
  induction vs generalizing s with
  | nil => rfl
  | cons v vs ih => rw [visitAll, ih, visit_check hc]

theorem visitRoot_check (hc : cfg.check = true) (r : Path) :
    (visitRoot walk cfg isExcluded out cwd s r).1.tree = s.tree := by
  cases hr : s.tree.resolve cwd r with
  | error fault => rw [visitRoot_of_error hr]
  | ok place =>
    rw [visitRoot_of_ok hr]
    exact visitAll_check hc _

private theorem sweep_check (hc : cfg.check = true) (rs : List Path) :
    (sweep walk cfg isExcluded out cwd s rs).1.tree = s.tree := by
  induction rs generalizing s with
  | nil => rfl
  | cons r rs ih => rw [sweep, ih, visitRoot_check hc]

private theorem delivered_check (hc : cfg.check = true) (w : Walking) :
    delivered cfg out root s w = w.still s.tree := by
  induction w generalizing s with
  | ended => rfl
  | item v next ih => rw [delivered, Walking.still, ih, visit_check hc]

def stillVisits (walk : Walker) (cfg : Config) (isExcluded : Text → Bool) (out : Option Place)
    (cwd : Place) (t : FileTree) (root : Path) : List Visit :=
  match t.resolve cwd root with
  | .error _ => []
  | .ok place => (walk (walkOptions cfg isExcluded out place) place t).still t

private theorem rootVisits_check (hc : cfg.check = true) (r : Path) :
    rootVisits walk cfg isExcluded out cwd s r =
      stillVisits walk cfg isExcluded out cwd s.tree r := by
  rw [rootVisits, stillVisits]
  cases s.tree.resolve cwd r with
  | error fault => rfl
  | ok place => exact delivered_check hc _

theorem sweepVisits_check (hc : cfg.check = true) (rs : List Path) :
    sweepVisits walk cfg isExcluded out cwd s rs =
      rs.flatMap (stillVisits walk cfg isExcluded out cwd s.tree) := by
  induction rs generalizing s with
  | nil => rfl
  | cons r rs ih =>
    rw [sweepVisits, ih, rootVisits_check hc, visitRoot_check hc, List.flatMap_cons]

theorem openOutDir_check (hc : cfg.check = true) (cwd : Place) (t : FileTree) :
    openOutDir cfg cwd t = (.ok none, t) := by
  unfold openOutDir
  rw [hc]

/-! What a check finds. -/

/-- Nothing goes wrong at a visit: it is of a file, and if that has a cleaner, the file can be read
and cleaned. -/
def Cleanable (cfg : Config) (t : FileTree) : Visit → Prop
  | .fault _ => False
  | .file p => ∀ c, Selection.cleanerFor? cfg.charset cfg.policy p.path = some c →
      ∃ data outcome after, t.read [] p.path = .ok data ∧
        c.cleanBytes data = .ok (outcome, after)

def isDirty (cfg : Config) (t : FileTree) : Visit → Bool
  | .fault _ => false
  | .file p =>
    match Selection.cleanerFor? cfg.charset cfg.policy p.path with
    | none => false
    | some c =>
      match t.read [] p.path with
      | .error _ => false
      | .ok data => !decide (c.Canonical data)

private theorem isDirty_of_read {p : Place} {c : Cleaner} {data : Bytes}
    (hs : Selection.cleanerFor? cfg.charset cfg.policy p.path = some c)
    (hr : t.read [] p.path = .ok data) : isDirty cfg t (.file p) = !decide (c.Canonical data) := by
  rw [isDirty, hs]
  simp only [hr]

private theorem visit_check_finds (hc : cfg.check = true) (v : Visit) :
    (Faultless (visit cfg none root s v).2 ↔ Cleanable cfg s.tree v) ∧
      (Cleanable cfg s.tree v →
        (Result.swept (visit cfg none root s v).2).changes =
          if isDirty cfg s.tree v then 1 else 0) := by
  cases v with
  | fault fault =>
    refine ⟨⟨fun h => ?_, False.elim⟩, False.elim⟩
    cases h _ (List.mem_singleton.mpr rfl)
  | file p =>
    rw [visit, visitFile]
    cases hs : Selection.cleanerFor? cfg.charset cfg.policy p.path with
    | none =>
      refine ⟨⟨fun _ c hc => ?_, fun _ n hn => absurd hn List.not_mem_nil⟩, fun _ => ?_⟩
      · rw [hs] at hc
        cases hc
      · rw [isDirty, hs]
        rfl
    | some c =>
      simp only [hc, cleanFile_check]
      cases hl : c.load s.tree [] p.path with
      | error fault =>
        have hno : ¬ Cleanable cfg s.tree (.file p) := by
          intro h
          obtain ⟨data, outcome, after, hr, hb⟩ := h c hs
          have hok : c.load s.tree [] p.path = .ok ⟨data, after, outcome⟩ :=
            Cleaner.load_eq_ok_iff.mpr ⟨hr, hb⟩
          rw [hl] at hok
          cases hok
        refine ⟨⟨fun h => ?_, fun h => absurd h hno⟩, fun h => absurd h hno⟩
        cases h _ (List.mem_singleton.mpr rfl)
      | ok cleaned =>
        obtain ⟨hr, hb⟩ := Cleaner.load_eq_ok_iff.mp hl
        refine ⟨⟨fun _ c' hs' => ?_, fun _ => faultless_reportEvents _ c cleaned⟩, fun _ => ?_⟩
        · cases hs.symm.trans hs'
          exact ⟨_, _, _, hr, hb⟩
        · have hd := Cleaner.changed_iff hb
          simp only [changes_reportEvents, isDirty_of_read hs hr, Bool.not_eq_true',
            decide_eq_false_iff_not]
          exact if_congr hd rfl rfl

private theorem visitAll_check_finds (hc : cfg.check = true) (vs : List Visit) :
    (Faultless (visitAll cfg none root s vs).2 ↔ ∀ v ∈ vs, Cleanable cfg s.tree v) ∧
      ((∀ v ∈ vs, Cleanable cfg s.tree v) →
        (Result.swept (visitAll cfg none root s vs).2).changes =
          vs.countP (isDirty cfg s.tree)) := by
  induction vs generalizing s with
  | nil => exact ⟨⟨fun _ => nofun, fun _ => nofun⟩, fun _ => rfl⟩
  | cons v vs ih =>
    obtain ⟨hnow, hcount⟩ := @visit_check_finds cfg root s hc v
    obtain ⟨hlater, hcounts⟩ := @ih (visit cfg none root s v).1
    rw [visit_check hc] at hlater hcounts
    rw [visitAll, List.forall_mem_cons, List.countP_cons]
    refine ⟨faultless_append.trans (and_congr hnow hlater), ?_⟩
    rintro ⟨hv, hvs⟩
    rw [changes_append, hcount hv, hcounts hvs, Nat.add_comm]

private theorem visitRoot_check_finds (hc : cfg.check = true) (r : Path) :
    (Faultless (visitRoot walk cfg isExcluded none cwd s r).2 ↔
        (∃ place, s.tree.resolve cwd r = .ok place) ∧
          ∀ v ∈ rootVisits walk cfg isExcluded none cwd s r, Cleanable cfg s.tree v) ∧
      ((∀ v ∈ rootVisits walk cfg isExcluded none cwd s r, Cleanable cfg s.tree v) →
        (Result.swept (visitRoot walk cfg isExcluded none cwd s r).2).changes =
          (rootVisits walk cfg isExcluded none cwd s r).countP (isDirty cfg s.tree)) := by
  rw [rootVisits]
  cases hr : s.tree.resolve cwd r with
  | error fault =>
    rw [visitRoot_of_error hr]
    refine ⟨⟨fun h => ?_, ?_⟩, fun _ => rfl⟩
    · cases h _ (List.mem_singleton.mpr rfl)
    · rintro ⟨⟨_, ⟨⟩⟩, -⟩
  | ok place =>
    obtain ⟨hf, hn⟩ := @visitAll_check_finds cfg place s hc (given walk cfg isExcluded none place s)
    rw [visitRoot_of_ok hr]
    exact ⟨hf.trans (and_iff_right ⟨place, rfl⟩).symm, hn⟩

private theorem sweep_check_finds (hc : cfg.check = true) (rs : List Path) :
    (Faultless (sweep walk cfg isExcluded none cwd s rs).2 ↔
        (∀ r ∈ rs, ∃ place, s.tree.resolve cwd r = .ok place) ∧
          ∀ v ∈ sweepVisits walk cfg isExcluded none cwd s rs, Cleanable cfg s.tree v) ∧
      ((∀ v ∈ sweepVisits walk cfg isExcluded none cwd s rs, Cleanable cfg s.tree v) →
        (Result.swept (sweep walk cfg isExcluded none cwd s rs).2).changes =
          (sweepVisits walk cfg isExcluded none cwd s rs).countP (isDirty cfg s.tree)) := by
  induction rs generalizing s with
  | nil => exact ⟨⟨fun _ => ⟨nofun, nofun⟩, fun _ => nofun⟩, fun _ => rfl⟩
  | cons r rs ih =>
    obtain ⟨hnow, hcount⟩ := @visitRoot_check_finds walk cfg isExcluded cwd s hc r
    obtain ⟨hlater, hcounts⟩ := @ih (visitRoot walk cfg isExcluded none cwd s r).1
    rw [visitRoot_check hc] at hlater hcounts
    rw [sweep, sweepVisits, List.forall_mem_cons, List.forall_mem_append, List.countP_append]
    refine ⟨?_, ?_⟩
    · rw [faultless_append, hnow, hlater, and_and_and_comm]
    · rintro ⟨hv, hvs⟩
      rw [changes_append, hcount hv, hcounts hvs]

/-- Nothing goes wrong in a run that makes these visits: a test can be built of its exclude
patterns, its roots lead somewhere, and so it is with each visit. -/
structure Sound (lib : PatternLibrary) (cfg : Config) (cwd : Place) (t : FileTree)
    (vs : List Visit) : Prop where
  excludes : ∃ isExcluded, readExcludes lib cfg.excludes = .ok isExcluded
  roots : ∀ r ∈ cfg.roots, ∃ place, t.resolve cwd r = .ok place
  visits : ∀ v ∈ vs, Cleanable cfg t v

/-- A check leaves the tree as it is. It succeeds just if nothing goes wrong and every file visited
that has a cleaner is in canonical form. If nothing goes wrong but some are not, it fails with the
number of the visits to these. -/
theorem runWith_check (lib : PatternLibrary) (walk : Walker) (cfg : Config) (cwd : Place)
    (t : FileTree) :
    let run := runWith lib walk { cfg with check := true } cwd t
    let vs := visited lib walk { cfg with check := true } cwd t
    run.2 = t ∧
      ((∃ reports, run.1.answer true = .ok reports) ↔
        Sound lib cfg cwd t vs ∧ ∀ v ∈ vs, isDirty cfg t v = false) ∧
      (Sound lib cfg cwd t vs → 0 < vs.countP (isDirty cfg t) →
        run.1.answer true = .error (.wouldChange (vs.countP (isDirty cfg t)))) := by
  intro run vs
  cases hx : readExcludes lib cfg.excludes with
  | error fault =>
    have hrun : run = (.refused fault, t) := by simp only [run, runWith, hx]
    have hno : ¬ Sound lib cfg cwd t vs := by
      rintro ⟨⟨isExcluded, hg⟩, -, -⟩
      rw [hx] at hg
      cases hg
    rw [hrun]
    refine ⟨rfl, ⟨?_, fun h => absurd h.1 hno⟩, fun h => absurd h hno⟩
    rintro ⟨reports, ⟨⟩⟩
  | ok isExcluded =>
    let cfg' : Config := { cfg with check := true }
    have hrun : run =
        (.swept (sweep walk cfg' isExcluded none cwd { tree := t } cfg.roots).2, t) := by
      simp only [run, runWith, hx, openOutDir_check]
      rw [sweep_check rfl]
    have hvs : vs = sweepVisits walk cfg' isExcluded none cwd { tree := t } cfg.roots := by
      simp only [vs, visited, hx, openOutDir_check, cfg']
    obtain ⟨hfaults, hcount⟩ :=
      @sweep_check_finds walk cfg' isExcluded cwd { tree := t } rfl cfg.roots
    rw [← hvs] at hfaults hcount
    generalize (sweep walk cfg' isExcluded none cwd { tree := t } cfg.roots).2 = es at *
    have hsound : Sound lib cfg cwd t vs ↔ Faultless es :=
      ⟨fun h => hfaults.mpr ⟨h.roots, h.visits⟩,
        fun h => ⟨⟨isExcluded, hx⟩, (hfaults.mp h).1, (hfaults.mp h).2⟩⟩
    have hchanges (h : Faultless es) :
        (Result.swept es).changes = vs.countP (isDirty cfg t) := hcount (hsound.mpr h).visits
    have hdirty : (∀ v ∈ vs, isDirty cfg t v = false) ↔ vs.countP (isDirty cfg t) = 0 := by
      rw [List.countP_eq_zero]
      simp only [Bool.not_eq_true]
    rw [hrun, hsound, hdirty]
    refine ⟨rfl, ⟨?_, ?_⟩, ?_⟩
    · rintro ⟨reports, ha⟩
      obtain ⟨_, ⟨⟩, hf⟩ := faultless_of_answer ha
      rw [answer_check hf, hchanges hf] at ha
      refine ⟨hf, Nat.eq_zero_of_not_pos ?_⟩
      intro hpos
      rw [if_pos hpos] at ha
      cases ha
    · rintro ⟨hf, hzero⟩
      rw [answer_check hf, hchanges hf]
      exact ⟨_, if_neg (Nat.not_lt.mpr (Nat.le_of_eq hzero))⟩
    · intro hf hpos
      rw [answer_check hf, hchanges hf]
      exact if_pos hpos

/-- A property file without a line feed at its end, given twice as a root, and a source that lacks
the signature. The output directory is not made. -/
theorem runWith_check_repeated_root :
    let pom : Place := [Utf8.encode Selection.propertiesName]
    let java : Place := [Utf8.encode "A.java".toList]
    let t : FileTree := { entries := [(pom, .file [0x61]), (java, .file [0x2F, 0x2F])] }
    let cfg : Config := { roots := [pom.path, java.path, pom.path], outDir := some [0x6F] }
    let run := runWith Glob.library Walk.sorted { cfg with check := true } [] t
    run.2 = t ∧ run.1.answer true = .error (.wouldChange 2) := by
  intro pom java t cfg run
  have ht : t.WellFormed := FileTree.wellFormed_of_entries (by decide +kernel)
  have hpom : t.resolve [] pom.path = .ok pom :=
    ht.resolve_path (e := .file _) rfl nofun (by decide)
  have hjava : t.resolve [] java.path = .ok java :=
    ht.resolve_path (e := .file _) rfl nofun (by decide)
  have hread : t.read [] pom.path = .ok [0x61] := ht.read_path rfl
  have hread' : t.read [] java.path = .ok [0x2F, 0x2F] := ht.read_path rfl
  have hs : Selection.cleanerFor? cfg.charset cfg.policy pom.path = some (.lines {}) := by
    decide +kernel
  have hs' : Selection.cleanerFor? cfg.charset cfg.policy java.path = some (.source {}) := by
    decide +kernel
  have hvs : visited Glob.library Walk.sorted { cfg with check := true } [] t =
      [.file pom, .file java, .file pom] := by
    have hx : readExcludes Glob.library cfg.excludes = .ok fun _ => false := rfl
    simp only [visited, hx, openOutDir_check, sweepVisits_check, cfg, List.flatMap_cons,
      List.flatMap_nil, stillVisits, hpom, hjava]
    rfl
  obtain ⟨hu, -, hn⟩ := runWith_check Glob.library Walk.sorted cfg [] t
  rw [hvs] at hn
  have hcount : [Visit.file pom, .file java, .file pom].countP (isDirty cfg t) = 2 := by
    have hdirty := isDirty_of_read hs hread
    have hclean := isDirty_of_read hs' hread'
    rw [show decide ((Cleaner.lines {}).Canonical [0x61]) = false by decide +kernel] at hdirty
    rw [show decide ((Cleaner.source {}).Canonical [0x2F, 0x2F]) = true by decide +kernel] at hclean
    simp [hdirty, hclean]
  have hsound : Sound Glob.library cfg [] t [.file pom, .file java, .file pom] := by
    have hpom' : Cleanable cfg t (.file pom) := by
      intro c hc
      cases hs.symm.trans hc
      exact ⟨_, .filtered 0 0, [0x61, 0x0A], hread, by decide +kernel⟩
    have hjava' : Cleanable cfg t (.file java) := by
      intro c hc
      cases hs'.symm.trans hc
      exact ⟨_, .passedThrough, [0x2F, 0x2F], hread', by decide +kernel⟩
    exact ⟨⟨_, rfl⟩, by simp [cfg, hpom, hjava], by simp [hpom', hjava']⟩
  rw [hcount] at hn
  exact ⟨hu, hn hsound (by decide)⟩

end Run

end Unstamp
