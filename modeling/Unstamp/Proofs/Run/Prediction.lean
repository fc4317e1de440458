import Unstamp.Proofs.Run.Check
import Unstamp.Proofs.Run.Course

/-! If no file is visited twice, a run in place comes to each file as it was at the start, so that
it has the events of a check. -/
namespace Unstamp

namespace Config
variable {cfg : Config} {t u : FileTree} {vs ws : List Visit} {p : Place} {data : Bytes}

/-- The files visited can be written, as far as cleaning changes them. -/
def Writable (cfg : Config) (t : FileTree) (vs : List Visit) : Prop :=
  ∀ p data, .file p ∈ vs → t.get? p = some (.file data) → t.isLocked p = true →
    cfg.inPlace false p data = data

private theorem inPlace_locked (cfg : Config) (p : Place) (data : Bytes) :
    cfg.inPlace true p data = data := by
  rw [inPlace]
  split
  · rfl
  · exact if_pos (.inr rfl)

theorem Writable.inPlace (h : cfg.Writable t vs) (hp : .file p ∈ vs)
    (hd : t.get? p = some (.file data)) :
    cfg.inPlace (t.isLocked p) p data = cfg.inPlace false p data := by
  cases hl : t.isLocked p with
  | true => rw [inPlace_locked, h p data hp hd hl]
  | false => rfl

theorem Writable.left (h : cfg.Writable t (vs ++ ws)) : cfg.Writable t vs :=
  fun p data hp => h p data (List.mem_append_left ws hp)

end Config

namespace Run
variable {lib : PatternLibrary} {walk walk' : Walker} {cfg : Config} {isExcluded : Text → Bool}
  {out : Option Place} {cwd root p : Place} {s s' : State} {t u : FileTree} {data : Bytes}
  {vs : List Visit} {rs : List Path}

/-- What cleaning a file comes to depends on its bytes alone, be they written back or not. -/
private theorem events_cleanFile (check : Bool) {c : Cleaner} (file : Text) (ht : t.WellFormed)
    (hu : u.WellFormed) (hp : t.get? p = some (.file data)) (hp' : u.get? p = some (.file data))
    (hw : t.isLocked p = true → c.inPlace false p data = data) :
    (cleanFile check t c file p none).2 = (cleanFile true u c file p none).2 := by
  by_cases hlen : Path.maxPath < p.path.length
  · rw [cleanFile, cleanFile, Cleaner.load_path ht hp, Cleaner.load_path hu hp', if_pos hlen]
  · cases hb : c.cleanBytes data with
    | error fault =>
      rw [cleanFile, cleanFile, Cleaner.load_path ht hp, Cleaner.load_path hu hp', if_neg hlen, hb]
    | ok r =>
      have hlen := Nat.not_lt.mp hlen
      have hfree : r.2 = data ∨ t.isLocked p = false := by
        rw [Cleaner.inPlace_of_cleaned hlen hb] at hw
        cases hl : t.isLocked p with
        | true => exact .inl (hw hl)
        | false => exact .inr rfl
      rw [cleanFile_of_cleaned check file ht hp hlen hb (.inr hfree),
        cleanFile_of_cleaned true file hu hp' hlen hb (.inl rfl)]

private theorem events_visit (hs : s.tree.WellFormed) (hs' : s'.tree.WellFormed) {v : Visit}
    (hv : Visit.OfFiles s.tree [v]) (hw : cfg.Writable s.tree [v])
    (hsame : ∀ p, .file p ∈ [v] → s'.tree.get? p = s.tree.get? p) :
    (visit cfg none root s v).2 = (visit { cfg with check := true } none root s' v).2 := by
  cases v with
  | fault fault => rfl
  | file p =>
    obtain ⟨data, hp⟩ := hv p (List.mem_singleton.mpr rfl)
    have hp' := (hsame p (List.mem_singleton.mpr rfl)).trans hp
    have hlock := hw p data (List.mem_singleton.mpr rfl) hp
    simp only [visit, visitFile]
    cases hsel : Selection.cleanerFor? cfg.charset cfg.policy p.path with
    | none => rfl
    | some c =>
      rw [Config.inPlace_of_cleaner hsel] at hlock
      exact events_cleanFile cfg.check _ hs hs' hp hp' hlock

def Once (vs : List Visit) : Prop :=
  ∀ p, vs.count (.file p) ≤ 1

namespace Once
variable {ws : List Visit}

theorem left (h : Once (vs ++ ws)) : Once vs := by
  intro p
  have hp := h p
  rw [List.count_append] at hp
  omega

theorem right (h : Once (vs ++ ws)) : Once ws := by
  intro p
  have hp := h p
  rw [List.count_append] at hp
  omega

private theorem disjoint (h : Once (vs ++ ws)) (hp : .file p ∈ ws) : .file p ∉ vs := by
  intro hp'
  have hn := h p
  rw [List.count_append] at hn
  have hv := List.count_pos_iff.mpr hp'
  have hw := List.count_pos_iff.mpr hp
  omega

end Once

/-- Files that come later are not touched before their turn. -/
theorem Cleans.later {ws : List Visit} {w : FileTree} (h : Cleans cfg vs t u)
    (ho : Once (vs ++ ws)) (hsame : ∀ p, .file p ∈ vs ++ ws → w.get? p = t.get? p) :
    ∀ p, .file p ∈ ws → w.get? p = u.get? p := by
  intro p hp
  rw [h.other (ho.disjoint hp)]
  exact hsame p (List.mem_append_right vs hp)

theorem Cleans.writable {ws : List Visit} (h : Cleans cfg vs t u) (ho : Once (vs ++ ws))
    (hw : cfg.Writable t (vs ++ ws)) : cfg.Writable u ws := by
  intro p data hp hd hl
  rw [h.isLocked] at hl
  rw [h.other (ho.disjoint hp)] at hd
  exact hw p data (List.mem_append_right vs hp) hd hl

private theorem events_visitAll (hc : cfg.check = false) (hs : s.tree.WellFormed)
    (hs' : s'.tree.WellFormed) (hv : Visit.OfFiles s.tree vs) (hw : cfg.Writable s.tree vs)
    (ho : Once vs) (hsame : ∀ p, .file p ∈ vs → s'.tree.get? p = s.tree.get? p) :
    (visitAll cfg none root s vs).2 =
      (visitAll { cfg with check := true } none root s' vs).2 := by
  induction vs generalizing s s' with
  | nil => rfl
  | cons v vs ih =>
    have hu : Cleans cfg [v] s.tree (visit cfg none root s v).1.tree := visit_cleans hc hs hv.head
    have htree : (visit { cfg with check := true } none root s' v).1.tree = s'.tree :=
      visit_check rfl v
    have ho' : Once ([v] ++ vs) := ho
    have hw' : cfg.Writable s.tree ([v] ++ vs) := hw
    have hlater := hu.later ho' hsame
    rw [← htree] at hlater
    have hnow : (visit cfg none root s v).2 =
        (visit { cfg with check := true } none root s' v).2 :=
      events_visit hs hs' hv.head hw'.left fun p hp => hsame p (List.mem_append_left vs hp)
    rw [visitAll, visitAll, hnow,
      ih (hu.sameShape.wellFormed hs) (htree.symm ▸ hs') (hv.tail.sameShape hu.sameShape)
        (hu.writable ho' hw') ho'.right hlater]

private theorem events_sweep (hw : walk.VisitsFiles) (hc : cfg.check = false)
    (hl : cfg.followLinks = false) (hs : s.tree.WellFormed) (hshape : s.tree.SameShape s'.tree)
    (hvisits : (rounds walk cfg isExcluded none cwd s rs).map Round.visits =
      (rounds walk' { cfg with check := true } isExcluded none cwd s' rs).map Round.visits)
    (ho : Once (sweepVisits walk cfg isExcluded none cwd s rs))
    (hwrite : cfg.Writable s.tree (sweepVisits walk cfg isExcluded none cwd s rs))
    (hsame : ∀ p, .file p ∈ sweepVisits walk cfg isExcluded none cwd s rs →
      s'.tree.get? p = s.tree.get? p) :
    (sweep walk cfg isExcluded none cwd s rs).2 =
      (sweep walk' { cfg with check := true } isExcluded none cwd s' rs).2 := by
  induction rs generalizing s s' with
  | nil => rfl
  | cons r rs ih =>
    have hu : Cleans cfg (rootVisits walk cfg isExcluded none cwd s r) s.tree
        (visitRoot walk cfg isExcluded none cwd s r).1.tree := visitRoot_cleans hw hc hl hs r
    have htree : (visitRoot walk' { cfg with check := true } isExcluded none cwd s' r).1.tree =
        s'.tree := visitRoot_check rfl r
    have hshape' := hu.sameShape.symm.trans hshape
    have hlater := hu.later ho hsame
    rw [← htree] at hshape' hlater
    have hrest := ih (hu.sameShape.wellFormed hs) hshape'
    -- Only bytes of files have changed, so the root leads to the same place in both runs.
    have hresolve := hshape.resolve cwd r
    simp only [rounds, ← hresolve] at hvisits
    cases hr : s.tree.resolve cwd r with
    | error fault =>
      rw [hr] at hvisits hresolve
      have hnow : (visitRoot walk cfg isExcluded none cwd s r).2 =
          (visitRoot walk' { cfg with check := true } isExcluded none cwd s' r).2 := by
        rw [visitRoot_of_error hr, visitRoot_of_error hresolve.symm]
      rw [sweep, sweep, hnow, hrest hvisits ho.right (hu.writable ho hwrite) hlater]
    | ok place =>
      rw [hr] at hvisits hresolve
      obtain ⟨hv, hvs⟩ := List.cons.inj hvisits
      have hroot : rootVisits walk cfg isExcluded none cwd s r =
          given walk cfg isExcluded none place s := by rw [rootVisits, hr]
      have hnow : (visitRoot walk cfg isExcluded none cwd s r).2 =
          (visitRoot walk' { cfg with check := true } isExcluded none cwd s' r).2 := by
        have hfiles : Visit.OfFiles s.tree (given walk cfg isExcluded none place s) :=
          ofFiles_given hw hc hl hs (hs.holds_of_resolve hr)
        have honce := ho.left
        have hfree := hwrite.left
        rw [hroot] at honce hfree
        rw [visitRoot_of_ok hr, visitRoot_of_ok hresolve.symm]
        refine (events_visitAll hc hs (hshape.wellFormed hs) hfiles hfree honce ?_).trans
          (congrArg (fun vs => (visitAll { cfg with check := true } none place s' vs).2) hv)
        intro p hp
        exact hsame p (List.mem_append_left _ (hroot.symm ▸ hp))
      rw [sweep, sweep, hnow, hrest hvs ho.right (hu.writable ho hwrite) hlater]

/-! What a check tells of one file. -/

private theorem state_stops_check (hc : cfg.check = true) {a : Stop}
    (ha : a ∈ stops cfg out root s vs) :
    a.state.tree = s.tree := by
  induction vs generalizing s with
  | nil => cases ha
  | cons v vs ih =>
    cases v with
    | fault fault => exact ih ha
    | file p =>
      rcases List.mem_cons.mp ha with rfl | ha
      · rfl
      · exact (ih ha).trans (visitFile_check hc p)

private theorem state_rounds_check (hc : cfg.check = true) {a : Round}
    (ha : a ∈ rounds walk cfg isExcluded out cwd s rs) : a.state.tree = s.tree := by
  induction rs generalizing s with
  | nil => cases ha
  | cons r rs ih =>
    have hlater
        (h : a ∈ rounds walk cfg isExcluded out cwd
          (visitRoot walk cfg isExcluded out cwd s r).1 rs) :
        a.state.tree = s.tree := (ih h).trans (visitRoot_check hc r)
    simp only [rounds] at ha
    split at ha
    · exact hlater ha
    · rcases List.mem_cons.mp ha with rfl | ha
      · rfl
      · exact hlater ha

/-- Each stop of a check finds the tree that the check started with. -/
private theorem state_course_check (hc : cfg.check = true) {a : Stop}
    (ha : a ∈ course lib walk cfg cwd t) :
    a.state.tree = t := by
  obtain ⟨b, hb, ha⟩ := List.mem_flatMap.mp ha
  have hstate : b.state.tree = t := by
    rw [turns] at hb
    split at hb
    · cases hb
    · rw [openOutDir_check hc] at hb
      exact state_rounds_check hc hb
  exact (state_stops_check hc ha).trans hstate

/-- A check reports a change of a file just if a run in place that can write it would change it. -/
private theorem changed_of_check (hc : cfg.check = true) (ht : s.tree.WellFormed)
    (hp : s.tree.get? p = some (.file data)) :
    (∃ r ∈ (⟨root, p, s⟩ : Stop).reports cfg none, r.changed = true) ↔
      cfg.inPlace false p data ≠ data := by
  rw [Stop.reports, Stop.effect, visitFile, hc]
  cases hsel : Selection.cleanerFor? cfg.charset cfg.policy p.path with
  | none =>
    rw [Config.inPlace, hsel]
    refine ⟨?_, fun h => absurd rfl h⟩
    rintro ⟨_, h, -⟩
    exact absurd h List.not_mem_nil
  | some c =>
    rw [Config.inPlace_of_cleaner hsel]
    rcases cleanFile_cases true c (Path.display root.path p.path) ht hp with
      ⟨fault, hd, he⟩ | ⟨outcome, after, hlen, hd⟩
    · simp only [he]
      refine ⟨?_, fun h => absurd (hd false) h⟩
      rintro ⟨_, h, -⟩
      exact absurd h List.not_mem_nil
    · simp only [cleanFile_of_cleaned true _ ht hp hlen hd (.inl rfl), reports_reportEvents,
        List.mem_singleton, exists_eq_left, Cleaned.changed, bne_iff_ne,
        Cleaner.inPlace_of_cleaned hlen hd, Bool.false_eq_true, if_false]

theorem changed_course_iff (hc : cfg.check = true) (ht : t.WellFormed) {a : Stop}
    (ha : a ∈ course lib walk cfg cwd t) (hp : t.get? a.place = some (.file data)) :
    (∃ r ∈ a.reports cfg none, r.changed = true) ↔ cfg.inPlace false a.place data ≠ data := by
  have hstate := state_course_check hc ha
  exact changed_of_check hc (hstate.symm ▸ ht) (hstate.symm ▸ hp)

private theorem visited_of_turns {cfg' : Config}
    (h : (turns lib walk cfg cwd t).map Round.visits =
      (turns lib walk' cfg' cwd t).map Round.visits) :
    visited lib walk cfg cwd t = visited lib walk' cfg' cwd t := by
  rw [visited_eq_turns, visited_eq_turns, List.flatMap_def, List.flatMap_def, h]

/-- A check has the result of a run in place. -/
private theorem result_check (hw : walk.VisitsFiles) (ho : cfg.outDir = none)
    (hl : cfg.followLinks = false) (ht : t.WellFormed)
    (hvisits : (turns lib walk { cfg with check := false } cwd t).map Round.visits =
      (turns lib walk' { cfg with check := true } cwd t).map Round.visits)
    (honce : Once (visited lib walk' { cfg with check := true } cwd t))
    (hwrite : cfg.Writable t (visited lib walk' { cfg with check := true } cwd t)) :
    (runWith lib walk' { cfg with check := true } cwd t).1 =
      (runWith lib walk { cfg with check := false } cwd t).1 := by
  cases hx : readExcludes lib cfg.excludes with
  | error fault => simp only [runWith, hx]
  | ok isExcluded =>
    have hsame := visited_of_turns hvisits
    rw [visited_of_excludes walk { cfg with check := false } cwd t hx ho] at hsame
    rw [turns_of_excludes walk { cfg with check := false } cwd t hx ho,
      turns_of_excludes walk' { cfg with check := true } cwd t hx ho] at hvisits
    have hevents :
        (sweep walk { cfg with check := false } isExcluded none cwd { tree := t } cfg.roots).2 =
          (sweep walk' { cfg with check := true } isExcluded none cwd { tree := t } cfg.roots).2 :=
      events_sweep hw rfl hl ht (fun p => .inl rfl) hvisits (hsame ▸ honce) (hsame ▸ hwrite)
        fun p _ => rfl
    rw [runWith_of_excludes walk' { cfg with check := true } cwd t hx ho,
      runWith_of_excludes walk { cfg with check := false } cwd t hx ho, hevents]

/-- What visits in place change in a tree is what a check that comes to the same files reports as
changed. -/
private theorem changes_iff_of_cleans (hc : cfg.check = true) (ht : t.WellFormed)
    (hwrite : cfg.Writable t (visited lib walk cfg cwd t))
    (h : Cleans cfg (visited lib walk cfg cwd t) t u) (p : Place) :
    u.get? p ≠ t.get? p ↔
      ∃ a ∈ course lib walk cfg cwd t, a.place = p ∧
        ∃ r ∈ a.reports cfg none, r.changed = true := by
  constructor
  · intro hne
    have hp : .file p ∈ visited lib walk cfg cwd t :=
      Decidable.by_contra fun hp => hne (h.other hp)
    obtain ⟨data, hd, hu⟩ := h.visited hp
    obtain ⟨a, ha, rfl⟩ := List.mem_map.mp ((place_course lib walk cfg cwd t p).mpr hp)
    refine ⟨a, ha, rfl, (changed_course_iff hc ht ha hd).mpr ?_⟩
    intro he
    rw [hu, hd, hwrite.inPlace hp hd, he] at hne
    exact hne rfl
  · rintro ⟨a, ha, rfl, hr⟩ he
    have hp := (place_course lib walk cfg cwd t a.place).mp (List.mem_map_of_mem ha)
    obtain ⟨data, hd, hu⟩ := h.visited hp
    apply (changed_course_iff hc ht ha hd).mp hr
    rw [hu, hd, hwrite.inPlace hp hd] at he
    exact Entry.file.inj (Option.some.inj he)

/-- If the walks of a check deliver the same items in the same order as those of a run in place, no
file twice, and what is to be changed can be written, then both have the same reports and the same
notices, each in the same order, and print them alike as an array. The entries that the run in place
changes are the files of which the check reports a change. -/
theorem runWith_check_foretells (hw : walk.VisitsFiles) (ho : cfg.outDir = none)
    (hl : cfg.followLinks = false) (ht : t.WellFormed) (cwd : Place)
    (hvisits : (turns lib walk { cfg with check := false } cwd t).map Round.visits =
      (turns lib walk' { cfg with check := true } cwd t).map Round.visits)
    (honce : Once (visited lib walk' { cfg with check := true } cwd t))
    (hwrite : cfg.Writable t (visited lib walk' { cfg with check := true } cwd t)) :
    let written := runWith lib walk { cfg with check := false } cwd t
    let checked := runWith lib walk' { cfg with check := true } cwd t
    let seen := course lib walk' { cfg with check := true } cwd t
    checked.1 = written.1 ∧
      checked.1.reports = seen.flatMap (Stop.reports { cfg with check := true } none) ∧
      (cfg.json = true → checked.1.listing { cfg with check := true } =
        written.1.listing { cfg with check := false }) ∧
      ∀ p, written.2.get? p ≠ t.get? p ↔
        ∃ a ∈ seen, a.place = p ∧
          ∃ r ∈ a.reports { cfg with check := true } none, r.changed = true := by
  intro written checked seen
  have hrun : Cleans { cfg with check := false }
      (visited lib walk { cfg with check := false } cwd t) t written.2 :=
    @runWith_cleans lib walk { cfg with check := false } t hw rfl ho hl ht cwd
  rw [visited_of_turns hvisits] at hrun
  have hout : outPlace? { cfg with check := true } cwd t = none := by
    rw [outPlace?, openOutDir_check rfl]
  have hresult : checked.1 = written.1 := result_check hw ho hl ht hvisits honce hwrite
  refine ⟨hresult, hout ▸ reports_course lib walk' { cfg with check := true } cwd t,
    fun hj => ?_, ?_⟩
  · rw [hresult]
    cases written.1 with
    | refused fault => rfl
    | swept es =>
      rw [Result.listing, Result.listing, Report.listing, Report.listing, hj]
      rfl
  · -- Cleaning in place is the same with and without the wish to check.
    exact changes_iff_of_cleans rfl ht hwrite ⟨hrun.visited, hrun.other, hrun.locked⟩

/-- A directory and a file beside it as roots. The one file loses a comment, the other lacks the
signature and cannot be written. -/
theorem runWith_check_foretells_two_roots :
    let dir : Place := [[0x61]]
    let pom : Place := dir ++ [Utf8.encode Selection.propertiesName]
    let java : Place := [Utf8.encode "A.java".toList]
    let t : FileTree :=
      { entries := [(dir, .dir), (pom, .file [0x23, 0x0A, 0x63]), (java, .file [0x2F, 0x2F])]
        locked := [java] }
    let cfg : Config := { roots := [dir.path, java.path], useIgnoreFiles := false }
    let written := runWith Glob.library Walk.sorted { cfg with check := false } [] t
    let checked := runWith Glob.library Walk.sorted { cfg with check := true } [] t
    Walk.sorted.VisitsFiles ∧ t.WellFormed ∧
      visited Glob.library Walk.sorted { cfg with check := true } [] t = [.file pom, .file java] ∧
      checked.1 = written.1 ∧ written.2.get? pom ≠ t.get? pom ∧
      written.2.get? java = t.get? java := by
  intro dir pom java t cfg written checked
  let unbarred : Text → Bool := fun _ => false
  have hw : Walk.sorted.VisitsFiles := (Walk.arranged_faithful id).visitsFiles
  have ht : t.WellFormed := FileTree.wellFormed_of_entries (by decide +kernel)
  have hdir : t.resolve [] dir.path = .ok dir := ht.resolve_path (e := .dir) rfl nofun (by decide)
  have hjava : t.resolve [] java.path = .ok java :=
    ht.resolve_path (e := .file _) rfl nofun (by decide)
  have hbelow : Walk.sorted (walkOptions cfg unbarred none dir) dir t =
      .item (.file pom) fun _ => .ended :=
    Walk.arranged_of_lone_file (by decide) rfl (by decide +kernel) (by decide +kernel)
  have hturns (check : Bool) :
      (turns Glob.library Walk.sorted { cfg with check } [] t).map Round.visits =
        [[.file pom], [.file java]] := by
    let s := (visitRoot Walk.sorted { cfg with check } unbarred none [] { tree := t } dir.path).1
    have hshape : t.SameShape s.tree := by
      cases check with
      | true =>
        have htree : s.tree = t := visitRoot_check rfl dir.path
        exact fun p => .inl (congrArg (·.get? p) htree.symm)
      | false => exact (visitRoot_cleans (s := { tree := t }) hw rfl rfl ht dir.path).sameShape
    have hself : Walk.sorted (walkOptions cfg unbarred none java) java s.tree =
        .item (.file java) fun _ => .ended :=
      Walk.arranged_of_file ((hshape.isDir java).symm.trans (by decide +kernel))
    rw [turns_of_excludes Walk.sorted { cfg with check } [] t rfl rfl]
    simp only [cfg, rounds, hdir]
    rw [← hshape.resolve [] java.path, hjava]
    exact congrArg₂ (fun vs ws => [vs, ws]) (congrArg (delivered _ _ _ _) hbelow)
      (congrArg (delivered _ _ _ _) hself)
  have hvisited : visited Glob.library Walk.sorted { cfg with check := true } [] t =
      [.file pom, .file java] := by
    rw [visited_eq_turns, List.flatMap_def, hturns true]
    rfl
  have honce : Once (visited Glob.library Walk.sorted { cfg with check := true } [] t) := by
    have hne : Visit.file java ≠ .file pom := by decide +kernel
    rw [hvisited]
    intro p
    rw [List.count_cons, List.count_singleton]
    grind
  have hwrite : cfg.Writable t
      (visited Glob.library Walk.sorted { cfg with check := true } [] t) := by
    rw [hvisited]
    intro p data hp hd hl
    have hj : p = java := List.mem_singleton.mp (List.contains_iff_mem.mp hl)
    subst hj
    cases hd
    decide +kernel
  obtain ⟨hresult, -, -, hchanges⟩ := runWith_check_foretells hw rfl rfl ht []
    ((hturns false).trans (hturns true).symm) honce hwrite
  have hseen {p : Place} {data : Bytes} (hp : t.get? p = some (.file data))
      (hv : .file p ∈ visited Glob.library Walk.sorted { cfg with check := true } [] t) :
      written.2.get? p ≠ t.get? p ↔ cfg.inPlace false p data ≠ data := by
    rw [hchanges p]
    constructor
    · rintro ⟨a, ha, rfl, hr⟩
      exact (changed_course_iff rfl ht ha hp).mp hr
    · intro hne
      obtain ⟨a, ha, rfl⟩ := List.mem_map.mp ((place_course _ _ _ _ _ p).mpr hv)
      exact ⟨a, ha, rfl, (changed_course_iff rfl ht ha hp).mpr hne⟩
  refine ⟨hw, ht, hvisited, hresult, ?_, Decidable.of_not_not ?_⟩
  · exact (hseen rfl (by simp [hvisited])).mpr (by decide +kernel)
  · exact mt (hseen rfl (by simp [hvisited])).mp (by decide +kernel)

/-- Two files as roots, a clean one and one that would change but cannot be written. The check
reports both, and prints the one; the run in place reports the clean one and complains of the other.
-/
theorem runWith_check_misses_locked :
    let clean : Place := [Utf8.encode "A.java".toList]
    let pom : Place := [Utf8.encode Selection.propertiesName]
    let t : FileTree :=
      { entries := [(clean, .file [0x2F, 0x2F]), (pom, .file [0x23, 0x0A, 0x63])]
        locked := [pom] }
    let cfg : Config := { roots := [clean.path, pom.path], useIgnoreFiles := false }
    let written := runWith Glob.library Walk.sorted { cfg with check := false } [] t
    let checked := runWith Glob.library Walk.sorted { cfg with check := true } [] t
    checked.1.reports = [⟨"A.java".toList, "xjc", .passedThrough, false⟩,
        ⟨Selection.propertiesName, "pom-properties", .filtered 1 0, true⟩] ∧
      checked.1.notices = [] ∧
      checked.1.listing { cfg with check := true } =
        "not reproducible: pom.properties (pom-properties)\n".toList ∧
      written.1.reports = [⟨"A.java".toList, "xjc", .passedThrough, false⟩] ∧
      written.1.notices ≠ [] ∧ written.2 = t := by
  intro clean pom t cfg written checked
  let unbarred : Text → Bool := fun _ => false
  have ht : t.WellFormed := FileTree.wellFormed_of_entries (by decide +kernel)
  have hclean : t.resolve [] clean.path = .ok clean :=
    ht.resolve_path (e := .file _) rfl nofun (by decide)
  have hpom : t.resolve [] pom.path = .ok pom :=
    ht.resolve_path (e := .file _) rfl nofun (by decide)
  have hvisit (check : Bool) (root : Place) {c : Cleaner} {es : List Event}
      (hr : t.resolve [] root.path = .ok root) (hd : t.isDir root = false)
      (hc : Selection.cleanerFor? cfg.charset cfg.policy root.path = some c)
      (hdone : cleanFile check t c (Path.display root.path root.path) root none = (t, es)) :
      visitRoot Walk.sorted { cfg with check } unbarred none [] { tree := t } root.path =
        ({ tree := t }, es ++ []) := by
    have hlone : Walk.sorted (walkOptions { cfg with check } unbarred none root) root t =
        .item (.file root) fun _ => .ended := Walk.arranged_of_file hd
    simp only [visitRoot, hr, hlone, attend, visit, visitFile, hc, hdone]
  have hselClean : Selection.cleanerFor? cfg.charset cfg.policy clean.path = some (.source {}) := by
    decide +kernel
  have hselPom : Selection.cleanerFor? cfg.charset cfg.policy pom.path = some (.lines {}) := by
    decide +kernel
  have hnameClean : Path.display clean.path clean.path = "A.java".toList := by decide +kernel
  have hnamePom : Path.display pom.path pom.path = Selection.propertiesName := by decide +kernel
  have hpass : (Cleaner.source {}).cleanBytes [0x2F, 0x2F] =
      .ok (.passedThrough, [0x2F, 0x2F]) := by decide +kernel
  have hdrop : (Cleaner.lines {}).cleanBytes [0x23, 0x0A, 0x63] =
      .ok (.filtered 1 0, [0x63, 0x0A]) := by decide +kernel
  have hfirst (check : Bool) := hvisit check clean hclean (by decide) hselClean
    ((cleanFile_of_cleaned check _ ht rfl (by decide) hpass (.inr (.inl rfl))).trans
      (by rw [if_pos (.inr rfl)]))
  have hchecked : checked = (.swept
      [.report ⟨"A.java".toList, "xjc", .passedThrough, false⟩,
        .report ⟨Selection.propertiesName, "pom-properties", .filtered 1 0, true⟩], t) := by
    have hsecond := hvisit true pom hpom (by decide) hselPom
      ((cleanFile_of_cleaned true _ ht rfl (by decide) hdrop (.inl rfl)).trans
        (by rw [if_pos (.inl rfl)]))
    simp only [checked]
    rw [runWith_of_excludes Walk.sorted { cfg with check := true } [] t rfl rfl]
    simp only [cfg, sweep]
    rw [hfirst true, hsecond, hnameClean, hnamePom]
    rfl
  have hwritten : written = (.swept
      [.report ⟨"A.java".toList, "xjc", .passedThrough, false⟩,
        .notice
          (.notCleaned Selection.propertiesName (.clean (.io pom.path (.os .denied))))], t) := by
    have hsecond := hvisit false pom hpom (by decide) hselPom
      (cleanFile_of_locked _ ht rfl (by decide) hdrop (by decide) (by decide))
    simp only [written]
    rw [runWith_of_excludes Walk.sorted { cfg with check := false } [] t rfl rfl]
    simp only [cfg, sweep]
    rw [hfirst false, hsecond, hnameClean, hnamePom]
    rfl
  rw [hchecked, hwritten]
  exact ⟨rfl, rfl, by decide +kernel, rfl, by decide, rfl⟩

end Run

end Unstamp
