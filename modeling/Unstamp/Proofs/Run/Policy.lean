import Unstamp.CommandLine.Program
import Unstamp.Proofs.Run.Account
import Unstamp.Proofs.Run.Check

/-! A run cleans in memory, where every line can be written, so that the policy never comes to bear.
-/
namespace Unstamp

def Outcome.Lossless (outcome : Outcome) : Prop :=
  ∀ dropped lost, outcome = .filtered dropped lost → lost = 0

def Event.Lossless : Event → Prop
  | report r => r.outcome.Lossless
  | notice n => ∀ file count, n ≠ .linesLost file count

namespace Cleaner
variable {c : Cleaner} {t : FileTree} {cwd : Place} {input output : Path} {b o : Bytes}

def withPolicy (policy : WritePolicy) : Cleaner → Cleaner
  | lines f => lines { f with policy }
  | source g => source g

@[simp] theorem name_withPolicy (policy : WritePolicy) (c : Cleaner) :
    (c.withPolicy policy).name = c.name := by
  cases c <;> rfl

private theorem cleanBytes_withPolicy (policy : WritePolicy) (c : Cleaner) (b : Bytes) :
    (c.withPolicy policy).cleanBytes b = c.cleanBytes b := by
  cases c with
  | source g => rfl
  | lines f =>
    rw [withPolicy]
    cases hd : Charset.utf8.decode b with
    | error fault => rw [cleanBytes_lines_of_malformed _ hd, cleanBytes_lines_of_malformed _ hd]
    | ok text =>
      -- The lines that are kept depend on the marker alone.
      rw [cleanBytes_lines _ hd, cleanBytes_lines _ hd]
      rfl

@[simp] theorem load_withPolicy (policy : WritePolicy) (c : Cleaner) (t : FileTree) (cwd : Place)
    (input : Path) : (c.withPolicy policy).load t cwd input = c.load t cwd input := by
  simp only [load, cleanBytes_withPolicy]

theorem cleanFile_withPolicy (policy : WritePolicy) (c : Cleaner) (t : FileTree) (cwd : Place)
    (input output : Path) :
    (c.withPolicy policy).cleanFile t cwd input output = c.cleanFile t cwd input output := by
  rw [cleanFile, cleanFile, load_withPolicy]

private theorem lossless_of_cleanBytes {outcome : Outcome} (h : c.cleanBytes b = .ok (outcome, o)) :
    outcome.Lossless := by
  cases c with
  | source g =>
    rw [cleanBytes_source] at h
    rcases GeneratedSource.produce_cases (mapError_eq_ok.mp h) with ⟨rfl, -⟩ | ⟨_, rfl, -⟩
    all_goals exact fun _ _ h => by cases h
  | lines f =>
    obtain ⟨text, hd⟩ := decode_of_cleanBytes_lines h
    rw [cleanBytes_lines f hd] at h
    cases h
    intro dropped lost h
    cases h
    rfl

private theorem lossless_of_load {cleaned : Cleaned} (h : c.load t cwd input = .ok cleaned) :
    cleaned.outcome.Lossless :=
  lossless_of_cleanBytes (load_eq_ok_iff.mp h).2

private theorem lossless_of_cleanFile {outcome : Outcome} {u : FileTree}
    (h : c.cleanFile t cwd input output = (.ok outcome, u)) : outcome.Lossless := by
  rw [cleanFile] at h
  split at h
  · cases h
  rename_i cleaned hl
  split at h
  · cases h
  cases h
  exact lossless_of_load hl

end Cleaner

private theorem Selection.cleanerFor?_policy (charset : Charset) (policy policy' : WritePolicy)
    (p : Path) :
    cleanerFor? charset policy p = (cleanerFor? charset policy' p).map (.withPolicy policy) := by
  have hname (n : Name) :
      forName? charset policy n = (forName? charset policy' n).map (.withPolicy policy) := by
    unfold forName?
    split
    · rfl
    split
    · rfl
    split
    · split <;> rfl
    · rfl
  unfold cleanerFor?
  cases p.fileName? with
  | none => rfl
  | some n => exact hname n

namespace Run
variable {lib : PatternLibrary} {walk : Walker} {cfg : Config} {isExcluded : Text → Bool}
  {out : Option Place}
  {cwd root : Place} {s : State} {t : FileTree} {e : Event}

/-! The same run under any policy, step by step. -/

theorem cleanFile_withPolicy (policy : WritePolicy) (check : Bool) (t : FileTree) (c : Cleaner)
    (file : Text) (place : Place) (output : Option Place) :
    cleanFile check t (c.withPolicy policy) file place output =
      cleanFile check t c file place output := by
  simp only [cleanFile, Cleaner.load_withPolicy, reportEvents, Cleaner.name_withPolicy]

private theorem visitFile_policy (policy : WritePolicy) (p : Place) :
    visitFile { cfg with policy } out root s p = visitFile cfg out root s p := by
  rw [visitFile, visitFile, Selection.cleanerFor?_policy cfg.charset policy cfg.policy]
  cases Selection.cleanerFor? cfg.charset cfg.policy p.path with
  | none => rfl
  | some c =>
    simp only [Option.map_some, cleanFile_withPolicy]

private theorem runWith_withPolicy (walk : Walker) (cfg : Config) (policy : WritePolicy)
    (cwd : Place)
    (t : FileTree) : runWith lib walk { cfg with policy } cwd t = runWith lib walk cfg cwd t := by
  have ho : openOutDir { cfg with policy } cwd t = openOutDir cfg cwd t := rfl
  simp only [runWith, ho, @sweep_congr walk cfg _ _ _ _ { cfg with policy } rfl
    fun root s => visitFile_policy policy]

/-! No event tells of a lost line. -/

private theorem lossless_reportEvents (file : Text) (c : Cleaner) {cleaned : Cleaned}
    (h : cleaned.outcome.Lossless) : ∀ e ∈ reportEvents file c cleaned, e.Lossless := by
  unfold reportEvents
  split
  · rename_i dropped n ho
    exact absurd (h _ _ ho) (Nat.succ_ne_zero n)
  · exact List.forall_mem_singleton.mpr h

private theorem lossless_cleanFile (check : Bool) (t : FileTree) (c : Cleaner) (file : Text)
    (place : Place) (output : Option Place) :
    ∀ e ∈ (cleanFile check t c file place output).2, e.Lossless := by
  rw [cleanFile]
  split
  · exact List.forall_mem_singleton.mpr fun _ _ h => by cases h
  · rename_i cleaned hl
    split
    · exact List.forall_mem_singleton.mpr fun _ _ h => by cases h
    · exact lossless_reportEvents file c (Cleaner.lossless_of_load hl)

private theorem lossless_visitFile (p : Place) :
    ∀ e ∈ (visitFile cfg out root s p).2, e.Lossless := by
  rw [visitFile]
  split
  · exact fun e he => absurd he List.not_mem_nil
  · split
    · exact lossless_cleanFile _ _ _ _ _ _
    · dsimp only
      split
      · exact List.forall_mem_singleton.mpr fun _ _ h => by cases h
      · exact lossless_cleanFile _ _ _ _ _ _

private theorem lossless_sweep (rs : List Path) :
    ∀ e ∈ (sweep walk cfg isExcluded out cwd s rs).2, e.Lossless := by
  rw [events_met]
  intro e he
  obtain ⟨a, -, he⟩ := List.mem_flatMap.mp he
  cases a with
  | lostRoot r fault =>
    obtain rfl := List.mem_singleton.mp he
    exact fun _ _ h => by cases h
  | fault fault =>
    obtain rfl := List.mem_singleton.mp he
    exact fun _ _ h => by cases h
  | stop a => exact lossless_visitFile a.place e he

private theorem lossless_runWith (lib : PatternLibrary) (walk : Walker) (cfg : Config) (cwd : Place)
    (t : FileTree) :
    ∀ e ∈ (runWith lib walk cfg cwd t).1.events, e.Lossless := by
  rw [runWith]
  split
  · exact fun e he => absurd he List.not_mem_nil
  · split
    · exact fun e he => absurd he List.not_mem_nil
    · exact lossless_sweep cfg.roots

/-- Under any policy a run comes to the same, prints the same and leaves the same tree, and so does
the cleaning of one property file. No report or notice of a run tells of a line that could not be
written, and no more does the outcome of a file. -/
theorem runWith_policy (lib : PatternLibrary) (walk : Walker) (cfg : Config) (policy : WritePolicy)
    (cwd : Place) (t : FileTree) :
    let cfg' := { cfg with policy }
    let done := runWith lib walk cfg cwd t
    runWith lib walk cfg' cwd t = done ∧
      (let told := CommandLine.Answer.ran cfg done.1
       let told' := CommandLine.Answer.ran cfg' done.1
       told'.output = told.output ∧ told'.errors = told.errors ∧
        told'.exitCode = told.exitCode) ∧
      (∀ r ∈ done.1.reports, ∀ dropped lost, r.outcome = .filtered dropped lost → lost = 0) ∧
      (∀ file count, .linesLost file count ∉ done.1.notices) ∧
      ∀ (marker : Char) (input output : Path),
        let cleaned := Cleaner.cleanFile (.lines ⟨marker, cfg.policy⟩) t cwd input output
        Cleaner.cleanFile (.lines ⟨marker, policy⟩) t cwd input output = cleaned ∧
          ∀ dropped lost, cleaned.1 = .ok (.filtered dropped lost) → lost = 0 := by
  intro cfg' done
  have hevents := lossless_runWith lib walk cfg cwd t
  refine ⟨runWith_withPolicy walk cfg policy cwd t, ⟨rfl, rfl, rfl⟩, ?_, ?_, ?_⟩
  · intro r hr
    obtain ⟨e, he, hre⟩ := List.mem_filterMap.mp hr
    cases e with
    | report r' =>
      cases hre
      exact hevents _ he
    | notice n => cases hre
  · intro file count hn
    obtain ⟨e, he, hne⟩ := List.mem_filterMap.mp hn
    cases e with
    | report r => cases hne
    | notice n =>
      cases hne
      exact hevents _ he file count rfl
  · intro marker input output cleaned
    refine ⟨Cleaner.cleanFile_withPolicy policy (.lines ⟨marker, cfg.policy⟩) t cwd input output,
      fun dropped lost h => ?_⟩
    exact Cleaner.lossless_of_cleanFile (Prod.ext h rfl) dropped lost rfl

/-- A line that fills a whole buffer, after one that is dropped. -/
theorem runWith_policy_full_line :
    let pom : Place := [Utf8.encode Selection.propertiesName]
    let text := Line.joined [['#'], List.replicate Buffer.capacity 'v']
    let t : FileTree := { entries := [(pom, .file (Utf8.encode text))] }
    let cfg : Config := { roots := [pom.path], check := true, policy := .bestEffort }
    let done := runWith Glob.library Walk.sorted cfg [] t
    runWith Glob.library Walk.sorted { cfg with policy := .abort } [] t = done ∧
      (∃ r ∈ done.1.reports, ∃ lost, r.outcome = .filtered 1 lost ∧ lost = 0) ∧
      ∃ lost u, Cleaner.cleanFile (.lines {}) t [] pom.path pom.path =
        (.ok (.filtered 1 lost), u) ∧ lost = 0 := by
  intro pom text t cfg done
  let c : Cleaner := .lines { policy := .bestEffort }
  have ht : t.WellFormed := FileTree.wellFormed_of_entries (by decide +kernel)
  have hpom : t.resolve [] pom.path = .ok pom :=
    ht.resolve_path (e := .file _) rfl (by simp) (by decide)
  have hread : t.read [] pom.path = .ok (Utf8.encode text) := ht.read_path rfl
  have hs : Selection.cleanerFor? cfg.charset cfg.policy pom.path = some c := by decide +kernel
  have hsplit : Line.split text = [['#'], List.replicate Buffer.capacity 'v'] :=
    Line.split_joined (by simp [Line.Bare])
  obtain ⟨after, hclean⟩ : ∃ after,
      c.cleanBytes (Utf8.encode text) = .ok (.filtered 1 0, after) := by
    have hd := Charset.decode_of_encode (Charset.encode_utf8 text)
    have hkept : (CommentLines.kept { policy := .bestEffort } text).length = 1 := by
      rw [CommentLines.kept, hsplit]
      rfl
    rw [Cleaner.cleanBytes_lines _ hd, hkept, hsplit]
    exact ⟨_, rfl⟩
  have hload : c.load t [] pom.path = .ok ⟨Utf8.encode text, after, .filtered 1 0⟩ :=
    Cleaner.load_eq_ok_iff.mpr ⟨hread, hclean⟩
  have hreports : ∃ r ∈ done.1.reports, r.outcome = .filtered 1 0 := by
    let s : State := { tree := t }
    let unbarred : Text → Bool := fun _ => false
    have hwalk : Walk.sorted (walkOptions cfg unbarred none pom) pom t =
        .item (.file pom) fun _ => .ended := Walk.arranged_of_file (by decide +kernel)
    have hvisit : (visitFile cfg none pom s pom).2 =
        reportEvents (Path.display pom.path pom.path) c
          ⟨Utf8.encode text, after, .filtered 1 0⟩ := by
      rw [visitFile, hs]
      simp only [cfg, s, cleanFile_check, hload]
    have hsweep : (sweep Walk.sorted cfg unbarred none [] s cfg.roots).2 =
        (visitFile cfg none pom s pom).2 := by
      have hroot : s.tree.resolve [] pom.path = .ok pom := hpom
      have hitems : Walk.sorted (walkOptions cfg unbarred none pom) pom s.tree =
          .item (.file pom) fun _ => .ended := hwalk
      rw [sweep, visitRoot, hroot]
      simp only [hitems, attend, visit, sweep, List.append_nil]
    have hdone : done.1 = .swept (sweep Walk.sorted cfg unbarred none [] s cfg.roots).2 :=
      congrArg Prod.fst (runWith_opened Walk.sorted rfl (openOutDir_check rfl [] t)).1
    rw [hdone, hsweep, hvisit, reports_reportEvents]
    exact ⟨_, List.mem_singleton_self _, rfl⟩
  have hplace : t.writePlace [] pom.path = .ok pom := by
    rw [FileTree.writePlace, ht.find_path true (e := .file _) rfl (by simp)]
    rfl
  obtain ⟨hsame, -, hlost, -, hfile⟩ := runWith_policy Glob.library Walk.sorted cfg .abort [] t
  obtain ⟨r, hr, ho⟩ := hreports
  obtain ⟨hsame', hlost'⟩ := hfile '#' pom.path pom.path
  have hdone := Cleaner.cleanFile_of_place hload hplace
  rw [hdone] at hsame' hlost'
  exact ⟨hsame, ⟨r, hr, 0, ho, hlost r hr 1 0 ho⟩, 0, _, hsame', hlost' 1 0 rfl⟩

end Run

end Unstamp
