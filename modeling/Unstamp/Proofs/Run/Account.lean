import Mathlib.Data.List.Forall2
import Unstamp.Proofs.Run.InPlace

/-! The account that a run gives of what it meets. -/
namespace Unstamp

namespace Notice
variable {n : Notice} {file : Text}

def isRejection (n : Notice) : Bool :=
  "Error stripping ".toList.isPrefixOf n.message.toList

def Rejects (n : Notice) (file : Text) : Prop :=
  ∃ why, n.message = "Error stripping " ++ String.ofList file ++ ": " ++ why

private theorem isRejection_of_message {s t : String} (h : n.message = s ++ t) :
    n.isRejection = "Error stripping ".toList.isPrefixOf (s.toList ++ t.toList) := by
  rw [isRejection, h, String.toList_append (s := s)]

theorem Rejects.isRejection (h : n.Rejects file) : n.isRejection = true := by
  obtain ⟨why, h⟩ := h
  rw [String.append_assoc, String.append_assoc] at h
  rw [isRejection_of_message h]
  exact List.isPrefixOf_iff_prefix.mpr (List.prefix_append _ _)

private theorem rejects_clash (file first : Text) (output : Path) :
    (clash file output first).Rejects file := by
  have hcut : ": output " = ": " ++ "output " := by decide
  have h : (clash file output first).message =
      "Error stripping " ++ String.ofList file ++ ": output " ++ String.ofList output.shown ++
        " is already written from " ++ String.ofList first := rfl
  refine ⟨"output " ++ String.ofList output.shown ++ " is already written from " ++
    String.ofList first, ?_⟩
  rw [h, hcut]
  simp only [String.append_assoc]

private theorem rejects_notCleaned (file : Text) (fault : FileFault) :
    (notCleaned file fault).Rejects file :=
  ⟨fault.message, rfl⟩

private theorem isRejection_rootSkipped (root : Path) (fault : OsFault) :
    (rootSkipped root fault).isRejection = false := by
  have h : (rootSkipped root fault).message =
      "Skipping root " ++ String.ofList root.quoted ++ ": " ++ fault.message := rfl
  rw [String.append_assoc, String.append_assoc] at h
  rw [isRejection_of_message h]
  rfl

private theorem isRejection_walk (fault : WalkFault) : (walk fault).isRejection = false := by
  have h : (walk fault).message = "Walk error: " ++ fault.message := rfl
  rw [isRejection_of_message h]
  rfl

private theorem isRejection_linesLost (file : Text) (count : Nat) :
    (linesLost file count).isRejection = false := by
  have h : (linesLost file count).message =
      "Warning: " ++ toString count ++ " line(s) of " ++ String.ofList file ++
        " could not be written" := rfl
  simp only [String.append_assoc] at h
  rw [isRejection_of_message h]
  rfl

private theorem isError_of_isRejection (h : n.isRejection = true) : n.isError = true := by
  cases n with
  | linesLost file count =>
    rw [isRejection_linesLost] at h
    cases h
  | rootSkipped | walk | clash | notCleaned => rfl

end Notice

def Event.settles : Event → Bool
  | report _ => true
  | notice n => n.isRejection

namespace Run
variable {lib : PatternLibrary} {walk : Walker} {cfg : Config} {isExcluded : Text → Bool}
  {out : Option Place}
  {cwd root : Place} {s : State} {t u : FileTree} {es : List Event} {a : Stop}

/-- What a run meets: a root that leads nowhere, a fault of a walk, or a file that a walk delivers,
with the state that the run has reached by then. -/
inductive Encounter where
  | lostRoot (root : Path) (fault : OsFault)
  | fault (fault : WalkFault)
  | stop (a : Stop)

namespace Encounter

def stop? : Encounter → Option Stop
  | stop a => some a
  | _ => none

def events (cfg : Config) (out : Option Place) : Encounter → List Event
  | lostRoot r f => [.notice (.rootSkipped r f)]
  | fault f => [.notice (.walk f)]
  | stop a => (a.effect cfg out).2

end Encounter

def metBelow (cfg : Config) (out : Option Place) (root : Place) (s : State) :
    List Visit → List Encounter
  | [] => []
  | .fault f :: vs => .fault f :: metBelow cfg out root s vs
  | .file p :: vs => .stop ⟨root, p, s⟩ :: metBelow cfg out root (visitFile cfg out root s p).1 vs

def met (walk : Walker) (cfg : Config) (isExcluded : Text → Bool) (out : Option Place) (cwd : Place)
    (s : State) : List Path → List Encounter
  | [] => []
  | r :: rs =>
    let later := met walk cfg isExcluded out cwd (visitRoot walk cfg isExcluded out cwd s r).1 rs
    match s.tree.resolve cwd r with
    | .error f => .lostRoot r f :: later
    | .ok place =>
      metBelow cfg out place s (given walk cfg isExcluded out place s) ++ later

private theorem events_metBelow (vs : List Visit) :
    (visitAll cfg out root s vs).2 =
      (metBelow cfg out root s vs).flatMap (Encounter.events cfg out) := by
  induction vs generalizing s with
  | nil => rfl
  | cons v vs ih =>
    rw [visitAll, ih]
    cases v <;> rfl

/-- The events of a run are those of its encounters, one after another. -/
theorem events_met (rs : List Path) :
    (sweep walk cfg isExcluded out cwd s rs).2 =
      (met walk cfg isExcluded out cwd s rs).flatMap (Encounter.events cfg out) := by
  induction rs generalizing s with
  | nil => rfl
  | cons r rs ih =>
    rw [sweep, ih, met]
    cases hr : s.tree.resolve cwd r with
    | error f =>
      rw [visitRoot_of_error hr]
      rfl
    | ok place =>
      rw [visitRoot_of_ok hr, events_metBelow, List.flatMap_append]

private theorem stops_metBelow (vs : List Visit) :
    (metBelow cfg out root s vs).filterMap Encounter.stop? = stops cfg out root s vs := by
  induction vs generalizing s with
  | nil => rfl
  | cons v vs ih =>
    cases v with
    | fault f => exact ih
    | file p => exact congrArg (⟨root, p, s⟩ :: ·) ih

theorem stops_met (rs : List Path) :
    (met walk cfg isExcluded out cwd s rs).filterMap Encounter.stop? =
      (rounds walk cfg isExcluded out cwd s rs).flatMap (Round.stops cfg out) := by
  induction rs generalizing s with
  | nil => rfl
  | cons r rs ih =>
    rw [met]
    cases hr : s.tree.resolve cwd r with
    | error f =>
      rw [rounds_of_error hr, visitRoot_of_error hr, ← ih]
      rfl
    | ok place =>
      rw [rounds_of_ok hr, visitRoot_of_ok hr, List.flatMap_cons, ← ih, List.filterMap_append,
        stops_metBelow]
      rfl

/-- What a run says of a file that it comes to. -/
inductive Tells (cfg : Config) (a : Stop) : List Event → Prop
  | passed (hc : a.cleaner? cfg = none) : Tells cfg a []
  | clashed {c : Cleaner} (hc : a.cleaner? cfg = some c) (output : Path) (first : Text) :
      Tells cfg a [.notice (.clash a.name output first)]
  | failed {c : Cleaner} (hc : a.cleaner? cfg = some c) (fault : FileFault) :
      Tells cfg a [.notice (.notCleaned a.name fault)]
  | cleaned {c : Cleaner} (hc : a.cleaner? cfg = some c) (cleaned : Cleaned) :
      Tells cfg a (reportEvents a.name c cleaned)

private theorem cleanFile_tells {c : Cleaner} (hc : a.cleaner? cfg = some c) (check : Bool)
    (t : FileTree)
    (output : Option Place) : Tells cfg a (cleanFile check t c a.name a.place output).2 := by
  rw [cleanFile]
  split
  · exact .failed hc _
  · split
    · exact .failed hc _
    · exact .cleaned hc _

theorem Stop.tells (cfg : Config) (out : Option Place) (a : Stop) :
    Tells cfg a (a.effect cfg out).2 := by
  rw [Stop.effect, visitFile]
  cases hc : a.cleaner? cfg with
  | none =>
    rw [Stop.cleaner?] at hc
    rw [hc]
    exact .passed hc
  | some c =>
    have hsel : Selection.cleanerFor? cfg.charset cfg.policy a.place.path = some c := hc
    rw [hsel]
    cases out with
    | none => exact cleanFile_tells hc cfg.check a.state.tree none
    | some out =>
      simp only
      split
      · exact .clashed hc _ _
      · exact cleanFile_tells hc cfg.check a.state.tree _

private theorem settles_reportEvents (file : Text) (c : Cleaner) (cleaned : Cleaned) :
    (reportEvents file c cleaned).filter Event.settles =
      [.report ⟨file, c.name, cleaned.outcome, cleaned.changed⟩] := by
  unfold reportEvents
  split
  · rename_i h
    rw [h, List.filter_cons_of_neg (by simp [Event.settles, Notice.isRejection_linesLost])]
    rfl
  · rfl

def Stop.Settled (a : Stop) (c : Cleaner) : Event → Prop
  | .report r => r.path = a.name ∧ r.cleaner = c.name
  | .notice n => n.Rejects a.name

private theorem settled_of_rejects {n : Notice} (h : n.Rejects a.name) (c : Cleaner) :
    ∃ e, [Event.notice n].filter Event.settles = [e] ∧ a.Settled c e := by
  have hs : (Event.notice n).settles = true := h.isRejection
  refine ⟨.notice n, ?_, h⟩
  rw [List.filter_cons_of_pos hs, List.filter_nil]

namespace Tells
variable {c : Cleaner} {n : Notice} (h : Tells cfg a es)
include h

/-- A file is settled once. -/
theorem settled (hc : a.cleaner? cfg = some c) :
    ∃ e, es.filter Event.settles = [e] ∧ a.Settled c e := by
  cases h with
  | passed hnone =>
    rw [hc] at hnone
    cases hnone
  | clashed _ output first => exact settled_of_rejects (Notice.rejects_clash a.name first output) c
  | failed _ fault => exact settled_of_rejects (Notice.rejects_notCleaned a.name fault) c
  | cleaned hc' cleaned =>
    cases hc.symm.trans hc'
    exact ⟨_, settles_reportEvents a.name c cleaned, rfl, rfl⟩

/-- Nothing but that the file is rejected counts as an error. -/
private theorem isError_eq_false (hn : .notice n ∈ es) (hr : n.isRejection = false) :
    n.isError = false := by
  cases h with
  | passed => cases hn
  | clashed _ output first =>
    cases List.mem_singleton.mp hn
    rw [(Notice.rejects_clash a.name first output).isRejection] at hr
    cases hr
  | failed _ fault =>
    cases List.mem_singleton.mp hn
    rw [(Notice.rejects_notCleaned a.name fault).isRejection] at hr
    cases hr
  | cleaned _ cleaned => exact faultless_reportEvents a.name _ cleaned n hn

end Tells

/-- The events of encounters are free of errors just if there is no other encounter than with files,
and no file is rejected. -/
private theorem faultless_encounters_iff {ms : List Encounter} :
    Faultless (ms.flatMap (Encounter.events cfg out)) ↔
      (∀ r f, .lostRoot r f ∉ ms) ∧ (∀ f, .fault f ∉ ms) ∧
        ∀ n, .notice n ∈ ms.flatMap (Encounter.events cfg out) → n.isRejection = false := by
  constructor
  · intro h
    refine ⟨fun r f hm => ?_, fun f hm => ?_, fun n hn => ?_⟩
    · cases h _ (List.mem_flatMap.mpr ⟨_, hm, List.mem_singleton.mpr rfl⟩)
    · cases h _ (List.mem_flatMap.mpr ⟨_, hm, List.mem_singleton.mpr rfl⟩)
    · rw [Bool.eq_false_iff]
      intro hr
      exact absurd (h n hn) (by rw [Notice.isError_of_isRejection hr]; exact Bool.noConfusion)
  · rintro ⟨hroots, hfaults, hfiles⟩ n hn
    obtain ⟨m, hm, hn'⟩ := List.mem_flatMap.mp hn
    cases m with
    | lostRoot r f => exact absurd hm (hroots r f)
    | fault f => exact absurd hm (hfaults f)
    | stop a => exact (a.tells cfg out).isError_eq_false hn' (hfiles n hn)

/-- Events of which none rejects a file settle files by reports. -/
private theorem settles_eq_reports (h : ∀ n, .notice n ∈ es → n.isRejection = false) :
    es.filter Event.settles = (Result.swept es).reports.map Event.report := by
  induction es with
  | nil => rfl
  | cons e es ih =>
    have ih := ih fun n hn => h n (List.mem_cons_of_mem e hn)
    cases e with
    | report r => exact congrArg (Event.report r :: ·) ih
    | notice n =>
      have hn : n.isRejection = false := h n List.mem_cons_self
      rw [List.filter_cons_of_neg (by simp [Event.settles, hn])]
      exact ih

private theorem Stop.effect_of_passed (hc : a.cleaner? cfg = none) : (a.effect cfg out).2 = [] := by
  rw [Stop.cleaner?] at hc
  rw [Stop.effect, visitFile, hc]

/-- Lost roots and faults of the walks settle nothing. -/
private theorem settles_encounters (ms : List Encounter) :
    (ms.flatMap (Encounter.events cfg out)).filter Event.settles =
      (ms.filterMap Encounter.stop?).flatMap fun a =>
        (a.effect cfg out).2.filter Event.settles := by
  induction ms with
  | nil => rfl
  | cons m ms ih =>
    rw [List.flatMap_cons, List.filter_append, ih]
    cases m with
    | lostRoot r f =>
      have hr : (Event.notice (.rootSkipped r f)).settles = false :=
        Notice.isRejection_rootSkipped r f
      rw [Encounter.events, List.filter_cons_of_neg (by simp [hr])]
      rfl
    | fault f =>
      have hf : (Event.notice (.walk f)).settles = false := Notice.isRejection_walk f
      rw [Encounter.events, List.filter_cons_of_neg (by simp [hf])]
      rfl
    | stop a => rfl

/-- Each file with a cleaner is settled once, in its turn. -/
private theorem forall₂_settled (as : List Stop) :
    List.Forall₂ (fun a e => ∃ c, a.cleaner? cfg = some c ∧
        (a.effect cfg out).2.filter Event.settles = [e] ∧ a.Settled c e)
      (as.filter fun a => (a.cleaner? cfg).isSome)
      (as.flatMap fun a => (a.effect cfg out).2.filter Event.settles) := by
  induction as with
  | nil => exact .nil
  | cons a as ih =>
    rw [List.flatMap_cons]
    cases hc : a.cleaner? cfg with
    | none =>
      rw [Stop.effect_of_passed hc, List.filter_cons_of_neg (by simp [hc])]
      exact ih
    | some c =>
      obtain ⟨e, he, hsettled⟩ := (a.tells cfg out).settled hc
      rw [he, List.filter_cons_of_pos (by simp [hc])]
      exact .cons ⟨c, hc, he, hsettled⟩ ih

/-- A run that was not refused gives an account of all that it meets: roots that lead nowhere,
faults of the walks, and the files that the walks deliver.

Each file with a cleaner is settled once, by its report or by the line that rejects it, in the order
in which the walks deliver them; nothing is said of a file without one. The run answers just if it
has lost no root, no walk has met a fault, no line rejects a file, and it is no check that tells of
a change. It answers with what settles the files, which are reports then. -/
theorem runWith_accounts (walk : Walker) (hx : readExcludes lib cfg.excludes = .ok isExcluded)
    (ho : openOutDir cfg cwd t = (.ok out, u)) :
    let result := (runWith lib walk cfg cwd t).1
    let seen := course lib walk cfg cwd t
    let all := met walk cfg isExcluded out cwd { tree := u } cfg.roots
    result.events = all.flatMap (Encounter.events cfg out) ∧
      all.filterMap Encounter.stop? = seen ∧
      List.Forall₂ (fun a e => ∃ c, a.cleaner? cfg = some c ∧
          (a.effect cfg out).2.filter Event.settles = [e] ∧ a.Settled c e)
        (seen.filter fun a => (a.cleaner? cfg).isSome) (result.events.filter Event.settles) ∧
      (∀ a ∈ seen, a.cleaner? cfg = none → (a.effect cfg out).2 = []) ∧
      ((∃ reports, result.answer cfg.check = .ok reports) ↔
        (∀ r f, .lostRoot r f ∉ all) ∧ (∀ f, .fault f ∉ all) ∧
          (∀ n, .notice n ∈ result.events → n.isRejection = false) ∧
          ¬ (cfg.check = true ∧ ∃ r ∈ result.reports, r.changed = true)) ∧
      ∀ reports, result.answer cfg.check = .ok reports →
        reports.map Event.report = result.events.filter Event.settles := by
  intro result seen all
  obtain ⟨hrun, hturns, hout⟩ := runWith_opened walk hx ho
  have hresult : result = .swept (all.flatMap (Encounter.events cfg out)) := by
    simp only [result, hrun, events_met, all]
  have hseen : all.filterMap Encounter.stop? = seen := by
    simp only [all, seen, stops_met, course, hturns, hout]
  have hevents : result.events = all.flatMap (Encounter.events cfg out) := by
    rw [hresult]
    rfl
  have hfaultless := @faultless_encounters_iff cfg out all
  refine ⟨hevents, hseen, ?_, fun a _ => Stop.effect_of_passed, ?_, fun reports h => ?_⟩
  · rw [hevents, settles_encounters, hseen]
    exact forall₂_settled seen
  · rw [hevents, hresult]
    simp only [answer_eq_ok_iff, exists_and_left, exists_eq', and_true, hfaultless, and_assoc]
  · rw [hresult, answer_eq_ok_iff, hfaultless] at h
    obtain ⟨⟨-, -, hfiles⟩, -, rfl⟩ := h
    rw [hevents]
    exact (settles_eq_reports hfiles).symm

/-- A property file that loses a comment, and a file that has no cleaner, as roots. -/
theorem runWith_accounts_two_roots :
    let pom : Place := [Utf8.encode Selection.propertiesName]
    let note : Place := [Utf8.encode "note".toList]
    let t : FileTree := { entries := [(pom, .file [0x23, 0x0A, 0x63]), (note, .file [0x23])] }
    let cfg : Config := { roots := [pom.path, note.path], useIgnoreFiles := false }
    let unbarred : Text → Bool := fun _ => false
    let c : Cleaner := .lines {}
    let a : Stop := ⟨pom, pom, { tree := t }⟩
    let b : Stop := ⟨note, note, { tree := t.set pom (.file [0x63, 0x0A]) }⟩
    readExcludes Glob.library cfg.excludes = .ok unbarred ∧ openOutDir cfg [] t = (.ok none, t) ∧
      course Glob.library Walk.sorted cfg [] t = [a, b] ∧
      (runWith Glob.library Walk.sorted cfg [] t).1.answer cfg.check =
        .ok [⟨a.name, c.name, .filtered 1 0, true⟩] := by
  intro pom note t cfg unbarred c a b
  have ht : t.WellFormed := FileTree.wellFormed_of_entries (by decide +kernel)
  have hu : b.state.tree.WellFormed := FileTree.wellFormed_of_entries (by decide +kernel)
  have hpom : t.resolve [] pom.path = .ok pom :=
    ht.resolve_path (e := .file _) rfl nofun (by decide)
  have hnote : b.state.tree.resolve [] note.path = .ok note :=
    hu.resolve_path (e := .file _) rfl nofun (by decide)
  have hsel : a.cleaner? cfg = some c := by decide +kernel
  have hsel' : b.cleaner? cfg = none := by decide +kernel
  have hdone : a.effect cfg none = (b.state, [.report ⟨a.name, c.name, .filtered 1 0, true⟩]) := by
    have hclean : c.cleanBytes [0x23, 0x0A, 0x63] = .ok (.filtered 1 0, [0x63, 0x0A]) := by
      decide +kernel
    have hfile :=
      cleanFile_of_cleaned false a.name ht (p := pom) rfl (by decide) hclean (.inr (.inr rfl))
    have hpick : Selection.cleanerFor? cfg.charset cfg.policy pom.path = some c := hsel
    rw [Stop.effect, visitFile, hpick]
    exact congrArg (fun r => (({ tree := r.1 } : State), r.2)) hfile
  have hmet : met Walk.sorted cfg unbarred none [] { tree := t } cfg.roots =
    [.stop a, .stop b] := by
    have hnext : (visitRoot Walk.sorted cfg unbarred none [] { tree := t } pom.path).1 =
      b.state := by
      rw [visitRoot_of_ok hpom]
      exact congrArg Prod.fst hdone
    rw [show cfg.roots = [pom.path, note.path] from rfl]
    simp only [met, hnext, hpom, hnote]
    rfl
  obtain ⟨hevents, hcourse, hsettled, hpassed, hanswer, hok⟩ :=
    @runWith_accounts Glob.library cfg unbarred none [] t t Walk.sorted rfl rfl
  rw [hmet] at hevents hcourse hanswer
  have hseen : course Glob.library Walk.sorted cfg [] t = [a, b] := hcourse.symm
  have hunrejected (n : Notice)
      (hn : .notice n ∈ (runWith Glob.library Walk.sorted cfg [] t).1.events) :
      n.isRejection = false := by
    rw [hevents, List.flatMap_cons, Encounter.events, hdone] at hn
    have hb : (b.effect cfg none).2 = [] := hpassed b (by simp [hseen]) hsel'
    simp [Encounter.events, hb] at hn
  obtain ⟨reports, h⟩ := hanswer.mpr ⟨by simp, by simp, hunrejected, by simp [cfg]⟩
  have hselected : [a, b].filter (fun a => (a.cleaner? cfg).isSome) = [a] := by
    simp [hsel, hsel']
  rw [hseen, hselected, List.forall₂_cons_left_iff] at hsettled
  obtain ⟨e, es, ⟨-, -, he, -⟩, hrest, hes⟩ := hsettled
  rw [← hok reports h, List.forall₂_nil_left_iff.mp hrest, List.map_eq_singleton_iff] at hes
  obtain ⟨r, rfl, rfl⟩ := hes
  rw [hdone] at he
  cases he
  exact ⟨rfl, rfl, hseen, h⟩

end Run

end Unstamp
