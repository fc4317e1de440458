import Unstamp.Proofs.Run.Answer
import Unstamp.Proofs.Walk

/-! The roots of a run in their turns, and the files that it comes to, each with the state by then.
-/
namespace Unstamp.Run
variable {lib : PatternLibrary} {walk : Walker} {cfg : Config} {isExcluded : Text → Bool}
  {out : Option Place} {cwd root : Place} {s : State} {t : FileTree} {w : Walking} {vs : List Visit}
  {rs : List Path}

def visitAll (cfg : Config) (out : Option Place) (root : Place) (s : State) :
    List Visit → State × List Event
  | [] => (s, [])
  | v :: vs =>
    let now := visit cfg out root s v
    let later := visitAll cfg out root now.1 vs
    (later.1, now.2 ++ later.2)

def delivered (cfg : Config) (out : Option Place) (root : Place) (s : State) :
    Walking → List Visit
  | .ended => []
  | .item v next =>
    let now := visit cfg out root s v
    v :: delivered cfg out root now.1 (next now.1.tree)

/-- The items that a run is given below a root. -/
def given (walk : Walker) (cfg : Config) (isExcluded : Text → Bool) (out : Option Place)
    (root : Place) (s : State) : List Visit :=
  delivered cfg out root s (walk (walkOptions cfg isExcluded out root) root s.tree)

theorem attend_eq (w : Walking) :
    attend cfg out root s w = visitAll cfg out root s (delivered cfg out root s w) := by
  induction w generalizing s with
  | ended => rfl
  | item v next ih => rw [attend, delivered, visitAll, ih]

def rootVisits (walk : Walker) (cfg : Config) (isExcluded : Text → Bool) (out : Option Place)
    (cwd : Place) (s : State) (root : Path) : List Visit :=
  match s.tree.resolve cwd root with
  | .error _ => []
  | .ok place => given walk cfg isExcluded out place s

def sweepVisits (walk : Walker) (cfg : Config) (isExcluded : Text → Bool) (out : Option Place)
    (cwd : Place) (s : State) : List Path → List Visit
  | [] => []
  | r :: rs =>
    rootVisits walk cfg isExcluded out cwd s r ++
      sweepVisits walk cfg isExcluded out cwd (visitRoot walk cfg isExcluded out cwd s r).1 rs

def visited (lib : PatternLibrary) (walk : Walker) (cfg : Config) (cwd : Place) (t : FileTree) :
    List Visit :=
  match readExcludes lib cfg.excludes with
  | .error _ => []
  | .ok isExcluded =>
    match openOutDir cfg cwd t with
    | (.error _, _) => []
    | (.ok out, t) => sweepVisits walk cfg isExcluded out cwd { tree := t } cfg.roots

/-- A root that leads somewhere, when it has its turn, and what the walk delivers from it. -/
structure Round where
  root : Place
  state : State
  visits : List Visit

/-- A file that a walk delivers, when it has its turn, and the root of the walk. -/
structure Stop where
  root : Place
  place : Place
  state : State

def Stop.cleaner? (cfg : Config) (a : Stop) : Option Cleaner :=
  Selection.cleanerFor? cfg.charset cfg.policy a.place.path

def Stop.name (a : Stop) : Text :=
  Path.display a.root.path a.place.path

def Stop.effect (cfg : Config) (out : Option Place) (a : Stop) : State × List Event :=
  visitFile cfg out a.root a.state a.place

def Stop.reports (cfg : Config) (out : Option Place) (a : Stop) : List Report :=
  (Result.swept (a.effect cfg out).2).reports

def stops (cfg : Config) (out : Option Place) (root : Place) (s : State) :
    List Visit → List Stop
  | [] => []
  | .fault _ :: vs => stops cfg out root s vs
  | .file p :: vs => ⟨root, p, s⟩ :: stops cfg out root (visitFile cfg out root s p).1 vs

def rounds (walk : Walker) (cfg : Config) (isExcluded : Text → Bool) (out : Option Place)
    (cwd : Place) (s : State) : List Path → List Round
  | [] => []
  | r :: rs =>
    let later := rounds walk cfg isExcluded out cwd (visitRoot walk cfg isExcluded out cwd s r).1 rs
    match s.tree.resolve cwd r with
    | .error _ => later
    | .ok place => ⟨place, s, given walk cfg isExcluded out place s⟩ :: later

def Round.stops (cfg : Config) (out : Option Place) (a : Round) : List Stop :=
  Run.stops cfg out a.root a.state a.visits

def outPlace? (cfg : Config) (cwd : Place) (t : FileTree) : Option Place :=
  match openOutDir cfg cwd t with
  | (.error _, _) => none
  | (.ok out, _) => out

def turns (lib : PatternLibrary) (walk : Walker) (cfg : Config) (cwd : Place)
    (t : FileTree) : List Round :=
  match readExcludes lib cfg.excludes with
  | .error _ => []
  | .ok isExcluded =>
    match openOutDir cfg cwd t with
    | (.error _, _) => []
    | (.ok out, t) => rounds walk cfg isExcluded out cwd { tree := t } cfg.roots

def course (lib : PatternLibrary) (walk : Walker) (cfg : Config) (cwd : Place)
    (t : FileTree) : List Stop :=
  (turns lib walk cfg cwd t).flatMap (Round.stops cfg (outPlace? cfg cwd t))

/-- A run whose output directory, if it has one, was opened. -/
theorem runWith_opened {u : FileTree} (walk : Walker)
    (hx : readExcludes lib cfg.excludes = .ok isExcluded)
    (ho : openOutDir cfg cwd t = (.ok out, u)) :
    runWith lib walk cfg cwd t =
        (.swept (sweep walk cfg isExcluded out cwd { tree := u } cfg.roots).2,
          (sweep walk cfg isExcluded out cwd { tree := u } cfg.roots).1.tree) ∧
      turns lib walk cfg cwd t = rounds walk cfg isExcluded out cwd { tree := u } cfg.roots ∧
      outPlace? cfg cwd t = out := by
  rw [runWith, turns, outPlace?, hx, ho]
  exact ⟨rfl, rfl, rfl⟩

/-- A root that leads nowhere leaves the state as it is. -/
theorem visitRoot_of_error {r : Path} {fault : OsFault} (h : s.tree.resolve cwd r = .error fault) :
    visitRoot walk cfg isExcluded out cwd s r = (s, [.notice (.rootSkipped r fault)]) := by
  rw [visitRoot, h]

theorem visitRoot_of_ok {r : Path} (h : s.tree.resolve cwd r = .ok root) :
    visitRoot walk cfg isExcluded out cwd s r =
      visitAll cfg out root s (given walk cfg isExcluded out root s) := by
  rw [visitRoot, h]
  exact attend_eq _

theorem rounds_of_error {r : Path} {fault : OsFault} (h : s.tree.resolve cwd r = .error fault)
    (rs : List Path) :
    rounds walk cfg isExcluded out cwd s (r :: rs) = rounds walk cfg isExcluded out cwd s rs := by
  rw [rounds, visitRoot_of_error h, h]

theorem rounds_of_ok {r : Path} (h : s.tree.resolve cwd r = .ok root) (rs : List Path) :
    rounds walk cfg isExcluded out cwd s (r :: rs) =
      ⟨root, s, given walk cfg isExcluded out root s⟩ ::
        rounds walk cfg isExcluded out cwd
          (visitAll cfg out root s (given walk cfg isExcluded out root s)).1 rs := by
  rw [rounds, visitRoot_of_ok h, h]

theorem reports_stops (vs : List Visit) :
    (Result.swept (visitAll cfg out root s vs).2).reports =
      (stops cfg out root s vs).flatMap (Stop.reports cfg out) := by
  induction vs generalizing s with
  | nil => rfl
  | cons v vs ih =>
    rw [visitAll, reports_append, ih]
    cases v with
    | fault fault => rfl
    | file p => rfl

private theorem reports_rounds (rs : List Path) :
    (Result.swept (sweep walk cfg isExcluded out cwd s rs).2).reports =
      ((rounds walk cfg isExcluded out cwd s rs).flatMap (Round.stops cfg out)).flatMap
        (Stop.reports cfg out) := by
  induction rs generalizing s with
  | nil => rfl
  | cons r rs ih =>
    rw [sweep, reports_append, ih]
    cases hr : s.tree.resolve cwd r with
    | error fault =>
      rw [visitRoot_of_error hr, rounds_of_error hr]
      rfl
    | ok place =>
      rw [visitRoot_of_ok hr, rounds_of_ok hr, List.flatMap_cons, List.flatMap_append,
        reports_stops]
      rfl

/-- All reports are made at the stops of a run. -/
theorem reports_course (lib : PatternLibrary) (walk : Walker) (cfg : Config) (cwd : Place)
    (t : FileTree) :
    (runWith lib walk cfg cwd t).1.reports =
      (course lib walk cfg cwd t).flatMap (Stop.reports cfg (outPlace? cfg cwd t)) := by
  rw [runWith, course, turns]
  cases readExcludes lib cfg.excludes with
  | error fault => rfl
  | ok isExcluded =>
    simp only [outPlace?]
    cases ho : openOutDir cfg cwd t with
    | mk r u =>
      cases r with
      | error fault => rfl
      | ok out => exact reports_rounds cfg.roots

theorem place_stops (vs : List Visit) (p : Place) :
    p ∈ (stops cfg out root s vs).map Stop.place ↔ .file p ∈ vs := by
  induction vs generalizing s with
  | nil => exact ⟨nofun, nofun⟩
  | cons v vs ih =>
    cases v with
    | fault fault => simp [stops, ih]
    | file q => simp [stops, ih]

private theorem sweepVisits_eq_rounds (rs : List Path) :
    sweepVisits walk cfg isExcluded out cwd s rs =
      (rounds walk cfg isExcluded out cwd s rs).flatMap Round.visits := by
  induction rs generalizing s with
  | nil => rfl
  | cons r rs ih =>
    rw [sweepVisits, ih, rounds, rootVisits]
    cases s.tree.resolve cwd r <;> rfl

theorem visited_eq_turns (lib : PatternLibrary) (walk : Walker) (cfg : Config) (cwd : Place)
    (t : FileTree) :
    visited lib walk cfg cwd t = (turns lib walk cfg cwd t).flatMap Round.visits := by
  rw [visited, turns]
  cases readExcludes lib cfg.excludes with
  | error fault => rfl
  | ok isExcluded =>
    simp only
    cases openOutDir cfg cwd t with
    | mk r u =>
      cases r with
      | error fault => rfl
      | ok out => exact sweepVisits_eq_rounds cfg.roots

private theorem openOutDir_of_none (ho : cfg.outDir = none) (cwd : Place) (t : FileTree) :
    openOutDir cfg cwd t = (.ok none, t) := by
  unfold openOutDir
  rw [ho]
  cases cfg.check <;> rfl

theorem turns_of_excludes (walk : Walker) (cfg : Config) (cwd : Place) (t : FileTree)
    (hx : readExcludes lib cfg.excludes = .ok isExcluded) (ho : cfg.outDir = none) :
    turns lib walk cfg cwd t = rounds walk cfg isExcluded none cwd { tree := t } cfg.roots := by
  rw [turns, hx]
  simp only [openOutDir_of_none ho]

theorem visited_of_excludes (walk : Walker) (cfg : Config) (cwd : Place) (t : FileTree)
    (hx : readExcludes lib cfg.excludes = .ok isExcluded) (ho : cfg.outDir = none) :
    visited lib walk cfg cwd t =
      sweepVisits walk cfg isExcluded none cwd { tree := t } cfg.roots := by
  rw [visited, hx]
  simp only [openOutDir_of_none ho]

theorem runWith_of_excludes (walk : Walker) (cfg : Config) (cwd : Place) (t : FileTree)
    (hx : readExcludes lib cfg.excludes = .ok isExcluded) (ho : cfg.outDir = none) :
    runWith lib walk cfg cwd t =
      (.swept (sweep walk cfg isExcluded none cwd { tree := t } cfg.roots).2,
        (sweep walk cfg isExcluded none cwd { tree := t } cfg.roots).1.tree) := by
  rw [runWith, hx]
  simp only [openOutDir_of_none ho]

/-- A run comes to just the files that its walks deliver. -/
theorem place_course (lib : PatternLibrary) (walk : Walker) (cfg : Config) (cwd : Place)
    (t : FileTree) (p : Place) :
    p ∈ (course lib walk cfg cwd t).map Stop.place ↔ .file p ∈ visited lib walk cfg cwd t := by
  rw [visited_eq_turns, course, List.map_flatMap, List.mem_flatMap, List.mem_flatMap]
  simp only [Round.stops, place_stops]

/-- A run depends on what it is asked only through how it walks and what it does with a file. -/
theorem sweep_congr {cfg' : Config} (hwalk : walkOptions cfg' = walkOptions cfg)
    (hvisit : ∀ root s p, visitFile cfg' out root s p = visitFile cfg out root s p)
    (rs : List Path) :
    sweep walk cfg' isExcluded out cwd s rs = sweep walk cfg isExcluded out cwd s rs := by
  have hall (root : Place) (s : State) (w : Walking) :
      attend cfg' out root s w = attend cfg out root s w := by
    induction w generalizing s with
    | ended => rfl
    | item v next ih =>
      have hv : visit cfg' out root s v = visit cfg out root s v := by
        cases v with
        | fault fault => rfl
        | file p => exact hvisit root s p
      rw [attend, attend, hv, ih]
  induction rs generalizing s with
  | nil => rfl
  | cons r rs ih =>
    have hroot : visitRoot walk cfg' isExcluded out cwd s r =
        visitRoot walk cfg isExcluded out cwd s r := by
      simp only [visitRoot, hwalk, hall]
    rw [sweep, sweep, hroot, ih]

/-! An invariant of the states, together with what a walk gives as long as it holds. -/

section
variable {step : FileTree → FileTree → Prop} {right : FileTree → Visit → Prop} {good : State → Prop}
  (hvisit : ∀ s v, good s → right s.tree v →
    good (visit cfg out root s v).1 ∧ step s.tree (visit cfg out root s v).1.tree)
include hvisit

theorem visitAll_good (hs : good s) (hw : w.Always step right s.tree) :
    good (visitAll cfg out root s (delivered cfg out root s w)).1 := by
  induction w generalizing s with
  | ended => exact hs
  | item v next ih =>
    obtain ⟨hnow, hstep⟩ := hvisit s v hs hw.1
    exact ih _ hnow (hw.2 _ hstep)

theorem gives_delivered (hs : good s) (hw : w.Always step right s.tree) :
    w.Gives step s.tree (delivered cfg out root s w) := by
  induction w generalizing s with
  | ended => exact .ended s.tree
  | item v next ih =>
    obtain ⟨hnow, hstep⟩ := hvisit s v hs hw.1
    exact .item hstep (ih _ hnow (hw.2 _ hstep))

theorem stops_good (hs : good s) (hw : w.Always step right s.tree) :
    ∀ a ∈ stops cfg out root s (delivered cfg out root s w),
      a.root = root ∧ good a.state ∧ right a.state.tree (.file a.place) := by
  induction w generalizing s with
  | ended => nofun
  | item v next ih =>
    obtain ⟨hnow, hstep⟩ := hvisit s v hs hw.1
    have hlater := ih _ hnow (hw.2 _ hstep)
    cases v with
    | fault fault => exact hlater
    | file p => exact List.forall_mem_cons.mpr ⟨⟨rfl, hs, hw.1⟩, hlater⟩

end

end Unstamp.Run
