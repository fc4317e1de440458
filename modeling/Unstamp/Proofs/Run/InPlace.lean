import Unstamp.Proofs.Cleaner.Repeated
import Unstamp.Proofs.Run.Course
import Unstamp.Proofs.Walk.Links

namespace Unstamp

namespace Cleaner
variable {c : Cleaner} {t : FileTree} {p : Place} {data after : Bytes} {outcome : Outcome}
  {locked : Bool}

def inPlace (c : Cleaner) (locked : Bool) (p : Place) (data : Bytes) : Bytes :=
  if Path.maxPath < p.path.length ∨ locked = true then data
  else
    match c.cleanBytes data with
    | .ok (_, after) => after
    | .error _ => data

theorem inPlace_of_cleaned (hlen : p.path.length ≤ Path.maxPath)
    (h : c.cleanBytes data = .ok (outcome, after)) :
    c.inPlace locked p data = if locked then data else after := by
  have hshort := Nat.not_lt.mpr hlen
  cases locked <;> simp [inPlace, hshort, h]

theorem inPlace_of_unchanged (h : c.cleanBytes data = .ok (outcome, data)) :
    c.inPlace locked p data = data := by
  rw [inPlace, h]
  exact ite_self _

theorem inPlace_inPlace (c : Cleaner) (locked : Bool) (p : Place) (data : Bytes) :
    c.inPlace locked p (c.inPlace locked p data) = c.inPlace locked p data := by
  by_cases hstop : Path.maxPath < p.path.length ∨ locked = true
  · simp only [inPlace, if_pos hstop]
  · cases hc : c.cleanBytes data with
    | error fault => simp only [inPlace, if_neg hstop, hc]
    | ok r =>
      obtain ⟨_, hagain⟩ := cleanBytes_again hc
      simp only [inPlace, if_neg hstop, hc, hagain]

theorem load_path (ht : t.WellFormed) (hp : t.get? p = some (.file data)) :
    c.load t [] p.path =
      if Path.maxPath < p.path.length then .error (.io p.path (.os .nameTooLong))
      else
        match c.cleanBytes data with
        | .error fault => .error (fault.atPath p.path)
        | .ok (outcome, after) => .ok ⟨data, after, outcome⟩ := by
  rw [load, ht.read_path hp]
  by_cases hlen : Path.maxPath < p.path.length
  · simp only [if_pos hlen]
  · cases hc : c.cleanBytes data with
    | error fault => simp only [if_neg hlen, hc]
    | ok r => simp only [if_neg hlen, hc]

end Cleaner

def Config.inPlace (cfg : Config) (locked : Bool) (p : Place) (data : Bytes) : Bytes :=
  match Selection.cleanerFor? cfg.charset cfg.policy p.path with
  | none => data
  | some c => c.inPlace locked p data

theorem Config.inPlace_of_cleaner {cfg : Config} {p : Place} {c : Cleaner}
    (hs : Selection.cleanerFor? cfg.charset cfg.policy p.path = some c) (locked : Bool)
    (data : Bytes) : cfg.inPlace locked p data = c.inPlace locked p data := by
  rw [inPlace, hs]

private theorem Config.inPlace_inPlace (cfg : Config) (locked : Bool) (p : Place) (data : Bytes) :
    cfg.inPlace locked p (cfg.inPlace locked p data) = cfg.inPlace locked p data := by
  unfold inPlace
  split
  · rfl
  · exact Cleaner.inPlace_inPlace _ locked p data

namespace Run
variable {lib : PatternLibrary} {walk : Walker} {cfg : Config} {isExcluded : Text → Bool}
  {cwd root : Place} {s : State} {t u w : FileTree} {vs ws : List Visit} {p : Place} {data : Bytes}

/-- One tree comes of another by visits in place. -/
structure Cleans (cfg : Config) (vs : List Visit) (t u : FileTree) : Prop where
  visited : ∀ {p}, .file p ∈ vs →
    ∃ data, t.get? p = some (.file data) ∧
      u.get? p = some (.file (cfg.inPlace (t.isLocked p) p data))
  other : ∀ {p}, .file p ∉ vs → u.get? p = t.get? p
  locked : u.locked = t.locked

namespace Cleans

theorem isLocked (h : Cleans cfg vs t u) (p : Place) : u.isLocked p = t.isLocked p := by
  rw [FileTree.isLocked, FileTree.isLocked, h.locked]

theorem refl (cfg : Config) (t : FileTree) : Cleans cfg [] t t :=
  ⟨nofun, fun _ => rfl, rfl⟩

theorem trans (h : Cleans cfg vs t u) (h' : Cleans cfg ws u w) : Cleans cfg (vs ++ ws) t w := by
  refine ⟨fun {p} hp => ?_, fun {p} hp => ?_, h'.locked.trans h.locked⟩
  · by_cases hw : .file p ∈ ws
    · obtain ⟨data', hu, hd'⟩ := h'.visited hw
      rw [h.isLocked] at hd'
      by_cases hv : .file p ∈ vs
      · -- The later visit finds what the earlier one left, and leaves it so.
        obtain ⟨data, hd, hu'⟩ := h.visited hv
        cases hu.symm.trans hu'
        rw [cfg.inPlace_inPlace] at hd'
        exact ⟨data, hd, hd'⟩
      · exact ⟨data', (h.other hv).symm.trans hu, hd'⟩
    · obtain ⟨data, hd, hu⟩ := h.visited ((List.mem_append.mp hp).resolve_right hw)
      exact ⟨data, hd, (h'.other hw).trans hu⟩
  · obtain ⟨hv, hw⟩ := not_or.mp (mt List.mem_append.mpr hp)
    exact (h'.other hw).trans (h.other hv)

theorem sameShape (h : Cleans cfg vs t u) : t.SameShape u := by
  intro p
  by_cases hp : .file p ∈ vs
  · obtain ⟨data, ht, hu⟩ := h.visited hp
    exact .inr ⟨data, _, ht, hu⟩
  · exact .inl (h.other hp).symm

theorem fault (cfg : Config) (t : FileTree) (fault : WalkFault) :
    Cleans cfg [.fault fault] t t := by
  refine ⟨fun {p} hp => ?_, fun _ => rfl, rfl⟩
  cases List.mem_singleton.mp hp

theorem unchanged (hp : t.get? p = some (.file data))
    (hd : cfg.inPlace (t.isLocked p) p data = data) : Cleans cfg [.file p] t t := by
  refine ⟨fun {q} hq => ?_, fun _ => rfl, rfl⟩
  cases List.mem_singleton.mp hq
  exact ⟨data, hp, hd.symm ▸ hp⟩

theorem set (hp : t.get? p = some (.file data)) :
    Cleans cfg [.file p] t (t.set p (.file (cfg.inPlace (t.isLocked p) p data))) := by
  have hne : p ≠ [] := by
    rintro rfl
    cases hp
  refine ⟨fun {q} hq => ?_, fun {q} hq => ?_, rfl⟩
  · cases List.mem_singleton.mp hq
    exact ⟨data, hp, t.get?_set_self _ hne⟩
  · refine t.get?_set_of_ne _ ?_
    rintro rfl
    exact hq (List.mem_singleton.mpr rfl)

end Cleans

/-- A file that can be cleaned has its form written into it, unless this makes no difference or the
run only checks. -/
theorem cleanFile_of_cleaned (check : Bool) {c : Cleaner} (file : Text) (ht : t.WellFormed)
    (hp : t.get? p = some (.file data)) (hlen : p.path.length ≤ Path.maxPath) {outcome : Outcome}
    {after : Bytes} (hc : c.cleanBytes data = .ok (outcome, after))
    (hw : check = true ∨ after = data ∨ t.isLocked p = false) :
    cleanFile check t c file p none =
      (if check ∨ after = data then t else t.set p (.file after),
        reportEvents file c ⟨data, after, outcome⟩) := by
  rw [cleanFile, Cleaner.load_path ht hp, if_neg (Nat.not_lt.mpr hlen), hc]
  cases check with
  | true => simp [put]
  | false =>
    by_cases hd : after = data
    · simp [put, Cleaned.changed, hd]
    · have hfree := (hw.resolve_left Bool.false_ne_true).resolve_left hd
      simp [put, Cleaned.changed, hd, Cleaner.store, ht.write_path hp, Nat.not_lt.mpr hlen, hfree,
        Except.mapError]

theorem cleanFile_of_locked {c : Cleaner} (file : Text) (ht : t.WellFormed)
    (hp : t.get? p = some (.file data)) (hlen : p.path.length ≤ Path.maxPath) {outcome : Outcome}
    {after : Bytes} (hc : c.cleanBytes data = .ok (outcome, after)) (hd : after ≠ data)
    (hlock : t.isLocked p = true) :
    cleanFile false t c file p none =
      (t, [.notice (.notCleaned file (.clean (.io p.path (.os .denied))))]) := by
  rw [cleanFile, Cleaner.load_path ht hp, if_neg (Nat.not_lt.mpr hlen), hc]
  simp [put, Cleaned.changed, hd, Cleaner.store, ht.write_path hp, Nat.not_lt.mpr hlen, hlock,
    Except.mapError]

/-- A file is left as it is with a notice, or it can be cleaned. -/
theorem cleanFile_cases (check : Bool) (c : Cleaner) (file : Text) (ht : t.WellFormed)
    (hp : t.get? p = some (.file data)) :
    (∃ fault, (∀ locked, c.inPlace locked p data = data) ∧
      cleanFile check t c file p none = (t, [.notice (.notCleaned file (.clean fault))])) ∨
    ∃ outcome after, p.path.length ≤ Path.maxPath ∧ c.cleanBytes data = .ok (outcome, after) := by
  by_cases hlen : Path.maxPath < p.path.length
  · refine .inl ⟨.io p.path (.os .nameTooLong), fun _ => if_pos (.inl hlen), ?_⟩
    rw [cleanFile, Cleaner.load_path ht hp, if_pos hlen]
  · cases hc : c.cleanBytes data with
    | error fault =>
      refine .inl ⟨fault.atPath p.path, fun locked => ?_, ?_⟩
      · rw [Cleaner.inPlace, hc]
        exact ite_self _
      · rw [cleanFile, Cleaner.load_path ht hp, if_neg hlen, hc]
    | ok r => exact .inr ⟨r.1, r.2, Nat.not_lt.mp hlen, rfl⟩

theorem visitFile_cleans (hc : cfg.check = false) (ht : s.tree.WellFormed)
    (hp : s.tree.get? p = some (.file data)) :
    Cleans cfg [.file p] s.tree (visitFile cfg none root s p).1.tree := by
  rw [visitFile, hc]
  cases hs : Selection.cleanerFor? cfg.charset cfg.policy p.path with
  | none =>
    refine .unchanged hp ?_
    rw [Config.inPlace, hs]
  | some c =>
    have hi := Config.inPlace_of_cleaner hs (s.tree.isLocked p) data
    rcases cleanFile_cases false c (Path.display root.path p.path) ht hp with
      ⟨fault, hd, he⟩ | ⟨outcome, after, hlen, hd⟩
    · simp only [he]
      exact .unchanged hp (hi.trans (hd _))
    · rw [Cleaner.inPlace_of_cleaned hlen hd] at hi
      by_cases hsame : after = data
      · simp only [cleanFile_of_cleaned false _ ht hp hlen hd (.inr (.inl hsame)), hsame, or_true,
          if_true]
        exact .unchanged hp (hi.trans (by rw [hsame, ite_self]))
      · cases hlock : s.tree.isLocked p with
        | true =>
          simp only [cleanFile_of_locked _ ht hp hlen hd hsame hlock]
          exact .unchanged hp (hi.trans (if_pos hlock))
        | false =>
          rw [if_neg (Bool.eq_false_iff.mp hlock)] at hi
          have hdone := cleanFile_of_cleaned false (Path.display root.path p.path) ht hp hlen hd
            (.inr (.inr hlock))
          rw [if_neg (not_or.mpr ⟨Bool.false_ne_true, hsame⟩), ← hi] at hdone
          simp only [hdone]
          exact .set hp

theorem visit_cleans (hc : cfg.check = false) (ht : s.tree.WellFormed) {v : Visit}
    (hv : Visit.OfFiles s.tree [v]) :
    Cleans cfg [v] s.tree (visit cfg none root s v).1.tree := by
  cases v with
  | fault fault => exact .fault cfg s.tree fault
  | file p =>
    obtain ⟨data, hp⟩ := hv p (List.mem_singleton.mpr rfl)
    exact visitFile_cleans hc ht hp

theorem visitAll_cleans (hc : cfg.check = false) (ht : s.tree.WellFormed)
    (hv : Visit.OfFiles s.tree vs) :
    Cleans cfg vs s.tree (visitAll cfg none root s vs).1.tree := by
  induction vs generalizing s with
  | nil => exact .refl cfg s.tree
  | cons v vs ih =>
    have hnow : Cleans cfg [v] s.tree (visit cfg none root s v).1.tree :=
      visit_cleans hc ht hv.head
    exact hnow.trans (ih (hnow.sameShape.wellFormed ht) (hv.tail.sameShape hnow.sameShape))

/-- The files given stood in the tree from the start. -/
theorem ofFiles_given (hw : walk.VisitsFiles) (hc : cfg.check = false)
    (hl : cfg.followLinks = false) (ht : s.tree.WellFormed) (hr : s.tree.Holds root) :
    Visit.OfFiles s.tree (given walk cfg isExcluded none root s) := by
  let good (s' : State) : Prop := s'.tree.WellFormed ∧ s.tree.SameShape s'.tree
  have hstops := @stops_good _ _ _ _ _ _ _ good
    (fun s' v hs hv => by
      have hnow : Cleans cfg [v] s'.tree (visit cfg none root s' v).1.tree :=
        visit_cleans hc hs.1 hv
      have hshape := hnow.sameShape
      exact ⟨⟨hshape.wellFormed hs.1, hs.2.trans hshape⟩, hshape⟩)
    ⟨ht, fun _ => .inl rfl⟩ (hw (walkOptions cfg isExcluded none root) root s.tree hl ht hr)
  intro p hp
  obtain ⟨a, ha, rfl⟩ := List.mem_map.mp ((place_stops _ p).mpr hp)
  obtain ⟨-, ⟨-, hshape⟩, hfile⟩ := hstops a ha
  exact (hfile.sameShape hshape.symm) a.place (List.mem_singleton.mpr rfl)

theorem visitRoot_cleans (hw : walk.VisitsFiles) (hc : cfg.check = false)
    (hl : cfg.followLinks = false) (ht : s.tree.WellFormed) (r : Path) :
    Cleans cfg (rootVisits walk cfg isExcluded none cwd s r) s.tree
      (visitRoot walk cfg isExcluded none cwd s r).1.tree := by
  rw [rootVisits]
  cases hr : s.tree.resolve cwd r with
  | error fault =>
    rw [visitRoot_of_error hr]
    exact .refl cfg s.tree
  | ok place =>
    rw [visitRoot_of_ok hr]
    exact visitAll_cleans hc ht (ofFiles_given hw hc hl ht (ht.holds_of_resolve hr))

theorem sweep_cleans (hw : walk.VisitsFiles) (hc : cfg.check = false)
    (hl : cfg.followLinks = false) (ht : s.tree.WellFormed) (rs : List Path) :
    Cleans cfg (sweepVisits walk cfg isExcluded none cwd s rs) s.tree
      (sweep walk cfg isExcluded none cwd s rs).1.tree := by
  induction rs generalizing s with
  | nil => exact .refl cfg s.tree
  | cons r rs ih =>
    have hnow : Cleans cfg (rootVisits walk cfg isExcluded none cwd s r) s.tree
        (visitRoot walk cfg isExcluded none cwd s r).1.tree := visitRoot_cleans hw hc hl ht r
    exact hnow.trans (ih (hnow.sameShape.wellFormed ht))

theorem runWith_cleans (hw : walk.VisitsFiles) (hc : cfg.check = false) (ho : cfg.outDir = none)
    (hl : cfg.followLinks = false) (ht : t.WellFormed) (cwd : Place) :
    Cleans cfg (visited lib walk cfg cwd t) t (runWith lib walk cfg cwd t).2 := by
  cases hx : readExcludes lib cfg.excludes with
  | error fault =>
    rw [visited, runWith, hx]
    exact .refl cfg t
  | ok isExcluded =>
    rw [visited_of_excludes walk cfg cwd t hx ho, runWith_of_excludes walk cfg cwd t hx ho]
    exact sweep_cleans hw hc hl ht cfg.roots

/-- After a run in place, whatever it answers, a file that was visited and has a cleaner holds what
the cleaner made of the bytes that the file had before the run, or these if that failed or the file
could not be written. All else is as it was. -/
theorem runWith_in_place (lib : PatternLibrary) (hw : walk.VisitsFiles) (hc : cfg.check = false)
    (ho : cfg.outDir = none) (hl : cfg.followLinks = false) (ht : t.WellFormed) (cwd : Place) :
    (∀ p c, .file p ∈ visited lib walk cfg cwd t →
      Selection.cleanerFor? cfg.charset cfg.policy p.path = some c →
        ∃ data, t.get? p = some (.file data) ∧
          (runWith lib walk cfg cwd t).2.get? p =
            some (.file (c.inPlace (t.isLocked p) p data))) ∧
    (∀ p, (.file p ∈ visited lib walk cfg cwd t →
      Selection.cleanerFor? cfg.charset cfg.policy p.path = none) →
        (runWith lib walk cfg cwd t).2.get? p = t.get? p) ∧
    (runWith lib walk cfg cwd t).2.locked = t.locked := by
  have hrun : Cleans cfg (visited lib walk cfg cwd t) t (runWith lib walk cfg cwd t).2 :=
    runWith_cleans hw hc ho hl ht cwd
  refine ⟨fun p c hp hs => ?_, fun p hs => ?_, hrun.locked⟩
  · obtain ⟨data, hd, hu⟩ := hrun.visited hp
    rw [Config.inPlace, hs] at hu
    exact ⟨data, hd, hu⟩
  · by_cases hp : .file p ∈ visited lib walk cfg cwd t
    · obtain ⟨data, hd, hu⟩ := hrun.visited hp
      rw [Config.inPlace, hs hp] at hu
      exact hu.trans hd.symm
    · exact hrun.other hp

/-- A root given twice, a file in it, and one that is missing, so that the run fails. -/
theorem runWith_in_place_repeated_root :
    let dir : Place := [[0x61]]
    let pom : Place := dir ++ [Utf8.encode Selection.propertiesName]
    let t : FileTree := { entries := [(dir, .dir), (pom, .file [0x23, 0x0A, 0x63])] }
    let cfg : Config := {
      roots := [dir.path, Place.path [[0x62]], pom.path, dir.path]
      useIgnoreFiles := false }
    let u := (runWith Glob.library Walk.sorted cfg [] t).2
    Walk.sorted.VisitsFiles ∧ t.WellFormed ∧ u.get? pom = some (.file [0x63, 0x0A]) ∧
      u.get? dir = some .dir := by
  intro dir pom t cfg u
  let c : Cleaner := .lines {}
  have hw : Walk.sorted.VisitsFiles := (Walk.arranged_faithful id).visitsFiles
  have ht : t.WellFormed := FileTree.wellFormed_of_entries (by decide +kernel)
  have hv : .file pom ∈ visited Glob.library Walk.sorted cfg [] t := by
    have hdir : Walk.sorted (walkOptions cfg (fun _ => false) none dir) dir t =
        .item (.file pom) fun _ => .ended :=
      Walk.arranged_of_lone_file (by decide) rfl (by decide +kernel) (by decide +kernel)
    rw [visited_of_excludes Walk.sorted cfg [] t rfl rfl]
    apply List.mem_append_left
    rw [rootVisits, ht.resolve_path (e := .dir) rfl (by simp) (by decide)]
    simp only [given, hdir]
    exact List.mem_cons_self
  have hi : c.inPlace false pom [0x23, 0x0A, 0x63] = [0x63, 0x0A] := by decide +kernel
  obtain ⟨hfile, hother, -⟩ := @runWith_in_place Walk.sorted cfg t Glob.library hw rfl rfl rfl ht []
  obtain ⟨data, hd, hu⟩ := hfile pom c hv (by decide +kernel)
  cases hd
  exact ⟨hw, ht, hi ▸ hu, hother dir fun _ => by decide +kernel⟩

end Run

end Unstamp
