import Mathlib
import Unstamp.Proofs.Run.Order

namespace Unstamp.Run
open FileTree
variable {lib : PatternLibrary} {walk : Walker} {cfg : Config} {isExcluded : Text → Bool}
  {out cwd root p d : Place} {s s' : State} {t u base : FileTree} {data : Bytes} {as bs : List Stop}
  {a b : Stop}

namespace Stop

def output? (out : Option Place) (a : Stop) : Option Place :=
  out.map fun out => destination out a.root a.place

def isRival (cfg : Config) (out : Option Place) (a b : Stop) : Bool :=
  (b.cleaner? cfg).isSome && b.output? out == a.output? out

/-- The first of some files that asks for the same output. -/
def rival? (cfg : Config) (out : Option Place) (before : List Stop) (a : Stop) : Option Stop :=
  before.find? (a.isRival cfg out)

end Stop

/-- A report is true of two trees, one from before the run and one from after it: it tells what the
cleaner makes of the bytes that the file had before, and this stands at the output after. -/
def Delivers (cfg : Config) (out : Option Place) (t u : FileTree) (a : Stop) (r : Report) : Prop :=
  ∃ c data outcome after dest, a.cleaner? cfg = some c ∧ t.get? a.place = some (.file data) ∧
    c.cleanBytes data = .ok (outcome, after) ∧
    r = ⟨a.name, c.name, outcome, after != data⟩ ∧
    a.output? out = some dest ∧ u.get? dest = some (.file after)

theorem Comes.reports {done : State × List Event} (h : Comes cfg out root s p data done) :
    (Result.swept done.2).reports = [] ∨
      ∃ c outcome after, Selection.cleanerFor? cfg.charset cfg.policy p.path = some c ∧
        s.claimed.lookup (destination out root p) = none ∧
        c.cleanBytes data = .ok (outcome, after) ∧
        done.1.tree.get? (destination out root p) = some (.file after) ∧
        (Result.swept done.2).reports =
          [⟨Path.display root.path p.path, c.name, outcome, after != data⟩] := by
  cases h with
  | passed | clashed | failed => exact .inl rfl
  | put hc hl _ _ hb hd => exact .inr ⟨_, _, _, hc, hl, hb, hd, reports_reportEvents _ _ _⟩

private theorem claim?_self {c : Cleaner}
    (hc : Selection.cleanerFor? cfg.charset cfg.policy p.path = some c) :
    claim? cfg out root p (destination out root p) = some (Path.display root.path p.path) := by
  rw [claim?, hc]
  exact if_pos ⟨rfl, rfl⟩

theorem isRival_iff : a.isRival cfg (some out) b = true ↔
    (b.cleaner? cfg).isSome = true ∧
      destination out a.root a.place = destination out b.root b.place := by
  rw [Stop.isRival, Bool.and_eq_true, beq_iff_eq, Stop.output?, Stop.output?, Option.map_some,
    Option.map_some, Option.some_inj, eq_comm (a := destination out b.root b.place)]

/-- Who has claimed an output is the first who asked for it. -/
private theorem findSome?_claim? (before : List Stop) (a : Stop) :
    before.findSome? (fun b => claim? cfg out b.root b.place (destination out a.root a.place)) =
      (a.rival? cfg (some out) before).map Stop.name := by
  rw [Stop.rival?]
  induction before with
  | nil => rfl
  | cons b bs ih =>
    rw [List.findSome?_cons, ih]
    by_cases h : (b.cleaner? cfg).isSome = true ∧
        destination out a.root a.place = destination out b.root b.place
    · rw [List.find?_cons_of_pos (isRival_iff.mpr h), claim?]
      simp only [Stop.cleaner?] at h
      rw [if_pos h]
      rfl
    · rw [List.find?_cons_of_neg (mt isRival_iff.mp h), claim?]
      simp only [Stop.cleaner?] at h
      rw [if_neg h]

section
variable (h : Chain cfg (some out) s as s') (hc : cfg.check = false) (hs : Running cfg base out s)
  (hp : ∀ a ∈ as, Source base out a.root a.place)
include h hc hs hp

/-- What is reported at a stop stands at its output when the run ends. -/
private theorem Chain.delivers (ha : a ∈ as) :
    a.reports cfg (some out) = [] ∨
      ∃ r, a.reports cfg (some out) = [r] ∧ Delivers cfg (some out) base s'.tree a r := by
  obtain ⟨before, after, rfl⟩ := List.append_of_mem ha
  have hsrc := hp a ha
  have hrun := (h.running hc hs hp).2 a ha
  obtain ⟨-, hlater⟩ := h.split
  obtain ⟨data, hd⟩ := hrun.file hsrc
  have hnow := visitFile_comes hc hrun hsrc hd
  rcases hnow.reports with hnone | ⟨c, outcome, cleaned, hsel, -, hb, hput, hone⟩
  · exact .inl hnone
  · refine .inr ⟨_, hone, c, data, outcome, cleaned, _, hsel, ?_, hb, rfl, rfl, ?_⟩
    · rw [← hrun.outside hsrc.outside, hd]
    · refine hlater.keeps hc (visitFile_running hc hrun hsrc)
        (fun b hb => hp b (List.mem_append_right before (List.mem_cons_of_mem a hb))) hput ?_
      rw [Stop.effect, hnow.lookup, claim?_self hsel, Option.isSome_or]
      exact Bool.or_true _

/-- No output is reported twice. -/
private theorem Chain.outputs_ne :
    as.Pairwise fun a b => a.reports cfg (some out) ≠ [] → b.reports cfg (some out) ≠ [] →
      a.output? (some out) ≠ b.output? (some out) := by
  have hclaimed {a : Stop} (hrun : Running cfg base out a.state)
      (hsrc : Source base out a.root a.place)
      (hr : a.reports cfg (some out) ≠ []) :
      a.state.claimed.lookup (destination out a.root a.place) = none ∧
        claim? cfg out a.root a.place (destination out a.root a.place) = some a.name := by
    obtain ⟨data, hd⟩ := hrun.file hsrc
    rcases (visitFile_comes hc hrun hsrc hd).reports with hnone | ⟨c, _, _, hsel, hl, -⟩
    · exact absurd hnone hr
    · exact ⟨hl, claim?_self hsel⟩
  induction h with
  | nil => exact .nil
  | @cons a as s' h ih =>
    obtain ⟨ha, has⟩ := List.forall_mem_cons.mp hp
    have hnext := visitFile_running hc hs ha
    refine .cons (fun b hb hra hrb he => ?_) (ih hnext has)
    have hbrun := (h.running hc hnext has).2 b hb
    obtain ⟨before, after, rfl⟩ := List.append_of_mem hb
    have hlookup := h.split.1.lookup hc hnext
      (fun c hc => has c (List.mem_append_left _ hc)) (destination out b.root b.place)
    obtain ⟨data, hd⟩ := hs.file ha
    have hsame : destination out a.root a.place = destination out b.root b.place :=
      Option.some_inj.mp he
    -- The later file would have found its output unclaimed, though the earlier one claimed it.
    rw [(hclaimed hbrun (has b hb) hrb).1, Stop.effect, (visitFile_comes hc hs ha hd).lookup,
      ← hsame, (hclaimed hs ha hra).2, Option.or_some, Option.some_or] at hlookup
    cases hlookup

/-- A file is cleaned if no file before it has asked for its output. -/
theorem Chain.effect {before after : List Stop} (has : as = before ++ a :: after)
    (hempty : s.claimed = []) {c : Cleaner} (hsel : a.cleaner? cfg = some c) :
    ∃ dest, a.output? (some out) = some dest ∧
      a.effect cfg (some out) =
        match a.rival? cfg (some out) before with
        | some b => (a.state, [.notice (.clash a.name (Place.path dest) b.name)])
        | none =>
          let done := cleanFile false a.state.tree c a.name a.place (some dest)
          (⟨done.1, (dest, a.name) :: a.state.claimed⟩, done.2) := by
  subst has
  have hlookup := h.split.1.lookup hc hs (fun b hb => hp b (List.mem_append_left _ hb))
    (destination out a.root a.place)
  rw [hempty, List.lookup_nil, Option.none_or, findSome?_claim?] at hlookup
  refine ⟨_, rfl, ?_⟩
  rw [destination] at hlookup
  rw [Stop.effect, visitFile, ← Stop.cleaner?, hsel, hc]
  simp only [hlookup]
  cases a.rival? cfg (some out) before <;> rfl

end

private theorem Delivers.of_grown {out? : Option Place} {r : Report} (h : Delivers cfg out? u t a r)
    (hu : base.Grown u) : Delivers cfg out? base t a r := by
  obtain ⟨c, data, outcome, after, dest, hc, hd, hrest⟩ := h
  exact ⟨c, data, outcome, after, dest, hc, hu.eq_of_ne_dir hd nofun, hrest⟩

/-- A run whose output directory could not be opened, or that was refused before. -/
private theorem runWith_refused (lib : PatternLibrary) (hc : cfg.check = false) {dir : Path}
    (hd : cfg.outDir = some dir)
    (ht : t.WellFormed) (cwd : Place) :
    (∃ isExcluded out u, readExcludes lib cfg.excludes = .ok isExcluded ∧
      openOutDir cfg cwd t = (.ok (some out), u)) ∨
    ∀ walk, turns lib walk cfg cwd t = [] ∧ t.Grown (runWith lib walk cfg cwd t).2 ∧
      ∀ walk', (runWith lib walk' cfg cwd t).2 = (runWith lib walk cfg cwd t).2 := by
  cases hx : readExcludes lib cfg.excludes with
  | error fault =>
    refine .inr fun walk => ?_
    simp only [turns, runWith, hx]
    exact ⟨trivial, .refl t, fun _ => trivial⟩
  | ok isExcluded =>
    cases ho : openOutDir cfg cwd t with
    | mk r u =>
      cases r with
      | error fault =>
        refine .inr fun walk => ?_
        have hgrown := (openOutDir_grown ht cfg cwd).1
        rw [ho] at hgrown
        simp only [turns, runWith, hx, ho]
        exact ⟨trivial, hgrown, fun _ => trivial⟩
      | ok out =>
        cases out with
        | none => exact absurd ho (openOutDir_ne_none hc hd)
        | some out => exact .inl ⟨isExcluded, out, u, rfl, rfl⟩

/-- A run into an output directory that no link stands in, with roots that lead, once the directory
is opened, to no file in it, nor nowhere with the directory on their way.

All its reports are made at the files that it comes to, at most one at each. What a report tells is
what the cleaner makes of the bytes that the file had before the run, and at the end this stands at
the output of the file. No two reports are of one output. The first file that asks for an output is
cleaned; each later one has an error and leaves the tree as it is, whatever came of the first.
Outside of the directory nothing is changed, but directories can be new, those above the output
directory. If no file with the rules of a walk leads into the directory, the order in which the walk
gives its files makes no difference to the tree. -/
theorem runWith_outDir (lib : PatternLibrary) (hw : walk.Faithful) (hc : cfg.check = false)
    (hl : cfg.followLinks = false) {dir : Path} (hd : cfg.outDir = some dir) (ht : t.WellFormed)
    (hlinks : ∀ out, outPlace? cfg cwd t = some out →
      ∀ p target, t.get? (out ++ p) ≠ some (.link target))
    (hroots : ∀ out, outPlace? cfg cwd t = some out →
      ∀ r ∈ cfg.roots, (openOutDir cfg cwd t).2.Steady out cwd r) :
    let run := runWith lib walk cfg cwd t
    let out := outPlace? cfg cwd t
    let seen := course lib walk cfg cwd t
    run.1.reports = seen.flatMap (Stop.reports cfg out) ∧
      (∀ a ∈ seen, a.reports cfg out = [] ∨
        ∃ r, a.reports cfg out = [r] ∧ Delivers cfg out t run.2 a r) ∧
      seen.Pairwise (fun a b => a.reports cfg out ≠ [] → b.reports cfg out ≠ [] →
        a.output? out ≠ b.output? out) ∧
      (∀ before a after, seen = before ++ a :: after → ∀ c, a.cleaner? cfg = some c →
        ∃ dest, a.output? out = some dest ∧
          a.effect cfg out =
            match a.rival? cfg out before with
            | some b => (a.state, [.notice (.clash a.name (Place.path dest) b.name)])
            | none =>
              let done := cleanFile false a.state.tree c a.name a.place (some dest)
              (⟨done.1, (dest, a.name) :: a.state.claimed⟩, done.2)) ∧
      (∀ p, (∀ o, out = some o → ¬ o <+: p) →
        run.2.get? p = t.get? p ∨ t.get? p = none ∧ run.2.get? p = some .dir) ∧
      (∀ rules, (∀ o, out = some o → FileTree.SteadyRules rules (openOutDir cfg cwd t).2 o) →
        ∀ walk' : Walker, walk'.Faithful → walk.SameFiles rules walk' →
          ∀ p, (runWith lib walk' cfg cwd t).2.get? p = run.2.get? p) := by
  intro run out seen
  refine ⟨reports_course lib walk cfg cwd t, ?_⟩
  rcases runWith_refused lib hc hd ht cwd with ⟨isExcluded, o, u, hx, ho⟩ | hrefused
  · obtain ⟨hrun, hturns, hout⟩ := runWith_opened walk hx ho
    have hseen : seen = (rounds walk cfg isExcluded (some o) cwd { tree := u } cfg.roots).flatMap
        (Round.stops cfg (some o)) := by
      simp only [seen, course, hturns, hout]
    obtain ⟨hgrown, hs⟩ := running_opened ht ho (hlinks o hout)
    have hsteady := hroots o hout
    rw [ho] at hsteady
    have hsources :=
      @source_of_rounds walk cfg isExcluded o cwd { tree := u } u cfg.roots hw hc hl hs hsteady
    have hchain := Chain.rounds walk cfg isExcluded (some o) cwd { tree := u } cfg.roots
    have hend := (hchain.running hc hs hsources).1
    simp only [run, out, hseen, hrun, hout]
    refine ⟨fun a ha => ?_, hchain.outputs_ne hc hs hsources,
      fun before a after has c hsel => hchain.effect hc hs hsources has rfl hsel, fun p hp => ?_,
      fun rules hrules walk' hw' hsame p => ?_⟩
    · rcases hchain.delivers hc hs hsources ha with hnone | ⟨r, hr, hdelivers⟩
      · exact .inl hnone
      · exact .inr ⟨r, hr, hdelivers.of_grown hgrown⟩
    · rw [hend.outside (hp o rfl)]
      exact hgrown p
    · have hrules := hrules o rfl
      rw [ho] at hrules
      rw [(runWith_opened walk' hx ho).1]
      exact ((sweep_alike hc hs hw hw' hsame hl (.refl _) hs.wellFormed hrules hsteady).tree.get?
        p).symm
  · -- A run that was refused comes to no file.
    obtain ⟨hturns, hgrown, hsame⟩ := hrefused walk
    have hseen : seen = [] := by
      simp only [seen, course, hturns]
      rfl
    rw [hseen]
    refine ⟨List.forall_mem_nil _, .nil, ?_, fun p _ => hgrown p, ?_⟩
    · intro before a after h
      cases before <;> cases h
    · intro _ _ walk' _ _ p
      rw [hsame walk']

/-- Two roots with a property file each, which ask for one output. The output directory is made
below the first root. A walk that goes backwards leaves the same tree. -/
theorem runWith_outDir_two_roots :
    let name : Name := Utf8.encode Selection.propertiesName
    let dir : Place := [[0x61]]
    let other : Place := [[0x62]]
    let out : Place := dir ++ [[0x6F]]
    let t : FileTree :=
      { entries := [(dir, .dir), (other, .dir), (dir ++ [name], .file [0x23, 0x0A, 0x63]),
        (other ++ [name], .file [0x64])] }
    let cfg : Config :=
      { roots := [dir.path, other.path], useIgnoreFiles := false, outDir := some out.path }
    let run := runWith Glob.library Walk.sorted cfg [] t
    Walk.sorted.Faithful ∧ t.WellFormed ∧ outPlace? cfg [] t = some out ∧
      run.1.reports.map Report.outcome = [.filtered 1 0] ∧
      run.2.get? (out ++ [name]) = some (.file [0x63, 0x0A]) ∧
      run.2.get? (other ++ [name]) = t.get? (other ++ [name]) ∧
      ∀ p, (runWith Glob.library (Walk.arranged List.reverse) cfg [] t).2.get? p =
        run.2.get? p := by
  intro name dir other out t cfg run
  let c : Cleaner := .lines {}
  let unbarred : Text → Bool := fun _ => false
  let u : FileTree := t.set out .dir
  let w : FileTree := u.set (out ++ [name]) (.file [0x63, 0x0A])
  let a : Stop := ⟨dir, dir ++ [name], { tree := u }⟩
  let b : Stop := ⟨other, other ++ [name], ⟨w, [(out ++ [name], a.name)]⟩⟩
  have hw : Walk.sorted.Faithful := Walk.arranged_faithful id
  have ht : t.WellFormed := FileTree.wellFormed_of_entries (by decide +kernel)
  have hu : u.WellFormed := FileTree.wellFormed_of_entries (by decide +kernel)
  have hwf : w.WellFormed := FileTree.wellFormed_of_entries (by decide +kernel)
  have hopen : openOutDir cfg [] t = (.ok (some out), u) := by
    simp only [cfg, t, u, out, dir, other, name]
    cbv
  obtain ⟨-, hturns, hout⟩ :=
    @runWith_opened Glob.library cfg unbarred out [] t u Walk.sorted rfl hopen
  have hsel : Selection.cleanerFor? cfg.charset cfg.policy a.place.path = some c := by
    decide +kernel
  have hsel' : b.cleaner? cfg = some c := by decide +kernel
  have hclean : c.cleanBytes [0x23, 0x0A, 0x63] = .ok (.filtered 1 0, [0x63, 0x0A]) := by
    decide +kernel
  have hput : put false u a.place (some (out ++ [name]))
      ⟨[0x23, 0x0A, 0x63], [0x63, 0x0A], .filtered 1 0⟩ = (.ok (), w) := by
    simp only [a, w, u, t, out, dir, other, name]
    cbv
  have hdone : a.effect cfg (some out) =
      (b.state, [.report ⟨a.name, c.name, .filtered 1 0, true⟩]) :=
    visitFile_of_put rfl hu hsel rfl (by decide +kernel) (by decide +kernel) hclean hput
  have hdir : u.resolve [] dir.path = .ok dir :=
    hu.resolve_path (e := .dir) rfl (by simp) (by decide)
  have hother : w.resolve [] other.path = .ok other :=
    hwf.resolve_path (e := .dir) (by decide +kernel) (by simp) (by decide)
  have hbelow : Walk.sorted (walkOptions cfg unbarred (some out) dir) dir u =
      .item (.file a.place) fun _ => .ended := by
    have hnames : id (u.names dir) = [[0x6F]] ++ [name] := by decide +kernel
    exact Walk.arranged_of_last_file (by decide +kernel) rfl hnames (by decide +kernel)
      (by decide +kernel)
  have hbelow' : Walk.sorted (walkOptions cfg unbarred (some out) other) other w =
      .item (.file b.place) fun _ => .ended :=
    Walk.arranged_of_lone_file (by decide +kernel) rfl (by decide +kernel) (by decide +kernel)
  have hnext : (visitRoot Walk.sorted cfg unbarred (some out) [] { tree := u } dir.path).1 =
      b.state := by
    simp only [visitRoot, hdir, hbelow]
    exact congrArg Prod.fst hdone
  have hrounds : turns Glob.library Walk.sorted cfg [] t =
      [⟨dir, { tree := u }, [.file a.place]⟩, ⟨other, b.state, [.file b.place]⟩] := by
    have hother' : b.state.tree.resolve [] other.path = .ok other := hother
    have hlast : Walk.sorted (walkOptions cfg unbarred (some out) other) other b.state.tree =
        .item (.file b.place) fun _ => .ended := hbelow'
    rw [hturns, show cfg.roots = [dir.path, other.path] from rfl]
    simp only [rounds, hdir, given, hbelow, hnext, hother', hlast, delivered]
  have hcourse : course Glob.library Walk.sorted cfg [] t = [a, b] := by
    rw [course, hrounds, hout]
    simp only [List.flatMap_cons, List.flatMap_nil, Round.stops, stops]
    rfl
  have hlinks : ∀ x ∈ t.entries, ∀ target, x.2 ≠ .link target := by
    simp [t]
  have hlinks' : ∀ x ∈ u.entries, ∀ target, x.2 ≠ .link target := by
    have hentries : u.entries = (out, .dir) :: t.entries := by decide +kernel
    rw [hentries]
    exact List.forall_mem_cons.mpr ⟨by simp, hlinks⟩
  have hsteady : ∀ r ∈ cfg.roots, u.Steady out [] r := by
    have hother' : u.resolve [] other.path = .ok other :=
      hu.resolve_path (e := .dir) (by decide +kernel) (by simp) (by decide)
    intro r hr
    rcases List.mem_pair.mp hr with rfl | rfl
    · rw [FileTree.Steady, hdir]
      exact fun h => absurd h (by decide)
    · rw [FileTree.Steady, hother']
      exact fun h => absurd h (by decide)
  have hrules : FileTree.SteadyRules Ignore.ruleFiles u out := fun _ _ _ _ _ =>
    .inl fun q _ => FileTree.not_link_of_entries hlinks' q
  obtain ⟨hreports, hdelivers, -, heffect, houtside, horder⟩ :=
    @runWith_outDir Walk.sorted cfg [] t Glob.library hw rfl rfl out.path rfl ht
      (fun o _ p => FileTree.not_link_of_entries hlinks (o ++ p))
      (fun o ho => by
        cases hout.symm.trans ho
        rw [hopen]
        exact hsteady)
  rw [hout, hcourse] at hreports hdelivers heffect
  have hareports : a.reports cfg (some out) = [⟨a.name, c.name, .filtered 1 0, true⟩] := by
    rw [Stop.reports, hdone]
    rfl
  have hbreports : b.reports cfg (some out) = [] := by
    obtain ⟨dest, -, he⟩ := heffect [a] b [] rfl c hsel'
    have hrival : b.rival? cfg (some out) [a] = some a :=
      List.find?_cons_of_pos (isRival_iff.mpr ⟨Option.isSome_of_eq_some hsel, rfl⟩)
    rw [Stop.reports, he, hrival]
    rfl
  refine ⟨hw, ht, hout, ?_, ?_, ?_, ?_⟩
  · simp only [run, hreports, List.flatMap_cons, List.flatMap_nil, hareports, hbreports]
    rfl
  · rcases hdelivers a List.mem_cons_self with
      hnone | ⟨_, -, c', data, _, _, _, hc', hd, hb, -, ho, hget⟩
    · rw [hareports] at hnone
      cases hnone
    · cases hsel.symm.trans hc'
      cases hd
      cases hclean.symm.trans hb
      cases ho
      exact hget
  · have hfile : t.get? (other ++ [name]) = some (.file [0x64]) := by decide +kernel
    have hout' (o : Place) (ho : outPlace? cfg [] t = some o) : ¬ o <+: other ++ [name] := by
      cases hout.symm.trans ho
      decide
    refine (houtside (other ++ [name]) hout').resolve_right ?_
    rw [hfile]
    exact fun h => by cases h.1
  · refine horder Ignore.ruleFiles (fun o ho => ?_) _ (Walk.arranged_faithful List.reverse)
      (Walk.arranged_sameFiles (fun ns => .refl ns) List.reverse_perm)
    cases hout.symm.trans ho
    rw [hopen]
    exact hrules

/-- A root that leads nowhere until the run has made a directory on its way. It then leads to a file
in the output directory, and what comes of this one is not what it had before the run. -/
theorem runWith_outDir_late_root :
    let name : Name := Utf8.encode Selection.propertiesName
    let dir : Place := [[0x73]]
    let new : Place := dir ++ [[0x6E]]
    let sub : Place := dir ++ [[0x70]]
    let out : Place := [[0x6F]]
    let old : Place := out ++ [[0x70], name]
    let t : FileTree :=
      { entries := [(dir, .dir), (new, .dir), (sub, .dir), (out, .dir), (out ++ [[0x70]], .dir),
        (new ++ [name], .file []), (sub ++ [name], .file [0x61]), (old, .file [0x78])] }
    let late : Path := Place.path (out ++ [[0x6E], [Path.dot, Path.dot], [0x70], name])
    let cfg : Config :=
      { roots := [dir.path, late], useIgnoreFiles := false, outDir := some out.path }
    let run := runWith Glob.library Walk.sorted cfg [] t
    (∀ r ∈ cfg.roots, ∀ q, t.resolve [] r = .ok q → ¬ out <+: q) ∧
      (∀ p target, t.get? p ≠ some (.link target)) ∧ outPlace? cfg [] t = some out ∧
      t.get? old = some (.file [0x78]) ∧
      run.2.get? (out ++ [name]) = some (.file [0x61, 0x0A]) ∧
      ∃ a ∈ course Glob.library Walk.sorted cfg [] t, a.place = old ∧
        ∃ r, a.reports cfg (some out) = [r] ∧ ¬ Delivers cfg (some out) t run.2 a r := by
  intro name dir new sub out old t late cfg run
  let c : Cleaner := .lines {}
  let unbarred : Text → Bool := fun _ => false
  let t₁ : FileTree := (t.set (out ++ [[0x6E]]) .dir).set (out ++ [[0x6E], name]) (.file [])
  let t₂ : FileTree := t₁.set old (.file [0x61, 0x0A])
  let t₃ : FileTree := t₂.set (out ++ [name]) (.file [0x61, 0x0A])
  have ht : t.WellFormed := FileTree.wellFormed_of_entries (by decide +kernel)
  have ht₁ : t₁.WellFormed := FileTree.wellFormed_of_entries (by decide +kernel)
  have ht₂ : t₂.WellFormed := FileTree.wellFormed_of_entries (by decide +kernel)
  have hopen : openOutDir cfg [] t = (.ok (some out), t) := by
    simp only [cfg, t, out, old, dir, new, sub, name]
    cbv
  have hlate : t.resolve [] late = .error .missing := by
    simp only [late, t, out, old, dir, new, sub, name]
    cbv
  have hlate₂ : t₂.resolve [] late = .ok old := by
    simp only [late, t₂, t₁, t, out, old, dir, new, sub, name]
    cbv
  have hput₁ : put false t (new ++ [name]) (some (out ++ [[0x6E], name])) ⟨[], [], .filtered 0 0⟩ =
      (.ok (), t₁) := by
    simp only [t₁, t, out, old, dir, new, sub, name]
    cbv
  have hput₂ : put false t₁ (sub ++ [name]) (some old) ⟨[0x61], [0x61, 0x0A], .filtered 0 0⟩ =
      (.ok (), t₂) := by
    simp only [t₂, t₁, t, out, old, dir, new, sub, name]
    cbv
  have hput₃ : put false t₂ old (some (out ++ [name])) ⟨[0x61, 0x0A], [0x61, 0x0A], .filtered 0 0⟩ =
      (.ok (), t₃) := by
    simp only [t₃, t₂, t₁, t, out, old, dir, new, sub, name]
    cbv
  have hclean₁ : c.cleanBytes [] = .ok (.filtered 0 0, []) := by decide +kernel
  have hclean₂ : c.cleanBytes [0x61] = .ok (.filtered 0 0, [0x61, 0x0A]) := by decide +kernel
  have hclean₃ : c.cleanBytes [0x61, 0x0A] = .ok (.filtered 0 0, [0x61, 0x0A]) := by
    decide +kernel
  have hclean : c.cleanBytes [0x78] = .ok (.filtered 0 0, [0x78, 0x0A]) := by decide +kernel
  let s₁ : State :=
    ⟨t₁, [(out ++ [[0x6E], name], Path.display dir.path (Place.path (new ++ [name])))]⟩
  let s₂ : State :=
    ⟨t₂, (old, Path.display dir.path (Place.path (sub ++ [name]))) :: s₁.claimed⟩
  let s₃ : State := ⟨t₃, (out ++ [name], Path.display old.path old.path) :: s₂.claimed⟩
  let report : Report := ⟨Path.display old.path old.path, c.name, .filtered 0 0, false⟩
  have hvisit₁ : (visitFile cfg (some out) dir { tree := t } (new ++ [name])).1 = s₁ := by
    rw [visitFile_of_put rfl ht (c := c) (by decide +kernel) rfl (by decide +kernel)
      (by decide +kernel) hclean₁ hput₁]
    rfl
  have hvisit₂ : (visitFile cfg (some out) dir s₁ (sub ++ [name])).1 = s₂ := by
    rw [visitFile_of_put rfl ht₁ (c := c) (by decide +kernel) (by decide +kernel)
      (by decide +kernel)
      (by decide +kernel) hclean₂ hput₂]
    rfl
  have hvisit₃ : visitFile cfg (some out) old s₂ old = (s₃, [.report report]) :=
    visitFile_of_put rfl ht₂ (c := c) (by decide +kernel) (by decide +kernel) (by decide +kernel)
      (by decide +kernel) hclean₃ hput₃
  have hdir : t.resolve [] dir.path = .ok dir :=
    ht.resolve_path (e := .dir) (by decide +kernel) (by simp) (by decide)
  obtain ⟨next, hbelow, hnext⟩ : ∃ next,
      Walk.sorted (walkOptions cfg unbarred (some out) dir) dir t =
        .item (.file (new ++ [name])) next ∧
      next t₁ = .item (.file (sub ++ [name])) fun _ => .ended :=
    Walk.arranged_of_lone_dirs (by decide +kernel) rfl (by decide +kernel)
      ⟨by decide +kernel, by decide +kernel, by decide +kernel, by decide +kernel,
        by decide +kernel⟩
      ⟨by decide +kernel, by decide +kernel, by decide +kernel, by decide +kernel,
        by decide +kernel⟩
  have hlast : Walk.sorted (walkOptions cfg unbarred (some out) old) old t₂ =
      .item (.file old) fun _ => .ended :=
    Walk.arranged_of_file (by decide +kernel)
  obtain ⟨hrun, hturns, hout⟩ :=
    @runWith_opened Glob.library cfg unbarred out [] t t Walk.sorted rfl hopen
  have hnext' : next s₁.tree = .item (.file (sub ++ [name])) fun _ => .ended := hnext
  have hfirst : (visitRoot Walk.sorted cfg unbarred (some out) [] { tree := t } dir.path).1 =
    s₂ := by
    simp only [visitRoot, hdir, hbelow, attend, visit, hvisit₁, hnext', hvisit₂]
  have hres : s₂.tree.resolve [] late = .ok old := hlate₂
  have hitem : Walk.sorted (walkOptions cfg unbarred (some out) old) old s₂.tree =
      .item (.file old) fun _ => .ended := hlast
  have hsecond : (visitRoot Walk.sorted cfg unbarred (some out) [] s₂ late).1 = s₃ := by
    simp only [visitRoot, hres, hitem, attend, visit, hvisit₃]
  have hend : run.2 = t₃ := by
    simp only [run, hrun, show cfg.roots = [dir.path, late] from rfl, sweep, hfirst, hsecond]
    rfl
  have hmem : (⟨old, old, s₂⟩ : Stop) ∈ course Glob.library Walk.sorted cfg [] t := by
    refine List.mem_flatMap.mpr ⟨⟨old, s₂, [.file old]⟩, ?_, List.mem_singleton.mpr rfl⟩
    rw [hturns, show cfg.roots = [dir.path, late] from rfl]
    simp only [rounds, hdir, hfirst, hres, given, hitem, delivered]
    exact List.mem_cons_of_mem _ (List.mem_singleton.mpr rfl)
  have hput : run.2.get? (out ++ [name]) = some (.file [0x61, 0x0A]) := by
    rw [hend]
    decide +kernel
  refine ⟨?_, ?_, hout, by decide +kernel, hput, _, hmem, rfl, report, ?_, ?_⟩
  · intro r hr q hq
    rcases List.mem_pair.mp hr with rfl | rfl
    · cases hdir.symm.trans hq
      decide
    · cases hlate.symm.trans hq
  · refine FileTree.not_link_of_entries ?_
    simp [t]
  · rw [Stop.reports, Stop.effect, hvisit₃]
    rfl
  · rintro ⟨c', data, outcome, after, dest, hc', hd, hb, -, ho, hget⟩
    have hsel : Selection.cleanerFor? cfg.charset cfg.policy old.path = some c := by decide +kernel
    have hold : t.get? old = some (.file [0x78]) := by decide +kernel
    have hdest : Stop.output? (some out) ⟨old, old, s₂⟩ = some (out ++ [name]) := by decide +kernel
    cases hsel.symm.trans hc'
    cases hold.symm.trans hd
    cases hclean.symm.trans hb
    cases hdest.symm.trans ho
    cases hput.symm.trans hget

end Unstamp.Run
