import Mathlib
import Unstamp.Proofs.Run.Opening

namespace Unstamp

namespace FileTree
variable {t u : FileTree} {out : Place}

/-- Links lead to places apart from a directory, or nowhere without the directory on their way. -/
structure LinksSteady (t : FileTree) (out : Place) : Prop where
  apart : t.LinksApart out
  off : ∀ p target, t.get? p = some (.link target) → (∀ q, ¬ t.Leads [] p q) → t.KeepsOff out [] p

/-- What is new in the directory gives no link a place to lead to. -/
theorem LinksSteady.linksApart (h : t.LinksSteady out) (hk : t.Kept u) (hb : Beside out t u)
    (hu : u.Outlet out) : u.LinksApart out := by
  intro p target q hp hq
  have ho : ¬ out <+: p := by
    rintro ⟨r, rfl⟩
    exact hu.unlinked r target hp
  rw [hb p fun h => absurd h ho] at hp
  by_cases hex : ∃ m, t.Leads [] p m
  · obtain ⟨m, hm⟩ := hex
    obtain rfl := (hk.leads hm).unique hq
    exact h.apart p target m hp hm
  · have hnone : ∀ m, ¬ t.Leads [] p m := fun m hm => hex ⟨m, hm⟩
    exact absurd (hb.leads (h.off p target hp hnone) hq) (hnone q)

end FileTree

namespace Run
open Unstamp.Path FileTree Walk
variable {lib : PatternLibrary} {walk : Walker} {cfg : Config} {isExcluded : Text → Bool}
  {out cwd root p q : Place} {s : State} {t u base : FileTree} {r : Path} {rs : List Path}
  {a : Round} {b : Stop}

structure Stop.Met (cfg : Config) (isExcluded : Text → Bool) (base : FileTree) (out : Place)
    (b : Stop) : Prop where
  running : Running cfg base out b.state
  fits : Fits (walkOptions cfg isExcluded (some out) b.root) b.root b.state.tree (.file b.place)

structure Round.Met (walk : Walker) (cfg : Config) (isExcluded : Text → Bool) (base : FileTree)
    (out : Place) (a : Round) : Prop where
  running : Running cfg base out a.state
  holds : a.state.tree.Holds a.root
  visits : a.visits = given walk cfg isExcluded (some out) a.root a.state
  stops : ∀ b ∈ a.stops cfg (some out), b.root = a.root ∧ b.Met cfg isExcluded base out

private theorem rounds_met (hw : walk.Faithful) (hc : cfg.check = false)
    (hs : Running cfg base out s)
    (rs : List Path) :
    Running cfg base out (sweep walk cfg isExcluded (some out) cwd s rs).1 ∧
      ∀ a ∈ rounds walk cfg isExcluded (some out) cwd s rs, a.Met walk cfg isExcluded base out := by
  induction rs generalizing s with
  | nil => exact ⟨hs, nofun⟩
  | cons r rs ih =>
    rw [sweep]
    cases hr : s.tree.resolve cwd r with
    | error fault =>
      rw [visitRoot_of_error hr, rounds_of_error hr]
      exact ih hs
    | ok place =>
      have hroot := hs.wellFormed.holds_of_resolve hr
      obtain ⟨hnext, hnow⟩ := @given_frame walk cfg isExcluded out place s base hw hc hs hroot
      rw [visitRoot_of_ok hr, rounds_of_ok hr]
      obtain ⟨hend, hlater⟩ := ih hnext
      refine ⟨hend, List.forall_mem_cons.mpr ⟨⟨hs, hroot, rfl, fun b hb => ?_⟩, hlater⟩⟩
      obtain ⟨hb, ⟨hrun, -⟩, hfits⟩ := hnow b hb
      exact ⟨hb, hrun, hb ▸ hfits⟩

/-- Roots that lead all along where they lead at the start have their turns at these places. -/
private theorem root_rounds (hw : walk.Faithful) (hc : cfg.check = false)
    (hs : Running cfg base out s)
    (hrs : ∀ r ∈ rs, ∀ s', Running cfg base out s' →
      s'.tree.resolve cwd r = base.resolve cwd r) :
    (rounds walk cfg isExcluded (some out) cwd s rs).map Round.root =
      rs.filterMap fun r => (base.resolve cwd r).toOption := by
  induction rs generalizing s with
  | nil => rfl
  | cons r rs ih =>
    obtain ⟨hr, hrs⟩ := List.forall_mem_cons.mp hrs
    rw [List.filterMap_cons, ← hr s hs]
    cases hres : s.tree.resolve cwd r with
    | error fault =>
      rw [rounds_of_error hres]
      exact ih hs hrs
    | ok place =>
      have hroot := hs.wellFormed.holds_of_resolve hres
      have hnext := (@given_frame walk cfg isExcluded out place s base hw hc hs hroot).1
      rw [rounds_of_ok hres, List.map_cons, ih hnext hrs]
      rfl

/-- Where a root leads at the start it leads all along, and if it leads nowhere, without the output
directory on its way, this stays so too. -/
private theorem Running.resolve_root (hs : Running cfg base out s)
    (hr : ∀ fault, base.resolve cwd r = .error fault → base.KeepsOff out (origin cwd r) r.steps) :
    s.tree.resolve cwd r = base.resolve cwd r := by
  cases hres : base.resolve cwd r with
  | ok q => exact hs.kept.resolve hres
  | error fault => rw [← hs.beside.resolve (hr fault hres), hres]

namespace Stop.Met
variable (h : b.Met cfg isExcluded base out)
include h

/-- Outside of the output directory a file is read as it was from the start. -/
theorem read (hr : b.state.tree.resolve [] b.place.path = .ok q) (hq : ¬ out <+: q) :
    ∃ data, base.get? q = some (.file data) ∧ b.state.tree.read [] b.place.path = .ok data := by
  obtain ⟨q', hp, -⟩ := h.fits
  obtain rfl := (leads_of_resolve hp.name hr).2.unique hp.leads
  obtain ⟨data, hd⟩ := hp.file
  refine ⟨data, (h.running.outside hq).symm.trans hd, ?_⟩
  rw [FileTree.read, hr]
  simp only [hd]

/-- A file in the output directory is a root that can be read. -/
private theorem root_inside (hl : cfg.followLinks = true → base.LinksSteady out)
    (hr : b.state.tree.resolve [] b.place.path = .ok q) (hq : out <+: q) :
    out <+: b.root ∧ b.state.tree.isDir b.root = false ∧ b.root.path.length ≤ maxPath := by
  obtain ⟨q', hp, -⟩ := h.fits
  obtain ⟨hlen, hleads⟩ := leads_of_resolve hp.name hr
  obtain ⟨hplace, rfl⟩ := h.fits.eq_root h.running.wellFormed (fun _ => keeps_outside)
    (fun hf => (hl hf).linksApart h.running.kept h.running.beside h.running.outlet) hleads hq
  obtain rfl := hleads.unique hp.leads
  obtain ⟨data, hd⟩ := hp.file
  refine ⟨hq, isDir_eq_false_iff.mpr (by rw [hd]; nofun), ?_⟩
  rw [← hplace]
  exact hlen

end Stop.Met

section Sweep
variable (hw : walk.Faithful) (hc : cfg.check = false) (hs : Running cfg base out s)
include hw hc hs

private theorem met_of_mem
    (hb : b ∈ (rounds walk cfg isExcluded (some out) cwd s rs).flatMap
      (Round.stops cfg (some out))) :
    ∃ a ∈ rounds walk cfg isExcluded (some out) cwd s rs,
      b.root = a.root ∧ b.Met cfg isExcluded base out := by
  obtain ⟨a, ha, hb⟩ := List.mem_flatMap.mp hb
  exact ⟨a, ha, ((rounds_met hw hc hs rs).2 a ha).stops b hb⟩

/-- What is read outside of the output directory was there from the start and is so at the end. -/
private theorem sweep_originals
    (hb : b ∈ (rounds walk cfg isExcluded (some out) cwd s rs).flatMap (Round.stops cfg (some out)))
    (hr : b.state.tree.resolve [] b.place.path = .ok q) (hq : ¬ out <+: q) :
    ∃ data, base.get? q = some (.file data) ∧ b.state.tree.read [] b.place.path = .ok data ∧
      (sweep walk cfg isExcluded (some out) cwd s rs).1.tree.get? q = some (.file data) := by
  obtain ⟨-, -, -, hmet⟩ := met_of_mem hw hc hs hb
  obtain ⟨data, hdata, hbytes⟩ := hmet.read hr hq
  exact ⟨data, hdata, hbytes, ((rounds_met hw hc hs rs).1.outside hq).trans hdata⟩

/-- What is read stands outside of the output directory unless a root is a file in it. -/
private theorem sweep_outside_iff (hwf : base.WellFormed)
    (hl : cfg.followLinks = true → base.LinksSteady out)
    (hroots : ∀ r ∈ rs, ∀ fault, base.resolve cwd r = .error fault →
      base.KeepsOff out (origin cwd r) r.steps) :
    (∀ b ∈ (rounds walk cfg isExcluded (some out) cwd s rs).flatMap (Round.stops cfg (some out)),
      ∀ q, b.state.tree.resolve [] b.place.path = .ok q → ¬ out <+: q) ↔
      ∀ r ∈ rs, ∀ q, base.resolve cwd r = .ok q → out <+: q →
        base.isDir q = true ∨ maxPath < q.path.length := by
  have hmap := @root_rounds walk cfg isExcluded out cwd s base rs hw hc hs
    fun r hr s' hs' => hs'.resolve_root (hroots r hr)
  constructor
  · intro hall r hr q hq hin
    obtain ⟨a, ha, rfl⟩ : ∃ a ∈ rounds walk cfg isExcluded (some out) cwd s rs, a.root = q := by
      refine List.mem_map.mp (hmap ▸ List.mem_filterMap.mpr ⟨r, hr, ?_⟩)
      rw [hq]
      rfl
    have hmet := (rounds_met hw hc hs rs).2 a ha
    refine or_iff_not_imp_left.mpr fun hdir => Nat.lt_of_not_le fun hlen => ?_
    -- The root is a file, and so the walk gives the root itself.
    obtain ⟨data, hbase⟩ := (hwf.holds_of_resolve hq).resolve_left hdir
    obtain ⟨data', hfile⟩ := hmet.running.kept.file hbase
    have hgiven : .file a.root ∈ a.visits := by
      rw [hmet.visits]
      exact root_mem_given hw hc hmet.running hmet.holds
        (isDir_eq_false_iff.mpr (by rw [hfile]; nofun))
    obtain ⟨b, hb, hplace⟩ := List.mem_map.mp ((place_stops (s := a.state) a.visits _).mpr hgiven)
    obtain ⟨-, hmetb⟩ := hmet.stops b hb
    obtain ⟨data'', hnow⟩ := hmetb.running.kept.file hbase
    refine hall b (List.mem_flatMap.mpr ⟨a, ha, hb⟩) a.root ?_ hin
    rw [hplace]
    exact hmetb.running.wellFormed.resolve_path hnow nofun hlen
  · intro hall b hb q hr hq
    obtain ⟨a, ha, hroot, hmet⟩ := met_of_mem hw hc hs hb
    obtain ⟨hin, hdir, hlen⟩ := hmet.root_inside hl hr hq
    obtain ⟨r, hr', hres⟩ := List.mem_filterMap.mp (hmap ▸ List.mem_map_of_mem ha)
    have hres' : base.resolve cwd r = .ok b.root := by
      rw [hroot]
      cases h : base.resolve cwd r with
      | error fault => simp [h, Except.toOption] at hres
      | ok q => simpa [h, Except.toOption] using hres
    rcases hall r hr' b.root hres' hin with hd | hlong
    · rw [hmet.running.kept.isDir hd] at hdir
      cases hdir
    · exact absurd hlen (Nat.not_le.mpr hlong)

end Sweep

def InOutput (cfg : Config) (cwd : Place) (t : FileTree) (p : Place) : Prop :=
  ∃ out, outPlace? cfg cwd t = some out ∧ out <+: p

/-- A run into an output directory that no link stands in, whatever its roots and whether it follows
links or not.

A file that the run comes to, and that stands outside of the directory, is read with the bytes that
it had before the run, and it has them when the run ends. Once the directory is opened, suppose that
no root and no link that the run could follow leads nowhere with the directory on its way, and that
no such link leads to the directory, into it or above it. Then all files that the run comes to stand
outside of the directory if and only if no root leads to a file in it that can be read. -/
theorem runWith_originals (lib : PatternLibrary) (hw : walk.Faithful) (hc : cfg.check = false)
    {dir : Path} (hd : cfg.outDir = some dir) (ht : t.WellFormed)
    (hlinks : ∀ out, outPlace? cfg cwd t = some out →
      ∀ p target, t.get? (out ++ p) ≠ some (.link target)) :
    let run := runWith lib walk cfg cwd t
    let seen := course lib walk cfg cwd t
    let opened := (openOutDir cfg cwd t).2
    (∀ a ∈ seen, ∀ q, a.state.tree.resolve [] a.place.path = .ok q → ¬ InOutput cfg cwd t q →
      ∃ data, t.get? q = some (.file data) ∧ a.state.tree.read [] a.place.path = .ok data ∧
        run.2.get? q = some (.file data)) ∧
    (∀ isExcluded, readExcludes lib cfg.excludes = .ok isExcluded →
      (∀ out, outPlace? cfg cwd t = some out →
        (cfg.followLinks = true → opened.LinksSteady out) ∧
        ∀ r ∈ cfg.roots, ∀ fault, opened.resolve cwd r = .error fault →
          opened.KeepsOff out (origin cwd r) r.steps) →
      ((∀ a ∈ seen, ∀ q, a.state.tree.resolve [] a.place.path = .ok q → ¬ InOutput cfg cwd t q) ↔
        ∀ r ∈ cfg.roots, ∀ q, opened.resolve cwd r = .ok q → InOutput cfg cwd t q →
          opened.isDir q = true ∨ maxPath < q.path.length)) := by
  intro run seen opened
  cases hx : readExcludes lib cfg.excludes with
  | error fault =>
    have hseen : seen = [] := by
      simp only [seen, course, turns, hx]
      rfl
    rw [hseen]
    exact ⟨List.forall_mem_nil _, fun _ h => by cases h⟩
  | ok isExcluded =>
    cases ho : openOutDir cfg cwd t with
    | mk result u =>
      cases result with
      | error fault =>
        have hseen : seen = [] := by
          simp only [seen, course, turns, hx, ho]
          rfl
        have hout (q : Place) : ¬ InOutput cfg cwd t q := by
          simp only [InOutput, outPlace?, ho]
          rintro ⟨_, h, -⟩
          cases h
        rw [hseen]
        exact ⟨List.forall_mem_nil _, fun _ _ _ =>
          iff_of_true (List.forall_mem_nil _) fun _ _ q _ hq => absurd hq (hout q)⟩
      | ok out =>
        cases out with
        | none => exact absurd ho (openOutDir_ne_none hc hd)
        | some o =>
          obtain ⟨hrun, hturns, hout⟩ := runWith_opened walk hx ho
          obtain ⟨hgrown, hs⟩ := running_opened ht ho (hlinks o hout)
          have hinside (q : Place) : InOutput cfg cwd t q ↔ o <+: q := by
            simp only [InOutput, hout, Option.some_inj, exists_eq_left']
          simp only [run, seen, opened, course, hrun, hturns, hout, ho, hinside, Option.some_inj,
            forall_eq']
          refine ⟨fun b hb q hr hq => ?_, fun _ _ h =>
            sweep_outside_iff hw hc hs hs.wellFormed h.1 h.2⟩
          obtain ⟨data, hdata, hbytes, hend⟩ := sweep_originals hw hc hs hb hr hq
          exact ⟨data, hgrown.eq_of_ne_dir hdata (by simp), hbytes, hend⟩

/-- A link below the root leads to a file elsewhere, which is read and stays as it is. -/
theorem runWith_originals_linked :
    let name : Name := Utf8.encode Selection.propertiesName
    let dir : Place := [[0x61]]
    let file : Place := [[0x62]]
    let out : Place := [[0x6F]]
    let t : FileTree :=
      { entries := [(dir, .dir), (dir ++ [name], .link file.path),
        (file, .file [0x23, 0x0A, 0x63])] }
    let cfg : Config :=
      { roots := [dir.path], followLinks := true, useIgnoreFiles := false, outDir := some out.path }
    let run := runWith Glob.library Walk.sorted cfg [] t
    let seen := course Glob.library Walk.sorted cfg [] t
    t.WellFormed ∧ outPlace? cfg [] t = some out ∧
      (∃ a ∈ seen, a.state.tree.resolve [] a.place.path = .ok file ∧
        a.state.tree.read [] a.place.path = .ok [0x23, 0x0A, 0x63]) ∧
      run.2.get? file = some (.file [0x23, 0x0A, 0x63]) ∧
      ∀ a ∈ seen, ∀ q, a.state.tree.resolve [] a.place.path = .ok q → ¬ InOutput cfg [] t q := by
  intro name dir file out t cfg run seen
  let unbarred : Text → Bool := fun _ => false
  let u : FileTree := t.set out .dir
  let a : Stop := ⟨dir, dir ++ [name], { tree := u }⟩
  have hw : Walk.sorted.Faithful := Walk.arranged_faithful id
  have ht : t.WellFormed := FileTree.wellFormed_of_entries (by decide +kernel)
  have hopen : openOutDir cfg [] t = (.ok (some out), u) := by
    simp only [cfg, t, u, out, file, dir, name]
    cbv
  obtain ⟨-, hturns, hout⟩ :=
    @runWith_opened Glob.library cfg unbarred out [] t u Walk.sorted rfl hopen
  have hdir : u.resolve [] dir.path = .ok dir := by
    simp only [u, t, out, file, dir, name]
    cbv
  have hfile : u.resolve [] a.place.path = .ok file := by
    simp only [a, u, t, out, file, dir, name]
    cbv
  have hlook : look u (walkOptions cfg unbarred (some out) dir) [⟨dir, dir⟩] a.place a.place =
      .file := by
    have hlink : u.get? a.place = some (.link file.path) := by decide +kernel
    have hplain : u.isDir file = false := by decide +kernel
    rw [look, hlink]
    simp only [hfile, hplain]
    rfl
  have hbelow : Walk.sorted (walkOptions cfg unbarred (some out) dir) dir u =
      .item (.file a.place) fun _ => .ended :=
    Walk.arranged_of_lone_file (by decide +kernel) rfl (by decide +kernel)
      ⟨hlook, by decide +kernel⟩
  have hrounds : turns Glob.library Walk.sorted cfg [] t =
      [⟨dir, { tree := u }, [.file a.place]⟩] := by
    rw [hturns, show cfg.roots = [dir.path] from rfl]
    simp only [rounds, hdir, given, hbelow, delivered]
  have hseen : seen = [a] := by
    simp only [seen, course, hrounds, hout]
    rfl
  have hlinks : ∀ p target, t.get? (out ++ p) ≠ some (.link target) := by
    intro p target he
    have hmem := mem_entries (List.append_ne_nil_of_left_ne_nil (List.cons_ne_nil _ _) p) he
    simp [t, dir, file] at hmem
  have hsteady : u.LinksSteady out := by
    have hlead (p : Place) (target : Path) (hp : u.get? p = some (.link target)) :
        u.Leads [] p file := by
      have hentries : u.entries = (out, .dir) :: t.entries := by decide +kernel
      have hmem := mem_entries (t := u) (by rintro rfl; cases hp) hp
      obtain rfl : p = a.place := by
        simp [hentries, t] at hmem
        exact hmem.1
      exact (leads_of_resolve (by decide +kernel) hfile).2
    refine ⟨fun p target q hp hq => ?_,
      fun p target hp hnone => absurd (hlead p target hp) (hnone _)⟩
    obtain rfl := (hlead p target hp).unique hq
    exact ⟨by decide, by decide⟩
  obtain ⟨hread, hiff⟩ :=
    @runWith_originals Walk.sorted cfg [] t Glob.library hw rfl out.path rfl ht
    (fun o ho => by
      cases hout.symm.trans ho
      exact hlinks)
  have hroot (r : Path) (hr : r ∈ cfg.roots) : u.resolve [] r = .ok dir := by
    obtain rfl := List.mem_singleton.mp hr
    exact hdir
  rw [hopen] at hiff
  have houtside := (hiff unbarred rfl fun o ho => by
    cases hout.symm.trans ho
    refine ⟨fun _ => hsteady, fun r hr fault hfault => ?_⟩
    cases (hroot r hr).symm.trans hfault).mpr fun r hr q hq hin => by
      cases (hroot r hr).symm.trans hq
      exact .inl (by decide +kernel)
  have ha : a ∈ seen := hseen ▸ List.mem_singleton.mpr rfl
  obtain ⟨data, hdata, hbytes, hend⟩ := hread a ha file hfile (houtside a ha file hfile)
  cases hdata
  exact ⟨ht, hout, ⟨a, ha, hfile, hbytes⟩, hend, houtside⟩

/-- A root that is a file in the output directory: the run reads its own output and rewrites it. -/
theorem runWith_rereads_output :
    let name : Name := Utf8.encode Selection.propertiesName
    let out : Place := [[0x6F]]
    let pom : Place := out ++ [name]
    let t : FileTree := { entries := [(out, .dir), (pom, .file [0x23, 0x0A, 0x63])] }
    let cfg : Config :=
      { roots := [pom.path], useIgnoreFiles := false, outDir := some out.path }
    let run := runWith Glob.library Walk.sorted cfg [] t
    (∀ p target, t.get? p ≠ some (.link target)) ∧
      (∃ a ∈ course Glob.library Walk.sorted cfg [] t, (a.cleaner? cfg).isSome ∧
        a.state.tree.resolve [] a.place.path = .ok pom ∧ InOutput cfg [] t pom) ∧
      run.2.get? pom = some (.file [0x63, 0x0A]) := by
  intro name out pom t cfg run
  let c : Cleaner := .lines {}
  let unbarred : Text → Bool := fun _ => false
  let u : FileTree := t.set pom (.file [0x63, 0x0A])
  let a : Stop := ⟨pom, pom, { tree := t }⟩
  have ht : t.WellFormed := FileTree.wellFormed_of_entries (by decide +kernel)
  have hopen : openOutDir cfg [] t = (.ok (some out), t) := by
    simp only [cfg, t, pom, out, name]
    cbv
  obtain ⟨hrun, hturns, hout⟩ :=
    @runWith_opened Glob.library cfg unbarred out [] t t Walk.sorted rfl hopen
  have hfile : t.get? pom = some (.file [0x23, 0x0A, 0x63]) := by decide +kernel
  have hroot : t.resolve [] pom.path = .ok pom :=
    ht.resolve_path hfile (by simp) (by decide +kernel)
  have hbelow : Walk.sorted (walkOptions cfg unbarred (some out) pom) pom t =
      .item (.file pom) fun _ => .ended :=
    Walk.arranged_of_file (by decide +kernel)
  have hsel : a.cleaner? cfg = some c := by decide +kernel
  have hclean : c.cleanBytes [0x23, 0x0A, 0x63] = .ok (.filtered 1 0, [0x63, 0x0A]) := by
    decide +kernel
  have hput : put false t pom (some pom) ⟨[0x23, 0x0A, 0x63], [0x63, 0x0A], .filtered 1 0⟩ =
      (.ok (), u) := by
    simp only [u, t, pom, out, name]
    cbv
  have hvisit : (visitFile cfg (some out) pom { tree := t } pom).1.tree = u := by
    rw [visitFile_of_put rfl ht hsel rfl hfile (by decide +kernel) hclean hput]
  have hcourse : course Glob.library Walk.sorted cfg [] t = [a] := by
    rw [course, hturns, hout, show cfg.roots = [pom.path] from rfl]
    simp only [rounds, hroot, given, hbelow, delivered]
    rfl
  have hlinks : ∀ x ∈ t.entries, ∀ target, x.2 ≠ .link target := by
    simp [t]
  refine ⟨FileTree.not_link_of_entries hlinks, ⟨a, ?_, ?_, hroot, out, hout, by decide⟩, ?_⟩
  · rw [hcourse]
    exact List.mem_singleton.mpr rfl
  · rw [hsel]
    rfl
  · have hend : run.2 = u := by
      simp only [run, hrun, show cfg.roots = [pom.path] from rfl, sweep, visitRoot, hroot, hbelow,
        attend, visit]
      exact hvisit
    rw [hend]
    decide +kernel

end Run

end Unstamp
