import Unstamp.Cleaner.InTree
import Unstamp.Proofs.Cleaner.Repeated
import Unstamp.Proofs.FileTree.Writing

namespace Unstamp.Cleaner
variable {c : Cleaner} {t : FileTree} {cwd : Place} {input output : Path} {cleaned : Cleaned}

theorem load_eq_ok_iff :
    c.load t cwd input = .ok cleaned ↔
      t.read cwd input = .ok cleaned.before ∧
        c.cleanBytes cleaned.before = .ok (cleaned.outcome, cleaned.after) := by
  rw [load]
  constructor
  · intro h
    split at h
    · cases h
    rename_i before hr
    split at h
    · cases h
    rename_i outcome after hc
    cases h
    exact ⟨hr, hc⟩
  · rintro ⟨hr, hc⟩
    simp only [hr, hc]

/-- Loading fails with the path of the file when that cannot be read, and with the fault of its
text when that cannot be cleaned. -/
private theorem fault_of_load {fault : CleanFault} (h : c.load t cwd input = .error fault) :
    (∃ e, t.read cwd input = .error e ∧ fault = .io input (.os e)) ∨
      ∃ before e, t.read cwd input = .ok before ∧ c.cleanBytes before = .error (.encoding e) ∧
        fault = .encoding e := by
  rw [load] at h
  split at h
  · rename_i e hr
    cases h
    exact .inl ⟨e, hr, rfl⟩
  · rename_i before hr
    split at h
    · rename_i hc
      obtain ⟨e, rfl⟩ := encoding_of_cleanBytes hc
      cases h
      exact .inr ⟨before, e, hr, hc, rfl⟩
    · cases h

private theorem cleanFile_of_load_error {fault : CleanFault}
    (h : c.load t cwd input = .error fault) :
    c.cleanFile t cwd input output = (.error fault, t) := by
  rw [cleanFile, h]

private theorem cleanFile_of_refused (h : c.load t cwd input = .ok cleaned) {fault : OsFault}
    (hp : t.writePlace cwd output = .error fault) :
    c.cleanFile t cwd input output = (.error (.io output (.os fault)), t) := by
  simp only [cleanFile, h, store, FileTree.write, hp, Except.map, Except.mapError]

theorem cleanFile_of_place (h : c.load t cwd input = .ok cleaned) {p : Place}
    (hp : t.writePlace cwd output = .ok p) :
    c.cleanFile t cwd input output = (.ok cleaned.outcome, t.set p (.file cleaned.after)) := by
  simp only [cleanFile, h, store, FileTree.write, hp, Except.map, Except.mapError]

/-- Cleaning that succeeds leaves what the cleaner makes of the bytes of the input, as they were
before, in the file that the output then leads to, new or in place of the one there, and all else
as it was. Cleaning that fails leaves the tree as it was, and names the input if that could not be
read, the fault of its text if it could not be cleaned, and the output if that could not be
written. -/
theorem cleanFile_atomic (c : Cleaner) (ht : t.WellFormed) (cwd : Place) (input output : Path) :
    (∀ outcome u, c.cleanFile t cwd input output = (.ok outcome, u) →
      ∃ before after p, t.read cwd input = .ok before ∧
        c.cleanBytes before = .ok (outcome, after) ∧ t.Slot cwd output p ∧
        u.resolve cwd output = .ok p ∧ u.get? p = some (.file after) ∧
        ∀ q, q ≠ p → u.get? q = t.get? q) ∧
    ∀ fault u, c.cleanFile t cwd input output = (.error fault, u) →
      u = t ∧
        ((∃ e, t.read cwd input = .error e ∧ fault = .io input (.os e)) ∨
          (∃ before e, t.read cwd input = .ok before ∧
            c.cleanBytes before = .error (.encoding e) ∧ fault = .encoding e) ∨
          ∃ before outcome after e, t.read cwd input = .ok before ∧
            c.cleanBytes before = .ok (outcome, after) ∧
            t.write cwd output after = .error e ∧ fault = .io output (.os e)) := by
  cases hl : c.load t cwd input with
  | error fault =>
    rw [cleanFile_of_load_error hl]
    constructor
    · intro outcome u h
      cases h
    · intro _ _ h
      cases h
      refine ⟨rfl, ?_⟩
      rcases fault_of_load hl with hread | hclean
      · exact .inl hread
      · exact .inr (.inl hclean)
  | ok cleaned =>
    obtain ⟨hr, hc⟩ := load_eq_ok_iff.mp hl
    cases hp : t.writePlace cwd output with
    | error e =>
      rw [cleanFile_of_refused hl hp]
      constructor
      · intro outcome u h
        cases h
      · intro fault u h
        cases h
        have hw : t.write cwd output cleaned.after = .error e := by
          rw [FileTree.write, hp]
          rfl
        exact ⟨rfl, .inr (.inr ⟨_, _, _, e, hr, hc, hw, rfl⟩)⟩
    | ok p =>
      have hs := ht.slot hp
      rw [cleanFile_of_place hl hp]
      constructor
      · intro outcome u h
        cases h
        exact ⟨_, _, p, hr, hc, hs, hs.resolve_set _, hs.get?_set _, fun q => t.get?_set_of_ne _⟩
      · intro fault u h
        cases h

/-- A property file cleaned through a link to it, and then written to where a directory is. -/
theorem cleanFile_atomic_through_link :
    let dir : Place := [[0x64]]
    let file : Place := [[0x64], [0x61]]
    let link : Place := [[0x6C]]
    let t : FileTree := { entries := [(dir, .dir), (file, .file [0x23, 0x0A, 0x63]),
      (link, .link [0x64, 0x2F, 0x61])] }
    let c : Cleaner := .lines {}
    t.WellFormed ∧
      (∃ u, c.cleanFile t [] file.path link.path = (.ok (.filtered 1 0), u) ∧
        u.get? file = some (.file [0x63, 0x0A]) ∧ u.get? link = t.get? link) ∧
      c.cleanFile t [] file.path dir.path = (.error (.io dir.path (.os .isDirectory)), t) := by
  intro dir file link t c
  have ht : t.WellFormed := FileTree.wellFormed_of_entries (by decide +kernel)
  have hread : t.read [] file.path = .ok [0x23, 0x0A, 0x63] := ht.read_path rfl
  have hclean : c.cleanBytes [0x23, 0x0A, 0x63] = .ok (.filtered 1 0, [0x63, 0x0A]) := by
    decide +kernel
  have hload : c.load t [] file.path = .ok ⟨[0x23, 0x0A, 0x63], [0x63, 0x0A], .filtered 1 0⟩ :=
    load_eq_ok_iff.mpr ⟨hread, hclean⟩
  have hlink : t.find true [] link.path = .ok (.entry file) := by
    have hsteps : Path.steps link.path = [[0x6C]] := by decide +kernel
    have htarget : Path.steps [0x64, 0x2F, 0x61] ++ [] = file := by decide +kernel
    change t.follow true 40 [] (Path.steps link.path) = _
    rw [hsteps, t.follow_link rfl (by decide) rfl (by simp), htarget]
    exact ht.follow_append (p := []) (q := file) true 39 rfl (by simp)
  have hfile : t.writePlace [] link.path = .ok file := by
    rw [FileTree.writePlace, hlink]
    rfl
  have hdir : t.writePlace [] dir.path = .error .isDirectory := by
    rw [FileTree.writePlace, ht.find_path true (e := .dir) rfl (by simp)]
    rfl
  have hdone := cleanFile_of_place hload hfile
  obtain ⟨hok, -⟩ := cleanFile_atomic c ht [] file.path link.path
  obtain ⟨before, after, p, hr, hc, -, hp, hw, hother⟩ := hok _ _ hdone
  cases hread.symm.trans hr
  cases hclean.symm.trans hc
  cases ((ht.slot hfile).resolve_set _).symm.trans hp
  exact ⟨ht, ⟨_, hdone, hw, hother link (by decide)⟩, cleanFile_of_refused hload hdir⟩

end Unstamp.Cleaner
