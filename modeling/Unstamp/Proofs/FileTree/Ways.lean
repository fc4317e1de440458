import Unstamp.Proofs.FileTree.Shape

namespace Unstamp

namespace FileTree
open Unstamp.Path
variable {t u : FileTree} {p q : Place} {n : Name} {e : Entry}

theorem isDir_iff : t.isDir p = true ↔ t.get? p = some .dir :=
  beq_iff_eq

theorem isDir_eq_false_iff : t.isDir p = false ↔ t.get? p ≠ some .dir := by
  rw [ne_eq, ← isDir_iff, Bool.not_eq_true]

def isFile (t : FileTree) (p : Place) : Bool :=
  match t.get? p with
  | some (.file _) => true
  | _ => false

theorem isFile_of_none (h : t.get? p = none) : t.isFile p = false := by
  rw [isFile, h]

def isOpen (t : FileTree) (p : Place) : Bool :=
  (List.range (p.length + 1)).all fun k => !t.isFile (p.take k)

theorem isOpen_iff : t.isOpen p = true ↔ ∀ q, q <+: p → t.isFile q = false := by
  rw [isOpen, List.all_eq_true]
  simp only [List.mem_range, Bool.not_eq_true']
  constructor
  · intro h q hq
    rw [List.prefix_iff_eq_take.mp hq]
    exact h q.length (Nat.lt_succ_of_le hq.length_le)
  · intro h k _
    exact h _ (List.take_prefix k p)

theorem isOpen_concat (hp : t.isOpen p = true) (hn : t.isFile (p ++ [n]) = false) :
    t.isOpen (p ++ [n]) = true := by
  rw [isOpen_iff] at hp ⊢
  intro q hq
  rcases List.prefix_concat_iff.mp hq with rfl | hq
  · exact hn
  · exact hp q hq

theorem isOpen_of_concat (h : t.isOpen (p ++ [n]) = true) : t.isOpen p = true := by
  rw [isOpen_iff] at h ⊢
  exact fun q hq => h q (hq.trans (List.prefix_append p [n]))

def Unlinked (t : FileTree) (p : Place) : Prop :=
  ∀ q, q <+: p → ∀ target, t.get? q ≠ some (.link target)

theorem Unlinked.above (h : t.Unlinked p) (hq : q <+: p) : t.Unlinked q :=
  fun r hr => h r (hr.trans hq)

theorem not_isOpen_of_entry (hd : t.get? p ≠ some .dir) (he : t.get? p = some e)
    (hl : t.Unlinked p) : t.isOpen p = false := by
  rw [Bool.eq_false_iff]
  intro h
  have hf := isOpen_iff.mp h p (List.prefix_refl p)
  cases e with
  | file data =>
    rw [isFile, he] at hf
    cases hf
  | dir => exact hd he
  | link target => exact hl p (List.prefix_refl p) target he

theorem eq_dir_of_open (ho : t.isOpen p = true) (hl : t.Unlinked p) (he : t.get? p = some e) :
    t.get? p = some .dir :=
  Decidable.by_contra fun hd => by rw [not_isOpen_of_entry hd he hl] at ho; cases ho

namespace WellFormed

/-- What stands below something stands below a directory. -/
theorem eq_none_of_append (ht : t.WellFormed) (hp : t.get? p ≠ some .dir) (hq : q ≠ []) :
    t.get? (p ++ q) = none := by
  cases he : t.get? (p ++ q) with
  | none => rfl
  | some e => exact absurd (ht.dir_of_append he hq) hp

private theorem not_isDir_dropLast (ht : t.WellFormed) (hp : t.get? p ≠ some .dir) (hq : q ≠ []) :
    t.isDir (p ++ q).dropLast = false := by
  rw [List.dropLast_append_of_ne_nil hq, Bool.eq_false_iff]
  intro h
  cases hr : q.dropLast with
  | nil =>
    rw [hr, List.append_nil] at h
    exact hp (isDir_iff.mp h)
  | cons n r =>
    rw [hr, isDir, ht.eq_none_of_append hp (List.cons_ne_nil n r)] at h
    cases h

theorem dir_above (ht : t.WellFormed) (hp : t.get? p = some .dir) (hq : q <+: p) :
    t.get? q = some .dir := by
  obtain ⟨r, rfl⟩ := hq
  cases r with
  | nil => rwa [List.append_nil] at hp
  | cons n r => exact ht.dir_of_append hp (List.cons_ne_nil n r)

theorem isOpen_of_dir (ht : t.WellFormed) (hp : t.get? p = some .dir) : t.isOpen p = true := by
  rw [isOpen_iff]
  intro q hq
  rw [isFile, ht.dir_above hp hq]

/-- Below a free name there is nothing in the way. -/
theorem isOpen_of_free (ht : t.WellFormed) (hp : t.get? p = some .dir)
    (hn : t.get? (p ++ [n]) = none) (q : List Name) : t.isOpen (p ++ [n] ++ q) = true := by
  have hopen := isOpen_iff.mp (isOpen_concat (ht.isOpen_of_dir hp) (isFile_of_none hn))
  rw [isOpen_iff]
  intro r hr
  rcases List.prefix_or_prefix_of_prefix hr (List.prefix_append (p ++ [n]) q) with h | h
  · exact hopen r h
  · obtain ⟨q', rfl⟩ := h
    cases q' with
    | nil =>
      rw [List.append_nil]
      exact hopen _ (List.prefix_refl _)
    | cons m q' =>
      exact isFile_of_none (ht.eq_none_of_append (by rw [hn]; nofun) (List.cons_ne_nil m q'))

theorem isOpen_of_none (ht : t.WellFormed) (hp : t.get? p = none)
    (hd : t.isDir p.dropLast = true) : t.isOpen p = true := by
  rcases p.eq_nil_or_concat with rfl | ⟨q, n, rfl⟩
  · cases hp
  · rw [List.concat_eq_append] at hp hd ⊢
    rw [List.dropLast_concat] at hd
    exact isOpen_concat (ht.isOpen_of_dir (isDir_iff.mp hd)) (isFile_of_none hp)

/-- Names are followed, where no link stands, down to an entry or to a free place in a directory. If
they lead to neither, then for lack of a directory or because a file is in the way. -/
theorem follow_unlinked (ht : t.WellFormed) (creating : Bool) (links : Nat)
    (hp : t.get? p = some .dir) (hq : ∀ n ∈ q, IsName n) (hl : t.Unlinked (p ++ q)) :
    t.follow creating links p q =
      if (t.get? (p ++ q)).isSome then .ok (.entry (p ++ q))
      else if t.isDir (p ++ q).dropLast then .ok (.free (p ++ q))
      else .error (if t.isOpen (p ++ q) then .missing else .notDirectory) := by
  induction q generalizing p with
  | nil =>
    rw [follow, List.append_nil, hp]
    rfl
  | cons n q ih =>
    obtain ⟨hn, hq⟩ := List.forall_mem_cons.mp hq
    have hd : t.isDir p = true := isDir_iff.mpr hp
    -- Names are not empty, so that no path of this kind is refused for a slash at its end.
    have hlast : ¬ (creating = true ∧ q = [[]]) := by
      rintro ⟨-, rfl⟩
      exact (hq [] (List.mem_singleton.mpr rfl)).1 rfl
    rw [follow, if_neg (not_not_intro hd), if_neg (not_or.mpr ⟨hn.1, hn.2.1⟩), if_neg hn.2.2.1,
      if_neg hlast, if_neg (Nat.not_lt.mpr hn.2.2.2.2.2)]
    rw [List.append_cons p n q] at hl ⊢
    cases he : t.get? (p ++ [n]) with
    | none =>
      cases q with
      | nil =>
        rw [List.append_nil, he, List.dropLast_concat, hd]
        rfl
      | cons m q =>
        have hne : t.get? (p ++ [n]) ≠ some .dir := by
          simp [he]
        rw [ht.eq_none_of_append hne (List.cons_ne_nil m q),
          ht.not_isDir_dropLast hne (List.cons_ne_nil m q), ht.isOpen_of_free hp he (m :: q)]
        rfl
    | some e =>
      cases e with
      | link target => exact absurd he (hl _ (List.prefix_append _ q) target)
      | dir => exact ih he hq hl
      | file data =>
        cases q with
        | nil =>
          rw [follow, List.append_nil, he]
          rfl
        | cons m q =>
          have hne : t.get? (p ++ [n]) ≠ some .dir := by
            simp [he]
          have hclosed : t.isOpen (p ++ [n] ++ (m :: q)) = false := by
            rw [Bool.eq_false_iff]
            intro h
            have hf := isOpen_iff.mp h _ (List.prefix_append (p ++ [n]) (m :: q))
            rw [isFile, he] at hf
            cases hf
          have hnd : ¬ t.isDir (p ++ [n]) = true := mt beq_iff_eq.mp hne
          rw [follow, if_pos hnd,
            ht.eq_none_of_append hne (List.cons_ne_nil m q),
            ht.not_isDir_dropLast hne (List.cons_ne_nil m q), hclosed]
          rfl

private theorem find_unlinked (ht : t.WellFormed) (creating : Bool) (hp : ∀ n ∈ p, IsName n)
    (hl : t.Unlinked p) (hlen : p.path.length ≤ maxPath) :
    t.find creating [] p.path =
      if (t.get? p).isSome then .ok (.entry p)
      else if t.isDir p.dropLast then .ok (.free p)
      else .error (if t.isOpen p then .missing else .notDirectory) := by
  by_cases hne : p = []
  · subst hne
    rw [ht.find_path creating (e := .dir) rfl nofun, if_neg (Nat.not_lt.mpr hlen)]
    rfl
  · rw [find, malformed?_path hp, if_neg (Nat.not_lt.mpr hlen), origin_path, Place.steps_path hp,
      if_neg hne]
    exact ht.follow_unlinked creating maxLinks rfl hp hl

theorem resolve_of_none (ht : t.WellFormed) (hp : ∀ n ∈ p, IsName n) (hl : t.Unlinked p)
    (hlen : p.path.length ≤ maxPath) (he : t.get? p = none) :
    ∃ fault, t.resolve [] p.path = .error fault := by
  rw [resolve, ht.find_unlinked false hp hl hlen, he]
  by_cases hd : t.isDir p.dropLast = true
  · rw [hd]
    exact ⟨_, rfl⟩
  · rw [Bool.eq_false_iff.mpr hd]
    exact ⟨_, rfl⟩

/-- Where no link stands, a path reads what stands at the place. -/
theorem read_unlinked (ht : t.WellFormed) (hp : ∀ n ∈ p, IsName n) (hl : t.Unlinked p)
    {data : Bytes} : t.read [] p.path = .ok data ↔
      p.path.length ≤ maxPath ∧ t.get? p = some (.file data) := by
  constructor
  · intro h
    have hlen : p.path.length ≤ maxPath := by
      refine Nat.not_lt.mp fun hlen => ?_
      rw [read, resolve, find, malformed?_path hp, if_pos hlen] at h
      cases h
    refine ⟨hlen, ?_⟩
    cases he : t.get? p with
    | none =>
      obtain ⟨fault, hr⟩ := ht.resolve_of_none hp hl hlen he
      rw [read, hr] at h
      cases h
    | some e =>
      have hne : ∀ target, e ≠ .link target := by
        rintro target rfl
        exact hl p (List.prefix_refl p) target he
      rw [read, ht.resolve_path he hne hlen] at h
      simp only [he] at h
      split at h
      · rename_i hf
        cases h
        exact hf
      · cases h
  · rintro ⟨hlen, he⟩
    rw [ht.read_path he, if_neg (Nat.not_lt.mpr hlen)]

theorem leadsToDir_path (ht : t.WellFormed) (hp : ∀ n ∈ p, IsName n) (hl : t.Unlinked p)
    (hlen : p.path.length ≤ maxPath) : t.leadsToDir [] p.path = t.isDir p := by
  rw [leadsToDir]
  cases he : t.get? p with
  | some e =>
    have hne : ∀ target, e ≠ .link target := by
      rintro target rfl
      exact hl p (List.prefix_refl p) target he
    rw [ht.resolve_path he hne hlen]
  | none =>
    obtain ⟨fault, hr⟩ := ht.resolve_of_none hp hl hlen he
    rw [hr, isDir, he]
    rfl

/-- A file is put where there is none yet, or in the place of another. -/
theorem write_unlinked (ht : t.WellFormed) (hp : ∀ m ∈ p, IsName m) (hl : t.Unlinked p)
    (hd : t.isDir p.dropLast = true) (hlen : p.path.length ≤ maxPath) (data : Bytes) :
    t.write [] p.path data =
      if t.isDir p then .error .isDirectory
      else if t.isLocked p then .error .denied
      else .ok (t.set p (.file data)) := by
  rw [write, writePlace, ht.find_unlinked true hp hl hlen, hd]
  cases he : t.get? p with
  | none =>
    have hpd : t.isDir p = false := by
      rw [isDir, he]
      rfl
    simp only [Option.isSome_none, Bool.false_eq_true, if_false, if_true, hpd]
    split <;> rfl
  | some e =>
    simp only [Option.isSome_some, if_true]
    split
    · rfl
    · split <;> rfl

end WellFormed

end FileTree

end Unstamp
