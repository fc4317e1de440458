import Unstamp.FileTree.Access

namespace Unstamp

namespace Path

def IsName (n : Name) : Prop :=
  n ≠ [] ∧ n ≠ [dot] ∧ n ≠ [dot, dot] ∧ slash ∉ n ∧ 0 ∉ n ∧ n.length ≤ maxName

instance (n : Name) : Decidable (IsName n) :=
  inferInstanceAs (Decidable (_ ∧ _))

theorem splitWhere_ne_nil {α : Type} (p : α → Bool) (t : List α) : splitWhere p t ≠ [] := by
  cases t with
  | nil => exact List.cons_ne_nil _ _
  | cons a t =>
    rw [splitWhere]
    split
    · exact List.cons_ne_nil _ _
    · split <;> exact List.cons_ne_nil _ _

/-- Even the empty path has a step. -/
theorem steps_ne_nil (p : Path) : p.steps ≠ [] := by
  have hs : p.segments ≠ [] := splitWhere_ne_nil _ p
  rw [steps, List.getLast?_eq_some_getLast hs]
  exact List.append_ne_nil_of_right_ne_nil _ (List.cons_ne_nil _ _)

private theorem splitWhere_append {α : Type} {p : α → Bool} {s t : List α}
    (h : ∀ a ∈ s, p a = false)
    {u : List α} {us : List (List α)} (ht : splitWhere p t = u :: us) :
    splitWhere p (s ++ t) = (s ++ u) :: us := by
  induction s with
  | nil => exact ht
  | cons a s ih =>
    obtain ⟨ha, hs⟩ := List.forall_mem_cons.mp h
    rw [List.cons_append, splitWhere, ih hs, ha]
    rfl

/-- What stands before the first slash belongs to the first segment. -/
theorem segments_append {s n : Name} {ns : List Name} {r : Path} (h : slash ∉ s)
    (hr : segments r = n :: ns) : segments (s ++ r) = (s ++ n) :: ns :=
  splitWhere_append (fun _ hb => beq_eq_false_iff_ne.mpr (ne_of_mem_of_not_mem hb h)) hr

/-- A slash before each name, and none in them, so that the names are what stands between. -/
theorem segments_flatMap {p : Place} (h : ∀ n ∈ p, slash ∉ n) :
    segments (p.flatMap (slash :: ·)) = [] :: p := by
  induction p with
  | nil => rfl
  | cons n p ih =>
    obtain ⟨hn, hp⟩ := List.forall_mem_cons.mp h
    have hnext := segments_append hn (ih hp)
    rw [segments, List.append_nil] at hnext
    rw [List.flatMap_cons, List.cons_append, segments, splitWhere, hnext]
    rfl

end Path

namespace Place
open Unstamp.Path

theorem steps_path {p : Place} (h : ∀ n ∈ p, IsName n) :
    Path.steps p.path = if p = [] then [[]] else p := by
  cases p with
  | nil => rfl
  | cons n p =>
    have hs : segments (path (n :: p)) = [] :: n :: p :=
      segments_flatMap fun m hm => (h m hm).2.2.2.1
    have hne : ∀ m ∈ (n :: p).dropLast, decide (m ≠ []) = true := by
      intro m hm
      exact decide_eq_true (h m (List.dropLast_subset _ hm)).1
    rw [if_neg (List.cons_ne_nil n p), steps, hs,
      List.dropLast_cons_of_ne_nil (List.cons_ne_nil n p), List.filter_cons_of_neg (by simp),
      List.filter_eq_self.mpr hne, List.getLast?_cons_cons,
      List.getLast?_eq_some_getLast (List.cons_ne_nil n p)]
    exact List.dropLast_concat_getLast _

private theorem head?_path (p : Place) : p.path.head? = some slash := by
  cases p <;> rfl

private theorem zero_not_mem_path {p : Place} (h : ∀ n ∈ p, IsName n) : 0 ∉ p.path := by
  cases p with
  | nil => decide
  | cons n p =>
    intro h0
    obtain ⟨m, hm, hz⟩ := List.mem_flatMap.mp h0
    rcases List.mem_cons.mp hz with hz | hz
    · exact absurd hz (by decide)
    · exact (h m hm).2.2.2.2.1 hz

end Place

namespace FileTree
open Unstamp.Path
variable {t : FileTree} {p q : Place} {e : Entry}

/-- Entries have names, and each stands in a directory. -/
structure WellFormed (t : FileTree) : Prop where
  name : ∀ {p e}, t.get? p = some e → ∀ n ∈ p, IsName n
  parent : ∀ {p n e}, t.get? (p ++ [n]) = some e → t.get? p = some .dir

theorem mem_entries {p : Place} {e : Entry} (hp : p ≠ []) (he : t.get? p = some e) :
    (p, e) ∈ t.entries := by
  cases p with
  | nil => contradiction
  | cons n p =>
    obtain ⟨l, r, hs, -⟩ := List.lookup_eq_some_iff.mp he
    rw [hs]
    exact List.mem_append_right _ List.mem_cons_self

/-- A tree that lists no link has none. -/
theorem not_link_of_entries (h : ∀ x ∈ t.entries, ∀ target, x.2 ≠ .link target) (p : Place)
    (target : Path) : t.get? p ≠ some (.link target) := by
  intro he
  by_cases hp : p = []
  · subst hp
    cases he
  · exact h _ (mem_entries hp he) target rfl

/-- It is enough to look at the entries listed. -/
theorem wellFormed_of_entries
    (h : ∀ x ∈ t.entries, (∀ n ∈ x.1, IsName n) ∧ t.get? x.1.dropLast = some .dir) :
    t.WellFormed := by
  constructor
  · intro p e he n hn
    exact (h _ (mem_entries (List.ne_nil_of_mem hn) he)).1 n hn
  · intro p n e he
    have hd := (h _ (mem_entries (by simp) he)).2
    rwa [List.dropLast_concat] at hd

theorem malformed?_path (h : ∀ n ∈ p, IsName n) :
    malformed? p.path = if maxPath < p.path.length then some .nameTooLong else none := by
  have hne : p.path ≠ [] := by
    intro he
    have hh := p.head?_path
    rw [he] at hh
    cases hh
  have h0 : p.path.contains 0 = false := by
    rw [Bool.eq_false_iff, ne_eq, List.contains_iff_mem]
    exact Place.zero_not_mem_path h
  rw [malformed?, if_neg hne, h0]
  rfl

theorem find_eq_ok_iff {creating : Bool} {cwd : Place} {path : Path} {found : Found} :
    t.find creating cwd path = .ok found ↔
      malformed? path = none ∧
        t.follow creating maxLinks (origin cwd path) path.steps = .ok found := by
  rw [find]
  cases malformed? path with
  | none => exact (and_iff_right rfl).symm
  | some fault => exact ⟨nofun, fun h => nomatch h.1⟩

theorem origin_path (p : Place) : origin [] p.path = [] := by
  unfold origin
  split <;> rfl

namespace WellFormed

/-- Above an entry there are only directories. -/
theorem dir_of_append (ht : t.WellFormed) (he : t.get? (p ++ q) = some e) (hq : q ≠ []) :
    t.get? p = some .dir := by
  induction q generalizing p with
  | nil => contradiction
  | cons n q ih =>
    rw [List.append_cons] at he
    cases q with
    | nil =>
      rw [List.append_nil] at he
      exact ht.parent he
    | cons m q => exact ht.parent (ih he (List.cons_ne_nil m q))

private theorem isDir_of_append (ht : t.WellFormed) (he : t.get? (p ++ q) = some e) (hq : q ≠ []) :
    t.isDir p = true := by
  rw [isDir, ht.dir_of_append he hq]
  rfl

/-- Names are followed down to the entry that they lead to, when it is no link. -/
theorem follow_append (ht : t.WellFormed) (creating : Bool) (links : Nat)
    (he : t.get? (p ++ q) = some e) (hlink : ∀ target, e ≠ .link target) :
    t.follow creating links p q = .ok (.entry (p ++ q)) := by
  induction q generalizing p with
  | nil => rw [follow, List.append_nil]
  | cons n q ih =>
    have hd : t.isDir p = true := ht.isDir_of_append he (List.cons_ne_nil n q)
    have hname : ∀ m ∈ n :: q, IsName m := fun m hm => ht.name he m (List.mem_append_right p hm)
    obtain ⟨hn0, hn1, hn2, -, -, hlen⟩ := hname n List.mem_cons_self
    -- The path of a place has no slash at its end, for which creating could be refused.
    have hlast : ¬ (creating = true ∧ q = [[]]) := by
      rintro ⟨-, rfl⟩
      exact (hname [] (by simp)).1 rfl
    rw [List.append_cons] at he ⊢
    have hgo := ih he
    have hnext : ∃ e', t.get? (p ++ [n]) = some e' ∧ ∀ target, e' ≠ .link target := by
      cases q with
      | nil =>
        rw [List.append_nil] at he
        exact ⟨e, he, hlink⟩
      | cons m q =>
        refine ⟨.dir, ht.dir_of_append he (List.cons_ne_nil m q), ?_⟩
        intro target h
        cases h
    obtain ⟨e', he', hl'⟩ := hnext
    rw [follow, if_neg (not_not_intro hd), if_neg (by simp [hn0, hn1]), if_neg hn2, if_neg hlast,
      if_neg (Nat.not_lt.mpr hlen), he']
    cases e' with
    | link target => exact absurd rfl (hl' target)
    | file data => exact hgo
    | dir => exact hgo

theorem find_path (ht : t.WellFormed) (creating : Bool) (he : t.get? p = some e)
    (hlink : ∀ target, e ≠ .link target) :
    t.find creating [] p.path =
      if maxPath < p.path.length then .error .nameTooLong else .ok (.entry p) := by
  have hf : t.follow creating maxLinks [] (Path.steps p.path) = .ok (.entry p) := by
    rw [Place.steps_path (ht.name he)]
    split
    · rename_i hp
      subst hp
      simp [follow, isDir]
    · exact ht.follow_append creating maxLinks he hlink
  rw [find, malformed?_path (ht.name he), origin_path, hf]
  by_cases hlen : maxPath < p.path.length
  · rw [if_pos hlen, if_pos hlen]
  · rw [if_neg hlen, if_neg hlen]

theorem resolve_path (ht : t.WellFormed) (he : t.get? p = some e)
    (hlink : ∀ target, e ≠ .link target) (hlen : p.path.length ≤ maxPath) :
    t.resolve [] p.path = .ok p := by
  rw [resolve, ht.find_path false he hlink, if_neg (Nat.not_lt.mpr hlen)]

theorem read_path (ht : t.WellFormed) {data : Bytes} (he : t.get? p = some (.file data)) :
    t.read [] p.path =
      if maxPath < p.path.length then .error .nameTooLong else .ok data := by
  rw [read, resolve, ht.find_path false he nofun]
  by_cases hlen : maxPath < p.path.length
  · simp [hlen]
  · simp [hlen, he]

theorem write_path (ht : t.WellFormed) {data : Bytes} (he : t.get? p = some (.file data))
    (data' : Bytes) :
    t.write [] p.path data' =
      if maxPath < p.path.length then .error .nameTooLong
      else if t.isLocked p then .error .denied
      else .ok (t.set p (.file data')) := by
  rw [write, writePlace, ht.find_path true he nofun]
  by_cases hlen : maxPath < p.path.length
  · simp only [if_pos hlen]
    rfl
  · have hd : t.isDir p = false := by
      rw [isDir, he]
      rfl
    simp only [if_neg hlen, hd, Bool.false_eq_true, if_false]
    split <;> rfl

end WellFormed

end FileTree

end Unstamp
