import Unstamp.Proofs.FileTree.Placing
import Unstamp.Proofs.Run.InPlace

namespace Unstamp

namespace FileTree
open Unstamp.Path
variable {t u : FileTree} {out p : Place}

/-- A place into which output can go: something stands there, and no link below it. -/
structure Outlet (t : FileTree) (out : Place) : Prop where
  holds : t.Holds out
  unlinked : ∀ p target, t.get? (out ++ p) ≠ some (.link target)

namespace Outlet

theorem get?_ne_none (h : t.Outlet out) : t.get? out ≠ none := by
  rcases h.holds with hd | ⟨data, hd⟩
  · rw [isDir_iff.mp hd]
    nofun
  · rw [hd]
    nofun

theorem isName (ht : t.WellFormed) (h : t.Outlet out) : ∀ n ∈ out, IsName n := by
  obtain ⟨e, he⟩ := Option.ne_none_iff_exists'.mp h.get?_ne_none
  exact ht.name he

/-- Above the outlet there are only directories. -/
theorem dir_above (ht : t.WellFormed) (h : t.Outlet out) (hp : p <+: out) (hne : p ≠ out) :
    t.get? p = some .dir := by
  obtain ⟨e, he⟩ := Option.ne_none_iff_exists'.mp h.get?_ne_none
  obtain ⟨q, rfl⟩ := hp
  refine ht.dir_of_append he ?_
  rintro rfl
  exact hne (List.append_nil p).symm

theorem unlinked_append (ht : t.WellFormed) (h : t.Outlet out) (p : Place) :
    t.Unlinked (out ++ p) := by
  intro q hq target he
  rcases List.prefix_or_prefix_of_prefix hq (List.prefix_append out p) with hqo | ⟨r, rfl⟩
  · by_cases hne : q = out
    · exact h.unlinked [] target (by rw [List.append_nil, ← hne, he])
    · rw [h.dir_above ht hqo hne] at he
      cases he
  · exact h.unlinked r target he

/-- Output below the outlet leaves the outlet itself and all outside of it as it is. -/
theorem placing?_eq_none (ht : t.WellFormed) (h : t.Outlet out) {q : Place} (hq : q ≠ [])
    (data : Option Bytes) (hp : out <+: p → p = out) : placing? t (out ++ q) data p = none := by
  cases data with
  | none => rfl
  | some data =>
    rw [placing?]
    by_cases hpre : p <+: out ++ q
    · have hle : p <+: out := by
        rcases List.prefix_or_prefix_of_prefix hpre (List.prefix_append out q) with h | h
        · exact h
        · exact hp h ▸ List.prefix_refl p
      have hne : p ≠ out ++ q := by
        rintro rfl
        exact hq (List.append_right_eq_self.mp (hp (List.prefix_append out q)))
      refine placing_of_some t data hne ?_
      by_cases ho : p = out
      · exact ho ▸ h.get?_ne_none
      · rw [h.dir_above ht hle ho]
        exact Option.some_ne_none _
    · exact placing_of_not_above t data hpre

end Outlet

end FileTree

namespace Run
open Unstamp.Path FileTree
variable {p d : Place} {t : FileTree} {data : Bytes}

/-- Output changes no entry but a file. -/
theorem kept_of_placing {out : Place} {u : FileTree} (ho : t.Outlet out) {names : List Name}
    {output : Option Bytes} (h : t.Overlaid (placing? t (out ++ names) output) u) : t.Kept u := by
  intro p e he
  rw [h.get?]
  by_cases hp : p = out ++ names
  · subst hp
    cases output with
    | none => exact .inl he
    | some after =>
      rw [placing?, placing_self]
      by_cases ha : t.accepts (out ++ names) = true
      · rw [if_pos ha, Option.some_or]
        cases e with
        | file data => exact .inr ⟨data, after, rfl, rfl⟩
        | link target => exact absurd he (ho.unlinked names target)
        | dir => exact absurd he (isDir_eq_false_iff.mp (accepts_iff.mp ha).2.2.1)
      · rw [if_neg ha, Option.none_or]
        exact .inl he
  · rw [placing?_of_some t output hp (by simp [he]), Option.none_or]
    exact .inl he

/-- Output is put where the tree accepts it. -/
theorem put_output (ht : t.WellFormed) (hd : ∀ n ∈ d, IsName n) (hl : t.Unlinked d) (hne : d ≠ [])
    (place : Place) (cleaned : Cleaned) :
    ∃ r u, put false t place (some d) cleaned = (r, u) ∧ u.WellFormed ∧
      t.Overlaid (t.placing d cleaned.after) u ∧ (r = .ok () → t.accepts d = true) := by
  obtain ⟨p, n, rfl⟩ : ∃ (p : Place) (n : Name), d = p ++ [n] := by
    rcases d.eq_nil_or_concat with rfl | ⟨p, n, rfl⟩
    · contradiction
    · exact ⟨p, n, List.concat_eq_append⟩
  have hp : ∀ m ∈ p, IsName m := fun m hm => hd m (List.mem_append_left [n] hm)
  have hn : IsName n := hd n (List.mem_append_right p (List.mem_singleton.mpr rfl))
  have hlp : t.Unlinked p := hl.above (List.prefix_append p [n])
  have hmake := ht.makeDirAll_path hp hlp
  rw [put, List.dropLast_concat]
  cases hway : t.hasWay p with
  | true =>
    obtain ⟨hlen, hopen⟩ := hasWay_iff.mp hway
    rw [if_pos ⟨hlen, hopen⟩] at hmake
    obtain ⟨u, hu, hwf, ho⟩ := hmake
    have hup : u.get? p = some .dir := dir_of_paving hopen hlp ho
    have hsame : u.accepts (p ++ [n]) = t.accepts (p ++ [n]) := accepts_paving hopen hlp ho hwf n
    have hwrite := hwf.write_accepted hd (unlinked_of_paving ho hl) hup cleaned.after
    simp only [hu, Cleaner.store]
    cases ha : t.accepts (p ++ [n]) with
    | true =>
      rw [ha] at hsame
      rw [if_pos hsame] at hwrite
      have hfree := isDir_eq_false_iff.mp (accepts_iff.mp hsame).2.2.1
      rw [hwrite]
      refine ⟨_, _, rfl, hwf.set hup hn hfree _, (ho.trans (.set u _ hne)).congr fun q => ?_,
        fun _ => rfl⟩
      exact (placing_of_accepts ha cleaned.after q).symm
    | false =>
      rw [hsame, ha] at hwrite
      obtain ⟨fault, hwrite⟩ := hwrite
      rw [hwrite]
      refine ⟨_, u, rfl, hwf, ho.congr fun q => ?_, fun h => by cases h⟩
      exact (placing_of_refused hway ha cleaned.after q).symm
  | false =>
    rw [if_neg (mt hasWay_iff.mpr (Bool.eq_false_iff.mp hway))] at hmake
    obtain ⟨fault, hu⟩ := hmake
    simp only [hu]
    refine ⟨_, t, rfl, ht, (Overlaid.refl t).congr fun q => ?_, fun h => by cases h⟩
    exact (placing_of_blocked hway n cleaned.after q).symm

def yield? (c : Cleaner) (p : Place) (data : Bytes) : Option Bytes :=
  if maxPath < p.path.length then none
  else
    match c.cleanBytes data with
    | .ok (_, after) => some after
    | .error _ => none

/-- A file is read, cleaned and put where it belongs, and this is reported; or a notice says that
it was not. -/
theorem cleanFile_output (ht : t.WellFormed) (hp : t.get? p = some (.file data))
    (hd : ∀ n ∈ d, IsName n) (hl : t.Unlinked d) (hne : d ≠ []) (c : Cleaner) (file : Text) :
    ∃ u es, cleanFile false t c file p (some d) = (u, es) ∧ u.WellFormed ∧
      t.Overlaid (placing? t d (yield? c p data)) u ∧
      ((∃ fault, es = [.notice (.notCleaned file fault)]) ∨
        ∃ outcome after, c.cleanBytes data = .ok (outcome, after) ∧
          u.get? d = some (.file after) ∧ es = reportEvents file c ⟨data, after, outcome⟩) := by
  rw [cleanFile, Cleaner.load_path ht hp, yield?]
  by_cases hlen : maxPath < p.path.length
  · simp only [if_pos hlen]
    exact ⟨t, _, rfl, ht, .refl t, .inl ⟨_, rfl⟩⟩
  · simp only [if_neg hlen]
    cases hb : c.cleanBytes data with
    | error fault => exact ⟨t, _, rfl, ht, .refl t, .inl ⟨_, rfl⟩⟩
    | ok result =>
      obtain ⟨outcome, after⟩ := result
      obtain ⟨r, u, hput, hwf, ho, hr⟩ := put_output ht hd hl hne p ⟨data, after, outcome⟩
      simp only [hput]
      cases r with
      | error fault => exact ⟨u, _, rfl, hwf, ho, .inl ⟨fault, rfl⟩⟩
      | ok _ =>
        refine ⟨u, _, rfl, hwf, ho, .inr ⟨outcome, after, rfl, ?_, rfl⟩⟩
        rw [ho.get?, placing_self, if_pos (hr rfl), Option.some_or]

end Run

end Unstamp
