import Unstamp.Proofs.Path

/-! Where names lead in a tree when any number of links may be passed on the way. -/
namespace Unstamp.FileTree
open Unstamp.Path
variable {t u w : FileTree} {p q m : Place} {n : Name} {ns xs ys : List Name} {e : Entry}

/-- A name leads from a directory to a place, from where other names come before those after it. -/
inductive Step (t : FileTree) (p : Place) (n : Name) : Place → List Name → Prop where
  | stay (hd : t.isDir p = true) (hn : step? n = none) : Step t p n p []
  | up (hd : t.isDir p = true) (hn : step? n = some .up) : Step t p n p.dropLast []
  | down {e : Entry} (hd : t.isDir p = true) (hn : step? n = some (.name n))
      (he : t.get? (p ++ [n]) = some e) (hl : ∀ target, e ≠ .link target) :
      Step t p n (p ++ [n]) []
  | link {target : Path} (hd : t.isDir p = true) (hn : step? n = some (.name n))
      (he : t.get? (p ++ [n]) = some (.link target)) :
      Step t p n (if target.isAbsolute then [] else p) target.steps

/-- Names lead from a place to an entry. -/
inductive Leads (t : FileTree) : Place → List Name → Place → Prop where
  | here (p : Place) : Leads t p [] p
  | next {p m q : Place} {n : Name} {ms ns : List Name} (hs : t.Step p n m ms)
      (h : Leads t m (ms ++ ns) q) : Leads t p (n :: ns) q

/-- Names are followed from a place as far as to another, with these left. -/
inductive Goes (t : FileTree) : Place → List Name → Place → List Name → Prop where
  | here (p : Place) (ns : List Name) : Goes t p ns p ns
  | next {p m q : Place} {n : Name} {ms ns rest : List Name} (hs : t.Step p n m ms)
      (h : Goes t m (ms ++ ns) q rest) : Goes t p (n :: ns) q rest

def SameAt (t u : FileTree) (p : Place) : Prop :=
  t.get? p = u.get? p ∨ ∃ data data', t.get? p = some (.file data) ∧ u.get? p = some (.file data')

namespace SameAt

theorem symm (h : t.SameAt u p) : u.SameAt t p := by
  rcases h with he | ⟨data, data', ht, hu⟩
  · exact .inl he.symm
  · exact .inr ⟨data', data, hu, ht⟩

theorem trans (h : t.SameAt u p) (h' : u.SameAt w p) : t.SameAt w p := by
  rcases h with he | ⟨data, data', ht, hu⟩
  · rw [SameAt, he]
    exact h'
  · rcases h' with he' | ⟨_, data'', ht', hw⟩
    · exact .inr ⟨data, data', ht, he'.symm.trans hu⟩
    · exact .inr ⟨data, data'', ht, hw⟩

theorem isDir (h : t.SameAt u p) : t.isDir p = u.isDir p := by
  rw [FileTree.isDir, FileTree.isDir]
  rcases h with he | ⟨_, _, ht, hu⟩
  · rw [he]
  · rw [ht, hu]
    rfl

theorem none (h : t.SameAt u p) (hp : t.get? p = none) : u.get? p = none := by
  rcases h with he | ⟨_, _, ht, _⟩
  · exact he.symm.trans hp
  · rw [hp] at ht
    cases ht

theorem link (h : t.SameAt u p) {target : Path} (hp : t.get? p = some (.link target)) :
    u.get? p = some (.link target) := by
  rcases h with he | ⟨_, _, ht, _⟩
  · exact he.symm.trans hp
  · rw [hp] at ht
    cases ht

end SameAt

/-- Other entries are new, and files can have other bytes. -/
def Kept (t u : FileTree) : Prop :=
  ∀ p e, t.get? p = some e →
    u.get? p = some e ∨ ∃ data data', e = .file data ∧ u.get? p = some (.file data')

namespace Kept

theorem refl (t : FileTree) : t.Kept t :=
  fun _ _ he => .inl he

theorem trans (h : t.Kept u) (h' : u.Kept w) : t.Kept w := by
  intro p e he
  rcases h p e he with hu | ⟨data, data', rfl, hu⟩
  · exact h' p e hu
  · rcases h' p _ hu with hw | ⟨_, data'', -, hw⟩
    · exact .inr ⟨data, data', rfl, hw⟩
    · exact .inr ⟨data, data'', rfl, hw⟩

theorem isDir (h : t.Kept u) (hd : t.isDir p = true) : u.isDir p = true := by
  rcases h p .dir (beq_iff_eq.mp hd) with hu | ⟨_, _, hne, -⟩
  · exact beq_iff_eq.mpr hu
  · cases hne

theorem file {data : Bytes} (h : t.Kept u) (hf : t.get? p = some (.file data)) :
    ∃ data', u.get? p = some (.file data') := by
  rcases h p _ hf with hu | ⟨_, data', -, hu⟩
  · exact ⟨data, hu⟩
  · exact ⟨data', hu⟩

theorem step (h : t.Kept u) {ms : List Name} (hs : t.Step p n m ms) : u.Step p n m ms := by
  cases hs with
  | stay hd hn => exact .stay (h.isDir hd) hn
  | up hd hn => exact .up (h.isDir hd) hn
  | down hd hn he hl =>
    rcases h _ _ he with hu | ⟨_, data', -, hu⟩
    · exact .down (h.isDir hd) hn hu hl
    · exact .down (h.isDir hd) hn hu nofun
  | link hd hn he =>
    rcases h _ _ he with hu | ⟨_, _, hne, -⟩
    · exact .link (h.isDir hd) hn hu
    · cases hne

theorem leads (h : t.Kept u) (hl : t.Leads p ns q) : u.Leads p ns q := by
  induction hl with
  | here p => exact .here p
  | next hs _ ih => exact .next (h.step hs) ih

end Kept

theorem Step.unique {m' : Place} {ms ms' : List Name} (h : t.Step p n m ms)
    (h' : t.Step p n m' ms') : m = m' ∧ ms = ms' := by
  cases h with
  | stay _ hn =>
    cases h' with
    | stay => exact ⟨rfl, rfl⟩
    | up _ hn' | down _ hn' | link _ hn' => cases hn.symm.trans hn'
  | up _ hn =>
    cases h' with
    | up => exact ⟨rfl, rfl⟩
    | stay _ hn' | down _ hn' | link _ hn' => cases hn.symm.trans hn'
  | down _ hn he hl =>
    cases h' with
    | down => exact ⟨rfl, rfl⟩
    | link _ _ he' => exact absurd (Option.some.inj (he.symm.trans he')) (hl _)
    | stay _ hn' | up _ hn' => cases hn.symm.trans hn'
  | link _ hn he =>
    cases h' with
    | link _ _ he' =>
      cases he.symm.trans he'
      exact ⟨rfl, rfl⟩
    | down _ _ he' hl => exact absurd (Option.some.inj (he'.symm.trans he)) (hl _)
    | stay _ hn' | up _ hn' => cases hn.symm.trans hn'

namespace Leads

/-- Names lead to one place at most. -/
theorem unique (h : t.Leads p ns q) (h' : t.Leads p ns m) : q = m := by
  induction h with
  | here p =>
    cases h'
    rfl
  | next hs _ ih =>
    cases h' with
    | next hs' h' =>
      obtain ⟨rfl, rfl⟩ := hs.unique hs'
      exact ih h'

theorem append (h : t.Leads p xs m) (h' : t.Leads m ys q) : t.Leads p (xs ++ ys) q := by
  induction h with
  | here => exact h'
  | next hs _ ih =>
    have hrest := ih h'
    rw [List.append_assoc] at hrest
    exact .next hs hrest

theorem split (h : t.Leads p (xs ++ ys) q) : ∃ m, t.Leads p xs m ∧ t.Leads m ys q := by
  generalize hns : xs ++ ys = ns at h
  induction h generalizing xs with
  | here p =>
    obtain ⟨rfl, rfl⟩ := List.append_eq_nil_iff.mp hns
    exact ⟨p, .here p, .here p⟩
  | @next p _ q n ms ns hs h ih =>
    rcases List.append_eq_cons_iff.mp hns with ⟨rfl, rfl⟩ | ⟨xs, rfl, rfl⟩
    · exact ⟨p, .here p, .next hs h⟩
    · obtain ⟨m, hm, hq⟩ := ih (List.append_assoc ms xs ys)
      exact ⟨m, .next hs hm, hq⟩

/-- One name more leads to an entry of the directory that the names before it lead to. -/
theorem concat (h : t.Leads p ns m) (hd : t.isDir m = true) (hn : IsName n)
    (he : t.get? (m ++ [n]) = some e) (hl : ∀ target, e ≠ .link target) :
    t.Leads p (ns ++ [n]) (m ++ [n]) :=
  h.append (.next (.down hd hn.normal.step? he hl) (.here _))

end Leads

/-- A path that is followed to an entry leads there. -/
theorem leads_of_follow {creating : Bool} {links : Nat}
    (h : t.follow creating links p ns = .ok (.entry q)) : t.Leads p ns q := by
  fun_induction FileTree.follow t creating links p ns with
  | case1 links p =>
    cases h
    exact .here _
  | case3 links p n ns hd hn ih =>
    exact .next (.stay (Decidable.of_not_not hd) (if_pos hn)) (ih h)
  | case4 links p ns hd hn ih =>
    exact .next (.up (Decidable.of_not_not hd) rfl) (ih h)
  | case10 p n ns hd hn hup hc hlen target hg links ih =>
    have hname : step? n = some (.name n) := by rw [step?, if_neg hn, if_neg hup]
    exact .next (.link (Decidable.of_not_not hd) hname hg) (ih h)
  | case11 links p n ns hd hn hup hc hlen e hl hg ih =>
    have hname : step? n = some (.name n) := by rw [step?, if_neg hn, if_neg hup]
    exact .next (.down (Decidable.of_not_not hd) hname hg hl) (ih h)
  | case2 | case5 | case6 | case7 | case8 | case9 => cases h

/-- Names are followed alike in trees that are the same where they are looked at. -/
theorem follow_congr (creating : Bool) (links : Nat)
    (h : ∀ m n ms, t.Goes p ns m (n :: ms) → t.SameAt u m ∧ t.SameAt u (m ++ [n])) :
    t.follow creating links p ns = u.follow creating links p ns := by
  fun_induction FileTree.follow t creating links p ns with
  | case1 => rw [FileTree.follow]
  | case2 links p n ns hd =>
    obtain ⟨hp, -⟩ := h p n ns (.here _ _)
    rw [FileTree.follow, ← hp.isDir, if_pos hd]
  | case3 links p n ns hd hn ih =>
    obtain ⟨hp, -⟩ := h p n ns (.here _ _)
    have hs : t.Step p n p [] := .stay (Decidable.of_not_not hd) (if_pos hn)
    rw [FileTree.follow, ← hp.isDir, if_neg hd, if_pos hn,
      ih fun m k ms hg => h m k ms (.next hs hg)]
  | case4 links p ns hd hn ih =>
    obtain ⟨hp, -⟩ := h p _ ns (.here _ _)
    have hs : t.Step p [dot, dot] p.dropLast [] := .up (Decidable.of_not_not hd) rfl
    rw [FileTree.follow, ← hp.isDir, if_neg hd, if_neg hn, if_pos rfl,
      ih fun m k ms hg => h m k ms (.next hs hg)]
  | case5 links p n ns hd hn hup hc =>
    obtain ⟨hp, -⟩ := h p n ns (.here _ _)
    rw [FileTree.follow, ← hp.isDir, if_neg hd, if_neg hn, if_neg hup, if_pos hc]
  | case6 links p n ns hd hn hup hc hlen =>
    obtain ⟨hp, -⟩ := h p n ns (.here _ _)
    rw [FileTree.follow, ← hp.isDir, if_neg hd, if_neg hn, if_neg hup, if_neg hc, if_pos hlen]
  | case7 links p n hd hn hup hlen hg hc =>
    obtain ⟨hp, hpn⟩ := h p n [] (.here _ _)
    rw [FileTree.follow, ← hp.isDir, if_neg hd, if_neg hn, if_neg hup, if_neg hc, if_neg hlen,
      hpn.none hg]
    rfl
  | case8 links p n ns hd hn hup hc hlen hg hr =>
    obtain ⟨hp, hpn⟩ := h p n ns (.here _ _)
    rw [FileTree.follow, ← hp.isDir, if_neg hd, if_neg hn, if_neg hup, if_neg hc, if_neg hlen,
      hpn.none hg]
    exact (if_neg hr).symm
  | case9 p n ns hd hn hup hc hlen target hg =>
    obtain ⟨hp, hpn⟩ := h p n ns (.here _ _)
    rw [FileTree.follow, ← hp.isDir, if_neg hd, if_neg hn, if_neg hup, if_neg hc, if_neg hlen,
      hpn.link hg]
  | case10 p n ns hd hn hup hc hlen target hg links ih =>
    obtain ⟨hp, hpn⟩ := h p n ns (.here _ _)
    have hname : step? n = some (.name n) := by rw [step?, if_neg hn, if_neg hup]
    have hs : t.Step p n _ target.steps := .link (Decidable.of_not_not hd) hname hg
    rw [FileTree.follow, ← hp.isDir, if_neg hd, if_neg hn, if_neg hup, if_neg hc, if_neg hlen,
      hpn.link hg]
    exact ih fun m k ms hg => h m k ms (.next hs hg)
  | case11 links p n ns hd hn hup hc hlen e hl hg ih =>
    obtain ⟨hp, hpn⟩ := h p n ns (.here _ _)
    have hname : step? n = some (.name n) := by rw [step?, if_neg hn, if_neg hup]
    have hs : t.Step p n (p ++ [n]) [] := .down (Decidable.of_not_not hd) hname hg hl
    have hrest := ih fun m k ms hg => h m k ms (.next hs hg)
    rw [FileTree.follow, ← hp.isDir, if_neg hd, if_neg hn, if_neg hup, if_neg hc, if_neg hlen]
    rcases hpn with he | ⟨_, _, _, hu⟩
    · rw [← he, hg]
      cases e with
      | link target => exact absurd rfl (hl target)
      | file data => exact hrest
      | dir => exact hrest
    · rw [hu]
      exact hrest

/-- The path of a place resolves, if at all, to where the names of the place lead. -/
theorem leads_of_resolve (hp : ∀ n ∈ p, IsName n) (h : t.resolve [] p.path = .ok q) :
    p.path.length ≤ maxPath ∧ t.Leads [] p q := by
  rw [resolve, find, malformed?_path hp, origin_path] at h
  by_cases hlen : maxPath < p.path.length
  · rw [if_pos hlen] at h
    cases h
  · rw [if_neg hlen] at h
    refine ⟨Nat.not_lt.mp hlen, ?_⟩
    simp only at h
    split at h
    · cases h
    · cases h
    · rename_i hf
      cases h
      have hl := leads_of_follow hf
      rw [Place.steps_path hp] at hl
      split at hl
      · rename_i hnil
        subst hnil
        cases hl with
        | next hs h =>
          obtain ⟨rfl, rfl⟩ := hs.unique (.stay rfl rfl)
          exact h
      · exact hl

/-- A place leads to its own entry, when that is no link. -/
theorem WellFormed.leads (ht : t.WellFormed) (he : t.get? p = some e)
    (hl : ∀ target, e ≠ .link target) : t.Leads [] p p :=
  leads_of_follow (ht.follow_append (p := []) (q := p) false 0 he hl)

/-- A name leads from a directory where its own place leads. -/
theorem WellFormed.leads_concat (ht : t.WellFormed) (hd : t.isDir p = true)
    (h : t.Leads p [n] q) : t.Leads [] (p ++ [n]) q :=
  (ht.leads (beq_iff_eq.mp hd) nofun).append h

end Unstamp.FileTree
