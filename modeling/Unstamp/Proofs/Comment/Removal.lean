import Unstamp.Comment

/-! Where a comment opens and where it ends, and what removal does at each place of a text. -/
namespace Unstamp.Comment

def OpensLine (t : Text) : Prop :=
  ['/', '/'] <+: t

def OpensBlock (t : Text) : Prop :=
  ['/', '*'] <+: t ∧ ¬ ['/', '*', '*'] <+: t

def Opens (t : Text) : Prop :=
  OpensLine t ∨ OpensBlock t

instance (t : Text) : Decidable (OpensLine t) :=
  inferInstanceAs (Decidable (_ <+: _))

instance (t : Text) : Decidable (OpensBlock t) :=
  inferInstanceAs (Decidable (_ ∧ _))

instance (t : Text) : Decidable (Opens t) :=
  inferInstanceAs (Decidable (_ ∨ _))

def lineEnd (t : Text) : Nat :=
  if ['\r', '\n'] <+: t then 2
  else if ['\n'] <+: t ∨ ['\r'] <+: t then 1
  else 0

def blockEnd (t : Text) : Nat :=
  if ['*', '/'] <+: t then 2 else 0

def firstIndex? (p : Text → Prop) [DecidablePred p] (t : Text) : Option Nat :=
  (List.range (t.length + 1)).find? fun i => p (t.drop i)

/-- What follows the first piece that has a length in the sense of `width`. -/
def after (width : Text → Nat) (t : Text) : Text :=
  match firstIndex? (fun u => width u ≠ 0) t with
  | none => []
  | some i => t.drop (i + width (t.drop i))

section Search
variable (p : Text → Prop) [DecidablePred p]

theorem firstIndex?_cons (c : Char) (r : Text) :
    firstIndex? p (c :: r) = if p (c :: r) then some 0 else (firstIndex? p r).map (· + 1) := by
  rw [firstIndex?, List.length_cons, List.range_succ_eq_map, List.find?_cons, List.find?_map]
  by_cases h : p (c :: r)
  · simp only [List.drop_zero, h, decide_true, if_true]
  · simp only [List.drop_zero, h, decide_false, if_false]
    rfl

variable {p}

theorem firstIndex?_lt (hp : ¬ p []) {t : Text} {i : Nat} (h : firstIndex? p t = some i) :
    i < t.length := by
  obtain ⟨hi, hmem, _⟩ := List.find?_range_eq_some.mp h
  have hle : i ≤ t.length := Nat.le_of_lt_succ (List.mem_range.mp hmem)
  apply Nat.lt_of_le_of_ne hle
  intro he
  rw [he, List.drop_length, decide_eq_true_eq] at hi
  exact hp hi

end Search

section After
variable (width : Text → Nat)

theorem after_nil : after width [] = [] := by
  unfold after
  split
  · rfl
  · exact List.drop_nil

theorem after_cons (c : Char) (r : Text) :
    after width (c :: r) =
      if width (c :: r) = 0 then after width r else (c :: r).drop (width (c :: r)) := by
  unfold after
  rw [firstIndex?_cons]
  by_cases h : width (c :: r) = 0
  · rw [if_neg (not_not_intro h), if_pos h]
    cases firstIndex? (fun u => width u ≠ 0) r with
    | none => rfl
    | some i =>
      rw [Option.map_some]
      simp only [List.drop_succ_cons, Nat.add_right_comm]
  · rw [if_pos h, if_neg h]
    simp only [List.drop_zero, Nat.zero_add]

theorem after_suffix (t : Text) : after width t <:+ t := by
  unfold after
  split
  · exact List.nil_suffix
  · exact List.drop_suffix _ _

variable {width}

theorem after_append {w r : Text} (h : ∀ s, s ≠ [] → s <:+ w → width (s ++ r) = 0) :
    after width (w ++ r) = after width r := by
  induction w with
  | nil => rfl
  | cons c w ih =>
    have hc : width (c :: (w ++ r)) = 0 := h (c :: w) (List.cons_ne_nil c w) List.suffix_rfl
    rw [List.cons_append, after_cons, if_pos hc]
    apply ih
    intro s hs hsuf
    exact h s hs (hsuf.trans (List.suffix_cons c w))

theorem after_of_width {w r : Text} (hne : w ≠ []) (h : width (w ++ r) = w.length) :
    after width (w ++ r) = r := by
  cases w with
  | nil => exact absurd rfl hne
  | cons c w =>
    have hpos : (c :: w).length ≠ 0 := Nat.succ_ne_zero w.length
    rw [List.cons_append, after_cons, ← List.cons_append, h, if_neg hpos, List.drop_left]

end After

theorem opens_line (r : Text) : Opens ('/' :: '/' :: r) :=
  .inl ⟨r, rfl⟩

theorem opens_star (r : Text) : Opens ('/' :: '*' :: r) ↔ ¬ ['*'] <+: r := by
  simp [Opens, OpensLine, OpensBlock, List.cons_prefix_cons]

theorem not_opens_of_ne {c : Char} (h : c ≠ '/') (r : Text) : ¬ Opens (c :: r) := by
  simp [Opens, OpensLine, OpensBlock, List.cons_prefix_cons, h.symm]

theorem not_opens_slash {c : Char} (hs : c ≠ '/') (hb : c ≠ '*') (r : Text) :
    ¬ Opens ('/' :: c :: r) := by
  simp [Opens, OpensLine, OpensBlock, List.cons_prefix_cons, hs.symm, hb.symm]

theorem opens_cases {t : Text} (h : Opens t) :
    (∃ r, t = '/' :: '/' :: r) ∨ ∃ r, t = '/' :: '*' :: r ∧ ¬ ['*'] <+: r := by
  rcases h with ⟨r, rfl⟩ | ⟨⟨r, rfl⟩, hd⟩
  · exact .inl ⟨r, rfl⟩
  · exact .inr ⟨r, rfl, (opens_star r).mp (.inr ⟨⟨r, rfl⟩, hd⟩)⟩

/-- A text is empty, or a comment opens at its front, or its first character is text. -/
@[elab_as_elim]
theorem openingInduction {motive : Text → Prop} (nil : motive [])
    (line : ∀ r, motive (after lineEnd r) → motive ('/' :: '/' :: r))
    (block : ∀ r, ¬ ['*'] <+: r → motive (after blockEnd r) → motive ('/' :: '*' :: r))
    (copy : ∀ c r, ¬ Opens (c :: r) → motive r → motive (c :: r)) (t : Text) : motive t := by
  induction h : t.length using Nat.strongRecOn generalizing t with
  | ind n ih =>
    have shorter {s r : Text} {c d : Char} (hs : t = c :: d :: s) (hr : r <:+ s) : motive r := by
      apply ih r.length _ r rfl
      rw [← h, hs]
      exact Nat.lt_succ_of_lt (Nat.lt_succ_of_le hr.length_le)
    cases t with
    | nil => exact nil
    | cons c r =>
      by_cases ho : Opens (c :: r)
      · rcases opens_cases ho with ⟨s, hs⟩ | ⟨s, hs, hd⟩
        · rw [hs]
          exact line s (shorter hs (after_suffix lineEnd s))
        · rw [hs]
          exact block s hd (shorter hs (after_suffix blockEnd s))
      · exact copy c r ho (ih r.length (h ▸ Nat.lt_succ_self _) r rfl)

theorem lineEnd_of_ne {c : Char} (hr : c ≠ '\r') (hn : c ≠ '\n') (r : Text) :
    lineEnd (c :: r) = 0 := by
  simp [lineEnd, List.cons_prefix_cons, hr.symm, hn.symm]

private theorem scan_line_cons (c : Char) (r : Text) :
    scan .line (c :: r) =
      if lineEnd (c :: r) = 0 then scan .line r
      else scan .code ((c :: r).drop (lineEnd (c :: r))) := by
  by_cases hn : c = '\n'
  · subst hn
    cases r <;> simp [scan, step, lineEnd, Step.copied, List.cons_prefix_cons]
  by_cases hr : c = '\r'
  · subst hr
    cases r with
    | nil => simp [scan, step, lineEnd, Step.copied]
    | cons d r =>
      by_cases hd : d = '\n'
      · subst hd
        simp [scan, step, lineEnd, Step.copied, List.cons_prefix_cons]
      · have hs : step .line '\r' (some d) r.head? = ⟨.code, false, false⟩ := by
          unfold step
          split <;> simp_all
        have he : lineEnd ('\r' :: d :: r) = 1 := by
          simp [lineEnd, List.cons_prefix_cons, Ne.symm hd]
        simp [scan, hs, he, Step.copied]
  · have hs (next peek : Option Char) : step .line c next peek = ⟨.line, false, false⟩ := by
      unfold step
      split <;> simp_all
    have he : lineEnd (c :: r) = 0 := lineEnd_of_ne hr hn r
    cases r <;> simp [scan, hs, he, Step.copied]

private theorem scan_block_cons (c : Char) (r : Text) :
    scan .block (c :: r) =
      if blockEnd (c :: r) = 0 then scan .block r
      else scan .code ((c :: r).drop (blockEnd (c :: r))) := by
  cases r with
  | nil => simp [scan, step, blockEnd, Step.copied, List.cons_prefix_cons]
  | cons d r =>
    by_cases h : c = '*' ∧ d = '/'
    · obtain ⟨rfl, rfl⟩ := h
      simp [scan, step, blockEnd, Step.copied, List.cons_prefix_cons]
    · have hs : step .block c (some d) r.head? = ⟨.block, false, false⟩ := by
        unfold step
        split <;> simp_all
      have he : blockEnd (c :: d :: r) = 0 := by
        simp only [blockEnd, List.cons_prefix_cons, List.nil_prefix, and_true, eq_comm, h, if_false]
      simp [scan, hs, he, Step.copied]

/-- Inside a comment a scan copies nothing up to its end. -/
private theorem scan_eq_after {mode : Mode} {width : Text → Nat}
    (h : ∀ c r, scan mode (c :: r) =
      if width (c :: r) = 0 then scan mode r else scan .code ((c :: r).drop (width (c :: r))))
    (t : Text) : scan mode t = scan .code (after width t) := by
  induction t with
  | nil => rw [after_nil, scan, scan]
  | cons c r ih =>
    rw [h, after_cons]
    split
    · exact ih
    · rfl

theorem remove_nil : remove [] = [] := rfl

theorem remove_line (r : Text) : remove ('/' :: '/' :: r) = remove (after lineEnd r) := by
  change scan .line r = _
  exact scan_eq_after scan_line_cons r

theorem remove_block {r : Text} (h : ¬ ['*'] <+: r) :
    remove ('/' :: '*' :: r) = remove (after blockEnd r) := by
  have hd : r.head? ≠ some '*' := by
    intro hr
    obtain ⟨s, rfl⟩ := List.head?_eq_some_iff.mp hr
    exact h ⟨s, rfl⟩
  have hs : step .code '/' (some '*') r.head? = ⟨.block, false, true⟩ := by
    unfold step
    split <;> simp_all
  have he : remove ('/' :: '*' :: r) = scan .block r := by
    simp [remove, scan, hs, Step.copied]
  rw [he]
  exact scan_eq_after scan_block_cons r

private theorem remove_of_ne {c : Char} (h : c ≠ '/') (r : Text) :
    remove (c :: r) = c :: remove r := by
  have hs (next peek : Option Char) : step .code c next peek = ⟨.code, true, false⟩ := by
    unfold step
    split <;> simp_all
  cases r <;> simp [remove, scan, hs, Step.copied]

/-- What opens no comment is copied. Of documentation the scan takes two characters at once, and
goes on as it would have gone on with the second of them. -/
theorem remove_copy {c : Char} {r : Text} (h : ¬ Opens (c :: r)) :
    remove (c :: r) = c :: remove r := by
  by_cases hc : c = '/'
  · subst hc
    cases r with
    | nil => rfl
    | cons d r =>
      by_cases hd : d = '*'
      · subst hd
        obtain ⟨s, rfl⟩ := Decidable.by_contra fun hr => h ((opens_star r).mpr hr)
        rw [List.singleton_append, remove_of_ne (show '*' ≠ '/' by decide)]
        rfl
      · have hl : d ≠ '/' := by
          rintro rfl
          exact h (opens_line r)
        have hs : step .code '/' (some d) r.head? = ⟨.code, true, false⟩ := by
          unfold step
          split <;> simp_all
        simp [remove, scan, hs, Step.copied]
  · exact remove_of_ne hc r

theorem remove_append_copy {w r : Text} (h : ∀ s, s ≠ [] → s <:+ w → ¬ Opens (s ++ r)) :
    remove (w ++ r) = w ++ remove r := by
  induction w with
  | nil => rfl
  | cons c w ih =>
    have hc : ¬ Opens (c :: (w ++ r)) := h (c :: w) (List.cons_ne_nil c w) List.suffix_rfl
    rw [List.cons_append, remove_copy hc, List.cons_append]
    congr 1
    apply ih
    intro s hs hsuf
    exact h s hs (hsuf.trans (List.suffix_cons c w))

/-- Without a slash there is no comment. -/
theorem remove_append_of_not_mem {w : Text} (h : '/' ∉ w) (r : Text) :
    remove (w ++ r) = w ++ remove r := by
  apply remove_append_copy
  intro s hs hsuf
  obtain ⟨c, s, rfl⟩ := List.exists_cons_of_ne_nil hs
  have hc : c ≠ '/' := by
    rintro rfl
    exact h (hsuf.mem List.mem_cons_self)
  exact not_opens_of_ne hc (s ++ r)

example : remove "a/*/b*//**/c//d\r\r\ne".toList = "a/**/c\r\ne".toList := by decide

/-- Removal only leaves characters out. -/
theorem remove_sublist (t : Text) : (remove t).Sublist t := by
  induction t using openingInduction with
  | nil => exact List.Sublist.refl []
  | line r ih =>
    rw [remove_line]
    have hr : (after lineEnd r).Sublist r := (after_suffix lineEnd r).sublist
    exact ((ih.trans hr).cons _).cons _
  | block r h ih =>
    rw [remove_block h]
    have hr : (after blockEnd r).Sublist r := (after_suffix blockEnd r).sublist
    exact ((ih.trans hr).cons _).cons _
  | copy c r h ih =>
    rw [remove_copy h]
    exact ih.cons_cons c

end Unstamp.Comment
