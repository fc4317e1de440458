import Unstamp.Proofs.Comment.Removal

namespace Unstamp

def IsAscii (c : Char) : Prop :=
  c.toNat < 0x80

instance (c : Char) : Decidable (IsAscii c) :=
  inferInstanceAs (Decidable (_ < _))

-- Through the members of the text: there is also a search through all characters.
instance (t : Text) : Decidable (∀ c ∈ t, IsAscii c) :=
  List.decidableBAll IsAscii t

/-- Which runs may stand for a character. -/
structure Spelling (spells : Char → Text → Prop) : Prop where
  ascii : ∀ {c w}, spells c w → IsAscii c → w = [c]
  wide : ∀ {c w}, spells c w → ¬ IsAscii c → w ≠ [] ∧ ∀ d ∈ w, ¬ IsAscii d

/-- The second text is the first one with a run for each character. -/
inductive Spelled (spells : Char → Text → Prop) : Text → Text → Prop where
  | nil : Spelled spells [] []
  | cons {c : Char} {w t u : Text} (hc : spells c w) (h : Spelled spells t u) :
      Spelled spells (c :: t) (w ++ u)

namespace Spelled
variable {spells : Char → Text → Prop} {s t u : Text}

private theorem cons_ascii (hs : Spelling spells) {c : Char} (hc : IsAscii c)
    (h : Spelled spells (c :: t) u) : ∃ v, u = c :: v ∧ spells c [c] ∧ Spelled spells t v := by
  cases h with
  | @cons _ w _ v hw ht =>
    obtain rfl := hs.ascii hw hc
    exact ⟨v, rfl, hw, ht⟩

/-- Both texts start with the same words of ASCII, and go on as the one spelled out in the other. -/
private theorem prefix_iff (hs : Spelling spells) (h : Spelled spells t u)
    (ha : ∀ c ∈ s, IsAscii c) :
    s <+: u ↔ s <+: t := by
  induction h generalizing s with
  | nil => rfl
  | @cons c w t u hw _ ih =>
    cases s with
    | nil => exact ⟨fun _ => List.nil_prefix, fun _ => List.nil_prefix⟩
    | cons a s =>
      obtain ⟨ha, has⟩ := List.forall_mem_cons.mp ha
      by_cases hc : IsAscii c
      · obtain rfl := hs.ascii hw hc
        rw [List.singleton_append, List.cons_prefix_cons, List.cons_prefix_cons, ih has]
      · obtain ⟨hne, hwide⟩ := hs.wide hw hc
        obtain ⟨d, v, rfl⟩ := List.exists_cons_of_ne_nil hne
        have hd : a ≠ d := by
          rintro rfl
          exact hwide a List.mem_cons_self ha
        have hac : a ≠ c := by
          rintro rfl
          exact hc ha
        rw [List.cons_append, List.cons_prefix_cons, List.cons_prefix_cons]
        simp only [hd, hac, false_and]

private theorem drop_prefix (hs : Spelling spells) (h : Spelled spells t u)
    (ha : ∀ c ∈ s, IsAscii c)
    (hp : s <+: t) : Spelled spells (t.drop s.length) (u.drop s.length) := by
  induction s generalizing t u with
  | nil => exact h
  | cons a s ih =>
    obtain ⟨ha, has⟩ := List.forall_mem_cons.mp ha
    obtain ⟨r, rfl⟩ := hp
    rw [List.cons_append] at h ⊢
    obtain ⟨v, rfl, -, hv⟩ := h.cons_ascii hs ha
    exact ih hv has ⟨r, rfl⟩

/-- No word of ASCII starts inside a run of other characters. -/
private theorem infix_append_iff {w : Text} (hw : ∀ d ∈ w, ¬ IsAscii d) (hs : s ≠ [])
    (ha : ∀ c ∈ s, IsAscii c) : s <:+: w ++ u ↔ s <:+: u := by
  induction w with
  | nil => rfl
  | cons d w ih =>
    obtain ⟨hd, hw⟩ := List.forall_mem_cons.mp hw
    have hp : ¬ s <+: d :: (w ++ u) := by
      obtain ⟨a, s, rfl⟩ := List.exists_cons_of_ne_nil hs
      rw [List.cons_prefix_cons]
      rintro ⟨rfl, -⟩
      exact hd (ha a List.mem_cons_self)
    rw [List.cons_append, List.infix_cons_iff, ih hw]
    exact or_iff_right hp

/-- The same words of ASCII stand in both texts. -/
theorem infix_iff (hspell : Spelling spells) (h : Spelled spells t u) (hs : s ≠ [])
    (ha : ∀ c ∈ s, IsAscii c) : s <:+: u ↔ s <:+: t := by
  induction h with
  | nil => rfl
  | @cons c w t u hw ht ih =>
    by_cases hc : IsAscii c
    · obtain rfl := hspell.ascii hw hc
      have hp := (cons hw ht).prefix_iff hspell ha
      rw [List.singleton_append] at hp ⊢
      rw [List.infix_cons_iff, List.infix_cons_iff, hp, ih]
    · have hc' : ∀ d ∈ [c], ¬ IsAscii d := by
        rintro d hd
        exact List.mem_singleton.mp hd ▸ hc
      rw [infix_append_iff (hspell.wide hw hc).2 hs ha, ih]
      exact (infix_append_iff hc' hs ha).symm

end Spelled

namespace Comment
variable {spells : Char → Text → Prop} {t u : Text}

structure AsciiWidth (width : Text → Nat) : Prop where
  word : ∀ t, ∃ s, (∀ c ∈ s, IsAscii c) ∧ s <+: t ∧ s.length = width t
  spelled : ∀ {spells t u}, Spelling spells → Spelled spells t u → width u = width t

private theorem asciiWidth_lineEnd : AsciiWidth lineEnd where
  word t := by
    unfold lineEnd
    split
    · exact ⟨['\r', '\n'], by decide, ‹_›, rfl⟩
    split
    · rename_i h
      rcases h with h | h
      · exact ⟨['\n'], by decide, h, rfl⟩
      · exact ⟨['\r'], by decide, h, rfl⟩
    · exact ⟨[], by decide, List.nil_prefix, rfl⟩
  spelled hs h := by
    have hcrlf := h.prefix_iff (s := ['\r', '\n']) hs (by decide)
    have hlf := h.prefix_iff (s := ['\n']) hs (by decide)
    have hcr := h.prefix_iff (s := ['\r']) hs (by decide)
    simp only [lineEnd, hcrlf, hlf, hcr]

private theorem asciiWidth_blockEnd : AsciiWidth blockEnd where
  word t := by
    unfold blockEnd
    split
    · exact ⟨['*', '/'], by decide, ‹_›, rfl⟩
    · exact ⟨[], by decide, List.nil_prefix, rfl⟩
  spelled hs h := by
    have hclose := h.prefix_iff (s := ['*', '/']) hs (by decide)
    simp only [blockEnd, hclose]

namespace AsciiWidth
variable {width : Text → Nat}

theorem drop (hw : AsciiWidth width) (hs : Spelling spells) (h : Spelled spells t u) :
    Spelled spells (t.drop (width t)) (u.drop (width u)) := by
  obtain ⟨s, ha, hp, hl⟩ := hw.word t
  rw [hw.spelled hs h, ← hl]
  exact h.drop_prefix hs ha hp

private theorem eq_zero (hw : AsciiWidth width) {c : Char} (hc : ¬ IsAscii c) (r : Text) :
    width (c :: r) = 0 := by
  obtain ⟨s, ha, hp, hl⟩ := hw.word (c :: r)
  cases s with
  | nil => exact hl.symm
  | cons a s =>
    obtain ⟨rfl, -⟩ := List.cons_prefix_cons.mp hp
    exact absurd (ha a List.mem_cons_self) hc

theorem after_append (hw : AsciiWidth width) {w : Text} (h : ∀ d ∈ w, ¬ IsAscii d) (r : Text) :
    after width (w ++ r) = after width r := by
  apply Comment.after_append
  intro s hs hsuf
  obtain ⟨d, s, rfl⟩ := List.exists_cons_of_ne_nil hs
  exact hw.eq_zero (h d (hsuf.mem List.mem_cons_self)) (s ++ r)

/-- What follows the first terminator or delimiter is spelled out in what follows it there. -/
theorem after (hw : AsciiWidth width) (hs : Spelling spells) (h : Spelled spells t u) :
    Spelled spells (Comment.after width t) (Comment.after width u) := by
  induction h with
  | nil =>
    rw [after_nil]
    exact .nil
  | @cons c w t u hc ht ih =>
    by_cases ha : IsAscii c
    · obtain rfl := hs.ascii hc ha
      have hwidth := hw.spelled hs (.cons hc ht)
      have hdrop := hw.drop hs (.cons hc ht)
      rw [List.singleton_append] at hwidth hdrop ⊢
      rw [after_cons, after_cons, hwidth]
      split
      · exact ih
      · rw [hwidth] at hdrop
        exact hdrop
    · rw [hw.after_append (hs.wide hc ha).2, after_cons, if_pos (hw.eq_zero ha t)]
      exact ih

end AsciiWidth

theorem opens_spelled_iff (hs : Spelling spells) (h : Spelled spells t u) :
    Opens u ↔ Opens t := by
  have hline := h.prefix_iff (s := ['/', '/']) hs (by decide)
  have hblock := h.prefix_iff (s := ['/', '*']) hs (by decide)
  have hdoc := h.prefix_iff (s := ['/', '*', '*']) hs (by decide)
  rw [Opens, Opens, OpensLine, OpensLine, OpensBlock, OpensBlock, hline, hblock, hdoc]

theorem remove_append {w : Text} (h : ∀ d ∈ w, ¬ IsAscii d) (r : Text) :
    remove (w ++ r) = w ++ remove r := by
  apply remove_append_of_not_mem
  intro hslash
  exact h '/' hslash (by decide)

/-- Removal goes through both texts in step: what it leaves of the one is spelled out in what it
leaves of the other. -/
theorem remove_spelled (hs : Spelling spells) (h : Spelled spells t u) :
    Spelled spells (remove t) (remove u) := by
  induction t using openingInduction generalizing u with
  | nil =>
    cases h
    exact .nil
  | line r ih =>
    obtain ⟨u, rfl, -, h⟩ := h.cons_ascii hs (by decide)
    obtain ⟨u, rfl, -, h⟩ := h.cons_ascii hs (by decide)
    rw [remove_line, remove_line]
    exact ih (asciiWidth_lineEnd.after hs h)
  | block r hr ih =>
    obtain ⟨u, rfl, -, h⟩ := h.cons_ascii hs (by decide)
    obtain ⟨u, rfl, -, h⟩ := h.cons_ascii hs (by decide)
    have hu : ¬ ['*'] <+: u := by rwa [h.prefix_iff hs (by decide)]
    rw [remove_block hr, remove_block hu]
    exact ih (asciiWidth_blockEnd.after hs h)
  | copy c r ho ih =>
    have hu := mt (opens_spelled_iff hs h).mp ho
    cases h with
    | @cons _ w _ u hc hr =>
      rw [remove_copy ho]
      by_cases ha : IsAscii c
      · obtain rfl := hs.ascii hc ha
        rw [List.singleton_append] at hu ⊢
        rw [remove_copy hu]
        exact .cons hc (ih hr)
      · rw [remove_append (hs.wide hc ha).2]
        exact .cons hc (ih hr)

end Comment

end Unstamp
