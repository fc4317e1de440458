import Unstamp.Text.Basic

namespace Unstamp.Line

def Bare (l : Text) : Prop :=
  '\n' ∉ l ∧ '\r' ∉ l

def joined (ls : List Text) : Text :=
  ls.flatMap fun l => l ++ ['\n']

theorem bare_nil : Bare [] :=
  ⟨List.not_mem_nil, List.not_mem_nil⟩

theorem bare_cons {c : Char} {l : Text} : Bare (c :: l) ↔ (c ≠ '\n' ∧ c ≠ '\r') ∧ Bare l := by
  simp only [Bare, List.mem_cons, not_or, ne_comm, and_and_and_comm]

private theorem joined_cons (l : Text) (ls : List Text) :
    joined (l :: ls) = l ++ '\n' :: joined ls := by
  rw [joined, List.flatMap_cons, List.append_assoc]
  rfl

theorem split_feed (r : Text) : split ('\n' :: r) = [] :: split r := by
  rw [split]

theorem split_cons {c : Char} (hn : c ≠ '\n') (hr : c ≠ '\r') (r : Text) :
    split (c :: r) =
      match split r with
      | [] => [[c]]
      | l :: ls => (c :: l) :: ls := by
  rw [split.eq_def]
  split
  · contradiction
  · rename_i h
    cases h
    exact absurd rfl hr
  · rename_i h
    cases h
    exact absurd rfl hn
  · rename_i h
    cases h
    exact absurd rfl hr
  · rename_i h
    cases h
    rfl

theorem bare_of_mem_split {t l : Text} (h : l ∈ split t) : Bare l := by
  fun_induction split t generalizing l with
  | case1 => cases h
  | case2 r ih | case3 r ih | case4 r _ ih =>
    rcases List.mem_cons.mp h with rfl | h
    · exact bare_nil
    · exact ih h
  | case5 c r _ hn hr he ih =>
    obtain rfl := List.mem_singleton.mp h
    exact bare_cons.mpr ⟨⟨hn, hr⟩, bare_nil⟩
  | case6 c r _ hn hr m ms he ih =>
    rw [he] at ih
    rcases List.mem_cons.mp h with rfl | h
    · exact bare_cons.mpr ⟨⟨hn, hr⟩, ih List.mem_cons_self⟩
    · exact ih (List.mem_cons_of_mem m h)

private theorem split_append {l : Text} (h : Bare l) (r : Text) :
    split (l ++ '\n' :: r) = l :: split r := by
  induction l with
  | nil => exact split_feed r
  | cons c l ih =>
    obtain ⟨⟨hn, hr⟩, hl⟩ := bare_cons.mp h
    rw [List.cons_append, split_cons hn hr, ih hl]

theorem split_joined {ls : List Text} (h : ∀ l ∈ ls, Bare l) : split (joined ls) = ls := by
  induction ls with
  | nil => rfl
  | cons l ls ih =>
    obtain ⟨hl, hls⟩ := List.forall_mem_cons.mp h
    rw [joined_cons, split_append hl, ih hls]

def Ended (t : Text) : Prop :=
  t = [] ∨ t.getLast? = some '\n'

instance (t : Text) : Decidable (Ended t) :=
  inferInstanceAs (Decidable (_ ∨ _))

private theorem ended_joined (ls : List Text) : Ended (joined ls) := by
  rcases ls.eq_nil_or_concat with rfl | ⟨ls, l, rfl⟩
  · exact .inl rfl
  · right
    rw [List.concat_eq_append, joined, List.flatMap_append, List.flatMap_singleton,
      ← List.append_assoc, List.getLast?_concat]

theorem Ended.tail {c : Char} {r : Text} (h : Ended (c :: r)) : Ended r := by
  cases r with
  | nil => exact .inl rfl
  | cons d r =>
    rcases h with h | h
    · cases h
    · rw [List.getLast?_cons_cons] at h
      exact .inr h

private theorem not_mem_return_joined {ls : List Text} (h : ∀ l ∈ ls, Bare l) :
    '\r' ∉ joined ls := by
  intro hr
  obtain ⟨l, hl, hm⟩ := List.mem_flatMap.mp hr
  rcases List.mem_append.mp hm with hm | hm
  · exact (h l hl).2 hm
  · exact absurd (List.mem_singleton.mp hm) (by decide)

private theorem joined_split {t : Text} (he : Ended t) (hr : '\r' ∉ t) : joined (split t) = t := by
  induction t with
  | nil => rfl
  | cons c r ih =>
    have hcr : c ≠ '\r' := by
      rintro rfl
      exact hr List.mem_cons_self
    have ih := ih he.tail fun h => hr (List.mem_cons_of_mem c h)
    by_cases hn : c = '\n'
    · subst hn
      rw [split_feed, joined_cons, ih]
      rfl
    · rw [split_cons hn hcr]
      cases hs : split r with
      | nil =>
        -- A last character that is no line feed is excluded.
        rw [hs] at ih
        obtain rfl : r = [] := ih.symm
        rcases he with he | he
        · cases he
        · cases he
          exact absurd rfl hn
      | cons l ls =>
        rw [hs, joined_cons] at ih
        simp only [joined_cons, List.cons_append, ih]

/-- Lines end in line feeds alone, the last one too, and none starts with the marker. -/
structure Canonical (marker : Char) (t : Text) : Prop where
  ended : Ended t
  no_return : '\r' ∉ t
  unmarked : ∀ l ∈ split t, isMarked marker l = false

instance (marker : Char) (t : Text) : Decidable (Canonical marker t) :=
  decidable_of_iff (Ended t ∧ '\r' ∉ t ∧ ∀ l ∈ split t, isMarked marker l = false)
    ⟨fun h => ⟨h.1, h.2.1, h.2.2⟩, fun h => ⟨h.ended, h.no_return, h.unmarked⟩⟩

/-- A text is what is made up of its unmarked lines just if it is in canonical form. -/
theorem joined_unmarked_eq_self_iff {marker : Char} {t : Text} :
    joined ((split t).filter fun l => !isMarked marker l) = t ↔ Canonical marker t := by
  constructor
  · intro h
    have hbare : ∀ l ∈ (split t).filter fun l => !isMarked marker l, Bare l := by
      intro l hl
      exact bare_of_mem_split (List.mem_filter.mp hl).1
    have hsplit := split_joined hbare
    rw [h] at hsplit
    refine ⟨h ▸ ended_joined _, h ▸ not_mem_return_joined hbare, ?_⟩
    intro l hl
    rw [hsplit] at hl
    simpa using (List.mem_filter.mp hl).2
  · intro h
    have hall : ∀ l ∈ split t, (!isMarked marker l) = true := by
      intro l hl
      rw [h.unmarked l hl]
      rfl
    rw [List.filter_eq_self.mpr hall, joined_split h.ended h.no_return]

end Unstamp.Line
