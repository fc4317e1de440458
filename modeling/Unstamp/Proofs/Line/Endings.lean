import Mathlib.Data.List.Chain
import Unstamp.Proofs.Line

namespace Unstamp

namespace Text
variable {old new r : Text} {c : Char}

def replaced (old new : Text) : Text → Text
  | [] => []
  | c :: r =>
    if old.isPrefixOf (c :: r) then new ++ replaced old new (r.drop (old.length - 1))
    else c :: replaced old new r
termination_by t => t.length
decreasing_by
  · rw [List.length_drop, List.length_cons]
    omega
  · rw [List.length_cons]
    omega

private theorem replaced_of_prefix (h : old ≠ []) (r : Text) :
    replaced old new (old ++ r) = new ++ replaced old new r := by
  obtain ⟨c, s, rfl⟩ := List.exists_cons_of_ne_nil h
  have hp : (c :: s).isPrefixOf (c :: (s ++ r)) = true :=
    List.isPrefixOf_iff_prefix.mpr (List.prefix_append (c :: s) r)
  rw [List.cons_append, replaced, if_pos hp, List.length_cons, Nat.add_sub_cancel, List.drop_left]

private theorem replaced_of_not_prefix (h : ¬ old <+: c :: r) :
    replaced old new (c :: r) = c :: replaced old new r := by
  rw [replaced, if_neg (mt List.isPrefixOf_iff_prefix.mp h)]

end Text

namespace Line
variable {c : Char} {l r : Text}

/-- The text with a line feed for each ending: first for a carriage return and a line feed together,
then for each carriage return that is left. -/
def uniform (t : Text) : Text :=
  Text.replaced ['\r'] ['\n'] (Text.replaced ['\r', '\n'] ['\n'] t)

def pieces (t : Text) : List Text :=
  if (t.splitOn '\n').getLast? = some [] then (t.splitOn '\n').dropLast else t.splitOn '\n'

theorem uniform_nil : uniform [] = [] := by
  simp [uniform, Text.replaced]

private theorem not_prefix_of_ne (h : c ≠ '\r') (s q : Text) : ¬ '\r' :: s <+: c :: q :=
  fun hp => h (List.cons_prefix_cons.mp hp).1.symm

theorem uniform_cons (h : c ≠ '\r') (r : Text) : uniform (c :: r) = c :: uniform r := by
  rw [uniform, Text.replaced_of_not_prefix (not_prefix_of_ne h _ _),
    Text.replaced_of_not_prefix (not_prefix_of_ne h _ _), uniform]

private theorem uniform_both (r : Text) : uniform ('\r' :: '\n' :: r) = '\n' :: uniform r := by
  have hboth : Text.replaced ['\r', '\n'] ['\n'] ('\r' :: '\n' :: r) =
      '\n' :: Text.replaced ['\r', '\n'] ['\n'] r :=
    Text.replaced_of_prefix (by decide) r
  rw [uniform, hboth, Text.replaced_of_not_prefix (not_prefix_of_ne (by decide) _ _), uniform]

private theorem uniform_carriage (h : ∀ s, r ≠ '\n' :: s) : uniform
    ('\r' :: r) = '\n' :: uniform r := by
  have hnot : ¬ ['\r', '\n'] <+: '\r' :: r := by
    rintro ⟨s, hs⟩
    exact h s (List.cons.inj hs).2.symm
  rw [uniform, Text.replaced_of_not_prefix hnot]
  exact Text.replaced_of_prefix (by decide) _

theorem pieces_nil : pieces [] = [] := by
  simp [pieces]

theorem pieces_feed (t : Text) : pieces ('\n' :: t) = [] :: pieces t := by
  have hsplit : ('\n' :: t).splitOn '\n' = [] :: t.splitOn '\n' := by
    simp only [List.splitOn_eq_splitOnP, List.splitOnP_cons_eq_if_modifyHead, beq_self_eq_true,
      if_true]
  have hne : t.splitOn '\n' ≠ [] := List.splitOn_ne_nil _ _
  rw [pieces, pieces, hsplit, List.getLast?_cons_of_ne_nil hne, List.dropLast_cons_of_ne_nil hne]
  split <;> rfl

theorem pieces_cons (h : c ≠ '\n') (t : Text) :
    pieces (c :: t) =
      match pieces t with
      | [] => [[c]]
      | l :: ls => (c :: l) :: ls := by
  have hsplit : (c :: t).splitOn '\n' = (t.splitOn '\n').modifyHead (c :: ·) := by
    simp only [List.splitOn_eq_splitOnP, List.splitOnP_cons_eq_if_modifyHead, beq_iff_eq, h,
      if_false]
  rw [pieces, pieces, hsplit]
  rcases hs : t.splitOn '\n' with _ | ⟨l, _ | ⟨m, ms⟩⟩
  · exact absurd hs (List.splitOn_ne_nil _ _)
  · cases l <;> rfl
  · simp only [List.modifyHead, List.getLast?_cons_cons, List.dropLast_cons_cons]
    split <;> rfl

/-- The lines of a text are the pieces between its line feeds, when all endings are made line
feeds. -/
theorem split_eq_pieces (t : Text) : split t = pieces (uniform t) := by
  fun_induction split t with
  | case1 => rw [uniform_nil, pieces_nil]
  | case2 r ih => rw [uniform_both, pieces_feed, ih]
  | case3 r ih => rw [uniform_cons (by decide), pieces_feed, ih]
  | case4 r h ih => rw [uniform_carriage h, pieces_feed, ih]
  | case5 c r _ hn hr he ih => rw [uniform_cons hr, pieces_cons hn, ← ih, he]
  | case6 c r _ hn hr l ls he ih => rw [uniform_cons hr, pieces_cons hn, ← ih, he]

inductive Ending where
  | feed
  | carriage
  /-- A carriage return and a line feed. -/
  | both
  deriving DecidableEq, Repr

def Ending.text : Ending → Text
  | feed => ['\n']
  | carriage => ['\r']
  | both => ['\r', '\n']

structure Written where
  ended : List (Text × Ending)
  rest : Text := []
  deriving DecidableEq, Repr

namespace Written

def text (w : Written) : Text :=
  (w.ended.flatMap fun l => l.1 ++ l.2.text) ++ w.rest

def lines (w : Written) : List Text :=
  w.ended.map Prod.fst ++ if w.rest = [] then [] else [w.rest]

/-- Each ending can be told from what is written around it: no line has one in it, and no carriage
return stands directly before the line feed of an empty line. -/
structure Legible (w : Written) : Prop where
  bare : ∀ l ∈ w.ended, Bare l.1
  rest : Bare w.rest
  apart : w.ended.IsChain fun l m => l.2 = .carriage → m ≠ ([], .feed)

instance (l : Text) : Decidable (Bare l) :=
  inferInstanceAs (Decidable (_ ∧ _))

instance (w : Written) : Decidable w.Legible :=
  decidable_of_iff ((∀ l ∈ w.ended, Bare l.1) ∧ Bare w.rest ∧
      w.ended.IsChain fun l m => l.2 = .carriage → m ≠ ([], .feed))
    ⟨fun h => ⟨h.1, h.2.1, h.2.2⟩, fun h => ⟨h.bare, h.rest, h.apart⟩⟩

end Written

private theorem split_bare (h : Bare l) : split l = if l = [] then [] else [l] := by
  induction l with
  | nil => rfl
  | cons c l ih =>
    obtain ⟨⟨hn, hr⟩, hl⟩ := bare_cons.mp h
    rw [split_cons hn hr, ih hl]
    cases l <;> rfl

private theorem split_append_of_empty {ls : List Text} (h : Bare l) (hr : split r = [] :: ls) :
    split (l ++ r) = l :: ls := by
  induction l with
  | nil => exact hr
  | cons c l ih =>
    obtain ⟨⟨hc, hc'⟩, hl⟩ := bare_cons.mp h
    rw [List.cons_append, split_cons hc hc', ih hl]

private theorem split_ending (e : Ending) (h : e = .carriage → ∀ s, r ≠ '\n' :: s) :
    split (e.text ++ r) = [] :: split r := by
  cases e with
  | feed => exact split_feed r
  | carriage =>
    change split ('\r' :: r) = _
    rw [split]
    exact h rfl
  | both =>
    change split ('\r' :: '\n' :: r) = _
    rw [split]

namespace Written
variable {w : Written} {m : Text × Ending} {ended : List (Text × Ending)}

private theorem text_cons : text ⟨m :: ended, r⟩ = m.1 ++ (m.2.text ++ text ⟨ended, r⟩) := by
  simp only [text, List.flatMap_cons, List.append_assoc]

theorem Legible.tail (h : Legible ⟨m :: ended, r⟩) : Legible ⟨ended, r⟩ :=
  ⟨fun l hl => h.bare l (List.mem_cons_of_mem m hl), h.rest, h.apart.tail⟩

/-- What is written after a carriage return does not start with a line feed. -/
theorem Legible.not_feed (h : Legible ⟨m :: ended, r⟩) (hm : m.2 = .carriage) (s : Text) :
    text ⟨ended, r⟩ ≠ '\n' :: s := by
  intro hs
  cases ended with
  | nil =>
    obtain rfl : r = '\n' :: s := hs
    exact h.rest.1 List.mem_cons_self
  | cons n ended =>
    obtain ⟨l, e⟩ := n
    have hne : (l, e) ≠ ([], .feed) := (List.isChain_cons_cons.mp h.apart).1 hm
    have hl : Bare l := h.tail.bare (l, e) List.mem_cons_self
    rw [text_cons] at hs
    cases l with
    | nil =>
      cases e with
      | feed => exact hne rfl
      | carriage | both => cases hs
    | cons c l =>
      obtain ⟨rfl, -⟩ := List.cons.inj hs
      exact hl.1 List.mem_cons_self

/-- The lines of a text are the lines that were written, whatever endings they were given, and
whether the last one was given any. -/
theorem Legible.split_text (h : w.Legible) : split w.text = w.lines := by
  obtain ⟨ended, rest⟩ := w
  induction ended with
  | nil => exact split_bare h.rest
  | cons m ended ih =>
    have hend : split (m.2.text ++ text ⟨ended, rest⟩) = [] :: lines ⟨ended, rest⟩ := by
      rw [split_ending m.2 h.not_feed, ih h.tail]
    rw [text_cons, split_append_of_empty (h.bare m List.mem_cons_self) hend]
    rfl

end Written

end Line

end Unstamp
