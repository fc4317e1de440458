import Unstamp.Stream.Source

namespace Unstamp.Source
variable {source : Source} {b : Bytes} {fault : IoFault}

/-- A source hands out these bytes, in pieces of any size, and then reports its end. An empty piece
is a report of the end. Any read may have been interrupted before. -/
inductive Hands : Source → Bytes → Prop where
  | ended : Hands ended []
  | empty (rest : Source) : Hands (piece [] rest) []
  | interrupted {rest : Source} {b : Bytes} (h : Hands rest b) : Hands (interrupted rest) b
  | piece {data : Bytes} (hne : data ≠ []) {rest : Source} {b : Bytes} (h : Hands rest b) :
      Hands (piece data rest) (data ++ b)

/-- A source fails at some point before it reports its end, and not by an interruption. -/
inductive Breaks : Source → IoFault → Prop where
  | broken (fault : IoFault) : Breaks (broken fault) fault
  | interrupted {rest : Source} {fault : IoFault} (h : Breaks rest fault) :
      Breaks (interrupted rest) fault
  | piece {data : Bytes} (hne : data ≠ []) {rest : Source} {fault : IoFault}
      (h : Breaks rest fault) : Breaks (piece data rest) fault

theorem readAll_piece {data : Bytes} (hne : data ≠ []) (rest : Source) :
    (piece data rest).readAll = rest.readAll.map (data ++ ·) := by
  cases data with
  | nil => contradiction
  | cons a r => rfl

theorem Hands.readAll (h : source.Hands b) : source.readAll = .ok b := by
  induction h with
  | ended => rfl
  | empty rest => rfl
  | interrupted h ih => exact ih
  | piece hne h ih =>
    rw [readAll_piece hne, ih]
    rfl

theorem Breaks.readAll (h : source.Breaks fault) : source.readAll = .error fault := by
  induction h with
  | broken fault => rfl
  | interrupted h ih => exact ih
  | piece hne h ih =>
    rw [readAll_piece hne, ih]
    rfl

theorem hands_whole (b : Bytes) : (whole b).Hands b := by
  cases b with
  | nil => exact .empty ended
  | cons a r =>
    have h : (whole (a :: r)).Hands ((a :: r) ++ []) := .piece (List.cons_ne_nil a r) .ended
    rwa [List.append_nil] at h

theorem hands_or_breaks (source : Source) :
    (∃ b, source.Hands b) ∨ ∃ fault, source.Breaks fault := by
  induction source with
  | ended => exact .inl ⟨[], .ended⟩
  | broken fault => exact .inr ⟨fault, .broken fault⟩
  | interrupted rest ih =>
    rcases ih with ⟨b, h⟩ | ⟨fault, h⟩
    · exact .inl ⟨b, .interrupted h⟩
    · exact .inr ⟨fault, .interrupted h⟩
  | piece data rest ih =>
    by_cases hne : data = []
    · subst hne
      exact .inl ⟨[], .empty rest⟩
    rcases ih with ⟨b, h⟩ | ⟨fault, h⟩
    · exact .inl ⟨data ++ b, .piece hne h⟩
    · exact .inr ⟨fault, .piece hne h⟩

end Unstamp.Source
