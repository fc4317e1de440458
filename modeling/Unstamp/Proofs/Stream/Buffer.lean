import Unstamp.Proofs.Stream.Sink
import Unstamp.Stream.Buffer

namespace Unstamp
variable {σ : Type}

namespace Sink

private theorem flushes_took (s : Sink σ) (state : σ) (data : Bytes) :
    flushes { s with state, deeds := .took data :: s.deeds } = s.flushes := by
  simp [flushes]

theorem write_spec (s : Sink σ) (data : Bytes) :
    (s.write data).2.flushes = s.flushes ∧
      ((∃ fault, (s.write data).1 = .error fault ∧ (s.write data).2.written = s.written) ∨
        ∃ n, (s.write data).1 = .ok n ∧ (s.write data).2.written = s.written ++ data.take n) := by
  rw [Sink.write]
  split
  · rename_i fault state _
    exact ⟨rfl, .inl ⟨fault, rfl, rfl⟩⟩
  · rename_i n state _
    exact ⟨flushes_took s state _, .inr ⟨min n data.length, rfl, written_took s state _⟩⟩

theorem pour_spec (stuck : IoFault) (s : Sink σ) (data : Bytes) :
    (s.pour stuck data).2.2.flushes = s.flushes ∧
      (∃ p, data = p ++ (s.pour stuck data).2.1 ∧
        (s.pour stuck data).2.2.written = s.written ++ p) ∧
      ((s.pour stuck data).1 = .ok () ↔ (s.pour stuck data).2.1 = []) := by
  induction hl : data.length using Nat.strongRecOn generalizing s data with
  | ind l ih =>
    cases data with
    | nil => simp [Sink.pour]
    | cons b r =>
      have hne := List.cons_ne_nil b r
      obtain ⟨hf, ⟨fault, hr, hw⟩ | ⟨n, hr, hw⟩⟩ := s.write_spec (b :: r)
      · rw [pour_of_write_error (Prod.ext hr rfl) hne]
        exact ⟨hf, ⟨[], rfl, hw.trans (List.append_nil _).symm⟩, by simp⟩
      cases n with
      | zero =>
        rw [pour_of_write_nothing (Prod.ext hr rfl) hne]
        exact ⟨hf, ⟨[], rfl, hw⟩, by simp⟩
      | succ n =>
        have hlt : (r.drop n).length < l := by
          rw [← hl, List.length_drop, List.length_cons]
          omega
        obtain ⟨hf', ⟨p, hp, hw'⟩, hr'⟩ := ih _ hlt (s.write (b :: r)).2 (r.drop n) rfl
        rw [pour_of_write (Prod.ext hr rfl) hne, List.drop_succ_cons]
        refine ⟨hf'.trans hf, ⟨b :: (r.take n ++ p), ?_, ?_⟩, hr'⟩
        · rw [List.cons_append, List.append_assoc, ← hp, List.take_append_drop]
        · rw [hw', hw, List.append_assoc, List.take_succ_cons, List.cons_append]

theorem writeAll_spec (s : Sink σ) (data : Bytes) :
    (s.writeAll data).2.flushes = s.flushes ∧
      ∃ p, p <+: data ∧ (s.writeAll data).2.written = s.written ++ p ∧
        ((s.writeAll data).1 = .ok () ↔ p = data) := by
  obtain ⟨hf, ⟨p, hp, hw⟩, hr⟩ := s.pour_spec .tookNothing data
  refine ⟨hf, p, ⟨_, hp.symm⟩, hw, hr.trans ?_⟩
  constructor
  · intro hn
    rw [hn, List.append_nil] at hp
    exact hp.symm
  · intro he
    rw [he] at hp
    exact List.self_eq_append_right.mp hp

end Sink

namespace Buffer

def received (w : Buffer σ) : Bytes :=
  w.sink.written ++ w.waiting

/-- A write of `data` from `w` on ended with `r`: a first part of the data was received, all of it
just if the write succeeded, and the sink was not flushed. -/
def Received (w : Buffer σ) (data : Bytes) (r : Except IoFault Unit × Buffer σ) : Prop :=
  r.2.sink.flushes = w.sink.flushes ∧
    ∃ p, p <+: data ∧ r.2.received = w.received ++ p ∧ (r.1 = .ok () ↔ p = data)

private theorem received_append (w : Buffer σ) (data : Bytes) :
    Received w data (.ok (), w.append data) := by
  refine ⟨rfl, data, List.prefix_rfl, ?_, by simp⟩
  rw [received, append, ← List.append_assoc]
  rfl

/-- Emptying a buffer moves bytes on to the sink, and leaves none behind just if it succeeds. -/
theorem empty_spec (w : Buffer σ) :
    w.empty.2.sink.flushes = w.sink.flushes ∧ w.empty.2.received = w.received ∧
      (w.empty.1 = .ok () ↔ w.empty.2.waiting = []) := by
  obtain ⟨hf, ⟨p, hp, hw⟩, hr⟩ := w.sink.pour_spec .bufferStuck w.waiting
  refine ⟨hf, ?_, hr⟩
  calc w.empty.2.received
      = (w.sink.written ++ p) ++ (w.sink.pour .bufferStuck w.waiting).2.1 :=
        congrArg (· ++ _) hw
    _ = w.received := by rw [List.append_assoc, ← hp, received]

/-- A write straight to the sink must find nothing waiting, or it would overtake it. -/
private theorem received_place {w : Buffer σ} (data : Bytes)
    (h : capacity ≤ data.length → w.waiting = []) : Received w data (w.place data) := by
  rw [place]
  split
  · rename_i hc
    obtain ⟨hf, p, hp, hw, hr⟩ := w.sink.writeAll_spec data
    refine ⟨hf, p, hp, ?_, hr⟩
    change (w.sink.writeAll data).2.written ++ w.waiting = (w.sink.written ++ w.waiting) ++ p
    rw [hw, h hc, List.append_nil, List.append_nil]
  · exact received_append w data

theorem received_writeAll (w : Buffer σ) (data : Bytes) : Received w data (w.writeAll data) := by
  rw [writeAll]
  split
  · exact received_append w data
  split
  · rename_i hroom
    obtain ⟨hf, hw, hr⟩ := w.empty_spec
    split
    · rename_i fault w' he
      rw [he] at hf hw
      have hd : data ≠ [] := List.ne_nil_of_length_pos (by omega)
      exact ⟨hf, [], List.nil_prefix, by rw [List.append_nil]; exact hw, by simp [hd.symm]⟩
    · rename_i w' he
      rw [he] at hf hw hr
      obtain ⟨hf', p, hp, hw', hr'⟩ := received_place data fun _ => hr.mp rfl
      exact ⟨hf'.trans hf, p, hp, by rw [hw', hw], hr'⟩
  · apply received_place
    intro hc
    -- What just fits and is as long as the buffer finds the buffer empty.
    apply List.eq_nil_of_length_eq_zero
    unfold room at *
    have hpos : 0 < capacity := by decide
    omega

/-- A flush that succeeds is one flush of the sink, after it took all that waited. Nothing is left
that giving up the buffer could still write. -/
theorem flush_ok {w w' : Buffer σ} (h : w.flush = (.ok (), w')) :
    ∃ s : Sink σ, s.flush = (.ok (), w'.sink) ∧ s.written = w.received ∧
      s.flushes = w.sink.flushes ∧ w'.release = w'.sink := by
  obtain ⟨hf, hw, hr⟩ := w.empty_spec
  rw [flush] at h
  split at h
  · cases h
  · rename_i w₁ he
    rw [he] at hf hw hr
    obtain ⟨hok, rfl⟩ := Prod.mk.inj h
    have hn : w₁.waiting = [] := hr.mp rfl
    refine ⟨w₁.sink, ?_, ?_, hf, ?_⟩
    · rw [← hok]
    · rw [← hw, received, hn, List.append_nil]
    · rw [release, empty, hn, Sink.pour]

section Unfailing
variable {w : Buffer σ}

private theorem empty_of_unfailing (h : w.sink.Unfailing) :
    ∃ w', w.empty = (.ok (), w') ∧ w'.sink.Unfailing := by
  obtain ⟨s, hp, hs, -⟩ := h.pour .bufferStuck w.waiting
  refine ⟨{ sink := s }, ?_, hs⟩
  rw [empty, hp]

private theorem place_of_unfailing (h : w.sink.Unfailing) (data : Bytes) :
    ∃ w', w.place data = (.ok (), w') ∧ w'.sink.Unfailing := by
  rw [place]
  split
  · obtain ⟨s, hp, hs, -⟩ := h.writeAll data
    refine ⟨{ w with sink := s }, ?_, hs⟩
    rw [hp]
  · exact ⟨_, rfl, h⟩

theorem writeAll_of_unfailing (h : w.sink.Unfailing) (data : Bytes) :
    ∃ w', w.writeAll data = (.ok (), w') ∧ w'.sink.Unfailing := by
  rw [writeAll]
  split
  · exact ⟨_, rfl, h⟩
  split
  · obtain ⟨w₁, he, h₁⟩ := empty_of_unfailing h
    rw [he]
    exact place_of_unfailing h₁ data
  · exact place_of_unfailing h data

theorem flush_of_unfailing (h : w.sink.Unfailing) : ∃ w', w.flush = (.ok (), w') := by
  obtain ⟨w₁, he, h₁⟩ := empty_of_unfailing h
  obtain ⟨s, hs, -⟩ := h₁.flush
  refine ⟨{ w₁ with sink := s }, ?_⟩
  rw [flush, he]
  simp only [hs]

end Unfailing

end Buffer

end Unstamp
