import Unstamp.Stream.Sink

namespace Unstamp
variable {σ : Type}

/-- In the good states a device takes at least one byte of a write, flushes with success, and
stays in them. -/
structure Device.Steady (d : Device σ) (good : σ → Prop) : Prop where
  write : ∀ {state}, good state → ∀ b data,
    ∃ n state', (d.write state (b :: data)).settled = (.ok (n + 1), state') ∧ good state'
  flush : ∀ {state}, good state → ∃ state', d.flush state = (.ok (), state') ∧ good state'

namespace Sink

section Pour
variable {stuck fault : IoFault} {s s' : Sink σ} {data : Bytes}

theorem pour_of_write_error (h : s.write data = (.error fault, s')) (hne : data ≠ []) :
    s.pour stuck data = (.error fault, data, s') := by
  cases data with
  | nil => contradiction
  | cons b r => rw [Sink.pour, h]

theorem pour_of_write_nothing (h : s.write data = (.ok 0, s')) (hne : data ≠ []) :
    s.pour stuck data = (.error stuck, data, s') := by
  cases data with
  | nil => contradiction
  | cons b r => rw [Sink.pour, h]

theorem pour_of_write {n : Nat} (h : s.write data = (.ok (n + 1), s')) (hne : data ≠ []) :
    s.pour stuck data = s'.pour stuck (data.drop (n + 1)) := by
  cases data with
  | nil => contradiction
  | cons b r => rw [Sink.pour, h, List.drop_succ_cons]

end Pour

def Unfailing (s : Sink σ) : Prop :=
  ∃ good, s.device.Steady good ∧ good s.state

theorem unfailing_memory : memory.Unfailing :=
  ⟨fun _ => True, ⟨fun _ _ data => ⟨data.length, (), rfl, trivial⟩, fun _ => ⟨(), rfl, trivial⟩⟩,
    trivial⟩

/-- Room without end and writes of at least one byte are enough, however small the writes. -/
theorem unfailing_of_limits {l : Limits} (hb : l.budget = none) (hc : l.chunk ≠ some 0)
    (hf : l.flushFails = false) : l.sink.Unfailing := by
  refine ⟨fun _ => True, ⟨?_, ?_⟩, trivial⟩
  · intro used _ b data
    cases h : l.chunk with
    | none =>
      refine ⟨data.length, used + (data.length + 1), ?_, trivial⟩
      simp only [Limits.sink, Limits.device, Limits.take, hb, h, List.length_cons, Reply.settled]
    | some n =>
      cases n with
      | zero => exact absurd h hc
      | succ n =>
        refine ⟨min data.length n, used + (min data.length n + 1), ?_, trivial⟩
        simp only [Limits.sink, Limits.device, Limits.take, hb, h, List.length_cons,
          Nat.add_min_add_right, Reply.settled]
  · intro used _
    refine ⟨used, ?_, trivial⟩
    simp only [Limits.sink, Limits.device, hf, Bool.false_eq_true, if_false]

theorem Unfailing.write {s : Sink σ} (h : s.Unfailing) (b : UInt8) (data : Bytes) :
    ∃ n s', s.write (b :: data) = (.ok (n + 1), s') ∧ s'.Unfailing ∧
      s'.written = s.written ++ (b :: data).take (n + 1) := by
  obtain ⟨good, hd, hg⟩ := h
  obtain ⟨n, state, hw, hg'⟩ := hd.write hg b data
  have hn : min (n + 1) (b :: data).length = min n data.length + 1 :=
    (Nat.succ_min_succ n data.length).symm ▸ rfl
  refine ⟨min n data.length,
    { s with state, deeds := .took ((b :: data).take (min n data.length + 1)) :: s.deeds },
    ?_, ⟨good, hd, hg'⟩, written_took s state _⟩
  rw [Sink.write, hw]
  simp only [hn]

theorem Unfailing.flush {s : Sink σ} (h : s.Unfailing) :
    ∃ s', s.flush = (.ok (), s') ∧ s'.written = s.written := by
  obtain ⟨good, hd, hg⟩ := h
  obtain ⟨state, hf, _⟩ := hd.flush hg
  refine ⟨s.flush.2, ?_, written_flush s⟩
  rw [Sink.flush, hf]

theorem Unfailing.pour {s : Sink σ} (h : s.Unfailing) (stuck : IoFault) (data : Bytes) :
    ∃ s', s.pour stuck data = (.ok (), [], s') ∧ s'.Unfailing ∧
      s'.written = s.written ++ data := by
  induction hl : data.length using Nat.strongRecOn generalizing s data with
  | ind l ih =>
    cases data with
    | nil => exact ⟨s, by rw [Sink.pour], h, (List.append_nil _).symm⟩
    | cons b r =>
      obtain ⟨n, s₁, hw, h₁, hb⟩ := h.write b r
      have hr : (r.drop n).length < l := by
        rw [← hl, List.length_drop, List.length_cons]
        omega
      obtain ⟨s₂, hp, h₂, hd⟩ := ih _ hr h₁ (r.drop n) rfl
      refine ⟨s₂, (pour_of_write hw (List.cons_ne_nil b r)).trans hp, h₂, ?_⟩
      · rw [hd, hb, List.append_assoc, List.take_succ_cons, List.cons_append,
          List.take_append_drop]

theorem Unfailing.writeAll {s : Sink σ} (h : s.Unfailing) (data : Bytes) :
    ∃ s', s.writeAll data = (.ok (), s') ∧ s'.Unfailing ∧ s'.written = s.written ++ data := by
  obtain ⟨s', hp, hu, hw⟩ := h.pour .tookNothing data
  exact ⟨s', by rw [Sink.writeAll, hp], hu, hw⟩

end Sink

end Unstamp
