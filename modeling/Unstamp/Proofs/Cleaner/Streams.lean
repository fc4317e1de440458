import Mathlib.Data.List.Basic
import Unstamp.Cleaner.Basic
import Unstamp.Proofs.Cleaner.GeneratedSource
import Unstamp.Proofs.Stream.Buffer
import Unstamp.Proofs.Stream.Source

namespace Unstamp
variable {σ : Type}

namespace Sink
variable {s s' : Sink σ} {data p : Bytes}

/-- The sink is offered data, each time all that is left, and takes some of it each time: `p` in
all. -/
inductive Fed : Sink σ → Bytes → Bytes → Sink σ → Prop where
  | idle (s : Sink σ) (data : Bytes) : Fed s data [] s
  | write {s s₁ s₂ : Sink σ} {data p : Bytes} {n : Nat}
      (h : s.write data = (.ok (n + 1), s₁)) (hr : Fed s₁ (data.drop (n + 1)) p s₂) :
      Fed s data (data.take (n + 1) ++ p) s₂

/-- The sink takes nothing of a write: it fails, or it takes no byte, which is the failure
`stuck`. -/
inductive Declines (stuck : IoFault) (s : Sink σ) (data : Bytes) : IoFault → Sink σ → Prop where
  | failed {fault : IoFault} {s' : Sink σ} (h : s.write data = (.error fault, s')) :
      Declines stuck s data fault s'
  | nothing {s' : Sink σ} (h : s.write data = (.ok 0, s')) : Declines stuck s data stuck s'

theorem written_of_write {n : Nat} (h : s.write data = (.ok n, s')) :
    s'.written = s.written ++ data.take n ∧ s'.flushes = s.flushes := by
  have hs := s.write_spec data
  rw [h] at hs
  obtain ⟨hf, ⟨_, hr, -⟩ | ⟨m, hr, hw⟩⟩ := hs
  · cases hr
  · cases hr
    exact ⟨hw, hf⟩

theorem Declines.unchanged {stuck fault : IoFault} (h : s.Declines stuck data fault s') :
    s'.written = s.written ∧ s'.flushes = s.flushes := by
  cases h with
  | failed h =>
    have hs := s.write_spec data
    rw [h] at hs
    obtain ⟨hf, ⟨_, -, hw⟩ | ⟨_, hr, -⟩⟩ := hs
    · exact ⟨hw, hf⟩
    · cases hr
  | nothing h =>
    obtain ⟨hw, hf⟩ := written_of_write h
    exact ⟨hw.trans (List.append_nil _), hf⟩

private theorem Fed.spec (h : s.Fed data p s') :
    p <+: data ∧ s'.written = s.written ++ p ∧ s'.flushes = s.flushes := by
  induction h with
  | idle s data => exact ⟨List.nil_prefix, (List.append_nil _).symm, rfl⟩
  | @write s s₁ s₂ data p n h hr ih =>
    obtain ⟨hw, hf⟩ := written_of_write h
    obtain ⟨⟨rest, hp⟩, hw', hf'⟩ := ih
    refine ⟨⟨rest, ?_⟩, ?_, hf'.trans hf⟩
    · rw [List.append_assoc, hp, List.take_append_drop]
    · rw [hw', hw, List.append_assoc]

/-- Pouring ends when the sink took all, or declined what was left. -/
private theorem pour_fed (stuck : IoFault) (s : Sink σ) (data : Bytes) :
    ∃ p s₁, s.Fed data p s₁ ∧
      (p = data ∧ s.pour stuck data = (.ok (), [], s₁) ∨
        ∃ rest fault s', data = p ++ rest ∧ rest ≠ [] ∧ s₁.Declines stuck rest fault s' ∧
          s.pour stuck data = (.error fault, rest, s')) := by
  induction hl : data.length using Nat.strongRecOn generalizing s data with
  | ind l ih =>
    by_cases hne : data = []
    · subst hne
      exact ⟨[], s, .idle s [], .inl ⟨rfl, by rw [Sink.pour]⟩⟩
    cases hw : s.write data with
    | mk r s₁ =>
      cases r with
      | error fault =>
        exact ⟨[], s, .idle s data, .inr
          ⟨data, fault, s₁, rfl, hne, .failed hw, pour_of_write_error hw hne⟩⟩
      | ok n =>
        cases n with
        | zero =>
          exact ⟨[], s, .idle s data, .inr
            ⟨data, stuck, s₁, rfl, hne, .nothing hw, pour_of_write_nothing hw hne⟩⟩
        | succ n =>
          have hlt : (data.drop (n + 1)).length < l := by
            have := List.length_pos_iff.mpr hne
            rw [List.length_drop]
            omega
          obtain ⟨p, s₂, hfed, ⟨hp, he⟩ | ⟨rest, fault, s', hp, hrest, hd, he⟩⟩ :=
            ih _ hlt s₁ (data.drop (n + 1)) rfl
          · refine ⟨_, s₂, .write hw hfed, .inl ⟨?_, (pour_of_write hw hne).trans he⟩⟩
            rw [hp, List.take_append_drop]
          · refine ⟨_, s₂, .write hw hfed, .inr
              ⟨rest, fault, s', ?_, hrest, hd, (pour_of_write hw hne).trans he⟩⟩
            rw [List.append_assoc, ← hp, List.take_append_drop]

end Sink

namespace Cleaner

/-- A cleaner finds that an input is not sound: a property file always has to be, a source only if
it carries the signature. -/
inductive Refuses : Cleaner → Bytes → EncodingFault → Prop where
  | lines (f : CommentLines) {b : Bytes} {fault : EncodingFault}
      (hd : Charset.utf8.decode b = .error fault) : Refuses (lines f) b fault
  | source (g : GeneratedSource) {b : Bytes} {fault : EncodingFault}
      (hm : g.signature.text <:+: g.charset.decodeLossy b)
      (hd : g.charset.decode b = .error fault) : Refuses (source g) b fault

end Cleaner

namespace GeneratedSource
variable {g : GeneratedSource} {b o : Bytes} {outcome : Outcome} {source : Source}

/-- The full output for an input: a copy if it does not carry the signature, and else the text
without its comments. -/
inductive Yields (g : GeneratedSource) (b : Bytes) : Outcome → Bytes → Prop where
  | copied (hm : ¬ g.signature.text <:+: g.charset.decodeLossy b) : Yields g b .passedThrough b
  | stripped (hm : g.signature.text <:+: g.charset.decodeLossy b) {t : Text}
      (hd : g.charset.decode b = .ok t) {o : Bytes}
      (ho : g.charset.encode (Comment.remove t) = .ok o) : Yields g b .stripped o

theorem Yields.produce (h : g.Yields b outcome o) : g.produce b = .ok (outcome, o) := by
  cases h with
  | copied hm => exact produce_of_unmarked hm
  | stripped hm hd ho => exact produce_stripped hm hd ho

theorem yields_or_refuses (g : GeneratedSource) (b : Bytes) :
    (∃ outcome o, g.Yields b outcome o) ∨ ∃ fault, Cleaner.Refuses (.source g) b fault := by
  by_cases hm : g.signature.text <:+: g.charset.decodeLossy b
  · cases hd : g.charset.decode b with
    | error fault => exact .inr ⟨fault, .source g hm hd⟩
    | ok t =>
      obtain ⟨o, ho⟩ := Charset.encode_remove hd
      exact .inl ⟨_, o, .stripped hm hd ho⟩
  · exact .inl ⟨_, b, .copied hm⟩

/-- How an output is delivered: `p` of it is what the sink took, and `s` is the sink after the last
write that took something. -/
structure Delivery (sink : Sink σ) (outcome : Outcome) (o p : Bytes) (s : Sink σ)
    (r : Except CleanFault Outcome × Sink σ) : Prop where
  fed : sink.Fed o p s
  first : p <+: o
  written : r.2.written = sink.written ++ p
  flushes : r.2.flushes = sink.flushes + if p = o then 1 else 0
  flushed : p = o → r.2 = s.flush.2
  declined : p ≠ o → ∃ fault, s.Declines .tookNothing (o.drop p.length) fault r.2 ∧
    r.1 = .error (.stream fault)
  ok : r.1 = .ok outcome ↔ p = o ∧ s.flush.1 = .ok ()
  fails : r.1 = .ok outcome ∨ ∃ fault, r.1 = .error (.stream fault)

private theorem delivery_of_flush {sink s s' : Sink σ} {r : Except IoFault Unit} (outcome : Outcome)
    (hfed : sink.Fed o o s) (hf : s.flush = (r, s')) :
    Delivery sink outcome o o s ((r.mapError .stream).map fun _ => outcome, s') := by
  obtain ⟨-, hw, hcount⟩ := hfed.spec
  have hw' := s.written_flush
  have hcount' := s.flushes_flush
  rw [hf] at hw' hcount'
  refine ⟨hfed, List.prefix_rfl, hw'.trans hw, ?_, fun _ => by rw [hf], fun h => absurd rfl h,
    ?_, ?_⟩
  · rw [if_pos rfl, hcount', hcount]
  · rw [hf]
    cases r with
    | error fault => exact iff_of_false (fun h => by cases h) fun h => by cases h.2
    | ok => exact iff_of_true rfl ⟨rfl, rfl⟩
  · cases r with
    | error fault => exact .inr ⟨fault, rfl⟩
    | ok => exact .inl rfl

private theorem delivery_of_declined {sink s s' : Sink σ} {p rest : Bytes} {fault : IoFault}
    (outcome : Outcome) (hfed : sink.Fed (p ++ rest) p s) (hrest : rest ≠ [])
    (hd : s.Declines .tookNothing rest fault s') :
    Delivery sink outcome (p ++ rest) p s (.error (.stream fault), s') := by
  obtain ⟨hfirst, hw, hcount⟩ := hfed.spec
  obtain ⟨hw', hcount'⟩ := hd.unchanged
  have hp : p ≠ p ++ rest := fun h => hrest (List.self_eq_append_right.mp h)
  refine ⟨hfed, hfirst, hw'.trans hw, ?_, fun h => absurd h hp, fun _ => ⟨fault, ?_, rfl⟩, ?_,
    .inr ⟨fault, rfl⟩⟩
  · rw [if_neg hp, hcount', hcount, Nat.add_zero]
  · rwa [List.drop_left]
  · exact ⟨nofun, fun h => absurd h.1 hp⟩

/-- The output goes to the sink from the front. The sink takes all of it and is flushed, or takes a
first part and declines the rest. -/
private theorem clean_delivery (hs : source.readAll = .ok b) (h : g.Yields b outcome o)
    (sink : Sink σ) :
    ∃ p s, Delivery sink outcome o p s (g.clean source sink) := by
  rw [clean, hs]
  simp only [h.produce, Sink.writeAll]
  obtain ⟨p, s, hfed, ⟨rfl, he⟩ | ⟨rest, fault, s', rfl, hrest, hd, he⟩⟩ :=
    sink.pour_fed .tookNothing o
  · simp only [he]
    cases hf : s.flush with
    | mk r s' =>
      refine ⟨p, s, ?_⟩
      cases r with
      | error fault => exact delivery_of_flush outcome hfed hf
      | ok => exact delivery_of_flush outcome hfed hf
  · simp only [he]
    exact ⟨p, s, delivery_of_declined outcome hfed hrest hd⟩

end GeneratedSource

namespace Cleaner
variable {c : Cleaner} {source : Source} {sink : Sink σ} {b : Bytes}

private theorem clean_of_breaks {fault : IoFault} (h : source.Breaks fault) :
    c.clean source sink = (.error (.stream fault), sink) := by
  cases c with
  | lines f => rw [clean, CommentLines.clean, h.readAll]
  | source g => rw [clean, GeneratedSource.clean, h.readAll]

private theorem clean_of_hands (h : source.Hands b) :
    c.clean source sink = c.clean (Source.whole b) sink := by
  cases c with
  | lines f => simp only [clean, CommentLines.clean, h.readAll, Source.readAll_whole]
  | source g => simp only [clean, GeneratedSource.clean, h.readAll, Source.readAll_whole]

private theorem clean_of_refuses {fault : EncodingFault} (hs : source.Hands b)
    (h : c.Refuses b fault) :
    c.clean source sink = (.error (.encoding fault), sink) := by
  cases h with
  | lines f hd =>
    rw [clean, CommentLines.clean, hs.readAll]
    simp only [hd]
  | source g hm hd =>
    exact GeneratedSource.clean_of_produce_error hs.readAll
      (GeneratedSource.produce_of_malformed hm hd)

/-- A cleaner sees of its source only the bytes up to the end, in whatever pieces they come and
however often a read is interrupted. If the source breaks before the end, or the bytes are refused,
the cleaner fails with just that fault, and its sink is as it was. Of the output of a source cleaner
the sink has taken a first part; it was flushed once if it took all, after the last byte, and else
not at all; and the cleaner succeeds just if it took all and the flush succeeded. -/
theorem clean_streams (c : Cleaner) (source : Source) (sink : Sink σ) :
    ((∃ b, source.Hands b) ∨ ∃ fault, source.Breaks fault) ∧
    (∀ fault, source.Breaks fault → c.clean source sink = (.error (.stream fault), sink)) ∧
    ∀ b, source.Hands b →
      c.clean source sink = c.clean (Source.whole b) sink ∧
      (∀ fault, c.Refuses b fault → c.clean source sink = (.error (.encoding fault), sink)) ∧
      ∀ g, c = Cleaner.source g → (∀ fault, ¬ c.Refuses b fault) →
        ∃ outcome o p s, g.Yields b outcome o ∧
          GeneratedSource.Delivery sink outcome o p s (c.clean source sink) := by
  refine ⟨source.hands_or_breaks, fun fault => clean_of_breaks, ?_⟩
  intro b hb
  refine ⟨clean_of_hands hb, fun fault => clean_of_refuses hb, ?_⟩
  rintro g rfl hsound
  rcases g.yields_or_refuses b with ⟨outcome, o, h⟩ | ⟨fault, h⟩
  · obtain ⟨p, s, hd⟩ := GeneratedSource.clean_delivery hb.readAll h sink
    exact ⟨outcome, o, p, s, h, hd⟩
  · exact absurd h (hsound fault)

/-- Text in UTF-16, read in pieces that break units and with interruptions, and a sink that takes
two bytes, then one, and then fails. -/
theorem clean_streams_cut_short :
    let g : GeneratedSource := ⟨.utf16 .little, ⟨['a']⟩⟩
    let b : Bytes := [0x61, 0, 0x2F, 0, 0x2F, 0, 0x0A, 0, 0x62, 0]
    let source : Source := .interrupted
      (.piece [0x61, 0, 0x2F] (.interrupted (.piece [0, 0x2F, 0, 0x0A, 0, 0x62, 0] .ended)))
    let sink : Sink Nat := Limits.sink { budget := some 3, chunk := some 2, shortage := .part }
    let broken : Source := .piece [0x61] (.interrupted (.broken (.device "source broken")))
    let fault : EncodingFault := .malformed (.utf16 .little) 2
    (source.Hands b ∧ (∀ fault, ¬ Refuses (.source g) b fault) ∧
      ∃ sink', (Cleaner.source g).clean source sink =
          (.error (.stream (.device "sink full")), sink') ∧
        sink'.written = [0x61, 0, 0x62] ∧ sink'.flushes = 0) ∧
    (broken.Breaks (.device "source broken") ∧ (Cleaner.source g).clean broken sink =
      (.error (.stream (.device "source broken")), sink)) ∧
    Refuses (.source g) [0x61, 0, 0x62] fault ∧
      (Cleaner.source g).clean (Source.whole [0x61, 0, 0x62]) sink =
        (.error (.encoding fault), sink) := by
  intro g b source sink broken fault
  have hb : source.Hands b :=
    .interrupted (.piece (by simp) (.interrupted (.piece (by simp) .ended)))
  have hbroken : broken.Breaks (.device "source broken") :=
    .piece (by simp) (.interrupted (.broken _))
  have htext : g.charset.decode b = .ok ['a', '/', '/', '\n', 'b'] := Charset.decode_of_encode rfl
  have hsound : ∀ fault, ¬ Refuses (.source g) b fault := by
    intro fault h
    cases h with
    | source _ _ hd =>
      rw [htext] at hd
      cases hd
  have hrefused : Refuses (.source g) [0x61, 0, 0x62] fault :=
    .source g (by decide +kernel) rfl
  have hy : g.Yields b .stripped [0x61, 0, 0x62, 0] :=
    .stripped (by decide +kernel) htext rfl
  obtain ⟨sink', hclean, htook⟩ : ∃ sink', (Cleaner.source g).clean source sink =
      (.error (.stream (.device "sink full")), sink') ∧ sink'.written = [0x61, 0, 0x62] := by
    simp only [clean, GeneratedSource.clean, hb.readAll, hy.produce]
    simp [Sink.writeAll, Sink.pour, Sink.write, sink, Limits.sink, Limits.device, Limits.take,
      Reply.settled, Sink.written, Deed.bytes]
  obtain ⟨-, -, hreads⟩ := clean_streams (.source g) source sink
  obtain ⟨-, -, hwrites⟩ := hreads b hb
  obtain ⟨outcome, o, p, s, ho, hd⟩ := hwrites g rfl hsound
  cases hy.produce.symm.trans ho.produce
  have hp : p = [0x61, 0, 0x62] := by
    have hw := hd.written
    rw [hclean, htook] at hw
    exact hw.symm
  have hflushes := hd.flushes
  rw [hclean, if_neg (by rw [hp]; decide)] at hflushes
  obtain ⟨-, hbreaks, -⟩ := clean_streams (.source g) broken sink
  obtain ⟨-, -, hrefuses⟩ := clean_streams (.source g) (Source.whole [0x61, 0, 0x62]) sink
  obtain ⟨-, hfails, -⟩ := hrefuses _ (Source.hands_whole _)
  exact ⟨⟨hb, hsound, sink', hclean, htook, hflushes⟩, ⟨hbroken, hbreaks _ hbroken⟩, hrefused,
    hfails _ hrefused⟩

/-- A read that fails by an interruption does not keep a file from being cleaned, and what comes
after an empty piece is not read. -/
theorem clean_despite_interruption :
    let c : Cleaner := .lines {}
    let b : Bytes := [0x23, 0x63, 0x0A, 0x61, 0x3D, 0x31, 0x0A]
    let interrupted : Source := .interrupted (Source.whole b)
    let emptied : Source := .piece [] (Source.whole b)
    c.cleanBytes b = .ok (.filtered 1 0, [0x61, 0x3D, 0x31, 0x0A]) ∧
      (c.clean interrupted Sink.memory).1 = .ok (.filtered 1 0) ∧
      (c.clean interrupted Sink.memory).2.written = [0x61, 0x3D, 0x31, 0x0A] ∧
      (c.clean emptied Sink.memory).1 = .ok (.filtered 0 0) ∧
      (c.clean emptied Sink.memory).2.written = [] := by
  intro c b interrupted emptied
  refine ⟨?_, ?_, ?_, ?_, ?_⟩ <;> decide +kernel

end Cleaner

end Unstamp
