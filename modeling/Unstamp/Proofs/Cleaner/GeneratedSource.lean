import Unstamp.Cleaner.GeneratedSource
import Unstamp.Proofs.Charset.RoundTrip
import Unstamp.Proofs.Comment.Removal
import Unstamp.Proofs.Stream.Sink

namespace Unstamp

/-- Removal asks nothing new of a charset. -/
theorem Charset.encode_remove {c : Charset} {b : Bytes} {t : Text} (h : c.decode b = .ok t) :
    ∃ o, c.encode (Comment.remove t) = .ok o :=
  encode_of_sublist (Comment.remove_sublist t) (encode_of_decode h)

theorem Signature.marks_iff {s : Signature} {t : Text} : s.marks t = true ↔ s.text <:+: t :=
  occursIn_iff

namespace GeneratedSource
variable {g : GeneratedSource} {b : Bytes}

theorem produce_of_unmarked (h : ¬ g.signature.text <:+: g.charset.decodeLossy b) :
    g.produce b = .ok (.passedThrough, b) := by
  rw [produce, if_neg (mt Signature.marks_iff.mp h)]

theorem produce_of_malformed (h : g.signature.text <:+: g.charset.decodeLossy b)
    {fault : EncodingFault} (hd : g.charset.decode b = .error fault) :
    g.produce b = .error fault := by
  rw [produce, if_pos (Signature.marks_iff.mpr h), hd]
  rfl

theorem produce_of_decoded (h : g.signature.text <:+: g.charset.decodeLossy b) {t : Text}
    (hd : g.charset.decode b = .ok t) :
    ∃ o, g.produce b = .ok (.stripped, o) ∧ g.charset.decode o = .ok (Comment.remove t) := by
  obtain ⟨o, ho⟩ := Charset.encode_remove hd
  refine ⟨o, ?_, Charset.decode_of_encode ho⟩
  rw [produce, if_pos (Signature.marks_iff.mpr h), hd]
  change (g.charset.encode (Comment.remove t)).bind (fun out => .ok (Outcome.stripped, out)) = _
  rw [ho]
  rfl

theorem produce_stripped (hm : g.signature.text <:+: g.charset.decodeLossy b) {t : Text}
    (hd : g.charset.decode b = .ok t) {o : Bytes}
    (ho : g.charset.encode (Comment.remove t) = .ok o) : g.produce b = .ok (.stripped, o) := by
  obtain ⟨o', hp, ho'⟩ := produce_of_decoded hm hd
  cases ho.symm.trans (Charset.encode_of_decode ho')
  exact hp

/-- The only fault of an input lies in its bytes. -/
theorem malformed_of_produce {fault : EncodingFault} (h : g.produce b = .error fault) :
    ∃ n, fault = .malformed g.charset n := by
  by_cases hm : g.signature.text <:+: g.charset.decodeLossy b
  · cases hd : g.charset.decode b with
    | error fault' =>
      rw [produce_of_malformed hm hd] at h
      cases h
      exact Charset.malformed_of_decode hd
    | ok t =>
      obtain ⟨o, ho, -⟩ := produce_of_decoded hm hd
      rw [ho] at h
      cases h
  · rw [produce_of_unmarked hm] at h
    cases h

section Clean
variable {σ : Type} {source : Source} {sink : Sink σ}

theorem clean_of_produce_error (hs : source.readAll = .ok b) {fault : EncodingFault}
    (hp : g.produce b = .error fault) :
    g.clean source sink = (.error (.encoding fault), sink) := by
  rw [clean, hs]
  simp only [hp]

theorem clean_of_produce_ok (hs : source.readAll = .ok b) (hk : sink.Unfailing)
    {outcome : Outcome} {o : Bytes} (hp : g.produce b = .ok (outcome, o)) :
    ∃ sink', g.clean source sink = (.ok outcome, sink') ∧ sink'.written = sink.written ++ o := by
  obtain ⟨s₁, hw, h₁, ho⟩ := hk.writeAll o
  obtain ⟨s₂, hf, hd⟩ := h₁.flush
  refine ⟨s₂, ?_, hd.trans ho⟩
  rw [clean, hs]
  simp only [hp, hw, hf]

/-- No character is ever found to be missing from the charset, whatever the streams do. -/
theorem clean_ne_unmappable (source : Source) (sink : Sink σ) (c : Charset) (ch : Char) :
    (g.clean source sink).1 ≠ .error (.encoding (.unmappable c ch)) := by
  intro h
  rw [clean] at h
  split at h
  · cases h
  rename_i b _
  split at h
  · rename_i fault hp
    obtain ⟨n, rfl⟩ := malformed_of_produce hp
    cases h
  split at h
  · cases h
  split at h
  · cases h
  · cases h

/-- Over streams that do not fail, a source without the signature is copied, one with the signature
and invalid bytes is refused with nothing written, and any other one is written without its
comments. No character is ever missing from the charset. -/
theorem clean_trichotomy (g : GeneratedSource) (hs : source.readAll = .ok b)
    (hk : sink.Unfailing) :
    ((¬ g.signature.text <:+: g.charset.decodeLossy b ∧
        ∃ sink', g.clean source sink = (.ok .passedThrough, sink') ∧
          sink'.written = sink.written ++ b) ∨
      (g.signature.text <:+: g.charset.decodeLossy b ∧
        ∃ n, g.charset.decode b = .error (.malformed g.charset n) ∧
          g.clean source sink = (.error (.encoding (.malformed g.charset n)), sink)) ∨
      (g.signature.text <:+: g.charset.decodeLossy b ∧
        ∃ t, g.charset.decode b = .ok t ∧
          ∃ o sink', g.clean source sink = (.ok .stripped, sink') ∧
            sink'.written = sink.written ++ o ∧ g.charset.decode o = .ok (Comment.remove t))) ∧
    (∀ c ch, (g.clean source sink).1 ≠ .error (.encoding (.unmappable c ch))) ∧
    ∀ (c : Charset) (b : Bytes) (t : Text), c.decode b = .ok t →
      ∃ o, c.encode (Comment.remove t) = .ok o := by
  refine ⟨?_, clean_ne_unmappable source sink, fun c b t => Charset.encode_remove⟩
  by_cases hm : g.signature.text <:+: g.charset.decodeLossy b
  · right
    cases hd : g.charset.decode b with
    | error fault =>
      left
      obtain ⟨n, rfl⟩ := Charset.malformed_of_decode hd
      exact ⟨hm, n, rfl, clean_of_produce_error hs (produce_of_malformed hm hd)⟩
    | ok t =>
      right
      obtain ⟨o, hp, ho⟩ := produce_of_decoded hm hd
      obtain ⟨sink', hc, hw⟩ := clean_of_produce_ok hs hk hp
      exact ⟨hm, t, rfl, o, sink', hc, hw, ho⟩
  · left
    exact ⟨hm, clean_of_produce_ok hs hk (produce_of_unmarked hm)⟩

/-- A line comment in UTF-16, read in pieces that break units and written byte by byte. -/
theorem clean_utf16_in_pieces :
    let g : GeneratedSource := ⟨.utf16 .little, ⟨['a']⟩⟩
    let source : Source := .piece [0x61, 0, 0x2F] (.piece [0, 0x2F, 0, 0x0A, 0, 0x62, 0] .ended)
    let sink : Sink Nat := Limits.sink { chunk := some 1 }
    source.readAll = .ok [0x61, 0, 0x2F, 0, 0x2F, 0, 0x0A, 0, 0x62, 0] ∧ sink.Unfailing ∧
      ∃ sink', g.clean source sink = (.ok .stripped, sink') ∧
        sink'.written = [0x61, 0, 0x62, 0] := by
  intro g source sink
  have hs : source.readAll = .ok [0x61, 0, 0x2F, 0, 0x2F, 0, 0x0A, 0, 0x62, 0] := rfl
  have hk : sink.Unfailing := Sink.unfailing_of_limits rfl (by decide) rfl
  have hb : g.charset.decode [0x61, 0, 0x2F, 0, 0x2F, 0, 0x0A, 0, 0x62, 0] =
      .ok ['a', '/', '/', '\n', 'b'] := Charset.decode_of_encode rfl
  refine ⟨hs, hk, ?_⟩
  obtain ⟨⟨hm, -⟩ | ⟨-, n, hd, -⟩ | ⟨-, t, hd, o, sink', hc, hw, ho⟩, -⟩ :=
    clean_trichotomy g hs hk
  · exact absurd (by decide +kernel) hm
  · rw [hb] at hd
    cases hd
  · rw [hb] at hd
    cases hd
    have he : g.charset.encode ['a', 'b'] = .ok o := Charset.encode_of_decode ho
    cases he
    exact ⟨sink', hc, hw⟩

end Clean

end GeneratedSource

end Unstamp
