import Unstamp.Cleaner.Basic
import Unstamp.Proofs.Charset.Lossy
import Unstamp.Proofs.Cleaner.CommentLines
import Unstamp.Proofs.Cleaner.GeneratedSource
import Unstamp.Proofs.Comment.Canonical

/-! A second pass need not take the branch of the first: a signature may go with the comment it
stood in. -/
namespace Unstamp

namespace GeneratedSource
variable {g : GeneratedSource} {b o : Bytes} {outcome : Outcome}

/-- A source that something comes of has no signature and is copied, or has one and decodes. -/
theorem produce_cases (h : g.produce b = .ok (outcome, o)) :
    (outcome = .passedThrough ∧ o = b ∧ ¬ g.signature.text <:+: g.charset.decodeLossy b) ∨
      ∃ t, outcome = .stripped ∧ g.charset.decode b = .ok t ∧ g.signature.text <:+: t ∧
        g.charset.decode o = .ok (Comment.remove t) := by
  by_cases hm : g.signature.text <:+: g.charset.decodeLossy b
  · cases hd : g.charset.decode b with
    | error fault =>
      rw [produce_of_malformed hm hd] at h
      cases h
    | ok t =>
      obtain ⟨o', hp, ho⟩ := produce_of_decoded hm hd
      rw [hp] at h
      cases h
      rw [Charset.decodeLossy_of_decode hd] at hm
      exact .inr ⟨t, rfl, rfl, hm, ho⟩
  · rw [produce_of_unmarked hm] at h
    cases h
    exact .inl ⟨rfl, rfl, hm⟩

/-- A second pass gives the same bytes. Its outcome differs just if the signature stood in a comment
that the first pass removed. -/
private theorem produce_again (h : g.produce b = .ok (outcome, o)) :
    ∃ outcome', g.produce o = .ok (outcome', o) ∧
      (outcome' = outcome ∨
        outcome = .stripped ∧ outcome' = .passedThrough ∧
          ∃ t, g.charset.decode b = .ok t ∧ g.signature.text <:+: t ∧
            ¬ g.signature.text <:+: Comment.remove t) := by
  rcases produce_cases h with ⟨rfl, rfl, -⟩ | ⟨t, rfl, hb, hm, ho⟩
  · exact ⟨_, h, .inl rfl⟩
  · have hl := Charset.decodeLossy_of_decode ho
    by_cases hm' : g.signature.text <:+: Comment.remove t
    · obtain ⟨o', hp, ho'⟩ := produce_of_decoded (hl.symm ▸ hm') ho
      rw [Comment.remove_of_canonical (Comment.canonical_remove t)] at ho'
      have he := (Charset.encode_of_decode ho').symm.trans (Charset.encode_of_decode ho)
      cases he
      exact ⟨_, hp, .inl rfl⟩
    · exact ⟨_, produce_of_unmarked (hl.symm ▸ hm'), .inr ⟨rfl, rfl, t, hb, hm, hm'⟩⟩

private theorem marked_of_produce_error {fault : EncodingFault} (h : g.produce b = .error fault) :
    g.signature.text <:+: g.charset.decodeLossy b := by
  by_contra hm
  rw [produce_of_unmarked hm] at h
  cases h

/-- Cleaning what was cleaned gives the same bytes, over any streams that do not fail. Cleaning that
does not succeed has found malformed bytes in a source with the signature. -/
theorem clean_again (g : GeneratedSource) {σ : Type} {source : Source} {sink : Sink σ}
    (hs : source.readAll = .ok b) (hk : sink.Unfailing) :
    (∀ outcome sink₁, g.clean source sink = (.ok outcome, sink₁) →
      ∃ o, sink₁.written = sink.written ++ o ∧
        ∀ {τ : Type} (source' : Source) (sink' : Sink τ), source'.readAll = .ok o →
          sink'.Unfailing →
          ∃ outcome' sink₂, g.clean source' sink' = (.ok outcome', sink₂) ∧
            sink₂.written = sink'.written ++ o ∧
            (outcome' = outcome ∨
              outcome = .stripped ∧ outcome' = .passedThrough ∧
                ∃ t, g.charset.decode b = .ok t ∧ g.signature.text <:+: t ∧
                  ¬ g.signature.text <:+: Comment.remove t)) ∧
    ∀ fault sink₁, g.clean source sink = (.error fault, sink₁) →
      (∃ n, fault = .encoding (.malformed g.charset n)) ∧
        g.signature.text <:+: g.charset.decodeLossy b := by
  cases hp : g.produce b with
  | error fault =>
    have hc : g.clean source sink = (.error (.encoding fault), sink) :=
      clean_of_produce_error hs hp
    obtain ⟨n, rfl⟩ := malformed_of_produce hp
    constructor
    · intro outcome sink₁ h
      rw [hc] at h
      cases h
    · intro fault sink₁ h
      rw [hc] at h
      cases h
      exact ⟨⟨n, rfl⟩, marked_of_produce_error hp⟩
  | ok r =>
    obtain ⟨outcome, o⟩ := r
    obtain ⟨sink₁, hc, hw⟩ := clean_of_produce_ok hs hk hp
    constructor
    · intro _ _ h
      rw [hc] at h
      cases h
      obtain ⟨outcome', hp', ho⟩ := produce_again hp
      refine ⟨o, hw, ?_⟩
      intro τ source' sink' hs' hk'
      obtain ⟨sink₂, hc', hw'⟩ := clean_of_produce_ok hs' hk' hp'
      exact ⟨outcome', sink₂, hc', hw', ho⟩
    · intro fault _ h
      rw [hc] at h
      cases h

/-- The signature goes with the comment that it stands in, and the second pass copies the source. -/
theorem clean_again_without_signature :
    let g : GeneratedSource := ⟨.utf16 .big, ⟨['a']⟩⟩
    let b : Bytes := [0, 0x2F, 0, 0x2F, 0, 0x61, 0, 0x0A, 0, 0x62]
    (Source.whole b).readAll = .ok b ∧ Sink.memory.Unfailing ∧
      ∃ sink₁ sink₂, g.clean (Source.whole b) Sink.memory = (.ok .stripped, sink₁) ∧
        sink₁.written = [0, 0x62] ∧
        g.clean (Source.whole [0, 0x62]) Sink.memory = (.ok .passedThrough, sink₂) ∧
        sink₂.written = [0, 0x62] := by
  intro g b
  have hs := Source.readAll_whole b
  have hk := Sink.unfailing_memory
  have hb : g.charset.decode b = .ok ['/', '/', 'a', '\n', 'b'] := Charset.decode_of_encode rfl
  have hm : g.signature.text <:+: g.charset.decodeLossy b := by
    rw [Charset.decodeLossy_of_decode hb]
    decide
  obtain ⟨o, hp, ho⟩ := produce_of_decoded hm hb
  obtain rfl : [0, 0x62] = o := Except.ok.inj (Charset.encode_of_decode ho)
  obtain ⟨sink₁, hc, hw⟩ := clean_of_produce_ok hs hk hp
  obtain ⟨o, ho₁, hagain⟩ := (clean_again g hs hk).1 _ _ hc
  obtain rfl : [0, 0x62] = o := hw.symm.trans ho₁
  obtain ⟨outcome', sink₂, hc', hw', -⟩ := hagain _ _ (Source.readAll_whole _) hk
  have hm' : ¬ g.signature.text <:+: g.charset.decodeLossy [0, 0x62] := by
    rw [Charset.decodeLossy_of_decode ho]
    decide
  obtain ⟨sink₃, hc₃, -⟩ :=
    clean_of_produce_ok (Source.readAll_whole _) hk (produce_of_unmarked hm')
  rw [hc₃] at hc'
  cases hc'
  exact ⟨hs, hk, sink₁, sink₂, hc, hw, hc₃, hw'⟩

end GeneratedSource

namespace Cleaner
variable {b o : Bytes} {outcome : Outcome}

theorem cleanBytes_source (g : GeneratedSource) (b : Bytes) :
    (source g).cleanBytes b = (g.produce b).mapError .encoding := by
  have hs := Source.readAll_whole b
  cases hp : g.produce b with
  | error fault =>
    have hc : g.clean (Source.whole b) Sink.memory = (.error (.encoding fault), Sink.memory) :=
      GeneratedSource.clean_of_produce_error hs hp
    simp only [cleanBytes, clean, hc]
    rfl
  | ok r =>
    obtain ⟨sink, hc, hw⟩ := GeneratedSource.clean_of_produce_ok hs Sink.unfailing_memory hp
    simp only [cleanBytes, clean, hc, hw]
    rfl

theorem cleanBytes_lines (f : CommentLines) {text : Text} (hd : Charset.utf8.decode b = .ok text) :
    (lines f).cleanBytes b =
      .ok (.filtered ((Line.split text).length - (f.kept text).length) 0,
        Utf8.encode (Line.joined (f.kept text))) := by
  obtain ⟨sink, hc, hw⟩ := f.filter_of_unfailing text Sink.unfailing_memory
  rw [← CommentLines.clean_of_readAll (Source.readAll_whole b) hd] at hc
  simp only [cleanBytes, clean, hc, hw]
  rfl

theorem cleanBytes_lines_of_malformed (f : CommentLines) {fault : EncodingFault}
    (hd : Charset.utf8.decode b = .error fault) :
    (lines f).cleanBytes b = .error (.encoding fault) := by
  have hc : f.clean (Source.whole b) Sink.memory = (.error (.encoding fault), Sink.memory) := by
    rw [CommentLines.clean, Source.readAll_whole]
    simp only [hd]
  simp only [cleanBytes, clean, hc]

theorem decode_of_cleanBytes_lines {f : CommentLines}
    (h : (lines f).cleanBytes b = .ok (outcome, o)) :
    ∃ text, Charset.utf8.decode b = .ok text := by
  cases hd : Charset.utf8.decode b with
  | ok text => exact ⟨text, rfl⟩
  | error fault =>
    rw [cleanBytes_lines_of_malformed f hd] at h
    cases h

/-- In memory nothing goes wrong but the reading of the text. -/
theorem encoding_of_cleanBytes {c : Cleaner} {fault : CleanFault}
    (h : c.cleanBytes b = .error fault) : ∃ e, fault = .encoding e := by
  cases c with
  | source g =>
    rw [cleanBytes_source] at h
    cases hp : g.produce b with
    | ok r =>
      rw [hp] at h
      cases h
    | error e =>
      rw [hp] at h
      cases h
      exact ⟨e, rfl⟩
  | lines f =>
    cases hd : Charset.utf8.decode b with
    | ok text =>
      rw [cleanBytes_lines f hd] at h
      cases h
    | error e =>
      rw [cleanBytes_lines_of_malformed f hd] at h
      cases h
      exact ⟨e, rfl⟩

/-- The lines kept of lines that were kept are these lines. -/
theorem kept_joined_kept (f : CommentLines) (text : Text) :
    f.kept (Line.joined (f.kept text)) = f.kept text := by
  rw [CommentLines.kept, Line.split_joined fun l => CommentLines.bare_of_mem_kept,
    CommentLines.kept, List.filter_filter]
  simp

/-- What a cleaner makes of its own work is the same. -/
theorem cleanBytes_again {c : Cleaner} (h : c.cleanBytes b = .ok (outcome, o)) :
    ∃ outcome', c.cleanBytes o = .ok (outcome', o) := by
  cases c with
  | source g =>
    rw [cleanBytes_source] at h ⊢
    obtain ⟨outcome', hp, -⟩ := GeneratedSource.produce_again (mapError_eq_ok.mp h)
    exact ⟨outcome', mapError_eq_ok.mpr hp⟩
  | lines f =>
    obtain ⟨text, hd⟩ := decode_of_cleanBytes_lines h
    rw [cleanBytes_lines f hd] at h
    cases h
    have ho := Charset.decode_of_encode (Charset.encode_utf8 (Line.joined (f.kept text)))
    rw [cleanBytes_lines f ho, kept_joined_kept]
    exact ⟨_, rfl⟩

end Cleaner

end Unstamp
