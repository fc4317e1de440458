import Unstamp.Proofs.Cleaner.Canonical

namespace Unstamp.GeneratedSource
variable {s : Signature} {c c' : Charset} {t : Text} {b b' : Bytes}

def revise (s : Signature) (t : Text) : Outcome × Text :=
  if s.text <:+: t then (.stripped, Comment.remove t) else (.passedThrough, t)

/-- What is produced for the bytes of a text are the bytes of what is made of the text. -/
private theorem produce_of_encode (h : c.encode t = .ok b) :
    ∃ o, produce ⟨c, s⟩ b = .ok ((revise s t).1, o) ∧ c.decode o = .ok (revise s t).2 := by
  have hd : c.decode b = .ok t := Charset.decode_of_encode h
  have hl : c.decodeLossy b = t := Charset.decodeLossy_of_decode hd
  by_cases hm : s.text <:+: t
  · rw [revise, if_pos hm]
    exact produce_of_decoded (g := ⟨c, s⟩) (hl.symm ▸ hm) hd
  · rw [revise, if_neg hm]
    exact ⟨b, produce_of_unmarked (g := ⟨c, s⟩) (hl.symm ▸ hm), hd⟩

/-- A source whose bytes are those of a text is cleaned, over streams that do not fail. -/
private theorem clean_of_encode {σ : Type} {source : Source} {sink : Sink σ} (s : Signature)
    (h : c.encode t = .ok b) (hs : source.readAll = .ok b) (hk : sink.Unfailing) :
    ∃ o sink₁, clean ⟨c, s⟩ source sink = (.ok (revise s t).1, sink₁) ∧
      sink₁.written = sink.written ++ o ∧ c.decode o = .ok (revise s t).2 := by
  obtain ⟨o, hp, ho⟩ := produce_of_encode (s := s) h
  obtain ⟨sink₁, hc, hw⟩ := clean_of_produce_ok hs hk hp
  exact ⟨o, sink₁, hc, hw, ho⟩

/-- A text that two charsets have the characters of may be cleaned in either. Both sources are
cleaned, with the outcome that the text has by itself: `stripped` if the signature stands in it,
which leaves the text without its comments, and `passedThrough` with the text as it is if not. The
two results decode, each in its own charset, to this one text. -/
theorem clean_transcoded (s : Signature) (h : c.encode t = .ok b) (h' : c'.encode t = .ok b')
    {σ τ : Type} {source source' : Source} {sink : Sink σ} {sink' : Sink τ}
    (hs : source.readAll = .ok b) (hs' : source'.readAll = .ok b')
    (hk : sink.Unfailing) (hk' : sink'.Unfailing) :
    ∃ outcome text o o' sink₁ sink₁',
      clean ⟨c, s⟩ source sink = (.ok outcome, sink₁) ∧ sink₁.written = sink.written ++ o ∧
      clean ⟨c', s⟩ source' sink' = (.ok outcome, sink₁') ∧
        sink₁'.written = sink'.written ++ o' ∧
      c.decode o = .ok text ∧ c'.decode o' = .ok text ∧
      (s.text <:+: t ∧ outcome = .stripped ∧ text = Comment.remove t ∨
        ¬ s.text <:+: t ∧ outcome = .passedThrough ∧ text = t) := by
  obtain ⟨o, sink₁, hc, hw, ho⟩ := clean_of_encode s h hs hk
  obtain ⟨o', sink₁', hc', hw', ho'⟩ := clean_of_encode s h' hs' hk'
  refine ⟨_, _, o, o', sink₁, sink₁', hc, hw, hc', hw', ho, ho', ?_⟩
  by_cases hm : s.text <:+: t
  · simp [revise, hm]
  · simp [revise, hm]

/-- A byte order mark, a comment with a character of two units, and U+FFFD for a signature, which
lossy decoding could have put there as well. -/
theorem clean_transcoded_replacement_signature :
    let s : Signature := ⟨['\uFFFD']⟩
    let t : Text := "\uFEFF/*😀*/\uFFFD".toList
    ∃ b b' o o' sink₁ sink₁', Charset.utf8.encode t = .ok b ∧
      (Charset.utf16 .big).encode t = .ok b' ∧
      clean ⟨.utf8, s⟩ (.whole b) .memory = (.ok .stripped, sink₁) ∧ sink₁.written = o ∧
      clean ⟨.utf16 .big, s⟩ (.whole b') .memory = (.ok .stripped, sink₁') ∧ sink₁'.written = o' ∧
      Charset.utf8.decode o = .ok ['\uFEFF', '\uFFFD'] ∧
      (Charset.utf16 .big).decode o' = .ok ['\uFEFF', '\uFFFD'] := by
  intro s t
  obtain ⟨b, h⟩ : ∃ b, Charset.utf8.encode t = .ok b := ⟨_, Charset.encode_utf8 t⟩
  obtain ⟨b', h'⟩ : ∃ b', (Charset.utf16 .big).encode t = .ok b' := ⟨_, rfl⟩
  have hm : s.text <:+: t := by decide
  have hr : Comment.remove t = ['\uFEFF', '\uFFFD'] := by decide +kernel
  obtain ⟨outcome, text, o, o', sink₁, sink₁', hc, hw, hc', hw', ho, ho', htext⟩ :=
    clean_transcoded s h h' (Source.readAll_whole b) (Source.readAll_whole b')
      Sink.unfailing_memory Sink.unfailing_memory
  obtain ⟨-, rfl, rfl⟩ | ⟨hn, -⟩ := htext
  · rw [hr] at ho ho'
    exact ⟨b, b', o, o', sink₁, sink₁', h, h', hc, hw, hc', hw', ho, ho'⟩
  · exact absurd hm hn

end Unstamp.GeneratedSource
