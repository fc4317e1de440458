import Unstamp.Proofs.Charset.Bytewise
import Unstamp.Proofs.Cleaner.Repeated

namespace Unstamp.GeneratedSource
open Utf8 SingleByte
variable {s : Signature} {b o : Bytes} {outcome : Outcome}

structure AsciiSignature (s : Signature) : Prop where
  nonempty : s.text ≠ []
  ascii : ∀ c ∈ s.text, IsAscii c

theorem asciiSignature_xjc : AsciiSignature .xjc where
  nonempty := by decide
  ascii := by decide

private theorem marked_latin1_iff (hs : AsciiSignature s) (b : Bytes) :
    s.text <:+: Charset.latin1.decodeLossy b ↔ s.text <:+: Charset.utf8.decodeLossy b := by
  rw [decodeLossy_text]
  exact (spelled_decodeLossy b).infix_iff spelling_loosely hs.nonempty hs.ascii

private theorem produce_latin1_of_utf8 (hs : AsciiSignature s)
    (h : produce ⟨.utf8, s⟩ b = .ok (outcome, o)) : produce ⟨.latin1, s⟩ b = .ok (outcome, o) := by
  rcases produce_cases h with ⟨rfl, rfl, hm⟩ | ⟨t, rfl, hd, hm, ho⟩
  · exact produce_of_unmarked (mt (marked_latin1_iff hs o).mp hm)
  · have hb : Utf8.encode t = b :=
      Except.ok.inj ((Charset.encode_utf8 t).symm.trans (Charset.encode_of_decode hd))
    have hremoved : Utf8.encode (Comment.remove t) = o :=
      Except.ok.inj ((Charset.encode_utf8 _).symm.trans (Charset.encode_of_decode ho))
    have hspelled : Comment.remove (text b) = text o := by
      rw [← hb, ← hremoved]
      exact encode_of_spelled (Comment.remove_spelled spelling_exactly (spelled_encode t))
    have hmarked : s.text <:+: Charset.latin1.decodeLossy b := by
      rw [marked_latin1_iff hs, Charset.decodeLossy_of_decode hd]
      exact hm
    refine produce_stripped hmarked (decode_text b) ?_
    rw [hspelled]
    exact encode_text o

/-- US-ASCII accepts less than UTF-8, and cleans what it accepts in the same way. -/
private theorem produce_utf8_of_usAscii (h : produce ⟨.usAscii, s⟩ b = .ok (outcome, o)) :
    produce ⟨.utf8, s⟩ b = .ok (outcome, o) := by
  rcases produce_cases h with ⟨rfl, rfl, hm⟩ | ⟨t, rfl, hd, hm, ho⟩
  · exact produce_of_unmarked (g := ⟨.utf8, s⟩) hm
  · have hutf8 := Charset.decode_of_encode
      (Charset.encode_utf8_of_usAscii (Charset.encode_of_decode hd))
    refine produce_stripped ?_ hutf8
      (Charset.encode_utf8_of_usAscii (Charset.encode_of_decode ho))
    rw [Charset.decodeLossy_of_decode hutf8]
    exact hm

private theorem readAll_of_clean_ok {σ : Type} {g : GeneratedSource} {source : Source}
    {sink sink' : Sink σ}
    (h : g.clean source sink = (.ok outcome, sink')) :
    ∃ b r, source.readAll = .ok b ∧ g.produce b = .ok r := by
  rw [clean] at h
  split at h
  · cases h
  rename_i b hs
  split at h
  · cases h
  rename_i outcome' out hp
  exact ⟨b, _, hs, hp⟩

/-- What is cleaned comes from what is produced alone. -/
private theorem clean_congr {σ : Type} {g g' : GeneratedSource} {source : Source}
    (hs : source.readAll = .ok b) (h : g.produce b = g'.produce b) (sink : Sink σ) :
    g.clean source sink = g'.clean source sink := by
  rw [clean, clean, hs]
  simp only [h]

/-- A source that is cleaned as UTF-8 or as US-ASCII is cleaned as ISO-8859-1 with the same outcome
and the same deeds of the sink. -/
theorem clean_bytewise {σ : Type} {c : Charset} {source : Source} {sink sink' : Sink σ}
    (hc : c = .utf8 ∨ c = .usAscii)
    (h : clean { charset := c } source sink = (.ok outcome, sink')) :
    clean { charset := .latin1 } source sink = (.ok outcome, sink') := by
  obtain ⟨b, ⟨r, o⟩, hs, hp⟩ := readAll_of_clean_ok h
  have hutf8 : produce { charset := .utf8 } b = .ok (r, o) := by
    rcases hc with rfl | rfl
    · exact hp
    · exact produce_utf8_of_usAscii hp
  have hlatin1 : produce { charset := .latin1 } b = .ok (r, o) :=
    produce_latin1_of_utf8 asciiSignature_xjc hutf8
  rw [← h]
  exact clean_congr hs (hlatin1.trans hp.symm) sink

/-- Characters of two bytes in both kinds of comments and after them. -/
theorem clean_bytewise_of_two_bytes :
    let b := Utf8.encode ("//é ".toList ++ Signature.xjc.text ++ "\n/*ü*/ß".toList)
    ∃ sink', clean { charset := .utf8 } (Source.whole b) Sink.memory = (.ok .stripped, sink') ∧
      clean { charset := .latin1 } (Source.whole b) Sink.memory = (.ok .stripped, sink') ∧
      sink'.written = [0xC3, 0x9F] := by
  intro b
  have hp : produce { charset := .utf8 } b = .ok (.stripped, [0xC3, 0x9F]) := by decide +kernel
  obtain ⟨sink', hc, hw⟩ :=
    clean_of_produce_ok (Source.readAll_whole b) Sink.unfailing_memory hp
  exact ⟨sink', hc, clean_bytewise (.inl rfl) hc, hw⟩

end Unstamp.GeneratedSource
