import Unstamp.Proofs.Charset.Faults

namespace Unstamp

private theorem Piece.lossy_of_strictFrom {n : Nat} {ps : List Piece} {t : Text}
    (h : strictFrom n ps = .ok t) : lossy ps = t := by
  induction ps generalizing n t with
  | nil =>
    cases h
    rfl
  | cons p ps ih =>
    obtain ⟨c, s, hc, hs, rfl⟩ := strictFrom_cons_eq_ok.mp h
    rw [lossy, List.map_cons, hc]
    exact congrArg (c :: ·) (ih hs)

namespace Charset
variable {c : Charset} {b : Bytes} {t : Text}

/-- Each character of US-ASCII has its one byte in UTF-8 too. -/
theorem encode_utf8_of_usAscii (h : usAscii.encode t = .ok b) : utf8.encode t = .ok b := by
  induction t generalizing b with
  | nil => exact h
  | cons x t ih =>
    obtain ⟨s, r, hs, hr, rfl⟩ := encode_cons_eq_ok.mp h
    refine encode_cons_eq_ok.mpr ⟨s, r, ?_, ih hr, rfl⟩
    by_cases hx : x.toNat < 0x80
    · simp only [encodeChar?, SingleByte.encodeChar?, if_pos hx] at hs
      simp only [encodeChar?, Utf8.encodeChar, if_pos hx, Utf8.head, Nat.zero_add]
      exact hs
    · simp only [encodeChar?, SingleByte.encodeChar?, if_neg hx] at hs
      cases hs

private theorem lossy_cut_of_decode (h : c.decode b = .ok t) :
    Piece.lossy (Piece.cut c.rule b) = t := by
  have hs : Piece.strict (Piece.cut c.rule b) = .ok t :=
    (strictFrom_cut_eq_ok_iff c.rule_inverts).mpr (encode_of_decode h)
  exact Piece.lossy_of_strictFrom hs

private theorem wholeUnits_of_fits (h : c.fits b.length = true) : c.wholeUnits b = b := by
  cases c with
  | utf8 | usAscii | latin1 => rfl
  | utf16 order =>
    have he : b.length % 2 = 0 := by simpa [fits] using h
    rw [wholeUnits, List.take_of_length_le]
    omega

/-- What the strict view accepts, the lossy view reads as the same text. That of US-ASCII reads
UTF-8, which agrees on all bytes that US-ASCII has. -/
theorem decodeLossy_of_decode (h : c.decode b = .ok t) : c.decodeLossy b = t := by
  have hf : c.fits b.length = true := fits_of_encode (encode_of_decode h)
  rw [decodeLossy, wholeUnits_of_fits hf]
  cases c with
  | usAscii =>
    have hu : utf8.decode b = .ok t :=
      decode_of_encode (encode_utf8_of_usAscii (encode_of_decode h))
    exact lossy_cut_of_decode hu
  | utf8 | latin1 | utf16 => exact lossy_cut_of_decode h

/-- But for US-ASCII, the lossy view reads as the strict one does. -/
theorem decodeLossy_eq_cut (hc : c ≠ usAscii) (hf : c.fits b.length = true) :
    c.decodeLossy b = Piece.lossy (Piece.cut c.rule b) := by
  rw [decodeLossy, wholeUnits_of_fits hf]
  cases c with
  | usAscii => exact absurd rfl hc
  | utf8 | latin1 | utf16 => rfl

private theorem decodeLossy_of_fault (hc : c ≠ usAscii) (hf : c.fits b.length = true) {n : Nat}
    (h : c.decode b = .error (.malformed c n)) :
    ∃ t r, c.decode (b.take n) = .ok t ∧ c.decodeLossy b = t ++ '\uFFFD' :: r := by
  rw [decodeLossy_eq_cut hc hf]
  obtain ⟨t, p, a, r, rfl, ht, rfl, hnone⟩ := exists_fault_of_decode hf h
  rw [List.take_left, lossy_encode_append ht, Piece.cut, Piece.lossy, List.map_cons, hnone]
  exact ⟨t, _, decode_of_encode ht, rfl⟩

/-- The two views agree. What the strict one accepts, the lossy one reads as the same text. But for
US-ASCII, and for bytes of a length that the charset has, a lossy view without U+FFFD is that of
valid bytes, and where strict decoding stops at a fault, the lossy view goes on with U+FFFD after
the text up to there. -/
theorem decodeLossy_agrees (c : Charset) (b : Bytes) :
    (∀ t, c.decode b = .ok t → c.decodeLossy b = t) ∧
      (c ≠ usAscii → c.fits b.length = true →
        ('\uFFFD' ∉ c.decodeLossy b → c.decode b = .ok (c.decodeLossy b)) ∧
        ∀ n, c.decode b = .error (.malformed c n) →
          ∃ t r, c.decode (b.take n) = .ok t ∧ c.decodeLossy b = t ++ '\uFFFD' :: r) := by
  refine ⟨fun t => decodeLossy_of_decode, fun hc hf => ⟨?_, fun n => decodeLossy_of_fault hc hf⟩⟩
  intro hclean
  cases hd : c.decode b with
  | ok t => rw [decodeLossy_of_decode hd]
  | error fault =>
    obtain ⟨n, rfl⟩ := malformed_of_decode hd
    obtain ⟨t, r, -, hl⟩ := decodeLossy_of_fault hc hf hd
    rw [hl] at hclean
    exact absurd (List.mem_append_right t List.mem_cons_self) hclean

/-- A first half of a pair that the bytes end in is U+FFFD. Without it the two views are the same.
-/
theorem decodeLossy_agrees_before_half_pair :
    let c : Charset := .utf16 .little
    let b : Bytes := [0x61, 0, 0x3D, 0xD8]
    c ≠ usAscii ∧ c.fits b.length = true ∧ c.decode b = .error (.malformed c 2) ∧
      (∃ r, c.decodeLossy b = 'a' :: '\uFFFD' :: r) ∧
      '\uFFFD' ∉ c.decodeLossy (b.take 2) ∧ c.decode (b.take 2) = .ok ['a'] ∧
      c.decodeLossy (b.take 2) = ['a'] := by
  intro c b
  have hc : c ≠ usAscii := by decide
  have hf : c.fits b.length = true := by simp [c, b, fits]
  have hs : Piece.strict (Piece.cut c.rule b) = .error 2 := by
    simp [c, b, rule, Piece.cut, Utf16.read, Utf16.unit, Utf16.isHigh, Utf16.isLow, Piece.strict,
      Piece.strictFrom, Piece.bytes, Except.map]
  have hd : c.decode b = .error (.malformed c 2) := (decode_eq_malformed_iff hf).mpr hs
  have hf' : c.fits (b.take 2).length = true := by simp [c, b, fits]
  have ha : c.decode (b.take 2) = .ok ['a'] := decode_of_encode rfl
  have hl : c.decodeLossy (b.take 2) = ['a'] := (decodeLossy_agrees c (b.take 2)).1 _ ha
  have hclean : '\uFFFD' ∉ c.decodeLossy (b.take 2) := by
    rw [hl]
    decide
  obtain ⟨t, r, ht, hr⟩ := ((decodeLossy_agrees c b).2 hc hf).2 2 hd
  cases ha.symm.trans ht
  have hstrict := ((decodeLossy_agrees c (b.take 2)).2 hc hf').1 hclean
  rw [hl] at hstrict
  exact ⟨hc, hf, hd, ⟨r, hr⟩, hclean, hstrict, hl⟩

end Charset

end Unstamp
