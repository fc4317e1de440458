import Unstamp.Proofs.Charset.Utf8
import Unstamp.Proofs.Charset.Utf16

namespace Unstamp

namespace SingleByte

theorem inverts {limit : Nat} (h : limit ≤ 0x100) :
    Piece.Rule.Inverts (read limit) (encodeChar? limit) where
  faithful a r := ⟨rfl, List.nil_prefix⟩
  write_read := by
    intro a r c hc
    by_cases ha : a.toNat < limit
    · simp only [read, if_pos ha] at hc ⊢
      obtain rfl := Option.some.inj hc
      have hn : (Char.ofNat a.toNat).toNat = a.toNat := toNat_charOfNat (.inl (by omega))
      rw [encodeChar?, hn, if_pos ha, UInt8.ofNat_toNat]
      rfl
    · simp only [read, if_neg ha] at hc
      cases hc
  read_write := by
    intro c bytes hb
    by_cases hc : c.toNat < limit
    · rw [encodeChar?, if_pos hc] at hb
      obtain rfl := Option.some.inj hb
      have hn : (UInt8.ofNat c.toNat).toNat = c.toNat :=
        UInt8.toNat_ofNat_of_lt' (Nat.lt_of_lt_of_le hc h)
      refine ⟨_, _, rfl, ?_⟩
      intro r
      rw [read, hn, if_pos hc, Char.ofNat_toNat]
    · rw [encodeChar?, if_neg hc] at hb
      cases hb

end SingleByte

namespace Charset

theorem rule_inverts (c : Charset) : c.rule.Inverts c.encodeChar? := by
  cases c with
  | utf8 => exact Utf8.inverts
  | usAscii => exact SingleByte.inverts (by decide)
  | latin1 => exact SingleByte.inverts (by decide)
  | utf16 order => exact Utf16.inverts order

private theorem length_encodeChar_utf16 (order : ByteOrder) (x : Char) :
    (Utf16.encodeChar order x).length % 2 = 0 := by
  have hu (u : Nat) : (Utf16.unitBytes order u).length = 2 := by cases order <;> rfl
  simp only [Utf16.encodeChar]
  split
  · rw [hu]
  · rw [List.length_append, hu, hu]

/-- A charset has byte strings of every length that encoding gives. -/
theorem fits_of_encode {c : Charset} {t : Text} {b : Bytes} (h : c.encode t = .ok b) :
    c.fits b.length = true := by
  cases c with
  | utf8 | usAscii | latin1 => rfl
  | utf16 order =>
    induction t generalizing b with
    | nil =>
      cases h
      rfl
    | cons x t ih =>
      obtain ⟨s, r, hs, hr, rfl⟩ := encode_cons_eq_ok.mp h
      obtain rfl := Option.some.inj hs
      have hx := length_encodeChar_utf16 order x
      have ht := ih hr
      simp only [fits, beq_iff_eq, List.length_append] at ht ⊢
      omega

/-- UTF-8 has all characters. -/
theorem encode_utf8 (t : Text) : utf8.encode t = .ok (Utf8.encode t) := by
  induction t with
  | nil => rfl
  | cons x t ih => exact encode_cons_eq_ok.mpr ⟨_, _, rfl, ih, rfl⟩

theorem decode_of_encode {c : Charset} {t : Text} {b : Bytes} (h : c.encode t = .ok b) :
    c.decode b = .ok t := by
  have hs : Piece.strict (Piece.cut c.rule b) = .ok t :=
    (strictFrom_cut_eq_ok_iff c.rule_inverts).mpr h
  rw [decode, if_pos (fits_of_encode h)]
  exact mapError_eq_ok.mpr hs

theorem encode_of_decode {c : Charset} {b : Bytes} {t : Text} (h : c.decode b = .ok t) :
    c.encode t = .ok b := by
  rw [decode] at h
  split at h
  · have hs : Piece.strict (Piece.cut c.rule b) = .ok t := mapError_eq_ok.mp h
    exact (strictFrom_cut_eq_ok_iff c.rule_inverts).mp hs
  · cases h

/-- Strict decoding fails on the bytes alone, never on a character. -/
theorem malformed_of_decode {c : Charset} {b : Bytes} {fault : EncodingFault}
    (h : c.decode b = .error fault) : ∃ n, fault = .malformed c n := by
  rw [decode] at h
  split at h
  · obtain ⟨n, -, rfl⟩ := mapError_eq_error.mp h
    exact ⟨n, rfl⟩
  · cases h
    exact ⟨_, rfl⟩

/-- A charset that has all characters of a text has those of any part of it. -/
theorem encode_of_sublist {c : Charset} {s t : Text} (h : s.Sublist t) {b : Bytes}
    (ht : c.encode t = .ok b) : ∃ o, c.encode s = .ok o := by
  induction h generalizing b with
  | slnil => exact ⟨b, ht⟩
  | cons a _ ih =>
    obtain ⟨_, r, _, hr, _⟩ := encode_cons_eq_ok.mp ht
    exact ih hr
  | cons_cons a _ ih =>
    obtain ⟨x, r, hx, hr, _⟩ := encode_cons_eq_ok.mp ht
    obtain ⟨o, ho⟩ := ih hr
    exact ⟨x ++ o, encode_cons_eq_ok.mpr ⟨x, o, hx, ho, rfl⟩⟩

/-- Decoding gives a text exactly for the bytes that encoding gives for that text. -/
theorem decode_eq_ok_iff_encode (c : Charset) (b : Bytes) (t : Text) :
    c.decode b = .ok t ↔ c.encode t = .ok b :=
  ⟨encode_of_decode, decode_of_encode⟩

end Charset

/-- The bytes that are UTF-8 are those of a text. -/
theorem Utf8.decode?_eq_some_iff {b : Bytes} {t : Text} : decode? b = some t ↔ encode t = b := by
  have hstrict : Piece.strict (Piece.cut read b) = .ok t ↔ Charset.utf8.encode t = .ok b :=
    Charset.strictFrom_cut_eq_ok_iff Charset.utf8.rule_inverts
  rw [Charset.encode_utf8, Except.ok.injEq] at hstrict
  rw [← hstrict, decode?]
  cases Piece.strict (Piece.cut read b) with
  | error fault => exact ⟨nofun, nofun⟩
  | ok s => simp [Except.toOption]

theorem Utf8.encode_inj {s t : Text} : encode s = encode t ↔ s = t := by
  rw [← decode?_eq_some_iff, decode?_eq_some_iff.mpr rfl, Option.some.injEq, eq_comm]

theorem Utf8.encode_ne_nil {t : Text} : encode t ≠ [] ↔ t ≠ [] :=
  not_congr (encode_inj (t := []))

end Unstamp
