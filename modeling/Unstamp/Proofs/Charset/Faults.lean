import Unstamp.Proofs.Charset.RoundTrip

/-! Where strict decoding stops and what encoding refuses. -/
namespace Unstamp

namespace Piece
variable {rule : Rule}

private theorem strictFrom_cons_eq_error {n m : Nat} {p : Piece} {ps : List Piece} :
    strictFrom n (p :: ps) = .error m ↔
      (p.char? = none ∧ m = n) ∨
        ∃ c, p.char? = some c ∧ strictFrom (n + p.bytes.length) ps = .error m := by
  rw [strictFrom]
  cases p.char? with
  | none => simp [eq_comm]
  | some c => cases strictFrom (n + p.bytes.length) ps <;> simp [Except.map]

/-- A character that is read off the front is still read when more bytes come after it. -/
private theorem Rule.Inverts.char?_append {write : Char → Option Bytes} (h : rule.Inverts write)
    {a : UInt8} {r : Bytes} {c : Char} (hc : (rule a r).char? = some c) (s : Bytes) :
    (rule a (r ++ s)).char? = some c := by
  obtain ⟨first, more, hb, hread⟩ := h.read_write (h.write_read hc)
  obtain ⟨hfirst, rest, hr⟩ := h.faithful a r
  obtain ⟨rfl, rfl⟩ := List.cons.inj hb
  rw [hfirst] at hread
  rw [← hr, List.append_assoc, hread]

end Piece

private theorem SingleByte.encodeChar?_eq_none_iff {limit : Nat} {a : Char} :
    encodeChar? limit a = none ↔ limit ≤ a.toNat := by
  rw [encodeChar?]
  split <;> simp <;> omega

namespace Charset
variable {c : Charset} {b p : Bytes} {t : Text}

/-- A text is read off the front of its bytes, whatever comes after these. -/
private theorem strictFrom_encode_append (ht : c.encode t = .ok p) (n : Nat) (r : Bytes) :
    Piece.strictFrom n (Piece.cut c.rule (p ++ r)) =
      (Piece.strictFrom (n + p.length) (Piece.cut c.rule r)).map (t ++ ·) := by
  induction t generalizing n p with
  | nil =>
    cases ht
    rw [List.nil_append]
    cases Piece.strictFrom n (Piece.cut c.rule r) <;> rfl
  | cons a t ih =>
    obtain ⟨s, q, hs, hq, rfl⟩ := encode_cons_eq_ok.mp ht
    obtain ⟨first, more, rfl, hread⟩ := c.rule_inverts.read_write hs
    rw [List.append_assoc, Piece.cut_append (hread _) rfl, Piece.strictFrom, Piece.bytes, ih hq,
      List.length_append, Nat.add_assoc]
    cases Piece.strictFrom (n + ((first :: more).length + q.length)) (Piece.cut c.rule r) <;> rfl

/-- The lossy view too starts with the text whose bytes come first. -/
theorem lossy_encode_append (ht : c.encode t = .ok p) (r : Bytes) :
    Piece.lossy (Piece.cut c.rule (p ++ r)) = t ++ Piece.lossy (Piece.cut c.rule r) := by
  induction t generalizing p with
  | nil =>
    cases ht
    rfl
  | cons a t ih =>
    obtain ⟨s, q, hs, hq, rfl⟩ := encode_cons_eq_ok.mp ht
    obtain ⟨first, more, rfl, hread⟩ := c.rule_inverts.read_write hs
    rw [List.append_assoc, Piece.cut_append (hread _) rfl, Piece.lossy, List.map_cons]
    exact congrArg (a :: ·) (ih hq)

/-- Strict reading stops after the bytes of a text, where no character can be read. -/
private theorem exists_fault {n m : Nat} (h : Piece.strictFrom n (Piece.cut c.rule b) = .error m) :
    ∃ t p a r, b = p ++ a :: r ∧ c.encode t = .ok p ∧ m = n + p.length ∧
      (c.rule a r).char? = none := by
  fun_induction Piece.cut c.rule b generalizing n with
  | case1 => cases h
  | case2 a r ih =>
    rcases Piece.strictFrom_cons_eq_error.mp h with ⟨hnone, rfl⟩ | ⟨x, hx, hrest⟩
    · exact ⟨[], [], a, r, rfl, rfl, rfl, hnone⟩
    · obtain ⟨t, p, a', r', hb, ht, rfl, hnone⟩ := ih hrest
      refine ⟨x :: t, (c.rule a r).bytes ++ p, a', r', ?_, ?_, ?_, hnone⟩
      · rw [List.append_assoc, ← hb, c.rule_inverts.faithful.bytes_append]
      · exact encode_cons_eq_ok.mpr ⟨_, _, c.rule_inverts.write_read hx, ht, rfl⟩
      · rw [List.length_append, Nat.add_assoc]

theorem decode_eq_malformed_iff {n : Nat} (hf : c.fits b.length = true) :
    c.decode b = .error (.malformed c n) ↔ Piece.strict (Piece.cut c.rule b) = .error n := by
  rw [decode, if_pos hf, mapError_eq_error]
  constructor
  · rintro ⟨m, hs, hm⟩
    obtain ⟨-, rfl⟩ := EncodingFault.malformed.inj hm
    exact hs
  · intro hs
    exact ⟨n, hs, rfl⟩

theorem exists_fault_of_decode {n : Nat} (hf : c.fits b.length = true)
    (h : c.decode b = .error (.malformed c n)) :
    ∃ t p a r, b = p ++ a :: r ∧ c.encode t = .ok p ∧ n = p.length ∧
      (c.rule a r).char? = none := by
  obtain ⟨t, p, a, r, hb, ht, hn, hnone⟩ := exists_fault ((decode_eq_malformed_iff hf).mp h)
  exact ⟨t, p, a, r, hb, ht, hn.trans (Nat.zero_add _), hnone⟩

/-- No valid bytes reach past a place where no character can be read. -/
private theorem length_le_of_fault {q : Bytes} {a : UInt8} {r : Bytes} {s : Text}
    (ht : c.encode t = .ok p) (hnone : (c.rule a r).char? = none) (hq : q <+: p ++ a :: r)
    (hs : c.encode s = .ok q) : q.length ≤ p.length := by
  rcases List.prefix_or_prefix_of_prefix hq (List.prefix_append p (a :: r)) with h | ⟨q', rfl⟩
  · exact h.length_le
  have hq' : q' <+: a :: r := (List.prefix_append_right_inj p).mp hq
  cases q' with
  | nil => exact Nat.le_of_eq (by rw [List.append_nil])
  | cons a' q' =>
    obtain ⟨rfl, rest, rfl⟩ := List.cons_prefix_cons.mp hq'
    have hread : Piece.strict (Piece.cut c.rule (p ++ a' :: q')) = .ok s :=
      (strictFrom_cut_eq_ok_iff c.rule_inverts).mpr hs
    rw [Piece.strict, strictFrom_encode_append ht] at hread
    obtain ⟨s', hs', -⟩ := map_eq_ok.mp hread
    rw [Piece.cut] at hs'
    obtain ⟨x, _, hx, -, -⟩ := Piece.strictFrom_cons_eq_ok.mp hs'
    rw [c.rule_inverts.char?_append hx rest] at hnone
    cases hnone

/-- So many of the first bytes are valid, and no more of them. -/
structure LongestValid (c : Charset) (b : Bytes) (n : Nat) : Prop where
  le : n ≤ b.length
  valid : ∃ t, c.decode (b.take n) = .ok t
  longest : ∀ m ≤ b.length, (∃ t, c.decode (b.take m) = .ok t) → m ≤ n

private theorem longestValid_of_decode {n : Nat} (hf : c.fits b.length = true)
    (h : c.decode b = .error (.malformed c n)) : c.LongestValid b n := by
  obtain ⟨t, p, a, r, rfl, ht, rfl, hnone⟩ := exists_fault_of_decode hf h
  refine ⟨?_, ⟨t, ?_⟩, ?_⟩
  · rw [List.length_append]
    exact Nat.le_add_right _ _
  · rw [List.take_left]
    exact decode_of_encode ht
  · rintro m hm ⟨s, hs⟩
    have hlen := length_le_of_fault ht hnone (List.take_prefix m _) (encode_of_decode hs)
    rwa [List.length_take_of_le hm] at hlen

private theorem decode_of_not_fits (hf : c.fits b.length = false) :
    c.decode b = .error (.malformed c (b.length - 1)) := by
  rw [decode, hf]
  rfl

/-- Every byte is a character of ISO-8859-1. -/
private theorem exists_decode_latin1 (b : Bytes) : ∃ t, latin1.decode b = .ok t := by
  cases hd : latin1.decode b with
  | ok t => exact ⟨t, rfl⟩
  | error fault =>
    obtain ⟨n, rfl⟩ := malformed_of_decode hd
    obtain ⟨_, _, a, r, -, -, -, hnone⟩ := exists_fault_of_decode rfl hd
    have ha : a.toNat < 0x100 := a.toNat_lt
    rw [rule, SingleByte.read, if_pos ha] at hnone
    cases hnone

/-- A text is refused just for its first character without bytes. -/
theorem encode_eq_error_iff {fault : EncodingFault} :
    c.encode t = .error fault ↔
      ∃ a, t.find? (fun x => (c.encodeChar? x).isNone) = some a ∧ fault = .unmappable c a := by
  induction t with
  | nil => exact ⟨nofun, nofun⟩
  | cons x t ih =>
    rw [encode, List.find?_cons]
    cases hx : c.encodeChar? x with
    | none => simp [eq_comm]
    | some s =>
      rw [Option.isNone_some, ← ih]
      cases c.encode t <;> simp [Except.map]

/-- With one byte a character, a text is refused for its first character past the last one. -/
private theorem encode_eq_error_iff_past {limit : Nat}
    (hc : ∀ a, c.encodeChar? a = SingleByte.encodeChar? limit a) {fault : EncodingFault} :
    c.encode t = .error fault ↔
      ∃ a, t.find? (fun x => limit ≤ x.toNat) = some a ∧ fault = .unmappable c a := by
  have hp : (fun x => (c.encodeChar? x).isNone) = fun x => decide (limit ≤ x.toNat) := by
    funext x
    rw [hc, Bool.eq_iff_iff, Option.isNone_iff_eq_none, SingleByte.encodeChar?_eq_none_iff,
      decide_eq_true_iff]
  rw [encode_eq_error_iff, hp]

private theorem refused_iff_past {limit : Nat}
    (hc : ∀ a, c.encodeChar? a = SingleByte.encodeChar? limit a) :
    (∃ fault, c.encode t = .error fault) ↔ ∃ a ∈ t, limit ≤ a.toNat := by
  have hsome : (t.find? fun x => limit ≤ x.toNat).isSome = true ↔ ∃ a ∈ t, limit ≤ a.toNat := by
    rw [List.find?_isSome]
    simp only [decide_eq_true_iff]
  rw [← hsome, Option.isSome_iff_exists]
  simp only [encode_eq_error_iff_past hc]
  exact ⟨fun ⟨_, a, ha, _⟩ => ⟨a, ha⟩, fun ⟨a, ha⟩ => ⟨_, a, ha, rfl⟩⟩

/-- Faults are exact. Bytes of a length that the charset has are valid or malformed just past their
longest valid first part; in UTF-16 an odd number of bytes is malformed at the last one, and in
ISO-8859-1 none is. UTF-8 and UTF-16 have all characters, US-ASCII and ISO-8859-1 those up to U+007F
and U+00FF, and the first other one of a text is reported. -/
theorem faults_exact :
    (∀ (c : Charset) (b : Bytes), c.fits b.length = true →
      (∃ t, c.decode b = .ok t) ∨
        ∃ n, c.decode b = .error (.malformed c n) ∧ c.LongestValid b n) ∧
    (∀ (order : ByteOrder) (b : Bytes), b.length % 2 = 1 →
      (utf16 order).decode b = .error (.malformed (utf16 order) (b.length - 1))) ∧
    (∀ b, ∃ t, latin1.decode b = .ok t) ∧
    (∀ t, (∃ b, utf8.encode t = .ok b) ∧ ∀ order, ∃ b, (utf16 order).encode t = .ok b) ∧
    (∀ t, ((∃ fault, usAscii.encode t = .error fault) ↔ ∃ a ∈ t, 0x7F < a.toNat) ∧
      ∀ fault, usAscii.encode t = .error fault ↔
        ∃ a, t.find? (fun x => 0x7F < x.toNat) = some a ∧ fault = .unmappable usAscii a) ∧
    ∀ t, ((∃ fault, latin1.encode t = .error fault) ↔ ∃ a ∈ t, 0xFF < a.toNat) ∧
      ∀ fault, latin1.encode t = .error fault ↔
        ∃ a, t.find? (fun x => 0xFF < x.toNat) = some a ∧ fault = .unmappable latin1 a := by
  refine ⟨?_, ?_, exists_decode_latin1, ?_, ?_, ?_⟩
  · intro c b hf
    cases hd : c.decode b with
    | ok t => exact .inl ⟨t, rfl⟩
    | error fault =>
      obtain ⟨n, rfl⟩ := malformed_of_decode hd
      exact .inr ⟨n, rfl, longestValid_of_decode hf hd⟩
  · intro order b hodd
    apply decode_of_not_fits
    rw [fits, hodd]
    rfl
  · intro t
    have hall {c : Charset} (hc : ∀ a, (c.encodeChar? a).isNone = false) :
        ∃ b, c.encode t = .ok b := by
      cases he : c.encode t with
      | ok b => exact ⟨b, rfl⟩
      | error fault =>
        obtain ⟨a, ha, -⟩ := encode_eq_error_iff.mp he
        exact absurd (List.find?_some ha) (by simp [hc])
    exact ⟨hall fun _ => rfl, fun order => hall fun _ => rfl⟩
  · intro t
    exact ⟨refused_iff_past fun _ => rfl, fun fault => encode_eq_error_iff_past fun _ => rfl⟩
  · intro t
    exact ⟨refused_iff_past fun _ => rfl, fun fault => encode_eq_error_iff_past fun _ => rfl⟩

/-- The second half of a pair stands alone after a whole pair, and a character comes after it. A
last byte without a partner is found before a half that stands alone. -/
theorem faults_exact_after_pair :
    let c : Charset := .utf16 .big
    let b : Bytes := [0xD8, 0x3D, 0xDE, 0, 0xDC, 0, 0, 0x61]
    (c.fits b.length = true ∧ c.decode b = .error (.malformed c 4) ∧ c.LongestValid b 4) ∧
      [0xDC, 0, 0x61].length % 2 = 1 ∧ c.decode [0xDC, 0, 0x61] = .error (.malformed c 2) := by
  intro c b
  have hf : c.fits b.length = true := by simp [c, b, fits]
  have hs : Piece.strict (Piece.cut c.rule b) = .error 4 := by
    simp [c, b, rule, Piece.cut, Utf16.read, Utf16.unit, Utf16.isHigh, Utf16.isLow, Piece.strict,
      Piece.strictFrom, Piece.bytes, Except.map]
  have hd : c.decode b = .error (.malformed c 4) := (decode_eq_malformed_iff hf).mpr hs
  obtain ⟨hlongest, hodd, -⟩ := faults_exact
  refine ⟨⟨hf, hd, ?_⟩, rfl, hodd .big [0xDC, 0, 0x61] rfl⟩
  obtain ⟨t, ht⟩ | ⟨n, hn, hl⟩ := hlongest c b hf
  · rw [hd] at ht
    cases ht
  · rw [hd] at hn
    cases hn
    exact hl

end Charset

end Unstamp
