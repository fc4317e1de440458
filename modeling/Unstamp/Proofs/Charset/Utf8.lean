import Unstamp.Proofs.Charset.Inverse

namespace Unstamp.Utf8

private theorem toNat_tail (n : Nat) : (tail n).toNat = 0x80 + n % 0x40 := by
  rw [tail, UInt8.toNat_ofNat_of_lt']
  simp only [UInt8.size]
  omega

theorem toNat_head {mark n : Nat} (h : mark + n < 256) : (head mark n).toNat = mark + n := by
  rw [head, UInt8.toNat_ofNat_of_lt']
  exact h

private theorem tail_eq {n : Nat} {b : UInt8} (h : 0x80 + n % 0x40 = b.toNat) : tail n = b := by
  rw [tail, h, UInt8.ofNat_toNat]

theorem head_eq {mark n : Nat} {b : UInt8} (h : mark + n = b.toNat) : head mark n = b := by
  rw [head, h, UInt8.ofNat_toNat]

private theorem payload_tail (n : Nat) : payload (tail n) = n % 0x40 := by
  unfold payload
  rw [toNat_tail]
  omega

theorem lies_iff {range : Nat × Nat} {b : UInt8} :
    lies range b = true ↔ range.1 ≤ b.toNat ∧ b.toNat ≤ range.2 := by
  simp [lies]

private theorem lies_tails {b : UInt8} : lies tails b = true ↔ 0x80 ≤ b.toNat ∧ b.toNat ≤ 0xBF :=
  lies_iff

private theorem lies_tails_tail (n : Nat) : lies tails (tail n) = true := by
  rw [lies_tails, toNat_tail]
  omega

/-- A second byte is a continuation byte, in a narrower range after four of the first bytes. -/
private theorem lies_seconds {first : Nat} {b : UInt8} :
    lies (seconds first) b = true ↔
      (0x80 ≤ b.toNat ∧ b.toNat ≤ 0xBF) ∧ (first = 0xE0 → 0xA0 ≤ b.toNat) ∧
        (first = 0xED → b.toNat ≤ 0x9F) ∧ (first = 0xF0 → 0x90 ≤ b.toNat) ∧
        (first = 0xF4 → b.toNat ≤ 0x8F) := by
  rw [lies_iff]
  unfold seconds
  split
  · simp only
    omega
  split
  · simp only
    omega
  split
  · simp only
    omega
  split
  · simp only
    omega
  · simp only [tails]
    omega

theorem readMore_zero {first : UInt8} {seen : Bytes} {n : Nat} {range : Nat × Nat} {r : Bytes} :
    readMore first seen n range 0 r = ⟨some (Char.ofNat n), first, seen⟩ := by
  rw [readMore]

private theorem readMore_tail {first : UInt8} {seen : Bytes} {m n : Nat} {range : Nat × Nat}
    (h : lies range (tail n) = true) (count : Nat) (r : Bytes) :
    readMore first seen m range (count + 1) (tail n :: r) =
      readMore first (seen ++ [tail n]) (m * 0x40 + n % 0x40) tails count r := by
  rw [readMore, if_pos h, payload_tail]

/-- A character that was read to its end takes its next byte from the range. -/
private theorem readMore_succ {first : UInt8} {seen : Bytes} {n : Nat} {range : Nat × Nat}
    {count : Nat}
    {r : Bytes} {c : Char} (h : (readMore first seen n range (count + 1) r).char? = some c) :
    ∃ b s, r = b :: s ∧ lies range b = true ∧
      readMore first seen n range (count + 1) r =
        readMore first (seen ++ [b]) (n * 0x40 + payload b) tails count s := by
  cases r with
  | nil => cases h
  | cons b s =>
    by_cases hb : lies range b = true
    · exact ⟨b, s, rfl, hb, by rw [readMore, if_pos hb]⟩
    · rw [readMore, if_neg hb] at h
      cases h

private theorem readMore_taken (first : UInt8) (seen : Bytes) (n : Nat) (range : Nat × Nat)
    (count : Nat) (r : Bytes) :
    (readMore first seen n range count r).first = first ∧
      ∃ taken, taken <+: r ∧ (readMore first seen n range count r).more = seen ++ taken := by
  induction count generalizing seen n range r with
  | zero =>
    rw [readMore]
    exact ⟨rfl, [], List.nil_prefix, (List.append_nil seen).symm⟩
  | succ count ih =>
    cases r with
    | nil => exact ⟨rfl, [], List.nil_prefix, (List.append_nil seen).symm⟩
    | cons b r =>
      rw [readMore]
      split
      · obtain ⟨hf, taken, ht, hm⟩ := ih (seen ++ [b]) (n * 0x40 + payload b) tails r
        refine ⟨hf, b :: taken, List.cons_prefix_cons.2 ⟨rfl, ht⟩, ?_⟩
        rw [hm, List.append_assoc, List.singleton_append]
      · exact ⟨rfl, [], List.nil_prefix, (List.append_nil seen).symm⟩

/-- Reading takes the bytes of a piece off the front. -/
theorem faithful_read : Piece.Rule.Faithful read := by
  intro first r
  have h (n : Nat) (range : Nat × Nat) (count : Nat) :
      (readMore first [] n range count r).first = first ∧
        (readMore first [] n range count r).more <+: r := by
    obtain ⟨hf, taken, ht, hm⟩ := readMore_taken first [] n range count r
    rw [List.nil_append] at hm
    exact ⟨hf, hm ▸ ht⟩
  simp only [read]
  repeat' split
  all_goals first | exact h _ _ _ | exact ⟨rfl, List.nil_prefix⟩

section Forms
variable {n : Nat}

private theorem encodeChar_one (hn : n < 0x80) : encodeChar (Char.ofNat n) = [head 0 n] := by
  have hc : (Char.ofNat n).toNat = n := toNat_charOfNat (.inl (by omega))
  simp only [encodeChar, hc, if_pos hn]

private theorem encodeChar_two (hl : 0x80 ≤ n) (hn : n < 0x800) :
    encodeChar (Char.ofNat n) = [head 0xC0 (n / 0x40), tail n] := by
  have hc : (Char.ofNat n).toNat = n := toNat_charOfNat (.inl (by omega))
  simp only [encodeChar, hc, if_neg (Nat.not_lt.mpr hl), if_pos hn]

private theorem encodeChar_three (hl : 0x800 ≤ n) (hn : n < 0x10000)
    (hs : n < 0xD800 ∨ 0xDFFF < n) :
    encodeChar (Char.ofNat n) = [head 0xE0 (n / 0x1000), tail (n / 0x40), tail n] := by
  have hc : (Char.ofNat n).toNat = n := toNat_charOfNat (by unfold Nat.isValidChar; omega)
  have h1 : ¬ n < 0x80 := by omega
  simp only [encodeChar, hc, if_neg h1, if_neg (Nat.not_lt.mpr hl), if_pos hn]

private theorem encodeChar_four (hl : 0x10000 ≤ n) (hn : n < 0x110000) :
    encodeChar (Char.ofNat n) =
      [head 0xF0 (n / 0x40000), tail (n / 0x1000), tail (n / 0x40), tail n] := by
  have hc : (Char.ofNat n).toNat = n := toNat_charOfNat (.inr ⟨by omega, hn⟩)
  have h1 : ¬ n < 0x80 := by omega
  have h2 : ¬ n < 0x800 := by omega
  simp only [encodeChar, hc, if_neg h1, if_neg h2, if_neg (Nat.not_lt.mpr hl)]

theorem read_one (hn : n < 0x80) (r : Bytes) :
    read (head 0 n) r = ⟨some (Char.ofNat n), head 0 n, []⟩ := by
  have hfirst : (head 0 n).toNat = 0 + n := toNat_head (by omega)
  simp only [read, hfirst, Nat.zero_add]
  rw [if_pos hn, readMore_zero]

private theorem read_two (hl : 0x80 ≤ n) (hn : n < 0x800) (r : Bytes) :
    read (head 0xC0 (n / 0x40)) (tail n :: r) =
      ⟨some (Char.ofNat n), head 0xC0 (n / 0x40), [tail n]⟩ := by
  have hfirst : (head 0xC0 (n / 0x40)).toNat = 0xC0 + n / 0x40 := toNat_head (by omega)
  have hsecond : lies (seconds (0xC0 + n / 0x40)) (tail n) = true := by
    rw [lies_seconds, toNat_tail]
    omega
  have hpayload : (0xC0 + n / 0x40 - 0xC0) * 0x40 + n % 0x40 = n := by omega
  simp only [read, hfirst]
  rw [if_neg (by omega), if_neg (by omega), if_pos (by omega), readMore_tail hsecond,
    readMore_zero, hpayload]
  rfl

private theorem read_three (hl : 0x800 ≤ n) (hn : n < 0x10000) (hs : n < 0xD800 ∨ 0xDFFF < n)
    (r : Bytes) :
    read (head 0xE0 (n / 0x1000)) (tail (n / 0x40) :: tail n :: r) =
      ⟨some (Char.ofNat n), head 0xE0 (n / 0x1000), [tail (n / 0x40), tail n]⟩ := by
  have hfirst : (head 0xE0 (n / 0x1000)).toNat = 0xE0 + n / 0x1000 := toNat_head (by omega)
  have hsecond : lies (seconds (0xE0 + n / 0x1000)) (tail (n / 0x40)) = true := by
    rw [lies_seconds, toNat_tail]
    omega
  have hpayload :
      ((0xE0 + n / 0x1000 - 0xE0) * 0x40 + n / 0x40 % 0x40) * 0x40 + n % 0x40 = n := by omega
  simp only [read, hfirst]
  rw [if_neg (by omega), if_neg (by omega), if_neg (by omega), if_pos (by omega),
    readMore_tail hsecond, readMore_tail (lies_tails_tail n), readMore_zero, hpayload]
  rfl

private theorem read_four (hl : 0x10000 ≤ n) (hn : n < 0x110000) (r : Bytes) :
    read (head 0xF0 (n / 0x40000)) (tail (n / 0x1000) :: tail (n / 0x40) :: tail n :: r) =
      ⟨some (Char.ofNat n), head 0xF0 (n / 0x40000),
        [tail (n / 0x1000), tail (n / 0x40), tail n]⟩ := by
  have hfirst : (head 0xF0 (n / 0x40000)).toNat = 0xF0 + n / 0x40000 := toNat_head (by omega)
  have hsecond : lies (seconds (0xF0 + n / 0x40000)) (tail (n / 0x1000)) = true := by
    rw [lies_seconds, toNat_tail]
    omega
  have hpayload : (((0xF0 + n / 0x40000 - 0xF0) * 0x40 + n / 0x1000 % 0x40) * 0x40 +
      n / 0x40 % 0x40) * 0x40 + n % 0x40 = n := by omega
  simp only [read, hfirst]
  rw [if_neg (by omega), if_neg (by omega), if_neg (by omega), if_neg (by omega),
    if_pos (by omega), readMore_tail hsecond, readMore_tail (lies_tails_tail _),
    readMore_tail (lies_tails_tail n), readMore_zero, hpayload]
  rfl

end Forms

/-- A byte below 0x80 stands for the character of its number alone. -/
theorem mem_encodeChar {b : UInt8} {c : Char} (hb : b.toNat < 0x80) :
    b ∈ encodeChar c ↔ c.toNat = b.toNat := by
  have hc : c.toNat < 0xD800 ∨ 0xDFFF < c.toNat ∧ c.toNat < 0x110000 := c.valid
  have htail (m : Nat) : b ≠ tail m := by
    rintro rfl
    rw [toNat_tail] at hb
    omega
  have hhead (mark m : Nat) (hm : 0x80 ≤ mark) (h : mark + m < 256) : b ≠ head mark m := by
    rintro rfl
    rw [toNat_head h] at hb
    omega
  simp only [encodeChar]
  split
  · have h0 : (head 0 c.toNat).toNat = 0 + c.toNat := toNat_head (by omega)
    rw [List.mem_singleton, ← UInt8.toNat_inj, h0]
    omega
  split
  · have h0 := hhead 0xC0 (c.toNat / 0x40) (by decide) (by omega)
    simp only [List.mem_cons, h0, htail, List.not_mem_nil, or_self, false_iff]
    omega
  split
  · have h0 := hhead 0xE0 (c.toNat / 0x1000) (by decide) (by omega)
    simp only [List.mem_cons, h0, htail, List.not_mem_nil, or_self, false_iff]
    omega
  · have h0 := hhead 0xF0 (c.toNat / 0x40000) (by decide) (by omega)
    simp only [List.mem_cons, h0, htail, List.not_mem_nil, or_self, false_iff]
    omega

/-- A byte below 0x80 stands in a text for the character of its number alone. -/
theorem mem_encode {b : UInt8} {t : Text} (hb : b.toNat < 0x80) :
    b ∈ encode t ↔ Char.ofNat b.toNat ∈ t := by
  have hn : (Char.ofNat b.toNat).toNat = b.toNat := toNat_charOfNat (.inl (by omega))
  rw [encode, List.mem_flatMap]
  constructor
  · rintro ⟨c, hc, h⟩
    have he : c = Char.ofNat b.toNat :=
      Char.toNat_inj.mp (((mem_encodeChar hb).mp h).trans hn.symm)
    exact he ▸ hc
  · exact fun h => ⟨_, h, (mem_encodeChar hb).mpr hn⟩

/-- The bytes of a character are read as that character. -/
theorem read_encodeChar (c : Char) :
    ∃ first more, encodeChar c = first :: more ∧
      ∀ r, read first (more ++ r) = ⟨some c, first, more⟩ := by
  have hc : c.toNat < 0xD800 ∨ 0xDFFF < c.toNat ∧ c.toNat < 0x110000 := c.valid
  rw [← Char.ofNat_toNat c]
  generalize c.toNat = n at hc
  by_cases h1 : n < 0x80
  · exact ⟨_, _, encodeChar_one h1, read_one h1⟩
  by_cases h2 : n < 0x800
  · have hl : 0x80 ≤ n := Nat.le_of_not_lt h1
    exact ⟨_, _, encodeChar_two hl h2, read_two hl h2⟩
  by_cases h3 : n < 0x10000
  · have hl : 0x800 ≤ n := Nat.le_of_not_lt h2
    have hs : n < 0xD800 ∨ 0xDFFF < n := hc.imp_right And.left
    exact ⟨_, _, encodeChar_three hl h3 hs, read_three hl h3 hs⟩
  · have hl : 0x10000 ≤ n := Nat.le_of_not_lt h3
    have hn : n < 0x110000 := by omega
    exact ⟨_, _, encodeChar_four hl hn, read_four hl hn⟩

section Read
variable {first : UInt8} {r : Bytes} {c : Char}

private theorem encodeChar_of_readMore_one (hl : 0xC2 ≤ first.toNat) (hf : first.toNat < 0xE0)
    (h : (readMore first [] (first.toNat - 0xC0) (seconds first.toNat) 1 r).char? = some c) :
    encodeChar c = (readMore first [] (first.toNat - 0xC0) (seconds first.toNat) 1 r).bytes := by
  obtain ⟨b, s, rfl, hb, he⟩ := readMore_succ h
  rw [he, readMore_zero] at h ⊢
  obtain rfl := Option.some.inj h
  obtain ⟨hb, -⟩ := lies_seconds.mp hb
  unfold payload
  generalize hn : (first.toNat - 0xC0) * 0x40 + (b.toNat - 0x80) = n
  have hfirst : head 0xC0 (n / 0x40) = first := head_eq (by omega)
  have hlow : tail n = b := tail_eq (by omega)
  rw [encodeChar_two (by omega) (by omega), hfirst, hlow]
  rfl

private theorem encodeChar_of_readMore_two (hl : 0xE0 ≤ first.toNat) (hf : first.toNat < 0xF0)
    (h : (readMore first [] (first.toNat - 0xE0) (seconds first.toNat) 2 r).char? = some c) :
    encodeChar c = (readMore first [] (first.toNat - 0xE0) (seconds first.toNat) 2 r).bytes := by
  obtain ⟨b, s, rfl, hb, he⟩ := readMore_succ h
  rw [he] at h ⊢
  obtain ⟨d, s, rfl, hd, he⟩ := readMore_succ h
  rw [he, readMore_zero] at h ⊢
  obtain rfl := Option.some.inj h
  obtain ⟨hb, hlong, hsurrogate, -⟩ := lies_seconds.mp hb
  rw [lies_tails] at hd
  unfold payload
  generalize hn : ((first.toNat - 0xE0) * 0x40 + (b.toNat - 0x80)) * 0x40 + (d.toNat - 0x80) = n
  have hfirst : head 0xE0 (n / 0x1000) = first := head_eq (by omega)
  have hmid : tail (n / 0x40) = b := tail_eq (by omega)
  have hlow : tail n = d := tail_eq (by omega)
  rw [encodeChar_three (by omega) (by omega) (by omega), hfirst, hmid, hlow]
  rfl

private theorem encodeChar_of_readMore_three (hl : 0xF0 ≤ first.toNat) (hf : first.toNat < 0xF5)
    (h : (readMore first [] (first.toNat - 0xF0) (seconds first.toNat) 3 r).char? = some c) :
    encodeChar c = (readMore first [] (first.toNat - 0xF0) (seconds first.toNat) 3 r).bytes := by
  obtain ⟨b, s, rfl, hb, he⟩ := readMore_succ h
  rw [he] at h ⊢
  obtain ⟨d, s, rfl, hd, he⟩ := readMore_succ h
  rw [he] at h ⊢
  obtain ⟨e, s, rfl, hl', he⟩ := readMore_succ h
  rw [he, readMore_zero] at h ⊢
  obtain rfl := Option.some.inj h
  obtain ⟨hb, -, -, hlong, hlast⟩ := lies_seconds.mp hb
  rw [lies_tails] at hd hl'
  unfold payload
  generalize hn : (((first.toNat - 0xF0) * 0x40 + (b.toNat - 0x80)) * 0x40 +
    (d.toNat - 0x80)) * 0x40 + (e.toNat - 0x80) = n
  have hfirst : head 0xF0 (n / 0x40000) = first := head_eq (by omega)
  have hhigh : tail (n / 0x1000) = b := tail_eq (by omega)
  have hmid : tail (n / 0x40) = d := tail_eq (by omega)
  have hlow : tail n = e := tail_eq (by omega)
  rw [encodeChar_four (by omega) (by omega), hfirst, hhigh, hmid, hlow]
  rfl

/-- The bytes of a piece that has a character are those of the character. -/
theorem encodeChar_of_read (h : (read first r).char? = some c) :
    encodeChar c = (read first r).bytes := by
  simp only [read] at h ⊢
  split at h
  · rename_i h1
    rw [if_pos h1]
    rw [readMore_zero] at h ⊢
    obtain rfl := Option.some.inj h
    rw [encodeChar_one h1, head_eq (Nat.zero_add _)]
    rfl
  rename_i h1
  rw [if_neg h1]
  split at h
  · cases h
  rename_i h2
  rw [if_neg h2]
  split at h
  · rename_i h3
    rw [if_pos h3]
    exact encodeChar_of_readMore_one (Nat.le_of_not_lt h2) h3 h
  rename_i h3
  rw [if_neg h3]
  split at h
  · rename_i h4
    rw [if_pos h4]
    exact encodeChar_of_readMore_two (Nat.le_of_not_lt h3) h4 h
  rename_i h4
  rw [if_neg h4]
  split at h
  · rename_i h5
    rw [if_pos h5]
    exact encodeChar_of_readMore_three (Nat.le_of_not_lt h4) h5 h
  · cases h

end Read

theorem inverts : Piece.Rule.Inverts read fun c => some (encodeChar c) where
  faithful := faithful_read
  write_read h := congrArg some (encodeChar_of_read h)
  read_write h := by
    cases h
    exact read_encodeChar _

end Unstamp.Utf8
