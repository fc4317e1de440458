import Unstamp.Proofs.Charset.Inverse

namespace Unstamp.Utf16

theorem unit_lt (order : ByteOrder) (a b : UInt8) : unit order a b < 0x10000 := by
  have ha := a.toNat_lt
  have hb := b.toNat_lt
  cases order <;> simp only [unit] <;> omega

/-- The bytes of a unit that was read are those that it was read from. -/
theorem unitBytes_unit (order : ByteOrder) (a b : UInt8) :
    unitBytes order (unit order a b) = [a, b] := by
  have ha := a.toNat_lt
  have hb := b.toNat_lt
  cases order with
  | little =>
    have hlow : (a.toNat + 0x100 * b.toNat) % 0x100 = a.toNat := by omega
    have hhigh : (a.toNat + 0x100 * b.toNat) / 0x100 = b.toNat := by omega
    rw [unitBytes, unit, hlow, hhigh, UInt8.ofNat_toNat, UInt8.ofNat_toNat]
  | big =>
    have hhigh : (0x100 * a.toNat + b.toNat) / 0x100 = a.toNat := by omega
    have hlow : (0x100 * a.toNat + b.toNat) % 0x100 = b.toNat := by omega
    rw [unitBytes, unit, hlow, hhigh, UInt8.ofNat_toNat, UInt8.ofNat_toNat]

/-- A unit that was written has two bytes, which are read as that unit. -/
theorem exists_unitBytes (order : ByteOrder) {u : Nat} (h : u < 0x10000) :
    ∃ a b, unitBytes order u = [a, b] ∧ unit order a b = u := by
  have hlow : (UInt8.ofNat (u % 0x100)).toNat = u % 0x100 :=
    UInt8.toNat_ofNat_of_lt' (Nat.mod_lt u (by decide))
  have hhigh : (UInt8.ofNat (u / 0x100)).toNat = u / 0x100 :=
    UInt8.toNat_ofNat_of_lt' (Nat.div_lt_of_lt_mul h)
  cases order with
  | little =>
    refine ⟨_, _, rfl, ?_⟩
    rw [unit, hlow, hhigh]
    omega
  | big =>
    refine ⟨_, _, rfl, ?_⟩
    rw [unit, hlow, hhigh]
    omega

theorem isHigh_iff {u : Nat} : isHigh u = true ↔ 0xD800 ≤ u ∧ u < 0xDC00 := by
  simp [isHigh]

theorem isLow_iff {u : Nat} : isLow u = true ↔ 0xDC00 ≤ u ∧ u < 0xE000 := by
  simp [isLow]

/-- A unit that is no surrogate is a character by itself. -/
theorem toNat_ofNat_unit {u : Nat} (hu : u < 0x10000) (hh : isHigh u = false)
    (hl : isLow u = false) : (Char.ofNat u).toNat = u := by
  have hv : u.isValidChar := by
    have nh := mt isHigh_iff.mpr (Bool.eq_false_iff.mp hh)
    have nl := mt isLow_iff.mpr (Bool.eq_false_iff.mp hl)
    unfold Nat.isValidChar
    omega
  exact toNat_charOfNat hv

/-- A pair of surrogates makes a character past the first 65536. -/
theorem toNat_pair {u v : Nat} (hu : isHigh u = true) (hv : isLow v = true) :
    (pair u v).toNat = 0x10000 + (u - 0xD800) * 0x400 + (v - 0xDC00) := by
  have hc : (0x10000 + (u - 0xD800) * 0x400 + (v - 0xDC00)).isValidChar := by
    have hu := isHigh_iff.mp hu
    have hv := isLow_iff.mp hv
    unfold Nat.isValidChar
    omega
  exact toNat_charOfNat hc

theorem read_unit {order : ByteOrder} {a b : UInt8} (hh : isHigh (unit order a b) = false)
    (hl : isLow (unit order a b) = false) (r : Bytes) :
    read order a (b :: r) = ⟨some (Char.ofNat (unit order a b)), a, [b]⟩ := by
  simp only [read, hh, hl, Bool.false_eq_true, if_false]

theorem read_pair {order : ByteOrder} {a b c d : UInt8} (hu : isHigh (unit order a b) = true)
    (hv : isLow (unit order c d) = true) (r : Bytes) :
    read order a (b :: c :: d :: r) =
      ⟨some (pair (unit order a b) (unit order c d)), a, [b, c, d]⟩ := by
  simp only [read, hu, hv, if_true]

/-- What is at the front of a byte string: no character, one unit that is no surrogate, or a high
surrogate with a low one after it. -/
private theorem read_cases (order : ByteOrder) (a : UInt8) (r : Bytes) :
    (∃ more, more <+: r ∧ read order a r = ⟨none, a, more⟩) ∨
    (∃ b s, r = b :: s ∧ isHigh (unit order a b) = false ∧ isLow (unit order a b) = false ∧
      read order a r = ⟨some (Char.ofNat (unit order a b)), a, [b]⟩) ∨
    (∃ b c d s, r = b :: c :: d :: s ∧ isHigh (unit order a b) = true ∧
      isLow (unit order c d) = true ∧
      read order a r = ⟨some (pair (unit order a b) (unit order c d)), a, [b, c, d]⟩) := by
  cases r with
  | nil => exact .inl ⟨[], List.nil_prefix, rfl⟩
  | cons b s =>
    have hb : [b] <+: b :: s := ⟨s, rfl⟩
    cases hu : isHigh (unit order a b) with
    | false =>
      cases hl : isLow (unit order a b) with
      | false => exact .inr (.inl ⟨b, s, rfl, hu, hl, read_unit hu hl s⟩)
      | true =>
        refine .inl ⟨[b], hb, ?_⟩
        simp only [read, hu, hl, Bool.false_eq_true, if_false, if_true]
    | true =>
      rcases s with _ | ⟨c, _ | ⟨d, s⟩⟩
      · refine .inl ⟨[b], hb, ?_⟩
        simp only [read, hu, if_true]
      · refine .inl ⟨[b], hb, ?_⟩
        simp only [read, hu, if_true]
      · cases hv : isLow (unit order c d) with
        | true => exact .inr (.inr ⟨b, c, d, s, rfl, hu, hv, read_pair hu hv s⟩)
        | false =>
          refine .inl ⟨[b], hb, ?_⟩
          simp only [read, hu, hv, Bool.false_eq_true, if_false, if_true]

private theorem encodeChar_unit (order : ByteOrder) {u : Nat} (hu : u < 0x10000)
    (hh : isHigh u = false) (hl : isLow u = false) :
    encodeChar order (Char.ofNat u) = unitBytes order u := by
  rw [encodeChar, toNat_ofNat_unit hu hh hl, if_pos hu]

private theorem encodeChar_pair (order : ByteOrder) {u v : Nat} (hu : isHigh u = true)
    (hv : isLow v = true) :
    encodeChar order (pair u v) = unitBytes order u ++ unitBytes order v := by
  have hn := toNat_pair hu hv
  have hu := isHigh_iff.mp hu
  have hv := isLow_iff.mp hv
  have hbig : ¬ (pair u v).toNat < 0x10000 := by omega
  have hfirst : 0xD800 + ((pair u v).toNat - 0x10000) / 0x400 = u := by omega
  have hsecond : 0xDC00 + ((pair u v).toNat - 0x10000) % 0x400 = v := by omega
  simp only [encodeChar, if_neg hbig, hfirst, hsecond]

/-- A character past the first 65536 is that of a pair of surrogates. -/
private theorem exists_pair {c : Char} (h : 0x10000 ≤ c.toNat) :
    ∃ u v, isHigh u = true ∧ isLow v = true ∧ c = pair u v := by
  have hc : c.toNat < 0xD800 ∨ 0xDFFF < c.toNat ∧ c.toNat < 0x110000 := c.valid
  refine ⟨0xD800 + (c.toNat - 0x10000) / 0x400, 0xDC00 + (c.toNat - 0x10000) % 0x400,
    isHigh_iff.mpr (by omega), isLow_iff.mpr (by omega), ?_⟩
  have hn : 0x10000 + (0xD800 + (c.toNat - 0x10000) / 0x400 - 0xD800) * 0x400 +
      (0xDC00 + (c.toNat - 0x10000) % 0x400 - 0xDC00) = c.toNat := by omega
  rw [pair, hn, Char.ofNat_toNat]

theorem faithful_read (order : ByteOrder) : Piece.Rule.Faithful (read order) := by
  intro a r
  rcases read_cases order a r with ⟨more, hm, he⟩ | ⟨b, s, rfl, _, _, he⟩ |
    ⟨b, c, d, s, rfl, _, _, he⟩
  · rw [he]
    exact ⟨rfl, hm⟩
  · rw [he]
    exact ⟨rfl, s, rfl⟩
  · rw [he]
    exact ⟨rfl, s, rfl⟩

/-- The bytes of a piece that has a character are those of the character. -/
theorem encodeChar_of_read {order : ByteOrder} {a : UInt8} {r : Bytes} {x : Char}
    (h : (read order a r).char? = some x) : encodeChar order x = (read order a r).bytes := by
  rcases read_cases order a r with ⟨more, _, he⟩ | ⟨b, s, rfl, hh, hl, he⟩ |
    ⟨b, c, d, s, rfl, hu, hv, he⟩
  · rw [he] at h
    cases h
  · rw [he] at h ⊢
    obtain rfl := Option.some.inj h
    rw [encodeChar_unit order (unit_lt order a b) hh hl, unitBytes_unit]
    rfl
  · rw [he] at h ⊢
    obtain rfl := Option.some.inj h
    rw [encodeChar_pair order hu hv, unitBytes_unit, unitBytes_unit]
    rfl

/-- The bytes of a character are read as that character. -/
theorem read_encodeChar (order : ByteOrder) (x : Char) :
    ∃ first more, encodeChar order x = first :: more ∧
      ∀ r, read order first (more ++ r) = ⟨some x, first, more⟩ := by
  by_cases hx : x.toNat < 0x10000
  · have hc : x.toNat < 0xD800 ∨ 0xDFFF < x.toNat ∧ x.toNat < 0x110000 := x.valid
    have hh : isHigh x.toNat = false := Bool.eq_false_iff.mpr (mt isHigh_iff.mp (by omega))
    have hl : isLow x.toNat = false := Bool.eq_false_iff.mpr (mt isLow_iff.mp (by omega))
    obtain ⟨a, b, hb, hu⟩ := exists_unitBytes order hx
    refine ⟨a, [b], ?_, ?_⟩
    · simp only [encodeChar, if_pos hx, hb]
    · intro r
      rw [← hu] at hh hl
      have hr := read_unit hh hl r
      rw [hu, Char.ofNat_toNat] at hr
      exact hr
  · obtain ⟨u, v, hu, hv, hp⟩ := exists_pair (Nat.le_of_not_lt hx)
    have hsmall := isHigh_iff.mp hu
    have hsmall' := isLow_iff.mp hv
    obtain ⟨a, b, hab, rfl⟩ := exists_unitBytes order (show u < 0x10000 by omega)
    obtain ⟨c, d, hcd, rfl⟩ := exists_unitBytes order (show v < 0x10000 by omega)
    refine ⟨a, [b, c, d], ?_, ?_⟩
    · rw [hp, encodeChar_pair order hu hv, hab, hcd]
      rfl
    · intro r
      rw [hp]
      exact read_pair hu hv r

theorem inverts (order : ByteOrder) :
    Piece.Rule.Inverts (read order) fun x => some (encodeChar order x) where
  faithful := faithful_read order
  write_read h := congrArg some (encodeChar_of_read h)
  read_write h := by
    cases h
    exact read_encodeChar order _

end Unstamp.Utf16
