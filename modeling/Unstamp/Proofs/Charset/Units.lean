import Unstamp.Proofs.Charset.Bytewise

/-! Byte strings cut into the units of a charset, one byte or two, where each unit below 0x80 is the
character of its number. -/
namespace Unstamp

namespace Spelled
variable {spells : Char → Text → Prop}

/-- A text whose characters may stand for themselves. -/
private theorem self (h : ∀ c, spells c [c]) (t : Text) : Spelled spells t t := by
  induction t with
  | nil => exact .nil
  | cons c t ih => exact .cons (h c) ih

end Spelled

private theorem Utf8.spellsLoosely_self (c : Char) : SpellsLoosely c [c] := by
  refine ⟨fun _ => rfl, fun hc => ⟨List.cons_ne_nil c [], ?_⟩⟩
  intro d hd
  exact List.mem_singleton.mp hd ▸ hc

namespace Utf16

/-- A unit as a character of its own; half a pair has none. -/
def unitChar (u : Nat) : Char :=
  if isHigh u || isLow u then '\uFFFD' else Char.ofNat u

def text (order : ByteOrder) : Bytes → Text
  | a :: b :: r => unitChar (unit order a b) :: text order r
  | _ => []

private theorem unitChar_of_high {u : Nat} (h : isHigh u = true) : unitChar u = '\uFFFD' := by
  rw [unitChar, h]
  rfl

private theorem unitChar_of_low {u : Nat} (h : isLow u = true) : unitChar u = '\uFFFD' := by
  rw [unitChar, h, Bool.or_true]
  rfl

private theorem unitChar_of_neither {u : Nat} (hh : isHigh u = false) (hl : isLow u = false) :
    unitChar u = Char.ofNat u := by
  rw [unitChar, hh, hl]
  rfl

/-- No unit but that of its number is a character of ASCII. -/
private theorem unitChar_eq_iff {u : Nat} (hu : u < 0x10000) {c : Char} (hc : IsAscii c) :
    unitChar u = c ↔ u = c.toNat := by
  have hc : c.toNat < 0x80 := hc
  have hwide : '\uFFFD' ≠ c := by
    rintro rfl
    exact absurd hc (by decide)
  cases hh : isHigh u with
  | true =>
    have hhigh := isHigh_iff.mp hh
    rw [unitChar_of_high hh]
    exact iff_of_false hwide (by omega)
  | false =>
    cases hl : isLow u with
    | true =>
      have hlow := isLow_iff.mp hl
      rw [unitChar_of_low hl]
      exact iff_of_false hwide (by omega)
    | false =>
      rw [unitChar_of_neither hh hl, ← Char.toNat_inj, toNat_ofNat_unit hu hh hl]

/-- What is at the front of whole units: half a pair alone, one unit that is a character, or a
pair. -/
private theorem read_cons_cases (order : ByteOrder) (a b : UInt8) (r : Bytes) :
    (unitChar (unit order a b) = '\uFFFD' ∧ read order a (b :: r) = ⟨none, a, [b]⟩) ∨
    read order a (b :: r) = ⟨some (unitChar (unit order a b)), a, [b]⟩ ∨
    ∃ c d s, r = c :: d :: s ∧ isHigh (unit order a b) = true ∧ isLow (unit order c d) = true ∧
      read order a (b :: r) = ⟨some (pair (unit order a b) (unit order c d)), a, [b, c, d]⟩ := by
  cases hu : isHigh (unit order a b) with
  | false =>
    cases hl : isLow (unit order a b) with
    | false =>
      refine .inr (.inl ?_)
      rw [unitChar_of_neither hu hl]
      exact read_unit hu hl r
    | true =>
      refine .inl ⟨unitChar_of_low hl, ?_⟩
      simp only [read, hu, hl, Bool.false_eq_true, if_false, if_true]
  | true =>
    have halone (h : read order a (b :: r) = ⟨none, a, [b]⟩) :
        unitChar (unit order a b) = '\uFFFD' ∧ read order a (b :: r) = ⟨none, a, [b]⟩ :=
      ⟨unitChar_of_high hu, h⟩
    rcases r with _ | ⟨c, _ | ⟨d, s⟩⟩
    · exact .inl (halone (by simp only [read, hu, if_true]))
    · exact .inl (halone (by simp only [read, hu, if_true]))
    · cases hv : isLow (unit order c d) with
      | true => exact .inr (.inr ⟨c, d, s, rfl, rfl, hv, read_pair hu hv s⟩)
      | false =>
        refine .inl (halone ?_)
        simp only [read, hu, hv, Bool.false_eq_true, if_false, if_true]

/-- The character of a pair is far from ASCII, and so are its two halves. -/
private theorem spellsLoosely_pair {u v : Nat} (hu : isHigh u = true) (hv : isLow v = true) :
    Utf8.SpellsLoosely (pair u v) [unitChar u, unitChar v] := by
  have hwide : ¬ IsAscii (pair u v) := by
    rw [IsAscii, toNat_pair hu hv]
    omega
  have hhalf : ¬ IsAscii '\uFFFD' := by decide
  refine ⟨fun h => absurd h hwide, fun _ => ⟨List.cons_ne_nil _ _, ?_⟩⟩
  rw [unitChar_of_high hu, unitChar_of_low hv]
  exact List.forall_mem_cons.mpr ⟨hhalf, List.forall_mem_singleton.mpr hhalf⟩

/-- The lossy view of whole units, paired or not, is spelled out in the units. -/
private theorem spelled_lossy (order : ByteOrder) {b : Bytes} (h : b.length % 2 = 0) :
    Spelled Utf8.SpellsLoosely (Piece.lossy (Piece.cut (read order) b)) (text order b) := by
  fun_induction Piece.cut (read order) b with
  | case1 => exact .nil
  | case2 a r ih =>
    rcases r with _ | ⟨b, r⟩
    · cases h
    rw [List.length_cons, List.length_cons] at h
    have hrest : r.length % 2 = 0 := by omega
    rw [Piece.lossy, List.map_cons, text]
    rcases read_cons_cases order a b r with ⟨hu, hr⟩ | hr | ⟨c, d, s, rfl, hu, hv, hr⟩
    · rw [hr] at ih ⊢
      rw [hu]
      exact .cons (Utf8.spellsLoosely_self _) (ih hrest)
    · rw [hr] at ih ⊢
      exact .cons (Utf8.spellsLoosely_self _) (ih hrest)
    · rw [List.length_cons, List.length_cons] at hrest
      have hs : s.length % 2 = 0 := by omega
      rw [hr] at ih ⊢
      rw [text]
      rw [Option.getD_some]
      exact .cons (spellsLoosely_pair hu hv) (ih hs)

private theorem text_whole (order : ByteOrder) (b : Bytes) :
    text order (b.take (b.length / 2 * 2)) = text order b := by
  fun_induction text order b with
  | case1 a b r ih =>
    have hlen : (a :: b :: r).length / 2 * 2 = r.length / 2 * 2 + 2 := by
      rw [List.length_cons, List.length_cons]
      omega
    rw [hlen, List.take_succ_cons, List.take_succ_cons, text, ih]
  | case2 b h =>
    rcases b with _ | ⟨a, _ | ⟨b, r⟩⟩
    · rfl
    · simp only [List.length_singleton, Nat.reduceDiv, Nat.zero_mul, List.take_zero, text]
    · exact absurd rfl (h a b r)

end Utf16

namespace Charset
variable {c : Charset} {a : Char} {s : Text} {b e : Bytes}

def unitBytes : Charset → Nat → Bytes
  | utf16 order, u => Utf16.unitBytes order u
  | _, u => [UInt8.ofNat u]

def unitWidth : Charset → Nat
  | utf16 _ => 2
  | _ => 1

def unitText : Charset → Bytes → Text
  | utf16 order => Utf16.text order
  | _ => SingleByte.text

/-- The lossy view of any bytes, valid or not, is spelled out in their units. -/
theorem spelled_decodeLossy (c : Charset) (b : Bytes) :
    Spelled Utf8.SpellsLoosely (c.decodeLossy b) (c.unitText b) := by
  cases c with
  | utf8 | usAscii => exact Utf8.spelled_decodeLossy b
  | latin1 =>
    rw [SingleByte.decodeLossy_text]
    exact .self Utf8.spellsLoosely_self _
  | utf16 order =>
    have hwhole : (b.take (b.length / 2 * 2)).length % 2 = 0 := by
      rw [List.length_take]
      omega
    have hspelled := Utf16.spelled_lossy order hwhole
    rwa [Utf16.text_whole] at hspelled

/-- A character of ASCII is one unit in every charset. -/
private theorem encodeChar?_ascii (c : Charset) (ha : IsAscii a) :
    c.encodeChar? a = some (c.unitBytes a.toNat) := by
  have ha : a.toNat < 0x80 := ha
  cases c with
  | utf8 =>
    rw [encodeChar?, Utf8.encodeChar, if_pos ha, Utf8.head, Nat.zero_add]
    rfl
  | usAscii => exact if_pos ha
  | latin1 => exact if_pos (Nat.lt_trans ha (by decide))
  | utf16 order =>
    rw [encodeChar?, Utf16.encodeChar, if_pos (Nat.lt_trans ha (by decide))]
    rfl

/-- Every charset has the words of ASCII. -/
theorem encode_ascii (c : Charset) (hs : ∀ a ∈ s, IsAscii a) :
    c.encode s = .ok (s.flatMap fun a => c.unitBytes a.toNat) := by
  induction s with
  | nil => rfl
  | cons a s ih =>
    obtain ⟨ha, hs⟩ := List.forall_mem_cons.mp hs
    exact encode_cons_eq_ok.mpr ⟨_, _, encodeChar?_ascii c ha, ih hs, rfl⟩

/-- A character of ASCII is at the front of the units just where its bytes are. -/
private theorem cons_prefix_unitText_iff (ha : IsAscii a) :
    a :: s <+: c.unitText b ↔ ∃ r, b = c.unitBytes a.toNat ++ r ∧ s <+: c.unitText r := by
  have single (b : Bytes) : a :: s <+: SingleByte.text b ↔
      ∃ r, b = [UInt8.ofNat a.toNat] ++ r ∧ s <+: SingleByte.text r := by
    have ha : a.toNat < 0x80 := ha
    cases b with
    | nil => exact ⟨fun h => absurd (List.prefix_nil.mp h) (List.cons_ne_nil a s), by simp⟩
    | cons x r =>
      have hx := x.toNat_lt
      have hchar : a = Char.ofNat x.toNat ↔ x = UInt8.ofNat a.toNat := by
        rw [← Char.toNat_inj, toNat_charOfNat (.inl (by omega)), ← UInt8.toNat_inj,
          UInt8.toNat_ofNat_of_lt' (Nat.lt_trans ha (by decide)), eq_comm]
      rw [SingleByte.text, List.map_cons, List.cons_prefix_cons, hchar]
      simp only [List.singleton_append, List.cons.injEq]
      constructor
      · rintro ⟨rfl, h⟩
        exact ⟨r, ⟨rfl, rfl⟩, h⟩
      · rintro ⟨_, ⟨rfl, rfl⟩, h⟩
        exact ⟨rfl, h⟩
  cases c with
  | utf8 | usAscii | latin1 => exact single b
  | utf16 order =>
    obtain ⟨x, y, hxy, hu⟩ := Utf16.exists_unitBytes order
      (Nat.lt_trans ha (by decide) : a.toNat < 0x10000)
    simp only [unitText, unitBytes, hxy]
    rcases b with _ | ⟨x', _ | ⟨y', r⟩⟩
    · exact ⟨fun h => absurd (List.prefix_nil.mp h) (List.cons_ne_nil a s), by simp⟩
    · exact ⟨fun h => absurd (List.prefix_nil.mp h) (List.cons_ne_nil a s), by simp⟩
    · have hchar : a = Utf16.unitChar (Utf16.unit order x' y') ↔ x' = x ∧ y' = y := by
        rw [eq_comm, Utf16.unitChar_eq_iff (Utf16.unit_lt order x' y') ha]
        constructor
        · intro h
          have hbytes := Utf16.unitBytes_unit order x' y'
          rw [h, hxy] at hbytes
          cases hbytes
          exact ⟨rfl, rfl⟩
        · rintro ⟨rfl, rfl⟩
          exact hu
      rw [Utf16.text, List.cons_prefix_cons, hchar]
      simp only [List.cons_append, List.nil_append, List.cons.injEq]
      constructor
      · rintro ⟨⟨rfl, rfl⟩, h⟩
        exact ⟨r, ⟨rfl, rfl, rfl⟩, h⟩
      · rintro ⟨_, ⟨rfl, rfl, rfl⟩, h⟩
        exact ⟨⟨rfl, rfl⟩, h⟩

private theorem prefix_unitText_iff (hs : ∀ a ∈ s, IsAscii a) :
    s <+: c.unitText b ↔ (s.flatMap fun a => c.unitBytes a.toNat) <+: b := by
  induction s generalizing b with
  | nil => exact iff_of_true List.nil_prefix List.nil_prefix
  | cons a s ih =>
    obtain ⟨ha, hs⟩ := List.forall_mem_cons.mp hs
    rw [cons_prefix_unitText_iff ha, List.flatMap_cons]
    constructor
    · rintro ⟨r, rfl, h⟩
      exact (List.prefix_append_right_inj _).mpr ((ih hs).mp h)
    · rintro ⟨r, rfl⟩
      exact ⟨_, List.append_assoc _ _ _, (ih hs).mpr (List.prefix_append _ r)⟩

private theorem unitText_drop (c : Charset) (b : Bytes) (k : Nat) :
    (c.unitText b).drop k = c.unitText (b.drop (c.unitWidth * k)) := by
  cases c with
  | utf8 | usAscii | latin1 =>
    simp only [unitWidth, Nat.one_mul]
    exact List.map_drop.symm
  | utf16 order =>
    rw [unitText, unitWidth]
    induction k generalizing b with
    | zero => rfl
    | succ k ih =>
      rcases b with _ | ⟨x, _ | ⟨y, r⟩⟩
      · rfl
      · rfl
      · rw [Utf16.text, List.drop_succ_cons, ih]
        rfl

/-- A word of ASCII stands in the units of some bytes just where its bytes start with a unit. -/
theorem infix_unitText_iff (hne : s ≠ []) (hs : ∀ a ∈ s, IsAscii a) :
    s <:+: c.unitText b ↔ ∃ before after,
      b = before ++ (s.flatMap fun a => c.unitBytes a.toNat) ++ after ∧
        c.unitWidth ∣ before.length := by
  constructor
  · rintro ⟨x, y, h⟩
    have hp : s <+: c.unitText (b.drop (c.unitWidth * x.length)) := by
      rw [← unitText_drop, ← h, List.append_assoc, List.drop_left]
      exact List.prefix_append s y
    obtain ⟨after, ha⟩ := (prefix_unitText_iff hs).mp hp
    refine ⟨b.take (c.unitWidth * x.length), after, ?_, ?_⟩
    · rw [List.append_assoc, ha, List.take_append_drop]
    · rw [List.length_take, Nat.min_eq_left]
      · exact Nat.dvd_mul_right _ _
      · apply Nat.le_of_not_lt
        intro hlong
        rw [List.drop_of_length_le (Nat.le_of_lt hlong)] at hp
        have hnone : c.unitText [] = [] := by cases c <;> rfl
        exact hne (List.prefix_nil.mp (hnone ▸ hp))
  · rintro ⟨before, after, rfl, k, hk⟩
    have hp : s <+: (c.unitText
        (before ++ (s.flatMap fun a => c.unitBytes a.toNat) ++ after)).drop k := by
      rw [unitText_drop, ← hk, List.append_assoc, List.drop_left]
      exact (prefix_unitText_iff hs).mpr (List.prefix_append _ after)
    exact hp.isInfix.trans (List.drop_suffix k _).isInfix

end Charset

end Unstamp
