import Unstamp.Proofs.Charset.Lossy
import Unstamp.Proofs.Comment.Spelling

/-! The bytes of UTF-8 as characters of their own, which is how ISO-8859-1 reads them. -/
namespace Unstamp

private theorem isAscii_charOfNat (a : UInt8) : IsAscii (Char.ofNat a.toNat) ↔ a.toNat < 0x80 := by
  have ha := a.toNat_lt
  rw [IsAscii, toNat_charOfNat (.inl (by omega))]

namespace SingleByte

def text (b : Bytes) : Text :=
  b.map fun a => Char.ofNat a.toNat

private theorem text_append (a b : Bytes) : text (a ++ b) = text a ++ text b :=
  List.map_append

theorem encode_text (b : Bytes) : Charset.latin1.encode (text b) = .ok b := by
  induction b with
  | nil => rfl
  | cons a b ih =>
    have ha := a.toNat_lt
    have hn : (Char.ofNat a.toNat).toNat = a.toNat := toNat_charOfNat (.inl (by omega))
    refine Charset.encode_cons_eq_ok.mpr ⟨[a], b, ?_, ih, rfl⟩
    rw [Charset.encodeChar?, encodeChar?, hn, if_pos ha, UInt8.ofNat_toNat]

theorem decode_text (b : Bytes) : Charset.latin1.decode b = .ok (text b) :=
  Charset.decode_of_encode (encode_text b)

theorem decodeLossy_text (b : Bytes) : Charset.latin1.decodeLossy b = text b :=
  Charset.decodeLossy_of_decode (decode_text b)

end SingleByte

namespace Utf8
open SingleByte

def SpellsExactly (c : Char) (w : Text) : Prop :=
  w = text (encodeChar c)

/-- A character of ASCII as itself, any other one as bytes outside ASCII, whichever they are. -/
def SpellsLoosely (c : Char) (w : Text) : Prop :=
  (IsAscii c → w = [c]) ∧ (¬ IsAscii c → w ≠ [] ∧ ∀ d ∈ w, ¬ IsAscii d)

theorem spelling_loosely : Spelling SpellsLoosely where
  ascii h := h.1
  wide h := h.2

private theorem encodeChar_ascii {c : Char} (h : IsAscii c) :
    ∃ b, encodeChar c = [b] ∧ b.toNat = c.toNat := by
  have hc : c.toNat < 0x80 := h
  refine ⟨head 0 c.toNat, ?_, ?_⟩
  · rw [encodeChar, if_pos hc]
  · rw [toNat_head (by omega), Nat.zero_add]

theorem spelling_exactly : Spelling SpellsExactly where
  ascii {c w} h hc := by
    obtain ⟨b, he, hb⟩ := encodeChar_ascii hc
    rw [h, he, text, List.map_singleton, hb, Char.ofNat_toNat]
  wide {c w} h hc := by
    obtain ⟨first, more, he, -⟩ := read_encodeChar c
    rw [h]
    constructor
    · rw [he]
      exact List.cons_ne_nil _ _
    · intro d hd
      obtain ⟨b, hb, rfl⟩ := List.mem_map.mp hd
      rw [isAscii_charOfNat]
      intro hsmall
      exact hc (Nat.lt_of_le_of_lt (Nat.le_of_eq ((mem_encodeChar hsmall).mp hb)) hsmall)

theorem spelled_encode (t : Text) : Spelled SpellsExactly t (text (encode t)) := by
  induction t with
  | nil => exact .nil
  | cons c t ih =>
    rw [encode, List.flatMap_cons, text_append]
    exact .cons rfl ih

theorem encode_of_spelled {t u : Text} (h : Spelled SpellsExactly t u) : u = text (encode t) := by
  induction h with
  | nil => rfl
  | cons hc _ ih => rw [hc, ih, encode, encode, List.flatMap_cons, text_append]

private theorem read_ascii {a : UInt8} (h : a.toNat < 0x80) (r : Bytes) :
    read a r = ⟨some (Char.ofNat a.toNat), a, []⟩ := by
  have ha : head 0 a.toNat = a := head_eq (Nat.zero_add _)
  have hr := read_one h r
  rwa [ha] at hr

private theorem wide_readMore {first : UInt8} {seen : Bytes} {n : Nat} {range : Nat × Nat}
    {count : Nat} {r : Bytes} (hs : ∀ b ∈ seen, 0x80 ≤ b.toNat) (hr : 0x80 ≤ range.1) :
    ∀ b ∈ (readMore first seen n range count r).more, 0x80 ≤ b.toNat := by
  induction count generalizing seen n range r with
  | zero =>
    rw [readMore_zero]
    exact hs
  | succ count ih =>
    cases r with
    | nil => exact hs
    | cons a r =>
      rw [readMore]
      split
      · rename_i ha
        refine ih ?_ (Nat.le_refl _)
        intro b hb
        rcases List.mem_append.mp hb with hb | hb
        · exact hs b hb
        · obtain rfl := List.mem_singleton.mp hb
          exact Nat.le_trans hr (lies_iff.mp ha).1
      · exact hs

private theorem seconds_ge (first : Nat) : 0x80 ≤ (seconds first).1 := by
  unfold seconds
  repeat' split
  all_goals decide

/-- A piece that starts outside ASCII has no byte of ASCII. -/
private theorem wide_read {a : UInt8} (h : 0x80 ≤ a.toNat) (r : Bytes) :
    ∀ b ∈ (read a r).bytes, 0x80 ≤ b.toNat := by
  have hmore : ∀ b ∈ (read a r).more, 0x80 ≤ b.toNat := by
    have hn := seconds_ge a.toNat
    simp only [read, if_neg (Nat.not_lt.mpr h)]
    repeat' split
    all_goals first | exact wide_readMore (List.forall_mem_nil _) hn | exact List.forall_mem_nil _
  rw [Piece.bytes, (faithful_read a r).1]
  exact List.forall_mem_cons.mpr ⟨h, hmore⟩

private theorem not_isAscii_of_read {a : UInt8} (h : 0x80 ≤ a.toNat) {r : Bytes} {c : Char}
    (hc : (read a r).char? = some c) : ¬ IsAscii c := by
  intro hsmall
  obtain ⟨b, he, hb⟩ := encodeChar_ascii hsmall
  have hwide := wide_read h r
  rw [← encodeChar_of_read hc, he] at hwide
  have hge : 0x80 ≤ c.toNat := hb ▸ hwide b List.mem_cons_self
  exact Nat.not_lt.mpr hge hsmall

/-- What the lossy view puts for the first bytes is spelled out in them. -/
private theorem spellsLoosely_read (a : UInt8) (r : Bytes) :
    SpellsLoosely ((read a r).char?.getD '\uFFFD') (text (read a r).bytes) := by
  by_cases ha : a.toNat < 0x80
  · rw [read_ascii ha]
    exact ⟨fun _ => rfl, fun h => absurd ((isAscii_charOfNat a).mpr ha) h⟩
  · have hwide := wide_read (Nat.le_of_not_lt ha) r
    constructor
    · intro hc
      cases hr : (read a r).char? with
      | none =>
        rw [hr] at hc
        exact absurd hc (by decide)
      | some c =>
        rw [hr] at hc
        exact absurd hc (not_isAscii_of_read (Nat.le_of_not_lt ha) hr)
    · refine fun _ => ⟨List.cons_ne_nil _ _, ?_⟩
      intro d hd
      obtain ⟨b, hb, rfl⟩ := List.mem_map.mp hd
      rw [isAscii_charOfNat]
      exact Nat.not_lt.mpr (hwide b hb)

/-- The lossy view of any bytes, valid or not, is spelled out in these bytes. -/
theorem spelled_decodeLossy (b : Bytes) : Spelled SpellsLoosely (decodeLossy b) (text b) := by
  rw [decodeLossy]
  fun_induction Piece.cut read b with
  | case1 => exact .nil
  | case2 a r ih =>
    rw [← faithful_read.bytes_append a r, text_append]
    exact .cons (spellsLoosely_read a r) ih

private theorem readMore_append {a : UInt8} (ha : a.toNat < 0x80) {first : UInt8} {seen : Bytes}
    {n : Nat} {range : Nat × Nat} (hr : 0x80 ≤ range.1) (count : Nat) (r s : Bytes) :
    readMore first seen n range count (r ++ a :: s) = readMore first seen n range count r := by
  induction count generalizing seen n range r with
  | zero => rw [readMore_zero, readMore_zero]
  | succ count ih =>
    cases r with
    | nil =>
      have hlies : ¬ lies range a = true := by
        rw [lies_iff]
        omega
      rw [List.nil_append, readMore, readMore, if_neg hlies]
    | cons b r =>
      rw [List.cons_append, readMore, readMore]
      split
      · exact ih (Nat.le_refl _) r
      · rfl

/-- No piece goes on over a byte of ASCII. -/
private theorem read_append {a : UInt8} (ha : a.toNat < 0x80) (b : UInt8) (r s : Bytes) :
    read b (r ++ a :: s) = read b r := by
  have hmore (n count : Nat) : readMore b [] n (seconds b.toNat) count (r ++ a :: s) =
      readMore b [] n (seconds b.toNat) count r :=
    readMore_append ha (seconds_ge b.toNat) count r s
  simp only [read, readMore_zero, hmore]

theorem cut_append {a : UInt8} (ha : a.toNat < 0x80) (r s : Bytes) :
    Piece.cut read (r ++ a :: s) =
      Piece.cut read r ++ ⟨some (Char.ofNat a.toNat), a, []⟩ :: Piece.cut read s := by
  fun_induction Piece.cut read r with
  | case1 =>
    rw [List.nil_append, Piece.cut, read_ascii ha]
    rfl
  | case2 b r ih =>
    obtain ⟨-, hmore⟩ := faithful_read b r
    rw [List.cons_append, Piece.cut, read_append ha, List.drop_append_of_le_length hmore.length_le,
      ih, List.cons_append]

/-- The lossy view does not mix up what stands on two sides of a byte of ASCII. -/
theorem decodeLossy_append {a : UInt8} (ha : a.toNat < 0x80) (r s : Bytes) :
    decodeLossy (r ++ a :: s) = decodeLossy r ++ Char.ofNat a.toNat :: decodeLossy s := by
  rw [decodeLossy, cut_append ha, Piece.lossy, List.map_append, List.map_cons]
  rfl

/-- Nor is a character of ASCII missing in the text where its byte stands. -/
theorem exists_of_encode_eq_append {a : UInt8} (ha : a.toNat < 0x80) {t : Text} {p r : Bytes}
    (h : encode t = p ++ a :: r) :
    ∃ s u, t = s ++ Char.ofNat a.toNat :: u ∧ encode s = p ∧ encode u = r := by
  induction t generalizing p with
  | nil => exact absurd h.symm (List.append_ne_nil_of_right_ne_nil p (List.cons_ne_nil a r))
  | cons c t ih =>
    have hnext {p' : Bytes} (hp : p = encodeChar c ++ p') (ht : encode t = p' ++ a :: r) :
        ∃ s u, c :: t = s ++ Char.ofNat a.toNat :: u ∧ encode s = p ∧ encode u = r := by
      obtain ⟨s, u, rfl, rfl, hu⟩ := ih ht
      exact ⟨c :: s, u, rfl, hp.symm, hu⟩
    rw [encode, List.flatMap_cons] at h
    rcases List.append_eq_append_iff.mp h with ⟨p', hp, ht⟩ | ⟨w, hc, hw⟩
    · exact hnext hp ht
    · cases w with
      | nil =>
        have hp : p = encodeChar c ++ [] := by rw [hc, List.append_nil, List.append_nil]
        exact hnext hp hw.symm
      | cons b w =>
        obtain ⟨rfl, rfl⟩ := List.cons.inj hw
        have hn : c.toNat = a.toNat := (mem_encodeChar ha).mp (by simp [hc])
        have hascii : IsAscii c := Nat.lt_of_le_of_lt (Nat.le_of_eq hn) ha
        obtain ⟨b, hb, -⟩ := encodeChar_ascii hascii
        rw [hb] at hc
        obtain ⟨rfl, hw⟩ := (List.append_eq_singleton_iff.mp hc.symm).resolve_right (by simp)
        obtain rfl := (List.cons.inj hw).2
        exact ⟨[], t, by rw [← hn, Char.ofNat_toNat, List.nil_append], rfl, rfl⟩

end Utf8

end Unstamp
