import Unstamp.Charset.Basic

namespace Unstamp

/-- What a rule reads as a character is what is written for it, and what is written for a character
is read as it, whatever comes after. -/
structure Piece.Rule.Inverts (rule : Piece.Rule) (write : Char → Option Bytes) : Prop where
  faithful : rule.Faithful
  write_read : ∀ {first r c}, (rule first r).char? = some c → write c = some (rule first r).bytes
  read_write : ∀ {c bytes}, write c = some bytes →
    ∃ first more, bytes = first :: more ∧ ∀ r, rule first (more ++ r) = ⟨some c, first, more⟩

theorem toNat_charOfNat {n : Nat} (h : n.isValidChar) : (Char.ofNat n).toNat = n := by
  rw [Char.ofNat, dif_pos h]
  rfl

theorem map_eq_ok {ε α β : Type} {f : α → β} {x : Except ε α} {b : β} :
    x.map f = .ok b ↔ ∃ a, x = .ok a ∧ b = f a := by
  cases x with
  | error fault => exact ⟨nofun, nofun⟩
  | ok a =>
    constructor
    · rintro ⟨⟩
      exact ⟨a, rfl, rfl⟩
    · rintro ⟨_, ⟨⟩, rfl⟩
      rfl

theorem mapError_eq_ok {ε ε' α : Type} {f : ε → ε'} {x : Except ε α} {a : α} :
    x.mapError f = .ok a ↔ x = .ok a := by
  cases x with
  | error fault => exact ⟨nofun, nofun⟩
  | ok a' =>
    constructor
    · rintro ⟨⟩
      rfl
    · rintro ⟨⟩
      rfl

theorem mapError_eq_error {ε ε' α : Type} {f : ε → ε'} {x : Except ε α} {fault : ε'} :
    x.mapError f = .error fault ↔ ∃ e, x = .error e ∧ fault = f e := by
  cases x with
  | error e =>
    constructor
    · rintro ⟨⟩
      exact ⟨e, rfl, rfl⟩
    · rintro ⟨_, ⟨⟩, rfl⟩
      rfl
  | ok a => exact ⟨nofun, nofun⟩

namespace Piece
variable {rule : Rule}

theorem strictFrom_cons_eq_ok {n : Nat} {p : Piece} {ps : List Piece} {t : Text} :
    strictFrom n (p :: ps) = .ok t ↔
      ∃ c s, p.char? = some c ∧ strictFrom (n + p.bytes.length) ps = .ok s ∧ t = c :: s := by
  rw [strictFrom]
  cases p.char? with
  | none => exact ⟨nofun, nofun⟩
  | some c =>
    simp only [map_eq_ok, Option.some.injEq, exists_and_left, exists_eq_left']

theorem cut_append {first : UInt8} {more r : Bytes} {p : Piece}
    (h : rule first (more ++ r) = p) (hm : p.more = more) :
    cut rule (first :: more ++ r) = p :: cut rule r := by
  rw [List.cons_append, cut, h, hm, List.drop_left]

end Piece

namespace Charset

theorem encode_cons_eq_ok {c : Charset} {a : Char} {t : Text} {b : Bytes} :
    c.encode (a :: t) = .ok b ↔
      ∃ s r, c.encodeChar? a = some s ∧ c.encode t = .ok r ∧ b = s ++ r := by
  rw [encode]
  cases c.encodeChar? a with
  | none => exact ⟨nofun, nofun⟩
  | some s =>
    simp only [map_eq_ok, Option.some.injEq, exists_and_left, exists_eq_left']

/-- Pieces with a character throughout have the text whose bytes they are. -/
theorem strictFrom_cut_eq_ok_iff {c : Charset} (h : c.rule.Inverts c.encodeChar?) {n : Nat}
    {b : Bytes} {t : Text} :
    Piece.strictFrom n (Piece.cut c.rule b) = .ok t ↔ c.encode t = .ok b := by
  constructor
  · intro hs
    fun_induction Piece.cut c.rule b generalizing n t with
    | case1 =>
      cases hs
      rfl
    | case2 first r ih =>
      obtain ⟨a, s, ha, hr, rfl⟩ := Piece.strictFrom_cons_eq_ok.mp hs
      have hb := h.faithful.bytes_append first r
      exact encode_cons_eq_ok.mpr ⟨_, _, h.write_read ha, ih hr, hb.symm⟩
  · intro he
    induction t generalizing n b with
    | nil =>
      cases he
      rw [Piece.cut, Piece.strictFrom]
    | cons a t ih =>
      obtain ⟨s, r, hs, hr, rfl⟩ := encode_cons_eq_ok.mp he
      obtain ⟨first, more, rfl, hread⟩ := h.read_write hs
      rw [Piece.cut_append (hread r) rfl]
      exact Piece.strictFrom_cons_eq_ok.mpr ⟨a, t, rfl, ih hr, rfl⟩

end Charset

end Unstamp
