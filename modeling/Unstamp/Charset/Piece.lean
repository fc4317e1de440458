import Unstamp.Text.Basic

/-! Byte strings read as pieces: characters with the bytes that stand for them, or runs of bytes
that stand for none. -/
namespace Unstamp

/-- The first byte of a piece, the bytes after it, and the character that they stand for. -/
structure Piece where
  char? : Option Char
  first : UInt8
  more : Bytes

/-- A reading rule: the piece at the front of a byte string, whose first byte is given apart. -/
abbrev Piece.Rule := UInt8 → Bytes → Piece

namespace Piece

def bytes (p : Piece) : Bytes :=
  p.first :: p.more

def cut (rule : Rule) : Bytes → List Piece
  | [] => []
  | b :: r => rule b r :: cut rule (r.drop (rule b r).more.length)
termination_by b => b.length
decreasing_by
  rw [List.length_drop, List.length_cons]
  omega

/-- A rule that only ever takes bytes off the front of what it reads. -/
def Rule.Faithful (rule : Rule) : Prop :=
  ∀ b r, (rule b r).first = b ∧ (rule b r).more <+: r

/-- A piece and what is left after it are what was read. -/
theorem Rule.Faithful.bytes_append {rule : Rule} (h : rule.Faithful) (a : UInt8) (r : Bytes) :
    (rule a r).bytes ++ r.drop (rule a r).more.length = a :: r := by
  obtain ⟨hfirst, hmore⟩ := h a r
  rw [bytes, hfirst, List.cons_append, List.prefix_iff_eq_append.mp hmore]

/-- The text of the pieces, or the number of bytes before the first one without a character,
counted on from `n`. -/
def strictFrom (n : Nat) : List Piece → Except Nat Text
  | [] => .ok []
  | p :: ps =>
    match p.char? with
    | none => .error n
    | some c => (strictFrom (n + p.bytes.length) ps).map (c :: ·)

def strict (ps : List Piece) : Except Nat Text :=
  strictFrom 0 ps

def lossy (ps : List Piece) : Text :=
  ps.map fun p => p.char?.getD '\uFFFD'

end Piece

end Unstamp
