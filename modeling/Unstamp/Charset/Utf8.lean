import Unstamp.Charset.Piece

/-! UTF-8. A run of bytes without a character is as long as it could still have been the start of
one, and a single byte otherwise. -/
namespace Unstamp.Utf8

def tails : Nat × Nat := (0x80, 0xBF)

/-- The range of the byte after a first byte of this number. It is narrower where a wider one would
admit a character too small for its length, a surrogate, or a number past the last character. -/
def seconds (first : Nat) : Nat × Nat :=
  if first = 0xE0 then (0xA0, 0xBF)
  else if first = 0xED then (0x80, 0x9F)
  else if first = 0xF0 then (0x90, 0xBF)
  else if first = 0xF4 then (0x80, 0x8F)
  else tails

def lies (range : Nat × Nat) (b : UInt8) : Bool :=
  range.1 ≤ b.toNat && b.toNat ≤ range.2

def payload (b : UInt8) : Nat :=
  b.toNat - 0x80

/-- Reads so many continuation bytes, after a first byte and `seen`, which make up `n` so far. The
next byte has to lie in the range, any later one in that of all continuation bytes. -/
def readMore (first : UInt8) (seen : Bytes) (n : Nat) (range : Nat × Nat) : Nat → Bytes → Piece
  | 0, _ => ⟨some (Char.ofNat n), first, seen⟩
  | _ + 1, [] => ⟨none, first, seen⟩
  | count + 1, b :: r =>
    if lies range b then
      readMore first (seen ++ [b]) (n * 0x40 + payload b) tails count r
    else ⟨none, first, seen⟩

def read : Piece.Rule := fun first r =>
  let n := first.toNat
  if n < 0x80 then readMore first [] n tails 0 r
  else if n < 0xC2 then ⟨none, first, []⟩
  else if n < 0xE0 then readMore first [] (n - 0xC0) (seconds n) 1 r
  else if n < 0xF0 then readMore first [] (n - 0xE0) (seconds n) 2 r
  else if n < 0xF5 then readMore first [] (n - 0xF0) (seconds n) 3 r
  else ⟨none, first, []⟩

def head (mark n : Nat) : UInt8 :=
  UInt8.ofNat (mark + n)

def tail (n : Nat) : UInt8 :=
  UInt8.ofNat (0x80 + n % 0x40)

def encodeChar (c : Char) : Bytes :=
  let n := c.toNat
  if n < 0x80 then [head 0 n]
  else if n < 0x800 then [head 0xC0 (n / 0x40), tail n]
  else if n < 0x10000 then [head 0xE0 (n / 0x1000), tail (n / 0x40), tail n]
  else [head 0xF0 (n / 0x40000), tail (n / 0x1000), tail (n / 0x40), tail n]

def encode (t : Text) : Bytes :=
  t.flatMap encodeChar

def decodeLossy (b : Bytes) : Text :=
  Piece.lossy (Piece.cut read b)

def decode? (b : Bytes) : Option Text :=
  (Piece.strict (Piece.cut read b)).toOption

end Unstamp.Utf8
