import Unstamp.Charset.Piece

namespace Unstamp

inductive ByteOrder where
  | little
  | big
  deriving DecidableEq, Repr

namespace Utf16

def unit : ByteOrder → UInt8 → UInt8 → Nat
  | .little, a, b => a.toNat + 0x100 * b.toNat
  | .big, a, b => 0x100 * a.toNat + b.toNat

def unitBytes (order : ByteOrder) (u : Nat) : Bytes :=
  match order with
  | .little => [UInt8.ofNat (u % 0x100), UInt8.ofNat (u / 0x100)]
  | .big => [UInt8.ofNat (u / 0x100), UInt8.ofNat (u % 0x100)]

def isHigh (u : Nat) : Bool := 0xD800 ≤ u && u < 0xDC00

def isLow (u : Nat) : Bool := 0xDC00 ≤ u && u < 0xE000

def pair (u v : Nat) : Char :=
  Char.ofNat (0x10000 + (u - 0xD800) * 0x400 + (v - 0xDC00))

def read (order : ByteOrder) : Piece.Rule := fun a r =>
  match r with
  | [] => ⟨none, a, []⟩
  | b :: r =>
    let u := unit order a b
    if isHigh u then
      match r with
      | c :: d :: _ =>
        let v := unit order c d
        if isLow v then ⟨some (pair u v), a, [b, c, d]⟩ else ⟨none, a, [b]⟩
      | _ => ⟨none, a, [b]⟩
    else if isLow u then ⟨none, a, [b]⟩
    else ⟨some (Char.ofNat u), a, [b]⟩

def encodeChar (order : ByteOrder) (c : Char) : Bytes :=
  let n := c.toNat
  if n < 0x10000 then unitBytes order n
  else unitBytes order (0xD800 + (n - 0x10000) / 0x400) ++
    unitBytes order (0xDC00 + (n - 0x10000) % 0x400)

end Utf16

end Unstamp
