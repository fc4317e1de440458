import Unstamp.Charset.Utf8
import Unstamp.Charset.Utf16
import Unstamp.Charset.Piece
import Unstamp.Text.Basic
import Unstamp.Text.Shown

namespace Unstamp.SingleByte

def read (limit : Nat) : Piece.Rule := fun a _ =>
  ⟨if a.toNat < limit then some (Char.ofNat a.toNat) else none, a, []⟩

def encodeChar? (limit : Nat) (c : Char) : Option Bytes :=
  if c.toNat < limit then some [UInt8.ofNat c.toNat] else none

end Unstamp.SingleByte

namespace Unstamp

inductive Charset where
  | utf8
  | usAscii
  | latin1
  | utf16 (order : ByteOrder)
  deriving DecidableEq, Repr

inductive EncodingFault where
  /-- The bytes are not valid; so many of them come before the fault. -/
  | malformed (charset : Charset) (offset : Nat)
  /-- The charset lacks the character. -/
  | unmappable (charset : Charset) (char : Char)
  /-- No charset has the label. -/
  | unknownCharset (label : Text)
  deriving DecidableEq, Repr

namespace Charset

def label : Charset → String
  | utf8 => "UTF-8"
  | usAscii => "US-ASCII"
  | latin1 => "ISO-8859-1"
  | utf16 .little => "UTF-16LE"
  | utf16 .big => "UTF-16BE"

def spellings : List (String × Charset) :=
  [("utf-8", utf8), ("utf8", utf8), ("us-ascii", usAscii), ("ascii", usAscii),
    ("iso-8859-1", latin1), ("iso8859-1", latin1), ("latin1", latin1), ("latin-1", latin1),
    ("utf-16le", utf16 .little), ("utf16le", utf16 .little),
    ("utf-16be", utf16 .big), ("utf16be", utf16 .big)]

def normalLabel (label : Text) : Text :=
  (Text.lowerAscii (Text.trim label)).map fun c => if c = '_' then '-' else c

def ofLabel (label : Text) : Except EncodingFault Charset :=
  match spellings.lookup (String.ofList (normalLabel label)) with
  | some c => .ok c
  | none => .error (.unknownCharset label)

def rule : Charset → Piece.Rule
  | utf8 => Utf8.read
  | usAscii => SingleByte.read 0x80
  | latin1 => SingleByte.read 0x100
  | utf16 order => Utf16.read order

/-- The rule by which lossy decoding reads. It takes all of UTF-8 where only ASCII is allowed. -/
def lossyRule : Charset → Piece.Rule
  | usAscii => Utf8.read
  | c => c.rule

def wholeUnits : Charset → Bytes → Bytes
  | utf16 _, b => b.take (b.length / 2 * 2)
  | _, b => b

def fits : Charset → Nat → Bool
  | utf16 _, n => n % 2 == 0
  | _, _ => true

/-- The text of valid bytes. A length that the charset does not have comes before any other
fault, and is reported at the last byte. -/
def decode (c : Charset) (b : Bytes) : Except EncodingFault Text :=
  if c.fits b.length then
    (Piece.strict (Piece.cut c.rule b)).mapError (.malformed c)
  else .error (.malformed c (b.length - 1))

def decodeLossy (c : Charset) (b : Bytes) : Text :=
  Piece.lossy (Piece.cut c.lossyRule (c.wholeUnits b))

def encodeChar? : Charset → Char → Option Bytes
  | utf8, c => some (Utf8.encodeChar c)
  | usAscii, c => SingleByte.encodeChar? 0x80 c
  | latin1, c => SingleByte.encodeChar? 0x100 c
  | utf16 order, c => some (Utf16.encodeChar order c)

def encode (c : Charset) : Text → Except EncodingFault Bytes
  | [] => .ok []
  | a :: t =>
    match c.encodeChar? a with
    | none => .error (.unmappable c a)
    | some b => (encode c t).map (b ++ ·)

end Charset

def EncodingFault.message : EncodingFault → String
  | malformed charset offset =>
    "input is not valid " ++ charset.label ++ " at byte offset " ++ toString offset
  | unmappable charset char =>
    "character '" ++ String.ofList (Text.escaped char) ++ "' cannot be represented in " ++
      charset.label
  | unknownCharset label => "unsupported charset: " ++ String.ofList label

end Unstamp
