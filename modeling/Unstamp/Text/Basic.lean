namespace Unstamp

abbrev Text := List Char

abbrev Bytes := List UInt8

/-- Whether `p` stands somewhere in the list as one contiguous piece. The empty piece stands
everywhere. -/
def occursIn {α : Type} [BEq α] (p : List α) : List α → Bool
  | [] => p.isEmpty
  | a :: t => p.isPrefixOf (a :: t) || occursIn p t

theorem occursIn_iff {α : Type} [BEq α] [LawfulBEq α] {p t : List α} :
    occursIn p t = true ↔ p <:+: t := by
  induction t with
  | nil => simp [occursIn, List.isEmpty_iff]
  | cons a t ih =>
    rw [occursIn, Bool.or_eq_true, ih, List.isPrefixOf_iff_prefix, List.infix_cons_iff]

def splitWhere {α : Type} (p : α → Bool) : List α → List (List α)
  | [] => [[]]
  | a :: t =>
    match splitWhere p t with
    | [] => [[]]
    | s :: ss => if p a then [] :: s :: ss else (a :: s) :: ss

def joinWith {α : Type} (sep : α) : List (List α) → List α
  | [] => []
  | [s] => s
  | s :: ss => s ++ sep :: joinWith sep ss

end Unstamp

namespace Unstamp.Text

def blankRanges : List (Nat × Nat) :=
  [(0x09, 0x0D), (0x20, 0x20), (0x85, 0x85), (0xA0, 0xA0), (0x1680, 0x1680), (0x2000, 0x200A),
    (0x2028, 0x2029), (0x202F, 0x202F), (0x205F, 0x205F), (0x3000, 0x3000)]

def isBlank (c : Char) : Bool :=
  blankRanges.any fun r => r.1 ≤ c.toNat && c.toNat ≤ r.2

def trimEnd (t : Text) : Text :=
  (t.reverse.dropWhile isBlank).reverse

def trim (t : Text) : Text :=
  trimEnd (t.dropWhile isBlank)

def lowerAscii (t : Text) : Text :=
  t.map fun c => if 'A' ≤ c ∧ c ≤ 'Z' then Char.ofNat (c.toNat + 32) else c

end Unstamp.Text

namespace Unstamp.Line

/-- The lines of a text, without their terminators. -/
def split : Text → List Text
  | [] => []
  | '\r' :: '\n' :: r => [] :: split r
  | '\n' :: r => [] :: split r
  | '\r' :: r => [] :: split r
  | c :: r =>
    match split r with
    | [] => [[c]]
    | l :: ls => (c :: l) :: ls

def isMarked (marker : Char) (line : Text) : Bool :=
  line.head? == some marker

end Unstamp.Line
