import Unstamp.Stream.Fault

/-! Sources of bytes. An empty piece is an end, and a read that is interrupted is made again. -/
namespace Unstamp

inductive Source where
  | ended
  | broken (fault : IoFault)
  | interrupted (rest : Source)
  | piece (data : Bytes) (rest : Source)

namespace Source

def readAll : Source → Except IoFault Bytes
  | ended => .ok []
  | broken fault => .error fault
  | interrupted rest => rest.readAll
  | piece [] _ => .ok []
  | piece (b :: data) rest => rest.readAll.map (b :: data ++ ·)

def whole (b : Bytes) : Source :=
  piece b ended

theorem readAll_whole (b : Bytes) : (whole b).readAll = .ok b := by
  cases b with
  | nil => rfl
  | cons a r => exact congrArg (fun l => Except.ok (a :: l)) (List.append_nil r)

def inPieces (n : Nat) (rest : Source) : Bytes → Source
  | [] => rest
  | b :: r => piece (b :: r.take n) (inPieces n rest (r.drop n))
termination_by b => b.length
decreasing_by
  rw [List.length_drop, List.length_cons]
  omega

/-- A source that hands out at most `chunk` bytes at a time and breaks when it is read again
after `failAfter` bytes. The end is seen only by a read that finds nothing, so a source that may
hand out just as many bytes as it has breaks too. Reads of no bytes look like the end. -/
def metered (b : Bytes) (chunk failAfter : Option Nat) : Source :=
  let (last, handed) := match failAfter with
    | some n => if n ≤ b.length then (broken (.device "source broken"), b.take n) else (ended, b)
    | none => (ended, b)
  match chunk with
  | none => inPieces b.length last handed
  | some (n + 1) => inPieces n last handed
  | some 0 => if handed = [] then last else ended

end Source

end Unstamp
