import Unstamp.Stream.Fault

/-! Sinks for bytes. All that is said of a sink is said of what it took and of when it was flushed.
-/
namespace Unstamp

/-- What a device does with an offered write. After an interruption the same bytes are offered
again. -/
inductive Reply (σ : Type) where
  | took (count : Nat) (state : σ)
  | failed (fault : IoFault) (state : σ)
  | interrupted (again : Reply σ)

def Reply.settled {σ : Type} : Reply σ → Except IoFault Nat × σ
  | took n state => (.ok n, state)
  | failed fault state => (.error fault, state)
  | interrupted again => again.settled

structure Device (σ : Type) where
  write : σ → Bytes → Reply σ
  flush : σ → Except IoFault Unit × σ

inductive Deed where
  | took (data : Bytes)
  | flushed
  deriving DecidableEq, Repr

def Deed.bytes : Deed → Bytes
  | took data => data
  | flushed => []

structure Sink (σ : Type) where
  device : Device σ
  state : σ
  deeds : List Deed := []

namespace Sink
variable {σ : Type}

def written (s : Sink σ) : Bytes :=
  s.deeds.reverse.flatMap Deed.bytes

def flushes (s : Sink σ) : Nat :=
  s.deeds.countP (· = .flushed)

def write (s : Sink σ) (data : Bytes) : Except IoFault Nat × Sink σ :=
  match (s.device.write s.state data).settled with
  | (.error fault, state) => (.error fault, { s with state })
  | (.ok n, state) =>
    let n := min n data.length
    (.ok n, { s with state, deeds := .took (data.take n) :: s.deeds })

def flush (s : Sink σ) : Except IoFault Unit × Sink σ :=
  let r := s.device.flush s.state
  (r.1, { s with state := r.2, deeds := .flushed :: s.deeds })

theorem written_took (s : Sink σ) (state : σ) (data : Bytes) :
    written { s with state, deeds := .took data :: s.deeds } = s.written ++ data := by
  simp [written, Deed.bytes]

theorem written_flush (s : Sink σ) : s.flush.2.written = s.written := by
  simp [flush, written, Deed.bytes]

theorem flushes_flush (s : Sink σ) : s.flush.2.flushes = s.flushes + 1 := by
  simp [flush, flushes]

/-- Offers what is left until all is taken, and gives back what was not taken. A write that takes
nothing is the failure `stuck`. -/
def pour (stuck : IoFault) (s : Sink σ) : Bytes → Except IoFault Unit × Bytes × Sink σ
  | [] => (.ok (), [], s)
  | b :: r =>
    match s.write (b :: r) with
    | (.error fault, s) => (.error fault, b :: r, s)
    | (.ok 0, s) => (.error stuck, b :: r, s)
    | (.ok (n + 1), s) => s.pour stuck (r.drop n)
termination_by data => data.length
decreasing_by
  rw [List.length_drop, List.length_cons]
  omega

def writeAll (s : Sink σ) (data : Bytes) : Except IoFault Unit × Sink σ :=
  let r := s.pour .tookNothing data
  (r.1, r.2.2)

def memoryDevice : Device Unit where
  write _ data := .took data.length ()
  flush _ := (.ok (), ())

def memory : Sink Unit where
  device := memoryDevice
  state := ()

end Sink

inductive Shortage where
  /-- It fails and takes nothing. -/
  | refuse
  /-- It takes what fits, and fails when nothing fits. -/
  | part
  /-- It takes what fits, be it nothing. -/
  | zero
  deriving DecidableEq, Repr

structure Limits where
  budget : Option Nat := none
  chunk : Option Nat := none
  shortage : Shortage := .refuse
  flushFails : Bool := false
  deriving Repr

namespace Limits

def take (l : Limits) (used offered : Nat) : Except IoFault Nat :=
  let offered := match l.chunk with
    | some c => min offered c
    | none => offered
  match l.budget with
  | none => .ok offered
  | some budget =>
    let room := budget - used
    match l.shortage with
    | .refuse => if room < offered then .error (.device "sink full") else .ok offered
    | .part =>
      if room = 0 ∧ 0 < offered then .error (.device "sink full") else .ok (min offered room)
    | .zero => .ok (min offered room)

def device (l : Limits) : Device Nat where
  write used data :=
    match l.take used data.length with
    | .ok n => .took n (used + n)
    | .error fault => .failed fault used
  flush used :=
    if l.flushFails then (.error (.device "flush failed"), used) else (.ok (), used)

def sink (l : Limits) : Sink Nat where
  device := l.device
  state := 0

end Limits

end Unstamp
