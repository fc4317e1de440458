import Unstamp.Stream.Sink

/-! A write that does not fit empties the buffer first, and one as long as the whole buffer goes
straight to the sink. -/
namespace Unstamp

structure Buffer (σ : Type) where
  sink : Sink σ
  waiting : Bytes := []

namespace Buffer
variable {σ : Type}

def capacity : Nat := 8192

def room (w : Buffer σ) : Nat :=
  capacity - w.waiting.length

def empty (w : Buffer σ) : Except IoFault Unit × Buffer σ :=
  let r := w.sink.pour .bufferStuck w.waiting
  (r.1, { sink := r.2.2, waiting := r.2.1 })

def append (w : Buffer σ) (data : Bytes) : Buffer σ :=
  { w with waiting := w.waiting ++ data }

/-- Writes bytes for which the buffer has been made ready: straight to the sink if they would
fill a whole buffer. -/
def place (w : Buffer σ) (data : Bytes) : Except IoFault Unit × Buffer σ :=
  if capacity ≤ data.length then
    let r := w.sink.writeAll data
    (r.1, { w with sink := r.2 })
  else (.ok (), w.append data)

def writeAll (w : Buffer σ) (data : Bytes) : Except IoFault Unit × Buffer σ :=
  if data.length < w.room then (.ok (), w.append data)
  else if w.room < data.length then
    match w.empty with
    | (.error fault, w) => (.error fault, w)
    | (.ok (), w) => w.place data
  else w.place data

def flush (w : Buffer σ) : Except IoFault Unit × Buffer σ :=
  match w.empty with
  | (.error fault, w) => (.error fault, w)
  | (.ok (), w) =>
    let r := w.sink.flush
    (r.1, { w with sink := r.2 })

def release (w : Buffer σ) : Sink σ :=
  w.empty.2.sink

end Buffer

end Unstamp
