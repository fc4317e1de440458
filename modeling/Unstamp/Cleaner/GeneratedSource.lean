import Unstamp.Cleaner.Outcome
import Unstamp.Comment
import Unstamp.Stream.Sink
import Unstamp.Stream.Source

/-! A file that carries the signature of its generator loses its comments; any other file is copied
byte for byte, valid in the charset or not. -/
namespace Unstamp

structure Signature where
  text : Text
  deriving DecidableEq, Repr

namespace Signature

def xjc : Signature :=
  ⟨"JavaTM Architecture for XML Binding".toList⟩

def marks (s : Signature) (t : Text) : Bool :=
  occursIn s.text t

end Signature

end Unstamp

namespace Unstamp

structure GeneratedSource where
  charset : Charset := .utf8
  signature : Signature := .xjc
  deriving DecidableEq, Repr

namespace GeneratedSource
variable {σ : Type}

def produce (g : GeneratedSource) (bytes : Bytes) : Except EncodingFault (Outcome × Bytes) :=
  if g.signature.marks (g.charset.decodeLossy bytes) then do
    let text ← g.charset.decode bytes
    let out ← g.charset.encode (Comment.remove text)
    return (.stripped, out)
  else .ok (.passedThrough, bytes)

/-- Cleans a source. The whole input is read and its result is known before anything is
written. -/
def clean (g : GeneratedSource) (source : Source) (sink : Sink σ) :
    Except CleanFault Outcome × Sink σ :=
  match source.readAll with
  | .error fault => (.error (.stream fault), sink)
  | .ok bytes =>
    match g.produce bytes with
    | .error fault => (.error (.encoding fault), sink)
    | .ok (outcome, out) =>
      match sink.writeAll out with
      | (.error fault, sink) => (.error (.stream fault), sink)
      | (.ok (), sink) =>
        match sink.flush with
        | (.error fault, sink) => (.error (.stream fault), sink)
        | (.ok (), sink) => (.ok outcome, sink)

end GeneratedSource

end Unstamp
