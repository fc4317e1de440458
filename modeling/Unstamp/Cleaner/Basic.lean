import Unstamp.Cleaner.CommentLines
import Unstamp.Cleaner.GeneratedSource

namespace Unstamp

inductive Cleaner where
  | lines (filter : CommentLines)
  | source (remover : GeneratedSource)
  deriving DecidableEq, Repr

namespace Cleaner
variable {σ : Type}

def name : Cleaner → String
  | lines _ => "pom-properties"
  | source _ => "xjc"

def clean : Cleaner → Source → Sink σ → Except CleanFault Outcome × Sink σ
  | lines f => f.clean
  | source g => g.clean

def cleanBytes (c : Cleaner) (b : Bytes) : Except CleanFault (Outcome × Bytes) :=
  match c.clean (Source.whole b) Sink.memory with
  | (.error fault, _) => .error fault
  | (.ok outcome, sink) => .ok (outcome, sink.written)

end Cleaner

namespace Selection

def propertiesName : Text :=
  "pom.properties".toList

def sourceExtension : Text :=
  "java".toList

def forName? (charset : Charset) (policy : WritePolicy) (n : Name) : Option Cleaner :=
  match Utf8.decode? n with
  | none => none
  | some name =>
    if name = propertiesName then some (.lines { policy })
    else
      match (Path.extension? n).bind Utf8.decode? with
      | some e =>
        if Text.lowerAscii e = sourceExtension then some (.source { charset }) else none
      | none => none

def cleanerFor? (charset : Charset) (policy : WritePolicy) (p : Path) : Option Cleaner :=
  p.fileName?.bind (forName? charset policy)

end Selection

end Unstamp
