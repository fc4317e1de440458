import Unstamp.CommandLine.Program

/-! The program on a real file system: what a run could look at is read into a tree, the program
runs on that tree, and what it changed is written back. -/
namespace Unstamp.Main

def textOf (b : Bytes) : String :=
  String.ofList (Utf8.decodeLossy b)

def bytesOf (s : String) : Bytes :=
  s.toUTF8.toList

def placeOf (s : String) : Place :=
  (Path.segments (bytesOf s)).filter (· ≠ [])

def nowhere : Path :=
  [Path.slash, 0]

def isLookedAt (n : Name) : Bool :=
  (Selection.forName? .utf8 .abort n).isSome ||
    [bytesOf ".ignore", bytesOf ".gitignore", bytesOf "exclude"].contains n

abbrev Reading := StateT FileTree IO

def note (p : Place) (e : Entry) : Reading Unit :=
  modify fun t => if (t.get? p).isSome then t else { t with entries := (p, e) :: t.entries }

def noteFile (p : Place) (withBytes : Bool) : Reading Unit := do
  if withBytes then
    let data ← (IO.FS.readBinFile (textOf p.path)).toBaseIO
    note p (.file (data.toOption.map ByteArray.toList |>.getD []))
    -- Opening to append tells whether the file can be written, and writes nothing.
    if (← (IO.FS.Handle.mk (textOf p.path) .append).toBaseIO) matches .error _ then
      modify fun t => { t with locked := p :: t.locked }
  else note p (.file [])

def targetOf (p : Place) : IO (Option Place) := do
  match ← (IO.FS.realPath (textOf p.path)).toBaseIO with
  | .ok target => return some (placeOf target.toString)
  | .error _ => return none

def kindOf (dir : Place) (n : Name) : IO (Option IO.FS.FileType) := do
  match ← (IO.FS.realPath (textOf dir.path)).toBaseIO with
  | .error _ => return none
  | .ok d =>
    match ← (d / textOf n).symlinkMetadata.toBaseIO with
    | .ok m => return some m.type
    | .error _ => return none

/-- Notes all entries on the way that names lead from a place, and the ignore files of the
directories passed. Says where the way ends. -/
partial def trace (here : Place) : List Name → Reading Place
  | [] => return here
  | n :: rest => do
    if n = [] ∨ n = [Path.dot] then trace here rest
    else if n = [Path.dot, Path.dot] then trace here.dropLast rest
    else
      let p := here ++ [n]
      match ← kindOf here n with
      | some .dir =>
        note p .dir
        for file in [Ignore.ignoreFile, Ignore.gitignoreFile] do
          if (← kindOf p (file.head?.getD [])) matches some .file then noteFile (p ++ file) true
        trace p rest
      | some .symlink =>
        match ← targetOf p with
        | some target =>
          note p (.link target.path)
          let _ ← trace [] target
          trace target rest
        | none =>
          note p (.link nowhere)
          return p
      | some _ =>
        noteFile p true
        trace p rest
      | none => return p

/-- Notes all entries below a directory, and below the targets of links if these are followed. -/
partial def readBelow (followLinks : Bool) (dir : Place) : Reading Unit := do
  match ← (IO.FS.realPath (textOf dir.path)).toBaseIO with
  | .error _ => return
  | .ok d =>
    for e in (← d.readDir.toBaseIO).toOption.getD #[] do
      let n := bytesOf e.fileName
      let p := dir ++ [n]
      match ← kindOf dir n with
      | some .dir =>
        note p .dir
        readBelow followLinks p
      | some .symlink =>
        match ← targetOf p with
        | some target =>
          let known := (← get).get? target
          note p (.link target.path)
          if followLinks then
            let target ← trace [] target
            if known.isNone then readBelow followLinks target
        | none => note p (.link nowhere)
      | some _ => noteFile p (isLookedAt n)
      | none => return

/-- Reads what a run could look at: the ways to its roots and to its output, and what lies below
them. -/
def readFor (config : Config) (cwd : Place) : Reading Unit := do
  let _ ← trace [] cwd
  for p in config.roots ++ config.outDir.toList do
    let place ← trace (FileTree.origin cwd p) p.steps
    readBelow config.followLinks place
    for k in List.range (place.length + 1) do
      let _ ← trace [] (place.take k ++ Ignore.excludeFile)

def writeBack (before after : FileTree) : IO Unit := do
  let changed := after.entries.filter fun x => before.get? x.1 != some x.2
  for (p, e) in changed.mergeSort fun x y => x.1.length ≤ y.1.length do
    match e with
    | .file data => IO.FS.writeBinFile (textOf p.path) ⟨data.toArray⟩
    | .dir => IO.FS.createDirAll (textOf p.path)
    | .link _ => pure ()

end Unstamp.Main

open Unstamp in
def main (arguments : List String) : IO UInt32 := do
  let arguments := arguments.map String.toList
  let cwd := Main.placeOf (← IO.FS.realPath (← IO.currentDir)).toString
  let before ← match CommandLine.readArguments arguments with
    | .ok config => pure ((← (Main.readFor config cwd).run {}).2)
    | .error _ => pure {}
  let (answer, after) := CommandLine.program arguments cwd before
  Main.writeBack before after
  IO.print (String.ofList answer.output)
  for message in answer.errors do
    IO.eprintln message
  return UInt32.ofNat answer.exitCode
