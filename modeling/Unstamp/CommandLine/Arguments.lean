import Unstamp.Run.Basic

/-! A value that stands apart from its option is looked at when the next option or the end is
reached, one attached to it at once; so of two faults the unknown option may win. -/
namespace Unstamp.CommandLine

inductive Opt where
  | charset
  | followSymlinks
  | noGitignore
  | exclude
  | outDir
  | check
  | json
  | onWriteError
  | help
  | version
  deriving DecidableEq, Repr

namespace Opt

def all : List Opt :=
  [charset, followSymlinks, noGitignore, exclude, outDir, check, json, onWriteError, help, version]

def long : Opt → String
  | charset => "charset"
  | followSymlinks => "follow-symlinks"
  | noGitignore => "no-gitignore"
  | exclude => "exclude"
  | outDir => "out-dir"
  | check => "check"
  | json => "json"
  | onWriteError => "on-write-error"
  | help => "help"
  | version => "version"

def short? : Opt → Option Char
  | exclude => some 'E'
  | outDir => some 'o'
  | help => some 'h'
  | version => some 'V'
  | _ => none

def value? : Opt → Option String
  | charset => some "CHARSET"
  | exclude => some "GLOB"
  | outDir => some "DIR"
  | onWriteError => some "ON_WRITE_ERROR"
  | _ => none

def shown (o : Opt) : String :=
  "--" ++ o.long ++ match o.value? with
    | some v => " <" ++ v ++ ">"
    | none => ""

def ofLong? (t : Text) : Option Opt :=
  all.find? fun o => o.long.toList = t

def ofShort? (c : Char) : Option Opt :=
  all.find? fun o => o.short? = some c

end Opt

inductive Fault where
  | unexpected (argument : Text)
  | valueMissing (shown : String)
  | badValue (value : Text) (option : Opt) (cause : Option EncodingFault)
  | repeated (option : Opt)
  | surplusValue (value : Text) (option : Opt)
  deriving DecidableEq, Repr

def Fault.message : Fault → String
  | unexpected argument => "unexpected argument '" ++ String.ofList argument ++ "' found"
  | valueMissing shown => "a value is required for '" ++ shown ++ "' but none was supplied"
  | badValue value option cause =>
    "invalid value '" ++ String.ofList value ++ "' for '" ++ option.shown ++ "'" ++
      match cause with
      | some fault => ": " ++ fault.message
      | none => ""
  | repeated option => "the argument '" ++ option.shown ++ "' cannot be used multiple times"
  | surplusValue value option =>
    "unexpected value '" ++ String.ofList value ++ "' for '" ++ option.shown ++
      "' found; no more were expected"

inductive Stop where
  | fault (fault : Fault)
  | help
  | version
  deriving DecidableEq, Repr

/-- What still waits to be looked at: an option and its value if that was read, or paths. -/
inductive Pending where
  | option (option : Opt) (value : Option Text)
  | paths (paths : List Text)
  deriving DecidableEq, Repr

structure Progress where
  config : Config := { roots := [] }
  /-- The options that were given, those that may be repeated left out. -/
  given : List Opt := []
  pending : Option Pending := none

namespace Progress

def once (g : Progress) (o : Opt) : Except Stop Progress :=
  if o ∈ g.given then .error (.fault (.repeated o)) else .ok { g with given := o :: g.given }

def configure (g : Progress) (f : Config → Config) : Progress :=
  { g with config := f g.config }

def flag (g : Progress) (o : Opt) : Except Stop Progress :=
  match o with
  | .help => .error .help
  | .version => .error .version
  | o => (g.once o).map fun g => g.configure fun c =>
    match o with
    | .followSymlinks => { c with followLinks := true }
    | .noGitignore => { c with useIgnoreFiles := false }
    | .check => { c with check := true }
    | .json => { c with json := true }
    | _ => c

def path (shown : String) (value : Text) : Except Stop Path :=
  if value = [] then .error (.fault (.valueMissing shown)) else .ok (Utf8.encode value)

def policy (value : Text) : Except Stop WritePolicy :=
  if value = "abort".toList then .ok .abort
  else if value = "skip".toList then .ok .bestEffort
  else if value = [] then .error (.fault (.valueMissing Opt.onWriteError.shown))
  else .error (.fault (.badValue value .onWriteError none))

def valued (g : Progress) (o : Opt) (value : Text) : Except Stop Progress :=
  match o with
  | .exclude =>
    .ok (g.configure fun c => { c with excludes := c.excludes ++ splitWhere (· == ',') value })
  | o => do
    let g ← g.once o
    match o with
    | .charset =>
      match Charset.ofLabel value with
      | .error fault => .error (.fault (.badValue value .charset (some fault)))
      | .ok charset => return g.configure fun c => { c with charset }
    | .outDir =>
      let dir ← path Opt.outDir.shown value
      return g.configure fun c => { c with outDir := some dir }
    | .onWriteError =>
      let policy ← policy value
      return g.configure fun c => { c with policy }
    | _ => return g

def pathsShown : String := "[PATH]..."

def settle (g : Progress) : Except Stop Progress :=
  match g.pending with
  | none => .ok g
  | some (.option o none) => .error (.fault (.valueMissing o.shown))
  | some (.option o (some value)) => { g with pending := none }.valued o value
  | some (.paths ps) => do
    let roots ← ps.mapM (path pathsShown)
    return { g with pending := none }.configure fun c => { c with roots := c.roots ++ roots }

/-- Takes an argument that is no option: the value that an option waits for, or a path. After two
hyphens it is always a path. -/
def plain (g : Progress) (trailing : Bool) (a : Text) : Except Stop Progress :=
  match trailing, g.pending with
  | false, some (.option o none) => .ok { g with pending := some (.option o (some a)) }
  | _, some (.paths ps) => .ok { g with pending := some (.paths (ps ++ [a])) }
  | _, _ => do
    let g ← g.settle
    return { g with pending := some (.paths [a]) }

def option (g : Progress) (o : Opt) (attached : Option Text) : Except Stop Progress :=
  match o.value?, attached with
  | none, some value => .error (.fault (.surplusValue value o))
  | none, none => do (← g.settle).flag o
  | some _, some value => do (← g.settle).valued o value
  | some _, none => do return { ← g.settle with pending := some (.option o none) }

def long (g : Progress) (a : Text) : Except Stop Progress :=
  let name := a.takeWhile (· ≠ '=')
  let attached := if name.length < a.length then some (a.drop (name.length + 1)) else none
  match Opt.ofLong? name with
  | none => .error (.fault (.unexpected ('-' :: '-' :: name)))
  | some o => g.option o attached

def short (g : Progress) : Text → Except Stop Progress
  | [] => .ok g
  | c :: r =>
    match Opt.ofShort? c with
    | none => .error (.fault (.unexpected ['-', c]))
    | some o =>
      match o.value?, r with
      | none, r => do (← g.option o none).short r
      | some _, [] => g.option o none
      | some _, '=' :: r => g.option o (some r)
      | some _, r => g.option o (some r)

def readAll (g : Progress) (trailing : Bool) : List Text → Except Stop Progress
  | [] => g.settle
  | a :: rest => do
    if trailing then (← g.plain true a).readAll true rest
    else
      match a with
      | ['-', '-'] => g.readAll true rest
      | '-' :: '-' :: a => (← g.long a).readAll false rest
      | '-' :: c :: a => (← g.short (c :: a)).readAll false rest
      | a => (← g.plain false a).readAll false rest

end Progress

def readArguments (arguments : List Text) : Except Stop Config := do
  let g ← ({} : Progress).readAll false arguments
  return if g.config.roots = [] then { g.config with roots := [[Path.dot]] } else g.config

end Unstamp.CommandLine
