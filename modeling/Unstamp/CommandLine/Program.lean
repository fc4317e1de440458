import Unstamp.CommandLine.Arguments

namespace Unstamp.CommandLine

inductive Answer where
  | usage (fault : Fault)
  | help
  | version
  | ran (config : Config) (result : Run.Result)

def program (arguments : List Text) (cwd : Place) (t : FileTree) : Answer × FileTree :=
  match readArguments arguments with
  | .error (.fault fault) => (.usage fault, t)
  | .error .help => (.help, t)
  | .error .version => (.version, t)
  | .ok config =>
    let (result, t) := Run.run config cwd t
    (.ran config result, t)

def versionText : String :=
  "reprostrip 0.1.0\n"

def helpText : String :=
  "Strip timestamp comments from generated sources for reproducible builds\n\n" ++
  "Usage: reprostrip [OPTIONS] [PATH]...\n\n" ++
  "Options:\n" ++
  String.join (Opt.all.map fun o =>
    "  " ++ (match o.short? with
      | some c => "-" ++ c.toString ++ ", "
      | none => "    ") ++ o.shown ++ "\n")

namespace Answer

/-- The exit code: two for refused arguments, one for a run that failed. -/
def exitCode : Answer → Nat
  | usage _ => 2
  | ran config result => if (result.failure? config.check).isSome then 1 else 0
  | _ => 0

def output : Answer → Text
  | usage _ => []
  | help => helpText.toList
  | version => versionText.toList
  | ran config result => result.listing config

def errors : Answer → List String
  | usage fault => ["error: " ++ fault.message, "", "For more information, try '--help'."]
  | ran config result =>
    result.notices.map Notice.message ++
      ((result.failure? config.check).map fun f => "Error: " ++ f.message).toList
  | _ => []

end Answer

end Unstamp.CommandLine
