import Unstamp.Cleaner.Basic

namespace Unstamp

structure Report where
  path : Text
  cleaner : String
  outcome : Outcome
  /-- Whether the bytes written differ from the bytes read. -/
  changed : Bool
  deriving DecidableEq, Repr

namespace Report

def quotedChar (c : Char) : Text :=
  if c = '\x22' ∨ c = '\\' then ['\\', c]
  else if c = '\x08' then ['\\', 'b']
  else if c = '\t' then ['\\', 't']
  else if c = '\n' then ['\\', 'n']
  else if c = '\x0c' then ['\\', 'f']
  else if c = '\r' then ['\\', 'r']
  else if c.toNat < 0x20 then ['\\', 'u', '0', '0'] ++
    [c.toNat / 16, c.toNat % 16].map Nat.digitChar
  else [c]

def quoted (t : Text) : Text :=
  ['\x22'] ++ t.flatMap quotedChar ++ ['\x22']

def block (opening closing : Char) (indent : Text) (items : List Text) : Text :=
  let inner := '\n' :: ' ' :: ' ' :: indent
  [opening] ++ (((items.map fun i => inner ++ i).intersperse [',']).flatten) ++
    ('\n' :: indent) ++ [closing]

def object (indent : Text) (fields : List (String × Text)) : Text :=
  block '\x7b' '\x7d' indent <|
    fields.map fun f => quoted f.1.toList ++ [':', ' '] ++ f.2

def outcomeFields : Outcome → List (String × Text)
  | .passedThrough => [("kind", quoted "passed_through".toList)]
  | .stripped => [("kind", quoted "stripped".toList)]
  | .filtered dropped failed =>
    [("kind", quoted "filtered".toList), ("dropped_lines", Nat.toDigits 10 dropped),
      ("failed_writes", Nat.toDigits 10 failed)]

def item (r : Report) : Text :=
  object [' ', ' ']
    [("path", quoted r.path), ("stripper", quoted r.cleaner.toList),
      ("outcome", object [' ', ' ', ' ', ' '] (outcomeFields r.outcome)),
      ("changed", if r.changed then "true".toList else "false".toList)]

def array (rs : List Report) : Text :=
  match rs with
  | [] => ['[', ']', '\n']
  | _ => block '[' ']' [] (rs.map item) ++ ['\n']

def line (check : Bool) (r : Report) : Text :=
  (if check then "not reproducible: ".toList else "stripped: ".toList) ++ r.path ++
    [' ', '('] ++ r.cleaner.toList ++ [')']

def listing (json check : Bool) (rs : List Report) : Text :=
  if json then array rs
  else (rs.filter Report.changed).flatMap fun r => line check r ++ ['\n']

end Report

end Unstamp
