import Unstamp.Text.Basic

namespace Unstamp

inductive OsFault where
  | missing
  | alreadyThere
  | notDirectory
  | isDirectory
  | tooManyLinks
  | nameTooLong
  | nulInPath
  | denied
  deriving DecidableEq, Repr

def OsFault.message : OsFault → String
  | missing => "No such file or directory (os error 2)"
  | alreadyThere => "File exists (os error 17)"
  | notDirectory => "Not a directory (os error 20)"
  | isDirectory => "Is a directory (os error 21)"
  | tooManyLinks => "Too many levels of symbolic links (os error 40)"
  | nameTooLong => "File name too long (os error 36)"
  | nulInPath => "file name contained an unexpected NUL byte"
  | denied => "Permission denied (os error 13)"

inductive IoFault where
  | os (fault : OsFault)
  /-- A sink took nothing of what it was to take whole. -/
  | tookNothing
  /-- A sink took nothing while a buffer was to be emptied into it. -/
  | bufferStuck
  /-- A device failed in its own words. -/
  | device (message : String)
  deriving DecidableEq, Repr

def IoFault.message : IoFault → String
  | os fault => fault.message
  | tookNothing => "failed to write whole buffer"
  | bufferStuck => "failed to write the buffered data"
  | device message => message

end Unstamp
