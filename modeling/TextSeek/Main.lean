import TextSeek.Command.Run

/-!
# The command line

Looks up the paths that the arguments name, runs the command and prints its
outcome.
-/
namespace TextSeek.Command

/-- The failure with a number of the operating system. Some system calls give
the number with its sign turned. -/
def systemError (number : UInt32) (details : String) : IoError :=
  match min number (0 - number) with
  | 2 => .noSuchFile
  | 20 => .notDirectory
  | 21 => .isDirectory
  | 36 => .nameTooLong
  | n => ⟨.other, s!"{details} (os error {n})"⟩

def failureOf : IO.Error → IoError
  | .noFileOrDirectory _ number details => systemError number details
  | .inappropriateType _ number details => systemError number details
  | .invalidArgument _ number details => systemError number details
  | .permissionDenied _ number details => systemError number details
  | .resourceExhausted _ number details => systemError number details
  | error => ⟨.other, toString error⟩

def lookUp (path : String) : IO (Except IoError Node) := do
  try
    return .ok (.file (← IO.FS.readBinFile path).toList)
  catch error =>
    let failure := failureOf error
    return if failure = .isDirectory then .ok .directory else .error failure

end TextSeek.Command

open TextSeek.Command in
def main (arguments : List String) : IO UInt32 := do
  let found ← (namedFiles arguments).mapM fun path => return (path, ← lookUp path)
  let outcome := run (fun path => (found.lookup path).getD (.error .noSuchFile)) arguments
  (← IO.getStdout).putStr outcome.output
  match outcome.complaint with
  | some text => (← IO.getStderr).putStrLn text
  | none => pure ()
  return outcome.code.toUInt32
