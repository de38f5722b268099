import LogicBoard.Console

namespace LogicBoard

/-- The number of a system error. Some calls report it negated. -/
def ReadFailure.systemNumber (code : UInt32) : Nat :=
  if code.toNat < 2147483648 then code.toNat else 4294967296 - code.toNat

/-- The failure that the system reports for a file. -/
def ReadFailure.ofSystem (failure : IO.Error) : ReadFailure :=
  match failure with
  | .noFileOrDirectory .. => .notFound
  | .inappropriateType _ code _ =>
    match systemNumber code with
    | 20 => .notDirectory
    | 21 => .isDirectory
    | _ => .system (toString failure)
  | .invalidArgument _ code _ =>
    if systemNumber code = 36 then .nameTooLong else .system (toString failure)
  | _ => .system (toString failure)

def Console.readText (path : String) : IO (Except ReadFailure String) := do
  if path.toList.contains '\x00' then return .error .nulInPath
  try
    match String.fromUTF8? (← IO.FS.readBinFile path) with
    | some text => return .ok text
    | none => return .error .notUtf8
  catch failure => return .error (.ofSystem failure)

/-- Load the file that the arguments name, run it, and show what the run leaves behind. -/
def Console.main (args : List String) : IO UInt32 := do
  let path := Console.path args
  let outcome := Console.run path (← Console.readText path)
  IO.print outcome.output
  match outcome.error with
  | some message => IO.eprintln message
  | none => pure ()
  return outcome.exit.toUInt32

end LogicBoard

def main (args : List String) : IO UInt32 := LogicBoard.Console.main args
