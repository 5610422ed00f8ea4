import Formulae.Command

namespace Formulae.Command

/-- Why the operating system refuses to read a file. -/
def readFailure : IO.Error → ReadFailure
  | .noFileOrDirectory _ _ _ => .missing
  | .noSuchThing _ _ _ => .missing
  | .permissionDenied _ _ _ => .denied
  | .inappropriateType _ code _ => if code = 20 then .notDirectory else .directory
  | e => .other (toString e)

def readText (path : String) : IO (Except ReadFailure String) := do
  match ← (IO.FS.readBinFile path).toBaseIO with
  | .ok bytes =>
    match String.fromUTF8? bytes with
    | some text => return .ok text
    | none => return .error .notText
  | .error e => return .error (readFailure e)

def perform (args : List String) : IO Outcome := do
  let texts ← (pathsOf args).mapM fun path => do return (path, ← readText path)
  return outcomeOf (fun path => (texts.lookup path).getD (.error .missing)) args

end Formulae.Command

def main (args : List String) : IO UInt32 := do
  let outcome ← Formulae.Command.perform args
  IO.print outcome.out
  IO.eprint outcome.err
  return outcome.exit
