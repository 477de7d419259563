import Quasiaffine.CommandLine

set_option autoImplicit false

namespace Quasiaffine.CommandLine

def unreadableReason : IO.Error → String
  | .noFileOrDirectory _ _ _ => "No such file or directory (os error 2)"
  | .permissionDenied _ _ _ => "Permission denied (os error 13)"
  | .inappropriateType _ _ _ => "Is a directory (os error 21)"
  | .userError _ => "stream did not contain valid UTF-8"
  | e => toString e

def Origin.fetch : Origin → IO (Except String String)
  | expression text => return .ok text
  | file path => do
    try return .ok (← IO.FS.readFile path)
    catch e => return .error (unreadableReason e)

end Quasiaffine.CommandLine

open Quasiaffine CommandLine in
def main (arguments : List String) : IO UInt32 := do
  match Options.ofArguments arguments with
  | .error fault =>
    IO.eprintln s!"error: {fault.text}"
    return 2
  | .ok options =>
    let source ← (options.origin?.getD (.expression "")).fetch
    let report := run options source
    IO.print report.output
    IO.eprint report.diagnostics
    return report.exitCode
