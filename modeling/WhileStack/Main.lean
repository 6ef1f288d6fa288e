import WhileStack.Cli.Run
import WhileStack.Text.Utf8

/-! The command `whilec`. -/
namespace WhileStack.Cli

/-- Reads a file from the disk. A directory can be opened but not read, and only failures to open name the file. -/
def readDisk (path : String) : IO (Except FileError String) := do
  try
    let bytes ← IO.FS.readBinFile path
    return .ok (String.ofList (Text.decodeUtf8 bytes.toList))
  catch e =>
    return .error <| match e with
      | .permissionDenied .. => .denied
      | .inappropriateType (some _) _ _ => .notDirectory
      | .inappropriateType none _ _ => .isDirectory
      | _ => .missing

/-- More steps than any program that ends will take. -/
def unbounded : Nat := 0x4000000000000000

end WhileStack.Cli

open WhileStack.Cli in
def main (args : List String) : IO UInt32 := do
  let report ← execute readDisk unbounded args
  let stderr ← IO.getStderr
  IO.print report.out
  stderr.putStr (report.diagnostics (← stderr.isTty))
  return report.exitCode.toUInt32
