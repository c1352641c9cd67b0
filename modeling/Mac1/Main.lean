import Mac1.Shell.Console

/-!
The command line on a real console and real files.
-/
namespace Mac1.Shell

def Script.perform : Script → IO UInt32
  | .exit code => return UInt32.ofNat code
  | .print line next => do
    IO.println (String.ofList line)
    next.perform
  | .read path next => do
    let content ← try some <$> IO.FS.readBinFile (String.ofList path) catch _ => pure none
    (next content).perform
  | .write path content next => do
    let written ←
      try
        IO.FS.writeBinFile (String.ofList path) content
        pure true
      catch _ => pure false
    (next written).perform

/-- The variables that matter, as far as they are set. -/
def environment : IO Environment := do
  let names := ["MIC1_STRICT", "MIC1_MINIMAL", "NO_COLOR", "CLICOLOR", "CLICOLOR_FORCE"]
  let values ← names.mapM fun name => return (name, ← IO.getEnv name)
  let bindings := values.filterMap fun (name, value) =>
    value.map fun v => (name.toList, v.toList)
  return ⟨bindings⟩

end Mac1.Shell

def main (arguments : List String) : IO UInt32 := do
  let e ← Mac1.Shell.environment
  let paint := e.paint (← (← IO.getStdout).isTty)
  let arguments := arguments.map String.toList
  (Mac1.Shell.invoke Mac1.Shell.Request.ofArguments paint e arguments).perform
