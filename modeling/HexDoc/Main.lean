/-
HexDoc/Main.lean

The command on the real standard streams and files.
-/
import HexDoc.Command.Run

namespace HexDoc.Command

/-- What an action gives, or nothing if it fails. -/
def attempt {α : Type} (act : IO α) : IO (Option α) := do
  try return some (← act) catch _ => return none

/-- Reads the input. -/
def readInput (o : Options) : IO (Except Trouble (Option ByteArray)) :=
  match o.inputPath? with
  | none => do return .ok (← attempt (← IO.getStdin).readBinToEnd)
  | some path =>
    match checkPath path with
    | .error t => return .error t
    | .ok path => do return .ok (← attempt (IO.FS.readBinFile path))

/-- Writes the conversion, and tells what trouble there was. -/
def writeOutput (o : Options) (document : String) : IO (Except Trouble Unit) :=
  let told (done? : Option Unit) : Except Trouble Unit := done?.elim (.error .inputOutput) .ok
  match o.output with
  | .standard => do return told (← attempt (IO.print document))
  | .blank => return .error .blankOutput
  | .file path =>
    match checkPath path with
    | .error t => return .error t
    | .ok path => do return told (← attempt (IO.FS.writeFile path document))

/-- Reports trouble and gives its exit code. -/
def report (t : Trouble) : IO UInt32 := do
  IO.eprintln t.render
  return t.exitCode.toUInt32

/-- Reads, converts and writes. -/
def convertOnDisk (o : Options) : IO UInt32 := do
  match (← readInput o) >>= convertInput o with
  | .error t => report t
  | .ok c =>
    if o.verbose then
      for r in c.log do IO.eprintln r.render
    match c.result with
    | .error f => report (.failure f)
    | .ok document =>
      match (← writeOutput o document) with
      | .error t => report t
      | .ok () => return 0

end HexDoc.Command

/-- Runs the command. -/
def main (args : List String) : IO UInt32 := do
  match HexDoc.Command.request? args with
  | none =>
    IO.eprintln HexDoc.Command.usageLine
    return HexDoc.Command.Trouble.usage.exitCode.toUInt32
  | some .help =>
    IO.println HexDoc.Command.usageLine
    return 0
  | some (.convert o) => HexDoc.Command.convertOnDisk o
