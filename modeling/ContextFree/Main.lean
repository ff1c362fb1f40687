import ContextFree.CommandLine.Program

/-!
# The executable

Reads the named file and takes random words from the system.  All decisions are made by
`Program.run`.
-/

namespace ContextFree

/-- What reading a file from the disk comes to. -/
def readFromDisk (file : FileName) : IO (Except ReadFault (List UInt8)) := do
  try
    return .ok (← IO.FS.readBinFile (toString file)).toList
  catch
    | .noFileOrDirectory .. => return .error .noSuchFile
    | .inappropriateType .. => return .error .throughFile
    | e => return .error ⟨.invalidData, toString e⟩

/-- A number of random words. -/
def randomWords (n : Nat) : IO (List UInt32) :=
  (List.range n).mapM fun _ => return (← IO.rand 0 (Words.wordCount - 1)).toUInt32

/-- Runs the program on random words.  If they did not last, it is run again on these words and
as many more, which gives the same choices and goes on where the words had ended. -/
partial def runOnRandomWords (read : FileName → Except ReadFault (List UInt8)) (request : Request)
    (dealt : List UInt32) : IO Output := do
  let (output, rest) := Program.run read ⟨dealt, 0⟩ request
  if rest.taken ≤ dealt.length then return output
  runOnRandomWords read request (dealt ++ (← randomWords (dealt.length + 64)))

end ContextFree

open ContextFree in
/-- Runs the program and leaves with its exit code. -/
def main (arguments : List String) : IO UInt32 := do
  let request := Request.ofArguments (arguments.map String.toList)
  let content ← match request with
    | .show ⟨some file, _, _, _⟩ => readFromDisk file
    | _ => pure (.error .noSuchFile)
  let output ← runOnRandomWords (fun _ => content) request []
  (← IO.getStdout).putStr (String.ofList output.stdout)
  (← IO.getStderr).putStr (String.ofList output.stderr)
  return output.exitCode
