import Imap.Transcript

/-!
# The transcript program

Lists the transcript in the file named by the first argument, or on standard input without one.
-/

namespace Imap

/-- Prints what was logged, one line for each entry. -/
def printLogged (emissions : List Log.Emission) : IO Unit := do
  let errors ← IO.getStderr
  for emission in emissions do
    errors.write ⟨emission.entry.printedLine.toArray⟩

/-- Reads a stream to its end. -/
partial def readToEnd (stream : IO.FS.Stream) (received : ByteArray) : IO ByteArray := do
  let chunk ← stream.read 65536
  if chunk.isEmpty then pure received else readToEnd stream (received ++ chunk)

/-- The transcript named by the arguments, or the name of a source that cannot be read. -/
def readTranscript (arguments : List String) : IO (Except Bytes Bytes) := do
  match arguments with
  | path :: _ =>
    try
      let content ← IO.FS.readBinFile path
      pure (.ok content.toList)
    catch _ => pure (.error path.toUTF8.toList)
  | [] =>
    try
      let content ← readToEnd (← IO.getStdin) ByteArray.empty
      pure (.ok content.toList)
    catch _ => pure (.error (ascii "standard input"))

end Imap

def main (arguments : List String) : IO UInt32 := do
  let listing :=
    match ← Imap.readTranscript arguments with
    | .ok input => Imap.Transcript.list .initial input
    | .error name => Imap.Transcript.unreadable .initial name
  let output ← IO.getStdout
  output.write ⟨listing.output.toArray⟩
  output.flush
  Imap.printLogged listing.logged
  pure listing.exitCode
