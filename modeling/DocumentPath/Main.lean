import DocumentPath.Command.Response

open DocumentPath.Command

/-- Runs the program; the standard input is read only where it is needed. -/
def main (args : List String) : IO UInt32 := do
  let response ← match readInvocation false args with
    | .ok call =>
      if call.readsInput then
        pure (call.respond (← (← IO.getStdin).readBinToEnd))
      else
        pure (call.respond ByteArray.empty)
    | .error stop => pure stop.response
  (← IO.getStdout).putStr response.out
  (← IO.getStderr).putStr response.err
  return response.code.toUInt32
