import DocumentPath.Command.Arguments

namespace DocumentPath.Command

/-- What the program leaves behind. -/
structure Response where
  code : UInt8
  out : String
  err : String
  deriving DecidableEq, Repr

def usageText : String :=
  "Usage: query PATH [-i JSON] [-c JSON] [-p] [--parents] [--lazy [--limit N]]\n" ++
  "       mutate PATH --value JSON [-i JSON] [-c JSON] [-p]\n" ++
  "       template JSON [-i JSON] [-c JSON] [-p]\n" ++
  "       check PATH\n"

def versionText : String := "0.1.0\n"

/-- Questions about the program end well, wrong arguments do not. -/
def Stop.response : Stop → Response
  | .help => ⟨0, usageText, ""⟩
  | .version => ⟨0, versionText, ""⟩
  | .usage => ⟨2, "", usageText⟩

def Response.ofAnswer : Except Failure String → Response
  | .ok text => ⟨0, text ++ "\n", ""⟩
  | .error failure => ⟨1, "", failure.message ++ "\n"⟩

/-- Whether the document comes from the standard input. -/
def Invocation.readsInput (call : Invocation) : Bool :=
  match call.task with
  | .check _ => false
  | _ => call.source.input.isNone

/-- Carries out a task. Bytes from the standard input stand in for a document that is not given. -/
def Invocation.respond (call : Invocation) (bytes : ByteArray) : Response :=
  if call.readsInput then
    match String.fromUTF8? bytes with
    | none => .ofAnswer (.error (.input "stream did not contain valid UTF-8"))
    | some text =>
      .ofAnswer (call.task.answer { call.source with input := some text } call.indented)
  else .ofAnswer (call.task.answer call.source call.indented)

/-- The whole program, as a function of its arguments and its standard input. -/
def respond (args : List String) (bytes : ByteArray) : Response :=
  match readInvocation false args with
  | .ok call => call.respond bytes
  | .error stop => stop.response

end DocumentPath.Command
