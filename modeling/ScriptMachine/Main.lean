import ScriptMachine.CommandLine.Answer
import Std.Time.DateTime.Timestamp

/-! # The command-line tool -/

namespace ScriptMachine

/-- The fault that an error of the operating system stands for. Its number may
come with either sign. -/
def readFaultOf : IO.Error → ReadFault
  | .noFileOrDirectory .. => .notFound
  | .otherError code details | .resourceBusy code details | .resourceVanished code details
  | .unsupportedOperation code details | .hardwareFault code details
  | .unsatisfiedConstraints code details | .illegalOperation code details
  | .protocolError code details | .timeExpired code details | .interrupted _ code details
  | .alreadyExists _ code details | .invalidArgument _ code details
  | .permissionDenied _ code details | .resourceExhausted _ code details
  | .inappropriateType _ code details | .noSuchThing _ code details =>
    .ofNumber code.toInt32.toInt.natAbs details
  | .unexpectedEof => .notText
  | .userError details => .system details 0

/-- Reads a source file. -/
def readSource (path : String) : IO (Except ReadFault String) := do
  try
    return decodeText (← IO.FS.readBinFile path)
  catch error => return .error (readFaultOf error)

/-- Seconds since the beginning of 1970. -/
def seconds : IO Float := do
  let now ← Std.Time.Timestamp.now
  return Float.ofInt now.toNanosecondsSinceUnixEpoch.val / 1000000000.0

/-- Answers the arguments: a file is read for a command only. -/
def answerArguments (args : List String) : IO Answer := do
  let now ← seconds
  let request := readRequest args
  let file ← match request with
    | .perform command => readSource command.path
    | _ => pure (.error .notFound)
  return request.answer (fun _ => now) fun _ => file

end ScriptMachine

def main (args : List String) : IO UInt32 := do
  let answer ← ScriptMachine.answerArguments args
  IO.print answer.stdout
  IO.eprint answer.stderr
  return answer.code.toUInt32
