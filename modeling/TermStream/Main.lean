import TermStream.CommandLine

open TermStream CommandLine

def faultOfError (e : IO.Error) : FileFault :=
  match e with
  | .noFileOrDirectory .. => .cannotAccess .notFound
  | .inappropriateType _ code _ =>
    if code = 21 then .cannotRead .isDirectory else .cannotAccess .notDirectory
  | .permissionDenied .. => .cannotRead .permissionDenied
  | other => .cannotAccess ⟨toString other, 5⟩

def readFor (request : Request) : IO (Except FileFault ByteArray) := do
  match request with
  | .run i =>
    try return .ok (← IO.FS.readBinFile i.file)
    catch e => return .error (faultOfError e)
  | _ => return .error (.cannotAccess .notFound)

def main (args : List String) : IO UInt32 := do
  let request := Request.ofArguments args
  let content ← readFor request
  let outcome := answer ampleSteps (fun _ => content) request
  for line in outcome.stdout do IO.println line
  for line in outcome.stderr do IO.eprintln line
  return outcome.exit.toUInt32
