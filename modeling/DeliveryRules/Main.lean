import DeliveryRules.CommandLine.Demand

/-!
# The program

Looks at the files a command needs, does what the command comes to, and prints the report.
-/

namespace DeliveryRules.CommandLine

/-- The failure that an error of the system stands for. -/
def failureOf : IO.Error → ReadFailure
  | .permissionDenied .. => .refused
  | .inappropriateType _ code _ => if code = 21 then .isDirectory else .notDirectory
  | .invalidArgument _ code _ => if code = 22 then .nulInPath else .nameTooLong
  | _ => .noSuchFile

def lookAtText (path : Path) : IO (Except ReadFailure String) := do
  try
    let bytes ← IO.FS.readBinFile path.text
    return match String.fromUTF8? bytes with
      | some text => .ok text
      | none => .error .notText
  catch e => return .error (failureOf e)

def lookInto (path : Path) : IO (Except ReadFailure (List Path)) := do
  try
    let mut paths : List Path := []
    for entry in ← ((← IO.currentDir).join path.text).readDir do
      if (← entry.path.metadata).type == .file then paths := path.join ⟨entry.fileName⟩ :: paths
    return .ok (Path.sorted paths)
  catch e => return .error (failureOf e)

/-- The variables of the environment, as the system lists them for the process. -/
def environment : IO Environment := do
  try
    let bytes ← IO.FS.readBinFile "/proc/self/environ"
    let entries := ((String.fromUTF8? bytes).getD "").splitOn "\x00"
    return entries.filterMap fun entry =>
      match entry.toList.span (· ≠ '=') with
      | (name, _ :: value) => some (String.ofList name, String.ofList value)
      | _ => none
  catch _ => return []

/-- Looks at what a command needs to see until it needs no more. -/
partial def settled (i : Invocation) (e : Environment) (directory : Path) (seen : Seen) :
    IO (Except CommandError Deed) := do
  match i.carryOut ⟨seen.files, e, directory⟩ with
  | .ok deed => return .ok deed
  | .error error =>
    match error.glance? with
    | none => return .error error
    | some (.text path) =>
      settled i e directory { seen with texts := (path, ← lookAtText path) :: seen.texts }
    | some (.list path) =>
      settled i e directory { seen with lists := (path, ← lookInto path) :: seen.lists }

def perform : Deed → IO Report
  | .print text notes => return ⟨0, text, notes⟩
  | .write path text notes => do
    try
      IO.FS.writeFile path.text text
      return ⟨0, "", notes⟩
    catch _ => return (CommandError.unwritten path).report

def run (args : List String) : IO Report := do
  let e ← environment
  match Invocation.read e args with
  | .error fault => return fault.report
  | .ok invocation =>
    match ← settled invocation e ⟨(← IO.currentDir).toString⟩ {} with
    | .error error => return error.report
    | .ok deed => perform deed

end DeliveryRules.CommandLine

def main (args : List String) : IO UInt32 := do
  let report ← DeliveryRules.CommandLine.run args
  IO.print report.output
  IO.eprint report.notes
  return report.exitCode.toUInt32
