import DeliveryRules.CommandLine.Report
import DeliveryRules.Disk

/-!
# Commands on a disk

A deed leaves a disk behind, in which at most one file has changed. A command that fails changes
nothing.
-/

namespace DeliveryRules.CommandLine

/-- Does what a command has come to. -/
def Deed.onDisk (d : Disk) : Deed → Except CommandError Report × Disk
  | .print text notes => (.ok ⟨0, text, notes⟩, d)
  | .write path text notes =>
    match d.write? path text with
    | some d => (.ok ⟨0, "", notes⟩, d)
    | none => (.error (.unwritten path), d)

/-- Carries out an invocation in the current directory of a disk. -/
def Invocation.onDisk (i : Invocation) (e : Environment) (d : Disk) : Report × Disk :=
  match i.carryOut ⟨d.files, e, d.currentPath⟩ with
  | .error error => (error.report, d)
  | .ok deed =>
    match deed.onDisk d with
    | (.ok report, d) => (report, d)
    | (.error error, d) => (error.report, d)

end DeliveryRules.CommandLine
