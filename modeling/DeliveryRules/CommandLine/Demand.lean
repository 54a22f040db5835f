import DeliveryRules.CommandLine.Report
import DeliveryRules.Files.Seen

/-!
# What a command still has to see

A command that works with what was looked at so far fails where it needs something else.
`CommandError.glance?` says what that is.
-/

namespace DeliveryRules.CommandLine

/-- The look that was missing where a path could not be read. -/
private def ifUnseen (failure : ReadFailure) (g : Glance) : Option Glance :=
  if failure = .unseen then some g else none

/-- What has to be looked at before the command can go on, if it failed for want of it. -/
def CommandError.glance? : CommandError → Option Glance
  | .settings (.unreadable path failure) => ifUnseen failure (.text path)
  | .setup (.unreadable _ path failure) => ifUnseen failure (.text path)
  | .setup (.unlisted path failure) => ifUnseen failure (.list path)
  | .compile (.unreadable path failure) => ifUnseen failure (.text path)
  | _ => none

end DeliveryRules.CommandLine
