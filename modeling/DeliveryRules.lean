import DeliveryRules.Capability.Sample
import DeliveryRules.CommandLine.OnDisk
import DeliveryRules.Main
import DeliveryRules.Proofs.Capability.References
import DeliveryRules.Proofs.Compiler.Agreement
import DeliveryRules.Proofs.Compiler.Chronology
import DeliveryRules.Proofs.Compiler.Faithful
import DeliveryRules.Proofs.Compiler.Output
import DeliveryRules.Proofs.Compiler.Provenance
import DeliveryRules.Proofs.Compiler.Readable
import DeliveryRules.Proofs.Compiler.Residue
import DeliveryRules.Proofs.Compiler.RoundTrip
import DeliveryRules.Proofs.Compiler.Sketch
import DeliveryRules.Proofs.Compiler.Variables
import DeliveryRules.Proofs.Compiler.Versions
import DeliveryRules.Proofs.Fragment.Acceptance
import DeliveryRules.Proofs.Fragment.Embedding
import DeliveryRules.Proofs.Fragment.Inlining
import DeliveryRules.Proofs.Fragment.Lines
import DeliveryRules.Proofs.Fragment.Accepted
import DeliveryRules.Proofs.Fragment.Rejection
import DeliveryRules.Proofs.Fragment.Stack
import DeliveryRules.Proofs.Path
import DeliveryRules.Proofs.Pointer.Cursor
import DeliveryRules.Proofs.Pointer.Literal
import DeliveryRules.Proofs.Schema.Soundness
import DeliveryRules.Proofs.Settings.Precedence
import DeliveryRules.Proofs.Text.Excerpt
import DeliveryRules.Rule.Outline
