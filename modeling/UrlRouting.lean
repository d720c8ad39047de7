import UrlRouting.CommandLine.Command
import UrlRouting.Main
import UrlRouting.Options.Merge
import UrlRouting.Proofs.Table.Answers
import UrlRouting.PublicName
import UrlRouting.Session
import UrlRouting.Proofs.Table.Compiling
import UrlRouting.Proofs.Table.Routing
import UrlRouting.Proofs.Table.Upkeep
import UrlRouting.Proofs.Table.Configuring
import UrlRouting.Proofs.Table.Reachable
import UrlRouting.Proofs.Regex.Stepping
import UrlRouting.Proofs.Regex.Names
import UrlRouting.Proofs.Variables.Captured
import UrlRouting.Proofs.Text.Replace
import UrlRouting.Proofs.Dispatch.Outline
import UrlRouting.Proofs.Dispatch.Filling
import UrlRouting.Proofs.Dispatch.Form
import UrlRouting.Proofs.Text.Lower
import UrlRouting.Proofs.Text.Boundary
import UrlRouting.Proofs.Http.Allow
import UrlRouting.Proofs.Table.Refusal
import UrlRouting.Proofs.Table.Allowed
import UrlRouting.Proofs.Table.Precedence
import UrlRouting.Proofs.Table.Closed
import UrlRouting.Proofs.Table.Malformed
import UrlRouting.Proofs.Table.History
import UrlRouting.Proofs.Template.Parts
import UrlRouting.Proofs.Template.Slots
import UrlRouting.Proofs.Template.Fragments
import UrlRouting.Proofs.Template.Expression
import UrlRouting.Proofs.Regex.Reading
import UrlRouting.Proofs.Template.Kinds
import UrlRouting.Proofs.Template.Parsed
import UrlRouting.Proofs.Table.Plain
import UrlRouting.Proofs.Regex.Matching
import UrlRouting.Proofs.Template.Assignment
import UrlRouting.Proofs.Template.Shape
import UrlRouting.Proofs.Table.Rendering
import UrlRouting.Proofs.Regex.Renaming
import UrlRouting.Proofs.Template.Delimiting
import UrlRouting.Proofs.Table.Delimiter
import UrlRouting.Proofs.Table.Domains
import UrlRouting.Proofs.Table.Declaring
import UrlRouting.Proofs.Table.Redelimiting
import UrlRouting.Proofs.Regex.Consumption
import UrlRouting.Proofs.Regex.Closing
import UrlRouting.Proofs.Template.Ending
import UrlRouting.Proofs.Table.Complete
import UrlRouting.Proofs.Options.Combining
import UrlRouting.Proofs.Table.Inherited
import UrlRouting.Proofs.Template.Normalizing
import UrlRouting.Proofs.Template.Nesting
import UrlRouting.Proofs.Table.Twins
import UrlRouting.Proofs.Table.GivingDomains
import UrlRouting.Proofs.Table.Grouping
import UrlRouting.Proofs.Template.Aliases
import UrlRouting.Proofs.Table.Restored
import UrlRouting.Proofs.Regex.Leading
import UrlRouting.Proofs.Text.Blurring
import UrlRouting.Proofs.Template.Heading
import UrlRouting.Proofs.Table.Prefix
import UrlRouting.Proofs.Dispatch.Spelling
import UrlRouting.Proofs.Template.Intact
import UrlRouting.Proofs.Variables.Unconsumed
import UrlRouting.Proofs.Table.Segments
import UrlRouting.Proofs.Table.Slashed
import UrlRouting.Proofs.Regex.Monotone
import UrlRouting.Proofs.Regex.Stopping
import UrlRouting.Proofs.Regex.Composing
import UrlRouting.Proofs.Table.Narrowing
import UrlRouting.Proofs.Text.SmallForms
import UrlRouting.Proofs.Template.Trailing
import UrlRouting.Proofs.Table.Absent
import UrlRouting.Proofs.Variables.Pairs
import UrlRouting.Proofs.Variables.Tags
import UrlRouting.Proofs.Admission.Reading
import UrlRouting.Proofs.Admission.Misshapen
import UrlRouting.Proofs.Table.Agreeing
import UrlRouting.Proofs.Table.Anywhere
import UrlRouting.Proofs.Text.Recased
import UrlRouting.Proofs.Admission.Recasing
import UrlRouting.Proofs.Dispatch.Classes
import UrlRouting.Proofs.Table.Sealed
import UrlRouting.Proofs.Table.Failing
import UrlRouting.Proofs.Table.Frame
import UrlRouting.Proofs.Table.Local
import UrlRouting.Proofs.Http.Host
import UrlRouting.Proofs.Http.Making
import UrlRouting.Proofs.Text.Octets
import UrlRouting.Proofs.Text.Escapes
import UrlRouting.Proofs.Http.Written
import UrlRouting.Proofs.Text.Settled
import UrlRouting.Proofs.CommandLine.Repeated
import UrlRouting.Proofs.Admission.Listed
import UrlRouting.Proofs.Table.Fitting
import UrlRouting.Proofs.Table.Extensions
import UrlRouting.Proofs.CommandLine.Naming
import UrlRouting.Proofs.CommandLine.Reporting
import UrlRouting.Proofs.Options.Merging
import UrlRouting.Proofs.Variables.Numerals
import UrlRouting.Proofs.Table.AllowHeader
import UrlRouting.Proofs.Http.Lookups
import UrlRouting.Proofs.Table.Binders
