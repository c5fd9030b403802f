import RouteScaffold.Main
import RouteScaffold.Proofs.Edit.Reading
import RouteScaffold.Proofs.Text.Words
import RouteScaffold.Proofs.Edit.Lines
import RouteScaffold.Proofs.Text.Case
import RouteScaffold.Proofs.Text.Names
import RouteScaffold.Proofs.Edit.Insertion
import RouteScaffold.Proofs.Marker.Outline
import RouteScaffold.Proofs.Marker.Insertions
import RouteScaffold.Proofs.Marker.Imports
import RouteScaffold.Proofs.Marker.Blocks
import RouteScaffold.Proofs.Marker.Revisions
import RouteScaffold.Proofs.Marker.Live
import RouteScaffold.Proofs.Disk.Runs
import RouteScaffold.Proofs.Disk.Jobs
import RouteScaffold.Proofs.Json.RoundTrip
import RouteScaffold.Proofs.Project.Places
import RouteScaffold.Proofs.Disk.Spares
import RouteScaffold.Proofs.Journal.Following
import RouteScaffold.Proofs.Edit.Leading
import RouteScaffold.Proofs.Edit.Revising
import RouteScaffold.Proofs.Registry.Removal
import RouteScaffold.Proofs.Registry.Loading
import RouteScaffold.Proofs.Project.Commands
import RouteScaffold.Proofs.Registry.Adding
import RouteScaffold.Proofs.Journal.Refusals
import RouteScaffold.Proofs.Project.Validation
import RouteScaffold.Proofs.Disk.Exchange
import RouteScaffold.Proofs.Journal.Reading
import RouteScaffold.Proofs.Journal.Undoing
import RouteScaffold.Proofs.Edit.Statements
import RouteScaffold.Proofs.Edit.Uniform
import RouteScaffold.Proofs.Registry.Elements
import RouteScaffold.Proofs.Registry.HandEdited
import RouteScaffold.Proofs.Registry.FlatRoundTrip
import RouteScaffold.Proofs.Journal.Tracking
import RouteScaffold.Proofs.Marker.Commands
import RouteScaffold.Proofs.Marker.History
import RouteScaffold.Proofs.Project.Footprint
import RouteScaffold.Proofs.Project.Barrels
import RouteScaffold.Proofs.Disk.Alike
import RouteScaffold.Proofs.Disk.Beside
import RouteScaffold.Proofs.Disk.Opening
import RouteScaffold.Proofs.Journal.Bookkeeping
import RouteScaffold.Proofs.Project.Transparency
import RouteScaffold.Proofs.Journal.Remembering
import RouteScaffold.Proofs.Project.Resumption
import RouteScaffold.Proofs.Journal.Retaining
import RouteScaffold.Proofs.Registry.FlatOutline
import RouteScaffold.Proofs.Registry.Lacking
import RouteScaffold.Proofs.Project.Amending
import RouteScaffold.Proofs.Project.Inference
import RouteScaffold.Proofs.Project.Listing
import RouteScaffold.Proofs.Project.Tolerance
import RouteScaffold.Proofs.Route.Nesting
import RouteScaffold.Proofs.Route.Cutting
import RouteScaffold.Proofs.Project.Namesakes
import RouteScaffold.Proofs.Project.Failures
import RouteScaffold.Proofs.Route.Formed
import RouteScaffold.Proofs.Route.Attributes
import RouteScaffold.Proofs.Route.Rendering
import RouteScaffold.Proofs.Edit.Sparing
import RouteScaffold.Proofs.Edit.Preserving
import RouteScaffold.Proofs.Edit.Filtering
import RouteScaffold.Proofs.Edit.Repeating
import RouteScaffold.Proofs.Journal.Persisting
import RouteScaffold.Proofs.Settings.Layers
import RouteScaffold.Proofs.CommandLine.Pending
import RouteScaffold.Proofs.Project.Identifiers
import RouteScaffold.Proofs.Project.Spellings
import RouteScaffold.Proofs.Registry.Unmatched
import RouteScaffold.Proofs.Settings.Faults
import RouteScaffold.Proofs.Journal.Recording
import RouteScaffold.Proofs.Journal.Tracing
import RouteScaffold.Proofs.Journal.Reverting
import RouteScaffold.Proofs.Project.Rescue
import RouteScaffold.Proofs.Journal.Belated
import RouteScaffold.Proofs.Project.Overtaken
import RouteScaffold.Proofs.Project.Recoveries
import RouteScaffold.Proofs.Marker.Traces
