import Sdg.Collection.Arena
import Sdg.Collection.OrderedMap
import Sdg.Collection.OrderedSet
import Sdg.Export.Dot
import Sdg.Flow.Scope
import Sdg.IR.Assembly
import Sdg.IR.Decode
import Sdg.IR.Encode
import Sdg.Json.Printer
import Sdg.Query.CallSites
import Sdg.Query.Verify
import Sdg.Session
import Sdg.Proofs.Collection
import Sdg.Proofs.Registry.View
import Sdg.Proofs.Rules
import Sdg.Proofs.Formals.Access
import Sdg.Proofs.Formals.Binding
import Sdg.Proofs.Registry.Change
import Sdg.Proofs.Registry.Mirror
import Sdg.Proofs.Registry.Housing
import Sdg.Proofs.Registry.Order
import Sdg.Proofs.Registry.Pieces
import Sdg.Proofs.Formals.Actuals
import Sdg.Proofs.Formals.Propagation
import Sdg.Proofs.Building.Evolution
import Sdg.Proofs.Building.Linking
import Sdg.Proofs.Building.Bodies
import Sdg.Proofs.Building.Requests
import Sdg.Proofs.Teardown.Freeing
import Sdg.Proofs.Teardown.Progress
import Sdg.Proofs.Teardown.Falling
import Sdg.Proofs.Teardown.Owning
import Sdg.Proofs.Teardown.Rounds
import Sdg.Proofs.Teardown.Outcome
import Sdg.Proofs.Teardown.Survival
import Sdg.Proofs.Building.Roots
import Sdg.Proofs.Session.Moves
import Sdg.Proofs.Session.Steady
import Sdg.Proofs.Session.FixedPoint
import Sdg.Proofs.Session.Teardown
import Sdg.Proofs.Session.Log
import Sdg.Proofs.Session.References
import Sdg.Proofs.Registry.Inventory
import Sdg.Proofs.Session.Integrity
import Sdg.Proofs.Session.Coverage
import Sdg.Proofs.Flow.PostDominators
import Sdg.Proofs.Flow.Climb
import Sdg.Proofs.Closed
import Sdg.Proofs.Json.Spelling
import Sdg.Proofs.Json.RoundTrip
import Sdg.Proofs.Json.Record
import Sdg.Proofs.IR.Nesting
import Sdg.Proofs.IR.RoundTrip
import Sdg.Proofs.Flow.Dependence
import Sdg.Proofs.Building.CutOff
import Sdg.Proofs.Session.Termination
import Sdg.Proofs.Registry.Live
import Sdg.Proofs.Safety.Advances
import Sdg.Proofs.Safety.Parameters
import Sdg.Proofs.Safety.Calls
import Sdg.Proofs.Safety.Underway
import Sdg.Proofs.Safety.Bodies
import Sdg.Proofs.Safety.Controls
import Sdg.Proofs.Safety.Builds
import Sdg.Proofs.Safety.Complete
import Sdg.Proofs.Session.Verification
import Sdg.Proofs.Maintained
import Sdg.Proofs.Control.Wired
import Sdg.Proofs.Control.Steps
import Sdg.Proofs.Control.Parameters
import Sdg.Proofs.Control.Bodies
import Sdg.Proofs.Control.Builds
import Sdg.Proofs.Control.Teardown
import Sdg.Proofs.Session.Control
import Sdg.Proofs.Session.Emptied
import Sdg.Proofs.Lookup.Modules
import Sdg.Proofs.Lookup.Work
import Sdg.Proofs.Lookup.Builds
import Sdg.Proofs.Session.Lookups
import Sdg.Proofs.Assembled
import Sdg.Proofs.Session.Totality
import Sdg.Proofs.Registry.Ages
import Sdg.Proofs.Registry.Globals
import Sdg.Proofs.Portrait.Layout
import Sdg.Proofs.Portrait.Stage
import Sdg.Proofs.Portrait.Drawn
import Sdg.Proofs.Portrait.Calm
import Sdg.Proofs.Portrait.Teardown
import Sdg.Proofs.Portrait.Bodies
import Sdg.Proofs.Portrait.Controls
import Sdg.Proofs.Portrait.Builds
import Sdg.Proofs.Session.Handles
import Sdg.Proofs.Session.Portraits
import Sdg.Proofs.Related
import Sdg.Proofs.Twins.Naming
import Sdg.Proofs.Twins.Likeness
import Sdg.Proofs.Twins.Data
import Sdg.Proofs.Twins.Registry
import Sdg.Proofs.Twins.Skip
import Sdg.Proofs.Twins.Rules
import Sdg.Proofs.Twins.Pieces
import Sdg.Proofs.Twins.Teardown
import Sdg.Proofs.Twins.Builds
import Sdg.Proofs.Twins.Steps
import Sdg.Proofs.Session.Rebuilt
import Sdg.Proofs.IR.Stripping
import Sdg.Proofs.Session.Exports
import Sdg.Proofs.Session.CallSites
import Sdg.Proofs.Building.Declarations
import Sdg.Proofs.Session.Refused
import Sdg.Proofs.Registry.Offers
import Sdg.Proofs.IR.Compatibility
import Sdg.Proofs.IR.Dangling
import Sdg.Proofs.IR.Growth
import Sdg.Proofs.IR.Roles
import Sdg.Proofs.IR.Coherence
