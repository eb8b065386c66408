import Valor.Lib.Reactive
import Valor.Lib.Flow
import Valor.Lib.Steering
import Valor.Lib.Checkpoints
import Valor.Lib.Interference
import Valor.Lib.Renaming
import Valor.Lib.Runs
import Valor.Lib.Completion
import Valor.Lib.Coroutines
import Valor.Lib.RoundRobin
import Valor.Runtime.Promise
import Valor.Runtime.RoundTrip
import Valor.Runtime.Machine
import Valor.Runtime.Finished
import Valor.Runtime.Lockstep
import Valor.Runtime.Group
import Valor.Runtime.Protocol
import Valor.Runtime.Rewritten
import Valor.Runtime.Inert
import Valor.Runtime.Transparent
import Valor.Runtime.Workflow
import Valor.Runtime.Rollback
import Valor.Runtime.InPlace
import Valor.Runtime.Listing
import Valor.Runtime.Renumbering
import Valor.Runtime.Supply
import Valor.Runtime.Foreign
import Valor.Runtime.Lifetime
import Valor.Runtime.Ownership
import Valor.Lib.Bytes
import Valor.Vapor.Tree
import Valor.Vapor.Patch
import Valor.Vapor.Offset
import Valor.Vapor.AllOrNothing
import Valor.Vapor.Walk
import Valor.Vapor.Plugin
import Valor.Lib.EditBuffer
import Valor.Lib.Provenance
import Valor.Lib.Reordering
import Valor.Lib.Misplaced
import Valor.Lib.DepthFirst
import Valor.Lib.Builds
import Valor.Valet.Ast
import Valor.Valet.Options
import Valor.Valet.Collect
import Valor.Valet.Scopes
import Valor.Valet.Emit
import Valor.Valet.Files
import Valor.Valet.Text
import Valor.Valet.Relex
import Valor.Valet.Selection
import Valor.Valet.MapOrder
import Valor.Valet.Verbose
import Valor.Valet.Main
import Valor.Valet.Headers
import Valor.Valet.Layout
import Valor.Valet.Labels
import Valor.Valet.Order
import Valor.Valet.Lines
import Valor.Valet.Numbering
import Valor.Valet.Placement
import Valor.Valet.Statements
import Valor.Valet.Insert
import Valor.Valet.Reparse
import Valor.Valet.Running
import Valor.Valet.Calls
import Valor.Valet.Output
import Valor.Valet.Locals
import Valor.Valet.Migration
import Valor.Valet.Straying
import Valor.Valet.Preservation
import Valor.Balor.Tasks
import Valor.Balor.Transfers
import Valor.Balor.Nesting
import Valor.Balor.Fibers
