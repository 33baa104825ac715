import Systasis.Lib.Depth
import Systasis.Graph.Schedule
import Systasis.Graph.Cycle
import Systasis.Graph.Layering
import Systasis.Wiring
import Systasis.Build.Generated
import Systasis.Build.Initialization
import Systasis.Build.AllOrNothing
import Systasis.Lib.Run
import Systasis.Storage.TakeSlot
import Systasis.Storage.Safety
import Systasis.Storage.Transfer
import Systasis.Rebase.Hoist
import Systasis.Rebase.Denotation
import Systasis.Rebase.Preservation
import Systasis.Scoped.Key
import Systasis.Scoped.Tree
import Systasis.Scoped.Dispatch
import Systasis.Scoped.Routes
import Systasis.Lib.Rose
import Systasis.Syntax
import Systasis.Captures.Visitor
import Systasis.Captures.Lexical
import Systasis.Captures.Correspondence
import Systasis.Captures.Evaluation
import Systasis.Captures.Reconstruct
import Systasis.Configuration.Selection
import Systasis.Configuration.Agreement
import Systasis.Configuration.Statements
import Systasis.Analysis.Queries
import Systasis.Analysis.TypeLookup
import Systasis.Analysis.Unfolding
import Systasis.Analysis.Closure
import Systasis.Analysis.Consumption
import Systasis.Analysis.Expansion
import Systasis.Analysis.Rewriting
import Systasis.Analysis.Written
import Systasis.Binding.Alias
import Systasis.Binding.Annotated
import Systasis.Binding.Declared
import Systasis.Binding.Modes
import Systasis.Binding.Observe
import Systasis.Binding.Projection
import Systasis.Binding.Recorded
import Systasis.Binding.Scope
import Systasis.Binding.Updates
import Systasis.Build.Function
import Systasis.Declaration.Reports
import Systasis.Declaration.Routing
import Systasis.Declaration.Sources
import Systasis.Lib.Gather
import Systasis.Naming.Resolvers
import Systasis.Naming.Unambiguous
import Systasis.Scoped.Group
import Systasis.Scoped.Instance
import Systasis.Scoped.Mask
import Systasis.Scoped.Restriction
import Systasis.Scoped.Selection
import Systasis.Storage.Local
import Systasis.Storage.Sequential
import Systasis.Types.DynTarget
import Systasis.Types.Lifetimes
import Systasis.Types.Policy
import Systasis.Types.Scope
import Systasis.Types.Spelling
import Systasis.Types.Tree
import Systasis.Build.Interleaving
import Systasis.Build.Meaning
import Systasis.Build.Runtime
import Systasis.Captures.Native
import Systasis.Lib.Atomic
import Systasis.Lib.Parse
import Systasis.Lib.Program
import Systasis.Lib.Simulation
import Systasis.Parse.Declarations
import Systasis.Parse.Grammar
import Systasis.Parse.Requirements
import Systasis.Parse.Separator
import Systasis.Storage.Inheritance
import Systasis.Storage.Linearization
import Systasis.Storage.Policy
import Systasis.Types.Lifting
