import Sage.Syntax.Skeleton
import Sage.Infer.Frame
import Sage.Infer.Invariant
import Sage.Infer.InvariantRun
import Sage.Infer.Isolation
import Sage.Infer.NeverFallback
import Sage.Infer.TryUnify
import Sage.Infer.Acyclic
import Sage.Infer.ScopedRun
import Sage.Infer.Domain
import Sage.Infer.DomainRun
import Sage.Infer.Congruence
import Sage.Solve.Canonical
import Sage.Solve.Boundary
import Sage.Library.Grow
import Sage.Library.PartialMap
import Sage.Inspector.Reflection
import Sage.Inspector.Product
import Sage.Inspector.Canonical
import Sage.Inspector.Provider
import Sage.Library.Numbered
import Sage.Library.Strata
import Sage.Solve.Walk
import Sage.Solve.Traversal
import Sage.Solve.Naming
import Sage.Solve.Validation
import Sage.Solve.AlphaEquiv
import Sage.Solve.Subsume
import Sage.Solve.Merge
import Sage.Solve.Schedule
import Sage.Stash.Laws
import Sage.Stash.Shape
import Sage.Stash.Tree
import Sage.Stash.Words
import Sage.Stash.Fingerprint
import Sage.Stash.Rooted
import Sage.Infer.CongruenceRun
import Sage.Infer.Wakes
import Sage.Infer.Account
import Sage.Infer.Publish
import Sage.Parse.Paths
import Sage.Parse.UseTree
import Sage.Resolve.Symbols
import Sage.Resolve.Finite
import Sage.Resolve.FixedPoint
import Sage.Resolve.Scoping
import Sage.Resolve.Imports
import Sage.Resolve.Completeness
import Sage.Resolve.Discovery
import Sage.Resolve.Emission
import Sage.Solve.Definite
import Sage.Solve.Subsumption
import Sage.Solve.Generalization
import Sage.Inspector.Retention
import Sage.Inspector.Segments
import Sage.Inspector.Paths
import Sage.Inspector.Erasure
import Sage.Inspector.Workspace
import Sage.Inspector.History
import Sage.Meta.Contracts
import Sage.Meta.Session
import Sage.Library.Orbit
import Sage.Meta.Model
import Sage.Library.Search
import Sage.Meta.Build
import Sage.Meta.Validate
import Sage.Meta.Hierarchy
import Sage.Meta.Resolve
import Sage.Meta.Agreement
import Sage.Library.Worklist
import Sage.Solve.Elaborate
import Sage.Check.Instantiate
import Sage.Stash.Copy
import Sage.Check.TyTree
import Sage.Library.Relator
import Sage.Check.Reading
import Sage.Check.Finalize
import Sage.Check.Body
import Sage.Library.Brackets
import Sage.Meta.Correspondence
import Sage.Meta.SalsaContracts
import Sage.Meta.Evidence
import Sage.Meta.Regions
import Sage.Inspector.Trace
import Sage.Inspector.Activity
import Sage.Library.Url
import Sage.Meta.Redirects
import Sage.Meta.Places
import Sage.Meta.Inventory
import Sage.Meta.Attribution
import Sage.Meta.Review
import Sage.Meta.Gate
import Sage.Library.Lexical
import Sage.Check.Scope
import Sage.Check.Scoping
import Sage.Check.Locals
import Sage.Check.Lowering
import Sage.Inspector.Watch
import Sage.Harness.Diagnostics
import Sage.Check.TraitSig
import Sage.Parse.Block
import Sage.Library.Descent
import Sage.Modules.Files
import Sage.Modules.Walk
import Sage.Modules.Rules
import Sage.Parse.Cfg
import Sage.Library.Discovery
import Sage.Inspector.Compare
import Sage.Inspector.Truncation
import Sage.Check.Sized
import Sage.Check.Denotation
import Sage.Infer.Tasks
import Sage.Resolve.External
import Sage.Inspector.Catalogue
import Sage.Meta.Lexer
import Sage.Meta.Parser
import Sage.Library.Nesting
import Sage.Meta.Grammar
import Sage.Meta.Reading
import Sage.Meta.Prose
import Sage.Meta.Reading
import Sage.Meta.Prose
import Sage.Library.Minting
import Sage.Library.Occurrence
import Sage.Parse.Associated
import Sage.Resolve.Associated
import Sage.Solve.Heads
import Sage.Solve.Candidates
import Sage.Library.Service
import Sage.Inspector.Actor
import Sage.Inspector.Linear
import Sage.Inspector.Turns
import Sage.Inspector.Live
import Sage.Infer.Obligations
