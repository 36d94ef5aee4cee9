import EntityFetch.Config.Decode
import EntityFetch.Execution.Session
import EntityFetch.Fetch
import EntityFetch.Json.Reader
import EntityFetch.Logging
import EntityFetch.Proofs.Catalog
import EntityFetch.Proofs.Graph
import EntityFetch.Proofs.Plan
import EntityFetch.Proofs.Joint
import EntityFetch.Proofs.Reading
import EntityFetch.Proofs.Combination
import EntityFetch.Proofs.Filter
import EntityFetch.Proofs.Sort
import EntityFetch.Proofs.RootRows
import EntityFetch.Proofs.Assoc
import EntityFetch.Proofs.Assemble
import EntityFetch.Proofs.Fetch
import EntityFetch.Proofs.Answer
import EntityFetch.Proofs.Repeat
import EntityFetch.Proofs.Prepare
import EntityFetch.Proofs.SameRoots
import EntityFetch.Proofs.Filtered
import EntityFetch.Proofs.Ordered
import EntityFetch.Proofs.Outline
import EntityFetch.Proofs.Grow
import EntityFetch.Proofs.Single
import EntityFetch.Proofs.Batch
import EntityFetch.Proofs.Loaded
import EntityFetch.Proofs.Branches
import EntityFetch.Proofs.Dispatch
import EntityFetch.Proofs.Regular
import EntityFetch.Proofs.Attach
import EntityFetch.Proofs.Meaning
import EntityFetch.Proofs.Partition
import EntityFetch.Proofs.Scoped
import EntityFetch.Proofs.CallerFault
import EntityFetch.Proofs.Bounds
import EntityFetch.Proofs.Contract
import EntityFetch.Proofs.Page
import EntityFetch.Proofs.Block
import EntityFetch.Proofs.LookUp
import EntityFetch.Proofs.Local
import EntityFetch.Proofs.Address
import EntityFetch.Proofs.Layers
import EntityFetch.Proofs.Visit
import EntityFetch.Proofs.Merging
import EntityFetch.Proofs.Shape
import EntityFetch.Proofs.Textbook
import EntityFetch.Proofs.Scan
import EntityFetch.Proofs.Spaced
import EntityFetch.Proofs.Rendered
import EntityFetch.Proofs.Positional
import EntityFetch.Proofs.Condition
import EntityFetch.Proofs.Precedence
import EntityFetch.Proofs.Predicate
import EntityFetch.Proofs.Clauses
import EntityFetch.Proofs.Chain
import EntityFetch.Proofs.Expand
import EntityFetch.Proofs.Closure
import EntityFetch.Proofs.Anchor
import EntityFetch.Proofs.Rearranged
import EntityFetch.Proofs.Profile
import EntityFetch.Proofs.Strategy
import EntityFetch.Proofs.Upgrade
import EntityFetch.Proofs.Naming
import EntityFetch.Proofs.Nested
import EntityFetch.Proofs.Wave
import EntityFetch.Proofs.Outcome
import EntityFetch.Proofs.First
import EntityFetch.Proofs.Like
import EntityFetch.Proofs.Unknown
import EntityFetch.Proofs.JsonText
import EntityFetch.Proofs.Key
import EntityFetch.Proofs.FirstMatch
import EntityFetch.Proofs.Several
import EntityFetch.Proofs.Optional
import EntityFetch.Proofs.Comparable
import EntityFetch.Proofs.Declared
import EntityFetch.Proofs.Covered
import EntityFetch.Proofs.Grammar
import EntityFetch.Proofs.Label
import EntityFetch.Proofs.Untagged
import EntityFetch.Proofs.Spelled
import EntityFetch.Proofs.Footprint
import EntityFetch.Proofs.Placeholder
import EntityFetch.Proofs.Folding
import EntityFetch.Proofs.Serialized
