import SchemaGraph.Main
import SchemaGraph.Project.FileTree
import SchemaGraph.Reference.Encoding
import SchemaGraph.Traversal.Discriminators
import SchemaGraph.Proofs.Encoding
import SchemaGraph.Proofs.Pass
import SchemaGraph.Proofs.Effect
import SchemaGraph.Proofs.Trees
import SchemaGraph.Proofs.Acyclic
import SchemaGraph.Proofs.Grounded
import SchemaGraph.Proofs.Unshared
import SchemaGraph.Proofs.Preorder
import SchemaGraph.Proofs.Gather.Walk
import SchemaGraph.Proofs.Gather.Coverage
import SchemaGraph.Proofs.Gather.Rounds
import SchemaGraph.Proofs.Gather.Failing
import SchemaGraph.Proofs.Gather.Recursion
import SchemaGraph.Proofs.Gather.Cycles
import SchemaGraph.Proofs.Gather.Breaking
import SchemaGraph.Proofs.Rebuild
import SchemaGraph.Proofs.Unfolding
import SchemaGraph.Proofs.Loading
import SchemaGraph.Proofs.Wire.Shown
import SchemaGraph.Proofs.Wire.Settled
import SchemaGraph.Proofs.Wire.Leftover
import SchemaGraph.Proofs.Wire.Attached
import SchemaGraph.Proofs.Wire.Same
import SchemaGraph.Proofs.Wire.RoundTrip
import SchemaGraph.Proofs.Flatten.Run
import SchemaGraph.Proofs.Flatten.Origin
import SchemaGraph.Proofs.Flatten.Walk
import SchemaGraph.Proofs.Flatten.Separation
import SchemaGraph.Proofs.Gather.Order
import SchemaGraph.Proofs.Gather.Faults
import SchemaGraph.Proofs.Simplify.Wrap
import SchemaGraph.Proofs.Simplify.Inline
import SchemaGraph.Proofs.Simplify.Dangling
import SchemaGraph.Proofs.Flatten.Meaning
import SchemaGraph.Proofs.Simplify.Meaning
import SchemaGraph.Proofs.Flatten.Normal
import SchemaGraph.Proofs.Flatten.Skipping
import SchemaGraph.Proofs.Flatten.Idempotent
import SchemaGraph.Proofs.Flatten.Registry
import SchemaGraph.Proofs.Flatten.Repeated
import SchemaGraph.Proofs.Simplify.Knots
import SchemaGraph.Proofs.Simplify.Declared
import SchemaGraph.Proofs.Gather.Explored
import SchemaGraph.Proofs.Gather.Meets
import SchemaGraph.Proofs.Simplify.Uses
import SchemaGraph.Proofs.Simplify.Listed
import SchemaGraph.Proofs.Simplify.Frame
import SchemaGraph.Proofs.Calls
import SchemaGraph.Proofs.Children
import SchemaGraph.Proofs.Rewriting
import SchemaGraph.Proofs.Wire.Legible
import SchemaGraph.Proofs.Wire.Grown
import SchemaGraph.Proofs.Wire.Telling
import SchemaGraph.Proofs.Wire.Twins
import SchemaGraph.Proofs.Growth
import SchemaGraph.Proofs.Gather.Written
import SchemaGraph.Proofs.Gather.Mirrored
import SchemaGraph.Proofs.Gather.Placed
import SchemaGraph.Proofs.Simplify.Lockstep
import SchemaGraph.Proofs.Simplify.Again
import SchemaGraph.Proofs.Simplify.Reloaded
import SchemaGraph.Proofs.Simplify.Legible
import SchemaGraph.Proofs.Flatten.Apart
import SchemaGraph.Proofs.Simplify.Lossless
import SchemaGraph.Proofs.Simplify.Modes
import SchemaGraph.Proofs.Simplify.Stable
import SchemaGraph.Proofs.Discriminators.Order
import SchemaGraph.Proofs.Discriminators.Settled
import SchemaGraph.Proofs.Wire.Reading
import SchemaGraph.Proofs.Wire.Accepting
import SchemaGraph.Proofs.Gather.Loop
import SchemaGraph.Proofs.Slots
import SchemaGraph.Proofs.Printed
import SchemaGraph.Proofs.Project.Places
import SchemaGraph.Proofs.Project.Saving
