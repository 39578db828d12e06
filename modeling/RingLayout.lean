import RingLayout.Layout
import RingLayout.Options.Decode
import RingLayout.Scalar.Double
import RingLayout.Proofs.Skeleton
import RingLayout.Proofs.Skeleton.Motion
import RingLayout.Proofs.Arrangement
import RingLayout.Proofs.Seating
import RingLayout.Proofs.Seating.Rings
import RingLayout.Proofs.Crossings
import RingLayout.Proofs.Untangling
import RingLayout.Proofs.Clusters
import RingLayout.Proofs.Seating.Build
import RingLayout.Proofs.Seating.Operations
import RingLayout.Proofs.Schedule
import RingLayout.Proofs.Calls
import RingLayout.Proofs.Lifecycle
import RingLayout.Proofs.Scalar.Double
import RingLayout.Proofs.Scalar.Shares
import RingLayout.Proofs.Untangling.Early
import RingLayout.Proofs.Untangling.Run
import RingLayout.Proofs.Placement.Grid
import RingLayout.Proofs.Placement.Repulsion
import RingLayout.Proofs.Validity
import RingLayout.Proofs.Links
import RingLayout.Proofs.Links.Views
import RingLayout.Proofs.Cells
import RingLayout.Proofs.Renaming
import RingLayout.Proofs.Renaming.Motion
import RingLayout.Proofs.Guise
import RingLayout.Proofs.Ticks
import RingLayout.Proofs.Renaming.Build
import RingLayout.Proofs.Renaming.Layout
import RingLayout.Proofs.Components
import RingLayout.Proofs.Wiring
import RingLayout.Proofs.Wiring.Roots
import RingLayout.Proofs.Quotient
import RingLayout.Proofs.Quotient.Run
import RingLayout.Proofs.Classes
import RingLayout.Proofs.Hubs
import RingLayout.Proofs.Locality
import RingLayout.Proofs.Motions
import RingLayout.Proofs.Motions.Members
import RingLayout.Proofs.Motions.Operations
import RingLayout.Proofs.Motions.Run
import RingLayout.Proofs.Circles
import RingLayout.Proofs.Angles
import RingLayout.Proofs.Angles.Members
import RingLayout.Proofs.Angles.Spread
import RingLayout.Proofs.Angles.Run
import RingLayout.Proofs.AsBuilt
import RingLayout.Proofs.Packing
import RingLayout.Proofs.Tiling
import RingLayout.Proofs.Exchanges
import RingLayout.Proofs.Scalar.One
import RingLayout.Proofs.Angles.Chords
import RingLayout.Proofs.Aspects
import RingLayout.Proofs.Record
import RingLayout.Proofs.Seclusion
import RingLayout.Proofs.Lengths
import RingLayout.Proofs.Locality.Motion
import RingLayout.Proofs.Interior
import RingLayout.Proofs.Interior.Run
import RingLayout.Proofs.Pulls
import RingLayout.Proofs.Pulls.Run
import RingLayout.Proofs.Bounds
import RingLayout.Proofs.Bounds.Draft
import RingLayout.Proofs.Enclosure
import RingLayout.Proofs.Enclosure.Inside
import RingLayout.Proofs.Scalar.Order
import RingLayout.Proofs.Exchanges.Candidates
import RingLayout.Proofs.Exchanges.Ring
import RingLayout.Proofs.Exchanges.Round
import RingLayout.Proofs.Exchanges.Attempts
import RingLayout.Proofs.Exchanges.Facing
import RingLayout.Proofs.Exchanges.Rules
import RingLayout.Proofs.Hops
import RingLayout.Proofs.Connection
import RingLayout.Proofs.Refinement
import RingLayout.Proofs.Walk
import RingLayout.Proofs.Uncrossed
import RingLayout.Proofs.Reversal
import RingLayout.Proofs.Reversal.Ring
import RingLayout.Proofs.Reversal.Run
import RingLayout.Proofs.Alignment
import RingLayout.Proofs.Walk.Blocks
import RingLayout.Proofs.Random
import RingLayout.Proofs.Landmarks
import RingLayout.Proofs.Runs
import RingLayout.Proofs.Relocation
import RingLayout.Proofs.Relocation.Run
import RingLayout.Proofs.Scalar.Extended
import RingLayout.Proofs.Separation
import RingLayout.Proofs.Forces
import RingLayout.Proofs.Crossings.Drawn
import RingLayout.Proofs.Motions.Rigid
import RingLayout.Proofs.Options.Grammar
import RingLayout.Proofs.Options.Decode
import RingLayout.Proofs.Components.Partition
import RingLayout.Proofs.Scalar.Fractions
import RingLayout.Proofs.Random.States
import RingLayout.Proofs.Runs.Maximal
