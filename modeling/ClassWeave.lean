import ClassWeave.Class.Attribute
import ClassWeave.Class.File
import ClassWeave.Code.Body
import ClassWeave.Code.Branch
import ClassWeave.Code.Builder
import ClassWeave.Code.Decode
import ClassWeave.Code.Effect
import ClassWeave.Code.Encode
import ClassWeave.Code.Insn
import ClassWeave.Code.Label
import ClassWeave.Code.Layout
import ClassWeave.Code.Mnemonic
import ClassWeave.Code.Read
import ClassWeave.Descriptor.Basic
import ClassWeave.Descriptor.Parse
import ClassWeave.Error
import ClassWeave.Flags
import ClassWeave.Format.Basic
import ClassWeave.Format.ModifiedUtf8
import ClassWeave.Frame.Basic
import ClassWeave.Frame.StackMap
import ClassWeave.Frame.Type
import ClassWeave.Frame.Verify
import ClassWeave.Name
import ClassWeave.NatMap
import ClassWeave.Patch.Canonical
import ClassWeave.Patch.Error
import ClassWeave.Patch.Locate
import ClassWeave.Patch.Method
import ClassWeave.Patch.Replay
import ClassWeave.Patch.Strategy
import ClassWeave.Pool.Basic
import ClassWeave.Pool.Constant
import ClassWeave.Pool.Intern
import ClassWeave.Pool.Loadable
import ClassWeave.Proofs.Class.Consuming
import ClassWeave.Proofs.Class.Decoding
import ClassWeave.Proofs.Class.Reachable
import ClassWeave.Proofs.Class.Reading
import ClassWeave.Proofs.Class.Restoring
import ClassWeave.Proofs.Code.Advancing
import ClassWeave.Proofs.Code.Aligning
import ClassWeave.Proofs.Code.Building
import ClassWeave.Proofs.Code.Calls
import ClassWeave.Proofs.Code.Canonical
import ClassWeave.Proofs.Code.Checking
import ClassWeave.Proofs.Code.Covering
import ClassWeave.Proofs.Code.Decoding
import ClassWeave.Proofs.Code.Edges
import ClassWeave.Proofs.Code.Flowing
import ClassWeave.Proofs.Code.FrameTable
import ClassWeave.Proofs.Code.Labelling
import ClassWeave.Proofs.Code.Layout
import ClassWeave.Proofs.Code.Leading
import ClassWeave.Proofs.Code.Marking
import ClassWeave.Proofs.Code.Narrowing
import ClassWeave.Proofs.Code.Occurring
import ClassWeave.Proofs.Code.OffsetFrames
import ClassWeave.Proofs.Code.Offsets
import ClassWeave.Proofs.Code.Operations
import ClassWeave.Proofs.Code.Reading
import ClassWeave.Proofs.Code.Recoding
import ClassWeave.Proofs.Code.Recording
import ClassWeave.Proofs.Code.Refitting
import ClassWeave.Proofs.Code.Repeating
import ClassWeave.Proofs.Code.Rereading
import ClassWeave.Proofs.Code.Resolving
import ClassWeave.Proofs.Code.Restoring
import ClassWeave.Proofs.Code.Rows
import ClassWeave.Proofs.Code.Shrinking
import ClassWeave.Proofs.Code.Soundness
import ClassWeave.Proofs.Code.Spending
import ClassWeave.Proofs.Code.Widening
import ClassWeave.Proofs.Code.Writing
import ClassWeave.Proofs.Code.Written
import ClassWeave.Proofs.Descriptor.Boundaries
import ClassWeave.Proofs.Descriptor.Rendering
import ClassWeave.Proofs.Descriptor.Spelling
import ClassWeave.Proofs.Descriptor.Walker
import ClassWeave.Proofs.Format.Consuming
import ClassWeave.Proofs.Format.Forms
import ClassWeave.Proofs.Format.ModifiedUtf8
import ClassWeave.Proofs.Format.Reading
import ClassWeave.Proofs.Frame.Balancing
import ClassWeave.Proofs.Frame.Compressing
import ClassWeave.Proofs.Frame.Fitting
import ClassWeave.Proofs.Frame.Flow
import ClassWeave.Proofs.Frame.Halving
import ClassWeave.Proofs.Frame.Hierarchy
import ClassWeave.Proofs.Frame.Merging
import ClassWeave.Proofs.Frame.Prescribing
import ClassWeave.Proofs.Frame.Reading
import ClassWeave.Proofs.Frame.Rebuilding
import ClassWeave.Proofs.Frame.Shortening
import ClassWeave.Proofs.Frame.Typing
import ClassWeave.Proofs.Frame.Usable
import ClassWeave.Proofs.Machine.Following
import ClassWeave.Proofs.Machine.Meaning
import ClassWeave.Proofs.Machine.Mirroring
import ClassWeave.Proofs.Machine.Running
import ClassWeave.Proofs.Machine.Shifting
import ClassWeave.Proofs.Machine.Walking
import ClassWeave.Proofs.Patch.Accounting
import ClassWeave.Proofs.Patch.Accumulating
import ClassWeave.Proofs.Patch.Admitting
import ClassWeave.Proofs.Patch.Enveloping
import ClassWeave.Proofs.Patch.Forming
import ClassWeave.Proofs.Patch.Framing
import ClassWeave.Proofs.Patch.Fronting
import ClassWeave.Proofs.Patch.Heights
import ClassWeave.Proofs.Patch.InForce
import ClassWeave.Proofs.Patch.Loading
import ClassWeave.Proofs.Patch.Locating
import ClassWeave.Proofs.Patch.Observing
import ClassWeave.Proofs.Patch.Patched
import ClassWeave.Proofs.Patch.Recognising
import ClassWeave.Proofs.Patch.Redoing
import ClassWeave.Proofs.Patch.Refinding
import ClassWeave.Proofs.Patch.Remaining
import ClassWeave.Proofs.Patch.Replaying
import ClassWeave.Proofs.Patch.Rescuing
import ClassWeave.Proofs.Patch.Rewriting
import ClassWeave.Proofs.Patch.Settling
import ClassWeave.Proofs.Patch.Splicing
import ClassWeave.Proofs.Patch.Wrapping
import ClassWeave.Proofs.Pool.Growth
import ClassWeave.Proofs.Pool.Leaving
import ClassWeave.Proofs.Pool.Reading
import ClassWeave.Proofs.Pool.Requesting
import ClassWeave.Proofs.Pool.Settled
import ClassWeave.Proofs.Rule.Isolating
import ClassWeave.Proofs.Rule.Scheduling
import ClassWeave.Proofs.Rule.Settling
import ClassWeave.Proofs.Script.Attaining
import ClassWeave.Proofs.Script.Bounding
import ClassWeave.Proofs.Script.Branching
import ClassWeave.Proofs.Script.Calling
import ClassWeave.Proofs.Script.Choosing
import ClassWeave.Proofs.Script.Climbing
import ClassWeave.Proofs.Script.Compiled
import ClassWeave.Proofs.Script.Composing
import ClassWeave.Proofs.Script.Computing
import ClassWeave.Proofs.Script.Deciding
import ClassWeave.Proofs.Script.Ending
import ClassWeave.Proofs.Script.Entering
import ClassWeave.Proofs.Script.Evaluating
import ClassWeave.Proofs.Script.Executing
import ClassWeave.Proofs.Script.Flowing
import ClassWeave.Proofs.Script.Guarding
import ClassWeave.Proofs.Script.Hosting
import ClassWeave.Proofs.Script.Leaving
import ClassWeave.Proofs.Script.Meaning
import ClassWeave.Proofs.Script.Numbering
import ClassWeave.Proofs.Script.Preserving
import ClassWeave.Proofs.Script.Refining
import ClassWeave.Proofs.Script.Regions
import ClassWeave.Proofs.Script.Renumbering
import ClassWeave.Proofs.Script.Resting
import ClassWeave.Proofs.Script.Running
import ClassWeave.Proofs.Script.Settling
import ClassWeave.Proofs.Script.Spanning
import ClassWeave.Proofs.Script.Tallying
import ClassWeave.Proofs.Script.Tracking
import ClassWeave.Proofs.Script.Typing
import ClassWeave.Proofs.Steps
import ClassWeave.Rule.Basic
import ClassWeave.Rule.SharedInstance
import ClassWeave.Script.Basic
import ClassWeave.Script.Compile
import ClassWeave.Signature
import ClassWeave.Text.Hex
import ClassWeave.Text.Hidden
import ClassWeave.Text.Quoted
import ClassWeave.Transform
import ClassWeave.Tree.Basic
import ClassWeave.Tree.Error
import ClassWeave.Tree.Insn
import ClassWeave.Tree.Read
import ClassWeave.Tree.Script
import ClassWeave.Tree.Value
