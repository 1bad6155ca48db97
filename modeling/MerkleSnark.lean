import MerkleSnark.Circuit.Board
import MerkleSnark.Circuit.Digest
import MerkleSnark.Circuit.Draft
import MerkleSnark.Circuit.HashGadget
import MerkleSnark.Circuit.RaggedWord
import MerkleSnark.Circuit.Registry
import MerkleSnark.Circuit.Word
import MerkleSnark.Codec.Bits
import MerkleSnark.Codec.Bytes
import MerkleSnark.Codec.Decoder
import MerkleSnark.Codec.Encoder
import MerkleSnark.Codec.Key
import MerkleSnark.Codec.Point
import MerkleSnark.Codec.System
import MerkleSnark.Command.Arguments
import MerkleSnark.Command.Run
import MerkleSnark.Config
import MerkleSnark.Constraint.LinearCombination
import MerkleSnark.Constraint.Operand
import MerkleSnark.Constraint.System
import MerkleSnark.Curve.Bn128
import MerkleSnark.Curve.Coordinate
import MerkleSnark.Curve.FixedBase
import MerkleSnark.Curve.Group
import MerkleSnark.Curve.MultiExp
import MerkleSnark.Curve.Pairing
import MerkleSnark.Curve.Point
import MerkleSnark.Curve.Tower
import MerkleSnark.Disk.Fault
import MerkleSnark.Disk.Operation
import MerkleSnark.Disk.Path
import MerkleSnark.Disk.Replacement
import MerkleSnark.Disk.Volume
import MerkleSnark.Field.Residue
import MerkleSnark.Field.Scalar
import MerkleSnark.Groth16.Key
import MerkleSnark.Groth16.Program
import MerkleSnark.Groth16.Prove
import MerkleSnark.Groth16.Setup
import MerkleSnark.Main
import MerkleSnark.Merkle.Circuit
import MerkleSnark.Merkle.Leaf
import MerkleSnark.Polynomial.Domain
import MerkleSnark.Random.HashStream
import MerkleSnark.Random.Source
import MerkleSnark.Sha256.Compress
import MerkleSnark.Sha256.Constants
import MerkleSnark.Sha256.Digest
import MerkleSnark.Text.Terminal
import MerkleSnark.Workflow.Artifact
import MerkleSnark.Workflow.Backend
import MerkleSnark.Workflow.Error
import MerkleSnark.Workflow.Phase
import MerkleSnark.Proofs.Field.Primality
import MerkleSnark.Proofs.Field.Residue
import MerkleSnark.Proofs.Field.Scalar
import MerkleSnark.Proofs.Polynomial.Coefficients
import MerkleSnark.Proofs.Polynomial.Fourier
import MerkleSnark.Proofs.Polynomial.Domain
import MerkleSnark.Proofs.Constraint.LinearCombination
import MerkleSnark.Proofs.Curve.FixedBase
import MerkleSnark.Proofs.Curve.MultiExp
import MerkleSnark.Proofs.Groth16.Program
import MerkleSnark.Proofs.Groth16.Quotient
import MerkleSnark.Proofs.Curve.Pairing
import MerkleSnark.Proofs.Groth16.Setup
import MerkleSnark.Proofs.Groth16.Prove
import MerkleSnark.Proofs.Groth16.Completeness
import MerkleSnark.Proofs.Circuit.Draft
import MerkleSnark.Proofs.Sha256.Compress
import MerkleSnark.Proofs.Circuit.Word
import MerkleSnark.Proofs.Circuit.Board
import MerkleSnark.Proofs.Circuit.Digest
import MerkleSnark.Proofs.Circuit.Sha256Gadget
import MerkleSnark.Proofs.Circuit.HashGadget
import MerkleSnark.Proofs.Circuit.Assign
import MerkleSnark.Proofs.Circuit.Witness
import MerkleSnark.Proofs.Circuit.Sha256Witness
import MerkleSnark.Proofs.Merkle.Arena
import MerkleSnark.Proofs.Merkle.Soundness
import MerkleSnark.Proofs.Disk.Place
import MerkleSnark.Proofs.Disk.Volume
import MerkleSnark.Proofs.Disk.Fault
import MerkleSnark.Proofs.Disk.Replacement
import MerkleSnark.Proofs.Disk.Passes
import MerkleSnark.Proofs.Disk.Atomicity
import MerkleSnark.Proofs.Codec.Acceptance
import MerkleSnark.Proofs.Codec.Decoder
import MerkleSnark.Proofs.Codec.Format
import MerkleSnark.Proofs.Codec.Recognizer
import MerkleSnark.Proofs.Codec.Hex
import MerkleSnark.Proofs.Codec.Key
import MerkleSnark.Proofs.Circuit.Bit
import MerkleSnark.Proofs.Codec.Bits
import MerkleSnark.Proofs.Codec.Point
import MerkleSnark.Proofs.Codec.System
import MerkleSnark.Proofs.Codec.Writing
import MerkleSnark.Proofs.Codec.Canonical
import MerkleSnark.Proofs.Codec.RoundTrip
import MerkleSnark.Proofs.Constraint.Reduced
import MerkleSnark.Proofs.Curve.Group
import MerkleSnark.Proofs.Curve.Law
import MerkleSnark.Proofs.Curve.Bn128
import MerkleSnark.Proofs.Curve.Affine
import MerkleSnark.Proofs.Field.Coordinate
import MerkleSnark.Proofs.Groth16.Validity
import MerkleSnark.Proofs.Circuit.Checked
import MerkleSnark.Proofs.Circuit.Complete
import MerkleSnark.Proofs.Merkle.Layout
import MerkleSnark.Proofs.Merkle.Prepared
import MerkleSnark.Proofs.Merkle.Witness
import MerkleSnark.Proofs.Circuit.Sha256Complete
import MerkleSnark.Proofs.Disk.Series
import MerkleSnark.Proofs.Groth16.Session
import MerkleSnark.Proofs.Workflow.Circuit
import MerkleSnark.Proofs.Groth16.Evaluation
import MerkleSnark.Proofs.Groth16.Hiding
import MerkleSnark.Proofs.Groth16.Binding
import MerkleSnark.Proofs.Merkle.Binding
import MerkleSnark.Proofs.Circuit.Determined
import MerkleSnark.Proofs.Merkle.Determined
import MerkleSnark.Proofs.Workflow.History
import MerkleSnark.Proofs.Workflow.Phase
import MerkleSnark.Proofs.Workflow.Rules
import MerkleSnark.Proofs.Groth16.Columns
import MerkleSnark.Proofs.Groth16.Reference
import MerkleSnark.Proofs.Groth16.Equation
import MerkleSnark.Proofs.Merkle.Collision
import MerkleSnark.Proofs.Workflow.Verdict
import MerkleSnark.Proofs.Groth16.Loaded
import MerkleSnark.Proofs.Merkle.Ranges
import MerkleSnark.Proofs.Merkle.Shape
import MerkleSnark.Proofs.Constraint.Canonical
import MerkleSnark.Proofs.Circuit.Consistency
import MerkleSnark.Proofs.Groth16.Division
import MerkleSnark.Proofs.Sha256.Refinement
import MerkleSnark.Proofs.Sha256.Standard
import MerkleSnark.Proofs.Sha256.Message
import MerkleSnark.Proofs.Codec.Conversion
import MerkleSnark.Proofs.Curve.Comparison
import MerkleSnark.Proofs.Merkle.Rejection
import MerkleSnark.Proofs.Circuit.Sum
import MerkleSnark.Proofs.Circuit.Folding
import MerkleSnark.Proofs.Circuit.RaggedWord
