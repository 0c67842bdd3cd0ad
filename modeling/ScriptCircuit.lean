import ScriptCircuit.CommandLine
import ScriptCircuit.Field.Inverse
import ScriptCircuit.Field.Lemmas
import ScriptCircuit.Main
import ScriptCircuit.Proofs.Field.Algebra
import ScriptCircuit.Proofs.Plonk.Fill
import ScriptCircuit.Proofs.Plonk.Synthesis
import ScriptCircuit.Proofs.Plonk.Satisfied
import ScriptCircuit.Proofs.Execution.Layout
import ScriptCircuit.Proofs.Execution.Placement
import ScriptCircuit.Proofs.Plonk.Gadget
import ScriptCircuit.Proofs.Execution.Gates
import ScriptCircuit.Proofs.Execution.Region
import ScriptCircuit.Proofs.Execution.Rows
import ScriptCircuit.Proofs.Script.Run
import ScriptCircuit.Proofs.Execution.Refinement
import ScriptCircuit.Proofs.Execution.Assignment
import ScriptCircuit.Proofs.Execution.Honest
import ScriptCircuit.Proofs.Execution.Completeness
import ScriptCircuit.Proofs.Execution.Commitment
import ScriptCircuit.Proofs.Plonk.ByteRange
import ScriptCircuit.Proofs.Bridge.Slots
import ScriptCircuit.Proofs.Bridge.Layout
import ScriptCircuit.Proofs.Circuit.Layout
import ScriptCircuit.Proofs.Bridge.Gates
import ScriptCircuit.Proofs.Bridge.Placement
import ScriptCircuit.Proofs.Bridge.Rows
import ScriptCircuit.Proofs.Bridge.Keys
import ScriptCircuit.Proofs.Script.Instruction
import ScriptCircuit.Proofs.Script.Keys
import ScriptCircuit.Proofs.Script.Binding
import ScriptCircuit.Proofs.Curve.Residue
import ScriptCircuit.Proofs.Curve.Prime
import ScriptCircuit.Proofs.Curve.Group
import ScriptCircuit.Proofs.Curve.Order
import ScriptCircuit.Proofs.Curve.Signature
import ScriptCircuit.Proofs.Plonk.Unique
import ScriptCircuit.Proofs.Bridge.Unique
import ScriptCircuit.Proofs.Bridge.Assignment
import ScriptCircuit.Proofs.Bridge.Honest
import ScriptCircuit.Proofs.Circuit.Slots
import ScriptCircuit.Proofs.Circuit.Completeness
import ScriptCircuit.Proofs.Circuit.Keys
import ScriptCircuit.Proofs.Field.Polynomial
import ScriptCircuit.Proofs.Circuit.PublicValues
import ScriptCircuit.Proofs.Script.Prefix
import ScriptCircuit.Proofs.Script.Truth
import ScriptCircuit.Proofs.Plonk.Schedule
import ScriptCircuit.Proofs.Plonk.Exact
import ScriptCircuit.Proofs.Plonk.Plan
import ScriptCircuit.Proofs.Plonk.Effect
import ScriptCircuit.Proofs.Plonk.OpenRegions
import ScriptCircuit.Proofs.Plonk.Interleaving
import ScriptCircuit.Proofs.Script.Machine
import ScriptCircuit.Proofs.Script.Refusal
import ScriptCircuit.Proofs.Bridge.Acceptance
import ScriptCircuit.Proofs.Bridge.Serial
import ScriptCircuit.Proofs.Plonk.Frame
import ScriptCircuit.Proofs.Plonk.Declaration
import ScriptCircuit.Proofs.Plonk.Session
import ScriptCircuit.Proofs.Plonk.Decomposition
import ScriptCircuit.Proofs.Curve.SerialForm
import ScriptCircuit.Proofs.Field.Residue
import ScriptCircuit.Proofs.Field.Inverse
import ScriptCircuit.Proofs.Plonk.Degree
import ScriptCircuit.Proofs.Plonk.Text
import ScriptCircuit.Proofs.Plonk.Calls
import ScriptCircuit.Proofs.Plonk.Existence
import ScriptCircuit.Proofs.Bytes.Hex
import ScriptCircuit.Proofs.Document.Rows
import ScriptCircuit.Proofs.Plonk.Phases
import ScriptCircuit.Proofs.Document.Format
