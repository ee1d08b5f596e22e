import ModbusRtu.Decoder
import ModbusRtu.Proofs.Growth
import ModbusRtu.Proofs.Sweep
import ModbusRtu.Proofs.Arrival
import ModbusRtu.Proofs.Laid
import ModbusRtu.Proofs.Layouts
import ModbusRtu.Proofs.Lawful
import ModbusRtu.Proofs.DeclaredLength
import ModbusRtu.Proofs.Schedule
import ModbusRtu.Proofs.Closing
import ModbusRtu.Proofs.Channel
import ModbusRtu.Proofs.Safety
import ModbusRtu.Proofs.Segments
import ModbusRtu.Proofs.Verdict
import ModbusRtu.Proofs.UnknownFunction
import ModbusRtu.Proofs.RequestForm
import ModbusRtu.Proofs.FieldTable
import ModbusRtu.Proofs.Tiling
import ModbusRtu.Proofs.Promptness
import ModbusRtu.Proofs.Coverage
import ModbusRtu.Proofs.LengthVerdict
import ModbusRtu.Proofs.Separation
import ModbusRtu.Proofs.Operation
import ModbusRtu.Proofs.Oversized
import ModbusRtu.Proofs.ResponseForm
import ModbusRtu.Proofs.Bits
import ModbusRtu.Proofs.Register
import ModbusRtu.Proofs.Burst
import ModbusRtu.Proofs.Flips
import ModbusRtu.Proofs.Independence
import ModbusRtu.Proofs.Extent
import ModbusRtu.Proofs.Ledger
import ModbusRtu.Proofs.Silence
import ModbusRtu.Proofs.Untimed
import ModbusRtu.Proofs.Wording
import ModbusRtu.Proofs.Twins
import ModbusRtu.Proofs.Intact
import ModbusRtu.Proofs.Lossless
import ModbusRtu.Proofs.Truncation
import ModbusRtu.Proofs.Repair
import ModbusRtu.Proofs.Marking
import ModbusRtu.Proofs.Joining
import ModbusRtu.Proofs.Delay
import ModbusRtu.Proofs.Pass
import ModbusRtu.Proofs.Account
import ModbusRtu.Proofs.Fixpoint
