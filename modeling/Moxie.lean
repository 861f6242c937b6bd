import Moxie.Text.Hex
import Moxie.Word.Width
import Moxie.Word.LittleEndian
import Moxie.Isa.Register
import Moxie.Isa.Opcode
import Moxie.Isa.Instruction
import Moxie.Isa.Listing
import Moxie.Isa.Assembly
import Moxie.Memory.ByteRow
import Moxie.Memory.Basic
import Moxie.Memory.Image
import Moxie.Paging.Access
import Moxie.Paging.PageTable
import Moxie.Paging.Mapping
import Moxie.Paging.Tlb
import Moxie.Paging.Mmu
import Moxie.Paging.Virtual
import Moxie.Machine.Arithmetic
import Moxie.Machine.Registers
import Moxie.Machine.Fault
import Moxie.Machine.Bus
import Moxie.Machine.Event
import Moxie.Machine.Histogram
import Moxie.Machine.Action
import Moxie.Machine.Semantics
import Moxie.Machine.Run
import Moxie.Proofs.Word.Bits
import Moxie.Proofs.Word.Signed
import Moxie.Proofs.Word.LittleEndian
import Moxie.Proofs.Counting
import Moxie.Proofs.Memory.Window
import Moxie.Proofs.Memory.Access
import Moxie.Proofs.Memory.Loading
import Moxie.Proofs.Memory.ByteMap
import Moxie.Proofs.Isa.Encoding
import Moxie.Proofs.Isa.Program
import Moxie.Proofs.Isa.Listing
import Moxie.Proofs.Paging.Walk
import Moxie.Proofs.Paging.Entries
import Moxie.Proofs.Paging.Lookaside
import Moxie.Proofs.Paging.Layout
import Moxie.Proofs.Paging.Residency
import Moxie.Proofs.Machine.Steps
import Moxie.Proofs.Machine.Arithmetic
import Moxie.Proofs.Machine.Effects
import Moxie.Proofs.Machine.Outcome
import Moxie.Proofs.Machine.Batches
import Moxie.Proofs.Machine.Simulation
import Moxie.Proofs.Machine.Stores
import Moxie.Proofs.Machine.Execution
import Moxie.Proofs.Machine.Tracing
import Moxie.Proofs.Machine.Faults
import Moxie.Proofs.Machine.Histogram
import Moxie.Proofs.Machine.Ranking
import Moxie.Proofs.Machine.Bare
import Moxie.Proofs.Machine.Addressing
import Moxie.Proofs.Machine.Stack
import Moxie.Proofs.Machine.Hazards
import Moxie.Proofs.Machine.Aftermath
import Moxie.Proofs.Machine.Frames
import Moxie.Proofs.Machine.Inline
import Moxie.Proofs.Machine.TopBit
import Moxie.Proofs.Machine.Pace
import Moxie.Proofs.Machine.Comparisons
import Moxie.Proofs.Machine.Footprint
import Moxie.Proofs.Machine.Pointer
import Moxie.Proofs.Machine.Listed
import Moxie.Proofs.Machine.Lines
import Moxie.Proofs.Programs.Sum
import Moxie.Proofs.Paging.Walked
import Moxie.Proofs.Paging.History
import Moxie.Proofs.Paging.Accounting
import Moxie.Proofs.Paging.Slots
import Moxie.Proofs.Paging.Transparency
import Moxie.Proofs.Paging.Identity
import Moxie.Proofs.Paging.Protection
import Moxie.Proofs.Paging.Secrecy
import Moxie.Proofs.Paging.Retry
import Moxie.Proofs.Paging.ReadBack
import Moxie.Proofs.Paging.Containment
