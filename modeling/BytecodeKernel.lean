import BytecodeKernel.Assembly.Source
import BytecodeKernel.Boot.Loader
import BytecodeKernel.Bytes.Record
import BytecodeKernel.Hash.Sha256
import BytecodeKernel.Kernel.Threads
import BytecodeKernel.Machine.Recorder
import BytecodeKernel.Machine.Workspace
import BytecodeKernel.Proofs.Memory.Soundness
import BytecodeKernel.Proofs.Memory.Tables
import BytecodeKernel.Proofs.Schedule.Starvation
import BytecodeKernel.Proofs.Memory.Partition
import BytecodeKernel.Proofs.Memory.Ownership
import BytecodeKernel.Proofs.Memory.Tenancy
import BytecodeKernel.Proofs.Machine.Stacks
import BytecodeKernel.Proofs.Machine.Runs
import BytecodeKernel.Proofs.Machine.Holdings
import BytecodeKernel.Proofs.Machine.Workspaces
import BytecodeKernel.Proofs.Machine.Clients
import BytecodeKernel.Proofs.Machine.Sessions
import BytecodeKernel.Proofs.Machine.Isolation
import BytecodeKernel.Proofs.Kernel.Registry
import BytecodeKernel.Proofs.Kernel.Creation
import BytecodeKernel.Proofs.Kernel.Invariants
import BytecodeKernel.Proofs.Kernel.Operations
import BytecodeKernel.Proofs.Kernel.Histories
import BytecodeKernel.Proofs.Kernel.Requests
import BytecodeKernel.Proofs.Machine.Contexts
import BytecodeKernel.Proofs.Kernel.Accounts
import BytecodeKernel.Proofs.Kernel.Housing
import BytecodeKernel.Proofs.Kernel.Leases
import BytecodeKernel.Proofs.Kernel.Rollbacks
import BytecodeKernel.Proofs.Kernel.Teardown
import BytecodeKernel.Proofs.Kernel.Reachable
import BytecodeKernel.Proofs.Kernel.Audit
import BytecodeKernel.Proofs.Machine.Transcripts
import BytecodeKernel.Proofs.Machine.Contents
import BytecodeKernel.Proofs.Kernel.Credits
import BytecodeKernel.Proofs.Kernel.Containment
import BytecodeKernel.Proofs.Kernel.Subtrees
import BytecodeKernel.Proofs.Machine.Operands
import BytecodeKernel.Proofs.Memory.Ends
import BytecodeKernel.Proofs.Machine.Shelves
import BytecodeKernel.Proofs.Machine.Ideal
import BytecodeKernel.Proofs.Machine.Simulation
import BytecodeKernel.Proofs.Machine.Refinement
import BytecodeKernel.Proofs.Machine.Piles
import BytecodeKernel.Proofs.Machine.Budgets
import BytecodeKernel.Proofs.Machine.Voices
import BytecodeKernel.Proofs.Kernel.Stints
import BytecodeKernel.Proofs.Kernel.Solos
import BytecodeKernel.Proofs.Kernel.Residents
import BytecodeKernel.Proofs.Kernel.Schedules
import BytecodeKernel.Proofs.Machine.Quanta
import BytecodeKernel.Proofs.Program.Disassembly
import BytecodeKernel.Proofs.Program.Patching
import BytecodeKernel.Proofs.Machine.Decoding
import BytecodeKernel.Proofs.Machine.Boundaries
import BytecodeKernel.Proofs.Assembly.Reading
import BytecodeKernel.Proofs.Kernel.Reassignments
import BytecodeKernel.Proofs.Kernel.Rounds
import BytecodeKernel.Proofs.Kernel.Waiting
import BytecodeKernel.Proofs.Storage.Mapping
import BytecodeKernel.Proofs.Storage.Streams
import BytecodeKernel.Proofs.Machine.ListStacks
import BytecodeKernel.Proofs.Machine.HeapDealings
import BytecodeKernel.Proofs.Machine.Literals
import BytecodeKernel.Proofs.Machine.Upkeep
import BytecodeKernel.Proofs.Machine.Breaches
import BytecodeKernel.Proofs.Memory.Gaps
import BytecodeKernel.Proofs.Memory.Allocation
import BytecodeKernel.Proofs.Memory.Reservation
import BytecodeKernel.Proofs.Memory.Concatenation
import BytecodeKernel.Proofs.Machine.Resizing
import BytecodeKernel.Proofs.Assembly.Labels
import BytecodeKernel.Proofs.Assembly.Numerals
import BytecodeKernel.Proofs.Kernel.Identities
import BytecodeKernel.Proofs.Kernel.Provision
import BytecodeKernel.Proofs.Kernel.Portions
import BytecodeKernel.Proofs.Kernel.Balance
import BytecodeKernel.Proofs.Kernel.Idleness
import BytecodeKernel.Proofs.Kernel.Shutdown
import BytecodeKernel.Proofs.Kernel.Pauses
import BytecodeKernel.Proofs.Kernel.Legs
import BytecodeKernel.Proofs.Kernel.Lifetimes
import BytecodeKernel.Proofs.Schedule.CloseCycles
import BytecodeKernel.Proofs.Storage.Failures
import BytecodeKernel.Proofs.Machine.Turns
import BytecodeKernel.Proofs.Boot.Startup
import BytecodeKernel.Proofs.Kernel.Allotments
