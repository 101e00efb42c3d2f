import FieldUpdate.Bus
import FieldUpdate.Proofs.Redirect
import FieldUpdate.Proofs.Recovery
import FieldUpdate.Proofs.Update
import FieldUpdate.Proofs.Dispatch
import FieldUpdate.Proofs.Demands
import FieldUpdate.Proofs.Replies
import FieldUpdate.Proofs.Blocks
import FieldUpdate.Proofs.Journal
import FieldUpdate.Proofs.Reserved
import FieldUpdate.Proofs.Entry
import FieldUpdate.Proofs.Reentry
import FieldUpdate.Proofs.Refusals
import FieldUpdate.Proofs.Erases
import FieldUpdate.Proofs.Resend
import FieldUpdate.Proofs.Lockstep
import FieldUpdate.Proofs.HiddenRedirect
import FieldUpdate.Proofs.Traffic
import FieldUpdate.Proofs.Calls
import FieldUpdate.Proofs.Turns
import FieldUpdate.Proofs.BusService
import FieldUpdate.Proofs.Addressing
import FieldUpdate.Proofs.Crashes
import FieldUpdate.Proofs.FlashErrors
import FieldUpdate.Proofs.Discipline
import FieldUpdate.Proofs.Splitting
import FieldUpdate.Proofs.Settled
import FieldUpdate.Proofs.Retransmission
import FieldUpdate.Proofs.EraseMinimum
import FieldUpdate.Proofs.StaleBytes
import FieldUpdate.Proofs.WholeImage
import FieldUpdate.Proofs.Corruption
import FieldUpdate.Proofs.BlockFaults
import FieldUpdate.Proofs.Stimuli
import FieldUpdate.Proofs.Waiting
import FieldUpdate.Proofs.Pace
import FieldUpdate.Proofs.ChildSelects
