import EthStateDiff.Lib.Machine
import EthStateDiff.Lib.Bytes
import EthStateDiff.Lib.Overwrite
import EthStateDiff.Lib.Runs
import EthStateDiff.Lib.Replay
import EthStateDiff.Lib.Overlap
import EthStateDiff.Lib.Cells
import EthStateDiff.Lib.Tally
import EthStateDiff.Lib.Leaves
import EthStateDiff.Lib.Checks
import EthStateDiff.Lib.Views
import EthStateDiff.Lib.Changes
import EthStateDiff.Lib.Lockstep
import EthStateDiff.Types
import EthStateDiff.Tags
import EthStateDiff.Varint
import EthStateDiff.Balances
import EthStateDiff.BalancesProofs
import EthStateDiff.Modes
import EthStateDiff.Rings
import EthStateDiff.ByteLists
import EthStateDiff.QueueProofs
import EthStateDiff.SparseLists
import EthStateDiff.Validators
import EthStateDiff.Registry
import EthStateDiff.PatchProofs
import EthStateDiff.RegistryProofs
import EthStateDiff.BeaconState
import EthStateDiff.Contract
import EthStateDiff.Errors
import EthStateDiff.Creation
import EthStateDiff.Chain
import EthStateDiff.Links
import EthStateDiff.Thinning
import EthStateDiff.Builds
import EthStateDiff.Targets
import EthStateDiff.Frames
import EthStateDiff.Footprints
import EthStateDiff.Least
import EthStateDiff.Accepts
import EthStateDiff.Queues
import EthStateDiff.Damage
