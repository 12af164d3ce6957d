import Transact.Ledger.Lemmas
import Transact.Session
import Transact.Proofs.Announcement
import Transact.Proofs.Arithmetic
import Transact.Proofs.Batches
import Transact.Proofs.CallDepth
import Transact.Proofs.Checkpoints
import Transact.Proofs.Conditions
import Transact.Proofs.Deposits
import Transact.Proofs.Effects
import Transact.Proofs.Fees
import Transact.Proofs.Flattening
import Transact.Proofs.Footprint
import Transact.Proofs.Funding
import Transact.Proofs.Gas
import Transact.Proofs.Lifecycle
import Transact.Proofs.Nonces
import Transact.Proofs.Paths
import Transact.Proofs.Presence
import Transact.Proofs.Scripts
import Transact.Proofs.Settling
import Transact.Proofs.Surroundings
import Transact.Proofs.Tracing
import Transact.Proofs.WholeStates
import Transact.Proofs.AtRest
import Transact.Proofs.Payments
import Transact.Proofs.Condemned
import Transact.Proofs.Replaying
import Transact.Proofs.Placement
