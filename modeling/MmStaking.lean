import MmStaking.Lib.Words
import MmStaking.Lib.Loops
import MmStaking.Lib.Runs
import MmStaking.Lib.Stream
import MmStaking.Lib.Book
import MmStaking.Lib.Accounting
import MmStaking.Lib.Repeated
import MmStaking.Lib.ProRata
import MmStaking.Lib.Claimable
import MmStaking.Lib.Commute
import MmStaking.Lib.Division
import MmStaking.Lib.Custody
import MmStaking.Lib.Families
import MmStaking.Program.State
import MmStaking.Program.Math
import MmStaking.Program.Update
import MmStaking.Program.Logic
import MmStaking.Program.System
import MmStaking.Program.Claim
import MmStaking.Program.Accounts
import MmStaking.Program.Handlers
import MmStaking.Program.Chain
import MmStaking.Refine.Arithmetic
import MmStaking.Refine.Settlement
import MmStaking.Refine.Update
import MmStaking.Refine.Failures
import MmStaking.Refine.Calls
import MmStaking.Refine.Terms
import MmStaking.Refine.Acts
import MmStaking.Refine.Simulation
import MmStaking.Refine.Invariant
import MmStaking.Refine.Charges
import MmStaking.Refine.Batch
import MmStaking.Refine.Packed
import MmStaking.Refine.Claims
import MmStaking.Refine.Solo
import MmStaking.Refine.Local
import MmStaking.Refine.Twins
import MmStaking.Refine.Handlers
import MmStaking.Refine.Refusals
import MmStaking.Refine.Tokens
import MmStaking.Refine.Placed
import MmStaking.Refine.Flows
import MmStaking.Refine.Vaults
import MmStaking.Refine.Pools
import MmStaking.Refine.Chain
import MmStaking.Refine.Wealth
import MmStaking.Properties.Solvency
import MmStaking.Properties.Principal
import MmStaking.Properties.Exit
import MmStaking.Properties.Settling
import MmStaking.Properties.Durations
import MmStaking.Properties.Idle
import MmStaking.Properties.Rounding
import MmStaking.Properties.ProRata
import MmStaking.Properties.Leakage
import MmStaking.Properties.Protection
import MmStaking.Properties.Order
import MmStaking.Properties.Registry
import MmStaking.Properties.Deposits
import MmStaking.Properties.Claims
import MmStaking.Properties.Fresh
import MmStaking.Properties.Independence
import MmStaking.Properties.Splitting
import MmStaking.Properties.Pools
import MmStaking.Properties.Isolation
import MmStaking.Properties.Custody
import MmStaking.Properties.Backing
import MmStaking.Properties.Redemption
import MmStaking.Properties.Payout
import MmStaking.Properties.Wealth
import MmStaking.Properties.Authority
import MmStaking.Properties.Closing
import MmStaking.Properties.Distribution
import MmStaking.Properties.Entitlement
import MmStaking.Properties.Openings
import MmStaking.Properties.Acceptance
import MmStaking.Properties.Faults
