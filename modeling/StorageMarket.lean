import StorageMarket.Bank.Receipt
import StorageMarket.Market.Block
import StorageMarket.Market.Request.Handling
import StorageMarket.Overview.Parties
import StorageMarket.Proofs.Atomicity
import StorageMarket.Proofs.Backing
import StorageMarket.Proofs.Conservation
import StorageMarket.Proofs.Finality
import StorageMarket.Proofs.Ownership
import StorageMarket.Proofs.Pruning
import StorageMarket.Proofs.Solvency
import StorageMarket.Report.Codec
import StorageMarket.Proofs.Binding
import StorageMarket.Proofs.Numbering
import StorageMarket.Proofs.BlockEnd
import StorageMarket.Proofs.Mirror
import StorageMarket.Proofs.Legible
import StorageMarket.Proofs.Settling
import StorageMarket.Proofs.StakeFloor
import StorageMarket.Proofs.Store.Refinement
import StorageMarket.Proofs.Sweeping
import StorageMarket.Proofs.Accrual
import StorageMarket.Proofs.Store.Nesting
import StorageMarket.Proofs.Store.Survival
import StorageMarket.Proofs.Supply
import StorageMarket.Proofs.Stranding
import StorageMarket.Proofs.Reporting
import StorageMarket.Proofs.Passes
import StorageMarket.Proofs.Ending
import StorageMarket.Proofs.Botched
import StorageMarket.Proofs.EmptyStakes
import StorageMarket.Proofs.EscrowFloor
import StorageMarket.Proofs.Selection
import StorageMarket.Proofs.Isolation
import StorageMarket.Proofs.AuditTrail
import StorageMarket.Proofs.Entitlement
import StorageMarket.Proofs.LeastEscrow
import StorageMarket.Proofs.Account.Address
import StorageMarket.Proofs.Text.Decimal
import StorageMarket.Proofs.Text.Coin
import StorageMarket.Proofs.Spread
import StorageMarket.Proofs.Params
import StorageMarket.Proofs.Store.Prefixes
import StorageMarket.Proofs.Holders
import StorageMarket.Proofs.Trends
