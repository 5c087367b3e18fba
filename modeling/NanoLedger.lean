import NanoLedger.Ledger.FileTree
import NanoLedger.Main
import NanoLedger.Proofs.Addresses
import NanoLedger.Proofs.Balances
import NanoLedger.Proofs.BitGroups
import NanoLedger.Proofs.BlockFormat
import NanoLedger.Proofs.BoundedOutput
import NanoLedger.Proofs.ChainBalance
import NanoLedger.Proofs.CommandRun
import NanoLedger.Proofs.CommonFields
import NanoLedger.Proofs.Confirmation
import NanoLedger.Proofs.Draining
import NanoLedger.Proofs.Enriching
import NanoLedger.Proofs.Failures
import NanoLedger.Proofs.FiniteMaps
import NanoLedger.Proofs.HexKeys
import NanoLedger.Proofs.HexText
import NanoLedger.Proofs.History
import NanoLedger.Proofs.InMemory
import NanoLedger.Proofs.Interleaving
import NanoLedger.Proofs.JsonText
import NanoLedger.Proofs.Locality
import NanoLedger.Proofs.Paging
import NanoLedger.Proofs.PayloadEnds
import NanoLedger.Proofs.PeerTexts
import NanoLedger.Proofs.Placement
import NanoLedger.Proofs.Queries
import NanoLedger.Proofs.RangePasses
import NanoLedger.Proofs.Readings
import NanoLedger.Proofs.RecordFormats
import NanoLedger.Proofs.RecordLengths
import NanoLedger.Proofs.RecordText
import NanoLedger.Proofs.SchemaVersion
import NanoLedger.Proofs.SingleOutput
import NanoLedger.Proofs.SymbolTexts
import NanoLedger.Proofs.TextBytes
import NanoLedger.Proofs.Visits
