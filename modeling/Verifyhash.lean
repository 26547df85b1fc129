import Verifyhash.Cli.Theorems.Dataset
import Verifyhash.Cli.Theorems.Drift
import Verifyhash.Coverage.Theorems.Parse
import Verifyhash.Einvoice.Theorems.Iban
import Verifyhash.Einvoice.Theorems.InsertionPoint
import Verifyhash.Einvoice.Theorems.SyntaxBinding
import Verifyhash.Hash.Theorems.VendoredSha256
import Verifyhash.License.Theorems.PriceBinding
import Verifyhash.License.Theorems.Verify
import Verifyhash.Intake.Theorems.Event
import Verifyhash.Intake.Theorems.Signature
import Verifyhash.Intake.Theorems.StrictJson
import Verifyhash.Journal.Theorems.Binding
import Verifyhash.Journal.Theorems.Consistency
import Verifyhash.Journal.Theorems.Inclusion
import Verifyhash.Registry.Theorems.FrontRunning
import Verifyhash.Registry.Theorems.Lineage
import Verifyhash.Registry.Theorems.Reputation
import Verifyhash.Session.Theorems.Commit
import Verifyhash.Session.Theorems.Localize
import Verifyhash.Session.Theorems.Transcript
import Verifyhash.Trust.Theorems.Order
import Verifyhash.Trust.Theorems.Revocation
import Verifyhash.Trustledger.Theorems.Amounts
import Verifyhash.Trustledger.Theorems.Balances
import Verifyhash.Trustledger.Theorems.Close
import Verifyhash.Trustledger.Theorems.Conservation
import Verifyhash.Trustledger.Theorems.Dates
import Verifyhash.Trustledger.Theorems.Diagnose
import Verifyhash.Trustledger.Theorems.Ingest
import Verifyhash.Trustledger.Theorems.Match
import Verifyhash.Trustledger.Theorems.OwnerDraws
import Verifyhash.Trustledger.Theorems.Permutation
import Verifyhash.Trustledger.Theorems.Report
import Verifyhash.Verifier.Theorems.Recovery
import Verifyhash.Verifier.Theorems.SealEvidence
import Verifyhash.Verifier.Theorems.Signers
import Verifyhash.Trust.Theorems.Instants
import Verifyhash.Timestamp.Theorems.Oid
import Verifyhash.Timestamp.Theorems.Time
import Verifyhash.Timestamp.Theorems.Token
import Verifyhash.VerifierRs.Theorems.Field
import Verifyhash.VerifierRs.Theorems.Json
import Verifyhash.VerifierRs.Theorems.Recovery
import Verifyhash.VerifierRs.Theorems.Verify
import Verifyhash.Trustledger.Theorems.Policy
import Verifyhash.Session.Theorems.Injectivity
import Verifyhash.Trustledger.Theorems.MatchOrder
