import EntityRpc.Proofs.Admission
import EntityRpc.Proofs.BlockKinds
import EntityRpc.Proofs.BlockRoundTrip
import EntityRpc.Proofs.Canonical
import EntityRpc.Proofs.Concatenation
import EntityRpc.Proofs.Conservation
import EntityRpc.Proofs.Delivery
import EntityRpc.Proofs.EnvelopeReading
import EntityRpc.Proofs.Height
import EntityRpc.Proofs.History
import EntityRpc.Proofs.Independence
import EntityRpc.Proofs.IndexedStore
import EntityRpc.Proofs.Injectivity
import EntityRpc.Proofs.Machine
import EntityRpc.Proofs.Normalisation
import EntityRpc.Proofs.Outcome
import EntityRpc.Proofs.Refusals
import EntityRpc.Proofs.StrictReading
import EntityRpc.Proofs.Transcript
import EntityRpc.Proofs.Truncation
import EntityRpc.Proofs.UnknownEntries
import EntityRpc.Proofs.WiderLimits
import EntityRpc.Proofs.Additions
import EntityRpc.Proofs.Reports
import EntityRpc.Proofs.VarintReading
import EntityRpc.Proofs.VarintWriting
