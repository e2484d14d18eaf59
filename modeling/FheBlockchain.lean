import FheBlockchain.Computer.AstBuild
import FheBlockchain.Computer.Shunting
import FheBlockchain.Computer.Acceptance
import FheBlockchain.Computer.AstDepth
import FheBlockchain.Computer.Leveling
import FheBlockchain.Computer.PaddedShape
import FheBlockchain.Computer.PublicInputs
import FheBlockchain.Computer.Products
import FheBlockchain.Chain.Proofs
import FheBlockchain.Core.Base64
import FheBlockchain.Core.Signatures
import FheBlockchain.Store.PoolConflicts
import FheBlockchain.Store.PoolAssertions
import FheBlockchain.Store.RewindRuns
import FheBlockchain.Store.PaymentViews
import FheBlockchain.Core.SigningValid
import FheBlockchain.Net.FrameReading
import FheBlockchain.Net.Interleaving
import FheBlockchain.Net.PeerMaps
import FheBlockchain.Chain.Removals
import FheBlockchain.Chain.Supply
import FheBlockchain.Chain.DoubleSpend
import FheBlockchain.Chain.Replay
import FheBlockchain.Chain.WellFormed
import FheBlockchain.Chain.Commitments
import FheBlockchain.Chain.HeaderCommitment
import FheBlockchain.Chain.MerkleBinding
import FheBlockchain.Chain.HeaderEncoding
import FheBlockchain.Chain.Rechecks
import FheBlockchain.Chain.Retargeting
import FheBlockchain.Chain.Delivery
import FheBlockchain.Chain.Decoding
import FheBlockchain.Chain.Verdicts
import FheBlockchain.Chain.HandIn
import FheBlockchain.Chain.Heaviest
import FheBlockchain.Chain.Rollback
import FheBlockchain.Chain.Anchors
import FheBlockchain.Chain.WalletCoins
import FheBlockchain.Chain.Sync
import FheBlockchain.Chain.Serving
import FheBlockchain.Chain.Replicas
import FheBlockchain.Chain.CatchUp
import FheBlockchain.Chain.PoolGossip
import FheBlockchain.Chain.Admission
