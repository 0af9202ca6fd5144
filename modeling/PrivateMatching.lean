import PrivateMatching.Context
import PrivateMatching.Exchange
import PrivateMatching.Message.Cbor
import PrivateMatching.P256.Suite
import PrivateMatching.Proofs.Action
import PrivateMatching.Proofs.Context
import PrivateMatching.Proofs.Exchange
import PrivateMatching.Proofs.Exponent
import PrivateMatching.Proofs.Fields
import PrivateMatching.Proofs.Generation
import PrivateMatching.Proofs.Inverse
import PrivateMatching.Proofs.Loading
import PrivateMatching.Proofs.Message
import PrivateMatching.Proofs.P256.Format
import PrivateMatching.Proofs.Preimage
import PrivateMatching.Proofs.QuadraticResidue.Hash
import PrivateMatching.Proofs.QuadraticResidue.Words
import PrivateMatching.Proofs.Reachable
import PrivateMatching.Proofs.Ristretto.Canonical
import PrivateMatching.Proofs.Secrecy
import PrivateMatching.Proofs.Splitting
import PrivateMatching.Proofs.Transform
import PrivateMatching.Proofs.Workbench
import PrivateMatching.QuadraticResidue.Suite
import PrivateMatching.Ristretto.Suite
import PrivateMatching.Workbench
