import QuorumPaillier.Random.Scripted
import QuorumPaillier.Random.Seed
import QuorumPaillier.Redacted
import QuorumPaillier.System
import QuorumPaillier.Proofs.Random.Uniformity
import QuorumPaillier.Proofs.Key.Generation
import QuorumPaillier.Proofs.Ciphertext.Bijection
import QuorumPaillier.Proofs.Ciphertext.Sum
import QuorumPaillier.Proofs.Quorum.Request
import QuorumPaillier.Proofs.Sharing.Secrecy
import QuorumPaillier.Proofs.System
import QuorumPaillier.Proofs.Refusal
