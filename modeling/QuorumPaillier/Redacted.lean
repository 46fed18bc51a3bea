import QuorumPaillier.Key
import QuorumPaillier.Random.Source
import QuorumPaillier.Sharing

/-!
# Redacted print

What is printed about an object that holds secrets names its kind and its public parts and leaves
the rest open.
-/

namespace QuorumPaillier

/-- What is printed about an object: its kind, its public parts, and dots for what is kept back. -/
def redactedText (kind : String) (shown : List (String × Nat)) : String :=
  let parts := shown.map fun p => p.1 ++ ": " ++ toString p.2
  kind ++ " \x7b " ++ ", ".intercalate (parts ++ [".."]) ++ " \x7d"

/-- What is printed about a source of random words. -/
def Source.redacted (_ : Source) : String := redactedText "RandomState" []

/-- What is printed about a pair of safe primes. -/
def SafePrimePair.redacted (_ : SafePrimePair) : String := redactedText "SafePrimes" []

/-- What is printed about a private key. -/
def PrivateKey.redacted (sk : PrivateKey) : String :=
  redactedText "PrivateKey" [("w", sk.w), ("l", sk.l)]

/-- What is printed about the share of an authority. -/
def AuthorityShare.redacted (s : AuthorityShare) : String :=
  redactedText "AuthorityShare" [("index", s.index)]

/-- Two private keys with the same threshold look the same in print. -/
theorem PrivateKey.redacted_congr {sk sk' : PrivateKey} (hw : sk.w = sk'.w) (hl : sk.l = sk'.l) :
    sk.redacted = sk'.redacted := by
  simp only [redacted, hw, hl]

/-- A share looks the same in print after its secret has been erased. -/
@[simp] theorem AuthorityShare.redacted_erase (s : AuthorityShare) :
    s.erase.redacted = s.redacted := rfl

end QuorumPaillier
