import QuorumPaillier.Key
import QuorumPaillier.Quorum
import QuorumPaillier.Sharing

/-!
# Threshold systems

A threshold system is a public key and one share for each authority.  The private key is used up in
setting it up: what remains of it is spread over the shares.
-/

namespace QuorumPaillier

/-- A public key and the shares of its authorities. -/
structure ThresholdSystem where
  /-- The public key. -/
  publicKey : PublicKey
  /-- The shares, in the order of the authorities. -/
  shares : List AuthorityShare
  deriving DecidableEq

namespace ThresholdSystem

/-- The system in which a private key is dealt under a public key. -/
def ofKeyPair (k : KeyPair) : Draw ThresholdSystem := do
  let shares ← k.privateKey.deal
  return ⟨k.publicKey, shares⟩

/-- A system with a generated key. -/
def generate (isPrime : Nat → Bool) (c : KeyParameters) : Draw ThresholdSystem := do
  let k ← c.generate isPrime
  ofKeyPair k

/-- The partial decryption by the authority at a position. -/
def partialDecryptAt (t : ThresholdSystem) (c : Int) (position : Nat) :
    Except Error PartialDecryption := do
  let index ← nextCount position
  match t.shares[position]? with
  | some s => s.decrypt t.publicKey c
  | none => throw (.indexOutOfRange index t.shares.length)

/-- The partial decryptions by the authorities at the positions, in their order; the first failure
is the answer. -/
def partialDecrypt (t : ThresholdSystem) (positions : List Nat) (c : Int) :
    Except Error (List PartialDecryption) :=
  positions.mapM (t.partialDecryptAt c)

@[simp] theorem partialDecrypt_nil (t : ThresholdSystem) (c : Int) :
    t.partialDecrypt [] c = .ok [] := rfl

end ThresholdSystem

end QuorumPaillier
