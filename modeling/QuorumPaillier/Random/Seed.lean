import QuorumPaillier.Basic

/-!
# Seeds from entropy

A seed of `b` bits is read from the least number of bytes that hold `b` bits, most significant byte
first; the bits that are too many are the upper ones and are dropped.
-/

namespace QuorumPaillier

open scoped Builtin

/-- The number formed by the `k` bytes from place `i` on of an entropy stream, most significant byte
first.  The bytes are read in halves. -/
def bytesFrom (entropy : Nat → UInt8) (i k : Nat) : Nat :=
  if k = 0 then 0
  else if k = 1 then (entropy i).toNat
  else
    let low := k / 2
    bytesFrom entropy i (k - low) * 2 ^ (8 * low) + bytesFrom entropy (i + (k - low)) low
termination_by k
decreasing_by all_goals omega

/-- A seed of `bits` bits from an entropy stream.  The length is checked as the bytes are counted:
it must not be zero, the count must not leave the machine word, and the seed must not be longer than
a generated number can be. -/
def seedOfEntropy (bits : Nat) (entropy : Nat → UInt8) : Except Error Nat :=
  if bits = 0 then .error (.invalidBitLength bits)
  else if wordBound ≤ bits + 7 then .error (.fault .countOverflow)
  else if bitLengthBound ≤ bits then .error (.invalidBitLength bits)
  else .ok (bytesFrom entropy 0 ((bits + 7) / 8) % 2 ^ bits)

/-- A seed of `b` bits is below `2 ^ b`. -/
theorem seedOfEntropy_lt {bits seed : Nat} {entropy : Nat → UInt8}
    (h : seedOfEntropy bits entropy = .ok seed) : seed < 2 ^ bits := by
  simp only [seedOfEntropy] at h
  repeat' split at h
  all_goals first
    | (obtain rfl := Except.ok.inj h; exact Nat.mod_lt _ (Nat.two_pow_pos _))
    | simp at h

end QuorumPaillier
