/-!
# Failures and limits

Every operation of the library either answers or names one cause of failure.  A cause is data: it
carries the numbers that belong to it and no text.  The wording is in `Error.message` alone, so that
two failures are equal exactly when their causes are.

Values are unbounded integers, but counts are 64-bit words: the number of authorities, their
indices, bit lengths.  Three bounds follow from this, and passing one of them is an error or a
fault.

## Main definitions

* `Error`, `Error.message` — a cause of failure, and its wording.
* `wordBound`, `bitLengthBound`, `slotBound`, `nextCount` — the bounds, and the successor of a
  count.
-/

namespace QuorumPaillier

namespace Builtin

/-- Powers of numbers are the built-in ones where this is opened, whatever algebra is loaded. -/
scoped instance natPow : Pow Nat Nat := instPowNat

end Builtin

open scoped Builtin

/-! ### The finer causes -/

/-- What is wrong with two integers offered as the secret primes of a key, in the order in which
the defects are looked for. -/
inductive PrimeDefect where
  /-- One of the two is even. -/
  | even
  /-- One of the two is not a prime. -/
  | composite
  /-- One of the two halves `(p - 1) / 2`, `(q - 1) / 2` is not a prime. -/
  | compositeHalf
  /-- The two are the same. -/
  | equal
  /-- One of the two is the half of the other, so the modulus and the product of the halves share
  a factor. -/
  | sharedFactor
  deriving DecidableEq, Repr, Inhabited

/-- Why an integer cannot be a ciphertext. -/
inductive CiphertextDefect where
  /-- It is zero or negative. -/
  | notPositive
  /-- It is not below the square of the modulus. -/
  | tooLarge
  deriving DecidableEq, Repr, Inhabited

/-- A broken precondition of a building block. -/
inductive Violation where
  /-- A group of units was asked for modulo a number below two. -/
  | groupModulusTooSmall
  /-- A sample was asked for from an empty range. -/
  | emptyRange
  /-- A congruence was posed with a modulus that is not positive. -/
  | modulusNotPositive
  /-- Two congruences were posed with moduli that share a factor. -/
  | moduliNotCoprime
  /-- A public key was asked for with a modulus of two or less. -/
  | publicModulusTooSmall
  deriving DecidableEq, Repr, Inhabited

/-- A computation without a value. -/
inductive Fault where
  /-- A division or a reduction by zero. -/
  | divisionByZero
  /-- A count that leaves the range of a 64-bit word. -/
  | countOverflow
  /-- A power with a negative exponent. -/
  | negativeExponent
  deriving DecidableEq, Repr, Inhabited

/-! ### Causes of failure -/

/-- A cause of failure. -/
inductive Error where
  /-- There is no room for one verification slot per authority. -/
  | noRoomForSlots (l : Nat)
  /-- The threshold `w` is zero, exceeds the number `l` of authorities, or is no majority where one
  was asked for. -/
  | invalidThreshold (w l : Nat)
  /-- A bit length is out of range. -/
  | invalidBitLength (bits : Nat)
  /-- A search for primes used up its attempts. -/
  | primesNotFound (attempts : Nat)
  /-- Two integers cannot be the secret primes of a key. -/
  | invalidPrimes (defect : PrimeDefect)
  /-- An integer cannot be a ciphertext. -/
  | invalidCiphertext (defect : CiphertextDefect)
  /-- The randomness of an encryption is not a unit below the modulus. -/
  | invalidRandomness
  /-- A sum of no ciphertexts was asked for. -/
  | noCiphertexts
  /-- An authority index is not among `1, …, l`. -/
  | indexOutOfRange (index l : Nat)
  /-- An authority index occurs twice. -/
  | repeatedIndex (index : Nat)
  /-- Fewer shares than the threshold are present. -/
  | insufficientShares (provided required : Nat)
  /-- A list with one slot per authority has the wrong length. -/
  | wrongSlotCount (expected actual : Nat)
  /-- A partial decryption has to be inverted and is not a unit. -/
  | shareNotInvertible (index : Nat)
  /-- The factor `4 · (l!)²` cannot be divided out modulo `n`. -/
  | normalizerNotInvertible
  /-- A building block was called outside its domain. -/
  | violation (cause : Violation)
  /-- A computation has no value. -/
  | fault (cause : Fault)
  /-- As many numbers as the source has patience for were sampled, and none of them was a unit. -/
  | drawsExhausted
  deriving DecidableEq, Repr, Inhabited

/-! ### Wording -/

/-- The wording of a defect of primes. -/
def PrimeDefect.message : PrimeDefect → String
  | .even => "primes must be odd"
  | .composite => "p and q must be prime"
  | .compositeHalf => "(p - 1) / 2 and (q - 1) / 2 must be prime"
  | .equal => "p and q must be distinct"
  | .sharedFactor => "n and p'q' must be coprime"

/-- The wording of a defect of a ciphertext. -/
def CiphertextDefect.message : CiphertextDefect → String
  | .notPositive => "ciphertext must be positive"
  | .tooLarge => "ciphertext must be below n^2"

/-- The wording of a broken precondition. -/
def Violation.message : Violation → String
  | .groupModulusTooSmall => "multiplicative group modulus must exceed 1"
  | .emptyRange => "sampling bound must be positive"
  | .modulusNotPositive => "CRT moduli must be positive"
  | .moduliNotCoprime => "CRT moduli are not coprime"
  | .publicModulusTooSmall => "public modulus must exceed 2"

/-- The wording of a fault. -/
def Fault.message : Fault → String
  | .divisionByZero => "division by zero"
  | .countOverflow => "count out of range"
  | .negativeExponent => "negative exponent"

/-- The wording of a cause of failure. -/
def Error.message : Error → String
  | .noRoomForSlots l => s!"allocation failed: {l} slots"
  | .invalidThreshold w l => s!"invalid threshold: w = {w}, l = {l}"
  | .invalidBitLength bits => s!"invalid bit length: {bits}"
  | .primesNotFound attempts => s!"safe prime search exhausted after {attempts} attempts"
  | .invalidPrimes defect => s!"invalid safe primes: {defect.message}"
  | .invalidCiphertext defect => s!"invalid ciphertext: {defect.message}"
  | .invalidRandomness => "randomness is not a unit modulo n"
  | .noCiphertexts => "empty ciphertext list"
  | .indexOutOfRange index l => s!"share index {index} out of range 1..={l}"
  | .repeatedIndex index => s!"repeated share index: {index}"
  | .insufficientShares provided required =>
      s!"insufficient shares: got {provided}, need {required}"
  | .wrongSlotCount expected actual => s!"expected {expected} share slots, got {actual}"
  | .shareNotInvertible index =>
      s!"partial share of authority {index} is not invertible modulo n^2"
  | .normalizerNotInvertible => "4 * delta^2 is not invertible modulo n"
  | .violation cause => s!"internal error: {cause.message}"
  | .fault cause => cause.message
  | .drawsExhausted => "no acceptable draw"

/-! ### Limits of the machine -/

/-- Counts are below this bound. -/
def wordBound : Nat := 2 ^ (64 : Nat)

/-- Bit lengths of random numbers are below this bound. -/
def bitLengthBound : Nat := 2 ^ (32 : Nat)

/-- Tables of integers, each described by 32 bytes in an address space of `2 ^ 63` bytes, have fewer
entries than this bound. -/
def slotBound : Nat := 2 ^ (58 : Nat)

/-- The successor of a count. -/
def nextCount (i : Nat) : Except Error Nat :=
  if i + 1 < wordBound then .ok (i + 1) else .error (.fault .countOverflow)

theorem nextCount_of_lt {i : Nat} (h : i + 1 < wordBound) : nextCount i = .ok (i + 1) := by
  simp [nextCount, h]

theorem nextCount_of_ge {i : Nat} (h : wordBound ≤ i + 1) :
    nextCount i = .error (.fault .countOverflow) := by
  simp [nextCount, Nat.not_lt.mpr h]

/-- A count has a successor exactly if the successor is a count. -/
theorem nextCount_eq_ok_iff {i j : Nat} : nextCount i = .ok j ↔ j = i + 1 ∧ i + 1 < wordBound := by
  unfold nextCount
  split <;> simp_all [eq_comm]

end QuorumPaillier
