import QuorumPaillier.Basic
import QuorumPaillier.Primality
import QuorumPaillier.Random.Source

/-!
# Safe primes

A prime `p` is *safe* if its half `(p - 1) / 2` is a prime too.  A key is made from two different
safe primes of which neither is the half of the other.  A pair holds integers, since it can hold
rejected numbers while it is checked and zeros once it has been erased.

A safe prime `2 * h + 1` of `b` bits is found through its half: draw `b - 1` bits, set the highest
of them, take the next prime `h` above, and see whether `2 * h + 1` is a prime.  The next prime may
have grown by a bit; then the draw counts as a failed attempt.

## Main definitions

* `SafePrimePair`, `SafePrimePair.check`, `SafePrimePair.ofPrimes` — pairs, and their first defect.
* `drawHalf`, `searchHalf`, `drawSafePrime` — one attempt, the repetition of attempts, the search.
-/

namespace QuorumPaillier

open scoped Builtin

/-! ### Pairs of safe primes -/

/-- Two numbers with their halves: the secret primes of a key, or zeros after erasure. -/
structure SafePrimePair where
  /-- The first prime. -/
  p : Int
  /-- The half `(p - 1) / 2` of the first prime. -/
  halfP : Int
  /-- The second prime. -/
  q : Int
  /-- The half `(q - 1) / 2` of the second prime. -/
  halfQ : Int
  deriving DecidableEq, Repr

namespace SafePrimePair

/-- The two numbers with their halves, whether they are primes or not. -/
def ofIntegers (p q : Int) : SafePrimePair := ⟨p, p / 2, q, q / 2⟩

/-- The first defect of a pair, if it has one. -/
def defect? (isPrime : Nat → Bool) (s : SafePrimePair) : Option PrimeDefect :=
  if s.p % 2 = 0 ∨ s.q % 2 = 0 then some .even
  else if !(acceptsInt isPrime s.p && acceptsInt isPrime s.q) then some .composite
  else if !(acceptsInt isPrime s.halfP && acceptsInt isPrime s.halfQ) then some .compositeHalf
  else if s.p = s.q then some .equal
  else if s.p = s.halfQ ∨ s.q = s.halfP then some .sharedFactor
  else none

/-- Whether a pair can be used for a key; a defect is the reason why not. -/
def check (isPrime : Nat → Bool) (s : SafePrimePair) : Except Error Unit :=
  match s.defect? isPrime with
  | none => .ok ()
  | some defect => .error (.invalidPrimes defect)

/-- The pair made from two integers, if it has no defect. -/
def ofPrimes (isPrime : Nat → Bool) (p q : Int) : Except Error SafePrimePair := do
  (ofIntegers p q).check isPrime
  return ofIntegers p q

/-- The modulus of the key. -/
def modulus (s : SafePrimePair) : Int := s.p * s.q

/-- The product of the halves, which is the order of the squares among the units modulo `p * q`. -/
def halfProduct (s : SafePrimePair) : Int := s.halfP * s.halfQ

/-- The pair after erasure. -/
def erase (_ : SafePrimePair) : SafePrimePair := ⟨0, 0, 0, 0⟩

theorem check_eq_ok_iff {isPrime : Nat → Bool} {s : SafePrimePair} :
    s.check isPrime = .ok () ↔ s.defect? isPrime = none := by
  unfold check
  cases s.defect? isPrime <;> simp

theorem check_eq_error_iff {isPrime : Nat → Bool} {s : SafePrimePair} {e : Error} :
    s.check isPrime = .error e ↔ ∃ d, s.defect? isPrime = some d ∧ e = .invalidPrimes d := by
  unfold check
  cases s.defect? isPrime <;> simp [eq_comm]

/-- A pair is made exactly if it has no defect. -/
theorem ofPrimes_eq_ok_iff {isPrime : Nat → Bool} {p q : Int} {s : SafePrimePair} :
    ofPrimes isPrime p q = .ok s ↔ s = ofIntegers p q ∧ s.defect? isPrime = none := by
  constructor
  · intro h
    cases hc : (ofIntegers p q).check isPrime with
    | error e => simp [ofPrimes, hc, bind, Except.bind] at h
    | ok _ =>
      simp only [ofPrimes, hc, bind, Except.bind, pure, Except.pure, Except.ok.injEq] at h
      exact ⟨h.symm, h ▸ check_eq_ok_iff.mp hc⟩
  · rintro ⟨rfl, h⟩
    simp only [ofPrimes, check_eq_ok_iff.mpr h]
    rfl

/-- A refused pair has the defect that is reported. -/
theorem ofPrimes_eq_error_iff {isPrime : Nat → Bool} {p q : Int} {e : Error} :
    ofPrimes isPrime p q = .error e ↔
      ∃ d, (ofIntegers p q).defect? isPrime = some d ∧ e = .invalidPrimes d := by
  rw [← check_eq_error_iff]
  cases hc : (ofIntegers p q).check isPrime <;>
    simp [ofPrimes, hc, bind, Except.bind, pure, Except.pure]

/-- An erased pair is no pair of primes. -/
theorem check_erase (isPrime : Nat → Bool) (s : SafePrimePair) :
    s.erase.check isPrime = .error (.invalidPrimes .even) := rfl

end SafePrimePair

/-! ### The search -/

/-- The least accepted number above a random number of `k + 1` bits whose highest bit is set. -/
def drawHalf (isPrime : Nat → Bool) (k : Nat) : Draw Nat := do
  let x ← drawBits (k + 1)
  return nextPrime isPrime (x % 2 ^ k + 2 ^ k)

/-- Whether a prime of `k + 1` bits is the half of a safe prime. -/
def isSafeHalf (isPrime : Nat → Bool) (k h : Nat) : Bool :=
  bitLength h = k + 1 && h % 3 != 1 && isPrime (2 * h + 1)

/-- The first acceptable half among `t` attempts with `k + 1` bits; `total` attempts are reported
when none succeeds. -/
def searchHalf (isPrime accept : Nat → Bool) (k total : Nat) : Nat → Draw Nat
  | 0 => throw (.primesNotFound total)
  | t + 1 => do
      let h ← drawHalf isPrime k
      if accept h then return h else searchHalf isPrime accept k total t

/-- A safe prime and its half. -/
structure SafePrime where
  /-- The prime. -/
  value : Nat
  /-- The half `(value - 1) / 2`. -/
  half : Nat
  deriving DecidableEq, Repr, Inhabited

/-- A safe prime of `bits` bits, found in at most `attempts` attempts. -/
def drawSafePrime (isPrime : Nat → Bool) (bits attempts : Nat) : Draw SafePrime :=
  if bits < 3 ∨ bitLengthBound ≤ bits - 1 then throw (.invalidBitLength bits)
  else do
    let k := bits - 2
    let h ← searchHalf isPrime (isSafeHalf isPrime k) k attempts attempts
    return ⟨2 * h + 1, h⟩

/-- A length out of range is refused before anything is drawn. -/
theorem drawSafePrime_of_invalid {isPrime : Nat → Bool} {bits attempts : Nat}
    (h : bits < 3 ∨ bitLengthBound ≤ bits - 1) :
    drawSafePrime isPrime bits attempts = throw (.invalidBitLength bits) := by
  simp [drawSafePrime, h]

end QuorumPaillier
