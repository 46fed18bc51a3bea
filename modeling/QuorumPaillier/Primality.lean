import QuorumPaillier.Residue

/-!
# Primality

Trial division by the primes below one hundred settles small numbers and most others.  What is left
has to pass the strong test with base two, must not be a square, and has to pass the strong Lucas
test.  Every prime passes; no composite number that does is known, and none exists below `2 ^ 64`.
The rest of the library takes the test as a parameter `isPrime : Nat → Bool`, so what it does with
primes can be stated for an exact test.

For the strong test write `n - 1 = 2 ^ s * d` with `d` odd: modulo a prime the powers `a ^ d`,
`a ^ (2 * d)`, `a ^ (4 * d)`, … of a unit start with one or reach minus one before the `s`-th
squaring.  For the Lucas test write `n + 1 = 2 ^ s * d`: if `D` is no square modulo a prime `n`,
then `n` divides `U` at `d` or `V` at one of `d, 2 * d, …, 2 ^ (s - 1) * d`, where `U`, `V` are the
Lucas sequences of `D`, the first of `5, -7, 9, -11, …` with Jacobi symbol minus one.

## Main definitions

* `passesStrongTest`, `passesLucasTest`, `isProbablePrime` — the tests.
* `firstFrom`, `nextPrime` — the least accepted number from a start on, and above a number.
-/

namespace QuorumPaillier

open scoped Builtin

/-! ### Factors of two -/

/-- The number of factors of two in `n`, and the odd number that is left; zero has none. -/
def splitTwos (n : Nat) : Nat × Nat :=
  if n = 0 ∨ n % 2 = 1 then (0, n)
  else
    let (s, d) := splitTwos (n / 2)
    (s + 1, d)
termination_by n
decreasing_by omega

/-- Nothing is lost by splitting off the factors of two. -/
theorem splitTwos_eq (n : Nat) : 2 ^ (splitTwos n).1 * (splitTwos n).2 = n := by
  fun_induction splitTwos n with
  | case1 n _ => simp
  | case2 n h s d hsd ih =>
    rw [hsd] at ih
    simp only at ih ⊢
    rw [Nat.pow_succ, Nat.mul_right_comm, ih]
    omega

/-- What is left is odd. -/
theorem splitTwos_odd {n : Nat} (hn : n ≠ 0) : (splitTwos n).2 % 2 = 1 := by
  fun_induction splitTwos n with
  | case1 n h => omega
  | case2 n h s d hsd ih =>
    have := ih (by omega)
    rwa [hsd] at this

/-! ### The test -/

/-- Whether minus one is among `x` and its first squares modulo `n`, `k` numbers in all. -/
def reachesMinusOne (n : Nat) : Nat → Nat → Bool
  | 0, _ => false
  | k + 1, x => x = n - 1 || reachesMinusOne n k (x * x % n)

/-- Whether the odd number `n` behaves as a prime does towards the base `a`. -/
def passesStrongTest (a n : Nat) : Bool :=
  let (s, d) := splitTwos (n - 1)
  let x := powMod a d n
  x = 1 || reachesMinusOne n s x

/-! ### Square roots -/

/-- The integer part of the square root: the root of a quarter gives all its digits but the
lowest. -/
def squareRoot (n : Nat) : Nat :=
  if n = 0 then 0
  else
    let r := 2 * squareRoot (n / 4)
    if (r + 1) * (r + 1) ≤ n then r + 1 else r
termination_by n
decreasing_by omega

theorem squareRoot_bounds (n : Nat) :
    squareRoot n * squareRoot n ≤ n ∧ n < (squareRoot n + 1) * (squareRoot n + 1) := by
  fun_induction squareRoot n with
  | case1 => simp
  | case2 n hn r h ih =>
    refine ⟨h, ?_⟩
    have hr : r + 1 + 1 = 2 * (squareRoot (n / 4) + 1) := by omega
    rw [hr, Nat.mul_mul_mul_comm]
    omega
  | case3 n hn r h ih =>
    refine ⟨?_, by omega⟩
    show 2 * squareRoot (n / 4) * (2 * squareRoot (n / 4)) ≤ n
    rw [Nat.mul_mul_mul_comm]
    omega

theorem squareRoot_sq_le (n : Nat) : squareRoot n * squareRoot n ≤ n := (squareRoot_bounds n).1

theorem lt_squareRoot_succ_sq (n : Nat) : n < (squareRoot n + 1) * (squareRoot n + 1) :=
  (squareRoot_bounds n).2

/-- Whether `n` is the square of a number. -/
def isSquare (n : Nat) : Bool := squareRoot n * squareRoot n = n

/-! ### The Jacobi symbol -/

/-- The Jacobi symbol of `a` over the odd number `n`: a factor two is taken out of `a`, and an odd
`a` changes places with `n` by reciprocity. -/
def jacobi (a n : Nat) : Int :=
  if a = 0 then if n = 1 then 1 else 0
  else if a % 2 = 0 then
    let rest := jacobi (a / 2) n
    if n % 8 = 3 ∨ n % 8 = 5 then -rest else rest
  else
    let rest := jacobi (n % a) a
    if a % 4 = 3 ∧ n % 4 = 3 then -rest else rest
termination_by a
decreasing_by
  · omega
  · exact Nat.mod_lt _ (by omega)

/-! ### The discriminant -/

/-- The first of `D, -(D + 2), D + 4, …`, each two further from zero than the one before and of the
other sign, whose Jacobi symbol over `n` is minus one, if there is one among the first `k` and none
before it shares a factor with `n`. -/
def discriminantFrom? (n : Nat) : Nat → Int → Option Int
  | 0, _ => none
  | k + 1, D =>
      match jacobi (D % n).toNat n with
      | -1 => some D
      | 0 => none
      | _ => discriminantFrom? n k (if D < 0 then 2 - D else -2 - D)

/-- The first of `5, -7, 9, -11, …` whose Jacobi symbol over `n` is minus one. -/
def discriminant? (n : Nat) : Option Int := discriminantFrom? n n 5

/-! ### The sequences -/

/-- The Lucas sequences and the powers of `Q` at one place, modulo a number. -/
structure LucasTerm where
  /-- The sequence `U`. -/
  u : Nat
  /-- The sequence `V`. -/
  v : Nat
  /-- The power of `Q`. -/
  q : Nat
  deriving DecidableEq, Repr, Inhabited

/-- The term at twice the place. -/
def LucasTerm.double (n : Nat) (t : LucasTerm) : LucasTerm where
  u := t.u * t.v % n
  v := (t.v * t.v + 2 * (n - t.q)) % n
  q := t.q * t.q % n

/-- Half of `x` modulo the odd number `n`. -/
def halve (n x : Nat) : Nat := (if x % 2 = 0 then x / 2 else (x + n) / 2) % n

/-- The term at the next place, for the residues `D` and `Q` of the sequence. -/
def LucasTerm.next (n D Q : Nat) (t : LucasTerm) : LucasTerm where
  u := halve n (t.u + t.v)
  v := halve n (D * t.u + t.v)
  q := t.q * Q % n

/-- The term at place `k`. -/
def lucasTerm (n D Q k : Nat) : LucasTerm :=
  if k = 0 then ⟨0, 2 % n, 1 % n⟩
  else
    let t := (lucasTerm n D Q (k / 2)).double n
    if k % 2 = 1 then t.next n D Q else t
termination_by k
decreasing_by omega

/-! ### The test -/

/-- Whether `V` vanishes at the place of `t` or at one of the next doubled places, `k` places in
all. -/
def reachesZero (n : Nat) : Nat → LucasTerm → Bool
  | 0, _ => false
  | k + 1, t => t.v = 0 || reachesZero n k (t.double n)

/-- Whether the odd number `n` behaves as a prime does towards its Lucas sequences. -/
def passesLucasTest (n : Nat) : Bool :=
  match discriminant? n with
  | none => false
  | some D =>
      let (s, d) := splitTwos (n + 1)
      let t := lucasTerm n (D % n).toNat ((1 - D) / 4 % n).toNat d
      t.u = 0 || reachesZero n s t

/-! ### The primality test -/

/-- The primes below one hundred. -/
def smallPrimes : List Nat :=
  [2, 3, 5, 7, 11, 13, 17, 19, 23, 29, 31, 37, 41, 43, 47, 53, 59, 61, 67, 71, 73, 79, 83, 89, 97]

/-- Whether `n` is a prime, as far as trial division and two probable-prime tests can tell. -/
def isProbablePrime (n : Nat) : Bool :=
  if n < 2 then false
  else
    match smallPrimes.find? (n % · = 0) with
    | some p => n = p
    | none => passesStrongTest 2 n && !isSquare n && passesLucasTest n

theorem isProbablePrime_of_lt_two {n : Nat} (h : n < 2) : isProbablePrime n = false := by
  simp [isProbablePrime, h]

/-- Whether the integer `x` is positive and passes the test. -/
def acceptsInt (isPrime : Nat → Bool) (x : Int) : Bool := 0 < x && isPrime x.toNat

@[simp] theorem acceptsInt_natCast (isPrime : Nat → Bool) (n : Nat) :
    acceptsInt isPrime n = (decide (0 < n) && isPrime n) := by
  simp [acceptsInt]

theorem acceptsInt_of_le_zero (isPrime : Nat → Bool) {x : Int} (h : x ≤ 0) :
    acceptsInt isPrime x = false := by
  simp [acceptsInt, Int.not_lt.mpr h]

/-! ### The next prime -/

/-- The first number from `n` on that is accepted, among the first `k`; the number after them if
none is. -/
def firstFrom (accept : Nat → Bool) : Nat → Nat → Nat
  | 0, n => n
  | k + 1, n => if accept n then n else firstFrom accept k (n + 1)

theorem le_firstFrom (accept : Nat → Bool) (k n : Nat) : n ≤ firstFrom accept k n := by
  induction k generalizing n with
  | zero => exact Nat.le_refl n
  | succ k ih =>
    simp only [firstFrom]
    split
    · exact Nat.le_refl n
    · exact Nat.le_of_succ_le (ih (n + 1))

/-- No number before the one found is accepted. -/
theorem not_accepted_of_lt_firstFrom {accept : Nat → Bool} {k n m : Nat} (hn : n ≤ m)
    (hm : m < firstFrom accept k n) : accept m = false := by
  induction k generalizing n with
  | zero => simp only [firstFrom] at hm; omega
  | succ k ih =>
    simp only [firstFrom] at hm
    split at hm
    · omega
    case isFalse h =>
      rcases Nat.eq_or_lt_of_le hn with rfl | hlt
      · simpa using h
      · exact ih hlt hm

/-- The number found is accepted, if an accepted number is in reach. -/
theorem firstFrom_accepted {accept : Nat → Bool} {k n m : Nat} (hn : n ≤ m) (hk : m < n + k)
    (hm : accept m = true) : accept (firstFrom accept k n) = true := by
  induction k generalizing n with
  | zero => omega
  | succ k ih =>
    simp only [firstFrom]
    split
    · assumption
    case isFalse h =>
      rcases Nat.eq_or_lt_of_le hn with rfl | hlt
      · exact absurd hm h
      · exact ih hlt (by omega)

/-- The least accepted number above `n`, looked for up to `2 * n + 2`. -/
def nextPrime (isPrime : Nat → Bool) (n : Nat) : Nat := firstFrom isPrime (n + 2) (n + 1)

theorem lt_nextPrime (isPrime : Nat → Bool) (n : Nat) : n < nextPrime isPrime n :=
  le_firstFrom isPrime (n + 2) (n + 1)

end QuorumPaillier
