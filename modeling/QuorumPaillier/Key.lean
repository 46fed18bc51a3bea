import QuorumPaillier.Basic
import QuorumPaillier.Residue
import QuorumPaillier.SafePrime

/-!
# Keys

A public key is a modulus `n` above two together with the threshold `w` and the number `l` of
authorities, `1 ≤ w ≤ l`.  It keeps what is computed from these: the ciphertext modulus `n ^ 2`, the
generator `n + 1`, and the factorial of `l`, which clears the denominators when shares are combined.

From safe primes `p = 2 * p' + 1` and `q = 2 * q' + 1` a key has the modulus `n = p * q` and the
decryption exponent `d` with `d ≡ 1` modulo `n` and `d ≡ 0` modulo `p' * q'`.  Raising a ciphertext
to a multiple of `d` removes its randomness and keeps its plaintext.  Generation draws two safe
primes of half as many bits as the modulus is asked to have, rounded up, and draws anew if they
cannot be used.

## Main definitions

* `PublicKey`, `PublicKey.ofModulus`, `PublicKey.accept` — keys, and the ciphertext that an integer
  is.
* `PrivateKey`, `PrivateKey.erase`, `PrivateKey.decrypt?` — private keys, and decryption with one.
* `KeyPair`, `SafePrimePair.keyPair`, `KeyParameters.generate` — keys from primes, and from scratch.
-/

namespace QuorumPaillier

open scoped Builtin

/-! ### Erasure -/

/-- A list of numbers after erasure. -/
def eraseAll {α : Type} [OfNat α 0] (values : List α) : List α := values.map fun _ => 0

@[simp] theorem length_eraseAll {α : Type} [OfNat α 0] (values : List α) :
    (eraseAll values).length = values.length := List.length_map _

theorem eq_zero_of_mem_eraseAll {α : Type} [OfNat α 0] {values : List α} {x : α}
    (h : x ∈ eraseAll values) : x = 0 := by
  obtain ⟨_, _, rfl⟩ := List.mem_map.mp h
  rfl

/-! ### Factorials -/

/-- The product of the numbers from one to `n`. -/
def factorial : Nat → Nat
  | 0 => 1
  | n + 1 => (n + 1) * factorial n

@[simp] theorem factorial_zero : factorial 0 = 1 := rfl

@[simp] theorem factorial_succ (n : Nat) : factorial (n + 1) = (n + 1) * factorial n := rfl

theorem factorial_pos (n : Nat) : 0 < factorial n := by
  induction n with
  | zero => exact Nat.one_pos
  | succ n ih => exact Nat.mul_pos (Nat.succ_pos n) ih

/-- Every number from one to `n` divides the factorial of `n`. -/
theorem dvd_factorial {k n : Nat} (hk : 1 ≤ k) (hn : k ≤ n) : k ∣ factorial n := by
  induction n with
  | zero => omega
  | succ n ih =>
    rcases Nat.lt_or_eq_of_le hn with h | rfl
    · exact Nat.dvd_mul_left_of_dvd (ih (by omega)) _
    · exact Nat.dvd_mul_right _ _

/-! ### Thresholds -/

/-- A threshold has to be positive and at most the number of authorities. -/
def checkThreshold (w l : Nat) : Except Error Unit :=
  if 1 ≤ w ∧ w ≤ l then .ok () else .error (.invalidThreshold w l)

theorem checkThreshold_of_valid {w l : Nat} (hw : 1 ≤ w) (hl : w ≤ l) :
    checkThreshold w l = .ok () := by
  simp [checkThreshold, hw, hl]

theorem checkThreshold_of_invalid {w l : Nat} (h : ¬(1 ≤ w ∧ w ≤ l)) :
    checkThreshold w l = .error (.invalidThreshold w l) := by
  simp only [checkThreshold, h, if_false]

/-! ### Keys -/

/-- A public key: the modulus with what is computed from it, and the threshold. -/
structure PublicKey where
  /-- The plaintext modulus. -/
  n : Nat
  /-- The ciphertext modulus. -/
  nSquared : Nat
  /-- The generator of the plaintexts: its powers modulo `n ^ 2` are the numbers `1 + m * n`. -/
  generator : Nat
  /-- The factorial of the number of authorities. -/
  delta : Nat
  /-- The number of authorities that are needed to decrypt. -/
  w : Nat
  /-- The number of authorities. -/
  l : Nat
  /-- The modulus exceeds two. -/
  two_lt_n : 2 < n
  /-- At least one authority is needed. -/
  one_le_w : 1 ≤ w
  /-- There are as many authorities as are needed. -/
  w_le_l : w ≤ l
  nSquared_eq : nSquared = n * n
  generator_eq : generator = n + 1
  delta_eq : delta = factorial l
  deriving DecidableEq

namespace PublicKey

/-- The key with a modulus above two and a valid threshold. -/
def ofValid {n w l : Nat} (hn : 2 < n) (hw : 1 ≤ w) (hl : w ≤ l) : PublicKey :=
  ⟨n, n * n, n + 1, factorial l, w, l, hn, hw, hl, rfl, rfl, rfl⟩

/-- The key with a given modulus; the threshold is checked before the modulus. -/
def ofModulus (n : Int) (w l : Nat) : Except Error PublicKey :=
  if h : 1 ≤ w ∧ w ≤ l then
    if hn : 2 < n then .ok (ofValid (Int.lt_toNat.mpr hn) h.1 h.2)
    else .error (.violation .publicModulusTooSmall)
  else .error (.invalidThreshold w l)

theorem n_pos (pk : PublicKey) : 0 < pk.n := Nat.lt_trans Nat.two_pos pk.two_lt_n

theorem nSquared_pos (pk : PublicKey) : 0 < pk.nSquared := by
  rw [pk.nSquared_eq]
  exact Nat.mul_pos pk.n_pos pk.n_pos

theorem n_lt_nSquared (pk : PublicKey) : pk.n < pk.nSquared := by
  have h := Nat.mul_le_mul_right pk.n (Nat.le_of_lt pk.two_lt_n)
  have hn := pk.n_pos
  rw [pk.nSquared_eq]
  omega

/-- There is a key exactly for a valid threshold and a modulus above two, and it holds them. -/
theorem ofModulus_eq_ok_iff {n : Int} {w l : Nat} {pk : PublicKey} :
    ofModulus n w l = .ok pk ↔
      (1 ≤ w ∧ w ≤ l) ∧ 2 < n ∧ (pk.n : Int) = n ∧ pk.w = w ∧ pk.l = l := by
  unfold ofModulus
  split
  case isFalse h => simp only [reduceCtorEq, false_iff]; exact fun h' => h h'.1
  case isTrue h =>
    split
    case isFalse hn => simp only [reduceCtorEq, false_iff]; exact fun h' => hn h'.2.1
    case isTrue hn =>
      constructor
      · intro hk
        obtain rfl := Except.ok.inj hk
        exact ⟨h, hn, Int.toNat_of_nonneg (by omega), rfl, rfl⟩
      · rintro ⟨-, -, h₁, h₂, h₃⟩
        obtain ⟨n', n₂, g, delta, w', l', _, _, _, rfl, rfl, rfl⟩ := pk
        simp only at h₁ h₂ h₃
        subst h₁ h₂ h₃
        rfl

/-! ### Ciphertexts under a key -/

/-- The ciphertext that an integer is, unless it is outside the range of ciphertexts. -/
def accept (pk : PublicKey) (c : Int) : Except Error Nat :=
  if c ≤ 0 then .error (.invalidCiphertext .notPositive)
  else if pk.nSquared ≤ c then .error (.invalidCiphertext .tooLarge)
  else .ok c.toNat

theorem accept_of_le_zero (pk : PublicKey) {c : Int} (h : c ≤ 0) :
    pk.accept c = .error (.invalidCiphertext .notPositive) := by
  simp [accept, h]

theorem accept_of_nSquared_le (pk : PublicKey) {c : Int} (h : pk.nSquared ≤ c) :
    pk.accept c = .error (.invalidCiphertext .tooLarge) := by
  have h₀ : ¬c ≤ 0 := by have := pk.nSquared_pos; omega
  simp [accept, h₀, h]

theorem accept_natCast (pk : PublicKey) {c : Nat} (h₀ : 0 < c) (h : c < pk.nSquared) :
    pk.accept c = .ok c := by
  have h₁ : ¬(c : Int) ≤ 0 := by omega
  have h₂ : ¬(pk.nSquared : Int) ≤ c := by omega
  simp only [accept, h₁, h₂, if_false, Int.toNat_natCast]

/-- The ciphertexts are the integers strictly between zero and the square of the modulus. -/
theorem accept_eq_ok_iff (pk : PublicKey) {c : Int} {x : Nat} :
    pk.accept c = .ok x ↔ c = x ∧ 0 < x ∧ x < pk.nSquared := by
  constructor
  · intro h
    simp only [accept] at h
    split at h
    · simp at h
    · split at h
      · simp at h
      · obtain rfl := Except.ok.inj h; omega
  · rintro ⟨rfl, h₀, h⟩
    exact pk.accept_natCast h₀ h

end PublicKey

/-! ### Private keys -/

/-- A private key: what the dealer holds until the shares are issued. -/
structure PrivateKey where
  /-- The modulus of the public key. -/
  n : Nat
  /-- The ciphertext modulus. -/
  nSquared : Nat
  /-- The modulus `n * p' * q'` of the shares. -/
  nm : Nat
  /-- The decryption exponent. -/
  d : Nat
  /-- The number of authorities that are needed to decrypt. -/
  w : Nat
  /-- The number of authorities. -/
  l : Nat
  /-- The verification values of the authorities, which are reserved and not computed. -/
  slots : List Nat
  deriving DecidableEq, Repr

/-- The key after erasure: the numbers are zero, those in the slots too; the threshold is public and
stays. -/
def PrivateKey.erase (sk : PrivateKey) : PrivateKey :=
  ⟨0, 0, 0, 0, sk.w, sk.l, eraseAll sk.slots⟩

/-- A public key and the private key that belongs to it. -/
structure KeyPair where
  /-- The public key. -/
  publicKey : PublicKey
  /-- The private key. -/
  privateKey : PrivateKey
  deriving DecidableEq

/-- One slot for each authority, all of them zero, if they fit in the address space. -/
def reserveSlots (l : Nat) : Except Error (List Nat) :=
  if l < slotBound then .ok (List.replicate l 0) else .error (.noRoomForSlots l)

/-- The keys made from a pair of safe primes, for `w` of `l` authorities. -/
def SafePrimePair.keyPair (s : SafePrimePair) (w l : Nat) : Except Error KeyPair := do
  checkThreshold w l
  let d ← chinese 1 s.modulus 0 s.halfProduct
  let slots ← reserveSlots l
  let pk ← PublicKey.ofModulus s.modulus w l
  return ⟨pk, ⟨s.modulus.toNat, pk.nSquared, (s.modulus * s.halfProduct).toNat, d, w, l, slots⟩⟩

/-- A threshold out of range is refused before anything is computed. -/
theorem SafePrimePair.keyPair_of_invalid (s : SafePrimePair) {w l : Nat}
    (h : ¬(1 ≤ w ∧ w ≤ l)) : s.keyPair w l = .error (.invalidThreshold w l) := by
  simp only [keyPair, checkThreshold_of_invalid h]
  rfl

/-! ### Decryption with the private key -/

/-- The plaintext of a ciphertext, unless four cannot be divided out. -/
def PrivateKey.decrypt? (sk : PrivateKey) (c : Nat) : Option Nat :=
  (inverse? 4 sk.n).map fun (u : Nat) =>
    (decode (powMod c (4 * sk.d) sk.nSquared) sk.n * u % sk.n).toNat

/-- Four can be divided out exactly if it shares no factor with the modulus. -/
theorem PrivateKey.decrypt?_isSome_iff (sk : PrivateKey) (c : Nat) :
    (sk.decrypt? c).isSome ↔ Nat.gcd 4 sk.n = 1 := by
  rw [decrypt?, Option.isSome_map, inverse?_isSome_iff]

/-! ### Key generation -/

/-- The least length of a modulus that is generated, in bits. -/
def minModulusBits : Nat := 64

/-- What key generation is asked for. -/
structure KeyParameters where
  /-- The length of the modulus in bits. -/
  bits : Nat
  /-- The number of authorities that are needed to decrypt. -/
  w : Nat
  /-- The number of authorities. -/
  l : Nat
  /-- The number of attempts in each search for a prime, and of pairs of primes. -/
  attempts : Nat := 2 ^ 20
  /-- Whether more than half of the authorities have to be needed. -/
  majority : Bool := false
  deriving DecidableEq, Repr

namespace KeyParameters

/-- Whether the parameters can be met; the length is checked first and the majority last. -/
def check (c : KeyParameters) : Except Error Unit := do
  if c.bits < minModulusBits then throw (.invalidBitLength c.bits)
  checkThreshold c.w c.l
  if c.majority ∧ c.w ≤ c.l / 2 then throw (.invalidThreshold c.w c.l)

/-- The length of the two primes: half of the length of the modulus, rounded up. -/
def primeBits (c : KeyParameters) : Nat := 1 + (c.bits - 1) / 2

/-- The keys from the first usable pair of safe primes among `t` pairs. -/
def generateFrom (isPrime : Nat → Bool) (c : KeyParameters) : Nat → Draw KeyPair
  | 0 => throw (.primesNotFound c.attempts)
  | t + 1 => do
      let p ← drawSafePrime isPrime c.primeBits c.attempts
      let q ← drawSafePrime isPrime c.primeBits c.attempts
      let s := SafePrimePair.ofIntegers p.value q.value
      if (s.defect? isPrime).isNone then s.keyPair c.w c.l else generateFrom isPrime c t

/-- The keys from the first usable pair of safe primes that is drawn. -/
def generate (isPrime : Nat → Bool) (c : KeyParameters) : Draw KeyPair := do
  c.check
  c.generateFrom isPrime c.attempts

/-- Bad parameters are refused before anything is drawn. -/
theorem generate_of_invalid {isPrime : Nat → Bool} {c : KeyParameters} {e : Error}
    (h : c.check = .error e) : c.generate isPrime = throw e := by
  simp only [generate, h]
  rfl

end KeyParameters

end QuorumPaillier
