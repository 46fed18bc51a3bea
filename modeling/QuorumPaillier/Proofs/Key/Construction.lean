import Mathlib.Data.Nat.Prime.Factorial
import Mathlib.Tactic
import QuorumPaillier.Key
import QuorumPaillier.Proofs.Residue
import QuorumPaillier.Proofs.SafePrime.Arithmetic

/-!
# Keys made from safe primes

A key pair that was made from two safe primes is determined by them and by the threshold.  The
proofs about dealing, decrypting and combining start from the facts that are collected here, and
never look at how the key was computed.

What a key needs of its primes is that the modulus shares no factor with the product of the halves.
The check of a pair of primes does not compute that; it compares each prime with the half of the
other one.  For safe primes this comes to the same, since of the four primes involved a prime is
never its own half and different primes share no factor.

## Main definitions

* `KeyPair.IsMadeFrom`, `KeyPair.BelongsTo` — what holds of a key pair made from safe primes, in
  terms of their factors and in terms of integers that a key needs.

## Main results

* `SafeFactors.isMadeFrom_of_keyPair` — **every key pair that is made has these properties.**
* `KeyPair.IsMadeFrom.coprime_delta_iff` — **the factor that is divided out at the end is a unit
  exactly for fewer authorities than either prime.**
* `SafePrimePair.accepted_makes_keys` — **accepted primes make keys, for every threshold.**
-/

namespace QuorumPaillier

/-! ### What keys are made of -/

open Nat (Coprime)

/-- What holds of a key pair made from safe primes. -/
structure KeyPair.IsMadeFrom (k : KeyPair) (h : SafeFactors) : Prop where
  /-- The public modulus is the product of the primes. -/
  public_n : k.publicKey.n = h.modulus
  /-- The private key has the same modulus. -/
  private_n : k.privateKey.n = h.modulus
  /-- So has it the ciphertext modulus. -/
  private_nSquared : k.privateKey.nSquared = k.publicKey.nSquared
  /-- Shares live modulo `n * p' * q'`. -/
  nm_eq : k.privateKey.nm = h.modulus * h.product
  /-- The exponent keeps plaintexts. -/
  d_modulus : k.privateKey.d ≡ 1 [MOD h.modulus]
  /-- The exponent removes randomness. -/
  d_product : h.product ∣ k.privateKey.d
  /-- The exponent is reduced. -/
  d_lt : k.privateKey.d < h.modulus * h.product
  /-- Both keys have the same threshold. -/
  w_eq : k.privateKey.w = k.publicKey.w
  /-- Both keys have the same number of authorities. -/
  l_eq : k.privateKey.l = k.publicKey.l
  /-- One slot for each authority fits into memory. -/
  l_lt : k.publicKey.l < slotBound
  /-- The slots hold zero. -/
  slots_eq : k.privateKey.slots = List.replicate k.publicKey.l 0

/-- **What keys are made of**, whatever the pair: there are keys for a valid threshold only, and
only if there is room for the slots. -/
theorem SafePrimePair.of_keyPair_eq_ok {s : SafePrimePair} {w l : ℕ} {k : KeyPair}
    (hk : s.keyPair w l = .ok k) :
    (1 ≤ w ∧ w ≤ l) ∧ l < slotBound ∧ chinese 1 s.modulus 0 s.halfProduct = .ok k.privateKey.d ∧
      PublicKey.ofModulus s.modulus w l = .ok k.publicKey ∧
      k.privateKey = ⟨s.modulus.toNat, k.publicKey.nSquared, (s.modulus * s.halfProduct).toNat,
        k.privateKey.d, w, l, List.replicate l 0⟩ := by
  by_cases hwl : 1 ≤ w ∧ w ≤ l
  · simp only [keyPair, checkThreshold_of_valid hwl.1 hwl.2, bind, Except.bind] at hk
    split at hk
    · cases hk
    · rename_i d hd
      simp only [reserveSlots] at hk
      by_cases hroom : l < slotBound
      · simp only [if_pos hroom] at hk
        split at hk
        · cases hk
        · rename_i pk hpk
          cases hk
          exact ⟨hwl, hroom, hd, hpk, rfl⟩
      · simp only [if_neg hroom] at hk
        cases hk
  · rw [keyPair_of_invalid s hwl] at hk
    cases hk

/-- Shares live modulo a positive number, since the congruences for the exponent have positive
moduli. -/
theorem SafePrimePair.nm_pos_of_keyPair {s : SafePrimePair} {w l : ℕ} {k : KeyPair}
    (hk : s.keyPair w l = .ok k) : 0 < k.privateKey.nm := by
  obtain ⟨-, -, hd, -, hsk⟩ := of_keyPair_eq_ok hk
  obtain ⟨⟨hn, hm, -⟩, -⟩ := chinese_eq_ok_iff.mp hd
  rw [hsk]
  exact Int.lt_toNat.mpr (Int.mul_pos hn hm)

theorem SafePrimePair.d_lt_nm_of_keyPair {s : SafePrimePair} {w l : ℕ} {k : KeyPair}
    (hk : s.keyPair w l = .ok k) : k.privateKey.d < k.privateKey.nm := by
  obtain ⟨-, -, hd, -, hsk⟩ := of_keyPair_eq_ok hk
  obtain ⟨-, hsol⟩ := chinese_eq_ok_iff.mp hd
  rw [hsk]
  exact Int.lt_toNat.mpr hsol.lt

namespace SafeFactors

variable (h : SafeFactors)

/-- The exponent exists, since the modulus shares no factor with the product of the halves. -/
theorem exists_exponent :
    ∃ d : ℕ, chinese 1 h.toPair.modulus 0 h.toPair.halfProduct = .ok d ∧
      d < h.modulus * h.product ∧ d ≡ 1 [MOD h.modulus] ∧ h.product ∣ d := by
  have hn := h.two_lt_modulus
  have hm := h.product_pos
  rw [h.modulus_toPair, h.halfProduct_toPair]
  have hn' : 0 < (h.modulus : ℤ) := by omega
  have hm' : 0 < (h.product : ℤ) := by omega
  obtain ⟨d, hd, hsol⟩ := exists_chinese_eq_ok hn' hm' h.coprime_modulus_product 1 0
  refine ⟨d, hd, by exact_mod_cast hsol.lt, ?_, ?_⟩
  · exact Int.natCast_modEq_iff.mp (by exact_mod_cast hsol.first)
  · exact Int.natCast_dvd_natCast.mp (Int.modEq_zero_iff_dvd.mp hsol.second)

/-- There are keys for every valid threshold. -/
theorem exists_keyPair {w l : ℕ} (hw : 1 ≤ w) (hl : w ≤ l) (hroom : l < slotBound) :
    ∃ k : KeyPair, h.toPair.keyPair w l = .ok k ∧ k.IsMadeFrom h ∧
      k.publicKey.w = w ∧ k.publicKey.l = l := by
  obtain ⟨d, hd, hlt, hone, hzero⟩ := h.exists_exponent
  have hn : (2 : ℤ) < h.toPair.modulus := by
    rw [h.modulus_toPair]
    exact_mod_cast h.two_lt_modulus
  let pk := PublicKey.ofValid h.two_lt_modulus hw hl
  have hpk : PublicKey.ofModulus h.toPair.modulus w l = .ok pk :=
    PublicKey.ofModulus_eq_ok_iff.mpr
      ⟨⟨hw, hl⟩, hn, h.modulus_toPair.symm, rfl, rfl⟩
  have hslots : reserveSlots l = .ok (List.replicate l 0) := by simp [reserveSlots, hroom]
  have hnat : h.toPair.modulus.toNat = h.modulus := by
    rw [h.modulus_toPair, Int.toNat_natCast]
  have hnm : (h.toPair.modulus * h.toPair.halfProduct).toNat = h.modulus * h.product := by
    rw [h.modulus_toPair, h.halfProduct_toPair, ← Nat.cast_mul, Int.toNat_natCast]
  refine ⟨⟨pk, ⟨h.modulus, pk.nSquared, h.modulus * h.product, d, w, l, List.replicate l 0⟩⟩,
    ?_, ?_, rfl, rfl⟩
  · simp only [SafePrimePair.keyPair, checkThreshold_of_valid hw hl, hd, hslots, hpk, hnat, hnm]
    rfl
  · exact ⟨rfl, rfl, rfl, rfl, hone, hzero, hlt, rfl, rfl, hroom, rfl⟩

theorem keyPair_of_noRoom {w l : ℕ} (hw : 1 ≤ w) (hl : w ≤ l) (hroom : slotBound ≤ l) :
    h.toPair.keyPair w l = .error (.noRoomForSlots l) := by
  obtain ⟨d, hd, -⟩ := h.exists_exponent
  have hslots : reserveSlots l = .error (.noRoomForSlots l) := by
    rw [reserveSlots, if_neg (not_lt.mpr hroom)]
  simp only [SafePrimePair.keyPair, checkThreshold_of_valid hw hl, hd, hslots]
  rfl

/-- **Every key pair that is made has the properties of a key pair.** -/
theorem isMadeFrom_of_keyPair {w l : ℕ} {k : KeyPair} (hk : h.toPair.keyPair w l = .ok k) :
    k.IsMadeFrom h ∧ k.publicKey.w = w ∧ k.publicKey.l = l := by
  obtain ⟨⟨hw, hl⟩, hroom, -⟩ := SafePrimePair.of_keyPair_eq_ok hk
  obtain ⟨k', hk', hmade⟩ := h.exists_keyPair hw hl hroom
  obtain rfl : k' = k := Except.ok.inj (hk'.symm.trans hk)
  exact hmade

end SafeFactors

theorem SafePrimePair.exists_isMadeFrom {isPrime : ℕ → Bool} (hexact : IsExact isPrime) {p q : ℤ}
    {s : SafePrimePair} (hs : ofPrimes isPrime p q = .ok s) {w l : ℕ} {k : KeyPair}
    (hk : s.keyPair w l = .ok k) :
    ∃ h : SafeFactors, k.IsMadeFrom h ∧ p = h.p ∧ q = h.q ∧
      k.publicKey.w = w ∧ k.publicKey.l = l := by
  obtain ⟨h, rfl, hp, hq⟩ := exists_safeFactors hexact hs
  obtain ⟨hmade, hw, hl⟩ := h.isMadeFrom_of_keyPair hk
  exact ⟨h, hmade, hp, hq, hw, hl⟩

/-- A key pair for two of three authorities, from the smallest primes. -/
def KeyPair.smallest : KeyPair where
  publicKey := PublicKey.ofValid (n := 35) (w := 2) (l := 3) (by decide) (by decide) (by decide)
  privateKey := ⟨35, 1225, 210, 36, 2, 3, [0, 0, 0]⟩

theorem SafeFactors.keyPair_smallest : smallest.toPair.keyPair 2 3 = .ok KeyPair.smallest := by
  decide +kernel

/-! ### Dividing out the normalizer -/

theorem factorial_eq (n : ℕ) : factorial n = n.factorial := by
  induction n with
  | zero => rfl
  | succ n ih => rw [factorial_succ, ih, Nat.factorial_succ]

namespace KeyPair.IsMadeFrom

variable {k : KeyPair} {h : SafeFactors}

theorem nm_pos (hk : k.IsMadeFrom h) : 0 < k.privateKey.nm := by
  have hn := h.two_lt_modulus
  rw [hk.nm_eq]
  exact Nat.mul_pos (by omega) h.product_pos

theorem coprime_totient (hk : k.IsMadeFrom h) : k.publicKey.n.Coprime k.publicKey.n.totient := by
  rw [hk.public_n]
  exact h.coprime_modulus_totient

/-- **The factor that is divided out at the end is a unit exactly for fewer authorities than either
prime.** -/
theorem coprime_delta_iff (hk : k.IsMadeFrom h) :
    Coprime (4 * k.publicKey.delta * k.publicKey.delta) k.publicKey.n ↔
      k.publicKey.l < min h.p h.q := by
  -- a prime divides `l!` exactly if it is at most `l`
  have hdelta : Coprime k.publicKey.delta h.modulus ↔ k.publicKey.l < min h.p h.q := by
    rw [h.coprime_modulus_iff, k.publicKey.delta_eq, factorial_eq, h.p_prime.dvd_factorial,
      h.q_prime.dvd_factorial, lt_min_iff, not_le, not_le]
  rw [hk.public_n, ← hdelta, Nat.coprime_mul_iff_left, Nat.coprime_mul_iff_left]
  constructor
  · exact fun hc => hc.2
  · exact fun hc => ⟨⟨h.coprime_modulus_four.symm, hc⟩, hc⟩

end KeyPair.IsMadeFrom

/-! ### What a key needs -/

/-- What a key needs of two integers.  A negative number is no prime. -/
structure AreKeyPrimes (p q : ℤ) : Prop where
  /-- The first is a prime. -/
  p_prime : p.toNat.Prime
  /-- The second is a prime. -/
  q_prime : q.toNat.Prime
  /-- The first is a safe one. -/
  half_p_prime : ((p - 1) / 2).toNat.Prime
  /-- The second is a safe one. -/
  half_q_prime : ((q - 1) / 2).toNat.Prime
  /-- The first is odd. -/
  p_odd : Odd p
  /-- The second is odd. -/
  q_odd : Odd q
  /-- They differ. -/
  p_ne_q : p ≠ q
  /-- The modulus shares no factor with the product of the halves. -/
  gcd_eq_one : (p * q).gcd ((p - 1) / 2 * ((q - 1) / 2)) = 1

namespace SafeFactors

variable (h : SafeFactors)

theorem half_p : ((h.p : ℤ) - 1) / 2 = h.a := by
  have := h.p_eq
  omega

theorem half_q : ((h.q : ℤ) - 1) / 2 = h.b := by
  have := h.q_eq
  omega

theorem areKeyPrimes : AreKeyPrimes h.p h.q where
  p_prime := h.p_prime
  q_prime := h.q_prime
  half_p_prime := by
    rw [h.half_p]
    exact h.a_prime
  half_q_prime := by
    rw [h.half_q]
    exact h.b_prime
  p_odd := ⟨h.a, by exact_mod_cast h.p_eq⟩
  q_odd := ⟨h.b, by exact_mod_cast h.q_eq⟩
  p_ne_q := by exact_mod_cast h.p_ne_q
  gcd_eq_one := by
    rw [h.half_p, h.half_q]
    exact_mod_cast h.coprime_modulus_product

end SafeFactors

/-- Two integers that a key can be made of are safe primes that can be used together. -/
theorem AreKeyPrimes.exists_safeFactors {p q : ℤ} (h : AreKeyPrimes p q) :
    ∃ f : SafeFactors, p = f.p ∧ q = f.q := by
  obtain ⟨hp, hq, ha, hb, ⟨a, rfl⟩, ⟨b, rfl⟩, hne, hgcd⟩ := h
  have hhalf : ∀ x : ℤ, (2 * x + 1 - 1) / 2 = x := by omega
  simp only [hhalf] at ha hb hgcd
  have hapos := ha.pos
  have hbpos := hb.pos
  lift a to ℕ using by omega
  lift b to ℕ using by omega
  have hgcd' : ((2 * a + 1) * (2 * b + 1)).Coprime (a * b) := by exact_mod_cast hgcd
  -- a prime that is the half of the other one would be a common factor
  have hpb : 2 * a + 1 ≠ b := by
    intro heq
    have hdvd := Nat.eq_one_of_dvd_coprimes hgcd' (Dvd.intro _ rfl)
      (heq ▸ Nat.dvd_mul_left b a : 2 * a + 1 ∣ a * b)
    omega
  have hqa : 2 * b + 1 ≠ a := by
    intro heq
    have hdvd := Nat.eq_one_of_dvd_coprimes hgcd' (Dvd.intro_left _ rfl)
      (heq ▸ Nat.dvd_mul_right a b : 2 * b + 1 ∣ a * b)
    omega
  exact ⟨⟨2 * a + 1, 2 * b + 1, a, b, rfl, rfl, hp, hq, ha, hb, by omega, hpb, hqa⟩,
    by push_cast; rfl, by push_cast; rfl⟩

/-- **What is accepted is what a key needs.** -/
theorem SafePrimePair.exists_ofPrimes_iff {isPrime : ℕ → Bool} (hexact : IsExact isPrime)
    {p q : ℤ} : (∃ s, ofPrimes isPrime p q = .ok s) ↔ AreKeyPrimes p q := by
  constructor
  · rintro ⟨s, hs⟩
    obtain ⟨f, -, rfl, rfl⟩ := exists_safeFactors hexact hs
    exact f.areKeyPrimes
  · intro h
    obtain ⟨f, rfl, rfl⟩ := h.exists_safeFactors
    exact ⟨f.toPair, f.ofPrimes_eq_ok hexact⟩

/-! ### What the keys hold -/

/-- The exponent is the only solution of its congruences. -/
theorem KeyPair.IsMadeFrom.eq_exponent_iff {k : KeyPair} {f : SafeFactors} (hk : k.IsMadeFrom f)
    (x : ℤ) : x = k.privateKey.d ↔
      (0 ≤ x ∧ x < k.privateKey.nm) ∧ x ≡ 1 [ZMOD f.modulus] ∧ x ≡ 0 [ZMOD f.product] := by
  have hlt : (k.privateKey.d : ℤ) < k.privateKey.nm := by
    rw [hk.nm_eq]
    exact_mod_cast hk.d_lt
  have hone : (k.privateKey.d : ℤ) ≡ 1 [ZMOD f.modulus] := by
    exact_mod_cast Int.natCast_modEq_iff.mpr hk.d_modulus
  have hzero : (k.privateKey.d : ℤ) ≡ 0 [ZMOD f.product] :=
    Int.modEq_zero_iff_dvd.mpr (Int.natCast_dvd_natCast.mpr hk.d_product)
  constructor
  · rintro rfl
    exact ⟨⟨Int.natCast_nonneg _, hlt⟩, hone, hzero⟩
  · rintro ⟨⟨hx₀, hx⟩, hxone, hxzero⟩
    -- both numbers are common solutions, and there is one only
    have hnm : (k.privateKey.nm : ℤ) = f.modulus * f.product := by exact_mod_cast hk.nm_eq
    have hd : IsCommonSolution 1 f.modulus 0 f.product k.privateKey.d :=
      ⟨Int.natCast_nonneg _, hnm ▸ hlt, hone, hzero⟩
    have hx : IsCommonSolution 1 f.modulus 0 f.product x := ⟨hx₀, hnm ▸ hx, hxone, hxzero⟩
    have hcop : (f.modulus : ℤ).gcd f.product = 1 := f.coprime_modulus_product
    exact hx.unique hcop hd

/-- What the keys for two primes and a threshold hold. -/
structure KeyPair.BelongsTo (k : KeyPair) (p q : ℤ) (w l : ℕ) : Prop where
  /-- The modulus is the product of the primes. -/
  n_eq : (k.publicKey.n : ℤ) = p * q
  /-- Ciphertexts live modulo its square. -/
  nSquared_eq : (k.publicKey.nSquared : ℤ) = (p * q) ^ 2
  /-- The generator is the number after the modulus. -/
  generator_eq : (k.publicKey.generator : ℤ) = p * q + 1
  /-- The factorial of the number of authorities clears the denominators. -/
  delta_eq : k.publicKey.delta = l.factorial
  /-- The threshold is the one that was asked for. -/
  threshold_eq : k.publicKey.w = w ∧ k.publicKey.l = l
  /-- The private key has the modulus of the public key. -/
  private_n_eq : k.privateKey.n = k.publicKey.n
  /-- So has it the ciphertext modulus. -/
  private_nSquared_eq : k.privateKey.nSquared = k.publicKey.nSquared
  /-- So has it the threshold. -/
  private_threshold_eq : k.privateKey.w = w ∧ k.privateKey.l = l
  /-- Shares live modulo the product of the modulus and the halves. -/
  nm_eq : (k.privateKey.nm : ℤ) = p * q * ((p - 1) / 2 * ((q - 1) / 2))
  /-- The exponent is the one number in range that is one modulo the modulus and zero modulo the
  product of the halves. -/
  eq_d_iff : ∀ x : ℤ, x = k.privateKey.d ↔
    (0 ≤ x ∧ x < k.privateKey.nm) ∧ x ≡ 1 [ZMOD p * q] ∧ x ≡ 0 [ZMOD (p - 1) / 2 * ((q - 1) / 2)]
  /-- There is one slot for each authority, and it holds zero. -/
  slots_eq : k.privateKey.slots = List.replicate l 0

theorem KeyPair.IsMadeFrom.belongsTo {k : KeyPair} {f : SafeFactors} (hk : k.IsMadeFrom f) :
    k.BelongsTo f.p f.q k.publicKey.w k.publicKey.l := by
  have hmodulus : (f.modulus : ℤ) = f.p * f.q := by
    rw [SafeFactors.modulus, Nat.cast_mul]
  have hproduct : (f.product : ℤ) = ((f.p : ℤ) - 1) / 2 * (((f.q : ℤ) - 1) / 2) := by
    rw [f.half_p, f.half_q, SafeFactors.product, Nat.cast_mul]
  have hn : (k.publicKey.n : ℤ) = f.p * f.q := by rw [hk.public_n, hmodulus]
  refine ⟨hn, ?_, ?_, ?_, ⟨rfl, rfl⟩, ?_, hk.private_nSquared, ⟨hk.w_eq, hk.l_eq⟩, ?_, ?_,
    hk.slots_eq⟩
  · rw [PublicKey.natCast_nSquared, hn]
  · rw [k.publicKey.generator_eq, Nat.cast_add, hn, Nat.cast_one]
  · rw [k.publicKey.delta_eq, factorial_eq]
  · rw [hk.private_n, hk.public_n]
  · rw [hk.nm_eq, Nat.cast_mul, hmodulus, hproduct]
  · rw [← hmodulus, ← hproduct]
    exact hk.eq_exponent_iff

/-- **Accepted primes make keys, for every threshold.**  Two integers are accepted exactly if they
are what a key needs.  The keys for them can be had exactly for a valid threshold, as far as there
is room for the slots; nothing else can go wrong, and the congruences for the exponent have their
solution. -/
theorem SafePrimePair.accepted_makes_keys {isPrime : ℕ → Bool} (hexact : IsExact isPrime)
    (p q : ℤ) :
    ((∃ s, ofPrimes isPrime p q = .ok s) ↔ AreKeyPrimes p q) ∧
      ∀ s, ofPrimes isPrime p q = .ok s → ∀ w l : ℕ,
        (¬(1 ≤ w ∧ w ≤ l) → s.keyPair w l = .error (.invalidThreshold w l)) ∧
        (1 ≤ w ∧ w ≤ l → slotBound ≤ l → s.keyPair w l = .error (.noRoomForSlots l)) ∧
        (1 ≤ w ∧ w ≤ l → l < slotBound →
          ∃ k, s.keyPair w l = .ok k ∧ k.BelongsTo p q w l) := by
  refine ⟨exists_ofPrimes_iff hexact, ?_⟩
  intro s hs w l
  obtain ⟨f, rfl, rfl, rfl⟩ := exists_safeFactors hexact hs
  refine ⟨f.toPair.keyPair_of_invalid, ?_, ?_⟩
  · intro hwl hroom
    exact f.keyPair_of_noRoom hwl.1 hwl.2 hroom
  · intro hwl hroom
    obtain ⟨k, hk, hmade, rfl, rfl⟩ := f.exists_keyPair hwl.1 hwl.2 hroom
    exact ⟨k, hk, hmade.belongsTo⟩

/-- The primes `5` and `7` make keys for two of three authorities; `23` and `11` are safe primes,
but `11` is the half of `23`. -/
theorem SafePrimePair.accepted_makes_keys_smallest :
    IsExact (fun n => decide n.Prime) ∧ AreKeyPrimes 5 7 ∧
    (¬∃ s, ofPrimes (fun n => decide n.Prime) 23 11 = .ok s) ∧
    SafeFactors.smallest.toPair.keyPair 4 3 = .error (.invalidThreshold 4 3) ∧
    ∃ k, SafeFactors.smallest.toPair.keyPair 2 3 = .ok k ∧ k.BelongsTo 5 7 2 3 := by
  have hpair := SafeFactors.smallest.ofPrimes_eq_ok isExact_decide
  obtain ⟨haccepted, hkeys⟩ := accepted_makes_keys isExact_decide 5 7
  refine ⟨isExact_decide, haccepted.mp ⟨_, hpair⟩, ?_, (hkeys _ hpair 4 3).1 (by decide),
    (hkeys _ hpair 2 3).2.2 (by decide) (by decide)⟩
  intro h
  exact absurd ((accepted_makes_keys isExact_decide 23 11).1.mp h).gcd_eq_one (by decide)

end QuorumPaillier
