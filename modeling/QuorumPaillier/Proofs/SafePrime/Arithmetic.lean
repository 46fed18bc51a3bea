import Mathlib.Data.Nat.Totient
import Mathlib.Tactic
import QuorumPaillier.SafePrime

/-!
# The arithmetic of accepted safe primes

What the check of a pair of safe primes buys is one fact: the modulus `n = p * q` has no factor in
common with the order `4 * p' * q'` of its units.  Everything that is proved about decryption and
about uniqueness of plaintexts rests on it.

## Main definitions

* `IsExact` — a primality test that tells primes from the other numbers.
* `SafeFactors` — two primes with their halves and what the check of a pair establishes.
* `SafeFactors.modulus`, `SafeFactors.product`, `SafeFactors.toPair` — what is made from them.

## Main results

* `SafePrimePair.exists_safeFactors`, `SafeFactors.ofPrimes_eq_ok` — **the accepted pairs are those
  that hold such primes.**
* `SafeFactors.totient_modulus` — the units modulo `n` are four times `p' * q'` many.
* `SafeFactors.coprime_modulus_totient` — **the modulus shares no factor with that number.**
-/

namespace QuorumPaillier

open Nat (totient Prime Coprime)

/-! ### Exact tests -/

/-- A primality test that tells primes from the other numbers. -/
def IsExact (isPrime : ℕ → Bool) : Prop := ∀ n, isPrime n = true ↔ n.Prime

/-- An exact test accepts the integers that are prime numbers. -/
theorem IsExact.exists_prime {isPrime : ℕ → Bool} (h : IsExact isPrime) {x : ℤ}
    (hx : acceptsInt isPrime x = true) : ∃ n : ℕ, x = n ∧ n.Prime := by
  rw [acceptsInt, Bool.and_eq_true, decide_eq_true_eq] at hx
  obtain ⟨hpos, hacc⟩ := hx
  exact ⟨x.toNat, (Int.toNat_of_nonneg hpos.le).symm, (h _).mp hacc⟩

theorem IsExact.acceptsInt_of_prime {isPrime : ℕ → Bool} (h : IsExact isPrime) {n : ℕ}
    (hn : n.Prime) : acceptsInt isPrime n = true := by
  rw [acceptsInt, Int.toNat_natCast, (h n).mpr hn, Bool.and_true, decide_eq_true_eq]
  exact_mod_cast hn.pos

theorem isExact_decide : IsExact fun n => decide n.Prime := fun _ => decide_eq_true_iff

/-! ### The factors of a modulus -/

/-- Two safe primes that can be used together, with their halves. -/
structure SafeFactors where
  /-- The first prime. -/
  p : ℕ
  /-- The second prime. -/
  q : ℕ
  /-- The half of the first prime. -/
  a : ℕ
  /-- The half of the second prime. -/
  b : ℕ
  p_eq : p = 2 * a + 1
  q_eq : q = 2 * b + 1
  p_prime : p.Prime
  q_prime : q.Prime
  a_prime : a.Prime
  b_prime : b.Prime
  p_ne_q : p ≠ q
  p_ne_b : p ≠ b
  q_ne_a : q ≠ a

namespace SafeFactors

variable (h : SafeFactors)

/-- The modulus of the key. -/
def modulus : ℕ := h.p * h.q

/-- The product of the halves. -/
def product : ℕ := h.a * h.b

/-- The pair that holds the primes. -/
def toPair : SafePrimePair := ⟨h.p, h.a, h.q, h.b⟩

theorem modulus_toPair : h.toPair.modulus = h.modulus := by
  simp [toPair, SafePrimePair.modulus, modulus]

theorem halfProduct_toPair : h.toPair.halfProduct = h.product := by
  simp [toPair, SafePrimePair.halfProduct, product]

theorem five_le_p : 5 ≤ h.p := by
  have := h.a_prime.two_le
  have := h.p_eq
  omega

theorem five_le_q : 5 ≤ h.q := by
  have := h.b_prime.two_le
  have := h.q_eq
  omega

theorem two_lt_modulus : 2 < h.modulus := by
  have hp := h.five_le_p
  have hq := h.five_le_q
  unfold modulus
  nlinarith

theorem product_pos : 0 < h.product := Nat.mul_pos h.a_prime.pos h.b_prime.pos

theorem p_ne_a : h.p ≠ h.a := by
  have := h.p_eq
  omega

theorem q_ne_b : h.q ≠ h.b := by
  have := h.q_eq
  omega

theorem coprime_p_q : Coprime h.p h.q :=
  (Nat.coprime_primes h.p_prime h.q_prime).mpr h.p_ne_q

theorem odd_modulus : Odd h.modulus :=
  Odd.mul ⟨h.a, h.p_eq⟩ ⟨h.b, h.q_eq⟩

/-- **The modulus shares no factor with the product of the halves.**  Of the four pairs of primes
two are a prime and its own half; the others are what the check looks at. -/
theorem coprime_modulus_product : Coprime h.modulus h.product := by
  have hpa : Coprime h.p h.a := (Nat.coprime_primes h.p_prime h.a_prime).mpr h.p_ne_a
  have hpb : Coprime h.p h.b := (Nat.coprime_primes h.p_prime h.b_prime).mpr h.p_ne_b
  have hqa : Coprime h.q h.a := (Nat.coprime_primes h.q_prime h.a_prime).mpr h.q_ne_a
  have hqb : Coprime h.q h.b := (Nat.coprime_primes h.q_prime h.b_prime).mpr h.q_ne_b
  exact (hpa.mul_right hpb).mul_left (hqa.mul_right hqb)

theorem coprime_modulus_four : Coprime h.modulus 4 := by
  have h₂ : Coprime h.modulus 2 := Nat.coprime_two_right.mpr h.odd_modulus
  exact h₂.mul_right h₂

/-- The units modulo `n` are four times `p' * q'` many. -/
theorem totient_modulus : totient h.modulus = 4 * h.product := by
  have hp : totient h.p = 2 * h.a := by
    rw [Nat.totient_prime h.p_prime, h.p_eq, Nat.add_sub_cancel]
  have hq : totient h.q = 2 * h.b := by
    rw [Nat.totient_prime h.q_prime, h.q_eq, Nat.add_sub_cancel]
  rw [modulus, Nat.totient_mul h.coprime_p_q, hp, hq, product]
  ring

/-- **The modulus shares no factor with the number of its units.** -/
theorem coprime_modulus_totient : Coprime h.modulus (totient h.modulus) := by
  rw [h.totient_modulus]
  exact h.coprime_modulus_four.mul_right h.coprime_modulus_product

/-- The numbers coprime to the modulus are those that neither prime divides. -/
theorem coprime_modulus_iff {x : ℕ} : Coprime x h.modulus ↔ ¬h.p ∣ x ∧ ¬h.q ∣ x := by
  rw [modulus, Nat.coprime_mul_iff_right, Nat.coprime_comm, Nat.coprime_comm (m := h.q),
    h.p_prime.coprime_iff_not_dvd, h.q_prime.coprime_iff_not_dvd]

end SafeFactors

/-! ### Accepted pairs -/

theorem natCast_lt_min_iff {l x y : ℕ} : (l : ℤ) < min (x : ℤ) y ↔ l < min x y := by
  rw [← Nat.cast_min, Nat.cast_lt]

/-- A pair without a defect consists of odd primes that differ, with prime halves of which none is
the other prime. -/
theorem SafePrimePair.of_defect?_eq_none {isPrime : ℕ → Bool} {s : SafePrimePair}
    (h : s.defect? isPrime = none) :
    (s.p % 2 ≠ 0 ∧ s.q % 2 ≠ 0) ∧
      (acceptsInt isPrime s.p = true ∧ acceptsInt isPrime s.q = true) ∧
      (acceptsInt isPrime s.halfP = true ∧ acceptsInt isPrime s.halfQ = true) ∧
      s.p ≠ s.q ∧ s.p ≠ s.halfQ ∧ s.q ≠ s.halfP := by
  -- the checks are made one after the other, and none of them has found a defect
  unfold defect? at h
  split_ifs at h with hodd hprime hhalf heq hshared
  rw [Bool.not_eq_true', Bool.not_eq_false, Bool.and_eq_true] at hprime hhalf
  rw [not_or] at hodd hshared
  exact ⟨hodd, hprime, hhalf, heq, hshared⟩

/-- Of two safe primes it only matters how they are related to each other. -/
theorem SafePrimePair.defect?_of_accepted {isPrime : ℕ → Bool} {s : SafePrimePair}
    (hodd : s.p % 2 ≠ 0 ∧ s.q % 2 ≠ 0)
    (hprime : acceptsInt isPrime s.p = true ∧ acceptsInt isPrime s.q = true)
    (hhalf : acceptsInt isPrime s.halfP = true ∧ acceptsInt isPrime s.halfQ = true) :
    s.defect? isPrime =
      if s.p = s.q then some .equal
      else if s.p = s.halfQ ∨ s.q = s.halfP then some .sharedFactor
      else none := by
  rw [defect?, if_neg (not_or.mpr hodd), hprime.1, hprime.2, hhalf.1, hhalf.2]
  rfl

/-- **An accepted pair holds two safe primes that can be used together.** -/
theorem SafePrimePair.exists_safeFactors {isPrime : ℕ → Bool} (hexact : IsExact isPrime) {p q : ℤ}
    {s : SafePrimePair} (hs : ofPrimes isPrime p q = .ok s) :
    ∃ h : SafeFactors, s = h.toPair ∧ p = h.p ∧ q = h.q := by
  obtain ⟨rfl, hdefect⟩ := ofPrimes_eq_ok_iff.mp hs
  obtain ⟨⟨hpo, hqo⟩, ⟨hp, hq⟩, ⟨ha, hb⟩, hpq, hpb, hqa⟩ := of_defect?_eq_none hdefect
  simp only [ofIntegers] at hpo hqo hp hq ha hb hpq hpb hqa
  obtain ⟨p, rfl, hpp⟩ := hexact.exists_prime hp
  obtain ⟨q, rfl, hqp⟩ := hexact.exists_prime hq
  obtain ⟨a, ha, hap⟩ := hexact.exists_prime ha
  obtain ⟨b, hb, hbp⟩ := hexact.exists_prime hb
  refine ⟨⟨p, q, a, b, by omega, by omega, hpp, hqp, hap, hbp, by omega, by omega, by omega⟩, ?_,
    rfl, rfl⟩
  rw [ofIntegers, ha, hb]
  rfl

namespace SafeFactors

theorem toPair_eq_ofIntegers (h : SafeFactors) :
    h.toPair = SafePrimePair.ofIntegers h.p h.q := by
  have hp := h.p_eq
  have hq := h.q_eq
  rw [toPair, SafePrimePair.ofIntegers]
  congr 1 <;> omega

/-- Such primes are accepted, so nothing is lost by starting from them. -/
theorem ofPrimes_eq_ok (h : SafeFactors) {isPrime : ℕ → Bool} (hexact : IsExact isPrime) :
    SafePrimePair.ofPrimes isPrime h.p h.q = .ok h.toPair := by
  have hp := h.p_eq
  have hq := h.q_eq
  have hodd : h.toPair.p % 2 ≠ 0 ∧ h.toPair.q % 2 ≠ 0 := by
    simp only [toPair]
    omega
  have heq : h.toPair.p ≠ h.toPair.q := by
    have := h.p_ne_q
    simp only [toPair]
    omega
  have hshared : ¬(h.toPair.p = h.toPair.halfQ ∨ h.toPair.q = h.toPair.halfP) := by
    have := h.p_ne_b
    have := h.q_ne_a
    simp only [toPair]
    omega
  refine SafePrimePair.ofPrimes_eq_ok_iff.mpr ⟨h.toPair_eq_ofIntegers, ?_⟩
  rw [SafePrimePair.defect?_of_accepted hodd
      ⟨hexact.acceptsInt_of_prime h.p_prime, hexact.acceptsInt_of_prime h.q_prime⟩
      ⟨hexact.acceptsInt_of_prime h.a_prime, hexact.acceptsInt_of_prime h.b_prime⟩,
    if_neg heq, if_neg hshared]

/-- The smallest primes that can be used together. -/
def smallest : SafeFactors where
  p := 5
  q := 7
  a := 2
  b := 3
  p_eq := rfl
  q_eq := rfl
  p_prime := by norm_num
  q_prime := by norm_num
  a_prime := by norm_num
  b_prime := by norm_num
  p_ne_q := by decide
  p_ne_b := by decide
  q_ne_a := by decide

end SafeFactors

end QuorumPaillier
