import Mathlib.Data.Int.ModEq
import Mathlib.Data.Set.Function
import Mathlib.FieldTheory.Finite.Basic
import Mathlib.NumberTheory.Basic
import Mathlib.Tactic
import QuorumPaillier.Key
import QuorumPaillier.Residue

/-!
# Residues modulo a square, two congruences, the decoder

Ciphertexts live modulo `n * n`, plaintexts and randomness modulo `n`.  What joins the two levels is
that `n` is a number whose square vanishes: a multiple `x * n` depends on `x` modulo `n` only, the
powers of `1 + x * n` are `1 + k * x * n`, and an `n`-th power depends on its base modulo `n` only.
On the numbers that are one modulo `n` the decoder rounds nothing, whatever their sign and size, so
it turns products into sums.  None of this asks anything of `n`.

## Main results

* `one_add_mul_modulus_pow` — **the powers of the generator are linear in the exponent.**
* `pow_totient_mul_modulus` — **every unit has an order that divides `φ n * n`.**
* `chinese_outcome` — **two congruences have an answer exactly for coprime positive moduli**, and it
  is the only common solution.
* `decode_isomorphism` — **the decoder is an isomorphism** from the decodable numbers onto the
  residues.
-/

namespace QuorumPaillier

section Square

variable {n : ℕ}

/-! ### The vanishing square -/

theorem modulus_mul_modulus (n : ℕ) : (n : ZMod (n * n)) * n = 0 := by
  rw [← Nat.cast_mul, ZMod.natCast_self]

/-- Multiples of `n` modulo `n * n` are counted modulo `n`. -/
theorem mul_modulus_eq_iff (hn : 0 < n) (a b : ℤ) :
    (a : ZMod (n * n)) * n = b * n ↔ a ≡ b [ZMOD n] := by
  have hz : (n : ℤ) ≠ 0 := Int.natCast_ne_zero.mpr hn.ne'
  have hcast : (a : ZMod (n * n)) * n = b * n ↔ a * n ≡ b * n [ZMOD (n * n : ℕ)] := by
    rw [← ZMod.intCast_eq_intCast_iff]
    push_cast
    rfl
  rw [hcast, Int.modEq_iff_dvd, Int.modEq_iff_dvd, ← sub_mul, Nat.cast_mul]
  exact mul_dvd_mul_iff_right hz

theorem mul_modulus_congr {a b : ℤ} (h : a ≡ b [ZMOD n]) :
    (a : ZMod (n * n)) * n = b * n := by
  rcases Nat.eq_zero_or_pos n with rfl | hn
  · simp
  · exact (mul_modulus_eq_iff hn a b).mpr h

/-! ### Powers -/

/-- **The powers of the generator are linear in the exponent.** -/
theorem one_add_mul_modulus_pow (x : ZMod (n * n)) (k : ℕ) :
    (1 + x * n) ^ k = 1 + k * x * n := by
  induction k with
  | zero => simp
  | succ k ih =>
    rw [pow_succ, ih]
    push_cast
    linear_combination (k : ZMod (n * n)) * x ^ 2 * modulus_mul_modulus n

theorem one_add_mul_modulus_mul (x y : ZMod (n * n)) :
    (1 + x * n) * (1 + y * n) = 1 + (x + y) * n := by
  linear_combination x * y * modulus_mul_modulus n

/-- An `n`-th power modulo `n * n` is determined by its base modulo `n`. -/
theorem pow_modulus_congr {a b : ℕ} (h : a ≡ b [MOD n]) :
    (a : ZMod (n * n)) ^ n = (b : ZMod (n * n)) ^ n := by
  have hd : (n : ℤ) ∣ (b : ℤ) - a := Nat.modEq_iff_dvd.mp h
  -- taking `n`-th powers adds one factor `n` to what the difference is divisible by
  have hp : ((n ^ 2 : ℕ) : ℤ) ∣ (b : ℤ) ^ n - (a : ℤ) ^ n := by
    have := dvd_sub_pow_of_dvd_sub hd 1
    simpa using this
  rw [pow_two] at hp
  have he := (ZMod.intCast_eq_intCast_iff_dvd_sub ((a : ℤ) ^ n) ((b : ℤ) ^ n) (n * n)).mpr hp
  push_cast at he
  exact he

/-- **Every unit has an order that divides `φ n * n`.** -/
theorem pow_totient_mul_modulus {c : ℕ} (h : c.Coprime n) :
    (c : ZMod (n * n)) ^ (n.totient * n) = 1 := by
  have he : c ^ n.totient ≡ 1 [MOD n] := Nat.ModEq.pow_totient h
  have hp := pow_modulus_congr he
  rw [Nat.cast_one, one_pow] at hp
  rw [pow_mul, ← Nat.cast_pow, hp]

/-! ### Units and residues -/

theorem natCast_toNat_emod (hn : 0 < n) (m : ℤ) : (((m % n).toNat : ℕ) : ℤ) = m % n :=
  Int.toNat_of_nonneg (Int.emod_nonneg m (by omega))

theorem coprime_mod {x N : ℕ} (hx : x.Coprime N) : (x % N).Coprime N :=
  (Nat.mod_modEq x N).gcd_eq.trans hx

theorem coprime_modulus_mul_modulus_iff {c : ℕ} : c.Coprime (n * n) ↔ c.Coprime n :=
  ⟨Nat.Coprime.coprime_mul_left_right, fun h => h.mul_right h⟩

theorem eq_one_add_mul_modulus {u : ℕ} (h : u ≡ 1 [MOD n]) :
    ∃ x : ℤ, (u : ZMod (n * n)) = 1 + x * n := by
  obtain ⟨x, hx⟩ := Nat.modEq_iff_dvd.mp h.symm
  refine ⟨x, ?_⟩
  have hu : (u : ℤ) = 1 + x * n := by
    rw [mul_comm x]
    push_cast at hx
    linarith
  have hc := congrArg (Int.cast : ℤ → ZMod (n * n)) hu
  push_cast at hc
  exact hc

/-! ### The square of a public modulus -/

namespace PublicKey

variable (pk : PublicKey)

theorem nSquared_eq_sq : pk.nSquared = pk.n ^ 2 := by
  rw [pk.nSquared_eq, sq]

theorem natCast_nSquared : (pk.nSquared : ℤ) = (pk.n : ℤ) ^ 2 := by
  rw [nSquared_eq_sq, Nat.cast_pow]

theorem natCast_mod_nSquared (x : ℕ) :
    ((x % pk.nSquared : ℕ) : ZMod (pk.n * pk.n)) = x := by
  rw [pk.nSquared_eq, ZMod.natCast_mod]

theorem coprime_nSquared_iff {c : ℕ} : c.Coprime pk.nSquared ↔ c.Coprime pk.n := by
  rw [pk.nSquared_eq, coprime_modulus_mul_modulus_iff]

end PublicKey

end Square

theorem mul_inverse?_modEq {a m u : ℕ} (hm : 0 < m) (h : inverse? a m = some u) :
    (a : ℤ) * u ≡ 1 [ZMOD m] := by
  have hu : a * u ≡ 1 [MOD m] := mul_inverse? hm h
  have hz := Int.natCast_modEq_iff.mpr hu
  push_cast at hz
  exact hz

/-- Modulo one every number is a unit, and zero is its inverse. -/
@[simp] theorem inverse?_one (a : ℕ) : inverse? a 1 = some 0 := by
  obtain ⟨u, hu⟩ := exists_inverse? (Nat.gcd_one_right a)
  have hlt : u < 1 := lt_of_inverse? Nat.one_pos hu
  obtain rfl : u = 0 := by omega
  exact hu

/-! ### Common solutions -/

/-- A solution of two congruences below the product of the moduli. -/
structure IsCommonSolution (a₁ m₁ a₂ m₂ x : ℤ) : Prop where
  /-- It is not negative. -/
  nonneg : 0 ≤ x
  /-- It is below the product of the moduli. -/
  lt : x < m₁ * m₂
  /-- It solves the first congruence. -/
  first : x ≡ a₁ [ZMOD m₁]
  /-- It solves the second congruence. -/
  second : x ≡ a₂ [ZMOD m₂]

/-- Coprime moduli have at most one common solution: two of them are congruent modulo the product,
and both are below it. -/
theorem IsCommonSolution.unique {a₁ m₁ a₂ m₂ x y : ℤ} (h : m₁.gcd m₂ = 1)
    (hx : IsCommonSolution a₁ m₁ a₂ m₂ x) (hy : IsCommonSolution a₁ m₁ a₂ m₂ y) : x = y := by
  have hcongr : x ≡ y [ZMOD m₁ * m₂] :=
    (Int.modEq_and_modEq_iff_modEq_mul h).mp
      ⟨hx.first.trans hy.first.symm, hx.second.trans hy.second.symm⟩
  rw [Int.ModEq, Int.emod_eq_of_lt hx.nonneg hx.lt, Int.emod_eq_of_lt hy.nonneg hy.lt] at hcongr
  exact hcongr

/-! ### The answer -/

/-- **Coprime positive moduli have a common solution**, and it is the answer. -/
theorem exists_chinese_eq_ok {m₁ m₂ : ℤ} (h₁ : 0 < m₁) (h₂ : 0 < m₂) (h : m₁.gcd m₂ = 1)
    (a₁ a₂ : ℤ) :
    ∃ x : ℕ, chinese a₁ m₁ a₂ m₂ = .ok x ∧ IsCommonSolution a₁ m₁ a₂ m₂ x := by
  lift m₁ to ℕ using h₁.le
  lift m₂ to ℕ using h₂.le
  rw [Int.gcd_natCast_natCast] at h
  obtain ⟨u, hu⟩ := exists_inverse? h
  have hinv : (m₁ : ℤ) * u ≡ 1 [ZMOD m₂] := mul_inverse?_modEq (by omega) hu
  -- the two digits of the answer in mixed radix
  set low : ℤ := a₁ % m₁ with hlow
  set high : ℤ := (a₂ - low) * u % m₂ with hhigh
  have hlow₀ : 0 ≤ low := Int.emod_nonneg _ (by omega)
  have hlow₁ : low < m₁ := Int.emod_lt_of_pos _ h₁
  have hhigh₀ : 0 ≤ high := Int.emod_nonneg _ (by omega)
  have hhigh₁ : high < m₂ := Int.emod_lt_of_pos _ h₂
  have hpos : 0 ≤ low + m₁ * high := by positivity
  refine ⟨(low + m₁ * high).toNat, ?_, Int.natCast_nonneg _, ?_, ?_, ?_⟩
  · have hm : ¬((m₁ : ℤ) ≤ 0 ∨ (m₂ : ℤ) ≤ 0) := by omega
    simp only [chinese, hm, if_false, Int.toNat_natCast, hu]
    rfl
  · -- the high digit is at most `m₂ - 1`, so the number is below `m₁ + m₁ * (m₂ - 1)`
    rw [Int.toNat_of_nonneg hpos]
    nlinarith
  · rw [Int.toNat_of_nonneg hpos]
    calc low + m₁ * high ≡ low + 0 [ZMOD m₁] :=
          Int.ModEq.rfl.add (Int.modEq_zero_iff_dvd.mpr (dvd_mul_right _ _))
      _ = low := add_zero low
      _ ≡ a₁ [ZMOD m₁] := Int.mod_modEq a₁ m₁
  · rw [Int.toNat_of_nonneg hpos]
    calc low + m₁ * high ≡ low + m₁ * ((a₂ - low) * u) [ZMOD m₂] :=
          Int.ModEq.rfl.add (Int.ModEq.rfl.mul (Int.mod_modEq _ _))
      _ = low + (a₂ - low) * (m₁ * u) := by ring
      _ ≡ low + (a₂ - low) * 1 [ZMOD m₂] := Int.ModEq.rfl.add (Int.ModEq.rfl.mul hinv)
      _ = a₂ := by ring

theorem gcd_toNat {m₁ m₂ : ℤ} (h₁ : 0 < m₁) (h₂ : 0 < m₂) :
    m₁.toNat.gcd m₂.toNat = m₁.gcd m₂ := by
  lift m₁ to ℕ using h₁.le
  lift m₂ to ℕ using h₂.le
  rfl

/-- The answers are the common solutions. -/
theorem chinese_eq_ok_iff {a₁ m₁ a₂ m₂ : ℤ} {x : ℕ} :
    chinese a₁ m₁ a₂ m₂ = .ok x ↔
      (0 < m₁ ∧ 0 < m₂ ∧ m₁.gcd m₂ = 1) ∧ IsCommonSolution a₁ m₁ a₂ m₂ x := by
  by_cases hpos : m₁ ≤ 0 ∨ m₂ ≤ 0
  · rw [chinese_of_modulus_le_zero hpos]
    simp only [reduceCtorEq, false_iff]
    rintro ⟨⟨h₁, h₂, -⟩, -⟩
    omega
  · have h₁ : 0 < m₁ := by omega
    have h₂ : 0 < m₂ := by omega
    by_cases hgcd : m₁.gcd m₂ = 1
    · obtain ⟨z, hz, hsol⟩ := exists_chinese_eq_ok h₁ h₂ hgcd a₁ a₂
      rw [hz, Except.ok.injEq]
      constructor
      · rintro rfl
        exact ⟨⟨h₁, h₂, hgcd⟩, hsol⟩
      · rintro ⟨-, hx⟩
        exact_mod_cast hsol.unique hgcd hx
    · rw [chinese_of_gcd_ne_one h₁ h₂ (by rwa [gcd_toNat h₁ h₂])]
      simp only [reduceCtorEq, false_iff]
      rintro ⟨⟨-, -, h⟩, -⟩
      exact hgcd h

/-- The failures: a modulus that is not positive, or else a common factor. -/
theorem chinese_eq_error_iff {a₁ m₁ a₂ m₂ : ℤ} {e : Error} :
    chinese a₁ m₁ a₂ m₂ = .error e ↔
      (m₁ ≤ 0 ∨ m₂ ≤ 0) ∧ e = .violation .modulusNotPositive ∨
        (0 < m₁ ∧ 0 < m₂ ∧ m₁.gcd m₂ ≠ 1) ∧ e = .violation .moduliNotCoprime := by
  by_cases hpos : m₁ ≤ 0 ∨ m₂ ≤ 0
  · have hnot : ¬(0 < m₁ ∧ 0 < m₂ ∧ m₁.gcd m₂ ≠ 1) := by omega
    rw [chinese_of_modulus_le_zero hpos, Except.error.injEq]
    simp only [hpos, hnot, true_and, false_and, or_false, eq_comm]
  · have h₁ : 0 < m₁ := by omega
    have h₂ : 0 < m₂ := by omega
    by_cases hgcd : m₁.gcd m₂ = 1
    · obtain ⟨z, hz, -⟩ := exists_chinese_eq_ok h₁ h₂ hgcd a₁ a₂
      simp [hz, hpos, hgcd]
    · rw [chinese_of_gcd_ne_one h₁ h₂ (by rwa [gcd_toNat h₁ h₂]), Except.error.injEq]
      simp [hpos, h₁, h₂, hgcd, eq_comm]

/-- **There is an answer exactly for coprime positive moduli**, and it is the only common solution.
In every other case the moduli are refused for what is wrong with them. -/
theorem chinese_outcome (a₁ m₁ a₂ m₂ : ℤ) :
    ((∃ x, chinese a₁ m₁ a₂ m₂ = .ok x) ↔ 0 < m₁ ∧ 0 < m₂ ∧ m₁.gcd m₂ = 1) ∧
      (∀ x : ℕ, chinese a₁ m₁ a₂ m₂ = .ok x →
        ∀ y : ℤ, y = x ↔ IsCommonSolution a₁ m₁ a₂ m₂ y) ∧
      (∀ e, chinese a₁ m₁ a₂ m₂ = .error e ↔
        (m₁ ≤ 0 ∨ m₂ ≤ 0) ∧ e = .violation .modulusNotPositive ∨
          (0 < m₁ ∧ 0 < m₂ ∧ m₁.gcd m₂ ≠ 1) ∧ e = .violation .moduliNotCoprime) ∧
      ∀ a : ℕ, inverse? a 1 = some 0 := by
  refine ⟨?_, ?_, fun _ => chinese_eq_error_iff, inverse?_one⟩
  · constructor
    · rintro ⟨x, hx⟩
      exact (chinese_eq_ok_iff.mp hx).1
    · intro h
      cases hrun : chinese a₁ m₁ a₂ m₂ with
      | ok x => exact ⟨x, rfl⟩
      | error e =>
        -- each of the failures contradicts one of the conditions
        rcases chinese_eq_error_iff.mp hrun with ⟨hpos, -⟩ | ⟨⟨-, -, hgcd⟩, -⟩
        · omega
        · exact absurd h.2.2 hgcd
  · intro x hx y
    obtain ⟨⟨-, -, hgcd⟩, hsol⟩ := chinese_eq_ok_iff.mp hx
    constructor
    · rintro rfl
      exact hsol
    · intro hy
      exact hy.unique hgcd hsol

/-- A negative residue and a residue above its modulus: `-7` modulo `3` and `40` modulo `5`. -/
theorem chinese_outcome_five :
    chinese (-7) 3 40 5 = .ok 5 ∧ IsCommonSolution (-7) 3 40 5 5 ∧
      chinese (-7) 3 40 1 = .ok 2 ∧ IsCommonSolution (-7) 3 40 1 2 ∧
      chinese (-7) 3 40 (-5) = .error (.violation .modulusNotPositive) ∧
      chinese (-7) 6 40 9 = .error (.violation .moduliNotCoprime) := by
  have hfive : chinese (-7) 3 40 5 = .ok 5 := by decide +kernel
  have htwo : chinese (-7) 3 40 1 = .ok 2 := by decide +kernel
  exact ⟨hfive, ((chinese_outcome (-7) 3 40 5).2.1 5 hfive 5).mp rfl,
    htwo, ((chinese_outcome (-7) 3 40 1).2.1 2 htwo 2).mp rfl,
    ((chinese_outcome (-7) 3 40 (-5)).2.2.1 _).mpr (.inl ⟨by decide, rfl⟩),
    ((chinese_outcome (-7) 6 40 9).2.2.1 _).mpr (.inr ⟨by decide, rfl⟩)⟩

/-! ### Decodable numbers -/

/-- The numbers strictly between zero and the square of `n` that are one modulo `n`. -/
def decodable (n : ℤ) : Set ℤ := {u | 0 < u ∧ u < n ^ 2 ∧ u ≡ 1 [ZMOD n]}

variable {n u v : ℤ}

theorem exists_eq_one_add_mul (hu : u ≡ 1 [ZMOD n]) : ∃ x, u = 1 + x * n := by
  obtain ⟨x, hx⟩ := hu.symm.dvd
  exact ⟨x, by linear_combination hx⟩

/-! ### Products and powers -/

/-- The decoder sees an integer modulo the square of `n` only. -/
theorem decode_congr (hn : 0 < n) (hu : u ≡ 1 [ZMOD n]) (h : u ≡ v [ZMOD n ^ 2]) :
    decode u n = decode v n := by
  obtain ⟨x, rfl⟩ := exists_eq_one_add_mul hu
  obtain ⟨t, ht⟩ := h.dvd
  have hv : v = 1 + (x + t * n) * n := by linear_combination ht
  rw [hv, decode_one_add_mul _ hn, decode_one_add_mul _ hn, Int.add_mul_emod_self_right]

theorem decode_emod (hn : 0 < n) (hu : u ≡ 1 [ZMOD n]) : decode (u % n ^ 2) n = decode u n :=
  (decode_congr hn hu (Int.mod_modEq u (n ^ 2)).symm).symm

/-- **Products become sums.** -/
theorem decode_mul (hn : 0 < n) (hu : u ≡ 1 [ZMOD n]) (hv : v ≡ 1 [ZMOD n]) :
    decode (u * v) n = (decode u n + decode v n) % n := by
  obtain ⟨x, rfl⟩ := exists_eq_one_add_mul hu
  obtain ⟨y, rfl⟩ := exists_eq_one_add_mul hv
  -- the product of the two multiples is a multiple of the square, and vanishes
  have hprod : (1 + x * n) * (1 + y * n) = 1 + (x + y + x * y * n) * n := by ring
  rw [hprod, decode_one_add_mul _ hn, decode_one_add_mul _ hn, decode_one_add_mul _ hn,
    Int.add_mul_emod_self_right, ← Int.add_emod]

theorem generator_pow_modEq (n : ℤ) (k : ℕ) : (n + 1) ^ k ≡ 1 [ZMOD n] := by
  have hgen : n + 1 ≡ 1 [ZMOD n] := Int.add_modEq_left
  simpa using hgen.pow k

/-- The powers of the generator are read as their exponents. -/
theorem decode_generator_pow (hn : 0 < n) (k : ℕ) : decode ((n + 1) ^ k) n = k % n := by
  have hone : decode (n + 1) n = 1 % n := by
    rw [← decode_one_add_mul 1 hn, one_mul, add_comm]
  induction k with
  | zero => simpa using decode_one_add_mul 0 hn
  | succ k ih =>
    have hgen : n + 1 ≡ 1 [ZMOD n] := Int.add_modEq_left
    rw [pow_succ, decode_mul hn (generator_pow_modEq n k) hgen, ih, hone, ← Int.add_emod]
    push_cast
    rfl

/-! ### The inverse -/

/-- A decodable number is determined by what is read off. -/
theorem one_add_decode_mul (hn : 1 < n) (hu : u ∈ decodable n) : 1 + decode u n * n = u := by
  obtain ⟨hpos, hlt, hone⟩ := hu
  obtain ⟨x, rfl⟩ := exists_eq_one_add_mul hone
  -- the multiple is one of the residues, since the number is below the square
  have hx₀ : 0 ≤ x := by
    by_contra hneg
    nlinarith
  have hx : x < n := by
    by_contra hge
    nlinarith
  rw [decode_one_add_mul x (by omega), Int.emod_eq_of_lt hx₀ hx]

theorem one_add_mul_mem_decodable (hn : 1 < n) {x : ℤ} (hx₀ : 0 ≤ x) (hx : x < n) :
    1 + x * n ∈ decodable n := by
  refine ⟨by nlinarith, by nlinarith, ?_⟩
  exact Int.add_mul_emod_self_right 1 x n

theorem emod_mem_decodable (hn : 1 < n) (hu : u ≡ 1 [ZMOD n]) : u % n ^ 2 ∈ decodable n := by
  have hsq : 0 < n ^ 2 := by positivity
  have hone : u % n ^ 2 ≡ 1 [ZMOD n] :=
    ((Int.mod_modEq u (n ^ 2)).of_dvd (dvd_pow_self n two_ne_zero)).trans hu
  refine ⟨lt_of_le_of_ne (Int.emod_nonneg u hsq.ne') ?_, Int.emod_lt_of_pos u hsq, hone⟩
  intro hzero
  rw [← hzero, Int.ModEq, Int.zero_emod, Int.emod_eq_of_lt zero_le_one hn] at hone
  exact zero_ne_one hone

/-- **The decoder has an inverse.** -/
theorem bijOn_decode (hn : 1 < n) : Set.BijOn (decode · n) (decodable n) (Set.Ico 0 n) := by
  have hpos : 0 < n := by omega
  refine Set.BijOn.mk ?_ ?_ ?_
  · intro u _
    exact ⟨decode_nonneg u hpos, decode_lt u hpos⟩
  · intro u hu v hv (heq : decode u n = decode v n)
    rw [← one_add_decode_mul hn hu, heq, one_add_decode_mul hn hv]
  · rintro x ⟨hx₀, hx⟩
    refine ⟨1 + x * n, one_add_mul_mem_decodable hn hx₀ hx, ?_⟩
    exact (decode_one_add_mul x hpos).trans (Int.emod_eq_of_lt hx₀ hx)

/-! ### The isomorphism -/

/-- **The decoder is an isomorphism.**  It has a value for every integer.  It maps the decodable
numbers one to one onto the residues, products to sums, and the power of the generator that carries
a plaintext to the plaintext; and an integer that is one modulo `n`, of whatever sign and size, is
read as its residue modulo the square. -/
theorem decode_isomorphism (hn : 2 < n) :
    (∀ u, decode? u n = .ok (decode u n)) ∧
    Set.BijOn (decode · n) (decodable n) (Set.Ico 0 n) ∧
    (∀ u ∈ decodable n, ∀ v ∈ decodable n,
      u * v % n ^ 2 ∈ decodable n ∧
        decode (u * v % n ^ 2) n = (decode u n + decode v n) % n) ∧
    (∀ m : ℤ, decode ((n + 1) ^ (m % n).toNat % n ^ 2) n = m % n) ∧
    ∀ u : ℤ, u ≡ 1 [ZMOD n] → decode u n = decode (u % n ^ 2) n := by
  have hpos : 0 < n := by omega
  refine ⟨?_, bijOn_decode (by omega), ?_, ?_, ?_⟩
  · intro u
    exact decode?_of_ne_zero u hpos.ne'
  · intro u hu v hv
    have hprod : u * v ≡ 1 [ZMOD n] := by simpa using hu.2.2.mul hv.2.2
    refine ⟨emod_mem_decodable (by omega) hprod, ?_⟩
    rw [decode_emod hpos hprod, decode_mul hpos hu.2.2 hv.2.2]
  · intro m
    have hnat : (((m % n).toNat : ℕ) : ℤ) = m % n :=
      Int.toNat_of_nonneg (Int.emod_nonneg m hpos.ne')
    rw [decode_emod hpos (generator_pow_modEq n _), decode_generator_pow hpos, hnat, Int.emod_emod]
  · intro u hu
    exact (decode_emod hpos hu).symm

/-- The decoder modulo `15`: the numbers `31` and `106` hold `2` and `7`, and `-14` is read as its
residue `211`. -/
theorem decode_isomorphism_fifteen :
    (2 : ℤ) < 15 ∧ decode? (-14) 15 = .ok 14 ∧
    Set.BijOn (decode · 15) (decodable 15) (Set.Ico 0 15) ∧
    (31 ∈ decodable 15 ∧ 106 ∈ decodable 15 ∧
      decode (31 * 106 % 15 ^ 2) 15 = (decode 31 15 + decode 106 15) % 15) ∧
    decode ((15 + 1) ^ ((-4 : ℤ) % 15).toNat % 15 ^ 2) 15 = -4 % 15 ∧
    (-14 ≡ 1 [ZMOD 15] ∧ decode (-14) 15 = decode (-14 % 15 ^ 2) 15) := by
  have hleft : (31 : ℤ) ∈ decodable 15 := ⟨by decide, by decide, by decide⟩
  have hright : (106 : ℤ) ∈ decodable 15 := ⟨by decide, by decide, by decide⟩
  have hnegative : (-14 : ℤ) ≡ 1 [ZMOD 15] := by decide
  obtain ⟨hvalue, hbij, hmul, hpow, hmod⟩ := decode_isomorphism (show (2 : ℤ) < 15 by decide)
  exact ⟨by decide, hvalue (-14), hbij, ⟨hleft, hright, (hmul 31 hleft 106 hright).2⟩, hpow (-4),
    hnegative, hmod (-14) hnegative⟩

end QuorumPaillier
