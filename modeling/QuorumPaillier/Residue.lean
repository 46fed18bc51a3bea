import QuorumPaillier.Basic

/-!
# Residues

Powers modulo a number are computed by repeated squaring.  Exponents can have hundreds of thousands
of digits, so their digits are taken apart in halves and not one by one.  Inverses come from
Euclid's algorithm with a multiplier carried along, and two congruences with coprime moduli are
solved in mixed radix.  The powers of `n + 1` modulo `n ^ 2` are the numbers `1 + m * n`, and the
decoder reads `m` off such a number.

## Main definitions

* `powMod`, `inverse?`, `chinese`, `decode` — powers, inverses, two congruences at once, the
  decoder.

## Main results

* `powMod_eq` — repeated squaring computes the power.
* `inverse?_eq_none_iff`, `mul_inverse?` — when there is an inverse, and what it is.
* `decode_one_add_mul` — the decoder reads off the multiple of `n`.
-/

namespace QuorumPaillier

open scoped Builtin

/-! ### Binary digits -/

/-- The lowest `2 ^ j` binary digits of `e`, the lowest first. -/
def binaryDigits : Nat → Nat → List Bool
  | 0, e => [e % 2 = 1]
  | j + 1, e => binaryDigits j (e % 2 ^ (2 ^ j : Nat)) ++ binaryDigits j (e / 2 ^ (2 ^ j : Nat))

/-- The number with the given binary digits, the lowest first. -/
def ofBinaryDigits (ds : List Bool) : Nat := ds.foldr (fun d e => 2 * e + d.toNat) 0

@[simp] theorem ofBinaryDigits_nil : ofBinaryDigits [] = 0 := rfl

@[simp] theorem ofBinaryDigits_cons (d : Bool) (ds : List Bool) :
    ofBinaryDigits (d :: ds) = 2 * ofBinaryDigits ds + d.toNat := rfl

theorem ofBinaryDigits_append (ds ds' : List Bool) :
    ofBinaryDigits (ds ++ ds') = ofBinaryDigits ds + 2 ^ ds.length * ofBinaryDigits ds' := by
  induction ds with
  | nil => simp
  | cons d ds ih =>
    rw [List.cons_append, ofBinaryDigits_cons, ih, ofBinaryDigits_cons, List.length_cons,
      Nat.pow_succ', Nat.mul_add, Nat.mul_assoc]
    omega

@[simp] theorem length_binaryDigits (j e : Nat) : (binaryDigits j e).length = 2 ^ j := by
  induction j generalizing e with
  | zero => rfl
  | succ j ih => rw [binaryDigits, List.length_append, ih, ih, Nat.pow_succ, Nat.mul_two]

/-- The digits determine the number. -/
theorem ofBinaryDigits_binaryDigits {j e : Nat} (h : e < 2 ^ (2 ^ j : Nat)) :
    ofBinaryDigits (binaryDigits j e) = e := by
  induction j generalizing e with
  | zero =>
    have : e = 0 ∨ e = 1 := by simp at h; omega
    rcases this with rfl | rfl <;> rfl
  | succ j ih =>
    have hq : e / 2 ^ 2 ^ j < 2 ^ 2 ^ j := by
      rw [Nat.div_lt_iff_lt_mul (Nat.two_pow_pos _), ← Nat.pow_add, ← Nat.two_mul,
        ← Nat.pow_succ']
      exact h
    rw [binaryDigits, ofBinaryDigits_append, ih (Nat.mod_lt _ (Nat.two_pow_pos _)), ih hq,
      length_binaryDigits, Nat.mod_add_div]

/-! ### Powers -/

/-- The residue of `a ^ e` modulo `m` for the exponent `e` with the given binary digits. -/
def powDigits (a m : Nat) (ds : List Bool) : Nat :=
  ds.foldr (fun d r => if d then r * r % m * a % m else r * r % m) (1 % m)

theorem powDigits_eq (a m : Nat) (ds : List Bool) :
    powDigits a m ds = a ^ ofBinaryDigits ds % m := by
  induction ds with
  | nil => rfl
  | cons d ds ih =>
    have hs : powDigits a m ds * powDigits a m ds % m = a ^ (2 * ofBinaryDigits ds) % m := by
      rw [ih, ← Nat.mul_mod, ← Nat.pow_add, Nat.two_mul]
    rw [powDigits, List.foldr_cons, ← powDigits, hs, ofBinaryDigits_cons]
    cases d
    · rfl
    · rw [if_pos rfl, Nat.mod_mul_mod, ← Nat.pow_succ]; rfl

/-- The residue of `a ^ e` modulo `m`.  Modulo zero it is the power itself. -/
def powMod (a e m : Nat) : Nat :=
  powDigits (a % m) m (binaryDigits ((e.log2 + 1).log2 + 1) e)

/-- **Repeated squaring computes the power.** -/
theorem powMod_eq (a e m : Nat) : powMod a e m = a ^ e % m := by
  have h : e < 2 ^ 2 ^ ((e.log2 + 1).log2 + 1) :=
    Nat.lt_of_lt_of_le Nat.lt_log2_self
      (Nat.pow_le_pow_right Nat.two_pos (Nat.le_of_lt Nat.lt_log2_self))
  rw [powMod, powDigits_eq, ofBinaryDigits_binaryDigits h, ← Nat.pow_mod]

theorem powMod_lt (a e : Nat) {m : Nat} (hm : 0 < m) : powMod a e m < m := by
  rw [powMod_eq]; exact Nat.mod_lt _ hm

/-! ### Euclid's algorithm with one multiplier -/

/-- Euclid's algorithm on the remainders `r₀`, `r₁` with their multipliers `t₀`, `t₁`: the last
remainder that is not zero, and its multiplier. -/
def euclid (r₀ r₁ : Nat) (t₀ t₁ : Int) : Nat × Int :=
  if r₁ = 0 then (r₀, t₀)
  else euclid r₁ (r₀ % r₁) t₁ (t₀ - ((r₀ / r₁ : Nat) : Int) * t₁)
termination_by r₁
decreasing_by exact Nat.mod_lt _ (by omega)

theorem euclid_fst (r₀ r₁ : Nat) (t₀ t₁ : Int) : (euclid r₀ r₁ t₀ t₁).1 = r₀.gcd r₁ := by
  fun_induction euclid r₀ r₁ t₀ t₁ with
  | case1 r₀ t₀ t₁ => simp
  | case2 r₀ r₁ t₀ t₁ _ ih => rw [ih, Nat.gcd_comm, ← Nat.gcd_rec, Nat.gcd_comm]

/-- The multipliers stay multipliers. -/
theorem dvd_euclid {m a : Int} (r₀ r₁ : Nat) (t₀ t₁ : Int) (h₀ : m ∣ t₀ * a - r₀)
    (h₁ : m ∣ t₁ * a - r₁) : m ∣ (euclid r₀ r₁ t₀ t₁).2 * a - (euclid r₀ r₁ t₀ t₁).1 := by
  fun_induction euclid r₀ r₁ t₀ t₁ with
  | case1 r₀ t₀ t₁ => exact h₀
  | case2 r₀ r₁ t₀ t₁ _ ih =>
    refine ih h₁ ?_
    have hr : ((r₀ % r₁ : Nat) : Int) = r₀ - ((r₀ / r₁ : Nat) : Int) * r₁ := by
      have := Nat.div_add_mod' r₀ r₁
      omega
    have he : (t₀ - ((r₀ / r₁ : Nat) : Int) * t₁) * a - ((r₀ % r₁ : Nat) : Int) =
        (t₀ * a - r₀) - ((r₀ / r₁ : Nat) : Int) * (t₁ * a - r₁) := by
      rw [hr]; simp only [Int.sub_mul, Int.mul_sub, Int.mul_assoc]; omega
    rw [he]
    exact Int.dvd_sub h₀ (Int.dvd_mul_of_dvd_right h₁)

/-! ### The inverse -/

/-- The inverse of `a` modulo `m`, below `m`, if `a` is a unit. -/
def inverse? (a m : Nat) : Option Nat :=
  let run := euclid m (a % m) 0 1
  if run.1 = 1 then some (run.2 % m).toNat else none

theorem euclid_gcd (a m : Nat) : (euclid m (a % m) 0 1).1 = a.gcd m := by
  rw [euclid_fst, Nat.gcd_comm, ← Nat.gcd_rec, Nat.gcd_comm]

/-- **The units are the numbers coprime to the modulus.** -/
theorem inverse?_eq_none_iff {a m : Nat} : inverse? a m = none ↔ a.gcd m ≠ 1 := by
  simp [inverse?, euclid_gcd]

theorem inverse?_isSome_iff {a m : Nat} : (inverse? a m).isSome ↔ a.gcd m = 1 := by
  rw [← Option.ne_none_iff_isSome, ne_eq, inverse?_eq_none_iff, Decidable.not_not]

/-- A unit has an inverse. -/
theorem exists_inverse? {a m : Nat} (h : a.gcd m = 1) : ∃ x, inverse? a m = some x :=
  Option.isSome_iff_exists.mp (inverse?_isSome_iff.mpr h)

theorem lt_of_inverse? {a m x : Nat} (hm : 0 < m) (h : inverse? a m = some x) : x < m := by
  simp only [inverse?] at h
  split at h
  · obtain rfl := Option.some.inj h
    have h₁ := Int.emod_nonneg (euclid m (a % m) 0 1).2 (Int.natCast_ne_zero.mpr (by omega : m ≠ 0))
    have h₂ := Int.emod_lt_of_pos (euclid m (a % m) 0 1).2 (Int.natCast_pos.mpr hm)
    omega
  · simp at h

/-- **The product of a unit and its inverse is one.** -/
theorem mul_inverse? {a m x : Nat} (hm : 0 < m) (h : inverse? a m = some x) :
    a * x % m = 1 % m := by
  simp only [inverse?] at h
  split at h
  case isFalse => simp at h
  case isTrue hg =>
    obtain rfl := Option.some.inj h
    have hd : (m : Int) ∣ (euclid m (a % m) 0 1).2 * a - (euclid m (a % m) 0 1).1 := by
      refine dvd_euclid _ _ _ _ ⟨-1, by omega⟩ ⟨((a / m : Nat) : Int), ?_⟩
      have := Nat.div_add_mod a m
      simp only [Int.one_mul]
      rw [← Int.natCast_mul]
      omega
    rw [hg] at hd
    have hx := Int.toNat_of_nonneg
      (Int.emod_nonneg (euclid m (a % m) 0 1).2 (Int.natCast_ne_zero.mpr (by omega : m ≠ 0)))
    have hz : ((a * ((euclid m (a % m) 0 1).2 % m).toNat : Nat) : Int) % m = 1 % m := by
      rw [Int.natCast_mul, hx, Int.mul_emod, Int.emod_emod, ← Int.mul_emod, Int.mul_comm]
      exact Int.emod_eq_emod_iff_emod_sub_eq_zero.mpr (Int.emod_eq_zero_of_dvd hd)
    exact_mod_cast hz

/-! ### Two congruences at once -/

/-- The number below `m₁ * m₂` that is congruent to `a₁` modulo `m₁` and to `a₂` modulo `m₂`. -/
def chinese (a₁ m₁ a₂ m₂ : Int) : Except Error Nat :=
  if m₁ ≤ 0 ∨ m₂ ≤ 0 then .error (.violation .modulusNotPositive)
  else
    match inverse? m₁.toNat m₂.toNat with
    | none => .error (.violation .moduliNotCoprime)
    | some u =>
        let low := a₁ % m₁
        let high := (a₂ - low) * u % m₂
        .ok (low + m₁ * high).toNat

/-- A modulus that is not positive is refused before the moduli are compared. -/
theorem chinese_of_modulus_le_zero {a₁ m₁ a₂ m₂ : Int} (h : m₁ ≤ 0 ∨ m₂ ≤ 0) :
    chinese a₁ m₁ a₂ m₂ = .error (.violation .modulusNotPositive) := by
  simp [chinese, h]

/-- Positive moduli with a common factor determine no solution. -/
theorem chinese_of_gcd_ne_one {a₁ m₁ a₂ m₂ : Int} (h₁ : 0 < m₁) (h₂ : 0 < m₂)
    (h : m₁.toNat.gcd m₂.toNat ≠ 1) :
    chinese a₁ m₁ a₂ m₂ = .error (.violation .moduliNotCoprime) := by
  have hm : ¬(m₁ ≤ 0 ∨ m₂ ≤ 0) := by omega
  simp only [chinese, hm, if_false, inverse?_eq_none_iff.mpr h]

/-! ### The decoder -/

/-- The multiple of `n` by which `u` exceeds one, reduced modulo `n`. -/
def decode (u n : Int) : Int := ((u - 1).tdiv n).fmod n

/-- The multiple of `n` by which `u` exceeds one, reduced modulo `n`, unless `n` is zero. -/
def decode? (u n : Int) : Except Error Int :=
  if n = 0 then .error (.fault .divisionByZero) else .ok (decode u n)

theorem decode?_of_ne_zero (u : Int) {n : Int} (h : n ≠ 0) : decode? u n = .ok (decode u n) := by
  simp [decode?, h]

/-- The decoder reads off the multiple of the modulus. -/
theorem decode_one_add_mul (m : Int) {n : Int} (h : 0 < n) : decode (1 + m * n) n = m % n := by
  have hs : 1 + m * n - 1 = m * n := by omega
  rw [decode, hs, Int.mul_tdiv_cancel m (by omega), Int.fmod_eq_emod_of_nonneg m (by omega)]

theorem decode_nonneg (u : Int) {n : Int} (h : 0 < n) : 0 ≤ decode u n := by
  rw [decode, Int.fmod_eq_emod_of_nonneg _ (by omega)]
  exact Int.emod_nonneg _ (by omega)

theorem decode_lt (u : Int) {n : Int} (h : 0 < n) : decode u n < n := by
  rw [decode, Int.fmod_eq_emod_of_nonneg _ (by omega)]
  exact Int.emod_lt_of_pos _ h

end QuorumPaillier
