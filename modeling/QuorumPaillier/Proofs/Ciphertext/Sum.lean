import Mathlib.Tactic
import QuorumPaillier.Ciphertext.Arithmetic
import QuorumPaillier.Proofs.Key.Construction

/-!
# Sums of arbitrary ciphertexts

Ciphertexts that callers hand over need not be units.  Their sum is their product modulo `n ^ 2`,
which can be zero, and zero is no ciphertext: as the answer it is given, but as a running total to
which another ciphertext has to be added it is refused.  So there is a sum unless an initial part of
the list has a product that the square of `n` divides.  Which parts are initial depends on the
order, and nothing else does.  Units never have such a product.

## Main definitions

* `PublicKey.total`, `PublicKey.VanishesEarly` — a running total, and that one vanishes too early.

## Main results

* `PublicKey.foldlM_add_total` — what adding a list does to a running total.
* `PublicKey.sum_outcome` — **there is one sum for every order, unless a running total vanishes
  early.**
-/

namespace QuorumPaillier

namespace PublicKey

variable (pk : PublicKey)

/-- The running total after factors with the product `p`. -/
def total (p : ℤ) : ℕ := (p % (pk.n : ℤ) ^ 2).toNat

/-- The square of the modulus divides the product of `p` and some of the first members of the list,
but not of all of them. -/
def VanishesFrom (p : ℤ) (cs : List ℤ) : Prop :=
  ∃ ps, ps <+: cs ∧ ps ≠ cs ∧ (pk.n : ℤ) ^ 2 ∣ p * ps.prod

/-- The square of the modulus divides the product of an initial part of the list that is not all of
it. -/
def VanishesEarly (cs : List ℤ) : Prop :=
  ∃ ps, ps <+: cs ∧ ps ≠ cs ∧ (pk.n : ℤ) ^ 2 ∣ ps.prod

theorem vanishesFrom_one_iff {cs : List ℤ} : pk.VanishesFrom 1 cs ↔ pk.VanishesEarly cs := by
  simp only [VanishesFrom, VanishesEarly, one_mul]

/-! ### Running totals -/

theorem natCast_total (p : ℤ) : (pk.total p : ℤ) = p % (pk.n : ℤ) ^ 2 := by
  have hn : (pk.n : ℤ) ≠ 0 := by exact_mod_cast pk.n_pos.ne'
  exact Int.toNat_of_nonneg (Int.emod_nonneg p (pow_ne_zero 2 hn))

theorem total_lt (p : ℤ) : pk.total p < pk.nSquared := by
  have hpos : (0 : ℤ) < pk.nSquared := by exact_mod_cast pk.nSquared_pos
  have hlt := Int.emod_lt_of_pos p hpos
  rw [natCast_nSquared, ← natCast_total, ← natCast_nSquared] at hlt
  exact_mod_cast hlt

theorem total_eq_zero_iff {p : ℤ} : pk.total p = 0 ↔ (pk.n : ℤ) ^ 2 ∣ p := by
  rw [← Int.natCast_eq_zero, natCast_total, Int.dvd_iff_emod_eq_zero]

/-- **Adding one ciphertext** multiplies the running total, unless that has vanished. -/
theorem add_total (p : ℤ) {c : ℤ} (hc₀ : 0 < c) (hc : c < (pk.n : ℤ) ^ 2) :
    pk.add (pk.total p) c =
      if pk.total p = 0 then .error (.invalidCiphertext .notPositive)
      else .ok (pk.total (p * c)) := by
  split
  case isTrue hzero =>
    rw [hzero, add, pk.accept_of_le_zero (by simp)]
    rfl
  case isFalse hpos =>
    lift c to ℕ using hc₀.le
    rw [← natCast_nSquared] at hc
    rw [pk.add_natCast (Nat.pos_of_ne_zero hpos) (pk.total_lt p) (by omega) (by omega)]
    refine congrArg Except.ok ?_
    rw [← Int.natCast_inj, natCast_total, Int.natCast_emod, Nat.cast_mul, natCast_total,
      natCast_nSquared]
    exact (Int.mod_modEq p _).mul_right c

/-! ### Vanishing early -/

theorem not_vanishesFrom_nil (p : ℤ) : ¬pk.VanishesFrom p [] := by
  rintro ⟨ps, hprefix, hne, -⟩
  exact hne (List.prefix_nil.mp hprefix)

/-- It vanishes at once, or from where the first member leads. -/
theorem vanishesFrom_cons_iff {p c : ℤ} {cs : List ℤ} :
    pk.VanishesFrom p (c :: cs) ↔ pk.total p = 0 ∨ pk.VanishesFrom (p * c) cs := by
  rw [total_eq_zero_iff]
  constructor
  · rintro ⟨ps, hprefix, hne, hdvd⟩
    rcases List.prefix_cons_iff.mp hprefix with rfl | ⟨qs, rfl, hqs⟩
    · rw [List.prod_nil, mul_one] at hdvd
      exact Or.inl hdvd
    · rw [List.prod_cons, ← mul_assoc] at hdvd
      exact Or.inr ⟨qs, hqs, fun h => hne (congrArg _ h), hdvd⟩
  · rintro (hdvd | ⟨qs, hqs, hne, hdvd⟩)
    · exact ⟨[], List.nil_prefix, (List.cons_ne_nil _ _).symm, by rwa [List.prod_nil, mul_one]⟩
    · refine ⟨c :: qs, List.prefix_cons_iff.mpr (.inr ⟨qs, rfl, hqs⟩), ?_, ?_⟩
      · exact fun h => hne (List.cons.inj h).2
      · rwa [List.prod_cons, ← mul_assoc]

theorem VanishesEarly.dvd_prod {pk : PublicKey} {cs : List ℤ} (h : pk.VanishesEarly cs) :
    (pk.n : ℤ) ^ 2 ∣ cs.prod := by
  obtain ⟨ps, ⟨qs, rfl⟩, -, hdvd⟩ := h
  rw [List.prod_append]
  exact hdvd.mul_right _

theorem not_dvd_prod_of_gcd_eq_one {cs : List ℤ} (hcs : ∀ c ∈ cs, c.gcd pk.n = 1) :
    ¬(pk.n : ℤ) ^ 2 ∣ cs.prod := by
  intro hdvd
  have hcop : IsCoprime cs.prod (pk.n : ℤ) :=
    List.prod_induction (IsCoprime · (pk.n : ℤ)) (fun _ _ => IsCoprime.mul_left) isCoprime_one_left
      fun c hc => Int.isCoprime_iff_gcd_eq_one.mpr (hcs c hc)
  have hunit : IsUnit (pk.n : ℤ) :=
    hcop.isUnit_of_dvd' ((dvd_pow_self _ two_ne_zero).trans hdvd) dvd_rfl
  have hn := pk.two_lt_n
  rw [Int.isUnit_iff] at hunit
  omega

/-! ### Sums -/

open scoped Classical in
/-- **Adding a list** multiplies the running total by its product, unless it vanishes on the way. -/
theorem foldlM_add_total {cs : List ℤ} (hcs : ∀ c ∈ cs, 0 < c ∧ c < (pk.n : ℤ) ^ 2) (p : ℤ) :
    cs.foldlM (fun (t : ℕ) c => pk.add t c) (pk.total p) =
      if pk.VanishesFrom p cs then .error (.invalidCiphertext .notPositive)
      else .ok (pk.total (p * cs.prod)) := by
  induction cs generalizing p with
  | nil =>
    rw [if_neg (pk.not_vanishesFrom_nil p), List.prod_nil, mul_one]
    rfl
  | cons c cs ih =>
    obtain ⟨⟨hc₀, hc⟩, hcs⟩ := List.forall_mem_cons.mp hcs
    rw [List.foldlM_cons, pk.add_total p hc₀ hc]
    by_cases hzero : pk.total p = 0
    · rw [if_pos hzero, if_pos (pk.vanishesFrom_cons_iff.mpr (.inl hzero))]
      rfl
    · have hrest : pk.VanishesFrom p (c :: cs) ↔ pk.VanishesFrom (p * c) cs := by
        rw [vanishesFrom_cons_iff, or_iff_right hzero]
      rw [if_neg hzero, List.prod_cons, ← mul_assoc]
      simp only [hrest]
      exact ih hcs (p * c)

/-- The first ciphertext is the running total that it leads to from one. -/
theorem sum_eq_foldlM {cs : List ℤ} (hne : cs ≠ [])
    (hcs : ∀ c ∈ cs, 0 < c ∧ c < (pk.n : ℤ) ^ 2) :
    pk.sum cs = cs.foldlM (fun (t : ℕ) c => pk.add t c) (pk.total 1) := by
  cases cs with
  | nil => exact absurd rfl hne
  | cons c cs =>
    obtain ⟨⟨hc₀, hc⟩, -⟩ := List.forall_mem_cons.mp hcs
    have hempty : ¬(pk.n : ℤ) ^ 2 ∣ ([] : List ℤ).prod := pk.not_dvd_prod_of_gcd_eq_one (by simp)
    have hone : pk.total 1 ≠ 0 := mt pk.total_eq_zero_iff.mp hempty
    have htotal : (pk.total (1 * c) : ℤ) = c := by
      rw [natCast_total, one_mul, Int.emod_eq_of_lt hc₀.le hc]
    have haccept : pk.accept c = .ok (pk.total (1 * c)) := by
      refine pk.accept_eq_ok_iff.mpr ⟨htotal.symm, ?_, pk.total_lt _⟩
      omega
    rw [sum_cons, List.foldlM_cons, pk.add_total 1 hc₀ hc, if_neg hone, haccept]

/-- **There is one sum for every order, unless a running total vanishes early.**  The number `t`,
which is the product of the list modulo the square of the modulus, is the answer for every order in
which no running total vanishes before the last ciphertext; in the other orders the vanished total
is refused.  If the product does not vanish then there are no others, and for units it does not. -/
theorem sum_outcome {cs : List ℤ} (hne : cs ≠ [])
    (hcs : ∀ c ∈ cs, 0 < c ∧ c < (pk.n : ℤ) ^ 2) :
    ∃ t : ℕ, (t : ℤ) = cs.prod % (pk.n : ℤ) ^ 2 ∧
      (∀ cs', cs.Perm cs' → ¬pk.VanishesEarly cs' → pk.sum cs' = .ok t) ∧
      (∀ cs', cs.Perm cs' → pk.VanishesEarly cs' →
        pk.sum cs' = .error (.invalidCiphertext .notPositive)) ∧
      (¬(pk.n : ℤ) ^ 2 ∣ cs.prod → ∀ cs', cs.Perm cs' → pk.sum cs' = .ok t) ∧
      ((∀ c ∈ cs, c.gcd pk.n = 1) → ¬(pk.n : ℤ) ^ 2 ∣ cs.prod) := by
  classical
  -- only the question whether a total vanishes early depends on the order
  have hsum : ∀ cs', cs.Perm cs' → pk.sum cs' =
      if pk.VanishesEarly cs' then .error (.invalidCiphertext .notPositive)
      else .ok (pk.total cs.prod) := by
    intro cs' hperm
    have hne' : cs' ≠ [] := fun h => hne (List.perm_nil.mp (h ▸ hperm))
    have hcs' : ∀ c ∈ cs', 0 < c ∧ c < (pk.n : ℤ) ^ 2 := fun c hc => hcs c (hperm.mem_iff.mpr hc)
    rw [pk.sum_eq_foldlM hne' hcs', pk.foldlM_add_total hcs', one_mul, hperm.prod_eq]
    simp only [vanishesFrom_one_iff]
  refine ⟨pk.total cs.prod, pk.natCast_total _, ?_, ?_, ?_, pk.not_dvd_prod_of_gcd_eq_one⟩
  · intro cs' hperm hnot
    rw [hsum cs' hperm, if_neg hnot]
  · intro cs' hperm hvanishes
    rw [hsum cs' hperm, if_pos hvanishes]
  · intro hnot cs' hperm
    rw [hperm.prod_eq] at hnot
    rw [hsum cs' hperm, if_neg fun h => hnot h.dvd_prod]

/-- Under the key made from `5` and `7` the multiples `5` and `7` of the primes can be added in
every order, since the third ciphertext keeps their product from vanishing. -/
theorem sum_outcome_of_multiples :
    (∀ c ∈ [(5 : ℤ), 7, 36], 0 < c ∧ c < 35 ^ 2) ∧ ¬(35 : ℤ) ^ 2 ∣ [(5 : ℤ), 7, 36].prod ∧
    ∃ t : ℕ, (t : ℤ) = [(5 : ℤ), 7, 36].prod % 35 ^ 2 ∧
      ∀ cs', [(5 : ℤ), 7, 36].Perm cs' → KeyPair.smallest.publicKey.sum cs' = .ok t := by
  have hcs : ∀ c ∈ [(5 : ℤ), 7, 36], 0 < c ∧ c < 35 ^ 2 := by decide
  have hnot : ¬(35 : ℤ) ^ 2 ∣ [(5 : ℤ), 7, 36].prod := by decide
  obtain ⟨t, ht, -, -, hsum, -⟩ :=
    KeyPair.smallest.publicKey.sum_outcome (List.cons_ne_nil _ _) hcs
  exact ⟨hcs, hnot, t, ht, hsum hnot⟩

/-- **The order of a sum can matter.**  Under the key made from `5` and `7` the square of `35`
vanishes: as the total of two of three ciphertexts it is refused, as the total of all it is the
answer. -/
theorem sum_depends_on_order :
    (∀ c ∈ [(35 : ℤ), 35, 2], 0 < c ∧ c < 35 ^ 2) ∧ [(35 : ℤ), 35, 2].Perm [35, 2, 35] ∧
    KeyPair.smallest.publicKey.sum [35, 35, 2] = .error (.invalidCiphertext .notPositive) ∧
    KeyPair.smallest.publicKey.sum [35, 2, 35] = .ok 0 := by
  refine ⟨by decide, by decide, ?_, ?_⟩ <;> decide +kernel

end PublicKey

end QuorumPaillier
