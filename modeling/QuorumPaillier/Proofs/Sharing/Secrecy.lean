import Mathlib.LinearAlgebra.Matrix.NonsingularInverse
import Mathlib.LinearAlgebra.Vandermonde
import Mathlib.Tactic
import QuorumPaillier.Proofs.SafePrime.Arithmetic
import QuorumPaillier.Proofs.Sharing.Dealing

/-!
# Secrecy below the threshold

Fewer authorities than the threshold learn nothing from their shares: for every constant coefficient
there is exactly one way to draw the others that gives these authorities the shares they see.  The
modulus of the shares is composite, so the equations are linear over a ring that is no field.  What
makes them solvable is that their determinant is a product of indices and of differences of indices,
and all of these are units as long as every number up to `l` is.  The indices start from one: with a
zero among them the determinant would vanish and the constant coefficient would show.

## Main results

* `isUnit_det_indexMatrix` — **the equations of different authorities are independent.**
* `existsUnique_values` — drawn coefficients and values correspond to each other.
* `SafePrimePair.existsUnique_drawn` — **the shares of `w - 1` authorities fit every constant
  coefficient in exactly one way.**
-/

namespace QuorumPaillier

open Matrix

/-! ### Units among the indices -/

/-- All numbers from one to `l` share no factor with the modulus. -/
def CoprimeUpTo (l nm : ℕ) : Prop := ∀ j, 1 ≤ j → j ≤ l → j.Coprime nm

theorem CoprimeUpTo.isUnit_sub {l nm : ℕ} (hcop : CoprimeUpTo l nm) :
    ∀ x y : ℕ, x ≤ l → y ≤ l → x ≠ y → IsUnit ((x : ZMod nm) - y) := by
  -- a difference of naturals is a unit, and the other one is its negative
  have hlt : ∀ x y : ℕ, y ≤ l → x < y → IsUnit ((y : ZMod nm) - x) := by
    intro x y hy hxy
    rw [← Nat.cast_sub hxy.le, ZMod.isUnit_iff_coprime]
    exact hcop (y - x) (by omega) (by omega)
  intro x y hx hy hne
  rcases Nat.lt_or_gt_of_ne hne with hxy | hyx
  · rw [← neg_sub]
    exact (hlt x y hy hxy).neg
  · exact hlt y x hx hyx

/-- Fewer authorities than either half of the primes is enough. -/
theorem SafeFactors.coprimeUpTo (h : SafeFactors) {l : ℕ} (hl : l < min h.a h.b) :
    CoprimeUpTo l (h.modulus * h.product) := by
  intro j hj hjl
  have hp := h.p_eq
  have hq := h.q_eq
  have hbelow : ∀ x : ℕ, x.Prime → j < x → j.Coprime x := by
    intro x hx hjx
    exact (Nat.coprime_of_lt_prime (by omega) hjx hx).symm
  have ha : j.Coprime h.a := hbelow h.a h.a_prime (by omega)
  have hb : j.Coprime h.b := hbelow h.b h.b_prime (by omega)
  have hp : j.Coprime h.p := hbelow h.p h.p_prime (by omega)
  have hq : j.Coprime h.q := hbelow h.q h.q_prime (by omega)
  exact (hp.mul_right hq).mul_right (ha.mul_right hb)

/-! ### The equations -/

variable {m nm l : ℕ}

/-- The matrix that takes the drawn coefficients to what the indices see of them. -/
def indexMatrix (nm : ℕ) (indices : Fin m → ℕ) : Matrix (Fin m) (Fin m) (ZMod nm) :=
  diagonal (fun i => (indices i : ZMod nm)) * vandermonde fun i => (indices i : ZMod nm)

/-- **The equations of different authorities are independent.** -/
theorem isUnit_det_indexMatrix (hcop : CoprimeUpTo l nm) {indices : Fin m → ℕ}
    (hinj : Function.Injective indices) (hrange : ∀ i, 1 ≤ indices i ∧ indices i ≤ l) :
    IsUnit (indexMatrix nm indices).det := by
  rw [indexMatrix, det_mul, det_diagonal, det_vandermonde]
  refine IsUnit.mul ?_ ?_
  · refine IsUnit.prod_univ_iff.mpr ?_
    intro i
    have hne : indices i ≠ 0 := Nat.one_le_iff_ne_zero.mp (hrange i).1
    have hi := hcop.isUnit_sub (indices i) 0 (hrange i).2 (Nat.zero_le l) hne
    rwa [Nat.cast_zero, sub_zero] at hi
  · refine IsUnit.prod_univ_iff.mpr ?_
    intro i
    refine IsUnit.prod_iff.mpr ?_
    intro j hj
    have hij : i < j := Finset.mem_Ioi.mp hj
    exact hcop.isUnit_sub _ _ (hrange j).2 (hrange i).2 (hinj.ne hij.ne')

theorem cast_value_ofFn (a₀ : ℕ) (a : Fin m → ℕ) (indices : Fin m → ℕ) (i : Fin m) :
    (((⟨a₀ :: List.ofFn a, nm⟩ : SharingPolynomial).value (indices i) : ℕ) : ZMod nm) =
      a₀ + (indexMatrix nm indices).mulVec (fun k => (a k : ZMod nm)) i := by
  rw [SharingPolynomial.value_eq_powerSum_mod, ZMod.natCast_mod, powerSum_cons, powerSum_ofFn]
  push_cast
  rw [indexMatrix, ← mulVec_mulVec, mulVec_diagonal, add_comm]
  congr 1
  rw [mulVec, dotProduct, mul_comm]
  congr 1
  exact Finset.sum_congr rfl fun k _ => by rw [vandermonde_apply, mul_comm]

/-- Drawn coefficients and values correspond to each other: whatever the constant coefficient, the
indices see any values they like for exactly one choice of the others. -/
theorem existsUnique_values (hcop : CoprimeUpTo l nm) (hnm : 0 < nm) {indices : Fin m → ℕ}
    (hinj : Function.Injective indices) (hrange : ∀ i, 1 ≤ indices i ∧ indices i ≤ l) (a₀ : ℕ)
    {targets : Fin m → ℕ} (htargets : ∀ i, targets i < nm) :
    ∃! a : Fin m → ℕ, (∀ k, a k < nm) ∧
      ∀ i, (⟨a₀ :: List.ofFn a, nm⟩ : SharingPolynomial).value (indices i) = targets i := by
  have : NeZero nm := ⟨hnm.ne'⟩
  have hdet := isUnit_det_indexMatrix hcop hinj hrange
  set M := indexMatrix nm indices with hM
  set b : Fin m → ZMod nm := fun i => targets i - a₀ with hb
  -- residues below `nm` are equal as soon as they are congruent, so values are a linear system
  have hsystem : ∀ a : Fin m → ℕ,
      (∀ i, (⟨a₀ :: List.ofFn a, nm⟩ : SharingPolynomial).value (indices i) = targets i) ↔
        M.mulVec (fun k => (a k : ZMod nm)) = b := by
    intro a
    rw [funext_iff]
    refine forall_congr' ?_
    intro i
    have hlt := (⟨a₀ :: List.ofFn a, nm⟩ : SharingPolynomial).value_lt hnm (indices i)
    have hval : (((⟨a₀ :: List.ofFn a, nm⟩ : SharingPolynomial).value (indices i) : ℕ) : ZMod nm) =
        a₀ + M.mulVec (fun k => (a k : ZMod nm)) i := cast_value_ofFn a₀ a indices i
    rw [hb, eq_sub_iff_add_eq', ← hval, ZMod.natCast_eq_natCast_iff']
    rw [Nat.mod_eq_of_lt hlt, Nat.mod_eq_of_lt (htargets i)]
  refine ⟨fun k => (M⁻¹.mulVec b k).val, ⟨fun k => ZMod.val_lt _, ?_⟩, ?_⟩
  · rw [hsystem]
    simp only [ZMod.natCast_zmod_val]
    rw [mulVec_mulVec, mul_nonsing_inv M hdet, one_mulVec]
  · intro a ha
    obtain ⟨hlt, hvalues⟩ := ha
    rw [hsystem] at hvalues
    have hsolve : (fun k => (a k : ZMod nm)) = M⁻¹.mulVec b := by
      rw [← hvalues, mulVec_mulVec, nonsing_inv_mul M hdet, one_mulVec]
    funext k
    rw [← hsolve, ZMod.val_cast_of_lt (hlt k)]

/-! ### Dealings that fit -/

theorem exists_eq_ofFn {xs : List ℕ} (h : xs.length = m) : ∃ f : Fin m → ℕ, xs = List.ofFn f := by
  subst h
  exact ⟨xs.get, (List.ofFn_get xs).symm⟩

/-- The authorities at the positions see the targets exactly if the polynomial has these values at
their indices. -/
theorem mapM_valueAt?_eq_ok_iff {f : SharingPolynomial} (hf : 0 < f.modulus)
    (positions targets : Fin m → ℕ) :
    (List.ofFn positions).mapM f.valueAt? = .ok (List.ofFn targets) ↔
      ∀ i, f.value (positions i + 1) = targets i := by
  rw [mapM_eq_ok fun i _ => f.valueAt?_of_pos hf i, Except.ok.injEq, List.map_ofFn, List.ofFn_inj,
    funext_iff]
  rfl

/-- **The shares of `w - 1` authorities fit every constant coefficient in exactly one way**, as long
as every number up to `l` is a unit, which holds for fewer authorities than either half. -/
theorem SafePrimePair.existsUnique_drawn {isPrime : ℕ → Bool} (hexact : IsExact isPrime) {p q : ℤ}
    {s : SafePrimePair} (hs : ofPrimes isPrime p q = .ok s) {nm : ℕ}
    (hnm : (nm : ℤ) = p * q * (s.halfP * s.halfQ)) (w l : ℕ) :
    ((l : ℤ) < min s.halfP s.halfQ → CoprimeUpTo l nm) ∧
      (CoprimeUpTo l nm → ∀ positions : List ℕ, positions.Nodup → (∀ i ∈ positions, i < l) →
        positions.length = w - 1 → ∀ targets : List ℕ, (∀ y ∈ targets, y < nm) →
        targets.length = w - 1 → ∀ a₀ < nm, ∃! drawn : List ℕ,
          (drawn.length = w - 1 ∧ ∀ a ∈ drawn, a < nm) ∧
            positions.mapM (⟨a₀ :: drawn, nm⟩ : SharingPolynomial).valueAt? = .ok targets) := by
  obtain ⟨h, rfl, rfl, rfl⟩ := exists_safeFactors hexact hs
  constructor
  · intro hl
    have hprod : nm = h.modulus * h.product := by
      simp only [SafeFactors.toPair] at hnm
      rw [SafeFactors.modulus, SafeFactors.product]
      exact_mod_cast hnm
    rw [hprod]
    refine h.coprimeUpTo ?_
    exact natCast_lt_min_iff.mp hl
  · intro hcop positions hnodup hpos hlen targets htargets hlen' a₀ ha₀
    have hpos₀ : 0 < nm := Nat.zero_lt_of_lt ha₀
    -- lists of a given length are functions of the place
    obtain ⟨positions, rfl⟩ := exists_eq_ofFn hlen
    obtain ⟨targets, rfl⟩ := exists_eq_ofFn hlen'
    have hinj : Function.Injective fun i => positions i + 1 := by
      intro i j hij
      exact List.nodup_ofFn.mp hnodup (Nat.succ.inj hij)
    have hrange : ∀ i, 1 ≤ positions i + 1 ∧ positions i + 1 ≤ l := by
      intro i
      exact ⟨Nat.succ_pos _, hpos _ (List.mem_ofFn.mpr ⟨i, rfl⟩)⟩
    obtain ⟨a, ⟨ha, hvalues⟩, hunique⟩ := existsUnique_values hcop hpos₀ hinj hrange a₀ fun i =>
      htargets (targets i) (List.mem_ofFn.mpr ⟨i, rfl⟩)
    refine ⟨List.ofFn a, ⟨⟨List.length_ofFn, ?_⟩, ?_⟩, ?_⟩
    · intro x hx
      obtain ⟨k, rfl⟩ := List.mem_ofFn.mp hx
      exact ha k
    · exact (mapM_valueAt?_eq_ok_iff hpos₀ positions targets).mpr hvalues
    · rintro drawn ⟨⟨hlen, hlt⟩, hrun⟩
      obtain ⟨drawn, rfl⟩ := exists_eq_ofFn hlen
      have hdrawn := (mapM_valueAt?_eq_ok_iff hpos₀ positions targets).mp hrun
      rw [hunique drawn ⟨fun k => hlt _ (List.mem_ofFn.mpr ⟨k, rfl⟩), hdrawn⟩]

/-- Two of five authorities see any two numbers they like, whatever is shared among three. -/
theorem SafePrimePair.existsUnique_drawn_two :
    ∃! drawn : List ℕ, (drawn.length = 3 - 1 ∧ ∀ a ∈ drawn, a < 432883) ∧
      [4, 0].mapM (⟨1 :: drawn, 432883⟩ : SharingPolynomial).valueAt? = .ok [17, 432882] := by
  let h : SafeFactors :=
    ⟨23, 59, 11, 29, rfl, rfl, by norm_num, by norm_num, by norm_num, by norm_num, by decide,
      by decide, by decide⟩
  have hpair := h.ofPrimes_eq_ok isExact_decide
  obtain ⟨hunits, hshares⟩ := existsUnique_drawn isExact_decide hpair
    (show ((432883 : ℕ) : ℤ) = 23 * 59 * (11 * 29) by decide) 3 5
  exact hshares (hunits (by decide)) [4, 0] (by decide) (by decide) rfl
    [17, 432882] (by decide) rfl 1 (by decide)

end QuorumPaillier
