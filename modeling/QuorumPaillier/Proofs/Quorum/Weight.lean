import Mathlib.Algebra.BigOperators.Intervals
import Mathlib.LinearAlgebra.Lagrange
import Mathlib.Tactic
import QuorumPaillier.Proofs.Key.Construction
import QuorumPaillier.Quorum

/-!
# Interpolation at zero with integer weights

A weight is computed by alternating divisions and multiplications in a loop over the other indices,
in whatever order they come.  No division leaves a remainder: what is still to be divided by is a
product of distances to different indices among `1, …, l`, those below and those above `i`, and such
a product divides `(i - 1)! * (l - i)!` and so `l!`.  Hence the weight is the integer
`l! * ∏ j / (j - i)`, sign included, which is `l!` times the value at zero of the Lagrange basis
polynomial of `i`.  It is never zero, since zero is no index.

## Main results

* `toInt_interpolationWeight_mul` — **the weight is exact**, with its sign.
* `sum_interpolationWeight_eval` — **weighted values of a polynomial sum up to `l!` times its value
  at zero.**
* `PublicKey.interpolationWeight_exact` — **weights are exact, and they interpolate.**
-/

namespace QuorumPaillier

open Finset Polynomial

/-! ### Distances divide the factorial -/

theorem distance_of_lt {i j : ℕ} (h : j < i) : distance j i = i - j := by
  unfold distance
  omega

theorem distance_of_le {i j : ℕ} (h : i ≤ j) : distance j i = j - i := by
  unfold distance
  omega

theorem prod_dvd_factorial_of_injOn {ι : Type*} {S : Finset ι} {f : ι → ℕ} {m : ℕ}
    (hinj : Set.InjOn f S) (hf : ∀ j ∈ S, 1 ≤ f j ∧ f j ≤ m) : ∏ j ∈ S, f j ∣ m.factorial := by
  classical
  rw [← prod_Ico_id_eq_factorial, ← prod_image (s := S) (g := f) (f := fun x => x) hinj]
  refine prod_dvd_prod_of_subset _ _ _ ?_
  intro x hx
  obtain ⟨j, hj, rfl⟩ := mem_image.mp hx
  exact mem_Ico.mpr ⟨(hf j hj).1, Nat.lt_succ_of_le (hf j hj).2⟩

theorem prod_distance_dvd_factorial {i l : ℕ} (hi : 1 ≤ i) (hil : i ≤ l) {S : Finset ℕ}
    (hS : ∀ j ∈ S, 1 ≤ j ∧ j ≤ l ∧ j ≠ i) : ∏ j ∈ S, distance j i ∣ factorial l := by
  -- the indices below `i` have distances up to `i - 1`, those above up to `l - i`
  have hbelow : ∏ j ∈ S with j < i, distance j i ∣ (i - 1).factorial := by
    apply prod_dvd_factorial_of_injOn
    · intro j hj k hk heq
      have hj := (mem_filter.mp (mem_coe.mp hj)).2
      have hk := (mem_filter.mp (mem_coe.mp hk)).2
      simp only [distance_of_lt hj, distance_of_lt hk] at heq
      omega
    · intro j hj
      obtain ⟨hjS, hji⟩ := mem_filter.mp hj
      have := hS j hjS
      rw [distance_of_lt hji]
      omega
  have habove : ∏ j ∈ S with ¬j < i, distance j i ∣ (l - i).factorial := by
    apply prod_dvd_factorial_of_injOn
    · intro j hj k hk heq
      have hj := (mem_filter.mp (mem_coe.mp hj)).2
      have hk := (mem_filter.mp (mem_coe.mp hk)).2
      simp only [distance_of_le (not_lt.mp hj), distance_of_le (not_lt.mp hk)] at heq
      omega
    · intro j hj
      obtain ⟨hjS, hji⟩ := mem_filter.mp hj
      have := hS j hjS
      rw [distance_of_le (not_lt.mp hji)]
      omega
  rw [factorial_eq, ← prod_filter_mul_prod_filter_not S (· < i)]
  calc _ ∣ (i - 1).factorial * (l - i).factorial := mul_dvd_mul hbelow habove
    _ ∣ (i - 1 + (l - i)).factorial := Nat.factorial_mul_factorial_dvd_factorial_add _ _
    _ ∣ l.factorial := Nat.factorial_dvd_factorial (by omega)

/-! ### The weight as an integer -/

namespace Weight

/-- One exact division and one multiplication, with the sign that belongs to them. -/
theorem toInt_step_mul {i j : ℕ} {t : Weight} (h : distance j i ∣ t.magnitude) :
    (t.step i j).toInt * ((j : ℤ) - i) = t.toInt * j := by
  have hdiv : ((t.magnitude / distance j i : ℕ) : ℤ) * distance j i = t.magnitude := by
    exact_mod_cast Nat.div_mul_cancel h
  rw [toInt, toInt, step_magnitude, step_negative, ← hdiv]
  push_cast
  by_cases hlt : j < i
  · have hd : (distance j i : ℤ) = i - j := by
      rw [distance_of_lt hlt]
      omega
    rw [hd, if_pos hlt]
    cases t.negative <;> simp <;> ring
  · have hd : (distance j i : ℤ) = j - i := by
      rw [distance_of_le (not_lt.mp hlt)]
      omega
    rw [hd, if_neg hlt]
    cases t.negative <;> simp <;> ring

/-- After one step the magnitude is still divisible by what is still to be divided by. -/
theorem dvd_magnitude_step {i j d : ℕ} {t : Weight} (h : distance j i * d ∣ t.magnitude) :
    d ∣ (t.step i j).magnitude := by
  rw [step_magnitude]
  exact Dvd.dvd.mul_right (Nat.dvd_div_of_mul_dvd h) j

/-- A run of steps: as long as what is still to be divided by divides the magnitude, nothing is
rounded. -/
theorem toInt_foldl_step_mul (i : ℕ) (js : List ℕ) (t : Weight)
    (h : (js.map (distance · i)).prod ∣ t.magnitude) :
    (js.foldl (Weight.step i) t).toInt * (js.map fun j : ℕ => (j : ℤ) - i).prod =
      t.toInt * (js.map fun j : ℕ => (j : ℤ)).prod := by
  induction js generalizing t with
  | nil => simp
  | cons j js ih =>
    rw [List.map_cons, List.prod_cons] at h
    have hj : distance j i ∣ t.magnitude := dvd_of_mul_right_dvd h
    have hstep := toInt_step_mul hj
    rw [List.foldl_cons, List.map_cons, List.map_cons, List.prod_cons, List.prod_cons]
    calc _ = (js.foldl (Weight.step i) (t.step i j)).toInt * (js.map fun j : ℕ => (j : ℤ) - i).prod
          * ((j : ℤ) - i) := by ring
      _ = (t.step i j).toInt * ((j : ℤ) - i) * (js.map fun j : ℕ => (j : ℤ)).prod := by
          rw [ih _ (dvd_magnitude_step h)]
          ring
      _ = _ := by
          rw [hstep]
          ring

end Weight

theorem toFinset_filter_ne (indices : List ℕ) (i : ℕ) :
    (indices.filter (· != i)).toFinset = indices.toFinset.erase i := by
  ext j
  simp only [List.mem_toFinset, List.mem_filter, bne_iff_ne, mem_erase]
  exact and_comm

variable {l i : ℕ} {indices : List ℕ}

theorem prod_map_distance_dvd_factorial (hnodup : indices.Nodup)
    (hrange : ∀ j ∈ indices, 1 ≤ j ∧ j ≤ l) (hi : i ∈ indices) :
    ((indices.filter (· != i)).map (distance · i)).prod ∣ factorial l := by
  rw [← List.prod_toFinset _ (hnodup.filter _), toFinset_filter_ne]
  refine prod_distance_dvd_factorial (hrange i hi).1 (hrange i hi).2 ?_
  intro j hj
  obtain ⟨hji, hj⟩ := mem_erase.mp hj
  obtain ⟨hj₁, hj₂⟩ := hrange j (List.mem_toFinset.mp hj)
  exact ⟨hj₁, hj₂, hji⟩

/-- **The weight is exact**, with its sign. -/
theorem toInt_interpolationWeight_mul (hnodup : indices.Nodup)
    (hrange : ∀ j ∈ indices, 1 ≤ j ∧ j ≤ l) (hi : i ∈ indices) :
    (interpolationWeight (factorial l) indices i).toInt *
        ∏ j ∈ indices.toFinset.erase i, ((j : ℤ) - i) =
      factorial l * ∏ j ∈ indices.toFinset.erase i, (j : ℤ) := by
  have hothers : (indices.filter (· != i)).Nodup := hnodup.filter _
  have hfold := Weight.toInt_foldl_step_mul i (indices.filter (· != i)) ⟨factorial l, false⟩
    (prod_map_distance_dvd_factorial hnodup hrange hi)
  rw [← List.prod_toFinset _ hothers, ← List.prod_toFinset _ hothers, toFinset_filter_ne] at hfold
  exact hfold

/-- The weight as a product of fractions. -/
theorem cast_toInt_interpolationWeight (hnodup : indices.Nodup)
    (hrange : ∀ j ∈ indices, 1 ≤ j ∧ j ≤ l) (hi : i ∈ indices) :
    ((interpolationWeight (factorial l) indices i).toInt : ℚ) =
      factorial l * ∏ j ∈ indices.toFinset.erase i, (j : ℚ) / (j - i) := by
  have hexact := congrArg (Int.cast : ℤ → ℚ) (toInt_interpolationWeight_mul hnodup hrange hi)
  push_cast at hexact
  have hne : ∏ j ∈ indices.toFinset.erase i, ((j : ℚ) - i) ≠ 0 := by
    refine prod_ne_zero_iff.mpr fun j hj => sub_ne_zero.mpr ?_
    exact_mod_cast (mem_erase.mp hj).1
  rw [prod_div_distrib, mul_div_assoc', eq_div_iff hne, hexact]

/-! ### Interpolation -/

/-- A weight is the factorial times the value at zero of a Lagrange basis polynomial. -/
theorem toInt_interpolationWeight_eq (hnodup : indices.Nodup)
    (hrange : ∀ j ∈ indices, 1 ≤ j ∧ j ≤ l) (hi : i ∈ indices) :
    ((interpolationWeight (factorial l) indices i).toInt : ℚ) =
      factorial l * (Lagrange.basis indices.toFinset (fun j : ℕ => (j : ℚ)) i).eval 0 := by
  rw [cast_toInt_interpolationWeight hnodup hrange hi, Lagrange.basis, eval_prod]
  congr 1
  refine prod_congr rfl ?_
  intro j hj
  have hji : (j : ℚ) - i ≠ 0 := sub_ne_zero.mpr (by exact_mod_cast (mem_erase.mp hj).1)
  have hij : (i : ℚ) - j ≠ 0 := by rwa [← neg_sub, neg_ne_zero]
  rw [Lagrange.basisDivisor, eval_mul, eval_C, eval_sub, eval_X, eval_C]
  field_simp
  ring

/-- A polynomial of degree below the number of the nodes has at zero the value that its values at
the nodes determine. -/
theorem eval_zero_eq_sum_basis {S : Finset ℕ} {G : ℚ[X]} (hG : G.degree < S.card) :
    G.eval 0 =
      ∑ i ∈ S, G.eval (i : ℚ) * (Lagrange.basis S (fun j : ℕ => (j : ℚ)) i).eval 0 := by
  have hinj : Set.InjOn (fun j : ℕ => (j : ℚ)) S := fun _ _ _ _ h => Nat.cast_injective h
  have heq := congrArg (eval 0) (Lagrange.eq_interpolate hinj hG)
  rw [Lagrange.interpolate_apply, eval_finsetSum] at heq
  rw [heq]
  exact sum_congr rfl fun i _ => by rw [eval_mul, eval_C]

/-- **Weighted values of a polynomial sum up to `l!` times its value at zero**, if there are more
indices than its degree. -/
theorem sum_interpolationWeight_eval (hnodup : indices.Nodup)
    (hrange : ∀ j ∈ indices, 1 ≤ j ∧ j ≤ l) {F : ℤ[X]} (hF : F.degree < indices.length) :
    ∑ i ∈ indices.toFinset,
        (interpolationWeight (factorial l) indices i).toInt * F.eval (i : ℤ) =
      factorial l * F.eval 0 := by
  set G : ℚ[X] := F.map (Int.castRingHom ℚ) with hG
  have hGdeg : G.degree < indices.toFinset.card := by
    rw [List.toFinset_card_of_nodup hnodup]
    exact lt_of_le_of_lt degree_map_le hF
  have hGeval : ∀ x : ℤ, G.eval (x : ℚ) = F.eval x := by
    intro x
    rw [hG, eval_intCast_map]
    simp
  -- weights are integers, but the basis polynomials are not, so the sum is compared over `ℚ`
  have hcast : ((∑ i ∈ indices.toFinset,
      (interpolationWeight (factorial l) indices i).toInt * F.eval (i : ℤ) : ℤ) : ℚ) =
      ((factorial l * F.eval 0 : ℤ) : ℚ) := by
    have h₀ := hGeval 0
    rw [Int.cast_zero] at h₀
    push_cast
    rw [← h₀, eval_zero_eq_sum_basis hGdeg, mul_sum]
    refine sum_congr rfl ?_
    intro i hi
    have hi' := hGeval i
    rw [Int.cast_natCast] at hi'
    rw [toInt_interpolationWeight_eq hnodup hrange (List.mem_toFinset.mp hi), ← hi']
    ring
  exact_mod_cast hcast

/-! ### The weights of a set of indices -/

namespace Weight

theorem abs_toInt (t : Weight) : |t.toInt| = t.magnitude := by
  unfold toInt
  cases t.negative <;> simp

/-- **No division of a run leaves a remainder**, if the distances together divide the magnitude at
its start. -/
theorem distance_dvd_magnitude_foldl {i j : ℕ} {as bs : List ℕ} {t : Weight}
    (h : ((as ++ j :: bs).map (distance · i)).prod ∣ t.magnitude) :
    distance j i ∣ (as.foldl (Weight.step i) t).magnitude := by
  -- every step takes one distance off the product, until the next one is that of `j`
  induction as generalizing t with
  | nil =>
    rw [List.nil_append, List.map_cons, List.prod_cons] at h
    exact dvd_of_mul_right_dvd h
  | cons a as ih =>
    rw [List.cons_append, List.map_cons, List.prod_cons] at h
    exact ih (dvd_magnitude_step h)

end Weight

/-- No weight is zero. -/
theorem magnitude_interpolationWeight_pos (hnodup : indices.Nodup)
    (hrange : ∀ j ∈ indices, 1 ≤ j ∧ j ≤ l) (hi : i ∈ indices) :
    0 < (interpolationWeight (factorial l) indices i).magnitude := by
  have hexact := toInt_interpolationWeight_mul hnodup hrange hi
  have hfactorial : (factorial l : ℤ) ≠ 0 := by
    have := factorial_pos l
    omega
  have hothers : ∏ j ∈ indices.toFinset.erase i, (j : ℤ) ≠ 0 := by
    refine prod_ne_zero_iff.mpr ?_
    intro j hj
    have := (hrange j (List.mem_toFinset.mp (mem_of_mem_erase hj))).1
    omega
  have hne : (interpolationWeight (factorial l) indices i).toInt ≠ 0 :=
    left_ne_zero_of_mul (hexact ▸ mul_ne_zero hfactorial hothers)
  have habs := abs_pos.mpr hne
  rw [Weight.abs_toInt] at habs
  exact_mod_cast habs

/-- The sign tells the parity of the number of members below. -/
theorem negative_interpolationWeight_iff (delta : ℕ) (hnodup : indices.Nodup) :
    (interpolationWeight delta indices i).negative = true ↔
      Odd #{j ∈ indices.toFinset | j < i} := by
  have hcard : #{j ∈ indices.toFinset | j < i} = indices.countP (· < i) := by
    rw [List.countP_eq_length_filter, ← List.toFinset_card_of_nodup (hnodup.filter _),
      List.toFinset_filter]
    simp
  rw [interpolationWeight_negative, decide_eq_true_iff, hcard, Nat.odd_iff]

/-- The order of the indices does not matter. -/
theorem toInt_interpolationWeight_congr {indices' : List ℕ} (hnodup : indices.Nodup)
    (hnodup' : indices'.Nodup) (hset : indices.toFinset = indices'.toFinset)
    (hrange : ∀ j ∈ indices, 1 ≤ j ∧ j ≤ l) (hi : i ∈ indices) :
    (interpolationWeight (factorial l) indices i).toInt =
      (interpolationWeight (factorial l) indices' i).toInt := by
  have hmem : ∀ j, j ∈ indices ↔ j ∈ indices' := by
    intro j
    rw [← List.mem_toFinset, hset, List.mem_toFinset]
  have hweight := cast_toInt_interpolationWeight hnodup hrange hi
  have hweight' := cast_toInt_interpolationWeight hnodup'
    (fun j hj => hrange j ((hmem j).mpr hj)) ((hmem i).mp hi)
  rw [← hset, ← hweight] at hweight'
  exact_mod_cast hweight'.symm

theorem range_of_toFinset_eq {S : Finset ℕ} (hS : S ⊆ Icc 1 l) (hset : indices.toFinset = S) :
    ∀ j ∈ indices, 1 ≤ j ∧ j ≤ l := by
  intro j hj
  rw [← List.mem_toFinset, hset] at hj
  exact mem_Icc.mp (hS hj)

/-- Weights interpolate, even if each is computed in an order of its own. -/
theorem sum_interpolationWeight_eval_orders {S : Finset ℕ} (hS : S ⊆ Icc 1 l)
    {order : ℕ → List ℕ} (horder : ∀ i ∈ S, (order i).Nodup ∧ (order i).toFinset = S) {F : ℤ[X]}
    (hF : F.degree < #S) :
    ∑ i ∈ S, (interpolationWeight (factorial l) (order i) i).toInt * F.eval (i : ℤ) =
      factorial l * F.eval 0 := by
  -- every weight is the one that the members in one fixed order lead to
  have hlist := range_of_toFinset_eq hS (toList_toFinset S)
  have hdegree : F.degree < S.toList.length := by rwa [length_toList]
  have hsum := sum_interpolationWeight_eval (nodup_toList S) hlist hdegree
  rw [toList_toFinset] at hsum
  rw [← hsum]
  apply sum_congr rfl
  intro i hi
  obtain ⟨hnodup, hset⟩ := horder i hi
  have hsame : (order i).toFinset = S.toList.toFinset := by rw [hset, toList_toFinset]
  have hmem : i ∈ order i := by rwa [← List.mem_toFinset, hset]
  rw [toInt_interpolationWeight_congr hnodup (nodup_toList S) hsame (range_of_toFinset_eq hS hset)
    hmem]

/-- **Weights are exact, and they interpolate.**  Let `order i` be the members of a set of indices
in any order, for each member `i`.  Then no division in the computation of a weight leaves a
remainder, the weight is `l!` times the product of the fractions `j / (j - i)`, at least one in
magnitude and negative exactly if an odd number of members lie below, and weighted values of a
polynomial of degree below the number of members sum up to `l!` times its value at zero. -/
theorem PublicKey.interpolationWeight_exact (pk : PublicKey) {S : Finset ℕ} (hS : S ⊆ Icc 1 pk.l)
    {order : ℕ → List ℕ} (horder : ∀ i ∈ S, (order i).Nodup ∧ (order i).toFinset = S) :
    (∀ i ∈ S,
      (∀ as j bs, (order i).filter (· != i) = as ++ j :: bs →
        (as.foldl (Weight.step i) ⟨pk.delta, false⟩).magnitude % distance j i = 0) ∧
      1 ≤ (interpolationWeight pk.delta (order i) i).magnitude ∧
      ((interpolationWeight pk.delta (order i) i).magnitude : ℚ) =
        |pk.l.factorial * ∏ j ∈ S.erase i, (j : ℚ) / (j - i)| ∧
      ((interpolationWeight pk.delta (order i) i).negative = true ↔ Odd #{j ∈ S | j < i})) ∧
    ∀ F : ℤ[X], F.degree < #S →
      ∑ i ∈ S, (interpolationWeight pk.delta (order i) i).toInt * F.eval (i : ℤ) =
        pk.l.factorial * F.eval 0 := by
  rw [pk.delta_eq, ← factorial_eq]
  refine ⟨?_, fun F hF => sum_interpolationWeight_eval_orders hS horder hF⟩
  intro i hi
  obtain ⟨hnodup, hset⟩ := horder i hi
  have hrange := range_of_toFinset_eq hS hset
  have hmem : i ∈ order i := by rwa [← List.mem_toFinset, hset]
  refine ⟨?_, magnitude_interpolationWeight_pos hnodup hrange hmem, ?_, ?_⟩
  · intro as j bs hsplit
    -- the distances divide the factorial together, in whatever order they come
    have hdvd := prod_map_distance_dvd_factorial hnodup hrange hmem
    rw [hsplit] at hdvd
    apply Nat.mod_eq_zero_of_dvd
    exact Weight.distance_dvd_magnitude_foldl hdvd
  · rw [← hset, ← cast_toInt_interpolationWeight hnodup hrange hmem, ← Int.cast_abs,
      Weight.abs_toInt]
    rfl
  · rw [negative_interpolationWeight_iff _ hnodup, hset]

/-- The weights of `3` and `1` among three indices are `-3` and `9`. -/
theorem PublicKey.interpolationWeight_exact_of_three :
    ({1, 3} : Finset ℕ) ⊆ Icc 1 3 ∧
    (∀ i ∈ ({1, 3} : Finset ℕ), [3, 1].Nodup ∧ [3, 1].toFinset = {1, 3}) ∧
    interpolationWeight 6 [3, 1] 1 = ⟨9, false⟩ ∧ interpolationWeight 6 [3, 1] 3 = ⟨3, true⟩ ∧
    ((9 : ℕ) : ℚ) = |(3).factorial * ∏ j ∈ ({1, 3} : Finset ℕ).erase 1, (j : ℚ) / (j - (1 : ℕ))| ∧
    Odd #{j ∈ ({1, 3} : Finset ℕ) | j < 3} ∧
    ∀ F : ℤ[X], F.degree < (2 : ℕ) → 9 * F.eval 1 + -3 * F.eval 3 = 6 * F.eval 0 := by
  have hS : ({1, 3} : Finset ℕ) ⊆ Icc 1 3 := by decide
  have horder : ∀ i ∈ ({1, 3} : Finset ℕ), [3, 1].Nodup ∧ [3, 1].toFinset = {1, 3} := by decide
  obtain ⟨hweight, hsum⟩ := interpolationWeight_exact KeyPair.smallest.publicKey hS horder
  refine ⟨hS, horder, by decide, by decide, (hweight 1 (by decide)).2.2.1,
    (hweight 3 (by decide)).2.2.2.mp (by decide), ?_⟩
  intro F hF
  have hpair := hsum F hF
  rw [sum_pair (by decide)] at hpair
  exact hpair

end QuorumPaillier
