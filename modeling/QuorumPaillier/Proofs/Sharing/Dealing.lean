import Mathlib.Algebra.BigOperators.ModEq
import Mathlib.Algebra.Polynomial.Eval.Degree
import Mathlib.Tactic
import QuorumPaillier.Proofs.Key.Construction
import QuorumPaillier.Proofs.Quorum.Weight
import QuorumPaillier.Proofs.Random.Sampling
import QuorumPaillier.Sharing

/-!
# What a dealer hands out

The dealer draws `w - 1` coefficients below the modulus of the shares, no more and no fewer, and
gives the authority with index `i` the value of the polynomial at `i`.  Read over the integers, the
shares are values of a polynomial of degree below `w`, reduced; so their weighted sum over enough
authorities is `l!` times the exponent, modulo `n * p' * q'`.  That modulus is composite and the
weights are integers, so no inverse is involved.

The value for a position is computed by nested multiplication with a reduction at every step.  The
point is a number without bound and no word: at the largest position that fits into a word it is
`2 ^ 64`, and not zero, where the exponent itself would be handed out.

## Main definitions

* `SharingPolynomial.dealt`, `sumWeighted` — the shares of a polynomial, and their weighted sum.
* `SharingPolynomial.IsSharingOf` — the polynomials that share a key.

## Main results

* `SharingPolynomial.sum_weight_value_modEq` — **enough shares determine the exponent.**
* `SafePrimePair.deal_shares_exponent` — **dealing shares the exponent of the key.**
* `SharingPolynomial.exists_draw_run_iff` — **which polynomials can be drawn.**
* `SafePrimePair.drawn_value_eq_sum` — **what is drawn for a key, and how it evaluates.**
-/

namespace QuorumPaillier

section Polynomials

open Finset Polynomial

/-! ### Lists of coefficients as polynomials -/

/-- A list of coefficients, the constant one first, as a polynomial over the integers. -/
noncomputable def coefficientPolynomial (as : List ℕ) : ℤ[X] :=
  as.foldr (fun a F => F * X + C (a : ℤ)) 0

@[simp] theorem coefficientPolynomial_nil : coefficientPolynomial [] = 0 := rfl

theorem coefficientPolynomial_cons (a : ℕ) (as : List ℕ) :
    coefficientPolynomial (a :: as) = coefficientPolynomial as * X + C (a : ℤ) := rfl

theorem eval_coefficientPolynomial (as : List ℕ) (x : ℕ) :
    (coefficientPolynomial as).eval (x : ℤ) = powerSum as x := by
  induction as with
  | nil => simp
  | cons a as ih =>
    rw [coefficientPolynomial_cons, eval_add, eval_mul, eval_X, eval_C, ih, powerSum_cons]
    push_cast
    rfl

theorem degree_coefficientPolynomial_lt (as : List ℕ) :
    (coefficientPolynomial as).degree < as.length := by
  rw [degree_lt_iff_coeff_zero]
  induction as with
  | nil => simp
  | cons a as ih =>
    intro k hk
    rw [List.length_cons] at hk
    obtain ⟨k, rfl⟩ : ∃ j, k = j + 1 := ⟨k - 1, by omega⟩
    rw [coefficientPolynomial_cons, coeff_add, coeff_mul_X, coeff_C_succ, ih k (by omega), add_zero]

theorem powerSum_zero (a : ℕ) (as : List ℕ) : powerSum (a :: as) 0 = a := by
  rw [powerSum_cons, Nat.mul_zero, Nat.zero_add]

theorem powerSum_ofFn {m : ℕ} (a : Fin m → ℕ) (x : ℕ) :
    powerSum (List.ofFn a) x = ∑ k, a k * x ^ (k : ℕ) := by
  induction m with
  | zero => simp
  | succ m ih =>
    rw [List.ofFn_succ, powerSum_cons, ih, Fin.sum_univ_succ, Finset.sum_mul, Nat.add_comm]
    simp only [Fin.val_zero, pow_zero, mul_one, Fin.val_succ, pow_succ, mul_assoc]

theorem powerSum_eq_sum (as : List ℕ) (x : ℕ) :
    powerSum as x = ∑ k : Fin as.length, as.get k * x ^ (k : ℕ) := by
  rw [← powerSum_ofFn, List.ofFn_get]

/-! ### Weighted sums of shares -/

/-- **Enough shares determine the exponent**: weighted values of a sharing polynomial sum up to
`l!` times its constant coefficient. -/
theorem SharingPolynomial.sum_weight_value_modEq (f : SharingPolynomial) {l : ℕ}
    {indices : List ℕ} (hnodup : indices.Nodup) (hrange : ∀ j ∈ indices, 1 ≤ j ∧ j ≤ l)
    (hlen : f.coefficients.length ≤ indices.length) :
    ∑ i ∈ indices.toFinset, (interpolationWeight (factorial l) indices i).toInt * (f.value i : ℤ) ≡
      factorial l * powerSum f.coefficients 0 [ZMOD f.modulus] := by
  -- the shares are reduced values, so the sum over the integers is the sum of shares modulo `nm`
  have hdeg : (coefficientPolynomial f.coefficients).degree < indices.length :=
    lt_of_lt_of_le (degree_coefficientPolynomial_lt _) (by exact_mod_cast hlen)
  have hsum := sum_interpolationWeight_eval hnodup hrange hdeg
  have hzero := eval_coefficientPolynomial f.coefficients 0
  rw [Nat.cast_zero] at hzero
  rw [hzero] at hsum
  rw [← hsum]
  refine Int.ModEq.sum fun i _ => Int.ModEq.rfl.mul ?_
  rw [eval_coefficientPolynomial, f.value_eq_powerSum_mod, Int.natCast_emod]
  exact Int.mod_modEq _ _

/-! ### Dealing -/

theorem mapM_eq_ok {α β ε : Type} {f : α → Except ε β} {g : α → β} {xs : List α}
    (h : ∀ x ∈ xs, f x = .ok (g x)) : xs.mapM f = .ok (xs.map g) := by
  induction xs with
  | nil => rfl
  | cons x xs ih =>
    rw [List.mapM_cons, h x List.mem_cons_self, ih fun y hy => h y (List.mem_cons_of_mem x hy)]
    rfl

namespace SharingPolynomial

/-- The shares that a sharing polynomial determines, in the order of the authorities. -/
def dealt (f : SharingPolynomial) (l : ℕ) : List AuthorityShare :=
  (List.range l).map fun i => ⟨i + 1, f.value (i + 1)⟩

@[simp] theorem length_dealt (f : SharingPolynomial) (l : ℕ) : (f.dealt l).length = l := by
  simp [dealt]

theorem getElem?_dealt (f : SharingPolynomial) {l i : ℕ} (hi : i < l) :
    (f.dealt l)[i]? = some ⟨i + 1, f.value (i + 1)⟩ := by
  rw [dealt, List.getElem?_map, List.getElem?_range hi]
  rfl

theorem shares_eq_ok (f : SharingPolynomial) (hf : 0 < f.modulus) {l : ℕ} (hl : l < wordBound) :
    f.shares l = .ok (f.dealt l) := by
  refine mapM_eq_ok fun i hi => f.share_of_lt hf ?_
  have := List.mem_range.mp hi
  omega

end SharingPolynomial

/-- The polynomial that shares a private key with the given drawn coefficients. -/
def PrivateKey.sharing (sk : PrivateKey) (drawn : List ℕ) : SharingPolynomial :=
  ⟨sk.d :: drawn, sk.nm⟩

theorem slotBound_lt_wordBound : slotBound < wordBound := by decide

/-- The polynomial is made from the drawn coefficients, `w - 1` of them. -/
theorem PrivateKey.sharing_run_eq_ok_iff {sk : PrivateKey} {f : SharingPolynomial}
    {s s' : Source} :
    (SharingPolynomial.draw sk).run.run s = (.ok f, s') ↔
      ∃ drawn : List ℕ, drawn.length = sk.w - 1 ∧ (drawBelow sk.nm).Answers s drawn s' ∧
        f = sk.sharing drawn := by
  rw [SharingPolynomial.draw, Draw.run_bind_eq_ok_iff]
  constructor
  · rintro ⟨drawn, m, hrun, hpure⟩
    cases hpure
    obtain ⟨hlen, hanswers⟩ := Draw.drawList_run_eq_ok_iff.mp hrun
    exact ⟨drawn, hlen, hanswers, rfl⟩
  · rintro ⟨drawn, hlen, hanswers, rfl⟩
    exact ⟨drawn, s', Draw.drawList_run_eq_ok_iff.mpr ⟨hlen, hanswers⟩, rfl⟩

/-- Modulo a positive number the coefficients can be drawn; the constant one is the exponent. -/
theorem PrivateKey.sharing_succeeds {sk : PrivateKey} (hnm : 0 < sk.nm) :
    (SharingPolynomial.draw sk).Succeeds fun f =>
      ∃ drawn : List ℕ, drawn.length = sk.w - 1 ∧ (∀ a ∈ drawn, a < sk.nm) ∧
        f = sk.sharing drawn :=
  ((drawBelow_succeeds hnm).drawList (sk.w - 1)).bind fun drawn hdrawn =>
    Draw.succeeds_pure ⟨drawn, hdrawn.1, hdrawn.2, rfl⟩

/-- **Dealing succeeds, and the shares are values of one polynomial** whose constant coefficient is
the exponent and whose others were drawn below the modulus. -/
theorem PrivateKey.deal_succeeds {sk : PrivateKey} (hnm : 0 < sk.nm) (hl : sk.l < slotBound) :
    sk.deal.Succeeds fun shares =>
      ∃ drawn : List ℕ, drawn.length = sk.w - 1 ∧ (∀ a ∈ drawn, a < sk.nm) ∧
        shares = (sk.sharing drawn).dealt sk.l := by
  refine (sharing_succeeds hnm).bind ?_
  intro f hf
  obtain ⟨drawn, hlen, hlt, rfl⟩ := hf
  exact Draw.succeeds_ok ((sk.sharing drawn).shares_eq_ok hnm (hl.trans slotBound_lt_wordBound))
    ⟨drawn, hlen, hlt, rfl⟩

end Polynomials

/-! ### Weighted shares -/

namespace SharingPolynomial

variable {f : SharingPolynomial} {l : ℕ}

theorem map_index_dealt (f : SharingPolynomial) (l : ℕ) :
    (f.dealt l).map (·.index) = List.range' 1 l := by
  rw [dealt, List.map_map, List.range'_eq_map_range]
  refine List.map_congr_left ?_
  intro i _
  exact Nat.add_comm i 1

theorem mem_dealt_iff {t : AuthorityShare} :
    t ∈ f.dealt l ↔ (1 ≤ t.index ∧ t.index ≤ l) ∧ t.secret = f.value t.index := by
  rw [dealt, List.mem_map]
  constructor
  · rintro ⟨i, hi, rfl⟩
    have hil := List.mem_range.mp hi
    exact ⟨⟨by simp, hil⟩, rfl⟩
  · rintro ⟨⟨hpos, hle⟩, hvalue⟩
    refine ⟨t.index - 1, List.mem_range.mpr (by omega), ?_⟩
    rw [Nat.sub_add_cancel hpos, ← hvalue]

theorem nodup_map_index {S : List AuthorityShare} (hS : ∀ t ∈ S, t ∈ f.dealt l) (hnodup : S.Nodup) :
    (S.map (·.index)).Nodup := by
  refine (List.nodup_map_iff_inj_on hnodup).mpr ?_
  intro t ht u hu heq
  have htv := (mem_dealt_iff.mp (hS t ht)).2
  have huv := (mem_dealt_iff.mp (hS u hu)).2
  rw [heq, ← huv] at htv
  cases t
  cases u
  simp_all

end SharingPolynomial

/-- The sum of some shares with their interpolation weights, for a given factor. -/
def sumWeighted (delta : ℕ) (S : List AuthorityShare) : ℤ :=
  (S.map fun t => (interpolationWeight delta (S.map (·.index)) t.index).toInt * t.secret).sum

/-- Enough shares add up to `l!` times what is shared. -/
theorem SharingPolynomial.sumWeighted_dealt_modEq (f : SharingPolynomial) {l : ℕ}
    {S : List AuthorityShare} (hS : ∀ t ∈ S, t ∈ f.dealt l) (hnodup : S.Nodup)
    (hlen : f.coefficients.length ≤ S.length) :
    sumWeighted (factorial l) S ≡ factorial l * powerSum f.coefficients 0 [ZMOD f.modulus] := by
  have hindices := nodup_map_index hS hnodup
  have hrange : ∀ j ∈ S.map (·.index), 1 ≤ j ∧ j ≤ l := by
    intro j hj
    obtain ⟨t, ht, rfl⟩ := List.mem_map.mp hj
    exact (mem_dealt_iff.mp (hS t ht)).1
  have hsum := f.sum_weight_value_modEq hindices hrange (by rwa [List.length_map])
  -- the sum over the indices is the sum over the shares that have them
  rw [List.sum_toFinset _ hindices, List.map_map] at hsum
  have heq : sumWeighted (factorial l) S = (S.map fun t =>
      (interpolationWeight (factorial l) (S.map (·.index)) t.index).toInt *
        (f.value t.index : ℤ)).sum := by
    refine congrArg List.sum (List.map_congr_left ?_)
    intro t ht
    rw [(mem_dealt_iff.mp (hS t ht)).2]
  rw [heq]
  exact hsum

/-! ### What dealing draws -/

namespace PrivateKey

variable {sk : PrivateKey} {s s' : Source}

theorem value_sharing (sk : PrivateKey) (drawn : List ℕ) (i : ℕ) :
    (sk.sharing drawn).value i =
      (sk.d + ∑ j : Fin drawn.length, drawn[j] * i ^ ((j : ℕ) + 1)) % sk.nm := by
  rw [SharingPolynomial.value_eq_powerSum_mod, sharing, powerSum_cons, powerSum_eq_sum,
    Finset.sum_mul, Nat.add_comm]
  simp only [List.get_eq_getElem, Fin.getElem_fin, pow_succ, mul_assoc]

/-- **What dealing draws, and what it hands out**: it asks for `w - 1` numbers below the modulus of
the shares, and hands out the values of the polynomial that they make. -/
theorem deal_run_eq_ok_iff (hnm : 0 < sk.nm) (hl : sk.l < slotBound)
    {shares : List AuthorityShare} :
    sk.deal.run.run s = (.ok shares, s') ↔
      ∃ drawn : List ℕ, drawn.length = sk.w - 1 ∧ (drawBelow sk.nm).Answers s drawn s' ∧
        shares = (sk.sharing drawn).dealt sk.l := by
  have hshares : ∀ drawn, (sk.sharing drawn).shares sk.l = .ok ((sk.sharing drawn).dealt sk.l) :=
    fun drawn => (sk.sharing drawn).shares_eq_ok hnm (hl.trans slotBound_lt_wordBound)
  rw [deal, Draw.run_bind_eq_ok_iff]
  constructor
  · rintro ⟨f, m, hdraw, hrest⟩
    obtain ⟨drawn, hlen, hanswers, rfl⟩ := sharing_run_eq_ok_iff.mp hdraw
    rw [hshares] at hrest
    cases hrest
    exact ⟨drawn, hlen, hanswers, rfl⟩
  · rintro ⟨drawn, hlen, hanswers, rfl⟩
    refine ⟨sk.sharing drawn, s', sharing_run_eq_ok_iff.mpr ⟨drawn, hlen, hanswers, rfl⟩, ?_⟩
    rw [hshares]
    rfl

end PrivateKey

/-- **Dealing shares the exponent of the key.**  For a key that was made take any source.  It gives
`w - 1` numbers below the modulus of the shares, and with them dealing answers with one share for
each of the indices `1, …, l` in this order, and leaves what the draws have left.  A share is the
value of the polynomial with the exponent and the drawn coefficients, reduced; and any `w` or more
shares, in any order, add up with their weights to `l!` times the exponent.  Nothing of this needs
that the key was made from primes. -/
theorem SafePrimePair.deal_shares_exponent {s : SafePrimePair} {w l : ℕ} {k : KeyPair}
    (hk : s.keyPair w l = .ok k) (σ : Source) :
    (∀ (drawn : List ℕ) (σ' : Source), drawn.length = w - 1 →
      (drawBelow k.privateKey.nm).Answers σ drawn σ' →
      ∃ shares, k.privateKey.deal.run.run σ = (.ok shares, σ') ∧
        (∀ a ∈ drawn, a < k.privateKey.nm) ∧
        shares.map (·.index) = List.range' 1 l ∧
        (∀ t ∈ shares, t.secret = ((k.privateKey.d +
            ∑ j : Fin drawn.length, drawn[j] * t.index ^ ((j : ℕ) + 1)) % k.privateKey.nm : ℕ) ∧
          0 ≤ t.secret ∧ t.secret < k.privateKey.nm) ∧
        ∀ S : List AuthorityShare, S.Nodup → (∀ t ∈ S, t ∈ shares) → w ≤ S.length →
          sumWeighted k.publicKey.delta S ≡ l.factorial * k.privateKey.d
            [ZMOD k.privateKey.nm]) ∧
    ∃ (drawn : List ℕ) (σ' : Source), drawn.length = w - 1 ∧
      (drawBelow k.privateKey.nm).Answers σ drawn σ' := by
  have hnm := nm_pos_of_keyPair hk
  obtain ⟨⟨hone, -⟩, hroom, -, hpk, hsk⟩ := of_keyPair_eq_ok hk
  obtain ⟨-, -, -, -, hlpk⟩ := PublicKey.ofModulus_eq_ok_iff.mp hpk
  have hw : k.privateKey.w = w := by rw [hsk]
  have hl : k.privateKey.l = l := by rw [hsk]
  rw [← hw] at hone ⊢
  rw [← hl] at hroom hlpk ⊢
  obtain ⟨drawn₀, i, hlen₀, hanswers₀⟩ :=
    (drawBelow_succeeds hnm).exists_answers (k.privateKey.w - 1) σ
  refine ⟨?_, drawn₀, σ.advance i, hlen₀, hanswers₀⟩
  intro drawn σ' hlen hanswers
  refine ⟨_, (PrivateKey.deal_run_eq_ok_iff hnm hroom).mpr ⟨drawn, hlen, hanswers, rfl⟩,
    lt_of_answers_drawBelow hnm hanswers, SharingPolynomial.map_index_dealt _ _, ?_, ?_⟩
  · intro t ht
    have hvalue := (SharingPolynomial.mem_dealt_iff.mp ht).2
    have hlt := (k.privateKey.sharing drawn).value_lt hnm t.index
    have hlt' : (k.privateKey.sharing drawn).value t.index < k.privateKey.nm := hlt
    rw [← PrivateKey.value_sharing]
    refine ⟨hvalue, ?_, ?_⟩
    · rw [hvalue]
      exact Int.natCast_nonneg _
    · rw [hvalue]
      exact_mod_cast hlt'
  · intro S hnodup hmem henough
    -- the polynomial has as many coefficients as authorities are needed
    have hcoeff : (k.privateKey.sharing drawn).coefficients.length ≤ S.length := by
      rw [PrivateKey.sharing, List.length_cons, hlen]
      omega
    have hsum := (k.privateKey.sharing drawn).sumWeighted_dealt_modEq hmem hnodup hcoeff
    rw [PrivateKey.sharing, powerSum_zero] at hsum
    rw [k.publicKey.delta_eq, hlpk, ← factorial_eq]
    exact hsum

/-- The exponent `36` of the key made from `5` and `7` is shared by the draw of `100`, which follows
a draw that is too large. -/
theorem SafePrimePair.deal_shares_exponent_smallest :
    SafeFactors.smallest.toPair.keyPair 2 3 = .ok KeyPair.smallest ∧
    (drawBelow (210 : ℕ)).Answers (Source.ofDraws 8 [255, 100]) [100]
      ((Source.ofDraws 8 [255, 100]).advance 2) ∧
    ∃ shares, KeyPair.smallest.privateKey.deal.run.run (Source.ofDraws 8 [255, 100]) =
        (.ok shares, (Source.ofDraws 8 [255, 100]).advance 2) ∧
      shares.map (·.index) = [1, 2, 3] ∧
      (∀ t ∈ shares, t.secret = ((36 + 100 * t.index) % 210 : ℕ)) ∧
      ∀ S : List AuthorityShare, S.Nodup → (∀ t ∈ S, t ∈ shares) → 2 ≤ S.length →
        sumWeighted 6 S ≡ 6 * 36 [ZMOD 210] := by
  have hsecond : (Source.ofDraws 8 [255, 100]).IsFirst 8 {x | x < 210} 1 := by
    refine ⟨by decide, ?_⟩
    intro i hi
    interval_cases i
    decide
  have hrun : (drawBelow (210 : ℕ)).run.run (Source.ofDraws 8 [255, 100]) =
      (.ok 100, (Source.ofDraws 8 [255, 100]).advance 2) :=
    drawBelow_run_of_isFirst (show 1 ≤ 210 by decide) hsecond (by decide)
  have hdrawn : (drawBelow (210 : ℕ)).Answers (Source.ofDraws 8 [255, 100]) [100]
      ((Source.ofDraws 8 [255, 100]).advance 2) := .cons hrun (.nil _)
  obtain ⟨shares, hrun, -, hindices, hsecrets, hsum⟩ :=
    (deal_shares_exponent SafeFactors.keyPair_smallest _).1 [100] _ rfl hdrawn
  refine ⟨SafeFactors.keyPair_smallest, hdrawn, shares, hrun, hindices, ?_, hsum⟩
  intro t ht
  have hsecret : t.secret = ((36 + ∑ j : Fin 1, [100][j] * t.index ^ ((j : ℕ) + 1)) % 210 : ℕ) :=
    (hsecrets t ht).1
  simpa using hsecret

/-! ### Polynomials that share a key -/

theorem powerSum_modEq {x y m : ℕ} (h : x ≡ y [MOD m]) (as : List ℕ) :
    powerSum as x ≡ powerSum as y [MOD m] := by
  induction as with
  | nil => rfl
  | cons a as ih =>
    rw [powerSum_cons, powerSum_cons]
    exact (ih.mul h).add_right a

namespace SharingPolynomial

variable {f : SharingPolynomial} {sk : PrivateKey}

/-! ### Values -/

/-- The value at a point is the remainder of the sum of the terms. -/
theorem value_eq_sum_mod (f : SharingPolynomial) (x : ℕ) :
    f.value x =
      (∑ k : Fin f.coefficients.length, f.coefficients[k] * x ^ (k : ℕ)) % f.modulus := by
  rw [value_eq_powerSum_mod, powerSum_eq_sum]
  rfl

/-- Congruent points have one value. -/
theorem value_congr (f : SharingPolynomial) {x y : ℕ} (h : x ≡ y [MOD f.modulus]) :
    f.value x = f.value y := by
  rw [value_eq_powerSum_mod, value_eq_powerSum_mod]
  exact powerSum_modEq h f.coefficients

/-- Congruent positions have congruent points, and so one value; or none, modulo zero. -/
theorem valueAt?_congr (f : SharingPolynomial) {i j : ℕ} (h : i ≡ j [MOD f.modulus]) :
    f.valueAt? i = f.valueAt? j := by
  rw [valueAt?, valueAt?, f.value_congr (h.add_right 1)]

/-! ### Polynomials that can be drawn -/

/-- What a polynomial that shares a private key looks like. -/
structure IsSharingOf (f : SharingPolynomial) (sk : PrivateKey) : Prop where
  /-- The modulus is the one of the shares. -/
  modulus_eq : f.modulus = sk.nm
  /-- There are as many coefficients as authorities are needed. -/
  length_eq : f.coefficients.length = sk.w
  /-- The constant coefficient is the exponent. -/
  head?_eq : f.coefficients.head? = some sk.d
  /-- The coefficients are reduced. -/
  lt : ∀ a ∈ f.coefficients, a < sk.nm

/-- The other coefficients are any reduced numbers. -/
theorem isSharingOf_iff (hw : 1 ≤ sk.w) (hd : sk.d < sk.nm) :
    f.IsSharingOf sk ↔ ∃ drawn : List ℕ, drawn.length = sk.w - 1 ∧ (∀ a ∈ drawn, a < sk.nm) ∧
      f = sk.sharing drawn := by
  constructor
  · intro h
    obtain ⟨as, m⟩ := f
    -- there is a constant coefficient, and the others can have been drawn
    obtain ⟨rfl, hlen, hhead, hlt⟩ := h
    cases as with
    | nil => simp at hhead
    | cons a as =>
      obtain rfl : a = sk.d := by simpa using hhead
      refine ⟨as, ?_, fun b hb => hlt b (List.mem_cons_of_mem _ hb), rfl⟩
      rw [← hlen]
      rfl
  · rintro ⟨drawn, hlen, hlt, rfl⟩
    refine ⟨rfl, ?_, rfl, ?_⟩
    · simp only [PrivateKey.sharing, List.length_cons, hlen]
      omega
    · intro a ha
      rcases List.mem_cons.mp ha with rfl | ha
      · exact hd
      · exact hlt a ha

/-- **The polynomials that share a key are those that can be drawn for it.** -/
theorem exists_draw_run_iff (hw : 1 ≤ sk.w) (hd : sk.d < sk.nm) :
    (∃ σ σ' : Source, (draw sk).run.run σ = (.ok f, σ')) ↔ f.IsSharingOf sk := by
  have hnm : 1 ≤ sk.nm := Nat.one_le_of_lt hd
  rw [isSharingOf_iff hw hd]
  constructor
  · rintro ⟨σ, σ', hrun⟩
    obtain ⟨drawn, hlen, hanswers, rfl⟩ := PrivateKey.sharing_run_eq_ok_iff.mp hrun
    exact ⟨drawn, hlen, (exists_answers_drawBelow_iff hnm).mp ⟨σ, σ', hanswers⟩, rfl⟩
  · rintro ⟨drawn, hlen, hlt, rfl⟩
    obtain ⟨σ, σ', hanswers⟩ := (exists_answers_drawBelow_iff hnm).mpr hlt
    exact ⟨σ, σ', PrivateKey.sharing_run_eq_ok_iff.mpr ⟨drawn, hlen, hanswers, rfl⟩⟩

end SharingPolynomial

/-- **What is drawn for a key, and how it evaluates.**  For a key that was made, the polynomials
that share it are those that can be drawn.  They have `w` coefficients, and a value for every
position: the sum of the terms at the next point, which does not wrap around, reduced once.  The
value is below the modulus of the shares, and positions that are congruent modulo it have the same
value. -/
theorem SafePrimePair.drawn_value_eq_sum {s : SafePrimePair} {w l : ℕ} {k : KeyPair}
    (hk : s.keyPair w l = .ok k) :
    (∀ f : SharingPolynomial,
      (∃ σ σ' : Source, (SharingPolynomial.draw k.privateKey).run.run σ = (.ok f, σ')) ↔
        f.IsSharingOf k.privateKey) ∧
    ∀ (f : SharingPolynomial) (σ σ' : Source),
      (SharingPolynomial.draw k.privateKey).run.run σ = (.ok f, σ') →
      f.coefficients.length = w ∧
      (∀ position : ℕ, ∃ y, f.valueAt? position = .ok y ∧
        y = (∑ i : Fin f.coefficients.length, f.coefficients[i] * (position + 1) ^ (i : ℕ)) %
          k.privateKey.nm ∧
        y < k.privateKey.nm) ∧
      ∀ i j : ℕ, i ≡ j [MOD k.privateKey.nm] → f.valueAt? i = f.valueAt? j := by
  have hnm := nm_pos_of_keyPair hk
  have hd := d_lt_nm_of_keyPair hk
  obtain ⟨⟨hone, -⟩, -, -, -, hsk⟩ := of_keyPair_eq_ok hk
  have hw : k.privateKey.w = w := by rw [hsk]
  rw [← hw] at hone ⊢
  refine ⟨fun f => SharingPolynomial.exists_draw_run_iff hone hd, ?_⟩
  intro f σ σ' hrun
  have hf := (SharingPolynomial.exists_draw_run_iff hone hd).mp ⟨σ, σ', hrun⟩
  rw [← hf.modulus_eq] at hnm ⊢
  refine ⟨hf.length_eq, ?_, fun i j => f.valueAt?_congr⟩
  intro position
  exact ⟨_, f.valueAt?_of_pos hnm position, f.value_eq_sum_mod (position + 1),
    f.value_lt hnm (position + 1)⟩

/-- The exponent `36` of the key made from `5` and `7`, shared with the coefficient `100`: the
largest position that fits into a word is evaluated at `2 ^ 64`, and it is congruent to `15`. -/
theorem SafePrimePair.drawn_value_eq_sum_largest_position :
    SafeFactors.smallest.toPair.keyPair 2 3 = .ok KeyPair.smallest ∧
    (∃ σ σ' : Source, (SharingPolynomial.draw KeyPair.smallest.privateKey).run.run σ =
      (.ok ⟨[36, 100], 210⟩, σ')) ∧
    (⟨[36, 100], 210⟩ : SharingPolynomial).valueAt? (2 ^ 64 - 1) =
      .ok ((36 + 100 * 2 ^ 64) % 210) ∧
    2 ^ 64 - 1 ≡ 15 [MOD 210] ∧
    (⟨[36, 100], 210⟩ : SharingPolynomial).valueAt? (2 ^ 64 - 1) =
      (⟨[36, 100], 210⟩ : SharingPolynomial).valueAt? 15 := by
  obtain ⟨hdrawn, hvalues⟩ := drawn_value_eq_sum SafeFactors.keyPair_smallest
  have hsharing : (⟨[36, 100], 210⟩ : SharingPolynomial).IsSharingOf KeyPair.smallest.privateKey :=
    ⟨rfl, rfl, rfl, by decide⟩
  obtain ⟨σ, σ', hrun⟩ := (hdrawn _).mpr hsharing
  obtain ⟨-, hsum, hcongr⟩ := hvalues _ σ σ' hrun
  obtain ⟨y, hy, hterms, -⟩ := hsum (2 ^ 64 - 1)
  have hterms' : y = (∑ i : Fin 2, [36, 100][i] * (2 ^ 64 - 1 + 1) ^ (i : ℕ)) % 210 := hterms
  have hmod : 2 ^ 64 - 1 ≡ 15 [MOD 210] := by decide
  refine ⟨SafeFactors.keyPair_smallest, ⟨σ, σ', hrun⟩, ?_, hmod, hcongr _ _ hmod⟩
  rw [hy, hterms', Fin.sum_univ_two]
  rfl

end QuorumPaillier
