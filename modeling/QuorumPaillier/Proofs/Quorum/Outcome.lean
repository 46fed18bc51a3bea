import Mathlib.Tactic
import QuorumPaillier.Proofs.Quorum.Recombination
import QuorumPaillier.Proofs.Quorum.Weight

/-!
# What can come out of combination

Partial decryptions come from other parties, and what they hold is arbitrary.  Six things can be
wrong with a list of them, and this module says which one is reported.  Indices come first, in the
order of the list; then the number of partial decryptions; then their values, in ascending order of
the indices; last the normalizer, which no value has any part in.

A value is refused if it is no ciphertext, and also if it has to be inverted and shares a factor
with the modulus.  It has to be inverted if an odd number of the others have a smaller index, since
these turn the sign of its weight; the exponent has no part in this, since no weight is zero.

## Main definitions

* `rank`, `PublicKey.RefusesValue` — how many others have a smaller index, and what is wrong with a
  value of a given rank.
* `PublicKey.Refuses` — what is wrong with a list of partial decryptions.

## Main results

* `PublicKey.AcceptsIndices.contributions_eq_error_iff` — **the first refused value is reported.**
* `PublicKey.combine_outcome` — **what comes out of combination**, for every list.
-/

namespace QuorumPaillier

/-! ### The first bad index -/

theorem indexError?_append {l : ℕ} {seen as : List ℕ} (is : List ℕ)
    (h : indexError? l seen as = none) :
    indexError? l seen (as ++ is) = indexError? l (as.reverse ++ seen) is := by
  induction as generalizing seen with
  | nil => rfl
  | cons i as ih =>
    unfold indexError? at h
    split at h
    · cases h
    · next hrange =>
      split at h
      · cases h
      · next hseen =>
        rw [List.cons_append, indexError?, if_neg hrange, if_neg hseen, ih h]
        simp

/-- The index that is reported is the first bad one: those before it are good, and it is out of
range or one of them. -/
theorem indexError?_eq_some_iff {l : ℕ} {is : List ℕ} {e : Error} :
    indexError? l [] is = some e ↔
      ∃ as i bs, is = as ++ i :: bs ∧ indexError? l [] as = none ∧
        ((¬(1 ≤ i ∧ i ≤ l) ∧ e = .indexOutOfRange i l) ∨
          ((1 ≤ i ∧ i ≤ l) ∧ i ∈ as ∧ e = .repeatedIndex i)) := by
  constructor
  · intro h
    obtain ⟨as, i, bs, his, hnone, hbad⟩ := exists_of_indexError?_eq_some h
    exact ⟨as, i, bs, his, hnone, by simpa using hbad⟩
  · rintro ⟨as, i, bs, rfl, hnone, hbad⟩
    rw [indexError?_append _ hnone, indexError?]
    rcases hbad with ⟨hrange, rfl⟩ | ⟨hrange, hmem, rfl⟩
    · rw [if_pos (by omega)]
    · rw [if_neg (by omega), if_pos (by simpa using hmem)]

/-! ### Products that stop at a failure -/

section Product

variable {α ε : Type} {N start : ℕ} {factor : α → Except ε ℕ} {xs : List α} {e : ε}

theorem exists_first_cons_iff {P Q : α → Prop} {x : α} :
    (∃ as y bs, x :: xs = as ++ y :: bs ∧ (∀ z ∈ as, P z) ∧ Q y) ↔
      Q x ∨ P x ∧ ∃ as y bs, xs = as ++ y :: bs ∧ (∀ z ∈ as, P z) ∧ Q y := by
  constructor
  · rintro ⟨as, y, bs, hsplit, hbefore, hy⟩
    cases as with
    | nil =>
      obtain ⟨rfl, -⟩ := List.cons.inj hsplit
      exact Or.inl hy
    | cons a as =>
      obtain ⟨rfl, rfl⟩ := List.cons.inj hsplit
      obtain ⟨hx, hbefore⟩ := List.forall_mem_cons.mp hbefore
      exact Or.inr ⟨hx, as, y, bs, rfl, hbefore, hy⟩
  · rintro (hx | ⟨hx, as, y, bs, rfl, hbefore, hy⟩)
    · exact ⟨[], x, xs, rfl, by simp, hx⟩
    · exact ⟨x :: as, y, bs, rfl, List.forall_mem_cons.mpr ⟨hx, hbefore⟩, hy⟩

/-- A product of factors fails at the first factor that fails. -/
theorem foldlM_product_eq_error_iff :
    (xs.foldlM (fun product x => do
        let t ← factor x
        return product * t % N) start = .error e) ↔
      ∃ as x bs, xs = as ++ x :: bs ∧ (∀ y ∈ as, ∃ t, factor y = .ok t) ∧ factor x = .error e := by
  induction xs generalizing start with
  | nil => simp [pure, Except.pure]
  | cons x xs ih =>
    rw [List.foldlM_cons, exists_first_cons_iff]
    cases hx : factor x with
    | error e' => simp [bind, Except.bind]
    | ok t =>
      simp only [reduceCtorEq, false_or, Except.ok.injEq, exists_eq', true_and]
      exact ih

theorem exists_foldlM_product_iff :
    (∃ product, xs.foldlM (fun product x => do
        let t ← factor x
        return product * t % N) start = .ok product) ↔ ∀ x ∈ xs, ∃ t, factor x = .ok t := by
  induction xs generalizing start with
  | nil => simp [pure, Except.pure]
  | cons x xs ih =>
    rw [List.foldlM_cons, List.forall_mem_cons]
    cases hx : factor x with
    | error e => simp [bind, Except.bind]
    | ok t =>
      simp only [Except.ok.injEq, exists_eq', true_and]
      exact ih

end Product

/-! ### Ranks -/

/-- The number of partial decryptions with a smaller index. -/
def rank (shares : List PartialDecryption) (s : PartialDecryption) : ℕ :=
  shares.countP (·.index < s.index)

theorem rank_perm {shares shares' : List PartialDecryption} (hperm : shares.Perm shares')
    (s : PartialDecryption) : rank shares s = rank shares' s :=
  hperm.countP_eq _

theorem pairwise_lt_sortByIndex {shares : List PartialDecryption}
    (hnodup : (shares.map (·.index)).Nodup) :
    (sortByIndex shares).Pairwise (·.index < ·.index) := by
  have hne : (sortByIndex shares).Pairwise (·.index ≠ ·.index) := by
    rw [← List.pairwise_map (R := (· ≠ ·))]
    exact ((sortByIndex_perm shares).map _).nodup_iff.mpr hnodup
  exact (pairwise_sortByIndex shares).imp₂ (fun _ _ hle hne => Nat.lt_of_le_of_ne hle hne) hne

namespace PublicKey

/-! ### Refused values -/

/-- What is wrong with the value of a partial decryption of rank `k`. -/
@[mk_iff]
inductive RefusesValue (pk : PublicKey) (k : ℕ) (s : PartialDecryption) : Error → Prop
  /-- It is zero or negative. -/
  | notPositive (h : s.value ≤ 0) : RefusesValue pk k s (.invalidCiphertext .notPositive)
  /-- It is not below the square of the modulus. -/
  | tooLarge (h : (pk.n : ℤ) ^ 2 ≤ s.value) : RefusesValue pk k s (.invalidCiphertext .tooLarge)
  /-- It has to be inverted and is no unit. -/
  | notInvertible (hpos : 0 < s.value) (hlt : s.value < (pk.n : ℤ) ^ 2) (hodd : Odd k)
      (hgcd : s.value.gcd pk.n ≠ 1) : RefusesValue pk k s (.shareNotInvertible s.index)

/-- A power is a unit modulo the square of a number if its base is a unit modulo the number. -/
theorem gcd_powMod_eq_one_iff (pk : PublicKey) {x e : ℕ} (he : e ≠ 0) :
    (powMod x e pk.nSquared).gcd pk.nSquared = 1 ↔ x.gcd pk.n = 1 := by
  rw [powMod_eq, (Nat.mod_modEq _ _).gcd_eq]
  change Nat.Coprime _ _ ↔ Nat.Coprime _ _
  rw [pk.coprime_nSquared_iff, Nat.coprime_pow_left_iff (Nat.pos_of_ne_zero he)]

/-- Of a ciphertext only the inverse can be missing. -/
theorem contribution_natCast_eq_error_iff (pk : PublicKey) {indices : List ℕ} {i x : ℕ} {e : Error}
    (hweight : 0 < (interpolationWeight pk.delta indices i).magnitude) (h₀ : 0 < x)
    (hlt : x < pk.nSquared) :
    pk.contribution indices ⟨i, x⟩ = .error e ↔
      Odd (indices.countP (· < i)) ∧ x.gcd pk.n ≠ 1 ∧ e = .shareNotInvertible i := by
  have hsign := interpolationWeight_negative pk.delta indices i
  set weight := interpolationWeight pk.delta indices i with hweq
  rw [pk.contribution_of_accept (pk.accept_natCast h₀ hlt) hweq.symm]
  have hunit := pk.gcd_powMod_eq_one_iff (x := x) (e := 2 * weight.magnitude) (by omega)
  -- the power has to be inverted where the weight is negative
  by_cases hodd : Odd (indices.countP (· < i))
  · have hnegative : weight.negative = true := by
      rw [hsign, decide_eq_true (Nat.odd_iff.mp hodd)]
    rw [hnegative, if_pos rfl]
    cases hinv : inverse? (powMod x (2 * weight.magnitude) pk.nSquared) pk.nSquared with
    | none =>
      have hgcd := mt hunit.mpr (inverse?_eq_none_iff.mp hinv)
      simp [hodd, hgcd, eq_comm]
    | some u =>
      have hgcd := hunit.mp (inverse?_isSome_iff.mp (Option.isSome_of_eq_some hinv))
      simp [hgcd]
  · have hnegative : weight.negative = false := by
      rw [hsign, decide_eq_false (mt Nat.odd_iff.mpr hodd)]
    simp [hnegative, hodd]

/-- **Which values are refused.** -/
theorem contribution_eq_error_iff (pk : PublicKey) {indices : List ℕ} {s : PartialDecryption}
    {e : Error} (hweight : 0 < (interpolationWeight pk.delta indices s.index).magnitude) :
    pk.contribution indices s = .error e ↔
      pk.RefusesValue (indices.countP (· < s.index)) s e := by
  obtain ⟨i, c⟩ := s
  have hpos := pk.nSquared_pos
  rw [refusesValue_iff, ← pk.natCast_nSquared]
  rcases le_or_gt c 0 with hc | hc
  · have hfail : pk.contribution indices ⟨i, c⟩ = .error (.invalidCiphertext .notPositive) := by
      rw [contribution, pk.accept_of_le_zero hc]
      rfl
    have hlt : ¬(pk.nSquared : ℤ) ≤ c := by omega
    simp [hfail, hc, hlt, eq_comm]
  rcases le_or_gt (pk.nSquared : ℤ) c with hlarge | hlt
  · have hfail : pk.contribution indices ⟨i, c⟩ = .error (.invalidCiphertext .tooLarge) := by
      rw [contribution, pk.accept_of_nSquared_le hlarge]
      rfl
    simp [hfail, hlarge, hc.not_ge, eq_comm]
  · obtain ⟨x, rfl⟩ := Int.eq_ofNat_of_zero_le hc.le
    have hx : 0 < x := by omega
    rw [pk.contribution_natCast_eq_error_iff hweight hx (by omega)]
    simp [hx, hx.ne', hlt, hlt.not_ge]

variable {pk : PublicKey} {shares : List PartialDecryption} {s : PartialDecryption} {e : Error}

namespace AcceptsIndices

/-- Weights of good indices are not zero, so only the value and the rank decide. -/
theorem contribution_eq_error_iff (h : pk.AcceptsIndices shares) (hs : s ∈ shares) :
    pk.contribution (shares.map (·.index)) s = .error e ↔
      pk.RefusesValue (rank shares s) s e := by
  have hweight := magnitude_interpolationWeight_pos h.1 h.2 (List.mem_map_of_mem hs)
  rw [← pk.delta_eq] at hweight
  rw [pk.contribution_eq_error_iff hweight, List.countP_map]
  rfl

theorem exists_contribution_iff (h : pk.AcceptsIndices shares) (hs : s ∈ shares) :
    (∃ t, pk.contribution (shares.map (·.index)) s = .ok t) ↔
      ∀ e, ¬pk.RefusesValue (rank shares s) s e := by
  simp only [← h.contribution_eq_error_iff hs]
  cases pk.contribution (shares.map (·.index)) s <;> simp

/-- **The first refused value is reported**, if the indices are in ascending order. -/
theorem contributions_eq_error_iff (h : pk.AcceptsIndices shares)
    (hsorted : shares.Pairwise (·.index < ·.index)) :
    pk.contributions shares = .error e ↔
      ∃ s ∈ shares, pk.RefusesValue (rank shares s) s e ∧
        ∀ t ∈ shares, t.index < s.index → ∀ e', ¬pk.RefusesValue (rank shares t) t e' := by
  unfold contributions
  rw [foldlM_product_eq_error_iff]
  constructor
  · rintro ⟨as, s, bs, rfl, hbefore, hs⟩
    have hmem : s ∈ as ++ s :: bs := by simp
    refine ⟨s, hmem, (h.contribution_eq_error_iff hmem).mp hs, ?_⟩
    intro t ht hlt
    -- what has a smaller index stands before `s`
    have hta : t ∈ as := by
      obtain ⟨-, hright, -⟩ := List.pairwise_append.mp hsorted
      rcases List.mem_append.mp ht with hta | htb
      · exact hta
      · rcases List.mem_cons.mp htb with rfl | htb
        · omega
        · have := List.rel_of_pairwise_cons hright htb
          omega
    exact (h.exists_contribution_iff ht).mp (hbefore t hta)
  · rintro ⟨s, hs, hrefused, hfirst⟩
    obtain ⟨as, bs, rfl⟩ := List.append_of_mem hs
    refine ⟨as, s, bs, rfl, ?_, (h.contribution_eq_error_iff hs).mpr hrefused⟩
    intro t ht
    have hmem : t ∈ as ++ s :: bs := List.mem_append_left _ ht
    have hlt := (List.pairwise_append.mp hsorted).2.2 t ht s List.mem_cons_self
    exact (h.exists_contribution_iff hmem).mpr (hfirst t hmem hlt)

/-- Sorting changes neither the members nor their ranks. -/
theorem contributions_sortByIndex_eq_error_iff (h : pk.AcceptsIndices shares) :
    pk.contributions (sortByIndex shares) = .error e ↔
      ∃ s ∈ shares, pk.RefusesValue (rank shares s) s e ∧
        ∀ t ∈ shares, t.index < s.index → ∀ e', ¬pk.RefusesValue (rank shares t) t e' := by
  have hperm := sortByIndex_perm shares
  rw [(h.perm hperm.symm).contributions_eq_error_iff (pairwise_lt_sortByIndex h.1)]
  simp only [hperm.mem_iff, rank_perm hperm]

theorem exists_contributions_sortByIndex_iff (h : pk.AcceptsIndices shares) :
    (∃ product, pk.contributions (sortByIndex shares) = .ok product) ↔
      ∀ s ∈ shares, ∀ e, ¬pk.RefusesValue (rank shares s) s e := by
  have hperm := sortByIndex_perm shares
  unfold contributions
  rw [exists_foldlM_product_iff]
  simp only [← rank_perm hperm, ← hperm.mem_iff]
  exact forall₂_congr fun s hs => (h.perm hperm.symm).exists_contribution_iff hs

theorem combine_of_few (h : pk.AcceptsIndices shares) (hfew : shares.length < pk.w) :
    pk.combine shares = .error (.insufficientShares shares.length pk.w) := by
  rw [h.combine_eq, combineSorted, length_sortByIndex, if_pos hfew]
  rfl

theorem combine_of_enough (h : pk.AcceptsIndices shares) (henough : pk.w ≤ shares.length) :
    pk.combine shares = pk.contributions (sortByIndex shares) >>= pk.normalize := by
  rw [h.combine_eq, combineSorted, length_sortByIndex, if_neg (not_lt.mpr henough)]

end AcceptsIndices

/-! ### The normalizer -/

/-- The normalizer is a unit unless two or a factor of `l!` divides the modulus. -/
theorem coprime_normalizer_iff :
    (4 * pk.delta * pk.delta).Coprime pk.n ↔ (2 * pk.l.factorial).gcd pk.n = 1 := by
  have hfour : Nat.Coprime 4 pk.n ↔ Nat.Coprime 2 pk.n := by
    rw [show 4 = 2 ^ 2 from rfl, Nat.coprime_pow_left_iff (by decide)]
  change _ ↔ Nat.Coprime _ _
  rw [pk.delta_eq, factorial_eq, Nat.coprime_mul_iff_left, Nat.coprime_mul_iff_left,
    Nat.coprime_mul_iff_left, hfour]
  tauto

theorem exists_normalize_eq_ok (pk : PublicKey) (product : ℕ)
    (hcop : (4 * pk.delta * pk.delta).Coprime pk.n) :
    ∃ v < pk.n, pk.normalize product = .ok v := by
  obtain ⟨u, hu⟩ := exists_inverse? hcop
  have hn : (0 : ℤ) < pk.n := by exact_mod_cast pk.n_pos
  have h₀ := Int.emod_nonneg (decode product pk.n * u) hn.ne'
  have h₁ := Int.emod_lt_of_pos (decode product pk.n * u) hn
  refine ⟨(decode product pk.n * u % pk.n).toNat, by omega, ?_⟩
  simp only [normalize, hu]

/-! ### The outcome -/

/-- What is wrong with a list of partial decryptions, and is reported. -/
inductive Refuses (pk : PublicKey) (shares : List PartialDecryption) : Error → Prop
  /-- An index is out of range, and none before it is bad. -/
  | outOfRange {as bs : List PartialDecryption} {s : PartialDecryption}
      (hsplit : shares = as ++ s :: bs) (hbefore : pk.AcceptsIndices as)
      (hrange : ¬(1 ≤ s.index ∧ s.index ≤ pk.l)) : Refuses pk shares (.indexOutOfRange s.index pk.l)
  /-- An index is one of those before it, and none of these is bad. -/
  | repeated {as bs : List PartialDecryption} {s : PartialDecryption}
      (hsplit : shares = as ++ s :: bs) (hbefore : pk.AcceptsIndices as)
      (hrange : 1 ≤ s.index ∧ s.index ≤ pk.l) (hseen : s.index ∈ as.map (·.index)) :
      Refuses pk shares (.repeatedIndex s.index)
  /-- All indices are good, but there are too few of them. -/
  | tooFew (hindices : pk.AcceptsIndices shares) (hfew : shares.length < pk.w) :
      Refuses pk shares (.insufficientShares shares.length pk.w)
  /-- A value is refused, and none with a smaller index is. -/
  | value {s : PartialDecryption} {e : Error} (hindices : pk.AcceptsIndices shares)
      (henough : pk.w ≤ shares.length) (hs : s ∈ shares)
      (hrefused : pk.RefusesValue (rank shares s) s e)
      (hfirst : ∀ t ∈ shares, t.index < s.index → ∀ e', ¬pk.RefusesValue (rank shares t) t e') :
      Refuses pk shares e
  /-- No value is refused, but two or a factor of `l!` divides the modulus. -/
  | normalizer (hindices : pk.AcceptsIndices shares) (henough : pk.w ≤ shares.length)
      (hvalues : ∀ s ∈ shares, ∀ e, ¬pk.RefusesValue (rank shares s) s e)
      (hgcd : (2 * pk.l.factorial).gcd pk.n ≠ 1) : Refuses pk shares .normalizerNotInvertible

theorem refuses_of_indexError (h : indexError? pk.l [] (shares.map (·.index)) = some e) :
    pk.Refuses shares e := by
  obtain ⟨is, i, js, hsplit, hbefore, hbad⟩ := indexError?_eq_some_iff.mp h
  obtain ⟨as, cs, rfl, rfl, hrest⟩ := List.map_eq_append_iff.mp hsplit
  obtain ⟨s, bs, rfl, rfl, rfl⟩ := List.map_eq_cons_iff.mp hrest
  have haccepts := acceptsIndices_iff.mpr hbefore
  rcases hbad with ⟨hrange, rfl⟩ | ⟨hrange, hseen, rfl⟩
  · exact .outOfRange rfl haccepts hrange
  · exact .repeated rfl haccepts hrange hseen

theorem Refuses.combine_eq (h : pk.Refuses shares e) : pk.combine shares = .error e := by
  cases h with
  | outOfRange hsplit hbefore hrange =>
    apply combine_of_indexError
    rw [hsplit, List.map_append, List.map_cons]
    exact indexError?_eq_some_iff.mpr
      ⟨_, _, _, rfl, acceptsIndices_iff.mp hbefore, Or.inl ⟨hrange, rfl⟩⟩
  | repeated hsplit hbefore hrange hseen =>
    apply combine_of_indexError
    rw [hsplit, List.map_append, List.map_cons]
    exact indexError?_eq_some_iff.mpr
      ⟨_, _, _, rfl, acceptsIndices_iff.mp hbefore, Or.inr ⟨hrange, hseen, rfl⟩⟩
  | tooFew hindices hfew => exact hindices.combine_of_few hfew
  | value hindices henough hs hrefused hfirst =>
    rw [hindices.combine_of_enough henough,
      hindices.contributions_sortByIndex_eq_error_iff.mpr ⟨_, hs, hrefused, hfirst⟩]
    rfl
  | normalizer hindices henough hvalues hgcd =>
    obtain ⟨product, hproduct⟩ := hindices.exists_contributions_sortByIndex_iff.mpr hvalues
    rw [hindices.combine_of_enough henough, hproduct]
    exact pk.normalize_eq_error product (mt coprime_normalizer_iff.mp hgcd)

/-- There is something wrong, or a plaintext comes out. -/
theorem refuses_or_combine_eq_ok (pk : PublicKey) (shares : List PartialDecryption) :
    (∃ e, pk.Refuses shares e) ∨ ∃ v < pk.n, pk.combine shares = .ok v := by
  cases hindex : indexError? pk.l [] (shares.map (·.index)) with
  | some e => exact Or.inl ⟨e, refuses_of_indexError hindex⟩
  | none =>
    have hindices := acceptsIndices_iff.mpr hindex
    rcases lt_or_ge shares.length pk.w with hfew | henough
    · exact Or.inl ⟨_, .tooFew hindices hfew⟩
    cases hproduct : pk.contributions (sortByIndex shares) with
    | error e =>
      obtain ⟨s, hs, hrefused, hfirst⟩ :=
        hindices.contributions_sortByIndex_eq_error_iff.mp hproduct
      exact Or.inl ⟨e, .value hindices henough hs hrefused hfirst⟩
    | ok product =>
      have hvalues := hindices.exists_contributions_sortByIndex_iff.mp ⟨product, hproduct⟩
      by_cases hgcd : (2 * pk.l.factorial).gcd pk.n = 1
      · obtain ⟨v, hlt, hv⟩ := pk.exists_normalize_eq_ok product (coprime_normalizer_iff.mpr hgcd)
        refine Or.inr ⟨v, hlt, ?_⟩
        rw [hindices.combine_of_enough henough, hproduct]
        exact hv
      · exact Or.inl ⟨_, .normalizer hindices henough hvalues hgcd⟩

/-- **What comes out of combination**: an error exactly if it is what is wrong with the list, and
otherwise a number below the modulus. -/
theorem combine_outcome (pk : PublicKey) (shares : List PartialDecryption) :
    (∀ e, pk.combine shares = .error e ↔ pk.Refuses shares e) ∧
      ((∃ v < pk.n, pk.combine shares = .ok v) ↔ ∀ e, ¬pk.Refuses shares e) := by
  -- one of the two happens, and an answer is not a failure
  rcases pk.refuses_or_combine_eq_ok shares with ⟨e, hrefused⟩ | ⟨v, hlt, hv⟩
  · have hrun := hrefused.combine_eq
    refine ⟨fun e' => ⟨?_, Refuses.combine_eq⟩, ?_⟩
    · intro hrun'
      cases hrun.symm.trans hrun'
      exact hrefused
    · constructor
      · rintro ⟨v, -, hv⟩
        cases hrun.symm.trans hv
      · intro hnone
        exact absurd hrefused (hnone e)
  · have hnone : ∀ e, ¬pk.Refuses shares e := by
      intro e hrefused
      cases hv.symm.trans hrefused.combine_eq
    refine ⟨fun e => ⟨?_, Refuses.combine_eq⟩, fun _ => hnone, fun _ => ⟨v, hlt, hv⟩⟩
    intro hrun
    cases hv.symm.trans hrun

/-- The value `5` is of rank one and no unit modulo `35`; that the last one is no ciphertext either
is not looked at. -/
example : KeyPair.smallest.publicKey.combine [⟨3, 0⟩, ⟨2, 5⟩, ⟨1, 40⟩] =
    .error (.shareNotInvertible 2) := by cbv

end PublicKey

end QuorumPaillier
