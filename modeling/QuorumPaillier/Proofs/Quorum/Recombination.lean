import Mathlib.GroupTheory.OrderOfElement
import Mathlib.Tactic
import QuorumPaillier.Proofs.Quorum.Order
import QuorumPaillier.Proofs.Residue
import QuorumPaillier.Proofs.Sharing.Dealing
import QuorumPaillier.Quorum

/-!
# Recombination in the exponent

A partial decryption contributes its value to the power of twice the weight of its index.  Where the
weight is negative, the power with its magnitude is inverted, so in the group of units modulo
`n * n` the contribution is a power with the signed weight in the exponent.

The exponents of the contributions of a quorum add up to `4 * l!` times a weighted sum of shares.
That sum is known modulo `n * p' * q'` only, and this is enough: with the factor four it is known
modulo a multiple of the order of every unit.  So the contributions multiply to `c` to the power
`4 * l! * l! * d`, from which the decoder reads `4 * l! * l!` times the number of which the holder
of the private key reads the fourfold.

## Main definitions

* `PublicKey.IsQuorum` — partial decryptions of one ciphertext by enough different authorities.
* `KeyPair.Reads` — the plaintext that the private key reads off a ciphertext.

## Main results

* `PublicKey.contribution_eq_ok` — **a contribution is a power with a signed exponent.**
* `KeyPair.IsMadeFrom.contributions_quorum` — **a quorum recombines the exponent.**
* `KeyPair.IsMadeFrom.combine_quorum` — **what a quorum gets**, for few and for many authorities.
-/

namespace QuorumPaillier

/-! ### Ciphertexts as units -/

/-- A ciphertext that shares no factor with the modulus, as a unit modulo its square. -/
def cipherUnit {n c : ℕ} (hc : c.Coprime n) : (ZMod (n * n))ˣ :=
  ZMod.unitOfCoprime c (coprime_modulus_mul_modulus_iff.mpr hc)

@[simp] theorem coe_cipherUnit {n c : ℕ} (hc : c.Coprime n) :
    (cipherUnit hc : ZMod (n * n)) = c := rfl

/-- The order of a ciphertext divides the number of units modulo `n` times `n`. -/
theorem cipherUnit_zpow_congr {n c : ℕ} (hc : c.Coprime n) {a b : ℤ}
    (h : a ≡ b [ZMOD (n.totient * n : ℕ)]) : cipherUnit hc ^ a = cipherUnit hc ^ b := by
  have hone : cipherUnit hc ^ (n.totient * n) = 1 := by
    ext
    push_cast
    exact pow_totient_mul_modulus hc
  refine zpow_eq_zpow_iff_modEq.mpr (h.of_dvd ?_)
  exact_mod_cast orderOf_dvd_of_pow_eq_one hone

theorem prod_map_zpow {α M : Type*} [CommMonoid M] (u : Mˣ) (e : α → ℤ) (xs : List α) :
    (xs.map fun x => ((u ^ e x : Mˣ) : M)).prod = ((u ^ (xs.map e).sum : Mˣ) : M) := by
  induction xs with
  | nil => simp
  | cons x xs ih =>
    rw [List.map_cons, List.prod_cons, ih, List.map_cons, List.sum_cons, zpow_add, Units.val_mul]

theorem cast_powMod_pow_mod (c e m N : ℕ) :
    (powMod (c ^ e % N) m N : ZMod N) = (c : ZMod N) ^ (m * e) := by
  rw [powMod_eq, ZMod.natCast_mod, Nat.cast_pow, ZMod.natCast_mod, Nat.cast_pow, ← pow_mul,
    mul_comm]

theorem cast_mul_inverse? {t N v : ℕ} (hN : 0 < N) (h : inverse? t N = some v) :
    (t : ZMod N) * v = 1 := by
  have hz := (ZMod.natCast_eq_natCast_iff' (t * v) 1 N).mpr (mul_inverse? hN h)
  push_cast at hz
  exact hz

/-- A power with a weight in the exponent is one with its magnitude, inverted for a negative
weight. -/
theorem zpow_two_mul_toInt_mul {M : Type*} [CommMonoid M] (u : Mˣ) (weight : Weight) (e : ℕ) :
    u ^ (2 * weight.toInt * e) =
      if weight.negative then (u ^ (2 * weight.magnitude * e))⁻¹
      else u ^ (2 * weight.magnitude * e) := by
  rw [Weight.toInt]
  split
  · have hexp : 2 * -(weight.magnitude : ℤ) * e = -((2 * weight.magnitude * e : ℕ) : ℤ) := by
      push_cast
      ring
    rw [hexp, zpow_neg, zpow_natCast]
  · have hexp : 2 * (weight.magnitude : ℤ) * e = ((2 * weight.magnitude * e : ℕ) : ℤ) := by
      push_cast
      rfl
    rw [hexp, zpow_natCast]

/-- A running product of factors that are known modulo `N` is known modulo `N`. -/
theorem foldlM_product_eq_ok {α ε : Type} {N : ℕ} {factor : α → Except ε ℕ} {g : α → ZMod N}
    {xs : List α} (h : ∀ x ∈ xs, ∃ t : ℕ, factor x = .ok t ∧ (t : ZMod N) = g x) (start : ℕ) :
    ∃ product : ℕ, xs.foldlM (fun product x => do
        let t ← factor x
        return product * t % N) start = .ok product ∧
      (product : ZMod N) = start * (xs.map g).prod := by
  -- the running product is an accumulator, so the claim is about every start
  induction xs generalizing start with
  | nil => exact ⟨start, rfl, by simp⟩
  | cons x xs ih =>
    obtain ⟨t, ht, hg⟩ := h x List.mem_cons_self
    obtain ⟨product, hrun, hcast⟩ :=
      ih (fun y hy => h y (List.mem_cons_of_mem x hy)) (start * t % N)
    refine ⟨product, ?_, ?_⟩
    · rw [List.foldlM_cons, ht]
      exact hrun
    · rw [hcast, ZMod.natCast_mod, Nat.cast_mul, hg, List.map_cons, List.prod_cons, mul_assoc]

namespace PublicKey

theorem accept_of_coprime (pk : PublicKey) {x : ℕ} (hx : x.Coprime pk.nSquared)
    (hlt : x < pk.nSquared) : pk.accept x = .ok x := by
  have hn := pk.n_lt_nSquared
  have h₂ := pk.two_lt_n
  refine pk.accept_natCast (Nat.pos_of_ne_zero ?_) hlt
  rintro rfl
  rw [Nat.coprime_zero_left] at hx
  omega

/-! ### Contributions -/

/-- What an accepted value contributes: its power with the magnitude of the weight, or the inverse
of this power, which can be missing. -/
theorem contribution_of_accept (pk : PublicKey) {indices : List ℕ} {s : PartialDecryption} {x : ℕ}
    (hacc : pk.accept s.value = .ok x) {weight : Weight}
    (hweight : interpolationWeight pk.delta indices s.index = weight) :
    pk.contribution indices s =
      if weight.negative then
        (inverse? (powMod x (2 * weight.magnitude) pk.nSquared) pk.nSquared).elim
          (.error (.shareNotInvertible s.index)) .ok
      else .ok (powMod x (2 * weight.magnitude) pk.nSquared) := by
  simp only [contribution, hacc, hweight, bind, Except.bind]
  split
  · cases inverse? (powMod x (2 * weight.magnitude) pk.nSquared) pk.nSquared <;> rfl
  · rfl

/-- **A contribution is a power with a signed exponent.** -/
theorem contribution_eq_ok (pk : PublicKey) {c : ℕ} (hc : c.Coprime pk.n) {indices : List ℕ}
    {s : PartialDecryption} {e : ℕ} (hs : s.value = (c ^ e % pk.nSquared : ℕ)) :
    ∃ t : ℕ, pk.contribution indices s = .ok t ∧
      (t : ZMod (pk.n * pk.n)) =
        (cipherUnit hc ^ (2 * (interpolationWeight pk.delta indices s.index).toInt * e) :
          (ZMod (pk.n * pk.n))ˣ) := by
  have hcop := pk.coprime_nSquared_iff.mpr hc
  have hacc : pk.accept s.value = .ok (c ^ e % pk.nSquared) := by
    rw [hs]
    exact pk.accept_of_coprime (coprime_mod (hcop.pow_left e)) (Nat.mod_lt _ pk.nSquared_pos)
  set weight := interpolationWeight pk.delta indices s.index with hweight
  set t := powMod (c ^ e % pk.nSquared) (2 * weight.magnitude) pk.nSquared with ht
  have hcast : (t : ZMod (pk.n * pk.n)) =
      (cipherUnit hc ^ (2 * weight.magnitude * e) : (ZMod (pk.n * pk.n))ˣ) := by
    rw [Units.val_pow_eq_pow_val, coe_cipherUnit, ht, pk.nSquared_eq]
    exact cast_powMod_pow_mod c e (2 * weight.magnitude) (pk.n * pk.n)
  rw [pk.contribution_of_accept hacc hweight.symm, zpow_two_mul_toInt_mul, ← ht]
  by_cases hneg : weight.negative = true
  · -- the power is a unit, so it has an inverse
    have htcop : t.Coprime pk.nSquared := by
      rw [ht, powMod_eq]
      exact coprime_mod ((coprime_mod (hcop.pow_left e)).pow_left _)
    obtain ⟨v, hv⟩ := exists_inverse? htcop
    have hinv : (t : ZMod (pk.n * pk.n)) * v = 1 :=
      cast_mul_inverse? (Nat.mul_pos pk.n_pos pk.n_pos) (pk.nSquared_eq ▸ hv)
    rw [hcast] at hinv
    rw [if_pos hneg, if_pos hneg, hv]
    exact ⟨v, rfl, (Units.inv_eq_of_mul_eq_one_right hinv).symm⟩
  · rw [if_neg hneg, if_neg hneg]
    exact ⟨t, rfl, hcast⟩

/-- Contributions multiply: the product of contributions that are known modulo `n * n` is known
modulo `n * n`. -/
theorem contributions_eq_ok (pk : PublicKey) {shares : List PartialDecryption}
    {g : PartialDecryption → ZMod (pk.n * pk.n)}
    (h : ∀ s ∈ shares, ∃ t : ℕ, pk.contribution (shares.map (·.index)) s = .ok t ∧
      (t : ZMod (pk.n * pk.n)) = g s) :
    ∃ product : ℕ, pk.contributions shares = .ok product ∧
      (product : ZMod (pk.n * pk.n)) = (shares.map g).prod := by
  obtain ⟨product, hrun, hcast⟩ := foldlM_product_eq_ok h 1
  rw [← pk.nSquared_eq] at hrun
  exact ⟨product, hrun, by rw [hcast, Nat.cast_one, one_mul]⟩

end PublicKey

open Finset

/-! ### Decoding and dividing out -/

theorem decode_of_natCast_eq {n u : ℕ} (hn : 0 < n) {x : ℤ}
    (h : (u : ZMod (n * n)) = 1 + x * n) : decode u n = x % n := by
  have hz : ((u : ℤ) : ZMod (n * n)) = ((1 + x * n : ℤ) : ZMod (n * n)) := by
    push_cast
    exact h
  have hmod : 1 + x * n ≡ u [ZMOD (n : ℤ) ^ 2] := by
    rw [sq, ← Nat.cast_mul]
    exact (ZMod.intCast_eq_intCast_iff _ _ _).mp hz.symm
  have hone : 1 + x * n ≡ 1 [ZMOD n] := Int.add_mul_emod_self_right 1 x n
  have hn' : (0 : ℤ) < n := by omega
  rw [← decode_congr hn' hone hmod, decode_one_add_mul x hn']

theorem mul_inverse?_emod {n a u : ℕ} (hn : 0 < n) (hu : inverse? a n = some u) (m : ℤ) :
    a * m % n * u % n = m % n := by
  have hinv := mul_inverse?_modEq hn hu
  calc (a * m % n * u : ℤ) ≡ a * m * u [ZMOD n] := (Int.mod_modEq _ _).mul_right _
    _ = a * u * m := by ring
    _ ≡ 1 * m [ZMOD n] := hinv.mul_right _
    _ = m := one_mul m

/-- The normalizer divides out what interpolation has multiplied in. -/
theorem PublicKey.normalize_eq_ok (pk : PublicKey) {product : ℕ} {m : ℤ}
    (hcop : (4 * pk.delta * pk.delta).Coprime pk.n)
    (h : (product : ZMod (pk.n * pk.n)) = 1 + ((4 * pk.delta * pk.delta : ℕ) * m : ℤ) * pk.n) :
    pk.normalize product = .ok (m % pk.n).toNat := by
  obtain ⟨u, hu⟩ := exists_inverse? hcop
  simp only [normalize, hu, decode_of_natCast_eq pk.n_pos h, mul_inverse?_emod pk.n_pos hu]

theorem PublicKey.normalize_eq_error (pk : PublicKey) (product : ℕ)
    (hcop : ¬(4 * pk.delta * pk.delta).Coprime pk.n) :
    pk.normalize product = .error .normalizerNotInvertible := by
  simp only [normalize, inverse?_eq_none_iff.mpr hcop]

/-! ### Quorums -/

/-- Partial decryptions of the ciphertext `c` by enough different authorities, who hold the values
of a sharing polynomial. -/
structure PublicKey.IsQuorum (pk : PublicKey) (f : SharingPolynomial) (c : ℕ)
    (parts : List PartialDecryption) : Prop where
  /-- The authorities differ. -/
  nodup : (parts.map (·.index)).Nodup
  /-- They are authorities of the system. -/
  range : ∀ i ∈ parts.map (·.index), 1 ≤ i ∧ i ≤ pk.l
  /-- They are enough. -/
  enough : pk.w ≤ parts.length
  /-- Each publishes the power of the ciphertext that belongs to its share. -/
  value : ∀ s ∈ parts, s.value = (c ^ (2 * pk.delta * f.value s.index) % pk.nSquared : ℕ)

theorem PublicKey.IsQuorum.perm {pk : PublicKey} {f : SharingPolynomial} {c : ℕ}
    {parts parts' : List PartialDecryption} (hq : pk.IsQuorum f c parts)
    (hperm : parts.Perm parts') : pk.IsQuorum f c parts' where
  nodup := ((hperm.map _).nodup_iff).mp hq.nodup
  range := fun i hi => hq.range i ((hperm.map _).mem_iff.mpr hi)
  enough := hperm.length_eq ▸ hq.enough
  value := fun s hs => hq.value s (hperm.mem_iff.mpr hs)

namespace PublicKey.IsQuorum

variable {pk : PublicKey} {f : SharingPolynomial} {c : ℕ} {parts : List PartialDecryption}

/-- The exponents of the contributions add up to `4 * l!` times the weighted sum of the shares. -/
theorem sum_exponents (hq : pk.IsQuorum f c parts) :
    (parts.map fun s => 2 * (interpolationWeight pk.delta (parts.map (·.index)) s.index).toInt *
        ((2 * pk.delta * f.value s.index : ℕ) : ℤ)).sum =
      pk.delta * (4 * ∑ i ∈ (parts.map (·.index)).toFinset,
        (interpolationWeight pk.delta (parts.map (·.index)) i).toInt * (f.value i : ℤ)) := by
  rw [mul_sum, mul_sum, List.sum_toFinset _ hq.nodup, List.map_map]
  congr 1
  refine List.map_congr_left ?_
  intro s _
  simp only [Function.comp_apply]
  push_cast
  ring

/-- That sum is `l!` times the constant coefficient modulo the modulus of the shares, so with the
factor four the exponents are known modulo its fourfold. -/
theorem sum_exponents_modEq (hq : pk.IsQuorum f c parts)
    (hlen : f.coefficients.length ≤ parts.length) :
    (parts.map fun s => 2 * (interpolationWeight pk.delta (parts.map (·.index)) s.index).toInt *
        ((2 * pk.delta * f.value s.index : ℕ) : ℤ)).sum ≡
      ((4 * powerSum f.coefficients 0 * (pk.delta * pk.delta) : ℕ) : ℤ)
        [ZMOD (4 * f.modulus : ℕ)] := by
  have hshares := f.sum_weight_value_modEq hq.nodup hq.range (by rwa [List.length_map])
  rw [← pk.delta_eq] at hshares
  have hfour := (hshares.mul_left' (c := 4)).mul_left pk.delta
  have htarget : ((4 * powerSum f.coefficients 0 * (pk.delta * pk.delta) : ℕ) : ℤ) =
      pk.delta * (4 * (pk.delta * powerSum f.coefficients 0)) := by
    push_cast
    ring
  rw [hq.sum_exponents, htarget, Nat.cast_mul, Nat.cast_ofNat]
  exact hfour

end PublicKey.IsQuorum

/-- The plaintext that the private key reads off a ciphertext: raising to four times the exponent
leaves four times the plaintext. -/
def KeyPair.Reads (k : KeyPair) (c : ℕ) (m : ℤ) : Prop :=
  (c : ZMod (k.publicKey.n * k.publicKey.n)) ^ (4 * k.privateKey.d) =
    1 + ((4 : ℕ) * m : ℤ) * k.publicKey.n

namespace KeyPair.IsMadeFrom

variable {k : KeyPair} {h : SafeFactors} {c : ℕ} {m : ℤ} {drawn : List ℕ}
  {parts : List PartialDecryption}

/-- The order of every unit modulo `n * n` divides four times the modulus of the shares. -/
theorem totient_mul_modulus (hk : k.IsMadeFrom h) :
    k.publicKey.n.totient * k.publicKey.n = 4 * k.privateKey.nm := by
  rw [hk.public_n, h.totient_modulus, hk.nm_eq]
  ring

/-- Four times the exponent removes what has no plaintext. -/
theorem totient_dvd (hk : k.IsMadeFrom h) : k.publicKey.n.totient ∣ 4 * k.privateKey.d := by
  rw [hk.public_n, h.totient_modulus]
  exact mul_dvd_mul_left 4 hk.d_product

theorem exists_inverse_four (hk : k.IsMadeFrom h) : ∃ u, inverse? 4 k.publicKey.n = some u := by
  have hfour : Nat.Coprime 4 k.publicKey.n := by
    rw [hk.public_n]
    exact h.coprime_modulus_four.symm
  exact exists_inverse? hfour

/-- There is something to read off every unit. -/
theorem exists_reads (hk : k.IsMadeFrom h) (hc : c.Coprime k.publicKey.n) :
    ∃ m : ℤ, k.Reads c m := by
  have hone : c ^ (4 * k.privateKey.d) ≡ 1 [MOD k.publicKey.n] := by
    obtain ⟨j, hj⟩ := hk.totient_dvd
    rw [hj, pow_mul]
    simpa using (Nat.ModEq.pow_totient hc).pow j
  obtain ⟨x, hx⟩ := eq_one_add_mul_modulus hone
  obtain ⟨u, hu⟩ := hk.exists_inverse_four
  refine ⟨u * x, ?_⟩
  have hinv : ((4 : ℕ) * (u * x) : ℤ) ≡ x [ZMOD k.publicKey.n] := by
    have := (mul_inverse?_modEq k.publicKey.n_pos hu).mul_right x
    rwa [one_mul, mul_assoc] at this
  rw [Nat.cast_pow] at hx
  rw [Reads, hx, mul_modulus_congr hinv]

theorem decode_of_reads (hm : k.Reads c m) :
    decode (c ^ (4 * k.privateKey.d) % k.publicKey.nSquared : ℕ) k.publicKey.n =
      (4 : ℕ) * m % k.publicKey.n := by
  refine decode_of_natCast_eq k.publicKey.n_pos ?_
  rw [k.publicKey.natCast_mod_nSquared, Nat.cast_pow]
  exact hm

/-- What the holder of the private key gets. -/
theorem decrypt?_of_reads (hk : k.IsMadeFrom h) (hm : k.Reads c m) :
    k.privateKey.decrypt? c = some (m % k.publicKey.n).toNat := by
  have hn : k.privateKey.n = k.publicKey.n := hk.private_n.trans hk.public_n.symm
  obtain ⟨u, hu⟩ := hk.exists_inverse_four
  rw [PrivateKey.decrypt?, hk.private_nSquared, hn, hu, Option.map_some, powMod_eq,
    decode_of_reads hm, mul_inverse?_emod k.publicKey.n_pos hu]

/-- **A quorum recombines the exponent**: the contributions multiply to the ciphertext to the power
`4 * l! * l! * d`. -/
theorem contributions_quorum (hk : k.IsMadeFrom h) (hc : c.Coprime k.publicKey.n)
    (hlen : drawn.length = k.privateKey.w - 1)
    (hq : k.publicKey.IsQuorum (k.privateKey.sharing drawn) c parts) :
    ∃ product : ℕ, k.publicKey.contributions parts = .ok product ∧
      (product : ZMod (k.publicKey.n * k.publicKey.n)) =
        (c : ZMod (k.publicKey.n * k.publicKey.n)) ^
          (4 * k.privateKey.d * (k.publicKey.delta * k.publicKey.delta)) := by
  have hcount : (k.privateKey.sharing drawn).coefficients.length ≤ parts.length := by
    have := hq.enough
    have := k.publicKey.one_le_w
    rw [PrivateKey.sharing, List.length_cons, hlen, hk.w_eq]
    omega
  obtain ⟨product, hrun, hcast⟩ := k.publicKey.contributions_eq_ok fun s hs =>
    k.publicKey.contribution_eq_ok hc (hq.value s hs)
  -- four times the modulus of the shares is a multiple of the order of the ciphertext
  have hexp := hq.sum_exponents_modEq hcount
  have hzero : powerSum (k.privateKey.sharing drawn).coefficients 0 = k.privateKey.d :=
    powerSum_zero _ drawn
  have hmodulus : 4 * (k.privateKey.sharing drawn).modulus =
      k.publicKey.n.totient * k.publicKey.n := hk.totient_mul_modulus.symm
  rw [hzero, hmodulus] at hexp
  refine ⟨product, hrun, ?_⟩
  rw [hcast, prod_map_zpow, cipherUnit_zpow_congr hc hexp, zpow_natCast,
    Units.val_pow_eq_pow_val, coe_cipherUnit]

/-- **What a quorum gets**: the plaintext, as long as there are fewer authorities than either prime;
with more of them the normalizer is no unit, and the quorum gets an error and never another
plaintext. -/
theorem combineSorted_quorum (hk : k.IsMadeFrom h) (hc : c.Coprime k.publicKey.n)
    (hm : k.Reads c m) (hlen : drawn.length = k.privateKey.w - 1)
    (hq : k.publicKey.IsQuorum (k.privateKey.sharing drawn) c parts) :
    k.publicKey.combineSorted parts =
      if k.publicKey.l < min h.p h.q then .ok (m % k.publicKey.n).toNat
      else .error .normalizerNotInvertible := by
  obtain ⟨product, hrun, hcast⟩ := hk.contributions_quorum hc hlen hq
  have henough : ¬parts.length < k.publicKey.w := not_lt.mpr hq.enough
  have hcombine : k.publicKey.combineSorted parts = k.publicKey.normalize product := by
    simp only [PublicKey.combineSorted, if_neg henough, hrun]
    rfl
  rw [hcombine]
  by_cases hl : k.publicKey.l < min h.p h.q
  · rw [if_pos hl]
    refine k.publicKey.normalize_eq_ok (hk.coprime_delta_iff.mpr hl) ?_
    -- modulo `n * n` the product is `1 + 4 * m * n`, raised to `l! * l!`
    rw [hcast, pow_mul, hm, one_add_mul_modulus_pow]
    push_cast
    ring
  · rw [if_neg hl]
    exact k.publicKey.normalize_eq_error product (mt hk.coprime_delta_iff.mp hl)

/-- A quorum gets the same in any order. -/
theorem combine_quorum (hk : k.IsMadeFrom h) (hc : c.Coprime k.publicKey.n)
    (hm : k.Reads c m) (hlen : drawn.length = k.privateKey.w - 1)
    (hq : k.publicKey.IsQuorum (k.privateKey.sharing drawn) c parts) :
    k.publicKey.combine parts =
      if k.publicKey.l < min h.p h.q then .ok (m % k.publicKey.n).toNat
      else .error .normalizerNotInvertible := by
  have haccepted : k.publicKey.AcceptsIndices parts := ⟨hq.nodup, hq.range⟩
  rw [haccepted.combine_eq]
  exact hk.combineSorted_quorum hc hm hlen (hq.perm (sortByIndex_perm parts).symm)

end KeyPair.IsMadeFrom

end QuorumPaillier
