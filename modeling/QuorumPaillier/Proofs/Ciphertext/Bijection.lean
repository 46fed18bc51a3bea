import Mathlib.GroupTheory.OrderOfElement
import Mathlib.Probability.Distributions.Uniform
import Mathlib.Tactic
import QuorumPaillier.Proofs.Ciphertext.Homomorphism
import QuorumPaillier.Proofs.Key.Construction
import QuorumPaillier.Proofs.Random.Sampling

/-!
# Ciphertexts and what they hold

Under a key made from safe primes every unit modulo `n * n` is the ciphertext of exactly one
plaintext with exactly one randomness.  The randomness is found first: modulo `n` a ciphertext is
the `n`-th power of it, and taking `n`-th powers is a permutation of the units, since their number
shares no factor with `n`.  Once the mask is divided out, what is left is one modulo `n`, and such a
number carries one plaintext.

Rerandomization multiplies the randomness by a drawn unit.  So each ciphertext of the same plaintext
is reached by the draw of exactly one unit, wherever one starts from, and whoever sees a
rerandomized ciphertext learns nothing about the one it was made from, beyond the plaintext that
both hold.

## Main definitions

* `PublicKey.unitsTurning` — the units whose draw turns one ciphertext into another.
* `PublicKey.encryptionsOf`, `PublicKey.rerandomized` — the ciphertexts of a plaintext, and the
  distribution of a rerandomized one for a uniform draw.

## Main results

* `SafePrimePair.bijOn_encryptWith` — **encryption is a bijection onto the units.**
* `SafePrimePair.rerandomize_unlinkable` — **a rerandomized ciphertext is any ciphertext of its
  plaintext, in one way each.**
-/

namespace QuorumPaillier

/-! ### Roots modulo the modulus -/

/-- Taking `n`-th powers permutes the units modulo `n` if their number shares no factor with `n`. -/
theorem bijective_pow_units {n : ℕ} (hn : 0 < n) (h : n.Coprime n.totient) :
    Function.Bijective fun u : (ZMod n)ˣ => u ^ n := by
  have : NeZero n := ⟨hn.ne'⟩
  refine Nat.Coprime.pow_left_bijective ?_
  rw [Nat.card_eq_fintype_card, ZMod.card_units_eq_totient]
  exact h.symm

/-- Units with the same `n`-th power are the same. -/
theorem modEq_of_pow_modulus {n r s : ℕ} (hn : 0 < n) (h : n.Coprime n.totient)
    (hr : r.Coprime n) (hs : s.Coprime n) (heq : r ^ n ≡ s ^ n [MOD n]) : r ≡ s [MOD n] := by
  have hpow : ZMod.unitOfCoprime r hr ^ n = ZMod.unitOfCoprime s hs ^ n := by
    ext
    rw [Units.val_pow_eq_pow_val, Units.val_pow_eq_pow_val, ZMod.coe_unitOfCoprime,
      ZMod.coe_unitOfCoprime, ← Nat.cast_pow, ← Nat.cast_pow]
    exact (ZMod.natCast_eq_natCast_iff _ _ _).mpr heq
  have hunit := congrArg Units.val ((bijective_pow_units hn h).injective hpow)
  exact (ZMod.natCast_eq_natCast_iff r s n).mp hunit

/-- Every unit is an `n`-th power. -/
theorem exists_root {n c : ℕ} (hn : 0 < n) (h : n.Coprime n.totient) (hc : c.Coprime n) :
    ∃ r < n, r.Coprime n ∧ r ^ n ≡ c [MOD n] := by
  have : NeZero n := ⟨hn.ne'⟩
  obtain ⟨u, hu⟩ := (bijective_pow_units hn h).surjective (ZMod.unitOfCoprime c hc)
  refine ⟨(u : ZMod n).val, ZMod.val_lt _, ZMod.val_coe_unit_coprime u, ?_⟩
  have hval := congrArg Units.val hu
  push_cast at hval
  refine (ZMod.natCast_eq_natCast_iff _ _ _).mp ?_
  rw [Nat.cast_pow, ZMod.natCast_zmod_val]
  exact hval

/-! ### Ciphertexts -/

namespace PublicKey

variable {pk : PublicKey}

theorem ciphertext_inj (h : pk.n.Coprime pk.n.totient) {r s : ℕ} {m m' : ℤ}
    (hr : r.Coprime pk.n) (hs : s.Coprime pk.n) (heq : pk.ciphertext r m = pk.ciphertext s m') :
    r ≡ s [MOD pk.n] ∧ m ≡ m' [ZMOD pk.n] := by
  have hpow : r ^ pk.n ≡ s ^ pk.n [MOD pk.n] :=
    (pk.ciphertext_modEq r m).symm.trans (heq ▸ pk.ciphertext_modEq s m')
  have hrs := modEq_of_pow_modulus pk.n_pos h hr hs hpow
  refine ⟨hrs, ?_⟩
  -- both have the same mask, which is a unit, so the carriers are the same
  have hcast := congrArg (Nat.cast : ℕ → ZMod (pk.n * pk.n)) heq
  rw [cast_ciphertext, cast_ciphertext, pow_modulus_congr hrs] at hcast
  have hunit : IsUnit ((s : ZMod (pk.n * pk.n)) ^ pk.n) :=
    ((ZMod.isUnit_iff_coprime s _).mpr (coprime_modulus_mul_modulus_iff.mpr hs)).pow _
  exact (mul_modulus_eq_iff pk.n_pos m m').mp (add_left_cancel (hunit.mul_left_cancel hcast))

theorem exists_eq_ciphertext (h : pk.n.Coprime pk.n.totient) {c : ℕ} (hc : c.Coprime pk.n)
    (hlt : c < pk.nSquared) :
    ∃ r < pk.n, r.Coprime pk.n ∧ ∃ m : ℤ, c = pk.ciphertext r m := by
  obtain ⟨r, hrn, hr, hroot⟩ := exists_root pk.n_pos h hc
  refine ⟨r, hrn, hr, ?_⟩
  -- a number inverse to the randomness divides the mask out
  obtain ⟨t, ht⟩ := exists_inverse? hr
  have hinv : r * t ≡ 1 [MOD pk.n] := mul_inverse? pk.n_pos ht
  have hone : c * t ^ pk.n ≡ 1 [MOD pk.n] :=
    calc c * t ^ pk.n ≡ r ^ pk.n * t ^ pk.n [MOD pk.n] := hroot.symm.mul_right _
      _ = (r * t) ^ pk.n := (mul_pow r t pk.n).symm
      _ ≡ 1 ^ pk.n [MOD pk.n] := hinv.pow pk.n
      _ = 1 := one_pow pk.n
  obtain ⟨m, hm⟩ := eq_one_add_mul_modulus hone
  refine ⟨m, (pk.eq_ciphertext_iff hlt).mpr ?_⟩
  have hmask : (r : ZMod (pk.n * pk.n)) ^ pk.n * t ^ pk.n = 1 := by
    have := pow_modulus_congr hinv
    push_cast at this
    rwa [mul_pow, one_pow] at this
  push_cast at hm
  linear_combination (r : ZMod (pk.n * pk.n)) ^ pk.n * hm - c * hmask

/-- Randomness and plaintexts below `n` correspond to the units below `n * n`. -/
theorem bijOn_ciphertext (h : pk.n.Coprime pk.n.totient) :
    Set.BijOn (fun x : ℕ × ℤ => pk.ciphertext x.1 x.2)
      {x | isUnitBelow pk.n x.1 = true ∧ 0 ≤ x.2 ∧ x.2 < pk.n}
      {c | 0 < c ∧ c < pk.nSquared ∧ c.Coprime pk.n} := by
  refine ⟨?_, ?_, ?_⟩
  · rintro ⟨r, m⟩ ⟨hr, -⟩
    have hcop := (isUnitBelow_iff.mp hr).2.2
    exact ⟨pk.ciphertext_pos hcop m, pk.ciphertext_lt r m, pk.coprime_ciphertext hcop m⟩
  · rintro ⟨r, m⟩ ⟨hr, hm₀, hm⟩ ⟨r', m'⟩ ⟨hr', hm₀', hm'⟩ heq
    obtain ⟨-, hlt, hcop⟩ := isUnitBelow_iff.mp hr
    obtain ⟨-, hlt', hcop'⟩ := isUnitBelow_iff.mp hr'
    obtain ⟨hrr, hmm⟩ := ciphertext_inj h hcop hcop' heq
    -- congruent numbers below `n` are equal
    have hrand : r = r' := Nat.ModEq.eq_of_lt_of_lt hrr hlt hlt'
    have hplain : m = m' := by
      rw [Int.ModEq, Int.emod_eq_of_lt hm₀ hm, Int.emod_eq_of_lt hm₀' hm'] at hmm
      exact hmm
    rw [hrand, hplain]
  · rintro c ⟨-, hlt, hcop⟩
    -- the plaintext that is found need not be reduced
    obtain ⟨r, hr, hrcop, m, rfl⟩ := exists_eq_ciphertext h hcop hlt
    have hn : (0 : ℤ) < pk.n := by exact_mod_cast pk.n_pos
    have htwo := pk.two_lt_n
    have hunit := isUnitBelow_mod (by omega) hrcop
    rw [Nat.mod_eq_of_lt hr] at hunit
    exact ⟨(r, m % pk.n), ⟨hunit, Int.emod_nonneg m hn.ne', Int.emod_lt_of_pos m hn⟩,
      pk.ciphertext_congr (Nat.ModEq.refl r) (Int.mod_modEq m pk.n)⟩

end PublicKey

theorem bijOn_toNat (n : ℕ) :
    Set.BijOn (fun x : ℤ × ℤ => (x.1.toNat, x.2))
      {x | (0 < x.1 ∧ x.1 < n ∧ x.1.gcd n = 1) ∧ 0 ≤ x.2 ∧ x.2 < n}
      {x | isUnitBelow n x.1 = true ∧ 0 ≤ x.2 ∧ x.2 < n} := by
  refine ⟨?_, ?_, ?_⟩
  · rintro ⟨r, m⟩ ⟨⟨hr₀, hr, hcop⟩, hm⟩
    obtain ⟨r, rfl⟩ := Int.eq_ofNat_of_zero_le hr₀.le
    exact ⟨isUnitBelow_iff.mpr ⟨Int.natCast_pos.mp hr₀, Int.ofNat_lt.mp hr, hcop⟩, hm⟩
  · rintro ⟨r, m⟩ ⟨⟨hr₀, -, -⟩, -⟩ ⟨r', m'⟩ ⟨⟨hr₀', -, -⟩, -⟩ heq
    simp only [Prod.mk.injEq] at heq hr₀ hr₀'
    have hrand : r = r' := by omega
    rw [hrand, heq.2]
  · rintro ⟨r, m⟩ ⟨hr, hm⟩
    obtain ⟨hr₀, hr, hcop⟩ := isUnitBelow_iff.mp hr
    exact ⟨(r, m), ⟨⟨Int.natCast_pos.mpr hr₀, Int.ofNat_lt.mpr hr, hcop⟩, hm⟩, rfl⟩

/-- **Encryption is a bijection onto the units**: under a key made from an accepted pair, the
randomness that is a unit below `n` and the plaintexts below `n` correspond to the units below
`n * n`. -/
theorem SafePrimePair.bijOn_encryptWith {isPrime : ℕ → Bool} (hexact : IsExact isPrime) {p q : ℤ}
    {s : SafePrimePair} (hs : ofPrimes isPrime p q = .ok s) {w l : ℕ} {k : KeyPair}
    (hk : s.keyPair w l = .ok k) :
    Set.BijOn (fun x : ℤ × ℤ => k.publicKey.encryptWith x.1 x.2)
      {x | (0 < x.1 ∧ x.1 < k.publicKey.n ∧ x.1.gcd k.publicKey.n = 1) ∧
        0 ≤ x.2 ∧ x.2 < k.publicKey.n}
      (Except.ok '' {c : ℕ | 0 < c ∧ c < k.publicKey.n ^ 2 ∧ c.gcd k.publicKey.n = 1}) := by
  obtain ⟨h, hmade, -, -, -, -⟩ := exists_isMadeFrom hexact hs hk
  have htotient : k.publicKey.n.Coprime k.publicKey.n.totient := by
    rw [hmade.public_n]
    exact h.coprime_modulus_totient
  have hcipher := PublicKey.bijOn_ciphertext htotient
  rw [k.publicKey.nSquared_eq_sq] at hcipher
  have hok : Set.InjOn (Except.ok : ℕ → Except Error ℕ)
      {c : ℕ | 0 < c ∧ c < k.publicKey.n ^ 2 ∧ c.Coprime k.publicKey.n} :=
    fun _ _ _ _ heq => Except.ok.inj heq
  refine (hok.bijOn_image.comp (hcipher.comp (bijOn_toNat k.publicKey.n))).congr ?_
  rintro ⟨r, m⟩ hx
  -- on these pairs encryption does not fail, and its answer is the ciphertext
  have hr := ((bijOn_toNat k.publicKey.n).mapsTo hx).1
  have hnat : ((r.toNat : ℕ) : ℤ) = r := Int.toNat_of_nonneg hx.1.1.le
  have henc := k.publicKey.encryptWith_eq_ciphertext hr m
  rw [hnat] at henc
  exact henc.symm

/-- Under the key made from `5` and `7` the ciphertexts are the units modulo `35 * 35`. -/
theorem SafePrimePair.bijOn_encryptWith_smallest :
    ofPrimes (fun n => decide n.Prime) 5 7 = .ok SafeFactors.smallest.toPair ∧
    SafeFactors.smallest.toPair.keyPair 2 3 = .ok KeyPair.smallest ∧
    Set.BijOn (fun x : ℤ × ℤ => KeyPair.smallest.publicKey.encryptWith x.1 x.2)
      {x | (0 < x.1 ∧ x.1 < 35 ∧ x.1.gcd 35 = 1) ∧ 0 ≤ x.2 ∧ x.2 < 35}
      (Except.ok '' {c : ℕ | 0 < c ∧ c < 35 ^ 2 ∧ c.gcd 35 = 1}) :=
  have hpair := SafeFactors.smallest.ofPrimes_eq_ok isExact_decide
  ⟨hpair, SafeFactors.keyPair_smallest,
    bijOn_encryptWith isExact_decide hpair SafeFactors.keyPair_smallest⟩

/-! ### One way for each target -/

section Bijection

variable {α β : Type*} {f : α → β}

theorem encard_fiber_of_mem {A : Set α} {B : Set β} (h : Set.BijOn f A B) {b : β} (hb : b ∈ B) :
    {a | a ∈ A ∧ f a = b}.encard = 1 := by
  obtain ⟨a, ha, rfl⟩ := h.surjOn hb
  refine Set.encard_eq_one.mpr ⟨a, ?_⟩
  ext a'
  constructor
  · rintro ⟨ha', heq⟩
    exact h.injOn ha' ha heq
  · rintro rfl
    exact ⟨ha, rfl⟩

theorem encard_fiber_of_notMem {A : Set α} {B : Set β} (h : Set.BijOn f A B) {b : β} (hb : b ∉ B) :
    {a | a ∈ A ∧ f a = b}.encard = 0 := by
  rw [Set.encard_eq_zero]
  refine Set.eq_empty_of_forall_notMem ?_
  rintro a ⟨ha, rfl⟩
  exact hb (h.mapsTo ha)

theorem map_uniformOfFinset {A : Finset α} {B : Finset β} (hA : A.Nonempty) (hB : B.Nonempty)
    (h : Set.BijOn f A B) :
    (PMF.uniformOfFinset A hA).map f = PMF.uniformOfFinset B hB := by
  classical
  -- both sides are the inverse of the number of members, on `B`, and zero elsewhere
  have hcard : A.card = B.card := h.finsetCard_eq f
  ext b
  rw [PMF.map_apply]
  by_cases hb : b ∈ B
  · obtain ⟨a, ha, rfl⟩ := h.surjOn hb
    rw [PMF.uniformOfFinset_apply_of_mem hB hb, tsum_eq_single a, if_pos rfl,
      PMF.uniformOfFinset_apply_of_mem hA ha, hcard]
    intro a' hne
    by_cases ha' : a' ∈ A
    · exact if_neg fun heq => hne (h.injOn ha' ha heq.symm)
    · rw [PMF.uniformOfFinset_apply_of_notMem hA ha', ite_self]
  · rw [PMF.uniformOfFinset_apply_of_notMem hB hb, ENNReal.tsum_eq_zero]
    intro a
    by_cases ha : a ∈ A
    · refine if_neg ?_
      rintro rfl
      exact hb (h.mapsTo ha)
    · rw [PMF.uniformOfFinset_apply_of_notMem hA ha, ite_self]

end Bijection

/-! ### What a draw does -/

/-- The units modulo `n` between zero and `n`. -/
def unitsBelow (n : ℕ) : Finset ℕ := (Finset.range n).filter (isUnitBelow n · = true)

theorem mem_unitsBelow_iff {n x : ℕ} : x ∈ unitsBelow n ↔ isUnitBelow n x = true := by
  rw [unitsBelow, Finset.mem_filter, Finset.mem_range]
  exact ⟨fun h => h.2, fun h => ⟨lt_of_isUnitBelow h, h⟩⟩

namespace PublicKey

variable (pk : PublicKey)

theorem unitsBelow_nonempty : (unitsBelow pk.n).Nonempty := by
  have htwo := pk.two_lt_n
  have hone : isUnitBelow pk.n 1 = true :=
    isUnitBelow_iff.mpr ⟨Nat.one_pos, by omega, Nat.coprime_one_left pk.n⟩
  exact ⟨1, mem_unitsBelow_iff.mpr hone⟩

/-- The units whose draw makes rerandomization turn `c` into `t`. -/
def unitsTurning (c t : ℕ) : Set ℕ :=
  {s | s ∈ unitsBelow pk.n ∧ ∃ σ σ' : Source, (drawUnit pk.n).run.run σ = (.ok s, σ') ∧
    (pk.rerandomize c).run.run σ = (.ok t, σ')}

/-- The ciphertexts of a plaintext. -/
def encryptionsOf (m : ℤ) : Finset ℕ := (unitsBelow pk.n).image fun u => pk.ciphertext u m

/-- The distribution of a rerandomized ciphertext, when each unit is drawn with the same
probability. -/
noncomputable def rerandomized (c : ℕ) : PMF ℕ :=
  (PMF.uniformOfFinset (unitsBelow pk.n) pk.unitsBelow_nonempty).map (pk.remask c)

theorem mem_encryptionsOf_iff {m : ℤ} {t : ℕ} :
    t ∈ pk.encryptionsOf m ↔
      ∃ u, isUnitBelow pk.n u = true ∧ pk.encryptWith u m = .ok t := by
  rw [encryptionsOf, Finset.mem_image]
  constructor
  · rintro ⟨u, hu, rfl⟩
    have hunit := mem_unitsBelow_iff.mp hu
    exact ⟨u, hunit, pk.encryptWith_eq_ciphertext hunit m⟩
  · rintro ⟨u, hu, henc⟩
    rw [pk.encryptWith_eq_ciphertext hu m] at henc
    exact ⟨u, mem_unitsBelow_iff.mpr hu, Except.ok.inj henc⟩

theorem encryptionsOf_nonempty (m : ℤ) : (pk.encryptionsOf m).Nonempty :=
  pk.unitsBelow_nonempty.image _

variable {pk} {r : ℕ}

/-- The draw of `s` multiplies the randomness by `s`. -/
theorem mem_unitsTurning_iff (hr : r.Coprime pk.n) {m : ℤ} {s t : ℕ} :
    s ∈ pk.unitsTurning (pk.ciphertext r m) t ↔
      s ∈ unitsBelow pk.n ∧ pk.ciphertext (r * s % pk.n) m = t := by
  refine and_congr_right fun hs => ?_
  constructor
  · rintro ⟨σ, σ', hdraw, hrun⟩
    rw [pk.rerandomize_ciphertext_run hr m hdraw] at hrun
    exact Except.ok.inj (congrArg Prod.fst hrun)
  · rintro rfl
    obtain ⟨σ, σ', hdraw⟩ :=
      exists_drawUnit_run (Nat.lt_of_succ_lt pk.two_lt_n) (mem_unitsBelow_iff.mp hs)
    exact ⟨σ, σ', hdraw, pk.rerandomize_ciphertext_run hr m hdraw⟩

/-- **The units correspond to the ciphertexts of a plaintext**, from whichever ciphertext one
starts. -/
theorem bijOn_ciphertext_mul (h : pk.n.Coprime pk.n.totient) (hr : r.Coprime pk.n) (m : ℤ) :
    Set.BijOn (fun s => pk.ciphertext (r * s % pk.n) m) (unitsBelow pk.n) (pk.encryptionsOf m) := by
  have hcop : ∀ s ∈ unitsBelow pk.n, (r * s).Coprime pk.n := by
    intro s hs
    exact hr.mul_left (isUnitBelow_iff.mp (mem_unitsBelow_iff.mp hs)).2.2
  have hmaps : Set.MapsTo (fun s => pk.ciphertext (r * s % pk.n) m) (unitsBelow pk.n)
      (pk.encryptionsOf m) := by
    intro s hs
    have hunit := isUnitBelow_mod (Nat.lt_of_succ_lt pk.two_lt_n) (hcop s hs)
    exact Finset.mem_image_of_mem _ (mem_unitsBelow_iff.mpr hunit)
  have hinj : Set.InjOn (fun s => pk.ciphertext (r * s % pk.n) m) (unitsBelow pk.n) := by
    intro s hs s' hs' heq
    -- equal ciphertexts have equal randomness, and there `r` cancels
    have hrand := (ciphertext_inj h (coprime_mod (hcop s hs)) (coprime_mod (hcop s' hs')) heq).1
    have hmul : r * s ≡ r * s' [MOD pk.n] :=
      (Nat.mod_modEq _ _).symm.trans (hrand.trans (Nat.mod_modEq _ _))
    have hmod : s ≡ s' [MOD pk.n] := Nat.ModEq.cancel_left_of_coprime hr.symm hmul
    exact hmod.eq_of_lt_of_lt (lt_of_isUnitBelow (mem_unitsBelow_iff.mp hs))
      (lt_of_isUnitBelow (mem_unitsBelow_iff.mp hs'))
  -- there are no more ciphertexts of a plaintext than units, so all of them are reached
  exact ⟨hmaps, hinj, Finset.surjOn_of_injOn_of_card_le _ hmaps hinj Finset.card_image_le⟩

/-- A ciphertext of the plaintext is reached by the draw of one unit, and nothing else by any. -/
theorem encard_unitsTurning (h : pk.n.Coprime pk.n.totient) (hr : r.Coprime pk.n) (m : ℤ) (t : ℕ) :
    (t ∈ pk.encryptionsOf m → (pk.unitsTurning (pk.ciphertext r m) t).encard = 1) ∧
      (t ∉ pk.encryptionsOf m → (pk.unitsTurning (pk.ciphertext r m) t).encard = 0) := by
  have hset : pk.unitsTurning (pk.ciphertext r m) t =
      {s | s ∈ (unitsBelow pk.n : Set ℕ) ∧ pk.ciphertext (r * s % pk.n) m = t} := by
    ext s
    exact mem_unitsTurning_iff hr
  rw [hset]
  exact ⟨encard_fiber_of_mem (bijOn_ciphertext_mul h hr m),
    encard_fiber_of_notMem (bijOn_ciphertext_mul h hr m)⟩

/-- A uniform draw makes a uniform ciphertext of the plaintext. -/
theorem rerandomized_ciphertext (h : pk.n.Coprime pk.n.totient) (hr : r.Coprime pk.n) (m : ℤ) :
    pk.rerandomized (pk.ciphertext r m) =
      PMF.uniformOfFinset (pk.encryptionsOf m) (pk.encryptionsOf_nonempty m) := by
  refine map_uniformOfFinset _ _ ?_
  refine (bijOn_ciphertext_mul h hr m).congr ?_
  intro s _
  exact (pk.remask_ciphertext r s m).symm

end PublicKey

/-! ### Unlinkability -/

/-- **A rerandomized ciphertext is any ciphertext of its plaintext, in one way each.**  Under a key
made from an accepted pair, take two ciphertexts of a plaintext and a number `t`.  As many units
turn the one into `t` as the other: exactly one, if `t` is a ciphertext of the plaintext, and none
otherwise.  So after a uniform draw both are distributed alike, uniformly on those ciphertexts. -/
theorem SafePrimePair.rerandomize_unlinkable {isPrime : ℕ → Bool} (hexact : IsExact isPrime)
    {p q : ℤ} {s : SafePrimePair} (hs : ofPrimes isPrime p q = .ok s) {w l : ℕ} {k : KeyPair}
    (hk : s.keyPair w l = .ok k) {r₁ r₂ : ℕ} (h₁ : isUnitBelow k.publicKey.n r₁ = true)
    (h₂ : isUnitBelow k.publicKey.n r₂ = true) (m : ℤ) :
    ∃ c₁ c₂ : ℕ, k.publicKey.encryptWith r₁ m = .ok c₁ ∧ k.publicKey.encryptWith r₂ m = .ok c₂ ∧
      (∀ t : ℕ,
        (k.publicKey.unitsTurning c₁ t).encard = (k.publicKey.unitsTurning c₂ t).encard ∧
        ((∃ u, isUnitBelow k.publicKey.n u = true ∧ k.publicKey.encryptWith u m = .ok t) →
          (k.publicKey.unitsTurning c₁ t).encard = 1) ∧
        ((¬∃ u, isUnitBelow k.publicKey.n u = true ∧ k.publicKey.encryptWith u m = .ok t) →
          (k.publicKey.unitsTurning c₁ t).encard = 0)) ∧
      k.publicKey.rerandomized c₁ = k.publicKey.rerandomized c₂ ∧
      k.publicKey.rerandomized c₁ = PMF.uniformOfFinset (k.publicKey.encryptionsOf m)
        (k.publicKey.encryptionsOf_nonempty m) := by
  obtain ⟨h, hmade, -, -, -, -⟩ := exists_isMadeFrom hexact hs hk
  have htotient := hmade.coprime_totient
  have hcop₁ := (isUnitBelow_iff.mp h₁).2.2
  have hcop₂ := (isUnitBelow_iff.mp h₂).2.2
  refine ⟨_, _, k.publicKey.encryptWith_eq_ciphertext h₁ m,
    k.publicKey.encryptWith_eq_ciphertext h₂ m, ?_, ?_, ?_⟩
  · intro t
    obtain ⟨hone₁, hnone₁⟩ := PublicKey.encard_unitsTurning htotient hcop₁ m t
    obtain ⟨hone₂, hnone₂⟩ := PublicKey.encard_unitsTurning htotient hcop₂ m t
    rw [← k.publicKey.mem_encryptionsOf_iff]
    refine ⟨?_, hone₁, hnone₁⟩
    by_cases ht : t ∈ k.publicKey.encryptionsOf m
    · rw [hone₁ ht, hone₂ ht]
    · rw [hnone₁ ht, hnone₂ ht]
  · rw [PublicKey.rerandomized_ciphertext htotient hcop₁,
      PublicKey.rerandomized_ciphertext htotient hcop₂]
  · exact PublicKey.rerandomized_ciphertext htotient hcop₁ m

/-- Under the key made from `5` and `7` two ciphertexts of `-4` cannot be told apart once they have
been rerandomized. -/
theorem SafePrimePair.rerandomize_unlinkable_smallest :
    ofPrimes (fun n => decide n.Prime) 5 7 = .ok SafeFactors.smallest.toPair ∧
    SafeFactors.smallest.toPair.keyPair 2 3 = .ok KeyPair.smallest ∧
    ∃ c₁ c₂ : ℕ, KeyPair.smallest.publicKey.encryptWith 2 (-4) = .ok c₁ ∧
      KeyPair.smallest.publicKey.encryptWith 33 (-4) = .ok c₂ ∧
      (∀ t : ℕ,
        (KeyPair.smallest.publicKey.unitsTurning c₁ t).encard =
          (KeyPair.smallest.publicKey.unitsTurning c₂ t).encard ∧
        ((∃ u : ℕ, isUnitBelow 35 u = true ∧
            KeyPair.smallest.publicKey.encryptWith u (-4) = .ok t) →
          (KeyPair.smallest.publicKey.unitsTurning c₁ t).encard = 1) ∧
        ((¬∃ u : ℕ, isUnitBelow 35 u = true ∧
            KeyPair.smallest.publicKey.encryptWith u (-4) = .ok t) →
          (KeyPair.smallest.publicKey.unitsTurning c₁ t).encard = 0)) ∧
      KeyPair.smallest.publicKey.rerandomized c₁ = KeyPair.smallest.publicKey.rerandomized c₂ ∧
      KeyPair.smallest.publicKey.rerandomized c₁ =
        PMF.uniformOfFinset (KeyPair.smallest.publicKey.encryptionsOf (-4))
          (KeyPair.smallest.publicKey.encryptionsOf_nonempty (-4)) :=
  have hpair := SafeFactors.smallest.ofPrimes_eq_ok isExact_decide
  ⟨hpair, SafeFactors.keyPair_smallest,
    rerandomize_unlinkable isExact_decide hpair SafeFactors.keyPair_smallest
      (show isUnitBelow 35 2 = true by decide) (show isUnitBelow 35 33 = true by decide) (-4)⟩

end QuorumPaillier
