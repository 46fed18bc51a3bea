import Mathlib.Tactic
import QuorumPaillier.Proofs.Ciphertext.Homomorphism
import QuorumPaillier.Proofs.Quorum.Order
import QuorumPaillier.Proofs.Quorum.Recombination
import QuorumPaillier.System

/-!
# What a threshold system computes

Authorities that hold the values of one sharing polynomial publish powers of a ciphertext, and these
are a quorum as soon as there are enough of them.  What the quorum gets is what the holder of the
private key gets: it does not depend on who takes part, on how many take part, on the order or form
in which their values are handed over, or on the coefficients that the dealer drew.

For the ciphertext that a program runs to this is the value of the program, reduced, since raising
to four times the exponent removes the randomness and leaves four times the plaintext.  With as many
authorities as the smaller prime the factorial is no unit any more; then the quorum gets an error,
and never another plaintext.

## Main definitions

* `SharingPolynomial.partials` — what the authorities at some positions publish.

## Main results

* `ThresholdSystem.partialDecrypt_dealt` — **authorities publish the powers of their shares.**
* `SafePrimePair.quorum_decrypts_as_private_key` — **a quorum decrypts as the private key does.**
* `SafePrimePair.quorum_decrypts_program` — **a quorum decrypts what a program computes.**
-/

namespace QuorumPaillier

/-! ### What authorities publish -/

/-- What the authorities at the positions publish about `c`, if they hold the values of `f`. -/
def SharingPolynomial.partials (f : SharingPolynomial) (pk : PublicKey) (c : ℕ)
    (positions : List ℕ) : List PartialDecryption :=
  positions.map fun i => ⟨i + 1, (c ^ (2 * pk.delta * f.value (i + 1)) % pk.nSquared : ℕ)⟩

/-- **Authorities publish the powers that belong to their shares.** -/
theorem ThresholdSystem.partialDecrypt_dealt {pk : PublicKey} (hroom : pk.l < slotBound)
    (f : SharingPolynomial) {c : ℕ} (h₀ : 0 < c) (hlt : c < pk.nSquared) :
    ∀ positions : List ℕ, (∀ i ∈ positions, i < pk.l) →
      (⟨pk, f.dealt pk.l⟩ : ThresholdSystem).partialDecrypt positions c =
        .ok (f.partials pk c positions) := by
  intro positions hpos
  refine mapM_eq_ok ?_
  intro i hi
  have hil : i < pk.l := hpos i hi
  have hcount : i + 1 < wordBound := by
    have := slotBound_lt_wordBound
    omega
  rw [partialDecryptAt, nextCount_of_lt hcount, f.getElem?_dealt hil]
  exact AuthorityShare.decrypt_natCast pk (i + 1) (f.value (i + 1)) h₀ hlt

theorem SharingPolynomial.isQuorum_partials (f : SharingPolynomial) (pk : PublicKey) (c : ℕ) :
    ∀ positions : List ℕ, positions.Nodup → (∀ i ∈ positions, i < pk.l) →
      pk.w ≤ positions.length → pk.IsQuorum f c (f.partials pk c positions) := by
  intro positions hnodup hpos hw
  have hindex : (f.partials pk c positions).map (·.index) = positions.map (· + 1) := by
    rw [partials, List.map_map]
    rfl
  constructor
  · rw [hindex]
    exact hnodup.map fun i j hij => Nat.succ.inj hij
  · rw [hindex]
    intro j hj
    obtain ⟨i, hi, rfl⟩ := List.mem_map.mp hj
    exact ⟨Nat.succ_pos i, hpos i hi⟩
  · rw [partials, List.length_map]
    exact hw
  · intro s hs
    obtain ⟨i, -, rfl⟩ := List.mem_map.mp hs
    rfl

/-! ### The dense form -/

/-- What a quorum publishes about a unit is never zero, so no value of the dense form reads as an
absent authority. -/
theorem PublicKey.IsQuorum.value_ne_zero {pk : PublicKey} {f : SharingPolynomial} {c : ℕ}
    {parts : List PartialDecryption} (hq : pk.IsQuorum f c parts) (hc : c.Coprime pk.n) :
    ∀ s ∈ parts, s.value ≠ 0 := by
  intro s hs hzero
  have hcop := pk.coprime_nSquared_iff.mpr hc
  have hunit := coprime_mod (hcop.pow_left (2 * pk.delta * f.value s.index))
  have hval := hq.value s hs
  rw [hzero] at hval
  rw [show c ^ (2 * pk.delta * f.value s.index) % pk.nSquared = 0 by exact_mod_cast hval.symm,
    Nat.coprime_zero_left] at hunit
  have h₁ := pk.n_lt_nSquared
  have h₂ := pk.two_lt_n
  omega

/-! ### Dealt keys -/

namespace KeyPair.IsMadeFrom

variable {k : KeyPair} {h : SafeFactors} {c : ℕ} {m : ℤ} {drawn : List ℕ}
  {parts : List PartialDecryption}

/-- Dealing a key spreads its exponent over one share for each authority. -/
theorem deal_succeeds (hk : k.IsMadeFrom h) :
    k.privateKey.deal.Succeeds fun shares =>
      ∃ drawn : List ℕ, drawn.length = k.privateKey.w - 1 ∧
        shares = (k.privateKey.sharing drawn).dealt k.publicKey.l := by
  have hroom : k.privateKey.l < slotBound := by
    rw [hk.l_eq]
    exact hk.l_lt
  refine (PrivateKey.deal_succeeds hk.nm_pos hroom).mono ?_
  rintro shares ⟨drawn, hlen, -, rfl⟩
  exact ⟨drawn, hlen, by rw [hk.l_eq]⟩

/-- Enough different authorities answer for every ciphertext, and their answers are a quorum. -/
theorem exists_quorum (hk : k.IsMadeFrom h) (f : SharingPolynomial) (h₀ : 0 < c)
    (hlt : c < k.publicKey.nSquared) :
    ∀ positions : List ℕ, positions.Nodup → (∀ i ∈ positions, i < k.publicKey.l) →
      k.publicKey.w ≤ positions.length →
      ∃ parts, (⟨k.publicKey, f.dealt k.publicKey.l⟩ : ThresholdSystem).partialDecrypt positions c =
          .ok parts ∧ k.publicKey.IsQuorum f c parts := by
  intro positions hnodup hpos hw
  exact ⟨f.partials k.publicKey c positions,
    ThresholdSystem.partialDecrypt_dealt hk.l_lt f h₀ hlt positions hpos,
    f.isQuorum_partials k.publicKey c positions hnodup hpos hw⟩

/-- A quorum gets the same from the dense form. -/
theorem combineDense_quorum (hk : k.IsMadeFrom h) (hc : c.Coprime k.publicKey.n)
    (hm : k.Reads c m) (hlen : drawn.length = k.privateKey.w - 1)
    (hq : k.publicKey.IsQuorum (k.privateKey.sharing drawn) c parts) :
    k.publicKey.combineDense (denseValues k.publicKey.l parts) =
      if k.publicKey.l < min h.p h.q then .ok (m % k.publicKey.n).toNat
      else .error .normalizerNotInvertible := by
  have hperm := presentFrom_denseValues_perm hq.nodup hq.range (hq.value_ne_zero hc)
  have hslots : ¬(denseValues k.publicKey.l parts).length ≠ k.publicKey.l := by simp
  rw [PublicKey.combineDense, if_neg hslots]
  exact hk.combineSorted_quorum hc hm hlen (hq.perm hperm.symm)

end KeyPair.IsMadeFrom

/-! ### Quorums and the private key -/

/-- **A quorum decrypts as the private key does.**  The number `v` that the private key gives for a
unit ciphertext, which is a quarter of what the decoder reads off `c ^ (4 * d)`, is fixed before
anything is dealt: every dealing, every choice of enough different authorities in every order, and
both forms of handing over their values lead to it. -/
theorem SafePrimePair.quorum_decrypts_as_private_key {isPrime : ℕ → Bool}
    (hexact : IsExact isPrime) {p q : ℤ} {s : SafePrimePair} (hs : ofPrimes isPrime p q = .ok s)
    {w l : ℕ} {k : KeyPair} (hk : s.keyPair w l = .ok k) (hl : (l : ℤ) < min p q) {c : ℕ}
    (h₀ : 0 < c) (hlt : c < k.publicKey.nSquared) (hc : c.gcd k.publicKey.n = 1) :
    ∃ u v : ℕ, 4 * u % k.publicKey.n = 1 ∧
      (v : ℤ) = decode (c ^ (4 * k.privateKey.d) % k.publicKey.nSquared : ℕ) k.publicKey.n * u %
        k.publicKey.n ∧
      k.privateKey.decrypt? c = some v ∧
      k.privateKey.deal.Succeeds fun shares =>
        ∀ positions : List ℕ, positions.Nodup → (∀ i ∈ positions, i < l) → w ≤ positions.length →
          ∃ parts,
            (⟨k.publicKey, shares⟩ : ThresholdSystem).partialDecrypt positions c = .ok parts ∧
            k.publicKey.combine parts = .ok v ∧
            k.publicKey.combineDense (denseValues l parts) = .ok v := by
  obtain ⟨h, hmade, rfl, rfl, rfl, rfl⟩ := exists_isMadeFrom hexact hs hk
  have hfew := natCast_lt_min_iff.mp hl
  obtain ⟨m, hm⟩ := hmade.exists_reads hc
  obtain ⟨u, hu⟩ := hmade.exists_inverse_four
  refine ⟨u, (m % k.publicKey.n).toNat, ?_, ?_, hmade.decrypt?_of_reads hm, ?_⟩
  · have htwo := k.publicKey.two_lt_n
    rw [mul_inverse? k.publicKey.n_pos hu, Nat.mod_eq_of_lt (by omega)]
  · rw [KeyPair.IsMadeFrom.decode_of_reads hm, mul_inverse?_emod k.publicKey.n_pos hu,
      natCast_toNat_emod k.publicKey.n_pos]
  -- whatever was drawn, what enough authorities publish is a quorum
  refine hmade.deal_succeeds.mono ?_
  rintro shares ⟨drawn, hlen, rfl⟩
  intro positions hnodup hpos hw
  obtain ⟨parts, hrun, hq⟩ := hmade.exists_quorum (k.privateKey.sharing drawn) h₀ hlt positions
    hnodup hpos hw
  refine ⟨parts, hrun, ?_, ?_⟩
  · rw [hmade.combine_quorum hc hm hlen hq, if_pos hfew]
  · rw [hmade.combineDense_quorum hc hm hlen hq, if_pos hfew]

/-- Two of three authorities decrypt `2` as the private key made from `5` and `7` does, when the
only coefficient that is drawn is one. -/
theorem SafePrimePair.quorum_decrypts_two :
    ofPrimes (fun n => decide n.Prime) 5 7 = .ok SafeFactors.smallest.toPair ∧
    SafeFactors.smallest.toPair.keyPair 2 3 = .ok KeyPair.smallest ∧
    KeyPair.smallest.privateKey.decrypt? 2 = some 1 ∧
    KeyPair.smallest.privateKey.deal.run.run Source.ones =
      (.ok [⟨1, 37⟩, ⟨2, 38⟩, ⟨3, 39⟩], Source.ones.advance 1) ∧
    ∃ parts, (⟨KeyPair.smallest.publicKey, [⟨1, 37⟩, ⟨2, 38⟩, ⟨3, 39⟩]⟩ :
        ThresholdSystem).partialDecrypt [2, 0] (2 : ℕ) = .ok parts ∧
      KeyPair.smallest.publicKey.combine parts = .ok 1 ∧
      KeyPair.smallest.publicKey.combineDense (denseValues 3 parts) = .ok 1 := by
  have hpair := SafeFactors.smallest.ofPrimes_eq_ok isExact_decide
  have hone : KeyPair.smallest.privateKey.decrypt? 2 = some 1 := by decide +kernel
  have hdeal : KeyPair.smallest.privateKey.deal.run.run Source.ones =
      (.ok [⟨1, 37⟩, ⟨2, 38⟩, ⟨3, 39⟩], Source.ones.advance 1) := rfl
  obtain ⟨u, v, -, -, hdecrypt, hquorum⟩ := quorum_decrypts_as_private_key isExact_decide hpair
    SafeFactors.keyPair_smallest (c := 2) (by decide) (by decide) (by decide) (by decide)
  obtain rfl : v = 1 := Option.some.inj (hdecrypt.symm.trans hone)
  exact ⟨hpair, SafeFactors.keyPair_smallest, hone, hdeal,
    hquorum.of_run_eq_ok hdeal [2, 0] (by decide) (by decide) (by decide)⟩

/-! ### Quorums and programs -/

/-- **The private key reads the plaintext off a ciphertext.**  Four times the exponent is a multiple
of the number of units, which removes the mask, and four modulo `n`, which keeps the carrier. -/
theorem KeyPair.IsMadeFrom.reads_of_holds {k : KeyPair} {h : SafeFactors} (hk : k.IsMadeFrom h)
    {m : ℤ} {c : ℕ} (hc : k.publicKey.Holds m c) : k.Reads c m := by
  obtain ⟨r, hr, rfl⟩ := hc
  have hmask : ((r : ZMod (k.publicKey.n * k.publicKey.n)) ^ k.publicKey.n) ^
      (4 * k.privateKey.d) = 1 := by
    obtain ⟨j, hj⟩ := hk.totient_dvd
    have hunit := pow_totient_mul_modulus hr
    rw [hj, ← pow_mul, ← mul_assoc, mul_comm _ k.publicKey.n.totient, pow_mul, hunit, one_pow]
  have hcarrier : (((4 * k.privateKey.d : ℕ) : ℤ) * m) ≡ ((4 : ℕ) * m : ℤ)
      [ZMOD k.publicKey.n] := by
    have hd : k.privateKey.d ≡ 1 [MOD k.publicKey.n] := by
      rw [hk.public_n]
      exact hk.d_modulus
    have hfour := (Int.natCast_modEq_iff.mpr (hd.mul_left 4)).mul_right m
    exact_mod_cast hfour
  rw [Reads, PublicKey.cast_ciphertext, mul_pow, hmask, one_mul, one_add_mul_modulus_pow,
    ← mul_modulus_congr hcarrier]
  push_cast
  rfl

/-- **A quorum decrypts what a program computes.**  Dealing succeeds, and the program runs unless as
many numbers as the source has patience for are drawn in a row and none of them is a unit.  Then
enough different authorities in any order get the value of the program modulo `n`, or an error if
there are too many authorities. -/
theorem SafePrimePair.quorum_decrypts_program {isPrime : ℕ → Bool} (hexact : IsExact isPrime)
    {p q : ℤ} {s : SafePrimePair} (hs : ofPrimes isPrime p q = .ok s) {w l : ℕ} {k : KeyPair}
    (hk : s.keyPair w l = .ok k) {e : Program} (he : e.IsValid k.publicKey) :
    k.privateKey.deal.Succeeds fun shares =>
      (e.run k.publicKey).Delivers (Source.OutOfUnits k.publicKey.n) fun c =>
        ∀ positions : List ℕ, positions.Nodup → (∀ i ∈ positions, i < l) → w ≤ positions.length →
          ∃ parts,
            (⟨k.publicKey, shares⟩ : ThresholdSystem).partialDecrypt positions c = .ok parts ∧
            ((l : ℤ) < min p q →
              ∃ v : ℕ, k.publicKey.combine parts = .ok v ∧ (v : ℤ) = e.plain % k.publicKey.n ∧
                v < k.publicKey.n) ∧
            (min p q ≤ l → k.publicKey.combine parts = .error .normalizerNotInvertible) := by
  obtain ⟨h, hmade, rfl, rfl, rfl, rfl⟩ := exists_isMadeFrom hexact hs hk
  refine hmade.deal_succeeds.mono ?_
  rintro shares ⟨drawn, hlen, rfl⟩
  refine (e.run_delivers k.publicKey he).mono ?_
  intro c hc positions hnodup hpos hw
  obtain ⟨parts, hrun, hq⟩ :=
    hmade.exists_quorum (k.privateKey.sharing drawn) hc.pos hc.lt positions hnodup hpos hw
  -- what the ciphertext holds is what the private key reads off it
  have hcombine := hmade.combine_quorum hc.coprime (hmade.reads_of_holds hc) hlen hq
  refine ⟨parts, hrun, ?_, ?_⟩
  · intro hfew
    have hnat := natCast_toNat_emod k.publicKey.n_pos e.plain
    refine ⟨_, hcombine.trans (if_pos (natCast_lt_min_iff.mp hfew)), hnat, ?_⟩
    have hn : (0 : ℤ) < k.publicKey.n := by exact_mod_cast k.publicKey.n_pos
    have := Int.emod_lt_of_pos e.plain hn
    omega
  · intro hmany
    exact hcombine.trans (if_neg (mt natCast_lt_min_iff.mpr (not_lt.mpr hmany)))

/-- Two of three authorities decrypt `(-3) + (-2) * 40` under the key made from `5` and `7`, when
every draw is one. -/
theorem SafePrimePair.quorum_decrypts_twenty_two :
    ofPrimes (fun n => decide n.Prime) 5 7 = .ok SafeFactors.smallest.toPair ∧
    SafeFactors.smallest.toPair.keyPair 2 3 = .ok KeyPair.smallest ∧
    KeyPair.smallest.privateKey.deal.run.run Source.ones =
      (.ok [⟨1, 37⟩, ⟨2, 38⟩, ⟨3, 39⟩], Source.ones.advance 1) ∧
    ∃ c parts, (Program.run KeyPair.smallest.publicKey (.add (.encryptWith 2 (-3))
          (.scale (.rerandomize (.encrypt 40)) (-2)))).run.run Source.ones =
        (.ok c, Source.ones.advance 2) ∧
      (⟨KeyPair.smallest.publicKey, [⟨1, 37⟩, ⟨2, 38⟩, ⟨3, 39⟩]⟩ :
        ThresholdSystem).partialDecrypt [2, 0] c = .ok parts ∧
      KeyPair.smallest.publicKey.combine parts = .ok 22 := by
  have hpair := SafeFactors.smallest.ofPrimes_eq_ok isExact_decide
  have hdeal : KeyPair.smallest.privateKey.deal.run.run Source.ones =
      (.ok [⟨1, 37⟩, ⟨2, 38⟩, ⟨3, 39⟩], Source.ones.advance 1) := rfl
  obtain ⟨c, hrun⟩ : ∃ c, (Program.run KeyPair.smallest.publicKey (.add (.encryptWith 2 (-3))
      (.scale (.rerandomize (.encrypt 40)) (-2)))).run.run Source.ones =
        (.ok c, Source.ones.advance 2) := ⟨_, rfl⟩
  have hvalid : Program.IsValid KeyPair.smallest.publicKey
      (.add (.encryptWith 2 (-3)) (.scale (.rerandomize (.encrypt 40)) (-2))) :=
    ⟨show isUnitBelow 35 2 = true by decide, trivial⟩
  have hprogram := (quorum_decrypts_program isExact_decide hpair SafeFactors.keyPair_smallest
    hvalid).of_run_eq_ok hdeal
  obtain ⟨parts, hparts, hfew, -⟩ :=
    hprogram.of_run_eq_ok hrun [2, 0] (by decide) (by decide) (by decide)
  obtain ⟨v, hv, hplain, -⟩ := hfew (by decide)
  have hvalue : (v : ℤ) = 22 := hplain
  obtain rfl : v = 22 := by exact_mod_cast hvalue
  exact ⟨hpair, SafeFactors.keyPair_smallest, hdeal, c, parts, hrun, hparts, hv⟩

end QuorumPaillier
