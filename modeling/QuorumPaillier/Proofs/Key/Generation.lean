import Mathlib.Tactic
import QuorumPaillier.Key
import QuorumPaillier.Proofs.Key.Construction
import QuorumPaillier.Proofs.SafePrime.Search

/-!
# What key generation promises

Whatever the source of randomness, key generation either refuses the parameters, runs out of
attempts or of memory, or answers with keys made from two different safe primes of the length that
was asked for.  The pairs that are drawn have one length, so the only defect that one of them can
have is that its primes are the same; the other defects of pairs never show, neither as a reason to
draw again nor as a failure.

## Main definitions

* `KeyParameters.IsValid`, `KeyParameters.FailsWith` — what can be met, and the failures.
* `KeyPair.IsGeneratedFor` — what holds of generated keys.
* `KeyParameters.DrawsPair` — the two safe primes of an attempt.

## Main results

* `KeyParameters.DrawsPair.generateFrom_run` — one attempt.
* `KeyParameters.generate_outcome` — **the outcomes of key generation, and when a pair is drawn
  anew.**
-/

namespace QuorumPaillier

open Nat (Prime Coprime)

namespace KeyParameters

variable {isPrime : ℕ → Bool} {c : KeyParameters}

/-! ### Parameters -/

/-- The parameters that can be met. -/
structure IsValid (c : KeyParameters) : Prop where
  /-- The modulus is not too short. -/
  bits_ge : minModulusBits ≤ c.bits
  /-- At least one authority is needed. -/
  one_le_w : 1 ≤ c.w
  /-- There are as many authorities as are needed. -/
  w_le_l : c.w ≤ c.l
  /-- Where a majority is asked for, more than half of the authorities are needed. -/
  half_lt_w : c.majority = true → c.l / 2 < c.w

/-- The failures of key generation, each with the condition under which it can occur. -/
inductive FailsWith (c : KeyParameters) : Error → Prop
  /-- The modulus is too short. -/
  | modulusLength (h : c.bits < minModulusBits) : FailsWith c (.invalidBitLength c.bits)
  /-- The threshold is out of range, or no majority where one is asked for. -/
  | threshold (h : ¬(1 ≤ c.w ∧ c.w ≤ c.l) ∨ (c.majority = true ∧ c.w ≤ c.l / 2)) :
      FailsWith c (.invalidThreshold c.w c.l)
  /-- The primes are too long to be drawn. -/
  | primeLength (h : bitLengthBound < c.primeBits) : FailsWith c (.invalidBitLength c.primeBits)
  /-- A search has used up its attempts. -/
  | attempts : FailsWith c (.primesNotFound c.attempts)
  /-- There are too many authorities for one slot each. -/
  | room (h : slotBound ≤ c.l) : FailsWith c (.noRoomForSlots c.l)

theorem check_eq (c : KeyParameters) :
    c.check =
      if c.bits < minModulusBits then .error (.invalidBitLength c.bits)
      else if 1 ≤ c.w ∧ c.w ≤ c.l then
        if c.majority = true ∧ c.w ≤ c.l / 2 then .error (.invalidThreshold c.w c.l) else .ok ()
      else .error (.invalidThreshold c.w c.l) := by
  unfold check
  by_cases hbits : c.bits < minModulusBits
  · simp only [if_pos hbits]
    rfl
  · by_cases hwl : 1 ≤ c.w ∧ c.w ≤ c.l
    · simp only [if_neg hbits, checkThreshold_of_valid hwl.1 hwl.2, if_pos hwl]
      split <;> rfl
    · simp only [if_neg hbits, checkThreshold_of_invalid hwl, if_neg hwl]
      rfl

/-- The check lets exactly the valid parameters pass. -/
theorem check_eq_ok_iff : c.check = .ok () ↔ c.IsValid := by
  rw [check_eq]
  constructor
  · intro h
    split_ifs at h with hbits hwl hmaj
    refine ⟨not_lt.mp hbits, hwl.1, hwl.2, ?_⟩
    intro hasked
    exact not_le.mp fun hle => hmaj ⟨hasked, hle⟩
  · rintro ⟨hbits, hw, hl, hmaj⟩
    have hmaj' : ¬(c.majority = true ∧ c.w ≤ c.l / 2) := by
      rintro ⟨hasked, hle⟩
      exact absurd (hmaj hasked) (not_lt.mpr hle)
    rw [if_neg (not_lt.mpr hbits), if_pos ⟨hw, hl⟩, if_neg hmaj']

theorem failsWith_of_check_eq_error {e : Error} (h : c.check = .error e) : c.FailsWith e := by
  rw [check_eq] at h
  split_ifs at h with hbits hwl hmaj
  · obtain rfl := Except.error.inj h
    exact .modulusLength hbits
  · obtain rfl := Except.error.inj h
    exact .threshold (Or.inr hmaj)
  · obtain rfl := Except.error.inj h
    exact .threshold (Or.inl hwl)

theorem IsValid.primeBits_eq (hc : c.IsValid) : c.primeBits = (c.bits + 1) / 2 := by
  have hbits : 64 ≤ c.bits := hc.bits_ge
  rw [primeBits]
  omega

theorem IsValid.le_primeBits (hc : c.IsValid) : 32 ≤ c.primeBits := by
  have hbits : 64 ≤ c.bits := hc.bits_ge
  rw [hc.primeBits_eq]
  omega

/-- A search for one of the primes fails for the reasons for which key generation can fail. -/
theorem IsValid.failsWith_of_search (hc : c.IsValid) {e : Error}
    (he : SafePrime.FailsWith c.primeBits c.attempts e) : c.FailsWith e := by
  cases he with
  | length h =>
    have hlong := hc.le_primeBits
    exact .primeLength (by omega)
  | attempts => exact .attempts

end KeyParameters

/-! ### Generated keys -/

/-- What holds of the keys that are generated for `c` from the primes `p` and `q`. -/
structure KeyPair.IsGeneratedFor (k : KeyPair) (c : KeyParameters) (p q : ℕ) : Prop where
  p_prime : p.Prime
  q_prime : q.Prime
  p_ne_q : p ≠ q
  bitLength_p : bitLength p = (c.bits + 1) / 2
  bitLength_q : bitLength q = (c.bits + 1) / 2
  half_p_prime : ((p - 1) / 2).Prime
  half_q_prime : ((q - 1) / 2).Prime
  /-- The modulus shares no factor with the product of the halves. -/
  coprime : Coprime (p * q) ((p - 1) / 2 * ((q - 1) / 2))
  public_n : k.publicKey.n = p * q
  private_n : k.privateKey.n = p * q
  /-- The modulus is at most one digit shorter than the primes together. -/
  bitLength_n : bitLength (p * q) = 2 * ((c.bits + 1) / 2) - 1 ∨
    bitLength (p * q) = 2 * ((c.bits + 1) / 2)
  nm_eq : k.privateKey.nm = p * q * ((p - 1) / 2 * ((q - 1) / 2))
  public_w : k.publicKey.w = c.w
  public_l : k.publicKey.l = c.l
  private_w : k.privateKey.w = c.w
  private_l : k.privateKey.l = c.l

namespace SafePrime.IsSafe

variable {c : KeyParameters} {p q : SafePrime}

/-- Keys made from two different safe primes of the right length are what was asked for. -/
theorem isGeneratedFor (hc : c.IsValid) (hp : p.IsSafe c.primeBits) (hq : q.IsSafe c.primeBits)
    (hne : p.value ≠ q.value) {k : KeyPair}
    (hk : (hp.factors hq hne).toPair.keyPair c.w c.l = .ok k) :
    k.IsGeneratedFor c p.value q.value := by
  obtain ⟨hmade, hw, hl⟩ := (hp.factors hq hne).isMadeFrom_of_keyPair hk
  have hbits := hc.primeBits_eq
  have hlong := hc.le_primeBits
  obtain ⟨b, hb⟩ : ∃ b, c.primeBits = b + 1 := ⟨c.primeBits - 1, by omega⟩
  have hprod := bitLength_mul (hp.bitLength_value.trans hb) (hq.bitLength_value.trans hb)
  constructor
  case p_prime => exact hp.value_prime
  case q_prime => exact hq.value_prime
  case p_ne_q => exact hne
  case bitLength_p => rw [hp.bitLength_value, hbits]
  case bitLength_q => rw [hq.bitLength_value, hbits]
  case half_p_prime => rw [hp.half_eq]; exact hp.half_prime
  case half_q_prime => rw [hq.half_eq]; exact hq.half_prime
  case coprime => rw [hp.half_eq, hq.half_eq]; exact (hp.factors hq hne).coprime_modulus_product
  case public_n => exact hmade.public_n
  case private_n => exact hmade.private_n
  case bitLength_n => omega
  case nm_eq => rw [hp.half_eq, hq.half_eq]; exact hmade.nm_eq
  case public_w => exact hw
  case public_l => exact hl
  case private_w => rw [hmade.w_eq, hw]
  case private_l => rw [hmade.l_eq, hl]

end SafePrime.IsSafe

/-! ### Attempts -/

namespace KeyParameters

variable {isPrime : ℕ → Bool} {c : KeyParameters}

/-- From the source `s` on the next attempt draws `p` and `q`, and it leaves the source `s'`. -/
def DrawsPair (isPrime : ℕ → Bool) (c : KeyParameters) (s : Source) (p q : SafePrime)
    (s' : Source) : Prop :=
  ∃ m, (drawSafePrime isPrime c.primeBits c.attempts).run.run s = (.ok p, m) ∧
    (drawSafePrime isPrime c.primeBits c.attempts).run.run m = (.ok q, s')

theorem DrawsPair.isSafe (hexact : IsExact isPrime) {s s' : Source} {p q : SafePrime}
    (h : c.DrawsPair isPrime s p q s') : p.IsSafe c.primeBits ∧ q.IsSafe c.primeBits := by
  obtain ⟨m, hp, hq⟩ := h
  have hdraw := drawSafePrime_ends hexact c.primeBits c.attempts
  exact ⟨hdraw.of_run_eq_ok hp, hdraw.of_run_eq_ok hq⟩

/-- One attempt: if its primes are the same the rest of the attempts decide, else the keys are made
from them. -/
theorem DrawsPair.generateFrom_run (hexact : IsExact isPrime) {s s' : Source} {p q : SafePrime}
    (h : c.DrawsPair isPrime s p q s') (t : ℕ) :
    (c.generateFrom isPrime (t + 1)).run.run s =
      if p.value = q.value then (c.generateFrom isPrime t).run.run s'
      else ((SafePrimePair.ofIntegers p.value q.value).keyPair c.w c.l, s') := by
  obtain ⟨hsafeP, hsafeQ⟩ := h.isSafe hexact
  obtain ⟨m, hp, hq⟩ := h
  rw [generateFrom, Draw.run_bind_of_ok hp, Draw.run_bind_of_ok hq]
  simp only [hsafeP.defect?_ofIntegers hexact hsafeQ]
  by_cases heq : p.value = q.value
  · rw [if_pos heq, if_pos heq]
    rfl
  · rw [if_neg heq, if_neg heq]
    cases (SafePrimePair.ofIntegers p.value q.value).keyPair c.w c.l <;> rfl

/-- Every two safe primes of the right length can be the pair of an attempt. -/
theorem drawsPair_of_isSafe (hexact : IsExact isPrime) {b : ℕ} (hb : c.primeBits = b + 1)
    (hlong : 3 ≤ b) (hbound : b < bitLengthBound) (hattempts : 0 < c.attempts) {p q : SafePrime}
    (hp : p.IsSafe (b + 1)) (hq : q.IsSafe (b + 1)) {s : Source} (hs : s.draw b 0 = p.half - 1)
    (hs' : s.draw b 1 = q.half - 1) :
    c.DrawsPair isPrime s p q (s.advance (2 * wordCount b)) := by
  rw [Source.draw_succ] at hs'
  have hrun := hq.drawSafePrime_run hexact (Nat.lt_succ_of_le hlong) hbound hattempts hs'
  rw [Nat.add_sub_cancel, Source.advance_advance, ← Nat.two_mul, ← hb] at hrun
  refine ⟨_, ?_, hrun⟩
  rw [hb]
  exact hp.drawSafePrime_run hexact (Nat.lt_succ_of_le hlong) hbound hattempts hs

/-- The attempts end with generated keys, or for one of the reasons. -/
theorem generateFrom_ends (hexact : IsExact isPrime) (hc : c.IsValid) (t : ℕ) :
    (c.generateFrom isPrime t).Ends (fun k => ∃ p q, k.IsGeneratedFor c p q) c.FailsWith := by
  induction t with
  | zero => exact Draw.ends_throw .attempts
  | succ t ih =>
    have hdraw := (drawSafePrime_ends hexact c.primeBits c.attempts).mono (fun _ => id)
      fun e => hc.failsWith_of_search
    -- of two safe primes of one length it only matters whether they are the same
    refine hdraw.bind fun p hp => hdraw.bind fun q hq => ?_
    simp only [hp.defect?_ofIntegers hexact hq]
    by_cases heq : p.value = q.value
    · rw [if_pos heq]
      exact ih
    · rw [if_neg heq, hp.ofIntegers_eq_toPair hq heq]
      refine Draw.ends_lift ?_ ?_
      · intro k hk
        exact ⟨_, _, hp.isGeneratedFor hc hq heq hk⟩
      · -- the threshold is valid and the exponent exists, so only the room can be missing
        intro e he
        by_cases hroom : c.l < slotBound
        · obtain ⟨k, hk, -⟩ := (hp.factors hq heq).exists_keyPair hc.one_le_w hc.w_le_l hroom
          rw [hk] at he
          cases he
        · rw [(hp.factors hq heq).keyPair_of_noRoom hc.one_le_w hc.w_le_l (not_lt.mp hroom)] at he
          obtain rfl := Except.error.inj he
          exact .room (not_lt.mp hroom)

theorem generate_run (hc : c.IsValid) (s : Source) :
    (c.generate isPrime).run.run s = (c.generateFrom isPrime c.attempts).run.run s := by
  rw [generate, check_eq_ok_iff.mpr hc]
  rfl

/-- The outcomes of key generation, for every source. -/
theorem generate_ends (hexact : IsExact isPrime) (c : KeyParameters) :
    (c.generate isPrime).Ends (fun k => c.IsValid ∧ ∃ p q, k.IsGeneratedFor c p q)
      c.FailsWith := by
  have hcheck : Draw.Ends (liftM c.check) (fun _ => c.IsValid) c.FailsWith :=
    Draw.ends_lift (fun _ h => check_eq_ok_iff.mp h) fun _ h => failsWith_of_check_eq_error h
  refine hcheck.bind fun _ hc => ?_
  exact (generateFrom_ends hexact hc c.attempts).mono (fun _ hk => ⟨hc, hk⟩) fun _ => id

/-! ### A run that draws twice -/

/-- Parameters for the shortest modulus and two of three authorities. -/
def shortest (attempts : ℕ) : KeyParameters := ⟨64, 2, 3, attempts, false⟩

/-- A source that gives the same safe prime three times and then another one. -/
def repeating : Source :=
  Source.ofDraws 31 [SafePrime.lower.half - 1, SafePrime.lower.half - 1,
    SafePrime.lower.half - 1, SafePrime.upper.half - 1]

theorem isValid_shortest (attempts : ℕ) : (shortest attempts).IsValid where
  bits_ge := le_rfl
  one_le_w := one_le_two
  w_le_l := Nat.le_succ 2
  half_lt_w := by simp [shortest]

theorem primeBits_shortest (attempts : ℕ) : (shortest attempts).primeBits = 31 + 1 := by
  simp [primeBits, shortest]

theorem drawsPair_repeating {attempts : ℕ} (hattempts : 0 < attempts) :
    (shortest attempts).DrawsPair (fun n => decide n.Prime) repeating .lower .lower
      (repeating.advance 2) := by
  have hfirst : repeating.draw 31 0 = SafePrime.lower.half - 1 :=
    Source.draw_ofDraws (by decide)
  have hsecond : repeating.draw 31 1 = SafePrime.lower.half - 1 :=
    Source.draw_ofDraws (by decide)
  exact drawsPair_of_isSafe isExact_decide (primeBits_shortest attempts) (by decide) (by decide)
    hattempts SafePrime.lower_isSafe SafePrime.lower_isSafe hfirst hsecond

theorem drawsPair_repeating_advance {attempts : ℕ} (hattempts : 0 < attempts) :
    (shortest attempts).DrawsPair (fun n => decide n.Prime) (repeating.advance 2) .lower .upper
      (repeating.advance 4) := by
  have hthird : (repeating.advance 2).draw 31 0 = SafePrime.lower.half - 1 :=
    (Source.draw_advance repeating 31 2 0).trans (Source.draw_ofDraws (by decide))
  have hfourth : (repeating.advance 2).draw 31 1 = SafePrime.upper.half - 1 :=
    (Source.draw_advance repeating 31 2 1).trans (Source.draw_ofDraws (by decide))
  exact drawsPair_of_isSafe isExact_decide (primeBits_shortest attempts) (by decide) (by decide)
    hattempts SafePrime.lower_isSafe SafePrime.upper_isSafe hthird hfourth

/-- In two attempts the source leads to keys: the second pair can be used. -/
theorem exists_generate_repeating :
    ∃ k, ((shortest 2).generate fun n => decide n.Prime).run.run repeating =
      (.ok k, repeating.advance 4) := by
  have hne : SafePrime.lower.value ≠ SafePrime.upper.value := by decide
  have hpair := SafePrime.lower_isSafe.ofIntegers_eq_toPair SafePrime.upper_isSafe hne
  obtain ⟨k, hk, -⟩ := (SafePrime.lower_isSafe.factors SafePrime.upper_isSafe hne).exists_keyPair
    (w := 2) (l := 3) one_le_two (Nat.le_succ 2) (by decide)
  refine ⟨k, ?_⟩
  rw [generate_run (isValid_shortest 2)]
  calc ((shortest 2).generateFrom (fun n => decide n.Prime) 2).run.run repeating
      = ((shortest 2).generateFrom (fun n => decide n.Prime) 1).run.run (repeating.advance 2) :=
        (drawsPair_repeating Nat.two_pos).generateFrom_run isExact_decide 1
    _ = ((SafePrimePair.ofIntegers SafePrime.lower.value SafePrime.upper.value).keyPair 2 3,
          repeating.advance 4) :=
        (drawsPair_repeating_advance Nat.two_pos).generateFrom_run isExact_decide 0
    _ = (.ok k, repeating.advance 4) := by rw [hpair, hk]

/-- In one attempt it does not. -/
theorem generate_repeating_once :
    ((shortest 1).generate fun n => decide n.Prime).run.run repeating =
      (.error (.primesNotFound 1), repeating.advance 2) := by
  rw [generate_run (isValid_shortest 1)]
  exact (drawsPair_repeating Nat.one_pos).generateFrom_run isExact_decide 0

/-! ### Key generation -/

/-- **The outcomes of key generation, and when a pair is drawn anew.**  Whatever the source, keys
are generated for valid parameters only, and from two different safe primes of the length asked for;
every failure is one of the reasons above.  A pair that has been drawn is given up exactly if its
primes are the same. -/
theorem generate_outcome (hexact : IsExact isPrime) (c : KeyParameters) (s : Source) :
    (∀ k s', (c.generate isPrime).run.run s = (.ok k, s') →
      c.IsValid ∧ ∃ p q, k.IsGeneratedFor c p q) ∧
    (∀ e s', (c.generate isPrime).run.run s = (.error e, s') → c.FailsWith e) ∧
    ∀ s₁ p q s₂, c.DrawsPair isPrime s₁ p q s₂ →
      ((SafePrimePair.ofIntegers p.value q.value).defect? isPrime =
        if p.value = q.value then some .equal else none) ∧
      ∀ t, (c.generateFrom isPrime (t + 1)).run.run s₁ =
        if p.value = q.value then (c.generateFrom isPrime t).run.run s₂
        else ((SafePrimePair.ofIntegers p.value q.value).keyPair c.w c.l, s₂) := by
  refine ⟨?_, ?_, ?_⟩
  · intro k s' hrun
    exact (generate_ends hexact c).of_run_eq_ok hrun
  · intro e s' hrun
    exact (generate_ends hexact c).of_run_eq_error hrun
  · intro s₁ p q s₂ hpair
    obtain ⟨hp, hq⟩ := hpair.isSafe hexact
    exact ⟨hp.defect?_ofIntegers hexact hq, hpair.generateFrom_run hexact⟩

/-- A source that repeats itself leads to keys in two attempts, since the first pair is drawn anew;
in one attempt it does not. -/
theorem generate_outcome_repeating :
    (∃ k s', ((shortest 2).generate fun n => decide n.Prime).run.run repeating = (.ok k, s') ∧
      (shortest 2).IsValid ∧ ∃ p q, k.IsGeneratedFor (shortest 2) p q) ∧
    (∃ s', ((shortest 1).generate fun n => decide n.Prime).run.run repeating =
        (.error (.primesNotFound 1), s') ∧ (shortest 1).FailsWith (.primesNotFound 1)) ∧
    (shortest 2).DrawsPair (fun n => decide n.Prime) repeating .lower .lower (repeating.advance 2) ∧
    ∀ t, ((shortest 2).generateFrom (fun n => decide n.Prime) (t + 1)).run.run repeating =
      ((shortest 2).generateFrom (fun n => decide n.Prime) t).run.run (repeating.advance 2) := by
  obtain ⟨k, hk⟩ := exists_generate_repeating
  have hnone := generate_repeating_once
  obtain ⟨hok, -, hstep⟩ := generate_outcome isExact_decide (shortest 2) repeating
  obtain ⟨-, herror, -⟩ := generate_outcome isExact_decide (shortest 1) repeating
  have hpair := drawsPair_repeating (show 0 < 2 from Nat.two_pos)
  exact ⟨⟨k, _, hk, hok k _ hk⟩, ⟨_, hnone, herror _ _ hnone⟩, hpair, (hstep _ _ _ _ hpair).2⟩

end KeyParameters

end QuorumPaillier
