import Mathlib.NumberTheory.Bertrand
import Mathlib.NumberTheory.LucasPrimality
import Mathlib.Tactic
import QuorumPaillier.Proofs.Random.Sampling
import QuorumPaillier.Proofs.SafePrime.Arithmetic
import QuorumPaillier.SafePrime

/-!
# What the search for safe primes finds

With an exact test the number that an attempt looks at is the least prime above the draw, so the
search either finds a prime of the asked length whose half is a prime, or it uses up its attempts.
Which of the two happens depends on the source, that nothing else happens does not.

The search skips the second test where the half leaves the remainder one modulo three.  Then three
divides the number that would be tested, and it is three itself only for the half one, which is no
prime.  So the search makes the same attempts and finds the same prime as it would without the
shortcut, for short lengths too, where two, three and seven are the candidates.

## Main definitions

* `SafePrime.IsSafe`, `SafePrime.FailsWith` — what the search promises, and why it fails.
* `drawSafePrimeTested`, `SafePrime.candidate` — the search without the shortcut, and its
  candidates.

## Main results

* `drawSafePrime_ends` — **the outcomes of the search, for every source.**
* `SafePrime.IsSafe.drawSafePrime_run` — **every safe prime of more than three digits can be
  found.**
* `drawSafePrime_run_tested` — **the search runs as it would without the shortcut.**
* `drawSafePrime_outcome` — **what the search finds, and after how many draws.**
-/

namespace QuorumPaillier

open Nat (Prime)

/-! ### Lengths -/

/-- The numbers of `k + 1` digits lie between two powers of two. -/
theorem bitLength_eq_succ_iff {n k : ℕ} : bitLength n = k + 1 ↔ 2 ^ k ≤ n ∧ n < 2 ^ (k + 1) := by
  constructor
  · intro h
    have hlt := lt_two_pow_bitLength n
    rw [h] at hlt
    exact ⟨two_pow_le_of_bitLength_eq h, hlt⟩
  · rintro ⟨hle, hlt⟩
    have hpos : n ≠ 0 := (Nat.lt_of_lt_of_le (Nat.two_pow_pos k) hle).ne'
    rw [bitLength, if_neg hpos, (Nat.log2_eq_iff hpos).mpr ⟨hle, hlt⟩]

theorem bitLength_two_mul_add_one (h : ℕ) : bitLength (2 * h + 1) = bitLength h + 1 := by
  rcases Nat.eq_zero_or_pos h with rfl | hpos
  · rfl
  · obtain ⟨k, hk⟩ : ∃ k, bitLength h = k + 1 := ⟨_, if_neg hpos.ne'⟩
    obtain ⟨hle, hlt⟩ := bitLength_eq_succ_iff.mp hk
    have hk₁ : 2 ^ (k + 1) = 2 * 2 ^ k := Nat.pow_succ'
    have hk₂ : 2 ^ (k + 1 + 1) = 2 * 2 ^ (k + 1) := Nat.pow_succ'
    rw [hk, bitLength_eq_succ_iff]
    omega

/-- A product has as many digits as its factors together, or one less. -/
theorem bitLength_mul {m n j k : ℕ} (hm : bitLength m = j + 1) (hn : bitLength n = k + 1) :
    bitLength (m * n) = j + k + 1 ∨ bitLength (m * n) = j + k + 2 := by
  obtain ⟨hmle, hmlt⟩ := bitLength_eq_succ_iff.mp hm
  obtain ⟨hnle, hnlt⟩ := bitLength_eq_succ_iff.mp hn
  have hle : 2 ^ (j + k) ≤ m * n := by
    rw [pow_add]
    exact Nat.mul_le_mul hmle hnle
  have hlt : m * n < 2 ^ (j + k + 1 + 1) := by
    have hsum : j + k + 1 + 1 = (j + 1) + (k + 1) := by omega
    rw [hsum, pow_add]
    exact Nat.mul_lt_mul'' hmlt hnlt
  by_cases hhalf : m * n < 2 ^ (j + k + 1)
  · exact Or.inl (bitLength_eq_succ_iff.mpr ⟨hle, hhalf⟩)
  · exact Or.inr (bitLength_eq_succ_iff.mpr ⟨not_lt.mp hhalf, hlt⟩)

/-! ### The next prime -/

/-- **The least prime above a number is found.**  There is one up to the double of the number, so
the trials do not run out. -/
theorem IsExact.isLeast_nextPrime {isPrime : ℕ → Bool} (hexact : IsExact isPrime) (n : ℕ) :
    IsLeast {p | p.Prime ∧ n < p} (nextPrime isPrime n) := by
  obtain ⟨p, hp, hlt, hle⟩ : ∃ p, p.Prime ∧ n < p ∧ p ≤ 2 * n + 2 := by
    rcases Nat.eq_zero_or_pos n with rfl | hpos
    · exact ⟨2, Nat.prime_two, Nat.two_pos, le_rfl⟩
    · obtain ⟨p, hp, hlt, hle⟩ := Nat.exists_prime_lt_and_le_two_mul n hpos.ne'
      exact ⟨p, hp, hlt, by omega⟩
  have hfound : isPrime (nextPrime isPrime n) = true :=
    firstFrom_accepted (by omega) (by omega) ((hexact p).mpr hp)
  refine ⟨⟨(hexact _).mp hfound, lt_nextPrime isPrime n⟩, ?_⟩
  rintro p' ⟨hp', hlt'⟩
  by_contra hbefore
  have hrejected : isPrime p' = false :=
    not_accepted_of_lt_firstFrom hlt' (not_le.mp hbefore)
  rw [(hexact p').mpr hp'] at hrejected
  cases hrejected

/-! ### One attempt -/

section Search

variable {isPrime : ℕ → Bool}

/-- The candidate of an attempt: what it looks at when it has drawn `x`. -/
def halfAbove (isPrime : ℕ → Bool) (k x : ℕ) : ℕ := nextPrime isPrime (x % 2 ^ k + 2 ^ k)

/-- Every prime with `k + 1` digits and no power of two is the candidate of the number before it. -/
theorem halfAbove_of_prime (hexact : IsExact isPrime) {k h : ℕ} (hh : h.Prime) (hle : 2 ^ k < h)
    (hlt : h < 2 ^ (k + 1)) : halfAbove isPrime k (h - 1) = h := by
  have hpow : 2 ^ (k + 1) = 2 * 2 ^ k := Nat.pow_succ'
  have hdraw : (h - 1) % 2 ^ k + 2 ^ k = h - 1 := by
    rw [Nat.mod_eq_sub_mod (by omega), Nat.mod_eq_of_lt (by omega)]
    omega
  obtain ⟨⟨-, hfound⟩, hleast⟩ := hexact.isLeast_nextPrime (h - 1)
  rw [halfAbove, hdraw]
  exact le_antisymm (hleast ⟨hh, by omega⟩) (by omega)

theorem drawHalf_run (isPrime : ℕ → Bool) (k : ℕ) (s : Source) :
    (drawHalf isPrime k).run.run s =
      (.ok (halfAbove isPrime k (s.draw (k + 1) 0)), s.advance (wordCount (k + 1))) := by
  rw [drawHalf, Draw.run_bind_of_ok (drawBits_run_eq (k + 1) s)]
  rfl

theorem drawHalf_succeeds (hexact : IsExact isPrime) (k : ℕ) :
    (drawHalf isPrime k).Succeeds Nat.Prime :=
  fun s => ⟨_, _, drawHalf_run isPrime k s, (hexact.isLeast_nextPrime _).1.1⟩

theorem isRetry_searchHalf (isPrime accept : ℕ → Bool) (k total : ℕ) :
    Draw.IsRetry (searchHalf isPrime accept k total) (drawHalf isPrime k) (accept · = true)
      (.primesNotFound total) :=
  ⟨rfl, fun _ => rfl⟩

/-- The first acceptable candidate is found, each attempt taking one draw; or there is none. -/
theorem searchHalf_run_cases (hexact : IsExact isPrime) (accept : ℕ → Bool) (k total t : ℕ)
    (s : Source) :
    (∃ j < t, accept (halfAbove isPrime k (s.draw (k + 1) j)) = true ∧
      (∀ i < j, ¬accept (halfAbove isPrime k (s.draw (k + 1) i)) = true) ∧
      (searchHalf isPrime accept k total t).run.run s =
        (.ok (halfAbove isPrime k (s.draw (k + 1) j)),
          s.advance ((j + 1) * wordCount (k + 1)))) ∨
    ((∀ j < t, ¬accept (halfAbove isPrime k (s.draw (k + 1) j)) = true) ∧
      (searchHalf isPrime accept k total t).run.run s =
        (.error (.primesNotFound total), s.advance (t * wordCount (k + 1)))) := by
  have hvalue : ∀ j, halfAbove isPrime k ((s.advance (j * wordCount (k + 1))).draw (k + 1) 0) =
      halfAbove isPrime k (s.draw (k + 1) j) :=
    fun j => by rw [Source.draw_advance, Nat.add_zero j]
  rcases (isRetry_searchHalf isPrime accept k total).run_cases (drawHalf_succeeds hexact k) t s with
    ⟨refused, h, i, hlen, hanswers, hrefused, hacc, hrun⟩ |
    ⟨refused, i, rfl, hanswers, hrefused, hrun⟩
  · obtain ⟨hget, hlast⟩ := hanswers.getElem_eq (drawHalf_run isPrime k)
    simp only [hvalue] at hget
    -- every attempt takes one draw, so the answers are the candidates of the draws in turn
    have hh : h = halfAbove isPrime k (s.draw (k + 1) refused.length) := by
      rw [← hget refused.length (by simp), List.getElem_concat_length rfl]
    rw [hlast, List.length_append, List.length_singleton, hh] at hrun
    refine Or.inl ⟨refused.length, hlen, hh ▸ hacc, ?_, hrun⟩
    intro j hj
    rw [← hget j (by rw [List.length_append]; omega), List.getElem_append_left hj]
    exact hrefused _ (List.getElem_mem hj)
  · obtain ⟨hget, hlast⟩ := hanswers.getElem_eq (drawHalf_run isPrime k)
    simp only [hvalue] at hget
    rw [hlast] at hrun
    refine Or.inr ⟨?_, hrun⟩
    intro j hj
    rw [← hget j hj]
    exact hrefused _ (List.getElem_mem hj)

/-- What is found has been accepted, and it is a prime; nothing but the lack of attempts can prevent
that something is found. -/
theorem searchHalf_ends (hexact : IsExact isPrime) (accept : ℕ → Bool) (k total t : ℕ) :
    (searchHalf isPrime accept k total t).Ends (fun h => h.Prime ∧ accept h = true)
      (· = .primesNotFound total) := by
  intro s
  rcases searchHalf_run_cases hexact accept k total t s with ⟨j, -, hacc, -, hrun⟩ | ⟨-, hrun⟩
  · rw [hrun]
    exact ⟨(hexact.isLeast_nextPrime _).1.1, hacc⟩
  · rw [hrun]

end Search

/-! ### Safe primes -/

/-- What the search promises: a prime of `bits` digits whose half is a prime. -/
structure SafePrime.IsSafe (s : SafePrime) (bits : ℕ) : Prop where
  value_eq : s.value = 2 * s.half + 1
  value_prime : s.value.Prime
  half_prime : s.half.Prime
  bitLength_value : bitLength s.value = bits

theorem SafePrime.IsSafe.bitLength_half {s : SafePrime} {bits : ℕ} (hs : s.IsSafe bits) :
    bitLength s.half + 1 = bits := by
  rw [← bitLength_two_mul_add_one, ← hs.value_eq, hs.bitLength_value]

theorem SafePrime.IsSafe.half_eq {s : SafePrime} {bits : ℕ} (hs : s.IsSafe bits) :
    (s.value - 1) / 2 = s.half := by
  have := hs.value_eq
  omega

/-- The half of a safe prime does not leave the remainder one modulo three: three would divide the
safe prime, which is larger. -/
theorem mod_three_ne_one_of_prime {h : ℕ} (hh : h.Prime) (hp : (2 * h + 1).Prime) : h % 3 ≠ 1 := by
  intro hmod
  have hdvd : 3 ∣ 2 * h + 1 := by omega
  have heq : 3 = 2 * h + 1 := (Nat.prime_dvd_prime_iff_eq Nat.prime_three hp).mp hdvd
  have := hh.two_le
  omega

section Drawing

variable {isPrime : ℕ → Bool}

theorem isSafe_of_isSafeHalf (hexact : IsExact isPrime) {k h : ℕ} (hh : h.Prime)
    (hsafe : isSafeHalf isPrime k h = true) : (SafePrime.mk (2 * h + 1) h).IsSafe (k + 2) := by
  rw [isSafeHalf, Bool.and_eq_true, Bool.and_eq_true, decide_eq_true_eq] at hsafe
  obtain ⟨⟨hbits, -⟩, hprime⟩ := hsafe
  exact ⟨rfl, (hexact _).mp hprime, hh, by rw [bitLength_two_mul_add_one, hbits]⟩

/-- The reasons for which no safe prime of `bits` digits is found in so many attempts. -/
inductive SafePrime.FailsWith (bits attempts : ℕ) : Error → Prop
  /-- The length is out of range. -/
  | length (h : bits < 3 ∨ bitLengthBound ≤ bits - 1) : FailsWith bits attempts
      (.invalidBitLength bits)
  /-- The attempts are used up. -/
  | attempts : FailsWith bits attempts (.primesNotFound attempts)

/-- **The outcomes of the search, for every source.** -/
theorem drawSafePrime_ends (hexact : IsExact isPrime) (bits attempts : ℕ) :
    (drawSafePrime isPrime bits attempts).Ends (·.IsSafe bits)
      (SafePrime.FailsWith bits attempts) := by
  by_cases hbits : bits < 3 ∨ bitLengthBound ≤ bits - 1
  · rw [drawSafePrime_of_invalid hbits]
    exact Draw.ends_throw (.length hbits)
  · obtain ⟨k, rfl⟩ : ∃ k, bits = k + 2 := ⟨bits - 2, by omega⟩
    rw [drawSafePrime, if_neg hbits]
    have hsearch := searchHalf_ends hexact (isSafeHalf isPrime k) k attempts attempts
    have hfails : ∀ e, e = .primesNotFound attempts → SafePrime.FailsWith (k + 2) attempts e := by
      rintro _ rfl
      exact .attempts
    refine (hsearch.mono (fun _ => id) hfails).bind ?_
    rintro h ⟨hprime, hsafe⟩
    exact Draw.ends_pure (isSafe_of_isSafeHalf hexact hprime hsafe)

/-- The half of a safe prime is accepted: the numbers that are left out for their remainder modulo
three are no halves of safe primes. -/
theorem SafePrime.IsSafe.isSafeHalf (hexact : IsExact isPrime) {s : SafePrime} {k : ℕ}
    (hs : s.IsSafe (k + 2)) : isSafeHalf isPrime k s.half = true := by
  have hbits : bitLength s.half = k + 1 := Nat.succ_injective hs.bitLength_half
  have hthree : s.half % 3 ≠ 1 :=
    mod_three_ne_one_of_prime hs.half_prime (hs.value_eq ▸ hs.value_prime)
  rw [QuorumPaillier.isSafeHalf, ← hs.value_eq, (hexact _).mpr hs.value_prime, hbits]
  simp [hthree]

theorem drawSafePrime_run_of_first {k attempts h : ℕ} {s : Source} (hk : 0 < k)
    (hbits : k + 1 < bitLengthBound) (hattempts : 0 < attempts)
    (hh : halfAbove isPrime k (s.draw (k + 1) 0) = h) (hsafe : isSafeHalf isPrime k h = true) :
    (drawSafePrime isPrime (k + 2) attempts).run.run s =
      (.ok ⟨2 * h + 1, h⟩, s.advance (wordCount (k + 1))) := by
  obtain ⟨t, rfl⟩ : ∃ t, attempts = t + 1 := ⟨attempts - 1, by omega⟩
  have hvalid : ¬(k + 2 < 3 ∨ bitLengthBound ≤ k + 2 - 1) := by omega
  have hsearch := (isRetry_searchHalf isPrime (isSafeHalf isPrime k) k (t + 1)).succ_run
    (drawHalf_run isPrime k s) t
  rw [hh, if_pos hsafe] at hsearch
  rw [drawSafePrime, if_neg hvalid]
  exact Draw.run_bind_of_ok hsearch

/-- **Every safe prime of more than three digits can be found**, in one attempt that draws the
number before its half.  With three digits `5` is out of reach, since its half is a power of two. -/
theorem SafePrime.IsSafe.drawSafePrime_run (hexact : IsExact isPrime) {p : SafePrime}
    {bits attempts : ℕ} {s : Source} (hp : p.IsSafe bits) (hlong : 3 < bits)
    (hbits : bits - 1 < bitLengthBound) (hattempts : 0 < attempts)
    (hs : s.draw (bits - 1) 0 = p.half - 1) :
    (drawSafePrime isPrime bits attempts).run.run s =
      (.ok p, s.advance (wordCount (bits - 1))) := by
  obtain ⟨k, rfl⟩ : ∃ k, bits = k + 2 := ⟨bits - 2, by omega⟩
  have hlength : bitLength p.half = k + 1 := Nat.succ_injective hp.bitLength_half
  obtain ⟨hle, hlt⟩ := bitLength_eq_succ_iff.mp hlength
  have hne : 2 ^ k ≠ p.half := by
    intro heq
    have hone := Nat.Prime.eq_one_of_pow (heq ▸ hp.half_prime)
    omega
  have hfound := halfAbove_of_prime hexact hp.half_prime (lt_of_le_of_ne hle hne) hlt
  rw [← hs] at hfound
  have hrun := drawSafePrime_run_of_first (by omega) hbits hattempts hfound (hp.isSafeHalf hexact)
  rw [← hp.value_eq] at hrun
  exact hrun

end Drawing

/-! ### Two safe primes of one length -/

namespace SafePrime.IsSafe

variable {p q : SafePrime} {bits : ℕ}

theorem value_ne_half (hp : p.IsSafe bits) (hq : q.IsSafe bits) : p.value ≠ q.half := by
  intro heq
  have hlength := hq.bitLength_half
  rw [← heq, hp.bitLength_value] at hlength
  omega

/-- Two different safe primes of one length can be used together. -/
def factors (hp : p.IsSafe bits) (hq : q.IsSafe bits) (hne : p.value ≠ q.value) : SafeFactors where
  p := p.value
  q := q.value
  a := p.half
  b := q.half
  p_eq := hp.value_eq
  q_eq := hq.value_eq
  p_prime := hp.value_prime
  q_prime := hq.value_prime
  a_prime := hp.half_prime
  b_prime := hq.half_prime
  p_ne_q := hne
  p_ne_b := hp.value_ne_half hq
  q_ne_a := hq.value_ne_half hp

theorem ofIntegers_eq_toPair (hp : p.IsSafe bits) (hq : q.IsSafe bits)
    (hne : p.value ≠ q.value) :
    SafePrimePair.ofIntegers p.value q.value = (hp.factors hq hne).toPair :=
  (hp.factors hq hne).toPair_eq_ofIntegers.symm

/-- **Two safe primes of one length can be used together unless they are the same.** -/
theorem defect?_ofIntegers {isPrime : ℕ → Bool} (hexact : IsExact isPrime) (hp : p.IsSafe bits)
    (hq : q.IsSafe bits) :
    (SafePrimePair.ofIntegers p.value q.value).defect? isPrime =
      if p.value = q.value then some .equal else none := by
  have hpo := hp.value_eq
  have hqo := hq.value_eq
  have hpb := hp.value_ne_half hq
  have hqa := hq.value_ne_half hp
  have hhalfP : (p.value : ℤ) / 2 = p.half := by omega
  have hhalfQ : (q.value : ℤ) / 2 = q.half := by omega
  have hshared : ¬((p.value : ℤ) = q.half ∨ (q.value : ℤ) = p.half) := by omega
  have hcast : (p.value : ℤ) = q.value ↔ p.value = q.value := Int.natCast_inj
  rw [SafePrimePair.ofIntegers, hhalfP, hhalfQ, SafePrimePair.defect?_of_accepted
      ⟨by simp only; omega, by simp only; omega⟩
      ⟨hexact.acceptsInt_of_prime hp.value_prime, hexact.acceptsInt_of_prime hq.value_prime⟩
      ⟨hexact.acceptsInt_of_prime hp.half_prime, hexact.acceptsInt_of_prime hq.half_prime⟩]
  simp only [hcast, if_neg hshared]

end SafePrime.IsSafe

/-! ### Certificates -/

/-- Lucas's test: `n` is a prime if a power of `a` to the exponent `n - 1` leaves the remainder one,
and none whose exponent is the quotient of `n - 1` by one of its prime factors. -/
theorem prime_of_powMod {n a : ℕ} {fs : List (ℕ × ℕ)} (hn : 1 < n)
    (hfs : ∀ f ∈ fs, f.1.Prime) (hprod : (fs.map fun f => f.1 ^ f.2).prod = n - 1)
    (hone : powMod a (n - 1) n = 1) (hne : ∀ f ∈ fs, powMod a ((n - 1) / f.1) n ≠ 1) :
    n.Prime := by
  have hpow : ∀ e, (a : ZMod n) ^ e = 1 ↔ powMod a e n = 1 := by
    intro e
    rw [powMod_eq, ← Nat.cast_pow, ← Nat.cast_one, ZMod.natCast_eq_natCast_iff',
      Nat.mod_eq_of_lt hn]
  refine lucas_primality n (a : ZMod n) ((hpow _).mpr hone) ?_
  intro q hq hdvd
  rw [← hprod] at hdvd
  obtain ⟨x, hx, hqx⟩ := (Prime.dvd_prod_iff hq.prime).mp hdvd
  obtain ⟨f, hf, rfl⟩ := List.mem_map.mp hx
  -- a prime that divides a power of a prime is this prime
  obtain rfl : q = f.1 := (Nat.prime_dvd_prime_iff_eq hq (hfs f hf)).mp (hq.dvd_of_dvd_pow hqx)
  rw [ne_eq, hpow]
  exact hne f hf

/-- The double of a prime, plus one, is a prime if the powers of `a` say so. -/
theorem prime_two_mul_add_one {h a : ℕ} (hh : h.Prime) (hone : powMod a (2 * h) (2 * h + 1) = 1)
    (hhalf : powMod a h (2 * h + 1) ≠ 1) (htwo : powMod a 2 (2 * h + 1) ≠ 1) :
    (2 * h + 1).Prime := by
  have hpos := hh.pos
  have hfs : ∀ f ∈ [(2, 1), (h, 1)], f.1.Prime := by
    simp [Nat.prime_two, hh]
  refine prime_of_powMod (by omega) hfs (by simp) hone ?_
  simp only [List.mem_cons, List.not_mem_nil, or_false, forall_eq_or_imp, forall_eq,
    Nat.add_sub_cancel]
  rw [Nat.mul_div_cancel_left h Nat.two_pos, Nat.mul_div_cancel 2 hpos]
  exact ⟨hhalf, htwo⟩

/-- A safe prime of 32 digits. -/
def SafePrime.lower : SafePrime := ⟨2207744003, 1103872001⟩

/-- A safe prime of 32 digits, larger than the other. -/
def SafePrime.upper : SafePrime := ⟨4014080003, 2007040001⟩

theorem SafePrime.lower_isSafe : lower.IsSafe 32 := by
  have hfs : ∀ f ∈ [(2, 14), (5, 3), (7, 2), (11, 1)], f.1.Prime := by decide
  have hhalf : (1103872001).Prime :=
    prime_of_powMod (a := 6) (by decide) hfs (by decide) (by decide +kernel) (by decide +kernel)
  exact ⟨rfl, prime_two_mul_add_one (a := 2) hhalf (by decide +kernel) (by decide +kernel)
    (by decide +kernel), hhalf, by decide⟩

theorem SafePrime.upper_isSafe : upper.IsSafe 32 := by
  have hfs : ∀ f ∈ [(2, 16), (5, 4), (7, 2)], f.1.Prime := by decide
  have hhalf : (2007040001).Prime :=
    prime_of_powMod (a := 3) (by decide) hfs (by decide) (by decide +kernel) (by decide +kernel)
  exact ⟨rfl, prime_two_mul_add_one (a := 2) hhalf (by decide +kernel) (by decide +kernel)
    (by decide +kernel), hhalf, by decide⟩

/-! ### The search without the shortcut -/

/-- Whether a prime of `k + 1` bits is the half of a safe prime, told by the test alone. -/
def isSafeHalfTested (isPrime : ℕ → Bool) (k h : ℕ) : Bool :=
  bitLength h = k + 1 && isPrime (2 * h + 1)

/-- A safe prime of `bits` bits, found in at most `attempts` attempts that test every candidate of
the right length. -/
def drawSafePrimeTested (isPrime : ℕ → Bool) (bits attempts : ℕ) : Draw SafePrime :=
  if bits < 3 ∨ bitLengthBound ≤ bits - 1 then throw (.invalidBitLength bits)
  else do
    let k := bits - 2
    let h ← searchHalf isPrime (isSafeHalfTested isPrime k) k attempts attempts
    return ⟨2 * h + 1, h⟩

variable {isPrime : ℕ → Bool}

/-- **The shortcut refuses nothing that the test accepts**, if it is asked about primes. -/
theorem isSafeHalf_eq_tested (hexact : IsExact isPrime) {h : ℕ} (hh : h.Prime) (k : ℕ) :
    isSafeHalf isPrime k h = isSafeHalfTested isPrime k h := by
  unfold isSafeHalf isSafeHalfTested
  by_cases hmod : h % 3 = 1
  · have hrefused : isPrime (2 * h + 1) = false := by
      rw [Bool.eq_false_iff, ne_eq, hexact]
      exact fun hprime => mod_three_ne_one_of_prime hh hprime hmod
    simp [hrefused]
  · have hasked : (h % 3 != 1) = true := bne_iff_ne.mpr hmod
    rw [hasked, Bool.and_true]

/-- **The search runs as it would without the shortcut.** -/
theorem drawSafePrime_run_tested (hexact : IsExact isPrime) (bits attempts : ℕ) (s : Source) :
    (drawSafePrime isPrime bits attempts).run.run s =
      (drawSafePrimeTested isPrime bits attempts).run.run s := by
  by_cases hbits : bits < 3 ∨ bitLengthBound ≤ bits - 1
  · rw [drawSafePrime_of_invalid hbits, drawSafePrimeTested, if_pos hbits]
  · -- all candidates are primes, so the two tests agree on them
    have hagree : ∀ h : ℕ, h.Prime → (isSafeHalf isPrime (bits - 2) h = true ↔
        isSafeHalfTested isPrime (bits - 2) h = true) := by
      intro h hh
      rw [isSafeHalf_eq_tested hexact hh]
    have hsearch := (isRetry_searchHalf isPrime (isSafeHalf isPrime (bits - 2)) (bits - 2)
      attempts).run_congr (isRetry_searchHalf isPrime (isSafeHalfTested isPrime (bits - 2))
        (bits - 2) attempts) (drawHalf_succeeds hexact (bits - 2)) hagree attempts s
    rw [drawSafePrime, if_neg hbits, drawSafePrimeTested, if_neg hbits]
    simp only [ExceptT.run_bind, StateT.run_bind, hsearch]

/-! ### The attempts -/

/-- The candidate of the attempt with number `j`: the least prime above its draw, in which the
highest bit has been set. -/
def SafePrime.candidate (isPrime : ℕ → Bool) (bits : ℕ) (s : Source) (j : ℕ) : ℕ :=
  halfAbove isPrime (bits - 2) (s.draw (bits - 1) j)

theorem SafePrime.isLeast_candidate (hexact : IsExact isPrime) (bits : ℕ) (s : Source) (j : ℕ) :
    IsLeast {h | h.Prime ∧ s.draw (bits - 1) j % 2 ^ (bits - 2) + 2 ^ (bits - 2) < h}
      (SafePrime.candidate isPrime bits s j) :=
  hexact.isLeast_nextPrime _

/-- What an attempt looks for: a candidate of the right length that is the half of a prime. -/
def SafePrime.IsHalf (bits h : ℕ) : Prop := bitLength h = bits - 1 ∧ (2 * h + 1).Prime

/-- The test without the shortcut looks for just this. -/
theorem SafePrime.isHalf_iff (hexact : IsExact isPrime) {k h : ℕ} :
    IsHalf (k + 2) h ↔ isSafeHalfTested isPrime k h = true := by
  rw [IsHalf, isSafeHalfTested, Bool.and_eq_true, decide_eq_true_eq, hexact,
    show k + 2 - 1 = k + 1 from rfl]

/-- The attempt with number `j` is the first one that finds what it looks for. -/
structure SafePrime.IsFirstHalf (isPrime : ℕ → Bool) (bits : ℕ) (s : Source) (j : ℕ) : Prop where
  isHalf : IsHalf bits (candidate isPrime bits s j)
  not_isHalf : ∀ i < j, ¬IsHalf bits (candidate isPrime bits s i)

/-- The search answers with the first candidate that is such a half, or reports its attempts when
none of them is. -/
theorem drawSafePrime_run_cases (hexact : IsExact isPrime) {bits : ℕ} (attempts : ℕ) (s : Source)
    (hbits : ¬(bits < 3 ∨ bitLengthBound ≤ bits - 1)) :
    (∃ j < attempts, SafePrime.IsFirstHalf isPrime bits s j ∧
      (drawSafePrime isPrime bits attempts).run.run s =
        (.ok ⟨2 * SafePrime.candidate isPrime bits s j + 1, SafePrime.candidate isPrime bits s j⟩,
          s.advance ((j + 1) * wordCount (bits - 1)))) ∨
    ((∀ j < attempts, ¬SafePrime.IsHalf bits (SafePrime.candidate isPrime bits s j)) ∧
      (drawSafePrime isPrime bits attempts).run.run s =
        (.error (.primesNotFound attempts), s.advance (attempts * wordCount (bits - 1)))) := by
  obtain ⟨k, rfl⟩ : ∃ k, bits = k + 2 := ⟨bits - 2, by omega⟩
  have hhalf : ∀ j, SafePrime.IsHalf (k + 2) (SafePrime.candidate isPrime (k + 2) s j) ↔
      isSafeHalfTested isPrime k (halfAbove isPrime k (s.draw (k + 1) j)) = true :=
    fun j => SafePrime.isHalf_iff hexact
  have hcases := searchHalf_run_cases hexact (isSafeHalfTested isPrime k) k attempts attempts s
  simp only [← hhalf] at hcases
  rw [drawSafePrime_run_tested hexact, drawSafePrimeTested, if_neg hbits]
  rcases hcases with ⟨j, hj, hfound, hfirst, hrun⟩ | ⟨hnone, hrun⟩
  · exact Or.inl ⟨j, hj, ⟨hfound, hfirst⟩, Draw.run_bind_of_ok hrun⟩
  · exact Or.inr ⟨hnone, Draw.run_bind_of_error hrun⟩

/-- **What the search finds, and after how many draws.**  A length out of range is refused, and then
nothing is drawn.  For all others the search runs as it would without the shortcut: the candidates
are the least primes above the draws, and the first one that has the right length and is the half of
a prime is the answer.  What is found is a safe prime of the asked length. -/
theorem drawSafePrime_outcome (hexact : IsExact isPrime) (bits attempts : ℕ) (s : Source) :
    (∀ b s', (drawSafePrime isPrime bits attempts).run.run s = (.error (.invalidBitLength b), s') ↔
      (bits < 3 ∨ bitLengthBound ≤ bits - 1) ∧ b = bits ∧ s' = s) ∧
    (¬(bits < 3 ∨ bitLengthBound ≤ bits - 1) →
      (drawSafePrime isPrime bits attempts).run.run s =
        (drawSafePrimeTested isPrime bits attempts).run.run s ∧
      (∀ j, IsLeast {h | h.Prime ∧ s.draw (bits - 1) j % 2 ^ (bits - 2) + 2 ^ (bits - 2) < h}
        (SafePrime.candidate isPrime bits s j)) ∧
      ((∃ j < attempts, SafePrime.IsFirstHalf isPrime bits s j ∧
        (drawSafePrime isPrime bits attempts).run.run s =
          (.ok ⟨2 * SafePrime.candidate isPrime bits s j + 1, SafePrime.candidate isPrime bits s j⟩,
            s.advance ((j + 1) * wordCount (bits - 1)))) ∨
      ((∀ j < attempts, ¬SafePrime.IsHalf bits (SafePrime.candidate isPrime bits s j)) ∧
        (drawSafePrime isPrime bits attempts).run.run s =
          (.error (.primesNotFound attempts), s.advance (attempts * wordCount (bits - 1)))))) ∧
    ∀ p s', (drawSafePrime isPrime bits attempts).run.run s = (.ok p, s') →
      p.IsSafe bits ∧ bitLength p.half = bits - 1 := by
  refine ⟨?_, ?_, ?_⟩
  · intro b s'
    constructor
    · intro hrun
      by_cases hbits : bits < 3 ∨ bitLengthBound ≤ bits - 1
      · rw [drawSafePrime_of_invalid hbits] at hrun
        cases hrun
        exact ⟨hbits, rfl, rfl⟩
      · -- an admissible length leads to another outcome
        rcases drawSafePrime_run_cases hexact attempts s hbits with ⟨j, -, -, hrun'⟩ | ⟨-, hrun'⟩
        · rw [hrun'] at hrun
          cases hrun
        · rw [hrun'] at hrun
          cases hrun
    · rintro ⟨hbits, rfl, rfl⟩
      rw [drawSafePrime_of_invalid hbits]
      rfl
  · intro hbits
    exact ⟨drawSafePrime_run_tested hexact bits attempts s,
      SafePrime.isLeast_candidate hexact bits s, drawSafePrime_run_cases hexact attempts s hbits⟩
  · intro p s' hrun
    have hsafe := (drawSafePrime_ends hexact bits attempts).of_run_eq_ok hrun
    exact ⟨hsafe, Nat.eq_sub_of_add_eq hsafe.bitLength_half⟩

/-- With draws `1` and `0` the candidates for three digits are `5`, which is too long, and `3`:
seven is found in the second attempt, and one attempt is not enough.  A length of two digits is
refused. -/
theorem drawSafePrime_outcome_three_digits :
    IsExact (fun n => decide n.Prime) ∧
    (drawSafePrime (fun n => decide n.Prime) 3 2).run.run (Source.ofDraws 2 [1, 0]) =
      (.ok ⟨7, 3⟩, (Source.ofDraws 2 [1, 0]).advance 2) ∧
    (drawSafePrime (fun n => decide n.Prime) 3 1).run.run (Source.ofDraws 2 [1, 0]) =
      (.error (.primesNotFound 1), (Source.ofDraws 2 [1, 0]).advance 1) ∧
    (drawSafePrime (fun n => decide n.Prime) 2 1).run.run (Source.ofDraws 2 [1, 0]) =
      (.error (.invalidBitLength 2), Source.ofDraws 2 [1, 0]) := by
  have hvalid : ¬(3 < 3 ∨ bitLengthBound ≤ 3 - 1) := by decide
  have hfive : SafePrime.candidate (fun n => decide n.Prime) 3 (Source.ofDraws 2 [1, 0]) 0 = 5 := by
    decide +kernel
  have hthree :
      SafePrime.candidate (fun n => decide n.Prime) 3 (Source.ofDraws 2 [1, 0]) 1 = 3 := by
    decide +kernel
  have hlong : ¬SafePrime.IsHalf 3 5 := by
    rintro ⟨hbits, -⟩
    exact absurd hbits (by decide)
  have hhalf : SafePrime.IsHalf 3 3 := ⟨by decide, by decide⟩
  refine ⟨isExact_decide, ?_, ?_, ?_⟩
  · obtain ⟨-, -, ⟨j, hj, hfirst, hrun⟩ | ⟨hnone, -⟩⟩ :=
      (drawSafePrime_outcome isExact_decide 3 2 (Source.ofDraws 2 [1, 0])).2.1 hvalid
    · rcases j with _ | j
      · exact absurd (hfive ▸ hfirst.isHalf) hlong
      · obtain rfl : j = 0 := by omega
        rw [hthree] at hrun
        exact hrun
    · exact absurd (hthree ▸ hhalf) (hnone 1 (by decide))
  · obtain ⟨-, -, ⟨j, hj, hfirst, -⟩ | ⟨-, hrun⟩⟩ :=
      (drawSafePrime_outcome isExact_decide 3 1 (Source.ofDraws 2 [1, 0])).2.1 hvalid
    · obtain rfl : j = 0 := by omega
      exact absurd (hfive ▸ hfirst.isHalf) hlong
    · exact hrun
  · exact ((drawSafePrime_outcome isExact_decide 2 1 (Source.ofDraws 2 [1, 0])).1 2 _).mpr
      ⟨by decide, rfl, rfl⟩

end QuorumPaillier
