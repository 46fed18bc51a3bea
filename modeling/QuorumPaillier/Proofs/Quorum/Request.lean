import Mathlib.Data.List.Forall2
import Mathlib.Tactic
import QuorumPaillier.Proofs.Quorum.Outcome
import QuorumPaillier.Proofs.Sharing.Dealing
import QuorumPaillier.System

/-!
# Requests for partial decryptions

A request names authorities by their positions, in any order and as often as it likes, and it names
a number to be decrypted.  Neither has to make sense.  The authorities are asked in turn; each of
them answers or refuses for a reason of its own, and the first refusal is the answer to the request.
A position that no authority has is reported under the index that would belong to it.  The largest
position that fits into a word has no index, and asking for it is a fault.

## Main definitions

* `ThresholdSystem.AnswersAt`, `PublicKey.RefusesAt` — the answer at a position, and why there is
  none.

## Main results

* `mapM_eq_ok_iff`, `mapM_eq_error_iff` — a traversal answers pointwise, or fails at the first
  failure.
* `SafePrimePair.partialDecrypt_outcome` — **what happens to a request.**
-/

namespace QuorumPaillier

/-! ### Traversals -/

section Traversal

variable {α β ε : Type} {f : α → Except ε β}

/-- A traversal answers with the answers of its members, in their order. -/
theorem mapM_eq_ok_iff {xs : List α} {ys : List β} :
    xs.mapM f = .ok ys ↔ List.Forall₂ (fun x y => f x = .ok y) xs ys := by
  induction xs generalizing ys with
  | nil => simp [pure, Except.pure, eq_comm]
  | cons x xs ih =>
    rw [List.mapM_cons, List.forall₂_cons_left_iff]
    cases hx : f x with
    | error e => simp [bind, Except.bind]
    | ok y =>
      cases hxs : xs.mapM f with
      | error e => simp [bind, Except.bind, ← ih, hxs]
      | ok zs => simp [bind, Except.bind, pure, Except.pure, ← ih, hxs, eq_comm]

/-- A traversal fails at the first member that fails. -/
theorem mapM_eq_error_iff {xs : List α} {e : ε} :
    xs.mapM f = .error e ↔
      ∃ as x bs, xs = as ++ x :: bs ∧ (∀ y ∈ as, ∃ z, f y = .ok z) ∧ f x = .error e := by
  induction xs with
  | nil => simp [pure, Except.pure]
  | cons x xs ih =>
    rw [List.mapM_cons, exists_first_cons_iff]
    cases hx : f x with
    | error e' => simp [bind, Except.bind]
    | ok y =>
      simp only [reduceCtorEq, false_or, Except.ok.injEq, exists_eq', true_and, ← ih]
      cases xs.mapM f <;> simp [bind, Except.bind, pure, Except.pure]

end Traversal

/-! ### One position -/

/-- What the authority at a position answers to a request for `c`: the power that belongs to its
share, under its index. -/
structure ThresholdSystem.AnswersAt (t : ThresholdSystem) (c : ℤ) (position : ℕ)
    (part : PartialDecryption) : Prop where
  /-- There is an authority at the position. -/
  position_lt : position < t.publicKey.l
  /-- The number is positive. -/
  pos : 0 < c
  /-- It is below the square of the modulus. -/
  lt : c < (t.publicKey.n : ℤ) ^ 2
  /-- The authority holds a share, which determines the power. -/
  exists_share : ∃ s : ℕ, t.shares[position]? = some ⟨position + 1, s⟩ ∧
    part = ⟨position + 1,
      c ^ (2 * t.publicKey.l.factorial * s) % (t.publicKey.n : ℤ) ^ 2⟩

/-- Why there is no answer to a request for `c` at a position. -/
@[mk_iff]
inductive PublicKey.RefusesAt (pk : PublicKey) (c : ℤ) (position : ℕ) : Error → Prop
  /-- There is no authority at the position. -/
  | outOfRange (h : pk.l ≤ position) (hcount : position + 1 < wordBound) :
      RefusesAt pk c position (.indexOutOfRange (position + 1) pk.l)
  /-- The position has no index. -/
  | uncountable (h : wordBound ≤ position + 1) : RefusesAt pk c position (.fault .countOverflow)
  /-- The number is zero or negative. -/
  | notPositive (h : position < pk.l) (hc : c ≤ 0) :
      RefusesAt pk c position (.invalidCiphertext .notPositive)
  /-- The number is not below the square of the modulus. -/
  | tooLarge (h : position < pk.l) (hc : (pk.n : ℤ) ^ 2 ≤ c) :
      RefusesAt pk c position (.invalidCiphertext .tooLarge)

theorem AuthorityShare.decrypt_of_not_accepted (s : AuthorityShare) {pk : PublicKey} {c : ℤ}
    {e : Error} (h : pk.accept c = .error e) : s.decrypt pk c = .error e := by
  rw [decrypt, h]
  rfl

section Dealt

variable {f : SharingPolynomial} {pk : PublicKey} {c : ℤ} {i : ℕ}

theorem SharingPolynomial.partialDecryptAt_of_accepted (hroom : pk.l < slotBound) (hi : i < pk.l)
    (h₀ : 0 < c) (hlt : c < (pk.n : ℤ) ^ 2) :
    (⟨pk, f.dealt pk.l⟩ : ThresholdSystem).partialDecryptAt c i =
      .ok ⟨i + 1, c ^ (2 * pk.l.factorial * f.value (i + 1)) % (pk.n : ℤ) ^ 2⟩ := by
  have hcount : i + 1 < wordBound := by
    have := slotBound_lt_wordBound
    omega
  lift c to ℕ using h₀.le
  rw [← pk.natCast_nSquared] at hlt ⊢
  rw [ThresholdSystem.partialDecryptAt, nextCount_of_lt hcount, f.getElem?_dealt hi]
  refine (AuthorityShare.decrypt_natCast pk (i + 1) _ (by omega) (by omega)).trans ?_
  rw [pk.delta_eq, factorial_eq]
  push_cast
  rfl

theorem PublicKey.RefusesAt.partialDecryptAt_eq {e : Error} (hroom : pk.l < slotBound)
    (h : pk.RefusesAt c i e) :
    (⟨pk, f.dealt pk.l⟩ : ThresholdSystem).partialDecryptAt c i = .error e := by
  have hbound := slotBound_lt_wordBound
  cases h with
  | outOfRange hi hcount =>
    have hnone : (f.dealt pk.l)[i]? = none := List.getElem?_eq_none (by rwa [f.length_dealt])
    simp only [ThresholdSystem.partialDecryptAt, nextCount_of_lt hcount, hnone, f.length_dealt]
    rfl
  | uncountable hi =>
    rw [ThresholdSystem.partialDecryptAt, nextCount_of_ge hi]
    rfl
  | notPositive hi hc =>
    rw [ThresholdSystem.partialDecryptAt, nextCount_of_lt (by omega), f.getElem?_dealt hi]
    exact AuthorityShare.decrypt_of_not_accepted _ (pk.accept_of_le_zero hc)
  | tooLarge hi hc =>
    rw [← pk.natCast_nSquared] at hc
    rw [ThresholdSystem.partialDecryptAt, nextCount_of_lt (by omega), f.getElem?_dealt hi]
    exact AuthorityShare.decrypt_of_not_accepted _ (pk.accept_of_nSquared_le hc)

theorem PublicKey.accepts_or_refusesAt (pk : PublicKey) (c : ℤ) (i : ℕ) :
    (i < pk.l ∧ 0 < c ∧ c < (pk.n : ℤ) ^ 2) ∨ ∃ e, pk.RefusesAt c i e := by
  by_cases hi : i < pk.l
  · by_cases hc₀ : 0 < c
    · by_cases hc : c < (pk.n : ℤ) ^ 2
      · exact Or.inl ⟨hi, hc₀, hc⟩
      · exact Or.inr ⟨_, .tooLarge hi (not_lt.mp hc)⟩
    · exact Or.inr ⟨_, .notPositive hi (not_lt.mp hc₀)⟩
  · by_cases hcount : i + 1 < wordBound
    · exact Or.inr ⟨_, .outOfRange (not_lt.mp hi) hcount⟩
    · exact Or.inr ⟨_, .uncountable (not_lt.mp hcount)⟩

/-- **Which answers are given** at a position. -/
theorem SharingPolynomial.partialDecryptAt_eq_ok_iff (hroom : pk.l < slotBound)
    {part : PartialDecryption} :
    (⟨pk, f.dealt pk.l⟩ : ThresholdSystem).partialDecryptAt c i = .ok part ↔
      (⟨pk, f.dealt pk.l⟩ : ThresholdSystem).AnswersAt c i part := by
  constructor
  · intro hrun
    rcases pk.accepts_or_refusesAt c i with ⟨hi, h₀, hlt⟩ | ⟨e, he⟩
    · rw [partialDecryptAt_of_accepted hroom hi h₀ hlt] at hrun
      exact ⟨hi, h₀, hlt, f.value (i + 1), f.getElem?_dealt hi, (Except.ok.inj hrun).symm⟩
    · rw [he.partialDecryptAt_eq hroom] at hrun
      cases hrun
  · rintro ⟨hi, h₀, hlt, s, hs, rfl⟩
    rw [f.getElem?_dealt hi, Option.some.injEq, AuthorityShare.mk.injEq, Int.natCast_inj] at hs
    rw [partialDecryptAt_of_accepted hroom hi h₀ hlt, hs.2]

/-- **Which refusals are given** at a position. -/
theorem SharingPolynomial.partialDecryptAt_eq_error_iff (hroom : pk.l < slotBound) {e : Error} :
    (⟨pk, f.dealt pk.l⟩ : ThresholdSystem).partialDecryptAt c i = .error e ↔
      pk.RefusesAt c i e := by
  constructor
  · intro hrun
    rcases pk.accepts_or_refusesAt c i with ⟨hi, h₀, hlt⟩ | ⟨e', he'⟩
    · rw [partialDecryptAt_of_accepted hroom hi h₀ hlt] at hrun
      cases hrun
    · rw [he'.partialDecryptAt_eq hroom] at hrun
      obtain rfl := Except.error.inj hrun
      exact he'
  · exact fun he => he.partialDecryptAt_eq hroom

theorem SharingPolynomial.exists_partialDecryptAt_iff (hroom : pk.l < slotBound) :
    (∃ part, (⟨pk, f.dealt pk.l⟩ : ThresholdSystem).partialDecryptAt c i = .ok part) ↔
      i < pk.l ∧ 0 < c ∧ c < (pk.n : ℤ) ^ 2 := by
  constructor
  · rintro ⟨part, hrun⟩
    have hanswer := (partialDecryptAt_eq_ok_iff hroom).mp hrun
    exact ⟨hanswer.position_lt, hanswer.pos, hanswer.lt⟩
  · rintro ⟨hi, h₀, hlt⟩
    exact ⟨_, partialDecryptAt_of_accepted hroom hi h₀ hlt⟩

/-! ### Requests -/

/-- The answers to a request are those at its positions, in their order. -/
theorem SharingPolynomial.partialDecrypt_eq_ok_iff (hroom : pk.l < slotBound)
    {positions : List ℕ} {parts : List PartialDecryption} :
    (⟨pk, f.dealt pk.l⟩ : ThresholdSystem).partialDecrypt positions c = .ok parts ↔
      List.Forall₂ ((⟨pk, f.dealt pk.l⟩ : ThresholdSystem).AnswersAt c) positions parts := by
  simp only [ThresholdSystem.partialDecrypt, mapM_eq_ok_iff, partialDecryptAt_eq_ok_iff hroom]

/-- A request is refused for the reason of the first position at which there is no answer. -/
theorem SharingPolynomial.partialDecrypt_eq_error_iff (hroom : pk.l < slotBound)
    {positions : List ℕ} {e : Error} :
    (⟨pk, f.dealt pk.l⟩ : ThresholdSystem).partialDecrypt positions c = .error e ↔
      ∃ as i bs, positions = as ++ i :: bs ∧
        (∀ j ∈ as, j < pk.l ∧ 0 < c ∧ c < (pk.n : ℤ) ^ 2) ∧ pk.RefusesAt c i e := by
  simp only [ThresholdSystem.partialDecrypt, mapM_eq_error_iff, exists_partialDecryptAt_iff hroom,
    partialDecryptAt_eq_error_iff hroom]

theorem SharingPolynomial.exists_partialDecrypt_eq_ok (hroom : pk.l < slotBound)
    {positions : List ℕ} (hpos : ∀ i ∈ positions, i < pk.l)
    (hc : positions = [] ∨ 0 < c ∧ c < (pk.n : ℤ) ^ 2) :
    ∃ parts, (⟨pk, f.dealt pk.l⟩ : ThresholdSystem).partialDecrypt positions c = .ok parts := by
  rcases hc with rfl | ⟨h₀, hlt⟩
  · exact ⟨[], rfl⟩
  · exact ⟨_, mapM_eq_ok fun i hi => partialDecryptAt_of_accepted hroom (hpos i hi) h₀ hlt⟩

end Dealt

/-- **What happens to a request.**  Setting up a system from keys succeeds.  Its authorities answer
every request for existing positions and a ciphertext, position by position; the empty request is
answered whatever the number.  A request is refused exactly for the reason of the first position at
which there is no answer, and this is a fault only if the position has no index. -/
theorem SafePrimePair.partialDecrypt_outcome {s : SafePrimePair} {w l : ℕ} {k : KeyPair}
    (hk : s.keyPair w l = .ok k) :
    (ThresholdSystem.ofKeyPair k).Succeeds fun t =>
      t.publicKey = k.publicKey ∧ ∀ (positions : List ℕ) (c : ℤ),
        ((∀ i ∈ positions, i < l) → (positions = [] ∨ 0 < c ∧ c < (k.publicKey.n : ℤ) ^ 2) →
          ∃ parts, t.partialDecrypt positions c = .ok parts) ∧
        (∀ parts, t.partialDecrypt positions c = .ok parts ↔
          List.Forall₂ (t.AnswersAt c) positions parts) ∧
        (∀ e, t.partialDecrypt positions c = .error e ↔
          ∃ as i bs, positions = as ++ i :: bs ∧
            (∀ j ∈ as, j < l ∧ 0 < c ∧ c < (k.publicKey.n : ℤ) ^ 2) ∧
            k.publicKey.RefusesAt c i e) ∧
        ((∀ i ∈ positions, i + 1 < wordBound) →
          ∀ cause, t.partialDecrypt positions c ≠ .error (.fault cause)) := by
  have hnm := nm_pos_of_keyPair hk
  obtain ⟨-, hroom, -, hpk, hsk⟩ := of_keyPair_eq_ok hk
  obtain ⟨-, -, -, -, rfl⟩ := PublicKey.ofModulus_eq_ok_iff.mp hpk
  have hl : k.privateKey.l = k.publicKey.l := by rw [hsk]
  refine (PrivateKey.deal_succeeds hnm (hl ▸ hroom)).bind ?_
  rintro shares ⟨drawn, -, -, rfl⟩
  rw [hl]
  refine Draw.succeeds_pure ⟨rfl, ?_⟩
  intro positions c
  refine ⟨?_, ?_, ?_, ?_⟩
  · exact SharingPolynomial.exists_partialDecrypt_eq_ok hroom
  · exact fun parts => SharingPolynomial.partialDecrypt_eq_ok_iff hroom
  · exact fun e => SharingPolynomial.partialDecrypt_eq_error_iff hroom
  · intro hcount cause hrun
    obtain ⟨as, i, bs, rfl, -, hrefuses⟩ :=
      (SharingPolynomial.partialDecrypt_eq_error_iff hroom).mp hrun
    -- the only fault among the reasons is that a position has no index
    cases hrefuses with
    | uncountable hi => exact absurd (hcount i (by simp)) (not_lt.mpr hi)

/-- Requests to authorities of the key made from `5` and `7`: one that repeats a position, one whose
second position has no authority, one for a number that is no ciphertext, and one for the largest
position that has an index. -/
theorem SafePrimePair.partialDecrypt_outcome_smallest :
    SafeFactors.smallest.toPair.keyPair 2 3 = .ok KeyPair.smallest ∧
    ∃ t, (ThresholdSystem.ofKeyPair KeyPair.smallest).run.run Source.ones =
        (.ok t, Source.ones.advance 1) ∧
      (∃ parts, t.partialDecrypt [2, 0, 2] 2 = .ok parts ∧
        List.Forall₂ (t.AnswersAt 2) [2, 0, 2] parts) ∧
      t.partialDecrypt [0, 3, 5] 2 = .error (.indexOutOfRange 4 3) ∧
      t.partialDecrypt [0, 3] 1225 = .error (.invalidCiphertext .tooLarge) ∧
      t.partialDecrypt [2 ^ 64 - 2] 2 = .error (.indexOutOfRange (2 ^ 64 - 1) 3) := by
  obtain ⟨-, hrequest⟩ := (partialDecrypt_outcome SafeFactors.keyPair_smallest).of_run_eq_ok
    (s := Source.ones) rfl
  refine ⟨SafeFactors.keyPair_smallest, _, rfl, ?_, ?_, ?_, ?_⟩
  · obtain ⟨hanswered, hanswers, -⟩ := hrequest [2, 0, 2] 2
    obtain ⟨parts, hparts⟩ := hanswered (by decide) (.inr (by decide))
    exact ⟨parts, hparts, (hanswers parts).mp hparts⟩
  · exact ((hrequest _ _).2.2.1 _).mpr
      ⟨[0], 3, [5], rfl, by decide, .outOfRange (by decide) (by decide)⟩
  · exact ((hrequest _ _).2.2.1 _).mpr ⟨[], 0, [3], rfl, by simp, .tooLarge (by decide) (by decide)⟩
  · exact ((hrequest _ _).2.2.1 _).mpr
      ⟨[], 2 ^ 64 - 2, [], rfl, by simp, .outOfRange (by decide) (by decide)⟩

/-- **The fault.**  In a system set up from the key made from `5` and `7` the largest word, asked
for as a position, is not reported as out of range. -/
theorem ThresholdSystem.partialDecrypt_largest_position :
    ((ofKeyPair KeyPair.smallest).run.run (Source.ofDraws 8 [100])).1 =
        .ok ⟨KeyPair.smallest.publicKey, [⟨1, 136⟩, ⟨2, 26⟩, ⟨3, 126⟩]⟩ ∧
    partialDecrypt ⟨KeyPair.smallest.publicKey, [⟨1, 136⟩, ⟨2, 26⟩, ⟨3, 126⟩]⟩ [2 ^ 64 - 1] 2 =
        .error (.fault .countOverflow) := by
  constructor <;> decide +kernel

end QuorumPaillier
