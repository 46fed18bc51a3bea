import Mathlib.Tactic
import QuorumPaillier.Proofs.Ciphertext.Homomorphism
import QuorumPaillier.Proofs.Key.Generation
import QuorumPaillier.Proofs.Sharing.Dealing
import QuorumPaillier.System

/-!
# A refusal leaves the source alone

An operation that reads a source checks what it was handed over before it draws, so a request that
is refused costs no randomness.  Only failures that nobody can foresee come later: a search runs out
of attempts, patience is lost, or the keys whose primes have been found do not fit into memory.

The property is kept along `>>=` in two ways.  Either the first step draws nothing, and then the
rest may refuse; or the first step may refuse, and then the rest fails late only.  In the second
case something has to be known about the answers of the first step: after key generation, for
example, that shares live modulo a positive number, so that all coefficients can be drawn.

## Main definitions

* `Error.IsLate`, `Draw.SparesSource` — late failures; the source is as it was after all others.
* `PrivateKey.IsObtainable` — the private keys that somebody can hold.

## Main results

* `Draw.sparesSource_lift_bind`, `Draw.SparesSource.bind` — the two ways.
* `refusals_spare_source` — **no operation that refuses a request has drawn a word.**
-/

namespace QuorumPaillier

/-! ### Late failures and refusals -/

/-- The failures that are decided by the draws or come after them.  All others are refusals. -/
inductive Error.IsLate : Error → Prop
  /-- A search for primes has used up its attempts. -/
  | primesNotFound (attempts : ℕ) : IsLate (.primesNotFound attempts)
  /-- The verification slots do not fit into memory. -/
  | noRoomForSlots (l : ℕ) : IsLate (.noRoomForSlots l)
  /-- A sampler has lost its patience: as many numbers as it would look at were no units. -/
  | drawsExhausted : IsLate .drawsExhausted

namespace Draw

variable {α β : Type} {P : α → Prop} {E : Error → Prop}

/-- `x` leaves every source as it was. -/
def DrawsNothing (x : Draw α) : Prop := ∀ s, (x.run.run s).2 = s

/-- `x` refuses nothing. -/
def FailsLate (x : Draw α) : Prop := Ends x (fun _ => True) Error.IsLate

/-- Where `x` refuses, the source is as it was. -/
def SparesSource (x : Draw α) : Prop :=
  ∀ s e s', x.run.run s = (.error e, s') → e.IsLate ∨ s' = s

theorem drawsNothing_throw (e : Error) : DrawsNothing (throw e : Draw α) := fun _ => rfl

theorem drawsNothing_lift (x : Except Error α) : DrawsNothing (liftM x) := by
  intro s
  cases x <;> rfl

theorem DrawsNothing.bind {x : Draw α} {f : α → Draw β} (hx : DrawsNothing x)
    (hf : ∀ a, DrawsNothing (f a)) : DrawsNothing (x >>= f) := by
  intro s
  have hs := hx s
  rcases hrun : x.run.run s with ⟨out, s'⟩
  rw [hrun] at hs
  subst hs
  cases out with
  | ok a =>
    rw [run_bind_of_ok hrun]
    exact hf a _
  | error e => rw [run_bind_of_error hrun]

theorem DrawsNothing.sparesSource {x : Draw α} (hx : DrawsNothing x) : SparesSource x := by
  intro s e s' hrun
  have hs := hx s
  rw [hrun] at hs
  exact Or.inr hs

theorem failsLate_pure (a : α) : FailsLate (pure a) := ends_pure trivial

theorem FailsLate.bind {x : Draw α} {f : α → Draw β} (hx : FailsLate x)
    (hf : ∀ a, FailsLate (f a)) : FailsLate (x >>= f) :=
  Ends.bind hx fun a _ => hf a

theorem Ends.failsLate {x : Draw α} (hx : Ends x P E) (hE : ∀ e, E e → e.IsLate) : FailsLate x :=
  hx.mono (fun _ _ => trivial) hE

/-- Losing patience is the only failure of a computation that delivers. -/
theorem Delivers.failsLate {lost : Source → Source → Prop} {x : Draw α} (hx : Delivers lost x P) :
    FailsLate x := by
  intro s
  rcases hx s with ⟨a, i, hrun, -⟩ | ⟨i, s', hrun, -⟩
  · rw [hrun]
    trivial
  · rw [hrun]
    exact .drawsExhausted

theorem Succeeds.failsLate {x : Draw α} (hx : Succeeds x P) : FailsLate x :=
  (succeeds_iff_delivers.mp hx).failsLate

theorem FailsLate.sparesSource {x : Draw α} (hx : FailsLate x) : SparesSource x :=
  fun _ _ _ hrun => Or.inl (hx.of_run_eq_error hrun)

/-- **After a check, which draws nothing, the rest may refuse.** -/
theorem sparesSource_lift_bind {x : Except Error α} {f : α → Draw β}
    (hf : ∀ a, x = .ok a → SparesSource (f a)) : SparesSource (liftM x >>= f) := by
  cases x with
  | ok a => exact hf a rfl
  | error e => exact (drawsNothing_throw e).sparesSource

/-- **The first step may refuse, if the rest does not** after the answers that it gives. -/
theorem SparesSource.bind {x : Draw α} {f : α → Draw β} (hx : SparesSource x) (hP : Ends x P E)
    (hf : ∀ a, P a → FailsLate (f a)) : SparesSource (x >>= f) := by
  intro s e s' hrun
  rcases hfirst : x.run.run s with ⟨out, m⟩
  cases out with
  | ok a =>
    rw [run_bind_of_ok hfirst] at hrun
    exact Or.inl ((hf a (hP.of_run_eq_ok hfirst)).of_run_eq_error hrun)
  | error e' =>
    rw [run_bind_of_error hfirst] at hrun
    cases hrun
    exact hx s e s' hfirst

/-- Every computation ends somehow. -/
theorem ends_true (x : Draw α) : Ends x (fun _ => True) fun _ => True := by
  intro s
  cases (x.run.run s).1 <;> trivial

end Draw

/-! ### The samplers -/

theorem drawBelow_failsLate {n : ℕ} (hn : 0 < n) : (drawBelow n).FailsLate :=
  (drawBelow_succeeds hn).failsLate

theorem drawUnit_failsLate {n : ℕ} (hn : 1 < n) : (drawUnit n).FailsLate :=
  (drawUnit_delivers hn).failsLate

theorem drawBelow_sparesSource (n : ℤ) : (drawBelow n).SparesSource := by
  rcases le_or_gt n 0 with hn | hn
  · rw [drawBelow_of_le_zero hn]
    exact (Draw.drawsNothing_throw _).sparesSource
  · lift n to ℕ using hn.le
    exact (drawBelow_failsLate (Int.natCast_pos.mp hn)).sparesSource

theorem drawUnit_sparesSource (n : ℤ) : (drawUnit n).SparesSource := by
  rcases le_or_gt n 1 with hn | hn
  · rw [drawUnit_of_le_one hn]
    exact (Draw.drawsNothing_throw _).sparesSource
  · lift n to ℕ using by omega
    exact (drawUnit_failsLate (by omega)).sparesSource

/-! ### Searches and key generation -/

section Generation

variable {isPrime : ℕ → Bool} {c : KeyParameters}

theorem drawSafePrime_sparesSource (hexact : IsExact isPrime) (bits attempts : ℕ) :
    (drawSafePrime isPrime bits attempts).SparesSource := by
  by_cases hbits : bits < 3 ∨ bitLengthBound ≤ bits - 1
  · rw [drawSafePrime_of_invalid hbits]
    exact (Draw.drawsNothing_throw _).sparesSource
  · refine ((drawSafePrime_ends hexact bits attempts).failsLate ?_).sparesSource
    intro e he
    cases he with
    | length h => exact absurd h hbits
    | attempts => exact .primesNotFound attempts

namespace KeyParameters

/-- Valid parameters whose primes are not too long are not refused any more. -/
theorem FailsWith.isLate {e : Error} (he : c.FailsWith e) (hc : c.IsValid)
    (hbits : c.primeBits ≤ bitLengthBound) : e.IsLate := by
  cases he with
  | modulusLength h => exact absurd hc.bits_ge (not_le.mpr h)
  | threshold h =>
    rcases h with hwl | ⟨hasked, hhalf⟩
    · exact absurd ⟨hc.one_le_w, hc.w_le_l⟩ hwl
    · exact absurd (hc.half_lt_w hasked) (not_lt.mpr hhalf)
  | primeLength h => exact absurd hbits (not_le.mpr h)
  | attempts => exact .primesNotFound _
  | room => exact .noRoomForSlots _

/-- All primes have one length, so the first search refuses it or none does. -/
theorem generateFrom_sparesSource (hexact : IsExact isPrime) (hc : c.IsValid) (t : ℕ) :
    (c.generateFrom isPrime t).SparesSource := by
  rcases le_or_gt c.primeBits bitLengthBound with hbits | hlong
  · have hlate := (generateFrom_ends hexact hc t).failsLate fun _ he => he.isLate hc hbits
    exact hlate.sparesSource
  · cases t with
    | zero => exact (Draw.drawsNothing_throw _).sparesSource
    | succ t =>
      have hinvalid : c.primeBits < 3 ∨ bitLengthBound ≤ c.primeBits - 1 := by omega
      rw [generateFrom, drawSafePrime_of_invalid hinvalid]
      exact (Draw.drawsNothing_throw (.invalidBitLength c.primeBits)).sparesSource

theorem generate_sparesSource (hexact : IsExact isPrime) (c : KeyParameters) :
    (c.generate isPrime).SparesSource :=
  Draw.sparesSource_lift_bind fun _ hcheck =>
    generateFrom_sparesSource hexact (check_eq_ok_iff.mp hcheck) c.attempts

/-- Keys are made from the primes of an attempt, whatever passes for a prime. -/
theorem generateFrom_ends_keyPair (isPrime : ℕ → Bool) (c : KeyParameters) (t : ℕ) :
    (c.generateFrom isPrime t).Ends (fun k => ∃ s : SafePrimePair, s.keyPair c.w c.l = .ok k)
      fun _ => True := by
  induction t with
  | zero => exact Draw.ends_throw trivial
  | succ t ih =>
    refine (Draw.ends_true _).bind fun p _ => (Draw.ends_true _).bind fun q _ => ?_
    dsimp only
    split
    · exact Draw.ends_lift (fun k hk => ⟨_, hk⟩) fun _ _ => trivial
    · exact ih

theorem generate_ends_keyPair (isPrime : ℕ → Bool) (c : KeyParameters) :
    (c.generate isPrime).Ends (fun k => ∃ s : SafePrimePair, s.keyPair c.w c.l = .ok k)
      fun _ => True :=
  (Draw.ends_true _).bind fun _ _ => generateFrom_ends_keyPair isPrime c c.attempts

end KeyParameters

end Generation

/-! ### Dealing -/

namespace PrivateKey

/-- The private keys that somebody can hold: those that are made, and what erasure leaves of one. -/
inductive IsObtainable : PrivateKey → Prop
  /-- A key is made from two numbers with their halves. -/
  | made {s : SafePrimePair} {w l : ℕ} {k : KeyPair} (hk : s.keyPair w l = .ok k) :
      IsObtainable k.privateKey
  /-- A key is erased. -/
  | erased {sk : PrivateKey} (h : IsObtainable sk) : IsObtainable sk.erase

variable {sk : PrivateKey}

/-- The verification slots fit into memory; erasure keeps their number. -/
theorem IsObtainable.l_lt (h : sk.IsObtainable) : sk.l < slotBound := by
  induction h with
  | made hk =>
    obtain ⟨-, hl, -, -, hsk⟩ := SafePrimePair.of_keyPair_eq_ok hk
    rw [hsk]
    exact hl
  | erased _ ih => exact ih

/-- Modulo zero the first coefficient is refused, and if none is needed then none is drawn. -/
theorem sharing_drawsNothing (h : sk.nm = 0) : (SharingPolynomial.draw sk).DrawsNothing := by
  have hnm : (sk.nm : ℤ) ≤ 0 := by omega
  have hlist : (drawList (drawBelow sk.nm) (sk.w - 1)).DrawsNothing := by
    rw [drawBelow_of_le_zero hnm]
    cases sk.w - 1 <;> exact fun _ => rfl
  exact hlist.bind fun _ _ => rfl

/-- Modulo a positive number no coefficient is refused. -/
theorem sharing_failsLate (h : 0 < sk.nm) : (SharingPolynomial.draw sk).FailsLate :=
  (sharing_succeeds h).failsLate

theorem sharing_sparesSource (sk : PrivateKey) : (SharingPolynomial.draw sk).SparesSource := by
  rcases Nat.eq_zero_or_pos sk.nm with hzero | hpos
  · exact (sharing_drawsNothing hzero).sparesSource
  · exact (sharing_failsLate hpos).sparesSource

theorem deal_failsLate (h : 0 < sk.nm) (hl : sk.l < slotBound) : sk.deal.FailsLate :=
  (deal_succeeds h hl).failsLate

/-- Where no coefficient has been drawn the shares may fail, and where some have they do not. -/
theorem deal_sparesSource (hl : sk.l < slotBound) : sk.deal.SparesSource := by
  rcases Nat.eq_zero_or_pos sk.nm with hzero | hpos
  · exact ((sharing_drawsNothing hzero).bind fun _ => Draw.drawsNothing_lift _).sparesSource
  · exact (deal_failsLate hpos hl).sparesSource

end PrivateKey

namespace ThresholdSystem

theorem ofKeyPair_sparesSource {k : KeyPair} (hl : k.privateKey.l < slotBound) :
    (ofKeyPair k).SparesSource :=
  (PrivateKey.deal_sparesSource hl).bind (Draw.ends_true _) fun _ _ => Draw.failsLate_pure _

/-- Shares of a key that was made live modulo a positive number, so dealing them is not refused. -/
theorem ofKeyPair_failsLate {s : SafePrimePair} {w l : ℕ} {k : KeyPair}
    (hk : s.keyPair w l = .ok k) : (ofKeyPair k).FailsLate :=
  (PrivateKey.deal_failsLate (SafePrimePair.nm_pos_of_keyPair hk)
    (PrivateKey.IsObtainable.made hk).l_lt).bind fun _ => Draw.failsLate_pure _

theorem generate_sparesSource {isPrime : ℕ → Bool} (hexact : IsExact isPrime) (c : KeyParameters) :
    (generate isPrime c).SparesSource := by
  refine (c.generate_sparesSource hexact).bind (c.generate_ends_keyPair isPrime) ?_
  rintro k ⟨s, hk⟩
  exact ofKeyPair_failsLate hk

end ThresholdSystem

/-! ### Encryption -/

theorem PublicKey.rerandomize_sparesSource (pk : PublicKey) (c : ℤ) :
    (pk.rerandomize c).SparesSource := by
  refine Draw.sparesSource_lift_bind fun x _ => ?_
  have hunit := drawUnit_failsLate (Nat.lt_of_succ_lt pk.two_lt_n)
  exact (hunit.bind fun r => Draw.failsLate_pure _).sparesSource

/-! ### All operations -/

/-- **No operation that refuses a request has drawn a word.**  Whatever the source and the
arguments, a failure leaves the source as it was, unless a search has run out of attempts, the slots
do not fit into memory or a sampler has lost its patience; the private key may be an erased one.
Encryption refuses nothing at all: it answers with a ciphertext of the plaintext, unless it has read
as many numbers as there is patience for and none of them was a unit. -/
theorem refusals_spare_source {isPrime : ℕ → Bool} (hexact : IsExact isPrime) :
    (∀ n : ℤ, (drawBelow n).SparesSource) ∧
    (∀ n : ℤ, (drawUnit n).SparesSource) ∧
    (∀ bits attempts, (drawSafePrime isPrime bits attempts).SparesSource) ∧
    (∀ c : KeyParameters, (c.generate isPrime).SparesSource) ∧
    (∀ sk : PrivateKey, sk.IsObtainable →
      (SharingPolynomial.draw sk).SparesSource ∧ sk.deal.SparesSource ∧
      ∀ pk, (ThresholdSystem.ofKeyPair ⟨pk, sk⟩).SparesSource) ∧
    (∀ c : KeyParameters, (ThresholdSystem.generate isPrime c).SparesSource) ∧
    ∀ pk : PublicKey,
      (∀ m, (pk.encrypt m).SparesSource ∧
        Draw.Delivers (Source.OutOfUnits pk.n) (pk.encrypt m) (pk.Holds m)) ∧
      ∀ c, (pk.rerandomize c).SparesSource := by
  refine ⟨drawBelow_sparesSource, drawUnit_sparesSource, drawSafePrime_sparesSource hexact,
    KeyParameters.generate_sparesSource hexact, ?_,
    ThresholdSystem.generate_sparesSource hexact, ?_⟩
  · intro sk hsk
    exact ⟨sk.sharing_sparesSource, PrivateKey.deal_sparesSource hsk.l_lt,
      fun _ => ThresholdSystem.ofKeyPair_sparesSource hsk.l_lt⟩
  · intro pk
    refine ⟨?_, pk.rerandomize_sparesSource⟩
    intro m
    have hencrypt : Draw.Delivers (Source.OutOfUnits pk.n) (pk.encrypt m) (pk.Holds m) :=
      PublicKey.holds_encrypt m
    exact ⟨hencrypt.failsLate.sparesSource, hencrypt⟩

/-- An erased key for two of three authorities is refused, and the source is as it was; in one
attempt a search can fail after two words.  Under the public key everything can be encrypted; if all
words are ones, it takes one of them. -/
theorem refusals_spare_source_erased :
    (∀ s, KeyPair.smallest.privateKey.erase.deal.run.run s = (.error (.violation .emptyRange), s)) ∧
    KeyPair.smallest.privateKey.erase.deal.SparesSource ∧
    ((KeyParameters.shortest 1).generate fun n => decide n.Prime).run.run KeyParameters.repeating =
      (.error (.primesNotFound 1), KeyParameters.repeating.advance 2) ∧
    ((KeyParameters.shortest 1).generate fun n => decide n.Prime).SparesSource ∧
    ∀ m, ∃ c, (KeyPair.smallest.publicKey.encrypt m).run.run Source.ones =
      (.ok c, Source.ones.advance 1) ∧ KeyPair.smallest.publicKey.Holds m c := by
  have herased : KeyPair.smallest.privateKey.erase.IsObtainable :=
    .erased (.made SafeFactors.keyPair_smallest)
  obtain ⟨-, -, -, hgenerate, hdeal, -, hkey⟩ := refusals_spare_source isExact_decide
  refine ⟨fun _ => rfl, (hdeal _ herased).2.1, KeyParameters.generate_repeating_once,
    hgenerate _, ?_⟩
  intro m
  -- the first word is a unit, so it is the randomness
  obtain ⟨c, hrun⟩ : ∃ c, (KeyPair.smallest.publicKey.encrypt m).run.run Source.ones =
      (.ok c, Source.ones.advance 1) := ⟨_, rfl⟩
  exact ⟨c, hrun, ((hkey KeyPair.smallest.publicKey).1 m).2.of_run_eq_ok hrun⟩

end QuorumPaillier
