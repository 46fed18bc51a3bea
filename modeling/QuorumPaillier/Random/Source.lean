import QuorumPaillier.Basic
import QuorumPaillier.Residue

/-!
# Sources of random words, and samplers

A source is an unending stream of 32-bit words with a place in it.  Reading moves the place and
changes nothing else, so what a computation draws is a function of the stream, and how much it draws
is the difference of two places.

A number below `n` is drawn by drawing as many bits as `n - 1` has and starting over while the
result is too large.  So that this ends, only so many draws are looked at; if all of them are too
large, the last one is reduced.  A unit modulo `n` is drawn by drawing numbers below `n` until one
shares no factor with `n`.  A stream of bad luck could make this go on forever, so a source carries
its *patience*, the number of candidates that are looked at.

## Main definitions

* `Source`, `Draw` — a stream of words with its place, and computations that read one.
* `drawBits`, `drawBelow`, `drawUnit` — the samplers of bits, of numbers below a bound, and of
  units.

## Main results

* `Draw.run_bind_eq_ok_iff` — two computations in a row answer exactly if both of them do.
-/

namespace QuorumPaillier

open scoped Builtin

/-! ### Sources -/

/-- A stream of random words, the number of words already read, and the number of candidates the
sampler of units looks at before it gives up. -/
structure Source where
  /-- The word at each place. -/
  word : Nat → UInt32
  /-- The number of words read so far. -/
  place : Nat
  /-- The number of candidates for a unit that are looked at. -/
  patience : Nat

/-- The number that the `k` words from place `i` on form, the first of them least significant. -/
def wordsFrom (word : Nat → UInt32) : Nat → Nat → Nat
  | 0, _ => 0
  | k + 1, i => (word i).toNat + 2 ^ (32 : Nat) * wordsFrom word k (i + 1)

/-- The number that the next `k` words form, the first of them least significant. -/
def Source.peek (s : Source) (k : Nat) : Nat := wordsFrom s.word k s.place

/-- The source after `k` more words have been read. -/
def Source.advance (s : Source) (k : Nat) : Source := { s with place := s.place + k }

@[simp] theorem Source.advance_word (s : Source) (k : Nat) : (s.advance k).word = s.word := rfl

@[simp] theorem Source.advance_place (s : Source) (k : Nat) :
    (s.advance k).place = s.place + k := rfl

@[simp] theorem Source.advance_patience (s : Source) (k : Nat) :
    (s.advance k).patience = s.patience := rfl

@[simp] theorem Source.advance_zero (s : Source) : s.advance 0 = s := rfl

@[simp] theorem Source.advance_advance (s : Source) (j k : Nat) :
    (s.advance j).advance k = s.advance (j + k) := by
  simp [Source.advance, Nat.add_assoc]

theorem wordsFrom_lt (word : Nat → UInt32) (k i : Nat) : wordsFrom word k i < 2 ^ (32 * k) := by
  induction k generalizing i with
  | zero => exact Nat.one_pos
  | succ k ih =>
    have hw := (word i).toNat_lt
    have hr := ih (i + 1)
    have hp : 2 ^ (32 * (k + 1)) = 2 ^ 32 * 2 ^ (32 * k) := by
      rw [← Nat.pow_add]; congr 1; omega
    rw [hp]
    simp only [wordsFrom]
    omega

/-- The next `k` words form a number below `2 ^ (32 * k)`. -/
theorem Source.peek_lt (s : Source) (k : Nat) : s.peek k < 2 ^ (32 * k) :=
  wordsFrom_lt s.word k s.place

/-! ### Draws -/

/-- A computation that reads a source and answers or fails; the words that it has read are gone in
both cases. -/
abbrev Draw (α : Type) := ExceptT Error (StateM Source) α

namespace Draw

variable {α β : Type} {x : Draw α} {f : α → Draw β} {s s' : Source}

/-- The next step goes on with the answer and with what is left of the source. -/
theorem run_bind_of_ok {a : α} (h : x.run.run s = (.ok a, s')) :
    (x >>= f).run.run s = (f a).run.run s' := by
  rw [ExceptT.run_bind, StateT.run_bind, h]
  rfl

/-- A failure ends the computation. -/
theorem run_bind_of_error {e : Error} (h : x.run.run s = (.error e, s')) :
    (x >>= f).run.run s = (.error e, s') := by
  rw [ExceptT.run_bind, StateT.run_bind, h]
  rfl

/-- Two computations in a row answer exactly if the first one does and then the second one. -/
theorem run_bind_eq_ok_iff {b : β} :
    (x >>= f).run.run s = (.ok b, s') ↔
      ∃ a m, x.run.run s = (.ok a, m) ∧ (f a).run.run m = (.ok b, s') := by
  constructor
  · intro h
    rcases hx : x.run.run s with ⟨out, m⟩
    cases out with
    | ok a =>
      rw [run_bind_of_ok hx] at h
      exact ⟨a, m, rfl, h⟩
    | error e =>
      rw [run_bind_of_error hx] at h
      cases h
  · rintro ⟨a, m, hx, hf⟩
    rw [run_bind_of_ok hx, hf]

end Draw

/-- The number of words that a draw of `k` bits takes. -/
def wordCount (k : Nat) : Nat := (k + 31) / 32

@[simp] theorem wordCount_zero : wordCount 0 = 0 := rfl

/-- A number of `k` random bits.  It takes whole words and drops the bits that are too many. -/
def drawBits (k : Nat) : Draw Nat := do
  let s ← get
  set (s.advance (wordCount k))
  return s.peek (wordCount k) % 2 ^ k

/-- The value and the effect of a draw of `k` bits. -/
theorem drawBits_run (k : Nat) (s : Source) :
    (drawBits k).run.run s = (.ok (s.peek (wordCount k) % 2 ^ k), s.advance (wordCount k)) := rfl

/-- The answers of `k` draws in a row; the first failure is the answer. -/
def drawList {α : Type} (draw : Draw α) : Nat → Draw (List α)
  | 0 => return []
  | k + 1 => do
      let x ← draw
      let xs ← drawList draw k
      return x :: xs

/-! ### Binary length -/

/-- The number of binary digits of `n`; zero has none. -/
def bitLength (n : Nat) : Nat := if n = 0 then 0 else n.log2 + 1

@[simp] theorem bitLength_zero : bitLength 0 = 0 := rfl

theorem lt_two_pow_bitLength (n : Nat) : n < 2 ^ bitLength n := by
  unfold bitLength
  split
  · subst n; exact Nat.one_pos
  · exact Nat.lt_log2_self

theorem two_pow_le_of_bitLength_eq {n k : Nat} (h : bitLength n = k + 1) : 2 ^ k ≤ n := by
  unfold bitLength at h
  split at h
  · omega
  case isFalse hn =>
    obtain rfl : k = n.log2 := by omega
    exact Nat.log2_self_le hn

/-! ### Numbers below a bound -/

/-- The number of bits that are drawn for a number below `n`. -/
def drawWidth (n : Nat) : Nat := bitLength (n - 1)

theorem lt_two_pow_drawWidth {n x : Nat} (h : x < n) : x < 2 ^ drawWidth n := by
  have hlast := lt_two_pow_bitLength (n - 1)
  rw [drawWidth]
  omega

/-- One bit less is not enough, so the numbers below `n` are at least half of what can be drawn. -/
theorem two_pow_drawWidth_le {n : Nat} (h : 1 ≤ n) : 2 ^ drawWidth n ≤ 2 * n := by
  rcases hk : drawWidth n with _ | k
  · omega
  · have hle := two_pow_le_of_bitLength_eq hk
    rw [Nat.pow_succ]
    omega

/-- How many draws are looked at when a number below a bound is sampled. -/
def drawLimit : Nat := 80

/-- The first number of `k` bits below `n` among the next `t + 1` draws; if there is none, the last
of these draws less `n`. -/
def firstBelow (n k : Nat) : Nat → Draw Nat
  | 0 => do
      let x ← drawBits k
      return if x < n then x else x - n
  | t + 1 => do
      let x ← drawBits k
      if x < n then return x else firstBelow n k t

/-- A number below `n`. -/
def drawBelow (n : Int) : Draw Nat :=
  if n ≤ 0 then throw (.violation .emptyRange)
  else firstBelow n.toNat (drawWidth n.toNat) (drawLimit - 1)

/-- An empty range is refused before anything is drawn. -/
theorem drawBelow_of_le_zero {n : Int} (h : n ≤ 0) :
    drawBelow n = throw (.violation .emptyRange) := by
  simp [drawBelow, h]

/-! ### Units -/

/-- Whether `x` is one of the units modulo `n` that lie strictly between zero and `n`. -/
def isUnitBelow (n x : Nat) : Bool := 0 < x && x < n && x.gcd n = 1

theorem isUnitBelow_iff {n x : Nat} :
    isUnitBelow n x = true ↔ 0 < x ∧ x < n ∧ x.Coprime n := by
  simp only [isUnitBelow, Bool.and_eq_true, decide_eq_true_eq, and_assoc, Nat.Coprime]

theorem lt_of_isUnitBelow {n x : Nat} (h : isUnitBelow n x = true) : x < n :=
  (isUnitBelow_iff.mp h).2.1

/-- The first unit modulo `n` among `t` numbers sampled below `n`. -/
def firstUnit (n : Nat) : Nat → Draw Nat
  | 0 => throw .drawsExhausted
  | t + 1 => do
      let x ← drawBelow n
      if x ≠ 0 ∧ x.gcd n = 1 then return x else firstUnit n t

/-- A unit modulo `n`, between zero and `n`, found as long as the patience of the source lasts. -/
def drawUnit (n : Int) : Draw Nat :=
  if n ≤ 1 then throw (.violation .groupModulusTooSmall)
  else do firstUnit n.toNat (← get).patience

/-- A modulus below two is refused before anything is drawn. -/
theorem drawUnit_of_le_one {n : Int} (h : n ≤ 1) :
    drawUnit n = throw (.violation .groupModulusTooSmall) := by
  simp [drawUnit, h]

end QuorumPaillier
