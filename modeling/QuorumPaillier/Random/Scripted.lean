import QuorumPaillier.Random.Source

/-!
# Sources with given words

A scripted source gives a list of words first and the words of a linear congruential generator after
them.  The generator replaces its 64-bit state `x` by `a * x + c` and gives the upper half of the
new state; steps of this kind compose, so the state after `k` steps is reached by repeated doubling.

A list of numbers of `k` bits determines a source whose draws of `k` bits are those numbers.  With
it a statement about all sources of a kind becomes a statement about all lists of draws.

## Main definitions

* `Source.scripted`, `Source.ofDraws` — the source that gives listed words, and listed draws.
-/

namespace QuorumPaillier

open scoped Builtin

/-! ### Words of a generator -/

/-- The map `x ↦ mul * x + add` on 64-bit words. -/
structure Affine where
  /-- The factor. -/
  mul : UInt64
  /-- The summand. -/
  add : UInt64
  deriving DecidableEq, Repr

/-- The value of an affine map. -/
def Affine.apply (f : Affine) (x : UInt64) : UInt64 := f.mul * x + f.add

/-- First `f`, then `g`. -/
def Affine.andThen (f g : Affine) : Affine := ⟨g.mul * f.mul, g.mul * f.add + g.add⟩

theorem Affine.apply_andThen (f g : Affine) (x : UInt64) :
    (f.andThen g).apply x = g.apply (f.apply x) := by
  simp only [Affine.apply, Affine.andThen, UInt64.mul_add, UInt64.mul_assoc, UInt64.add_assoc]

/-- The map that applies `f` `k` times. -/
def Affine.iterate (f : Affine) (k : Nat) : Affine :=
  if k = 0 then ⟨1, 0⟩
  else
    let half := f.iterate (k / 2)
    if k % 2 = 1 then (half.andThen half).andThen f else half.andThen half
termination_by k
decreasing_by omega

/-- The step of the generator. -/
def generatorStep : Affine := ⟨6364136223846793005, 1442695040888963407⟩

/-- The word at place `i` of the generator started at `seed`. -/
def generatorWord (seed : UInt64) (i : Nat) : UInt32 :=
  (((generatorStep.iterate (i + 1)).apply seed) >>> 32).toUInt32

/-- The source of the listed words followed by those of the generator started at `seed`. -/
def Source.scripted (words : Array UInt32) (seed : UInt64) (patience : Nat) : Source where
  word i := if h : i < words.size then words[i] else generatorWord seed (i - words.size)
  place := 0
  patience := patience

/-! ### Sources made from draws -/

/-- The word at place `i` of draws of `k` bits; zeros follow the last draw, and draws of no bits
take no words. -/
def drawnWord (k : Nat) (draws : List Nat) (i : Nat) : UInt32 :=
  (draws.getD (i / wordCount k) 0 / 2 ^ (32 * (i % wordCount k))).toUInt32

/-- The source whose draws of `k` bits are the given numbers, with the patience to look at each of
them once. -/
def Source.ofDraws (k : Nat) (draws : List Nat) : Source :=
  ⟨drawnWord k draws, 0, draws.length⟩

theorem wordCount_pos {k : Nat} (h : 0 < k) : 0 < wordCount k := by
  unfold wordCount; omega

theorem le_mul_wordCount (k : Nat) : k ≤ 32 * wordCount k := by
  unfold wordCount; omega

/-- The words of one draw, from the `a`-th of them on, form what is left of the draw. -/
theorem wordsFrom_drawnWord (k : Nat) (draws : List Nat) (j : Nat) {a m : Nat}
    (h : a + m = wordCount k) :
    wordsFrom (drawnWord k draws) m (j * wordCount k + a) =
      draws.getD j 0 / 2 ^ (32 * a) % 2 ^ (32 * m) := by
  induction m generalizing a with
  | zero => simp [wordsFrom, Nat.mod_one]
  | succ m ih =>
    have hq : (j * wordCount k + a) / wordCount k = j := by
      rw [Nat.mul_comm, Nat.mul_add_div (by omega), Nat.div_eq_of_lt (by omega), Nat.add_zero]
    have hr : (j * wordCount k + a) % wordCount k = a := by
      rw [Nat.mul_comm, Nat.mul_add_mod, Nat.mod_eq_of_lt (by omega)]
    have hw : (drawnWord k draws (j * wordCount k + a)).toNat =
        draws.getD j 0 / 2 ^ (32 * a) % 2 ^ 32 := by
      simp only [drawnWord, hq, hr, Nat.toUInt32_eq, UInt32.toNat_ofNat']
    have hn : draws.getD j 0 / 2 ^ (32 * (a + 1)) =
        draws.getD j 0 / 2 ^ (32 * a) / 2 ^ 32 := by
      rw [Nat.div_div_eq_div_mul, ← Nat.pow_add]; congr 2
    have hm : 2 ^ (32 * (m + 1)) = 2 ^ 32 * 2 ^ (32 * m) := by
      rw [← Nat.pow_add]; congr 1; omega
    rw [wordsFrom, hw, Nat.add_assoc, ih (by omega), hn, hm, Nat.mod_mul]

/-- The draws of the source are the given numbers. -/
theorem Source.peek_ofDraws {k : Nat} {draws : List Nat} {j : Nat}
    (h : draws.getD j 0 < 2 ^ k) :
    ((Source.ofDraws k draws).advance (j * wordCount k)).peek (wordCount k) % 2 ^ k =
      draws.getD j 0 := by
  have hp := wordsFrom_drawnWord k draws j (Nat.zero_add (wordCount k))
  have hl : 2 ^ k ≤ 2 ^ (32 * wordCount k) :=
    Nat.pow_le_pow_right Nat.two_pos (le_mul_wordCount k)
  simp only [Source.peek, Source.ofDraws, Source.advance, Nat.zero_add, Nat.add_zero,
    Nat.mul_zero, Nat.pow_zero, Nat.div_one] at hp ⊢
  rw [hp, Nat.mod_eq_of_lt (Nat.lt_of_lt_of_le h hl), Nat.mod_eq_of_lt h]

end QuorumPaillier
