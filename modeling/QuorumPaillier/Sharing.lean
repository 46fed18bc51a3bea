import QuorumPaillier.Basic
import QuorumPaillier.Key
import QuorumPaillier.Random.Source
import QuorumPaillier.Residue

/-!
# Sharing the exponent

The decryption exponent is shared as the constant coefficient of a polynomial of degree `w - 1`
modulo `n * p' * q'`, whose other coefficients are drawn at random.  The authority at position `i`,
counted from zero, gets the value at the point `i + 1`, so no authority gets the constant
coefficient itself.  Its partial decryption of a ciphertext `c` is `c ^ (2 * l! * secret)` modulo
`n ^ 2`, which it publishes under its index; indices count from one.

## Main definitions

* `SharingPolynomial`, `SharingPolynomial.draw`, `SharingPolynomial.value` — the polynomials.
* `AuthorityShare`, `AuthorityShare.decrypt`, `PartialDecryption` — shares and what they publish.
* `PrivateKey.deal` — the shares of a private key.
-/

namespace QuorumPaillier

open scoped Builtin

/-! ### The sharing polynomial -/

/-- A polynomial modulo a number, given by its coefficients, the constant one first. -/
structure SharingPolynomial where
  /-- The coefficients, the constant one first. -/
  coefficients : List Nat
  /-- The modulus. -/
  modulus : Nat
  deriving DecidableEq, Repr

/-- The sum of the terms `a * x ^ k` for the coefficients from the `k`-th on. -/
def powerSumFrom (x : Nat) : Nat → List Nat → Nat
  | _, [] => 0
  | k, a :: as => a * x ^ k + powerSumFrom x (k + 1) as

/-- The value of a polynomial at `x` as the sum of its terms. -/
def powerSum (coefficients : List Nat) (x : Nat) : Nat := powerSumFrom x 0 coefficients

theorem powerSumFrom_succ (x k : Nat) (as : List Nat) :
    powerSumFrom x (k + 1) as = powerSumFrom x k as * x := by
  induction as generalizing k with
  | nil => simp [powerSumFrom]
  | cons a as ih => rw [powerSumFrom, powerSumFrom, ih, Nat.pow_succ, Nat.add_mul, Nat.mul_assoc]

@[simp] theorem powerSum_nil (x : Nat) : powerSum [] x = 0 := rfl

theorem powerSum_cons (a : Nat) (as : List Nat) (x : Nat) :
    powerSum (a :: as) x = powerSum as x * x + a := by
  rw [powerSum, powerSumFrom, powerSumFrom_succ, powerSum, Nat.pow_zero, Nat.mul_one, Nat.add_comm]

namespace SharingPolynomial

/-- A polynomial with the decryption exponent as constant coefficient and random others. -/
def draw (sk : PrivateKey) : Draw SharingPolynomial := do
  let drawn ← drawList (drawBelow sk.nm) (sk.w - 1)
  return ⟨sk.d :: drawn, sk.nm⟩

/-- The degree that the number of coefficients allows. -/
def degree (f : SharingPolynomial) : Nat := f.coefficients.length - 1

/-- The value at the point `x`, by nested multiplication with a reduction after every step.  Modulo
zero nothing is reduced. -/
def value (f : SharingPolynomial) (x : Nat) : Nat :=
  f.coefficients.foldr (fun a rest => (rest * x + a) % f.modulus) 0

/-- The value for the authority at a position, which is the value at the next point.  Modulo zero
there is none. -/
def valueAt? (f : SharingPolynomial) (position : Nat) : Except Error Nat :=
  if f.modulus = 0 then .error (.fault .divisionByZero) else .ok (f.value (position + 1))

/-- The polynomial after erasure. -/
def erase (f : SharingPolynomial) : SharingPolynomial :=
  ⟨eraseAll f.coefficients, 0⟩

/-- **Nested multiplication computes the sum of the terms.** -/
theorem value_eq_powerSum_mod (f : SharingPolynomial) (x : Nat) :
    f.value x = powerSum f.coefficients x % f.modulus := by
  obtain ⟨as, m⟩ := f
  simp only [value]
  induction as with
  | nil => simp
  | cons a as ih =>
    rw [List.foldr_cons, ih, powerSum_cons, Nat.add_mod, Nat.mod_mul_mod, ← Nat.add_mod]

theorem value_lt (f : SharingPolynomial) (h : 0 < f.modulus) (x : Nat) :
    f.value x < f.modulus := by
  rw [value_eq_powerSum_mod]; exact Nat.mod_lt _ h

theorem valueAt?_of_pos (f : SharingPolynomial) (h : 0 < f.modulus) (position : Nat) :
    f.valueAt? position = .ok (f.value (position + 1)) := by
  simp [valueAt?, Nat.ne_of_gt h]

end SharingPolynomial

/-! ### Shares and partial decryptions -/

/-- The secret of one authority. -/
structure AuthorityShare where
  /-- The index of the authority, counted from one. -/
  index : Nat
  /-- The share of the decryption exponent. -/
  secret : Int
  deriving DecidableEq, Repr

/-- What an authority publishes about a ciphertext. -/
structure PartialDecryption where
  /-- The index of the authority, counted from one. -/
  index : Nat
  /-- The published value. -/
  value : Int
  deriving DecidableEq, Repr

namespace AuthorityShare

/-- The share of the authority at a position. -/
def ofPosition (position : Nat) (secret : Int) : Except Error AuthorityShare := do
  return ⟨← nextCount position, secret⟩

/-- The exponent of a partial decryption. -/
def exponent (s : AuthorityShare) (pk : PublicKey) : Int := 2 * pk.delta * s.secret

/-- The partial decryption of a ciphertext; the ciphertext is checked before the secret is used. -/
def decrypt (s : AuthorityShare) (pk : PublicKey) (c : Int) : Except Error PartialDecryption := do
  let x ← pk.accept c
  if s.exponent pk < 0 then throw (.fault .negativeExponent)
  return ⟨s.index, powMod x (s.exponent pk).toNat pk.nSquared⟩

/-- The share after erasure: the secret is zero, the index is public and stays. -/
def erase (s : AuthorityShare) : AuthorityShare := ⟨s.index, 0⟩

theorem ofPosition_of_lt {position : Nat} (h : position + 1 < wordBound) (secret : Int) :
    ofPosition position secret = .ok ⟨position + 1, secret⟩ := by
  simp only [ofPosition, nextCount_of_lt h]
  rfl

/-- The partial decryption of a ciphertext with a share that is not negative. -/
theorem decrypt_natCast (pk : PublicKey) (i s : Nat) {x : Nat} (h₀ : 0 < x)
    (h : x < pk.nSquared) :
    (⟨i, s⟩ : AuthorityShare).decrypt pk x =
      .ok ⟨i, (x ^ (2 * pk.delta * s) % pk.nSquared : Nat)⟩ := by
  have he : (⟨i, s⟩ : AuthorityShare).exponent pk = ((2 * pk.delta * s : Nat) : Int) := by
    simp [exponent]
  have hn : ¬((2 * pk.delta * s : Nat) : Int) < 0 := by omega
  simp only [decrypt, pk.accept_natCast h₀ h, he, hn, if_false, Int.toNat_natCast, powMod_eq]
  rfl

end AuthorityShare

/-! ### Dealing -/

/-- The share of the authority at a position. -/
def SharingPolynomial.share (f : SharingPolynomial) (position : Nat) :
    Except Error AuthorityShare := do
  let y ← f.valueAt? position
  AuthorityShare.ofPosition position y

/-- The shares of `l` authorities. -/
def SharingPolynomial.shares (f : SharingPolynomial) (l : Nat) :
    Except Error (List AuthorityShare) :=
  (List.range l).mapM f.share

/-- The shares of a private key, one for each authority. -/
def PrivateKey.deal (sk : PrivateKey) : Draw (List AuthorityShare) := do
  let f ← SharingPolynomial.draw sk
  f.shares sk.l

/-- The share of an authority is the value at its index. -/
theorem SharingPolynomial.share_of_lt (f : SharingPolynomial) (h : 0 < f.modulus)
    {position : Nat} (hp : position + 1 < wordBound) :
    f.share position = .ok ⟨position + 1, f.value (position + 1)⟩ := by
  simp only [share, f.valueAt?_of_pos h]
  exact AuthorityShare.ofPosition_of_lt hp _

end QuorumPaillier
