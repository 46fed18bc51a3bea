import QuorumPaillier.Key
import QuorumPaillier.Random.Source
import QuorumPaillier.Residue

/-!
# Encryption, and arithmetic under it

The ciphertext of `m` with randomness `r`, a unit modulo `n`, is `r ^ n * (n + 1) ^ m` modulo
`n ^ 2`.  The second factor carries the plaintext, which counts modulo `n` only; the first hides it.

Multiplying ciphertexts adds their plaintexts, multiplying by a carrier adds a known number, and
raising to a power multiplies by a known number.  Every operand is checked to be a ciphertext; in a
sum this includes the running total.  A program is a nested expression of these operations.  It can
be run under a public key, and it can be read on plaintexts.

## Main definitions

* `PublicKey.encryptWith`, `PublicKey.encrypt`, `PublicKey.rerandomize` — encryption, fresh
  randomness.
* `PublicKey.addPlain`, `PublicKey.add`, `PublicKey.scale`, `PublicKey.sum` — the operations.
* `Program`, `Program.plain`, `Program.run` — expressions, their meaning, and what they compute.
-/

namespace QuorumPaillier

open scoped Builtin

namespace PublicKey

/-! ### The two factors of a ciphertext -/

/-- The `n`-th power of `r`, which hides a plaintext. -/
def mask (pk : PublicKey) (r : Nat) : Nat := powMod r pk.n pk.nSquared

/-- The power of the generator that carries the plaintext `m`. -/
def carrier (pk : PublicKey) (m : Int) : Nat :=
  powMod pk.generator (m % pk.n).toNat pk.nSquared

theorem mask_eq (pk : PublicKey) (r : Nat) : pk.mask r = r ^ pk.n % pk.nSquared :=
  powMod_eq r pk.n pk.nSquared

theorem carrier_eq (pk : PublicKey) (m : Int) :
    pk.carrier m = (pk.n + 1) ^ (m % pk.n).toNat % pk.nSquared := by
  rw [carrier, powMod_eq, pk.generator_eq]

/-- Plaintexts count modulo the modulus of the key. -/
theorem carrier_emod (pk : PublicKey) (m : Int) : pk.carrier (m % pk.n) = pk.carrier m := by
  simp only [carrier, Int.emod_emod]

/-! ### Encryption -/

/-- The ciphertext of `m` with the randomness `r`, which has to be a unit between zero and the
modulus.  A negative number counts as zero here, and zero is no unit. -/
def encryptWith (pk : PublicKey) (r m : Int) : Except Error Nat :=
  if isUnitBelow pk.n r.toNat then .ok (pk.mask r.toNat * pk.carrier m % pk.nSquared)
  else .error .invalidRandomness

/-- A ciphertext of `m` with drawn randomness. -/
def encrypt (pk : PublicKey) (m : Int) : Draw Nat := do
  let r ← drawUnit pk.n
  pk.encryptWith r m

theorem encryptWith_natCast (pk : PublicKey) {r : Nat} (h : isUnitBelow pk.n r) (m : Int) :
    pk.encryptWith r m = .ok (pk.mask r * pk.carrier m % pk.nSquared) := by
  simp [encryptWith, h]

/-- Encryption succeeds exactly for randomness that is a unit between zero and the modulus. -/
theorem encryptWith_eq_ok_iff (pk : PublicKey) {r m : Int} {c : Nat} :
    pk.encryptWith r m = .ok c ↔
      isUnitBelow pk.n r.toNat ∧ c = pk.mask r.toNat * pk.carrier m % pk.nSquared := by
  unfold encryptWith
  split
  case isTrue h => simp [h, eq_comm]
  case isFalse h => simp [h]

/-! ### Fresh randomness -/

/-- The ciphertext `x` with its randomness multiplied by `r`. -/
def remask (pk : PublicKey) (x r : Nat) : Nat := x * pk.mask r % pk.nSquared

/-- The ciphertext `c` with its randomness multiplied by a drawn unit. -/
def rerandomize (pk : PublicKey) (c : Int) : Draw Nat := do
  let x ← pk.accept c
  let r ← drawUnit pk.n
  return pk.remask x r

/-- A bad ciphertext is refused before anything is drawn. -/
theorem rerandomize_of_not_accepted (pk : PublicKey) {c : Int} {e : Error}
    (h : pk.accept c = .error e) : pk.rerandomize c = throw e := by
  simp only [rerandomize, h]
  rfl

end PublicKey

/-! ### Arithmetic under encryption -/

namespace PublicKey

/-- A ciphertext of the plaintext of `c` plus `m`. -/
def addPlain (pk : PublicKey) (c m : Int) : Except Error Nat := do
  let x ← pk.accept c
  return x * pk.carrier m % pk.nSquared

/-- A ciphertext of the sum of the plaintexts; the left operand is checked first. -/
def add (pk : PublicKey) (c₁ c₂ : Int) : Except Error Nat := do
  let x ← pk.accept c₁
  let y ← pk.accept c₂
  return x * y % pk.nSquared

/-- A ciphertext of the plaintext of `c` times `k`. -/
def scale (pk : PublicKey) (c k : Int) : Except Error Nat := do
  let x ← pk.accept c
  return powMod x (k % pk.n).toNat pk.nSquared

/-- A ciphertext of the sum of the plaintexts of a list, added up from the left. -/
def sum (pk : PublicKey) : List Int → Except Error Nat
  | [] => .error .noCiphertexts
  | c :: cs => do
      let x ← pk.accept c
      cs.foldlM (fun (total : Nat) c => pk.add total c) x

theorem addPlain_natCast (pk : PublicKey) {x : Nat} (h₀ : 0 < x) (h : x < pk.nSquared) (m : Int) :
    pk.addPlain x m = .ok (x * pk.carrier m % pk.nSquared) := by
  simp only [addPlain, pk.accept_natCast h₀ h]
  rfl

theorem add_natCast (pk : PublicKey) {x y : Nat} (hx₀ : 0 < x) (hx : x < pk.nSquared)
    (hy₀ : 0 < y) (hy : y < pk.nSquared) : pk.add x y = .ok (x * y % pk.nSquared) := by
  simp only [add, pk.accept_natCast hx₀ hx, pk.accept_natCast hy₀ hy]
  rfl

theorem scale_natCast (pk : PublicKey) {x : Nat} (h₀ : 0 < x) (h : x < pk.nSquared) (k : Int) :
    pk.scale x k = .ok (x ^ (k % pk.n).toNat % pk.nSquared) := by
  simp only [scale, pk.accept_natCast h₀ h, ← powMod_eq]
  rfl

@[simp] theorem sum_nil (pk : PublicKey) : pk.sum [] = .error .noCiphertexts := rfl

theorem sum_cons (pk : PublicKey) (c : Int) (cs : List Int) :
    pk.sum (c :: cs) =
      pk.accept c >>= fun x => cs.foldlM (fun (total : Nat) c => pk.add total c) x := rfl

end PublicKey

/-! ### Programs over ciphertexts -/

/-- A nested expression of encryptions and operations on ciphertexts. -/
inductive Program where
  /-- An encryption of `m` with drawn randomness. -/
  | encrypt (m : Int)
  /-- The encryption of `m` with the randomness `r`. -/
  | encryptWith (r m : Int)
  /-- A ciphertext with fresh randomness. -/
  | rerandomize (e : Program)
  /-- A known number added. -/
  | addPlain (e : Program) (m : Int)
  /-- Two ciphertexts added. -/
  | add (e₁ e₂ : Program)
  /-- A multiplication by a known number. -/
  | scale (e : Program) (k : Int)
  /-- The sum of a list. -/
  | sum (es : List Program)

namespace Program

mutual

/-- The integer that a program computes. -/
def plain : Program → Int
  | .encrypt m => m
  | .encryptWith _ m => m
  | .rerandomize e => e.plain
  | .addPlain e m => e.plain + m
  | .add e₁ e₂ => e₁.plain + e₂.plain
  | .scale e k => k * e.plain
  | .sum es => plainSum es

/-- The sum of the integers that programs compute. -/
def plainSum : List Program → Int
  | [] => 0
  | e :: es => e.plain + plainSum es

end

mutual

/-- Whether given randomness is a unit modulo the key and no sum is empty. -/
def IsValid (pk : PublicKey) : Program → Prop
  | .encrypt _ => True
  | .encryptWith r _ => isUnitBelow pk.n r.toNat
  | .rerandomize e => e.IsValid pk
  | .addPlain e _ => e.IsValid pk
  | .add e₁ e₂ => e₁.IsValid pk ∧ e₂.IsValid pk
  | .scale e _ => e.IsValid pk
  | .sum es => es ≠ [] ∧ AreValid pk es

/-- Whether all programs of a list are valid. -/
def AreValid (pk : PublicKey) : List Program → Prop
  | [] => True
  | e :: es => e.IsValid pk ∧ AreValid pk es

end

mutual

/-- The ciphertext that a program computes under a public key; operands are computed from the left
to the right. -/
def run (pk : PublicKey) : Program → Draw Nat
  | .encrypt m => pk.encrypt m
  | .encryptWith r m => pk.encryptWith r m
  | .rerandomize e => do
      let c ← e.run pk
      pk.rerandomize c
  | .addPlain e m => do
      let c ← e.run pk
      pk.addPlain c m
  | .add e₁ e₂ => do
      let c₁ ← e₁.run pk
      let c₂ ← e₂.run pk
      pk.add c₁ c₂
  | .scale e k => do
      let c ← e.run pk
      pk.scale c k
  | .sum es => do
      let cs ← runAll pk es
      pk.sum (cs.map Int.ofNat)

/-- The ciphertexts that programs compute, in their order. -/
def runAll (pk : PublicKey) : List Program → Draw (List Nat)
  | [] => return []
  | e :: es => do
      let c ← e.run pk
      let cs ← runAll pk es
      return c :: cs

end

theorem areValid_iff (pk : PublicKey) (es : List Program) :
    AreValid pk es ↔ ∀ e ∈ es, e.IsValid pk := by
  induction es with
  | nil => simp [AreValid]
  | cons e es ih => simp [AreValid, ih]

end Program

end QuorumPaillier
