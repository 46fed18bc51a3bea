import QuorumPaillier.Key
import QuorumPaillier.Residue
import QuorumPaillier.Sharing

/-!
# Combining partial decryptions

The value at zero of a polynomial is a weighted sum of its values at the members of a set of
indices.  The weight of a member `i` is the product of `j / (j - i)` over the other members `j`;
multiplied by the factorial of the number of authorities it is an integer, computed as a magnitude
and a sign.

The partial decryptions of at least `w` authorities are each raised to twice the weight of their
index; the product is `c ^ (4 * l!² * d)`, from which the decoder reads `4 * l!²` times the
plaintext, and that factor is divided out.  Partial decryptions come from other parties, so
everything about them is checked: first the indices, in the order of the list; then the list is
sorted, and from there on its order does not matter.

## Main definitions

* `Weight`, `interpolationWeight` — magnitudes with signs, and the weight of a member.
* `indexError?`, `sortByIndex`, `PublicKey.contribution` — the check, the order, and the factors.
* `PublicKey.combine`, `PublicKey.combineDense` — the plaintext from a list of partial decryptions,
  and from one value per authority with zeros for those that are absent.
-/

namespace QuorumPaillier

/-! ### Interpolation weights -/

/-- The distance of two numbers. -/
def distance (i j : Nat) : Nat := (i - j) + (j - i)

/-- An integer as its magnitude and its sign. -/
structure Weight where
  /-- The magnitude. -/
  magnitude : Nat
  /-- Whether the sign is negative. -/
  negative : Bool
  deriving DecidableEq, Repr

namespace Weight

/-- The integer that a weight stands for. -/
def toInt (t : Weight) : Int := if t.negative then -t.magnitude else t.magnitude

/-- What the member `j` does to the weight of the member `i`. -/
def step (i : Nat) (t : Weight) (j : Nat) : Weight :=
  ⟨t.magnitude / distance j i * j, if j < i then !t.negative else t.negative⟩

@[simp] theorem step_magnitude (i : Nat) (t : Weight) (j : Nat) :
    (t.step i j).magnitude = t.magnitude / distance j i * j := rfl

@[simp] theorem step_negative (i : Nat) (t : Weight) (j : Nat) :
    (t.step i j).negative = if j < i then !t.negative else t.negative := rfl

end Weight

/-- The weight of the member `i` of a set of indices, multiplied by `delta`. -/
def interpolationWeight (delta : Nat) (indices : List Nat) (i : Nat) : Weight :=
  (indices.filter (· != i)).foldl (Weight.step i) ⟨delta, false⟩

theorem negative_foldl_step (i : Nat) (js : List Nat) (t : Weight) :
    (js.foldl (Weight.step i) t).negative = (t.negative ^^ (js.countP (· < i) % 2 = 1)) := by
  induction js generalizing t with
  | nil => simp
  | cons j js ih =>
    rw [List.foldl_cons, ih, Weight.step_negative, List.countP_cons]
    by_cases h : j < i
    · rcases Nat.mod_two_eq_zero_or_one (js.countP (· < i)) with hc | hc <;>
        cases t.negative <;> simp [h, hc] <;> omega
    · simp [h]

/-- **The sign of a weight is negative exactly if an odd number of members lie below.** -/
theorem interpolationWeight_negative (delta : Nat) (indices : List Nat) (i : Nat) :
    (interpolationWeight delta indices i).negative =
      decide (indices.countP (· < i) % 2 = 1) := by
  rw [interpolationWeight, negative_foldl_step, List.countP_filter, Bool.false_xor]
  congr 3
  refine List.countP_congr fun j _ => ?_
  simp only [Bool.and_eq_true, decide_eq_true_eq, bne_iff_ne]
  omega

/-! ### Indices -/

/-- The first index of a list that is not among `1, …, l` or already among those seen. -/
def indexError? (l : Nat) : List Nat → List Nat → Option Error
  | _, [] => none
  | seen, i :: is =>
      if i = 0 ∨ l < i then some (.indexOutOfRange i l)
      else if i ∈ seen then some (.repeatedIndex i)
      else indexError? l (i :: seen) is

/-- A list of partial decryptions in ascending order of the indices. -/
def sortByIndex (shares : List PartialDecryption) : List PartialDecryption :=
  shares.mergeSort fun s t => s.index ≤ t.index

/-- The partial decryptions in a list with one value for each index from `i` on, where zero stands
for an absent authority. -/
def presentFrom : Nat → List Int → List PartialDecryption
  | _, [] => []
  | i, v :: vs => if v = 0 then presentFrom (i + 1) vs else ⟨i, v⟩ :: presentFrom (i + 1) vs

theorem sortByIndex_perm (shares : List PartialDecryption) : (sortByIndex shares).Perm shares :=
  List.mergeSort_perm shares _

@[simp] theorem length_sortByIndex (shares : List PartialDecryption) :
    (sortByIndex shares).length = shares.length :=
  (sortByIndex_perm shares).length_eq

/-- No index error means that all indices are in range, differ, and were not seen before. -/
theorem indexError?_eq_none_iff {l : Nat} {seen is : List Nat} :
    indexError? l seen is = none ↔
      (∀ i ∈ is, 1 ≤ i ∧ i ≤ l) ∧ is.Nodup ∧ ∀ i ∈ is, i ∉ seen := by
  induction is generalizing seen with
  | nil => simp [indexError?]
  | cons i is ih =>
    simp only [indexError?, List.mem_cons, List.nodup_cons, forall_eq_or_imp]
    split
    case isTrue h => simp only [reduceCtorEq, false_iff]; omega
    case isFalse h =>
      split
      case isTrue hs => simp only [reduceCtorEq, false_iff]; exact fun h' => h'.2.2.1 hs
      case isFalse hs =>
        rw [ih]
        have hi : 1 ≤ i ∧ i ≤ l := by omega
        constructor
        · rintro ⟨h₁, h₂, h₃⟩
          refine ⟨⟨hi, h₁⟩, ⟨fun hm => h₃ i hm (by simp), h₂⟩, hs, fun j hj hjs => ?_⟩
          exact h₃ j hj (List.mem_cons_of_mem i hjs)
        · rintro ⟨⟨-, h₁⟩, ⟨hn, h₂⟩, -, h₃⟩
          refine ⟨h₁, h₂, fun j hj hjs => ?_⟩
          rcases List.mem_cons.mp hjs with rfl | hjs
          · exact hn hj
          · exact h₃ j hj hjs

namespace PublicKey

/-! ### Contributions -/

/-- The factor that one partial decryption contributes, given all participating indices: its value
raised to twice its weight, inverted if the weight is negative. -/
def contribution (pk : PublicKey) (indices : List Nat) (s : PartialDecryption) :
    Except Error Nat := do
  let x ← pk.accept s.value
  let weight := interpolationWeight pk.delta indices s.index
  let t := powMod x (2 * weight.magnitude) pk.nSquared
  if weight.negative then
    match inverse? t pk.nSquared with
    | some u => return u
    | none => throw (.shareNotInvertible s.index)
  else return t

/-- The product of the contributions of partial decryptions, in the order of the list. -/
def contributions (pk : PublicKey) (shares : List PartialDecryption) : Except Error Nat :=
  shares.foldlM
    (fun product s => do
      let t ← pk.contribution (shares.map (·.index)) s
      return product * t % pk.nSquared)
    1

/-! ### Combination -/

/-- The plaintext that the decoder reads from a product of contributions, after the factor
`4 * l!²` has been divided out. -/
def normalize (pk : PublicKey) (product : Nat) : Except Error Nat :=
  match inverse? (4 * pk.delta * pk.delta) pk.n with
  | some u => .ok (decode product pk.n * u % pk.n).toNat
  | none => .error .normalizerNotInvertible

/-- The plaintext from partial decryptions in ascending order of their indices. -/
def combineSorted (pk : PublicKey) (shares : List PartialDecryption) : Except Error Nat := do
  if shares.length < pk.w then throw (.insufficientShares shares.length pk.w)
  let product ← pk.contributions shares
  pk.normalize product

/-- The plaintext from the partial decryptions of at least `w` authorities, in any order. -/
def combine (pk : PublicKey) (shares : List PartialDecryption) : Except Error Nat :=
  match indexError? pk.l [] (shares.map (·.index)) with
  | some e => .error e
  | none => pk.combineSorted (sortByIndex shares)

/-- The plaintext from one value for each authority, with zeros for those that are absent. -/
def combineDense (pk : PublicKey) (values : List Int) : Except Error Nat :=
  if values.length ≠ pk.l then .error (.wrongSlotCount pk.l values.length)
  else pk.combineSorted (presentFrom 1 values)

/-- A bad index decides the answer. -/
theorem combine_of_indexError (pk : PublicKey) {shares : List PartialDecryption} {e : Error}
    (h : indexError? pk.l [] (shares.map (·.index)) = some e) : pk.combine shares = .error e := by
  simp only [combine, h]

/-- A list of the wrong length is refused. -/
theorem combineDense_of_length_ne (pk : PublicKey) {values : List Int}
    (h : values.length ≠ pk.l) :
    pk.combineDense values = .error (.wrongSlotCount pk.l values.length) := by
  simp [combineDense, h]

end PublicKey

end QuorumPaillier
