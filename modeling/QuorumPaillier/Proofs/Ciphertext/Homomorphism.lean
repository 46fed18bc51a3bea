import Mathlib.Tactic
import QuorumPaillier.Ciphertext.Arithmetic
import QuorumPaillier.Proofs.Random.Sampling
import QuorumPaillier.Proofs.Residue

/-!
# Operations on ciphertexts

Modulo `n * n` the ciphertext of `m` with randomness `r` is `r ^ n * (1 + m * n)`.  In this form the
operations on ciphertexts are read off: the second factors multiply by adding, the first ones by
multiplying, and both are determined by what `m` and `r` are modulo `n`.  So every operation gives
the encryption of what it means, as a number and not only up to decryption, with randomness that is
a unit again, and no chain of operations leaves the ciphertexts that the next one accepts.  Nothing
is asked of `n` but that it exceeds two.

## Main definitions

* `PublicKey.ciphertext`, `PublicKey.IsEncryption` — the number that is the ciphertext.
* `PublicKey.Holds` — a ciphertext of a given plaintext, under some unit.

## Main results

* `PublicKey.eq_ciphertext_iff` — **what a ciphertext is modulo `n * n`**, which determines it.
* `Program.run_delivers` — **a valid program runs to a ciphertext of what it computes.**
* `PublicKey.isEncryption_operations` — **each operation gives the encryption of what it means, and
  no chain of them fails.**
-/

namespace QuorumPaillier

/-! ### Units between zero and the modulus -/

theorem isUnitBelow_mod {n x : ℕ} (hn : 1 < n) (hx : x.Coprime n) :
    isUnitBelow n (x % n) = true := by
  have hcop := coprime_mod hx
  refine isUnitBelow_iff.mpr ⟨Nat.pos_of_ne_zero ?_, Nat.mod_lt x (by omega), hcop⟩
  intro hzero
  rw [hzero, Nat.coprime_zero_left] at hcop
  omega

namespace PublicKey

variable (pk : PublicKey)

/-- The number that is the ciphertext of `m` with the randomness `r`. -/
def ciphertext (r : ℕ) (m : ℤ) : ℕ := pk.mask r * pk.carrier m % pk.nSquared

theorem encryptWith_eq_ciphertext {r : ℕ} (hr : isUnitBelow pk.n r = true) (m : ℤ) :
    pk.encryptWith r m = .ok (pk.ciphertext r m) := pk.encryptWith_natCast hr m

/-! ### Ciphertexts modulo the square -/

theorem cast_carrier (m : ℤ) : (pk.carrier m : ZMod (pk.n * pk.n)) = 1 + m * pk.n := by
  -- the residue of the plaintext stands in the exponent, and there it becomes a factor
  have hpow := one_add_mul_modulus_pow (n := pk.n) 1 (m % pk.n).toNat
  rw [one_mul, mul_one] at hpow
  rw [carrier_eq, natCast_mod_nSquared, Nat.cast_pow, Nat.cast_add, Nat.cast_one, add_comm,
    hpow, ← Int.cast_natCast (m % pk.n).toNat, natCast_toNat_emod pk.n_pos,
    mul_modulus_congr (Int.mod_modEq m pk.n)]

theorem cast_mask (r : ℕ) : (pk.mask r : ZMod (pk.n * pk.n)) = r ^ pk.n := by
  rw [mask_eq, natCast_mod_nSquared, Nat.cast_pow]

/-- **What a ciphertext is modulo `n * n`.** -/
theorem cast_ciphertext (r : ℕ) (m : ℤ) :
    (pk.ciphertext r m : ZMod (pk.n * pk.n)) = r ^ pk.n * (1 + m * pk.n) := by
  rw [ciphertext, natCast_mod_nSquared, Nat.cast_mul, cast_mask, cast_carrier]

theorem ciphertext_lt (r : ℕ) (m : ℤ) : pk.ciphertext r m < pk.nSquared :=
  Nat.mod_lt _ pk.nSquared_pos

theorem mod_eq_ciphertext {x r : ℕ} {m : ℤ}
    (h : (x : ZMod (pk.n * pk.n)) = r ^ pk.n * (1 + m * pk.n)) :
    x % pk.nSquared = pk.ciphertext r m := by
  rw [← cast_ciphertext, ZMod.natCast_eq_natCast_iff', ← pk.nSquared_eq] at h
  exact h.trans (Nat.mod_eq_of_lt (pk.ciphertext_lt r m))

/-- **A ciphertext is determined by what it is modulo `n * n`.** -/
theorem eq_ciphertext_iff {x r : ℕ} {m : ℤ} (hx : x < pk.nSquared) :
    x = pk.ciphertext r m ↔ (x : ZMod (pk.n * pk.n)) = r ^ pk.n * (1 + m * pk.n) := by
  constructor
  · rintro rfl
    exact pk.cast_ciphertext r m
  · intro h
    rw [← pk.mod_eq_ciphertext h, Nat.mod_eq_of_lt hx]

/-- Modulo `n` the carrier is one, and a power of the randomness is left. -/
theorem ciphertext_modEq (r : ℕ) (m : ℤ) : pk.ciphertext r m ≡ r ^ pk.n [MOD pk.n] := by
  have hcarrier : (pk.n + 1) ^ (m % pk.n).toNat ≡ 1 [MOD pk.n] := by
    have hgen : pk.n + 1 ≡ 1 [MOD pk.n] := Nat.add_modEq_left
    simpa using hgen.pow (m % pk.n).toNat
  have hmod : pk.ciphertext r m ≡ r ^ pk.n * (pk.n + 1) ^ (m % pk.n).toNat [MOD pk.n] := by
    rw [ciphertext, mask_eq, carrier_eq, pk.nSquared_eq, ← Nat.mul_mod]
    exact (Nat.mod_modEq _ _).of_mul_left pk.n
  simpa using hmod.trans (hcarrier.mul_left (r ^ pk.n))

theorem coprime_ciphertext {r : ℕ} (hr : r.Coprime pk.n) (m : ℤ) :
    (pk.ciphertext r m).Coprime pk.n :=
  (pk.ciphertext_modEq r m).gcd_eq.trans (hr.pow_left pk.n)

theorem ciphertext_pos {r : ℕ} (hr : r.Coprime pk.n) (m : ℤ) : 0 < pk.ciphertext r m := by
  refine Nat.pos_of_ne_zero ?_
  intro hzero
  have hcop := pk.coprime_ciphertext hr m
  have htwo := pk.two_lt_n
  rw [hzero, Nat.coprime_zero_left] at hcop
  omega

/-- Plaintext and randomness count modulo `n`. -/
theorem ciphertext_congr {r s : ℕ} {m m' : ℤ} (hr : r ≡ s [MOD pk.n]) (hm : m ≡ m' [ZMOD pk.n]) :
    pk.ciphertext r m = pk.ciphertext s m' := by
  rw [pk.eq_ciphertext_iff (pk.ciphertext_lt r m), cast_ciphertext, pow_modulus_congr hr,
    mul_modulus_congr hm]

/-! ### The operations -/

variable {r s : ℕ}

theorem addPlain_ciphertext (hr : r.Coprime pk.n) (m m' : ℤ) :
    pk.addPlain (pk.ciphertext r m) m' = .ok (pk.ciphertext r (m + m')) := by
  rw [pk.addPlain_natCast (pk.ciphertext_pos hr m) (pk.ciphertext_lt r m)]
  refine congrArg Except.ok (pk.mod_eq_ciphertext ?_)
  rw [Nat.cast_mul, cast_ciphertext, cast_carrier, mul_assoc, one_add_mul_modulus_mul]
  push_cast
  rfl

/-- Randomness multiplies, plaintexts add up. -/
theorem ciphertext_mul_mod (r s : ℕ) (m m' : ℤ) :
    pk.ciphertext r m * pk.ciphertext s m' % pk.nSquared =
      pk.ciphertext (r * s % pk.n) (m + m') := by
  refine pk.mod_eq_ciphertext ?_
  have hbase : ((r * s % pk.n : ℕ) : ZMod (pk.n * pk.n)) ^ pk.n = r ^ pk.n * s ^ pk.n := by
    rw [pow_modulus_congr (Nat.mod_modEq (r * s) pk.n), Nat.cast_mul, mul_pow]
  rw [Nat.cast_mul, cast_ciphertext, cast_ciphertext, hbase]
  push_cast
  rw [← one_add_mul_modulus_mul]
  ring

theorem add_ciphertext (hr : r.Coprime pk.n) (hs : s.Coprime pk.n) (m m' : ℤ) :
    pk.add (pk.ciphertext r m) (pk.ciphertext s m') =
      .ok (pk.ciphertext (r * s % pk.n) (m + m')) := by
  rw [pk.add_natCast (pk.ciphertext_pos hr m) (pk.ciphertext_lt r m) (pk.ciphertext_pos hs m')
    (pk.ciphertext_lt s m'), ciphertext_mul_mod]

theorem scale_ciphertext (hr : r.Coprime pk.n) (m k : ℤ) :
    pk.scale (pk.ciphertext r m) k =
      .ok (pk.ciphertext (r ^ (k % pk.n).toNat % pk.n) (k * m)) := by
  have hnat := natCast_toNat_emod pk.n_pos k
  set j := (k % pk.n).toNat with hj
  have hbase : ((r ^ j % pk.n : ℕ) : ZMod (pk.n * pk.n)) ^ pk.n = (r ^ pk.n) ^ j := by
    rw [pow_modulus_congr (Nat.mod_modEq (r ^ j) pk.n), Nat.cast_pow, pow_right_comm]
  -- a scalar and its residue multiply a plaintext to the same modulo `n`
  have hplain : ((j : ℤ) * m : ℤ) ≡ k * m [ZMOD pk.n] := by
    rw [hnat]
    exact (Int.mod_modEq k pk.n).mul_right m
  rw [pk.scale_natCast (pk.ciphertext_pos hr m) (pk.ciphertext_lt r m)]
  refine congrArg Except.ok (pk.mod_eq_ciphertext ?_)
  rw [Nat.cast_pow, cast_ciphertext, mul_pow, one_add_mul_modulus_pow, hbase,
    ← mul_modulus_congr hplain]
  push_cast
  rfl

theorem remask_ciphertext (r s : ℕ) (m : ℤ) :
    pk.remask (pk.ciphertext r m) s = pk.ciphertext (r * s % pk.n) m := by
  have hmask : pk.mask s = pk.ciphertext s 0 := by
    have hlt : pk.mask s < pk.nSquared := by
      rw [mask_eq]
      exact Nat.mod_lt _ pk.nSquared_pos
    rw [pk.eq_ciphertext_iff hlt, cast_mask, Int.cast_zero, zero_mul, add_zero, mul_one]
  rw [remask, hmask, ciphertext_mul_mod, add_zero]

/-- A ciphertext with fresh randomness is the ciphertext of the same plaintext. -/
theorem rerandomize_ciphertext (hr : r.Coprime pk.n) (m : ℤ) :
    pk.rerandomize (pk.ciphertext r m) =
      (do
        let s ← drawUnit pk.n
        return pk.ciphertext (r * s % pk.n) m) := by
  rw [rerandomize, pk.accept_natCast (pk.ciphertext_pos hr m) (pk.ciphertext_lt r m)]
  change (do
      let s ← drawUnit pk.n
      return pk.remask (pk.ciphertext r m) s) = _
  simp only [remask_ciphertext]

/-- What rerandomization answers when `s` is drawn; nothing else is read from the source. -/
theorem rerandomize_ciphertext_run (hr : r.Coprime pk.n) (m : ℤ) {σ σ' : Source}
    (hs : (drawUnit pk.n).run.run σ = (.ok s, σ')) :
    (pk.rerandomize (pk.ciphertext r m)).run.run σ =
      (.ok (pk.ciphertext (r * s % pk.n) m), σ') := by
  rw [pk.rerandomize_ciphertext hr, Draw.run_bind_of_ok hs]
  rfl

theorem coprime_prod_fst {n : ℕ} {xs : List (ℕ × ℤ)} (hxs : ∀ x ∈ xs, x.1.Coprime n) :
    (xs.map Prod.fst).prod.Coprime n := by
  refine Nat.coprime_list_prod_left_iff.mpr ?_
  intro r hr
  obtain ⟨x, hx, rfl⟩ := List.mem_map.mp hr
  exact hxs x hx

theorem foldlM_add_ciphertext : ∀ (xs : List (ℕ × ℤ)), (∀ x ∈ xs, x.1.Coprime pk.n) →
    ∀ (r : ℕ) (m : ℤ), r.Coprime pk.n →
      (xs.map fun x => (pk.ciphertext x.1 x.2 : ℤ)).foldlM
          (fun (total : ℕ) c => pk.add total c) (pk.ciphertext r m) =
        .ok (pk.ciphertext (r * (xs.map Prod.fst).prod % pk.n) (m + (xs.map Prod.snd).sum)) := by
  intro xs
  induction xs with
  | nil =>
    intro _ r m _
    refine congrArg Except.ok (pk.ciphertext_congr ?_ ?_)
    · simpa using (Nat.mod_modEq r pk.n).symm
    · simp
  | cons x xs ih =>
    intro hxs r m hr
    have hx : x.1.Coprime pk.n := hxs x List.mem_cons_self
    have hrx : (r * x.1 % pk.n).Coprime pk.n := coprime_mod (hr.mul_left hx)
    have hrest := ih (fun y hy => hxs y (List.mem_cons_of_mem x hy)) (r * x.1 % pk.n) (m + x.2) hrx
    rw [List.map_cons, List.foldlM_cons, pk.add_ciphertext hr hx]
    refine hrest.trans (congrArg Except.ok (pk.ciphertext_congr ?_ ?_))
    · rw [List.map_cons, List.prod_cons, ← mul_assoc]
      exact (Nat.mod_modEq _ _).trans
        (((Nat.mod_modEq (r * x.1) pk.n).mul_right _).trans (Nat.mod_modEq _ _).symm)
    · rw [List.map_cons, List.sum_cons, add_assoc]

/-- The sum of a list is the ciphertext of the sum. -/
theorem sum_ciphertext {xs : List (ℕ × ℤ)} (hne : xs ≠ []) (hxs : ∀ x ∈ xs, x.1.Coprime pk.n) :
    pk.sum (xs.map fun x => (pk.ciphertext x.1 x.2 : ℤ)) =
      .ok (pk.ciphertext ((xs.map Prod.fst).prod % pk.n) (xs.map Prod.snd).sum) := by
  cases xs with
  | nil => exact absurd rfl hne
  | cons x xs =>
    have hx : x.1.Coprime pk.n := hxs x List.mem_cons_self
    rw [List.map_cons, sum_cons,
      pk.accept_natCast (pk.ciphertext_pos hx x.2) (pk.ciphertext_lt x.1 x.2)]
    exact pk.foldlM_add_ciphertext xs (fun y hy => hxs y (List.mem_cons_of_mem x hy)) x.1 x.2 hx

end PublicKey

/-! ### What a ciphertext holds -/

namespace PublicKey

/-- `c` is a ciphertext of `m` whose randomness is a unit. -/
def Holds (pk : PublicKey) (m : ℤ) (c : ℕ) : Prop :=
  ∃ r : ℕ, r.Coprime pk.n ∧ c = pk.ciphertext r m

/-- The numbers are ciphertexts of the plaintexts, in their order. -/
def AllHold (pk : PublicKey) (ms : List ℤ) (cs : List ℕ) : Prop :=
  ∃ xs : List (ℕ × ℤ), (∀ x ∈ xs, x.1.Coprime pk.n) ∧ xs.map Prod.snd = ms ∧
    cs = xs.map fun x => pk.ciphertext x.1 x.2

variable {pk : PublicKey}

/-! ### Single operations -/

theorem holds_encrypt (m : ℤ) :
    Draw.Delivers (Source.OutOfUnits pk.n) (pk.encrypt m) (pk.Holds m) := by
  have htwo := pk.two_lt_n
  refine (drawUnit_delivers (by omega)).bind ?_
  intro r hr
  exact Draw.delivers_ok (pk.encryptWith_eq_ciphertext hr m) ⟨r, (isUnitBelow_iff.mp hr).2.2, rfl⟩

theorem holds_encryptWith {r : ℤ} (hr : isUnitBelow pk.n r.toNat = true) (m : ℤ) :
    ∃ c, pk.encryptWith r m = .ok c ∧ pk.Holds m c := by
  obtain ⟨hpos, -, hcop⟩ := isUnitBelow_iff.mp hr
  have hnat : ((r.toNat : ℕ) : ℤ) = r := Int.toNat_of_nonneg (by omega)
  refine ⟨pk.ciphertext r.toNat m, ?_, r.toNat, hcop, rfl⟩
  rw [← pk.encryptWith_eq_ciphertext hr m, hnat]

namespace Holds

variable {m m' : ℤ} {c c' : ℕ}

theorem coprime (hc : pk.Holds m c) : c.Coprime pk.n := by
  obtain ⟨r, hr, rfl⟩ := hc
  exact pk.coprime_ciphertext hr m

theorem pos (hc : pk.Holds m c) : 0 < c := by
  obtain ⟨r, hr, rfl⟩ := hc
  exact pk.ciphertext_pos hr m

theorem lt (hc : pk.Holds m c) : c < pk.nSquared := by
  obtain ⟨r, -, rfl⟩ := hc
  exact pk.ciphertext_lt r m

theorem rerandomize (hc : pk.Holds m c) :
    Draw.Delivers (Source.OutOfUnits pk.n) (pk.rerandomize c) (pk.Holds m) := by
  obtain ⟨r, hr, rfl⟩ := hc
  have htwo := pk.two_lt_n
  rw [pk.rerandomize_ciphertext hr]
  refine (drawUnit_delivers (by omega)).bind fun s hs => Draw.delivers_pure ?_
  exact ⟨r * s % pk.n, coprime_mod (hr.mul_left (isUnitBelow_iff.mp hs).2.2), rfl⟩

theorem addPlain (hc : pk.Holds m c) (m' : ℤ) :
    ∃ t, pk.addPlain c m' = .ok t ∧ pk.Holds (m + m') t := by
  obtain ⟨r, hr, rfl⟩ := hc
  exact ⟨_, pk.addPlain_ciphertext hr m m', r, hr, rfl⟩

theorem add (hc : pk.Holds m c) (hc' : pk.Holds m' c') :
    ∃ t, pk.add c c' = .ok t ∧ pk.Holds (m + m') t := by
  obtain ⟨r, hr, rfl⟩ := hc
  obtain ⟨s, hs, rfl⟩ := hc'
  exact ⟨_, pk.add_ciphertext hr hs m m', r * s % pk.n, coprime_mod (hr.mul_left hs), rfl⟩

theorem scale (hc : pk.Holds m c) (k : ℤ) :
    ∃ t, pk.scale c k = .ok t ∧ pk.Holds (k * m) t := by
  obtain ⟨r, hr, rfl⟩ := hc
  exact ⟨_, pk.scale_ciphertext hr m k, _, coprime_mod (hr.pow_left _), rfl⟩

end Holds

/-! ### Sums -/

theorem allHold_nil : pk.AllHold [] [] := ⟨[], by simp, rfl, rfl⟩

theorem AllHold.cons {m : ℤ} {ms : List ℤ} {c : ℕ} {cs : List ℕ} (hc : pk.Holds m c)
    (hcs : pk.AllHold ms cs) : pk.AllHold (m :: ms) (c :: cs) := by
  obtain ⟨r, hr, rfl⟩ := hc
  obtain ⟨xs, hxs, rfl, rfl⟩ := hcs
  refine ⟨(r, m) :: xs, ?_, rfl, rfl⟩
  intro x hx
  rcases List.mem_cons.mp hx with rfl | hx
  · exact hr
  · exact hxs x hx

theorem AllHold.sum {ms : List ℤ} {cs : List ℕ} (hcs : pk.AllHold ms cs) (hne : ms ≠ []) :
    ∃ t, pk.sum (cs.map Int.ofNat) = .ok t ∧ pk.Holds ms.sum t := by
  obtain ⟨xs, hxs, rfl, rfl⟩ := hcs
  have hsum := pk.sum_ciphertext (fun h => hne (congrArg (List.map Prod.snd) h)) hxs
  rw [List.map_map]
  exact ⟨_, hsum, _, coprime_mod (coprime_prod_fst hxs), rfl⟩

end PublicKey

/-! ### Whole programs -/

namespace Program

open PublicKey

theorem plainSum_eq (es : List Program) : plainSum es = (es.map plain).sum := by
  induction es with
  | nil => simp [plainSum]
  | cons e es ih => simp [plainSum, ih]

variable (pk : PublicKey)

-- One case for each operation.  A sum runs a list of programs, so the claim about programs and the
-- one about lists of programs are proved together.
mutual

/-- **A valid program runs to a ciphertext of what it computes.** -/
theorem run_delivers : ∀ e : Program, e.IsValid pk →
    Draw.Delivers (Source.OutOfUnits pk.n) (e.run pk) (pk.Holds e.plain)
  | .encrypt m => by
    intro _
    rw [run, plain]
    exact holds_encrypt m
  | .encryptWith r m => by
    intro hvalid
    rw [run, plain]
    obtain ⟨c, hrun, hc⟩ := holds_encryptWith hvalid m
    exact Draw.delivers_ok hrun hc
  | .rerandomize e => by
    intro hvalid
    rw [run, plain]
    exact (run_delivers e hvalid).bind fun c hc => hc.rerandomize
  | .addPlain e m => by
    intro hvalid
    rw [run, plain]
    refine (run_delivers e hvalid).bind ?_
    intro c hc
    obtain ⟨t, hrun, ht⟩ := hc.addPlain m
    exact Draw.delivers_ok hrun ht
  | .add e₁ e₂ => by
    intro hvalid
    rw [run, plain]
    refine (run_delivers e₁ hvalid.1).bind fun c₁ hc₁ =>
      (run_delivers e₂ hvalid.2).bind fun c₂ hc₂ => ?_
    obtain ⟨t, hrun, ht⟩ := hc₁.add hc₂
    exact Draw.delivers_ok hrun ht
  | .scale e k => by
    intro hvalid
    rw [run, plain]
    refine (run_delivers e hvalid).bind ?_
    intro c hc
    obtain ⟨t, hrun, ht⟩ := hc.scale k
    exact Draw.delivers_ok hrun ht
  | .sum es => by
    intro hvalid
    rw [run, plain, plainSum_eq]
    refine (runAll_delivers es hvalid.2).bind ?_
    intro cs hcs
    obtain ⟨t, hrun, ht⟩ := hcs.sum fun h => hvalid.1 (List.map_eq_nil_iff.mp h)
    exact Draw.delivers_ok hrun ht

theorem runAll_delivers : ∀ es : List Program, AreValid pk es →
    Draw.Delivers (Source.OutOfUnits pk.n) (runAll pk es) (pk.AllHold (es.map plain))
  | [] => by
    intro _
    rw [runAll]
    exact Draw.delivers_pure allHold_nil
  | e :: es => by
    intro hvalid
    rw [runAll]
    exact (run_delivers e hvalid.1).bind fun c hc =>
      (runAll_delivers es hvalid.2).bind fun cs hcs => Draw.delivers_pure (hcs.cons hc)

end

end Program

/-! ### Equations between encryptions -/

namespace PublicKey

/-- The number `c` is the encryption of `m` with the randomness `r`, and it is a unit between zero
and the square of the modulus. -/
structure IsEncryption (pk : PublicKey) (r : ℕ) (m : ℤ) (c : ℕ) : Prop where
  /-- Encryption gives this number. -/
  encrypt : pk.encryptWith r m = .ok c
  /-- It is positive. -/
  pos : 0 < c
  /-- It is below the square of the modulus. -/
  lt : c < pk.n ^ 2
  /-- It shares no factor with the modulus. -/
  gcd_eq_one : c.gcd pk.n = 1

variable (pk : PublicKey)

/-- There is an encryption for every unit and every plaintext. -/
theorem isEncryption_ciphertext {r : ℕ} (hr : isUnitBelow pk.n r = true) (m : ℤ) :
    pk.IsEncryption r m (pk.ciphertext r m) where
  encrypt := pk.encryptWith_eq_ciphertext hr m
  pos := pk.ciphertext_pos (isUnitBelow_iff.mp hr).2.2 m
  lt := by
    rw [← pk.nSquared_eq_sq]
    exact pk.ciphertext_lt r m
  gcd_eq_one := pk.coprime_ciphertext (isUnitBelow_iff.mp hr).2.2 m

theorem isEncryption_mod {x : ℕ} (hx : x.Coprime pk.n) (m : ℤ) :
    pk.IsEncryption (x % pk.n) m (pk.ciphertext (x % pk.n) m) :=
  pk.isEncryption_ciphertext (isUnitBelow_mod (Nat.lt_of_succ_lt pk.two_lt_n) hx) m

/-- The sum of encryptions is the encryption of the sum. -/
theorem exists_sum_isEncryption {xs : List (ℕ × ℤ)} (hne : xs ≠ [])
    (hxs : ∀ x ∈ xs, isUnitBelow pk.n x.1 = true) :
    ∃ cs t, List.Forall₂ (fun x c => pk.IsEncryption x.1 x.2 c) xs cs ∧
      pk.sum (cs.map Int.ofNat) = .ok t ∧
      pk.IsEncryption ((xs.map Prod.fst).prod % pk.n) (xs.map Prod.snd).sum t := by
  have hcops : ∀ x ∈ xs, x.1.Coprime pk.n := by
    intro x hx
    exact (isUnitBelow_iff.mp (hxs x hx)).2.2
  refine ⟨xs.map fun x => pk.ciphertext x.1 x.2, _, ?_, ?_,
    pk.isEncryption_mod (coprime_prod_fst hcops) _⟩
  · rw [List.forall₂_map_right_iff, List.forall₂_same]
    intro x hx
    exact pk.isEncryption_ciphertext (hxs x hx) x.2
  · rw [List.map_map]
    exact pk.sum_ciphertext hne hcops

/-- **Each operation gives the encryption of what it means**: plaintexts add up and are multiplied,
randomness is multiplied and raised to powers modulo `n`.  A program, which is a chain of such
operations that starts from encryptions, ends with a unit below `n ^ 2` and never with an error,
unless the draws give it no unit. -/
theorem isEncryption_operations {r s : ℕ} (hr : isUnitBelow pk.n r = true)
    (hs : isUnitBelow pk.n s = true) (m m' k : ℤ) {xs : List (ℕ × ℤ)} (hne : xs ≠ [])
    (hxs : ∀ x ∈ xs, isUnitBelow pk.n x.1 = true) {e : Program} (he : e.IsValid pk) :
    ∃ c c' : ℕ, pk.IsEncryption r m c ∧ pk.IsEncryption s m' c' ∧
      (∃ t, pk.addPlain c m' = .ok t ∧ pk.IsEncryption r (m + m') t) ∧
      (∃ t, pk.add c c' = .ok t ∧ pk.IsEncryption (r * s % pk.n) (m + m') t) ∧
      (∃ t, pk.scale c k = .ok t ∧
        pk.IsEncryption (r ^ (k % pk.n).toNat % pk.n) (k * m) t) ∧
      (∃ t, pk.IsEncryption (r * s % pk.n) m t ∧ ∀ σ σ' : Source,
        (drawUnit pk.n).run.run σ = (.ok s, σ') →
          (pk.rerandomize c).run.run σ = (.ok t, σ')) ∧
      (∃ cs t, List.Forall₂ (fun x c => pk.IsEncryption x.1 x.2 c) xs cs ∧
        pk.sum (cs.map Int.ofNat) = .ok t ∧
        pk.IsEncryption ((xs.map Prod.fst).prod % pk.n) (xs.map Prod.snd).sum t) ∧
      Draw.Delivers (Source.OutOfUnits pk.n) (e.run pk) fun t =>
        0 < t ∧ t < pk.n ^ 2 ∧ t.gcd pk.n = 1 := by
  have hrcop : r.Coprime pk.n := (isUnitBelow_iff.mp hr).2.2
  have hscop : s.Coprime pk.n := (isUnitBelow_iff.mp hs).2.2
  have hrscop : (r * s).Coprime pk.n := hrcop.mul_left hscop
  refine ⟨_, _, pk.isEncryption_ciphertext hr m, pk.isEncryption_ciphertext hs m', ?_, ?_, ?_, ?_,
    pk.exists_sum_isEncryption hne hxs, ?_⟩
  · -- a known number
    exact ⟨_, pk.addPlain_ciphertext hrcop m m', pk.isEncryption_ciphertext hr (m + m')⟩
  · -- two encryptions
    exact ⟨_, pk.add_ciphertext hrcop hscop m m', pk.isEncryption_mod hrscop (m + m')⟩
  · -- a known factor
    exact ⟨_, pk.scale_ciphertext hrcop m k, pk.isEncryption_mod (hrcop.pow_left _) (k * m)⟩
  · -- fresh randomness
    refine ⟨_, pk.isEncryption_mod hrscop m, ?_⟩
    intro σ σ' hrun
    exact pk.rerandomize_ciphertext_run hrcop m hrun
  · -- a whole program
    refine (e.run_delivers pk he).mono ?_
    intro t ht
    refine ⟨ht.pos, ?_, ht.coprime⟩
    rw [← pk.nSquared_eq_sq]
    exact ht.lt

/-- A key with an even modulus that is not squarefree, for two of three authorities. -/
def twelve : PublicKey := ofValid (n := 12) (by decide) (Nat.le_succ 1) (Nat.le_succ 2)

/-- The operations under a key with the modulus `12`, and a run of a program. -/
theorem isEncryption_operations_twelve :
    ∃ c c' : ℕ, twelve.IsEncryption 5 (-7) c ∧ twelve.IsEncryption 7 40 c' ∧
      (∃ t, twelve.addPlain c 40 = .ok t ∧ twelve.IsEncryption 5 33 t) ∧
      (∃ t, twelve.add c c' = .ok t ∧ twelve.IsEncryption 11 33 t) ∧
      (∃ t, twelve.scale c (-3) = .ok t ∧ twelve.IsEncryption 5 21 t) ∧
      (∃ t, twelve.IsEncryption 11 (-7) t ∧ ∀ σ σ' : Source,
        (drawUnit 12).run.run σ = (.ok 7, σ') → (twelve.rerandomize c).run.run σ = (.ok t, σ')) ∧
      (∃ cs t, List.Forall₂ (fun x c => twelve.IsEncryption x.1 x.2 c) [(5, 1), (11, -4)] cs ∧
        twelve.sum (cs.map Int.ofNat) = .ok t ∧ twelve.IsEncryption 7 (-3) t) ∧
      ∃ t, (Program.run twelve (.sum [.scale (.encryptWith 5 (-7)) (-3),
          .rerandomize (.encrypt 40)])).run.run Source.ones = (.ok t, Source.ones.advance 2) ∧
        0 < t ∧ t < 12 ^ 2 ∧ t.gcd 12 = 1 := by
  obtain ⟨c, c', hc, hc', haddPlain, hadd, hscale, hfresh, hsum, hprogram⟩ :=
    twelve.isEncryption_operations (show isUnitBelow 12 5 = true by decide)
      (show isUnitBelow 12 7 = true by decide) (-7) 40 (-3)
      (show [((5, 1) : ℕ × ℤ), (11, -4)] ≠ [] by decide)
      (by decide)
      (e := .sum [.scale (.encryptWith 5 (-7)) (-3), .rerandomize (.encrypt 40)])
      ⟨by decide, show isUnitBelow 12 5 = true by decide, trivial, trivial⟩
  obtain ⟨t, hrun⟩ : ∃ t, (Program.run twelve (.sum [.scale (.encryptWith 5 (-7)) (-3),
      .rerandomize (.encrypt 40)])).run.run Source.ones = (.ok t, Source.ones.advance 2) := ⟨_, rfl⟩
  exact ⟨c, c', hc, hc', haddPlain, hadd, hscale, hfresh, hsum, t, hrun, hprogram.of_run_eq_ok hrun⟩

end PublicKey

end QuorumPaillier
