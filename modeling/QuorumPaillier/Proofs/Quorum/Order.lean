import Mathlib.Data.List.Duplicate
import Mathlib.Data.List.Perm.Basic
import Mathlib.Tactic
import QuorumPaillier.Proofs.Key.Construction
import QuorumPaillier.Quorum

/-!
# The order and the form of partial decryptions

Partial decryptions are sorted by their indices before anything is computed from their values, so
lists with the same members are combined in the same way, whatever the values are.  Only the check
of the indices reads the list as it is handed over.  It finds a bad index in every order or in none,
and which one it reports is the only thing that can change.

They can also be handed over as one value for each authority, with zeros for those that are absent.
The indices that the places stand for are good ones in ascending order, so the checks of the other
form let them pass and leave them as they are; from there on both forms take the same way.

## Main definitions

* `PublicKey.AcceptsIndices`, `PublicKey.RefusesIndex` — good indices, and what bad ones lead to.
* `denseValues` — the form with one value for each authority.

## Main results

* `PublicKey.combine_perm` — **the order of the list does not matter.**
* `presentFrom_denseValues_perm` — **nothing is lost in the dense form.**
* `PublicKey.combineDense_eq_combine` — **both forms are combined in the same way.**
-/

namespace QuorumPaillier

/-! ### Sorting -/

theorem pairwise_sortByIndex (shares : List PartialDecryption) :
    (sortByIndex shares).Pairwise (·.index ≤ ·.index) := by
  have hsorted : (sortByIndex shares).Pairwise fun s t => decide (s.index ≤ t.index) = true := by
    refine List.pairwise_mergeSort ?_ ?_ shares
    · intro a b c hab hbc
      rw [decide_eq_true_eq] at hab hbc ⊢
      exact Nat.le_trans hab hbc
    · intro a b
      rw [Bool.or_eq_true, decide_eq_true_eq, decide_eq_true_eq]
      exact Nat.le_total a.index b.index
  exact hsorted.imp of_decide_eq_true

/-- **Sorting forgets the order**, if the indices differ. -/
theorem sortByIndex_congr {shares shares' : List PartialDecryption} (hperm : shares.Perm shares')
    (hnodup : (shares.map (·.index)).Nodup) : sortByIndex shares = sortByIndex shares' := by
  have hsorted : (sortByIndex shares).Perm shares := sortByIndex_perm shares
  have hsorted' : (sortByIndex shares').Perm shares := (sortByIndex_perm shares').trans hperm.symm
  refine List.Perm.eq_of_pairwise ?_ (pairwise_sortByIndex shares) (pairwise_sortByIndex shares')
    (hsorted.trans hsorted'.symm)
  intro s t hs ht hst hts
  exact List.inj_on_of_nodup_map hnodup (hsorted.mem_iff.mp hs) (hsorted'.mem_iff.mp ht)
    (Nat.le_antisymm hst hts)

theorem sortByIndex_of_pairwise {shares : List PartialDecryption}
    (h : shares.Pairwise (·.index < ·.index)) : sortByIndex shares = shares := by
  apply List.mergeSort_of_pairwise
  exact h.imp fun hst => decide_eq_true (Nat.le_of_lt hst)

/-! ### Bad indices -/

/-- The first bad index is what the check reports: there is none among those before it, and it is
out of range itself, or else it is one of those before it or was seen earlier. -/
theorem exists_of_indexError?_eq_some {l : ℕ} {seen is : List ℕ} {e : Error}
    (h : indexError? l seen is = some e) :
    ∃ as i bs, is = as ++ i :: bs ∧ indexError? l seen as = none ∧
      ((¬(1 ≤ i ∧ i ≤ l) ∧ e = .indexOutOfRange i l) ∨
        ((1 ≤ i ∧ i ≤ l) ∧ (i ∈ as ∨ i ∈ seen) ∧ e = .repeatedIndex i)) := by
  induction is generalizing seen with
  | nil => cases h
  | cons i is ih =>
    rw [indexError?] at h
    by_cases hrange : i = 0 ∨ l < i
    · rw [if_pos hrange] at h
      cases h
      exact ⟨[], i, is, rfl, rfl, Or.inl ⟨by omega, rfl⟩⟩
    · rw [if_neg hrange] at h
      by_cases hseen : i ∈ seen
      · rw [if_pos hseen] at h
        cases h
        exact ⟨[], i, is, rfl, rfl, Or.inr ⟨by omega, Or.inr hseen, rfl⟩⟩
      · rw [if_neg hseen] at h
        obtain ⟨as, j, bs, rfl, hnone, hj⟩ := ih h
        refine ⟨i :: as, j, bs, rfl, ?_, ?_⟩
        · rw [indexError?, if_neg hrange, if_neg hseen, hnone]
        · rcases hj with hj | ⟨hj, hmem, he⟩
          · exact Or.inl hj
          · refine Or.inr ⟨hj, ?_, he⟩
            -- what has been seen by then is the index that was passed, or was seen before
            rcases hmem with hmem | hmem
            · exact Or.inl (List.mem_cons_of_mem i hmem)
            · rcases List.mem_cons.mp hmem with rfl | hmem
              · exact Or.inl List.mem_cons_self
              · exact Or.inr hmem

namespace PublicKey

/-- The indices are those of different authorities of the system. -/
def AcceptsIndices (pk : PublicKey) (shares : List PartialDecryption) : Prop :=
  (shares.map (·.index)).Nodup ∧ ∀ i ∈ shares.map (·.index), 1 ≤ i ∧ i ≤ pk.l

/-- Combination fails, and names an index that is out of range or occurs twice. -/
def RefusesIndex (pk : PublicKey) (shares : List PartialDecryption) : Prop :=
  ∃ i ∈ shares.map (·.index),
    (¬(1 ≤ i ∧ i ≤ pk.l) ∧ pk.combine shares = .error (.indexOutOfRange i pk.l)) ∨
      ((shares.map (·.index)).Duplicate i ∧ pk.combine shares = .error (.repeatedIndex i))

variable {pk : PublicKey} {shares shares' : List PartialDecryption}

theorem acceptsIndices_iff :
    pk.AcceptsIndices shares ↔ indexError? pk.l [] (shares.map (·.index)) = none := by
  rw [indexError?_eq_none_iff]
  constructor
  · rintro ⟨hnodup, hrange⟩
    exact ⟨hrange, hnodup, fun _ _ => List.not_mem_nil⟩
  · rintro ⟨hrange, hnodup, -⟩
    exact ⟨hnodup, hrange⟩

theorem AcceptsIndices.perm (h : pk.AcceptsIndices shares) (hperm : shares.Perm shares') :
    pk.AcceptsIndices shares' := by
  have hindices : (shares.map (·.index)).Perm (shares'.map (·.index)) := hperm.map _
  refine ⟨hindices.nodup_iff.mp h.1, ?_⟩
  intro i hi
  exact h.2 i (hindices.mem_iff.mpr hi)

/-- Accepted indices are sorted, and then the values are looked at. -/
theorem AcceptsIndices.combine_eq (h : pk.AcceptsIndices shares) :
    pk.combine shares = pk.combineSorted (sortByIndex shares) := by
  rw [combine, acceptsIndices_iff.mp h]

/-- If the indices are not accepted, one of them is named. -/
theorem refusesIndex_of_not_acceptsIndices (h : ¬pk.AcceptsIndices shares) :
    pk.RefusesIndex shares := by
  obtain ⟨e, he⟩ := Option.ne_none_iff_exists'.mp (mt acceptsIndices_iff.mpr h)
  have hcombine := pk.combine_of_indexError he
  obtain ⟨as, i, bs, his, -, hbad⟩ := exists_of_indexError?_eq_some he
  refine ⟨i, ?_, ?_⟩
  · rw [his]
    exact List.mem_append_right as List.mem_cons_self
  · rcases hbad with ⟨hrange, rfl⟩ | ⟨-, hmem, rfl⟩
    · exact Or.inl ⟨hrange, hcombine⟩
    · refine Or.inr ⟨?_, hcombine⟩
      have hpos := List.count_pos_iff.mpr (hmem.resolve_right List.not_mem_nil)
      rw [his, List.duplicate_iff_two_le_count, List.count_append, List.count_cons_self]
      omega

/-- **The order of the list does not matter.**  Lists with the same members give the same answer,
plaintext or error, whatever the values are, if the indices are those of different authorities of
the system; otherwise both are refused because of an index. -/
theorem combine_perm (pk : PublicKey) (hperm : shares.Perm shares') :
    (pk.AcceptsIndices shares → pk.combine shares = pk.combine shares') ∧
      (¬pk.AcceptsIndices shares → pk.RefusesIndex shares ∧ pk.RefusesIndex shares') := by
  constructor
  · intro hgood
    rw [hgood.combine_eq, (hgood.perm hperm).combine_eq, sortByIndex_congr hperm hgood.1]
  · intro hbad
    have hbad' : ¬pk.AcceptsIndices shares' := fun hgood => hbad (hgood.perm hperm.symm)
    exact ⟨refusesIndex_of_not_acceptsIndices hbad, refusesIndex_of_not_acceptsIndices hbad'⟩

/-- Partial decryptions that nobody can have computed, in two orders: with good indices, and with a
repeated index and one out of range. -/
theorem combine_perm_malformed :
    [(⟨3, -5⟩ : PartialDecryption), ⟨2, 5⟩, ⟨1, 40⟩].Perm [⟨1, 40⟩, ⟨2, 5⟩, ⟨3, -5⟩] ∧
    KeyPair.smallest.publicKey.AcceptsIndices [⟨3, -5⟩, ⟨2, 5⟩, ⟨1, 40⟩] ∧
    KeyPair.smallest.publicKey.combine [⟨3, -5⟩, ⟨2, 5⟩, ⟨1, 40⟩] =
      KeyPair.smallest.publicKey.combine [⟨1, 40⟩, ⟨2, 5⟩, ⟨3, -5⟩] ∧
    [(⟨2, 1⟩ : PartialDecryption), ⟨2, 7⟩, ⟨9, 0⟩].Perm [⟨9, 0⟩, ⟨2, 7⟩, ⟨2, 1⟩] ∧
    ¬KeyPair.smallest.publicKey.AcceptsIndices [⟨2, 1⟩, ⟨2, 7⟩, ⟨9, 0⟩] ∧
    KeyPair.smallest.publicKey.RefusesIndex [⟨2, 1⟩, ⟨2, 7⟩, ⟨9, 0⟩] ∧
    KeyPair.smallest.publicKey.RefusesIndex [⟨9, 0⟩, ⟨2, 7⟩, ⟨2, 1⟩] :=
  have hgood : [(⟨3, -5⟩ : PartialDecryption), ⟨2, 5⟩, ⟨1, 40⟩].Perm
      [⟨1, 40⟩, ⟨2, 5⟩, ⟨3, -5⟩] := by decide
  have hindices : KeyPair.smallest.publicKey.AcceptsIndices [⟨3, -5⟩, ⟨2, 5⟩, ⟨1, 40⟩] :=
    ⟨by decide, by decide⟩
  have hbad : [(⟨2, 1⟩ : PartialDecryption), ⟨2, 7⟩, ⟨9, 0⟩].Perm
      [⟨9, 0⟩, ⟨2, 7⟩, ⟨2, 1⟩] := by decide
  have hrepeated : ¬KeyPair.smallest.publicKey.AcceptsIndices [⟨2, 1⟩, ⟨2, 7⟩, ⟨9, 0⟩] :=
    fun h => absurd h.1 (by decide)
  ⟨hgood, hindices, (combine_perm KeyPair.smallest.publicKey hgood).1 hindices, hbad, hrepeated,
    (combine_perm KeyPair.smallest.publicKey hbad).2 hrepeated⟩

end PublicKey

/-! ### One value for each authority -/

/-- One value for each of `l` authorities: what it published, and zero for an absent authority. -/
def denseValues (l : ℕ) (parts : List PartialDecryption) : List ℤ :=
  (List.range l).map fun i => ((parts.find? (·.index = i + 1)).map (·.value)).getD 0

@[simp] theorem length_denseValues (l : ℕ) (parts : List PartialDecryption) :
    (denseValues l parts).length = l := by
  simp [denseValues]

theorem mem_presentFrom_iff {s : PartialDecryption} {i : ℕ} {values : List ℤ} :
    s ∈ presentFrom i values ↔
      s.value ≠ 0 ∧ i ≤ s.index ∧ values[s.index - i]? = some s.value := by
  induction values generalizing i with
  | nil => simp [presentFrom]
  | cons v values ih =>
    have htail : s.value ≠ 0 ∧ i + 1 ≤ s.index ∧ values[s.index - (i + 1)]? = some s.value ↔
        s.value ≠ 0 ∧ i < s.index ∧ (v :: values)[s.index - i]? = some s.value := by
      refine and_congr_right fun _ => and_congr_right fun hi => ?_
      rw [show s.index - i = s.index - (i + 1) + 1 by omega, List.getElem?_cons_succ]
    have hsplit : i ≤ s.index ↔ i = s.index ∨ i < s.index := le_iff_eq_or_lt
    rw [presentFrom]
    by_cases hv : v = 0
    · rw [if_pos hv]
      -- a zero is not present, so the place of `s` is a later one
      rw [ih, htail]
      refine and_congr_right fun hs => ⟨fun h => ⟨h.1.le, h.2⟩, fun h => ⟨?_, h.2⟩⟩
      rcases hsplit.mp h.1 with heq | hlt
      · rw [heq, Nat.sub_self, List.getElem?_cons_zero, hv, Option.some.injEq] at h
        exact absurd h.2.symm hs
      · exact hlt
    · rw [if_neg hv, List.mem_cons, ih, htail]
      constructor
      · rintro (rfl | h)
        · exact ⟨hv, le_refl i, by simp⟩
        · exact ⟨h.1, h.2.1.le, h.2.2⟩
      · rintro ⟨hs, hi, hget⟩
        rcases hsplit.mp hi with heq | hlt
        · rw [heq, Nat.sub_self, List.getElem?_cons_zero, Option.some.injEq] at hget
          obtain ⟨index, value⟩ := s
          exact Or.inl (by rw [heq, hget])
        · exact Or.inr ⟨hs, hlt, hget⟩

theorem pairwise_presentFrom (i : ℕ) (values : List ℤ) :
    (presentFrom i values).Pairwise (·.index < ·.index) := by
  induction values generalizing i with
  | nil => exact List.Pairwise.nil
  | cons v values ih =>
    rw [presentFrom]
    by_cases hv : v = 0
    · rw [if_pos hv]
      exact ih (i + 1)
    · rw [if_neg hv]
      refine List.pairwise_cons.mpr ⟨?_, ih (i + 1)⟩
      intro s hs
      exact Nat.lt_of_succ_le (mem_presentFrom_iff.mp hs).2.1

theorem nodup_presentFrom (i : ℕ) (values : List ℤ) : (presentFrom i values).Nodup :=
  (pairwise_presentFrom i values).imp fun h heq => (heq ▸ h).false

/-- Among different authorities the first one with an index is the only one. -/
theorem find?_index_eq_some_iff {parts : List PartialDecryption}
    (hnodup : (parts.map (·.index)).Nodup) {i : ℕ} {s : PartialDecryption} :
    parts.find? (·.index = i) = some s ↔ s ∈ parts ∧ s.index = i := by
  constructor
  · intro h
    exact ⟨List.mem_of_find?_eq_some h, by simpa using List.find?_some h⟩
  · rintro ⟨hs, rfl⟩
    cases hfind : parts.find? (·.index = s.index) with
    | none =>
      have := List.find?_eq_none.mp hfind s hs
      simp at this
    | some s' =>
      have hindex : s'.index = s.index := by simpa using List.find?_some hfind
      rw [List.inj_on_of_nodup_map hnodup (List.mem_of_find?_eq_some hfind) hs hindex]

/-- A value other than zero stands for an authority that takes part with it. -/
theorem getD_find?_eq_value_iff {parts : List PartialDecryption}
    (hnodup : (parts.map (·.index)).Nodup) {s : PartialDecryption} (hs : s.value ≠ 0) :
    ((parts.find? (·.index = s.index)).map (·.value)).getD 0 = s.value ↔ s ∈ parts := by
  constructor
  · intro h
    cases hfind : parts.find? (·.index = s.index) with
    | none =>
      rw [hfind] at h
      exact absurd h.symm hs
    | some s' =>
      rw [hfind, Option.map_some, Option.getD_some] at h
      obtain ⟨hmem, hindex⟩ := (find?_index_eq_some_iff hnodup).mp hfind
      obtain rfl : s' = s := by
        cases s'
        cases s
        simp_all
      exact hmem
  · intro hmem
    rw [(find?_index_eq_some_iff hnodup).mpr ⟨hmem, rfl⟩, Option.map_some, Option.getD_some]

/-- **Nothing is lost in the dense form**: what is present in it is what was handed over. -/
theorem presentFrom_denseValues_perm {l : ℕ} {parts : List PartialDecryption}
    (hnodup : (parts.map (·.index)).Nodup) (hrange : ∀ i ∈ parts.map (·.index), 1 ≤ i ∧ i ≤ l)
    (hvalue : ∀ s ∈ parts, s.value ≠ 0) :
    (presentFrom 1 (denseValues l parts)).Perm parts := by
  refine (List.perm_ext_iff_of_nodup (nodup_presentFrom _ _) (List.Nodup.of_map _ hnodup)).mpr ?_
  intro s
  rw [mem_presentFrom_iff, denseValues, List.getElem?_map]
  constructor
  · rintro ⟨hs, hi, hget⟩
    obtain ⟨j, hj, hval⟩ := Option.map_eq_some_iff.mp hget
    obtain ⟨hjl, rfl⟩ := List.getElem?_eq_some_iff.mp hj
    rw [List.getElem_range, Nat.sub_add_cancel hi] at hval
    exact (getD_find?_eq_value_iff hnodup hs).mp hval
  · intro hs
    obtain ⟨h₁, hl⟩ := hrange s.index (List.mem_map_of_mem hs)
    refine ⟨hvalue s hs, h₁, ?_⟩
    rw [List.getElem?_range (by omega), Option.map_some, Nat.sub_add_cancel h₁,
      (getD_find?_eq_value_iff hnodup (hvalue s hs)).mpr hs]

/-! ### The same answer in both forms -/

/-- Present are the places that do not hold zero, in ascending order, and each stands for the index
after it. -/
theorem presentFrom_eq_map_filter (i : ℕ) (values : List ℤ) :
    presentFrom (i + 1) values =
      ((values.zipIdx i).filter fun x => x.1 ≠ 0).map fun x => ⟨x.2 + 1, x.1⟩ := by
  induction values generalizing i with
  | nil => rfl
  | cons v values ih =>
    rw [presentFrom, ih, List.zipIdx_cons]
    by_cases hv : v = 0 <;> simp [hv]

example : presentFrom 1 [5, 0, -7] = [⟨1, 5⟩, ⟨3, -7⟩] := by decide

namespace PublicKey

theorem acceptsIndices_presentFrom (pk : PublicKey) {values : List ℤ}
    (hlen : values.length = pk.l) : pk.AcceptsIndices (presentFrom 1 values) := by
  constructor
  · rw [List.Nodup, List.pairwise_map]
    exact (pairwise_presentFrom 1 values).imp Nat.ne_of_lt
  · intro i hi
    obtain ⟨s, hs, rfl⟩ := List.mem_map.mp hi
    obtain ⟨-, hone, hget⟩ := mem_presentFrom_iff.mp hs
    -- the value stands at a place of the list, and there is one place for each authority
    obtain ⟨hplace, -⟩ := List.getElem?_eq_some_iff.mp hget
    omega

/-- **Both forms are combined in the same way**: one value for each authority gives what the values
other than zero give under the indices of their places, plaintext or error, and a list of another
length is refused. -/
theorem combineDense_eq_combine (pk : PublicKey) (values : List ℤ) :
    pk.combineDense values =
      if values.length = pk.l then
        pk.combine ((values.zipIdx.filter fun x => x.1 ≠ 0).map fun x => ⟨x.2 + 1, x.1⟩)
      else .error (.wrongSlotCount pk.l values.length) := by
  by_cases hlen : values.length = pk.l
  · rw [if_pos hlen, ← presentFrom_eq_map_filter, Nat.zero_add,
      (pk.acceptsIndices_presentFrom hlen).combine_eq,
      sortByIndex_of_pairwise (pairwise_presentFrom 1 values), combineDense]
    simp [hlen]
  · rw [if_neg hlen]
    exact pk.combineDense_of_length_ne hlen

end PublicKey

end QuorumPaillier
