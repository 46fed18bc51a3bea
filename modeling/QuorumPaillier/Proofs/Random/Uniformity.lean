import Mathlib.Data.Set.Card
import Mathlib.Tactic
import QuorumPaillier.Proofs.Random.Sampling

/-!
# How uniform the samplers are

As long as no `drawLimit` draws in a row are too large, a sampler takes the first draw in its set.
Exchanging two members of the set in every draw then exchanges the answers, so among these sequences
of draws as many lead to the one member as to the other.  Where all draws that are looked at are too
large, the last one is reduced, which favours the small numbers, and by how much can be counted.

## Main definitions

* `Source.Settles`, `Draw.TakesFirst` — no long refusals; what a sampler does without them.
* `DrawSequence`, `DrawSequence.settled` — the sequences of draws of one width, and those that
  settle.
* `Draw.answeredBy`, `Draw.IsUnbiased` — the sequences on which a number is answered, and that those
  which settle are equally many for each member of a set.
* `excess` — by how many sequences a number is favoured.

## Main results

* `Draw.TakesFirst.isUnbiased` — **whoever takes the first draw in a set is unbiased.**
* `ncard_answeredBy_drawBelow` — **by how much the numbers below `n` differ.**
* `samplers_outcome` — **what the samplers do, and how uniform they are.**
-/

namespace QuorumPaillier

/-! ### Sources that settle -/

namespace Source

variable {s : Source} {n k i j m : ℕ}

/-- Among the first `m` draws of `k` bits there are no `drawLimit` in a row that are `n` or more. -/
def Settles (s : Source) (n k m : ℕ) : Prop :=
  ∀ i, i + drawLimit ≤ m → ∃ j < drawLimit, s.draw k (i + j) < n

theorem Settles.mono (h : s.Settles n k m) (hle : j ≤ m) : s.Settles n k j :=
  fun i hi => h i (hi.trans hle)

theorem Settles.advance (h : s.Settles n k (i + m)) :
    (s.advance (i * wordCount k)).Settles n k m := by
  intro i' hi'
  obtain ⟨j, hj, hlt⟩ := h (i + i') (by omega)
  refine ⟨j, hj, ?_⟩
  rwa [draw_advance, ← Nat.add_assoc]

/-- A number below `n` comes soon. -/
theorem IsFirst.lt_drawLimit (h : s.IsFirst k {x | x < n} j) (hs : s.Settles n k (j + 1)) :
    j < drawLimit := by
  by_contra hge
  obtain ⟨i, hi, hlt⟩ := hs 0 (by omega)
  rw [Nat.zero_add] at hlt
  exact h.notMem i (hi.trans_le (not_lt.mp hge)) hlt

theorem not_settles_of_refused (h : ∀ j < drawLimit, n ≤ s.draw k j) (hm : drawLimit ≤ m) :
    ¬s.Settles n k m := by
  intro hs
  obtain ⟨j, hj, hlt⟩ := hs 0 (by omega)
  rw [Nat.zero_add] at hlt
  exact absurd hlt (not_lt.mpr (h j hj))

/-- Those of the first `m` draws of `k` bits that are below `n`, in their order. -/
def below (s : Source) (n k m : ℕ) : List ℕ := ((List.range m).map (s.draw k)).filter (· < n)

theorem mem_below_iff {x : ℕ} : x ∈ s.below n k m ↔ ∃ j < m, s.draw k j = x ∧ x < n := by
  simp only [below, List.mem_filter, List.mem_map, List.mem_range, decide_eq_true_eq]
  constructor
  · rintro ⟨⟨j, hj, rfl⟩, hlt⟩
    exact ⟨j, hj, rfl, hlt⟩
  · rintro ⟨j, hj, rfl, hlt⟩
    exact ⟨⟨j, hj, rfl⟩, hlt⟩

theorem length_below_le (s : Source) (n k m : ℕ) : (s.below n k m).length ≤ m := by
  refine (List.length_filter_le _ _).trans ?_
  rw [List.length_map, List.length_range]

theorem below_add (s : Source) (n k i j : ℕ) :
    s.below n k (i + j) = s.below n k i ++ (s.advance (i * wordCount k)).below n k j := by
  have hshift : s.draw k ∘ (i + ·) = (s.advance (i * wordCount k)).draw k :=
    funext fun j => (s.draw_advance k i j).symm
  rw [below, List.range_add, List.map_append, List.filter_append, List.map_map, hshift]
  rfl

theorem below_succ_of_lt (h : s.draw k j < n) :
    s.below n k (j + 1) = s.below n k j ++ [s.draw k j] := by
  simp [below, List.range_succ, h]

theorem IsFirst.below_eq (h : s.IsFirst k {x | x < n} j) : s.below n k (j + 1) = [s.draw k j] := by
  have hnone : s.below n k j = [] := by
    refine List.eq_nil_iff_forall_not_mem.mpr ?_
    intro x hx
    obtain ⟨i, hi, rfl, hlt⟩ := mem_below_iff.mp hx
    exact h.notMem i hi hlt
  rw [below_succ_of_lt h.mem, hnone, List.nil_append]

end Source

section Below

variable {n m : ℕ} {s s' : Source} {as : List ℕ}

/-- **Where a source settles, the numbers that are sampled are the draws below `n`.** -/
theorem answers_drawBelow_below (hn : 1 ≤ n) (h : s.Settles n (drawWidth n) m)
    (hlast : ∀ j, m = j + 1 → s.draw (drawWidth n) j < n) :
    (drawBelow n).Answers s (s.below n (drawWidth n) m)
      (s.advance (m * wordCount (drawWidth n))) := by
  induction m using Nat.strong_induction_on generalizing s with
  | _ m ih =>
    cases m with
    | zero =>
      rw [Nat.zero_mul, Source.advance_zero]
      exact .nil s
    | succ j =>
      -- one sample is taken, and the last draw is still below `n`
      obtain ⟨i, hij, hfirst⟩ :=
        Source.exists_isFirst (A := {x | x < n}) (hlast j rfl)
      obtain ⟨d, hd⟩ : ∃ d, j + 1 = i + 1 + d := ⟨j - i, by omega⟩
      rw [hd] at h ⊢
      have head := drawBelow_run_of_isFirst hn hfirst (hfirst.lt_drawLimit (h.mono (by omega)))
      have tail := ih d (by omega) h.advance (by
        intro j' hj'
        rw [Source.draw_advance, show i + 1 + j' = j by omega]
        exact hlast j rfl)
      rw [Source.advance_advance, ← Nat.add_mul] at tail
      rw [Source.below_add, hfirst.below_eq]
      exact .cons head tail

/-- The other way round, numbers are sampled from so many draws, and if these settle then the
numbers are those below `n` among them. -/
theorem Draw.Answers.exists_eq_below (h : (drawBelow n).Answers s as s') (hn : 1 ≤ n) :
    ∃ m, s' = s.advance (m * wordCount (drawWidth n)) ∧ (s.Settles n (drawWidth n) m →
      as = s.below n (drawWidth n) m ∧ ∀ j, m = j + 1 → s.draw (drawWidth n) j < n) := by
  -- every number takes the draws up to the first one below `n`, or `drawLimit` draws that do not
  -- settle
  induction h with
  | nil s =>
    refine ⟨0, by rw [Nat.zero_mul, Source.advance_zero], fun _ => ⟨rfl, ?_⟩⟩
    exact fun j hj => absurd hj (Nat.succ_ne_zero j).symm
  | @cons s m s' a as head tail ih =>
    obtain ⟨d, rfl, hd⟩ := ih
    rcases drawBelow_run_cases hn s with ⟨i, -, hfirst, hrun⟩ | ⟨hrefused, hrun⟩
    · rw [hrun] at head
      cases head
      refine ⟨i + 1 + d, by rw [Source.advance_advance, ← Nat.add_mul], ?_⟩
      intro hs
      obtain ⟨hrest, hlast⟩ := hd hs.advance
      refine ⟨by rw [Source.below_add, hfirst.below_eq, ← hrest, List.singleton_append], ?_⟩
      intro j hj
      cases d with
      | zero =>
        obtain rfl : j = i := by omega
        exact hfirst.mem
      | succ d =>
        obtain rfl : j = i + 1 + d := by omega
        rw [← Source.draw_advance]
        exact hlast d rfl
    · rw [hrun] at head
      cases head
      refine ⟨drawLimit + d, by rw [Source.advance_advance, ← Nat.add_mul], ?_⟩
      exact fun hs => absurd hs (Source.not_settles_of_refused hrefused (Nat.le_add_right _ _))

end Below

/-! ### The first draw in a set -/

/-- What a sampler of numbers below `n` does where the source settles, if `A` is the set it samples
from. -/
structure Draw.TakesFirst (x : Draw ℕ) (n : ℕ) (A : Set ℕ) : Prop where
  /-- The first draw in `A` is the answer if patience lasts until then, and the draws up to it are
  consumed. -/
  run_of_isFirst : ∀ {s : Source} {j : ℕ}, s.IsFirst (drawWidth n) A j →
    s.Settles n (drawWidth n) (j + 1) → j < s.patience →
    x.run.run s = (.ok (s.draw (drawWidth n) j), s.advance ((j + 1) * wordCount (drawWidth n)))
  /-- Nothing else is answered. -/
  isFirst_of_run : ∀ {s s' : Source} {a : ℕ}, x.run.run s = (.ok a, s') →
    ∃ m, s' = s.advance (m * wordCount (drawWidth n)) ∧ (s.Settles n (drawWidth n) m →
      ∃ j, m = j + 1 ∧ s.IsFirst (drawWidth n) A j ∧ a = s.draw (drawWidth n) j)

theorem drawBelow_takesFirst {n : ℕ} (hn : 1 ≤ n) : (drawBelow n).TakesFirst n {x | x < n} where
  run_of_isFirst h hs _ := drawBelow_run_of_isFirst hn h (h.lt_drawLimit hs)
  isFirst_of_run := by
    intro s s' a hrun
    rcases drawBelow_run_cases hn s with ⟨j, -, hfirst, hrun'⟩ | ⟨hrefused, hrun'⟩
    · rw [hrun] at hrun'
      cases hrun'
      exact ⟨j + 1, rfl, fun _ => ⟨j, rfl, hfirst, rfl⟩⟩
    · rw [hrun] at hrun'
      cases hrun'
      exact ⟨drawLimit, rfl, fun hs => absurd hs (Source.not_settles_of_refused hrefused le_rfl)⟩

/-- **The two loops of the sampler of units come to one**: what the inner one refuses is no unit. -/
theorem drawUnit_takesFirst {n : ℕ} (hn : 2 ≤ n) :
    (drawUnit n).TakesFirst n {x | isUnitBelow n x = true} where
  run_of_isFirst := by
    intro s j h hs hj
    have hlt : s.draw (drawWidth n) j < n := lt_of_isUnitBelow h.mem
    have hanswers := answers_drawBelow_below (Nat.le_of_succ_le hn) hs (by
      rintro i ⟨rfl⟩
      exact hlt)
    rw [Source.below_succ_of_lt hlt] at hanswers
    refine drawUnit_run_of_answers hn hanswers ?_ h.mem ((s.length_below_le _ _ _).trans_lt hj)
    intro y hy
    obtain ⟨i, hi, rfl, -⟩ := Source.mem_below_iff.mp hy
    exact Bool.eq_false_iff.mpr (h.notMem i hi)
  isFirst_of_run := by
    intro s s' a hrun
    rcases drawUnit_run_cases hn s with ⟨refused, x, i, -, hanswers, hrefused, hx, hrun'⟩ |
      ⟨i, -, hrun'⟩
    · rw [hrun] at hrun'
      cases hrun'
      obtain ⟨m, hm, hsettled⟩ := hanswers.exists_eq_below (Nat.le_of_succ_le hn)
      refine ⟨m, hm, ?_⟩
      intro hs
      obtain ⟨hbelow, hlast⟩ := hsettled hs
      cases m with
      | zero => exact absurd hbelow (List.append_ne_nil_of_right_ne_nil _ (List.cons_ne_nil _ _))
      | succ j =>
        -- the last draw is below `n`, so it is the unit, and the others have been refused
        rw [Source.below_succ_of_lt (hlast j rfl)] at hbelow
        obtain ⟨rfl, hdraw⟩ := List.append_inj' hbelow rfl
        obtain rfl : a = s.draw (drawWidth n) j := List.head_eq_of_cons_eq hdraw
        refine ⟨j, rfl, ⟨hx, ?_⟩, rfl⟩
        intro i' hi' hunit
        have hfalse := hrefused _ (Source.mem_below_iff.mpr ⟨i', hi', rfl, lt_of_isUnitBelow hunit⟩)
        exact Bool.eq_false_iff.mp hfalse hunit
    · rw [hrun] at hrun'
      cases hrun'

/-! ### Sequences of draws -/

/-- The sequences of `T` draws of `k` bits. -/
abbrev DrawSequence (k T : ℕ) : Type := Fin T → Fin (2 ^ k)

theorem card_drawSequence (k T : ℕ) : Fintype.card (DrawSequence k T) = 2 ^ (k * T) := by
  rw [Fintype.card_fun, Fintype.card_fin, Fintype.card_fin, pow_mul]

namespace DrawSequence

variable {k T n : ℕ}

/-- The source that gives the draws of a sequence and has the patience to look at each of them. -/
def source (draws : DrawSequence k T) : Source :=
  Source.ofDraws k (List.ofFn fun i => (draws i : ℕ))

@[simp] theorem patience_source (draws : DrawSequence k T) : draws.source.patience = T :=
  List.length_ofFn

@[simp] theorem place_source (draws : DrawSequence k T) : draws.source.place = 0 := rfl

theorem draw_source (draws : DrawSequence k T) {i : ℕ} (hi : i < T) :
    draws.source.draw k i = draws ⟨i, hi⟩ := by
  have hget : (List.ofFn fun i => (draws i : ℕ)).getD i 0 = draws ⟨i, hi⟩ := by simp [hi]
  rw [source, Source.draw_ofDraws, hget]
  rw [hget]
  exact (draws ⟨i, hi⟩).isLt

/-- Draws of the sequence only have been made if there were at most `T` of them. -/
theorem place_advance_source_le_iff (draws : DrawSequence k T) (hk : 0 < k) (m : ℕ) :
    (draws.source.advance (m * wordCount k)).place ≤ T * wordCount k ↔ m ≤ T := by
  rw [Source.advance_place, place_source, Nat.zero_add]
  exact Nat.mul_le_mul_right_iff (wordCount_pos hk)

/-- A first draw among those of the sequence, read off the sequence. -/
theorem isFirst_source_iff {draws : DrawSequence k T} {A : Set ℕ} {i : Fin T} :
    draws.source.IsFirst k A i ↔ (draws i : ℕ) ∈ A ∧ ∀ i' < i, (draws i' : ℕ) ∉ A := by
  constructor
  · rintro ⟨hmem, hnot⟩
    rw [draw_source _ i.isLt] at hmem
    refine ⟨hmem, ?_⟩
    intro i' hi'
    rw [← draws.draw_source i'.isLt]
    exact hnot i' hi'
  · rintro ⟨hmem, hnot⟩
    refine ⟨by rwa [draw_source _ i.isLt], ?_⟩
    intro i' hi'
    rw [draw_source _ (hi'.trans i.isLt)]
    exact hnot ⟨i', hi'.trans i.isLt⟩ hi'

/-- The sequences of `T` draws without `drawLimit` draws in a row that are `n` or more. -/
def settled (n k T : ℕ) : Set (DrawSequence k T) :=
  {draws | ∀ i, i + drawLimit ≤ T → ∃ j : Fin T, i ≤ j ∧ j < i + drawLimit ∧ (draws j : ℕ) < n}

theorem settled_eq_univ (h : T < drawLimit) : settled n k T = Set.univ := by
  refine Set.eq_univ_of_forall ?_
  intro draws i hi
  omega

theorem mem_settled_iff {draws : DrawSequence k T} :
    draws ∈ settled n k T ↔ draws.source.Settles n k T := by
  constructor
  · intro h i hi
    obtain ⟨j, hij, hj, hlt⟩ := h i hi
    refine ⟨j - i, by omega, ?_⟩
    rwa [Nat.add_sub_cancel' hij, draw_source _ j.isLt]
  · intro h i hi
    obtain ⟨j, hj, hlt⟩ := h i hi
    have hjT : i + j < T := by omega
    rw [draw_source _ hjT] at hlt
    exact ⟨⟨i + j, hjT⟩, Nat.le_add_right i j, Nat.add_lt_add_left hj i, hlt⟩

/-- Two draws exchanged wherever they occur. -/
def exchange (a b : Fin (2 ^ k)) : DrawSequence k T ≃ DrawSequence k T :=
  Equiv.piCongrRight fun _ => Equiv.swap a b

/-- Exchanging two members of a set moves nothing into the set and nothing out of it. -/
theorem exchange_mem_iff {a b : Fin (2 ^ k)} {A : Set ℕ} (ha : (a : ℕ) ∈ A) (hb : (b : ℕ) ∈ A)
    (draws : DrawSequence k T) (i : Fin T) :
    (exchange a b draws i : ℕ) ∈ A ↔ (draws i : ℕ) ∈ A := by
  change ((Equiv.swap a b (draws i) : Fin (2 ^ k)) : ℕ) ∈ A ↔ _
  rcases eq_or_ne (draws i) a with hia | hia
  · rw [hia, Equiv.swap_apply_left]
    exact iff_of_true hb ha
  · rcases eq_or_ne (draws i) b with hib | hib
    · rw [hib, Equiv.swap_apply_right]
      exact iff_of_true ha hb
    · rw [Equiv.swap_apply_of_ne_of_ne hia hib]

theorem exchange_eq_iff {a b : Fin (2 ^ k)} (draws : DrawSequence k T) (i : Fin T) :
    exchange a b draws i = b ↔ draws i = a := by
  change Equiv.swap a b (draws i) = b ↔ _
  rw [Equiv.swap_apply_eq_iff, Equiv.swap_apply_right]

theorem exchange_mem_settled_iff {a b : Fin (2 ^ k)} (ha : (a : ℕ) < n) (hb : (b : ℕ) < n)
    (draws : DrawSequence k T) : exchange a b draws ∈ settled n k T ↔ draws ∈ settled n k T := by
  have hlt := exchange_mem_iff (A := {x | x < n}) ha hb draws
  simp only [settled, Set.mem_ofPred_eq] at hlt ⊢
  simp only [hlt]

end DrawSequence

open DrawSequence (settled exchange)

/-! ### Exchanging two answers -/

namespace Draw

variable {x : Draw ℕ} {n T a : ℕ} {A : Set ℕ}

/-- The sequences of `T` draws on which `x` answers `a` without looking at further draws. -/
def answeredBy (x : Draw ℕ) (k T a : ℕ) : Set (DrawSequence k T) :=
  {draws | ∃ s', x.run.run draws.source = (.ok a, s') ∧ s'.place ≤ T * wordCount k}

/-- For each length, equally many sequences that settle make `x` answer each member of `A`. -/
def IsUnbiased (x : Draw ℕ) (n : ℕ) (A : Set ℕ) : Prop :=
  ∀ T, ∀ a ∈ A, ∀ b ∈ A,
    (x.answeredBy (drawWidth n) T a ∩ settled n (drawWidth n) T).ncard =
      (x.answeredBy (drawWidth n) T b ∩ settled n (drawWidth n) T).ncard

/-- On a sequence that settles `a` is answered if it is the first draw in the set. -/
theorem TakesFirst.mem_answeredBy_iff (h : x.TakesFirst n A) (hn : 0 < drawWidth n)
    {draws : DrawSequence (drawWidth n) T} (hsettled : draws ∈ settled n (drawWidth n) T) :
    draws ∈ x.answeredBy (drawWidth n) T a ↔
      ∃ i : Fin T, (draws i : ℕ) = a ∧ a ∈ A ∧ ∀ i' < i, (draws i' : ℕ) ∉ A := by
  have hs := DrawSequence.mem_settled_iff.mp hsettled
  constructor
  · rintro ⟨s', hrun, hplace⟩
    obtain ⟨m, rfl, hfirst⟩ := h.isFirst_of_run hrun
    have hm := (draws.place_advance_source_le_iff hn _).mp hplace
    obtain ⟨j, rfl, hj, rfl⟩ := hfirst (hs.mono hm)
    obtain ⟨hmem, hnot⟩ := DrawSequence.isFirst_source_iff (i := ⟨j, hm⟩).mp hj
    have hdraw := draws.draw_source hm
    exact ⟨⟨j, hm⟩, hdraw.symm, hj.mem, hnot⟩
  · rintro ⟨i, rfl, hmem, hnot⟩
    have hrun := h.run_of_isFirst (DrawSequence.isFirst_source_iff.mpr ⟨hmem, hnot⟩)
      (hs.mono i.isLt) (by rw [DrawSequence.patience_source]; exact i.isLt)
    rw [DrawSequence.draw_source _ i.isLt] at hrun
    exact ⟨_, hrun, (draws.place_advance_source_le_iff hn _).mpr i.isLt⟩

/-- **Whoever takes the first draw in a set is unbiased.** -/
theorem TakesFirst.isUnbiased (h : x.TakesFirst n A) (hA : ∀ a ∈ A, a < n) : x.IsUnbiased n A := by
  intro T a ha b hb
  have ha' := lt_two_pow_drawWidth (hA a ha)
  have hb' := lt_two_pow_drawWidth (hA b hb)
  rcases Nat.eq_zero_or_pos (drawWidth n) with hzero | hpos
  · -- draws of no bits are zero, so the set has no two members
    rw [hzero] at ha' hb'
    obtain rfl : a = b := by omega
    rfl
  · refine Set.ncard_congr' ((exchange ⟨a, ha'⟩ ⟨b, hb'⟩).subtypeEquiv ?_)
    intro draws
    have hset := DrawSequence.exchange_mem_settled_iff (a := ⟨a, ha'⟩) (b := ⟨b, hb'⟩)
      (hA a ha) (hA b hb) draws
    rw [Set.mem_inter_iff, Set.mem_inter_iff, hset]
    refine and_congr_left fun hsettled => ?_
    rw [h.mem_answeredBy_iff hpos hsettled, h.mem_answeredBy_iff hpos (hset.mpr hsettled)]
    simp only [DrawSequence.exchange_mem_iff (a := ⟨a, ha'⟩) (b := ⟨b, hb'⟩) ha hb, ha, hb]
    refine exists_congr fun i => and_congr_left fun _ => ?_
    have heq := DrawSequence.exchange_eq_iff (a := ⟨a, ha'⟩) (b := ⟨b, hb'⟩) draws i
    rw [Fin.ext_iff, Fin.ext_iff] at heq
    exact heq.symm

end Draw

/-! ### Draws that are all refused -/

theorem prod_before_after (a b j m : ℕ) :
    ∏ i ∈ Finset.range (j + 1 + m), (if i < j then a else if i = j then 1 else b) =
      a ^ j * b ^ m := by
  rw [Finset.prod_range_add, Finset.prod_range_succ, if_neg (lt_irrefl j), if_pos rfl, Nat.mul_one]
  congr 1
  · rw [Finset.prod_congr rfl fun i hi => if_pos (Finset.mem_range.mp hi), Finset.prod_const,
      Finset.card_range]
  · have hafter : ∀ i, (if j + 1 + i < j then a else if j + 1 + i = j then 1 else b) = b := by
      intro i
      rw [if_neg (by omega), if_neg (by omega)]
    rw [Finset.prod_congr rfl fun i _ => hafter i, Finset.prod_const, Finset.card_range]

namespace DrawSequence

variable {k T n v : ℕ}

theorem card_refused (n k : ℕ) :
    (Finset.univ.filter fun d : Fin (2 ^ k) => n ≤ d).card = 2 ^ k - n := by
  have hsplit := Finset.card_filter_add_card_filter_not (s := (Finset.univ : Finset (Fin (2 ^ k))))
    (fun d => (d : ℕ) < n)
  rw [Fin.card_filter_val_lt, Finset.card_univ, Fintype.card_fin] at hsplit
  simp only [not_lt] at hsplit
  omega

/-- The sequences in which the draws before number `j` are refused, and that draw is `v`. -/
def refusedThen (n : ℕ) (j : Fin T) (v : ℕ) : Set (DrawSequence k T) :=
  {draws | (∀ i < j, n ≤ draws i) ∧ (draws j : ℕ) = v}

/-- What the draw with number `i` can be in such a sequence. -/
def choices (n : ℕ) (j : Fin T) (v : Fin (2 ^ k)) (i : Fin T) : Finset (Fin (2 ^ k)) :=
  if i < j then Finset.univ.filter fun d => n ≤ d else if i = j then {v} else Finset.univ

theorem mem_refusedThen_iff {j : Fin T} {v : Fin (2 ^ k)} {draws : DrawSequence k T} :
    draws ∈ refusedThen n j v ↔ ∀ i, draws i ∈ choices n j v i := by
  constructor
  · rintro ⟨hrefused, hj⟩ i
    rcases lt_trichotomy i j with hlt | rfl | hgt
    · simpa [choices, hlt] using hrefused i hlt
    · simpa [choices, Fin.ext_iff] using hj
    · simp [choices, hgt.not_gt, hgt.ne']
  · intro h
    refine ⟨?_, ?_⟩
    · intro i hi
      simpa [choices, hi] using h i
    · simpa [choices, Fin.ext_iff] using h j

theorem card_choices (n : ℕ) (j : Fin T) (v : Fin (2 ^ k)) (i : Fin T) :
    (choices n j v i).card =
      if (i : ℕ) < j then 2 ^ k - n else if (i : ℕ) = j then 1 else 2 ^ k := by
  simp only [choices, Fin.lt_def, Fin.ext_iff]
  split
  · exact card_refused n k
  · split <;> simp

/-- The draws before number `j` can be chosen among those that are refused, and those after it
freely. -/
theorem ncard_refusedThen (j : Fin T) (hv : v < 2 ^ k) :
    (refusedThen n j v : Set (DrawSequence k T)).ncard =
      (2 ^ k - n) ^ (j : ℕ) * 2 ^ (k * (T - (j + 1))) := by
  -- the draws are chosen independently of each other
  let free : Finset (DrawSequence k T) := Fintype.piFinset (choices n j ⟨v, hv⟩)
  have hset : refusedThen n j v = (free : Set (DrawSequence k T)) := by
    ext draws
    rw [Finset.mem_coe, Fintype.mem_piFinset, ← mem_refusedThen_iff]
  have hT : T = j + 1 + (T - (j + 1)) := by omega
  rw [hset, Set.ncard_coe_finset, Fintype.card_piFinset]
  simp only [card_choices]
  rw [Fin.prod_univ_eq_prod_range
      (fun i => if i < j then 2 ^ k - n else if i = j then 1 else 2 ^ k) T,
    congrArg Finset.range hT, prod_before_after, ← pow_mul]

theorem exchange_mem_refusedThen_iff {a b : Fin (2 ^ k)} (ha : (a : ℕ) < n) (hb : (b : ℕ) < n)
    {j : Fin T} {draws : DrawSequence k T} :
    exchange a b draws ∈ refusedThen n j b ↔ draws ∈ refusedThen n j a := by
  have hlt := exchange_mem_iff (A := {x | x < n}) ha hb draws
  have heq := exchange_eq_iff (a := a) (b := b) draws j
  simp only [Set.mem_ofPred_eq, ← not_le, not_iff_not] at hlt
  rw [Fin.ext_iff, Fin.ext_iff] at heq
  simp only [refusedThen, Set.mem_ofPred_eq, hlt, heq]

end DrawSequence

section Excess

open DrawSequence (refusedThen)

variable {n T x y : ℕ}

/-- The sequences on which `x` is the first draw below `n`, and it comes soon. -/
def answeredAtOnce (n T x : ℕ) : Set (DrawSequence (drawWidth n) T) :=
  {draws | ∃ j : Fin T, (j : ℕ) < drawLimit ∧ draws ∈ refusedThen n j x}

/-- The sequences on which no draw that is looked at is below `n`, and the last is reduced to `x`. -/
def answeredByReduction (n T x : ℕ) : Set (DrawSequence (drawWidth n) T) :=
  {draws | ∃ j : Fin T, (j : ℕ) + 1 = drawLimit ∧ draws ∈ refusedThen n j (x + n)}

theorem mem_answeredAtOnce_iff (hx : x < n) {draws : DrawSequence (drawWidth n) T} :
    draws ∈ answeredAtOnce n T x ↔ ∃ j < drawLimit, j < T ∧
      draws.source.IsFirst (drawWidth n) {x | x < n} j ∧
      draws.source.draw (drawWidth n) j = x := by
  constructor
  · rintro ⟨j, hj, hrefused, rfl⟩
    have hfirst : draws.source.IsFirst (drawWidth n) {x | x < n} j :=
      DrawSequence.isFirst_source_iff.mpr ⟨hx, fun i hi => not_lt.mpr (hrefused i hi)⟩
    exact ⟨j, hj, j.isLt, hfirst, draws.draw_source j.isLt⟩
  · rintro ⟨j, hj, hjT, hfirst, rfl⟩
    obtain ⟨-, hnot⟩ := DrawSequence.isFirst_source_iff (i := ⟨j, hjT⟩).mp hfirst
    exact ⟨⟨j, hjT⟩, hj, fun i hi => not_lt.mp (hnot i hi), (draws.draw_source hjT).symm⟩

theorem mem_answeredByReduction_iff {draws : DrawSequence (drawWidth n) T} :
    draws ∈ answeredByReduction n T x ↔ drawLimit ≤ T ∧
      (∀ j < drawLimit, n ≤ draws.source.draw (drawWidth n) j) ∧
      draws.source.draw (drawWidth n) (drawLimit - 1) = x + n := by
  constructor
  · rintro ⟨j, hj, hrefused, hlast⟩
    have hT : drawLimit ≤ T := hj ▸ j.isLt
    have hlast' : draws.source.draw (drawWidth n) (drawLimit - 1) = x + n := by
      rw [← hj, Nat.add_sub_cancel, draws.draw_source j.isLt, hlast]
    refine ⟨hT, ?_, hlast'⟩
    intro i hi
    rcases (Nat.le_pred_of_lt hi).lt_or_eq with hlt | rfl
    · rw [draws.draw_source (hi.trans_le hT)]
      exact hrefused ⟨i, hi.trans_le hT⟩ (Nat.lt_of_lt_of_eq hlt (Nat.eq_sub_of_add_eq hj).symm)
    · exact (Nat.le_add_left n x).trans_eq hlast'.symm
  · rintro ⟨hT, hrefused, hlast⟩
    have hlt : drawLimit - 1 < T := hT
    refine ⟨⟨drawLimit - 1, hlt⟩, rfl, ?_, ?_⟩
    · intro i hi
      rw [← draws.draw_source i.isLt]
      exact hrefused i (Nat.lt_of_lt_pred hi)
    · rw [← hlast, draws.draw_source hlt]

/-- `x` is sampled if it is the first draw below `n` and comes soon, or by a reduction. -/
theorem answeredBy_drawBelow_eq (hn : 1 ≤ n) (hwidth : 0 < drawWidth n) (hx : x < n) :
    (drawBelow n).answeredBy (drawWidth n) T x =
      answeredAtOnce n T x ∪ answeredByReduction n T x := by
  ext draws
  have hplace := draws.place_advance_source_le_iff hwidth
  rw [Set.mem_union, mem_answeredAtOnce_iff hx, mem_answeredByReduction_iff]
  constructor
  · rintro ⟨s', hrun, hle⟩
    rcases drawBelow_run_cases hn draws.source with ⟨j, hj, hfirst, hrun'⟩ | ⟨hrefused, hrun'⟩
    · rw [hrun] at hrun'
      cases hrun'
      exact Or.inl ⟨j, hj, (hplace _).mp hle, hfirst, rfl⟩
    · rw [hrun] at hrun'
      cases hrun'
      have hlast := Nat.sub_add_cancel (hrefused (drawLimit - 1) (by decide))
      exact Or.inr ⟨(hplace _).mp hle, hrefused, hlast.symm⟩
  · rintro (⟨j, hj, hjT, hfirst, rfl⟩ | ⟨hT, hrefused, hlast⟩)
    · exact ⟨_, drawBelow_run_of_isFirst hn hfirst hj, (hplace _).mpr hjT⟩
    · have hrun := drawBelow_run_of_refused hn hrefused
      rw [hlast, Nat.add_sub_cancel] at hrun
      exact ⟨_, hrun, (hplace _).mpr hT⟩

/-- Exchanging two numbers below `n` exchanges which of them comes first. -/
theorem ncard_answeredAtOnce_eq (hx : x < n) (hy : y < n) :
    (answeredAtOnce n T x).ncard = (answeredAtOnce n T y).ncard := by
  have hx' := lt_two_pow_drawWidth hx
  have hy' := lt_two_pow_drawWidth hy
  -- neither number is refused, so the exchange moves no draw across the bound
  refine Set.ncard_congr' ((exchange ⟨x, hx'⟩ ⟨y, hy'⟩).subtypeEquiv ?_)
  intro draws
  refine exists_congr fun j => and_congr_right fun _ => ?_
  exact (DrawSequence.exchange_mem_refusedThen_iff (a := ⟨x, hx'⟩) (b := ⟨y, hy'⟩) hx hy).symm

/-- By how many sequences of `T` draws `x` is favoured. -/
def excess (n T x : ℕ) : ℕ :=
  if drawLimit ≤ T ∧ x + n < 2 ^ drawWidth n then
    (2 ^ drawWidth n - n) ^ (drawLimit - 1) * 2 ^ (drawWidth n * (T - drawLimit))
  else 0

theorem ncard_answeredByReduction (n T x : ℕ) :
    (answeredByReduction n T x).ncard = excess n T x := by
  unfold excess
  split
  case isTrue h =>
    obtain ⟨hT, hlt⟩ := h
    have hlast : drawLimit - 1 < T := hT
    have hset : answeredByReduction n T x = refusedThen n ⟨drawLimit - 1, hlast⟩ (x + n) := by
      ext draws
      constructor
      · rintro ⟨j, hj, hmem⟩
        obtain rfl : j = ⟨drawLimit - 1, hlast⟩ := Fin.ext (Nat.eq_sub_of_add_eq hj)
        exact hmem
      · intro hmem
        exact ⟨_, rfl, hmem⟩
    rw [hset, DrawSequence.ncard_refusedThen _ hlt]
    rfl
  case isFalse h =>
    rw [Set.ncard_eq_zero]
    refine Set.eq_empty_of_forall_notMem ?_
    rintro draws ⟨j, hj, -, hlast⟩
    exact h ⟨hj ▸ j.isLt, hlast ▸ (draws j).isLt⟩

/-- **By how much the numbers below `n` differ.** -/
theorem ncard_answeredBy_drawBelow (hx : x < n) (hy : y < n) :
    ((drawBelow n).answeredBy (drawWidth n) T x).ncard + excess n T y =
      ((drawBelow n).answeredBy (drawWidth n) T y).ncard + excess n T x := by
  have hn : 1 ≤ n := Nat.one_le_of_lt hx
  rcases Nat.eq_zero_or_pos (drawWidth n) with hzero | hwidth
  · -- draws of no bits are zero, so there is one number only
    have hx' := lt_two_pow_drawWidth hx
    have hy' := lt_two_pow_drawWidth hy
    rw [hzero] at hx' hy'
    obtain rfl : x = y := by omega
    rfl
  · have hncard : ∀ z < n, ((drawBelow n).answeredBy (drawWidth n) T z).ncard =
        (answeredAtOnce n T z).ncard + excess n T z := by
      intro z hz
      have hdisjoint : Disjoint (answeredAtOnce n T z) (answeredByReduction n T z) := by
        refine Set.disjoint_left.mpr ?_
        intro draws h h'
        -- the first draw below `n` would be one of those that are all `n` or more
        obtain ⟨j, hj, -, hfirst, -⟩ := (mem_answeredAtOnce_iff hz).mp h
        exact absurd hfirst.mem (not_lt.mpr ((mem_answeredByReduction_iff.mp h').2.1 j hj))
      rw [answeredBy_drawBelow_eq hn hwidth hz, Set.ncard_union_eq hdisjoint,
        ncard_answeredByReduction]
    rw [hncard x hx, hncard y hy, ncard_answeredAtOnce_eq hx hy]
    exact Nat.add_right_comm _ _ _

end Excess

/-- Draws of two bits that are all three, as often as a draw is looked at, and then a one. -/
def refusedDraws : List ℕ := List.replicate drawLimit 3 ++ [1]

/-- The first draw below three is not the answer if it comes too late, and zero comes out more often
than one. -/
theorem drawBelow_reduces_last_draw :
    (Source.ofDraws 2 refusedDraws).IsFirst 2 {x | x < 3} drawLimit ∧
    (Source.ofDraws 2 refusedDraws).draw 2 drawLimit = 1 ∧
    (drawBelow (3 : ℕ)).run.run (Source.ofDraws 2 refusedDraws) =
      (.ok 0, (Source.ofDraws 2 refusedDraws).advance 80) ∧
    ((drawBelow (3 : ℕ)).answeredBy 2 80 0).ncard =
      ((drawBelow (3 : ℕ)).answeredBy 2 80 1).ncard + 1 := by
  have hdraw : ∀ j ≤ drawLimit,
      (Source.ofDraws 2 refusedDraws).draw 2 j = refusedDraws.getD j 0 := by
    intro j hj
    exact Source.draw_ofDraws ((by decide : ∀ j ≤ drawLimit, refusedDraws.getD j 0 < 2 ^ 2) j hj)
  have hrefused : ∀ j < drawLimit, 3 ≤ (Source.ofDraws 2 refusedDraws).draw 2 j := by
    intro j hj
    rw [hdraw j hj.le]
    exact (by decide : ∀ j < drawLimit, 3 ≤ refusedDraws.getD j 0) j hj
  have hone : (Source.ofDraws 2 refusedDraws).draw 2 drawLimit = 1 := hdraw drawLimit le_rfl
  have hrun := drawBelow_run_of_refused (by decide : 1 ≤ 3) hrefused
  rw [show drawWidth 3 = 2 from rfl, hdraw _ (Nat.sub_le _ 1)] at hrun
  have hcount := ncard_answeredBy_drawBelow (T := 80) (by decide : 0 < 3) (by decide : 1 < 3)
  refine ⟨⟨?_, ?_⟩, hone, ?_, ?_⟩
  · rw [hone]
    decide
  · intro i hi
    exact not_lt.mpr (hrefused i hi)
  · exact hrun
  · exact hcount

theorem setOf_isUnitBelow (n : ℕ) :
    {x | isUnitBelow n x = true} = {x | 1 ≤ x ∧ x < n ∧ x.Coprime n} :=
  Set.ext fun _ => isUnitBelow_iff

/-- **What the samplers do, and how uniform they are.**  A number below `n` is the first draw that
is small enough, if one of the first `drawLimit` draws is, and otherwise the last of these less `n`;
so what is favoured, and by how many sequences of draws, is known.  A unit is the first one among
the numbers below `n` that are sampled.  Where there are no `drawLimit` draws in a row that are too
large, and a sequence of fewer draws has none, both samplers take the first draw in their set, and
every member of it comes out equally often.  Empty ranges are refused before anything is drawn. -/
theorem samplers_outcome :
    (∀ n : ℕ, 1 ≤ n →
      (∀ s : Source,
        (∃ j < drawLimit, s.IsFirst (drawWidth n) {x | x < n} j ∧
          (drawBelow n).run.run s = (.ok (s.draw (drawWidth n) j),
            s.advance ((j + 1) * wordCount (drawWidth n)))) ∨
        ((∀ j < drawLimit, n ≤ s.draw (drawWidth n) j) ∧
          (drawBelow n).run.run s = (.ok (s.draw (drawWidth n) (drawLimit - 1) - n),
            s.advance (drawLimit * wordCount (drawWidth n))))) ∧
      (drawBelow n).Succeeds (· < n) ∧
      (drawBelow n).TakesFirst n {x | x < n} ∧
      (drawBelow n).IsUnbiased n {x | x < n} ∧
      ∀ T, ∀ x < n, ∀ y < n,
        ((drawBelow n).answeredBy (drawWidth n) T x).ncard + excess n T y =
          ((drawBelow n).answeredBy (drawWidth n) T y).ncard + excess n T x) ∧
    (∀ n : ℕ, 2 ≤ n →
      (∀ s : Source,
        (∃ refused x i, refused.length < s.patience ∧
          (drawBelow n).Answers s (refused ++ [x]) (s.advance i) ∧
          (∀ y ∈ refused, isUnitBelow n y = false) ∧ isUnitBelow n x = true ∧
          (drawUnit n).run.run s = (.ok x, s.advance i)) ∨
        ∃ i, s.OutOfUnits n (s.advance i) ∧
          (drawUnit n).run.run s = (.error .drawsExhausted, s.advance i)) ∧
      (drawUnit n).TakesFirst n {x | 1 ≤ x ∧ x < n ∧ x.Coprime n} ∧
      (drawUnit n).IsUnbiased n {x | 1 ≤ x ∧ x < n ∧ x.Coprime n}) ∧
    (∀ n k T : ℕ, T < drawLimit → settled n k T = Set.univ) ∧
    (∀ k T : ℕ, Fintype.card (DrawSequence k T) = 2 ^ (k * T)) ∧
    (∀ n : ℤ, n ≤ 1 → ∀ s,
      (drawUnit n).run.run s = (.error (.violation .groupModulusTooSmall), s)) ∧
    ∀ n : ℤ, n ≤ 0 → ∀ s, (drawBelow n).run.run s = (.error (.violation .emptyRange), s) := by
  refine ⟨?_, ?_, fun n k T => DrawSequence.settled_eq_univ, card_drawSequence, ?_, ?_⟩
  · intro n hn
    have hfirst := drawBelow_takesFirst hn
    refine ⟨drawBelow_run_cases hn, drawBelow_succeeds hn, hfirst,
      hfirst.isUnbiased fun _ => id, ?_⟩
    intro T x hx y hy
    exact ncard_answeredBy_drawBelow hx hy
  · intro n hn
    have hfirst := drawUnit_takesFirst hn
    have hunbiased := hfirst.isUnbiased fun _ => lt_of_isUnitBelow
    rw [setOf_isUnitBelow] at hfirst hunbiased
    exact ⟨drawUnit_run_cases hn, hfirst, hunbiased⟩
  · intro n hn s
    rw [drawUnit_of_le_one hn]
    rfl
  · intro n hn s
    rw [drawBelow_of_le_zero hn]
    rfl

/-- Modulo six the draws `7`, `4`, `5` lead to the number `4` and to the unit `5`.  Among the pairs
of draws as many lead to the unit `5` as to `1`; among the sequences of 80 draws more lead to the
number `0` than to `2`. -/
theorem samplers_outcome_six :
    (drawBelow (6 : ℕ)).run.run (Source.ofDraws 3 [7, 4, 5]) =
      (.ok 4, (Source.ofDraws 3 [7, 4, 5]).advance 2) ∧
    (drawUnit (6 : ℕ)).run.run (Source.ofDraws 3 [7, 4, 5]) =
      (.ok 5, (Source.ofDraws 3 [7, 4, 5]).advance 3) ∧
    ((drawUnit (6 : ℕ)).answeredBy 3 2 5).ncard = ((drawUnit (6 : ℕ)).answeredBy 3 2 1).ncard ∧
    ((drawBelow (6 : ℕ)).answeredBy 3 80 0).ncard =
      ((drawBelow (6 : ℕ)).answeredBy 3 80 2).ncard + 2 ^ 79 := by
  obtain ⟨hbelow, hunit, hsettled, -, -, -⟩ := samplers_outcome
  obtain ⟨-, -, hfirst, -, hcount⟩ := hbelow 6 (by decide)
  obtain ⟨-, hfirst', hunbiased⟩ := hunit 6 (by decide)
  have hsecond : (Source.ofDraws 3 [7, 4, 5]).IsFirst 3 {x | x < 6} 1 := by
    refine ⟨by decide, ?_⟩
    intro i hi
    interval_cases i
    decide
  have hthird : (Source.ofDraws 3 [7, 4, 5]).IsFirst 3 {x | 1 ≤ x ∧ x < 6 ∧ x.Coprime 6} 2 := by
    refine ⟨by decide, ?_⟩
    intro i hi
    interval_cases i <;> decide
  have hfew : ∀ m < drawLimit, (Source.ofDraws 3 [7, 4, 5]).Settles 6 3 m := by
    intro m hm i hi
    omega
  have hpairs := hunbiased 2 5 (by decide) 1 (by decide)
  rw [hsettled 6 _ 2 (by decide), Set.inter_univ, Set.inter_univ] at hpairs
  exact ⟨hfirst.run_of_isFirst hsecond (hfew 2 (by decide)) (by decide),
    hfirst'.run_of_isFirst hthird (hfew 3 (by decide)) (by decide), hpairs,
    hcount 80 0 (by decide) 2 (by decide)⟩

end QuorumPaillier
