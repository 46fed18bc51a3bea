import Mathlib.Tactic
import QuorumPaillier.Proofs.Random.Outcome
import QuorumPaillier.Random.Scripted
import QuorumPaillier.Random.Source

/-!
# What the samplers draw

A number below `n` is always found: it is the first of the draws that is small enough, or the last
of them is reduced.  A unit is found when a number below `n` is one, and for as long as patience
lasts; if it is lost then as many numbers below `n` have been read, and none of them was a unit.

## Main definitions

* `Source.draw`, `Source.IsFirst` — the draws of a source, and which of them is the first in a set.
* `Source.OutOfUnits` — a stretch of a source in which no unit is found.
* `Source.ones` — the source in which every word is one.

## Main results

* `drawBelow_run_cases` — **the two ways in which a number below `n` is found.**
* `drawUnit_run_cases` — **the first unit among the numbers below `n` is found**, or patience is
  lost.
* `exists_answers_drawBelow_iff`, `exists_drawUnit_run` — what can be drawn.
-/

namespace QuorumPaillier

/-! ### The draws of a source -/

namespace Source

variable {s : Source} {k i j : ℕ} {A : Set ℕ}

/-- The draw of `k` bits that a source gives after `j` others of the same width. -/
def draw (s : Source) (k j : ℕ) : ℕ :=
  (s.advance (j * wordCount k)).peek (wordCount k) % 2 ^ k

theorem draw_lt (s : Source) (k j : ℕ) : s.draw k j < 2 ^ k := Nat.mod_lt _ (Nat.two_pow_pos k)

theorem draw_succ (s : Source) (k j : ℕ) :
    s.draw k (j + 1) = (s.advance (wordCount k)).draw k j := by
  rw [draw, draw, advance_advance, Nat.succ_mul, Nat.add_comm]

/-- After some draws of one width the later ones are left. -/
theorem draw_advance (s : Source) (k i j : ℕ) :
    (s.advance (i * wordCount k)).draw k j = s.draw k (i + j) := by
  rw [draw, draw, advance_advance, ← Nat.add_mul]

theorem draw_ofDraws {draws : List ℕ} (h : draws.getD j 0 < 2 ^ k) :
    (Source.ofDraws k draws).draw k j = draws.getD j 0 :=
  peek_ofDraws h

/-- The draw with number `j` is the first one in `A`. -/
structure IsFirst (s : Source) (k : ℕ) (A : Set ℕ) (j : ℕ) : Prop where
  /-- It is in `A`. -/
  mem : s.draw k j ∈ A
  /-- Those before it are not. -/
  notMem : ∀ i < j, s.draw k i ∉ A

theorem exists_isFirst (h : s.draw k j ∈ A) : ∃ i ≤ j, s.IsFirst k A i := by
  classical
  have hex : ∃ i, s.draw k i ∈ A := ⟨j, h⟩
  exact ⟨Nat.find hex, Nat.find_min' hex h, Nat.find_spec hex, fun i hi => Nat.find_min hex hi⟩

theorem IsFirst.unique (hi : s.IsFirst k A i) (hj : s.IsFirst k A j) : i = j := by
  rcases Nat.lt_trichotomy i j with hlt | rfl | hgt
  · exact absurd hi.mem (hj.notMem i hlt)
  · rfl
  · exact absurd hj.mem (hi.notMem j hgt)

/-- Before the first draw in a set there is one less when a draw has been made. -/
theorem isFirst_succ_iff (h : s.draw k 0 ∉ A) :
    s.IsFirst k A (j + 1) ↔ (s.advance (wordCount k)).IsFirst k A j := by
  constructor
  · rintro ⟨hmem, hnot⟩
    refine ⟨by rwa [← draw_succ], ?_⟩
    intro i hi
    rw [← draw_succ]
    exact hnot (i + 1) (Nat.succ_lt_succ hi)
  · rintro ⟨hmem, hnot⟩
    refine ⟨by rwa [draw_succ], ?_⟩
    intro i hi
    cases i with
    | zero => exact h
    | succ i =>
      rw [draw_succ]
      exact hnot i (Nat.lt_of_succ_lt_succ hi)

end Source

/-- A draw gives the first of the draws that are left. -/
theorem drawBits_run_eq (k : ℕ) (s : Source) :
    (drawBits k).run.run s = (.ok (s.draw k 0), s.advance (wordCount k)) := by
  rw [drawBits_run, Source.draw, Nat.zero_mul, Source.advance_zero]

/-! ### Numbers below a bound -/

section Below

variable {n : ℕ} {s s' : Source}

theorem firstBelow_zero_run (n k : ℕ) (s : Source) :
    (firstBelow n k 0).run.run s =
      (.ok (if s.draw k 0 < n then s.draw k 0 else s.draw k 0 - n), s.advance (wordCount k)) := by
  rw [firstBelow, Draw.run_bind_of_ok (drawBits_run_eq k s)]
  rfl

theorem firstBelow_succ_run (n k t : ℕ) (s : Source) :
    (firstBelow n k (t + 1)).run.run s =
      if s.draw k 0 < n then (.ok (s.draw k 0), s.advance (wordCount k))
      else (firstBelow n k t).run.run (s.advance (wordCount k)) := by
  rw [firstBelow, Draw.run_bind_of_ok (drawBits_run_eq k s)]
  split <;> rfl

/-- The first draw that is small enough is the answer, or none is, and the last one is reduced. -/
theorem firstBelow_run_cases (n k t : ℕ) (s : Source) :
    (∃ j ≤ t, s.IsFirst k {x | x < n} j ∧
      (firstBelow n k t).run.run s = (.ok (s.draw k j), s.advance ((j + 1) * wordCount k))) ∨
    ((∀ j ≤ t, n ≤ s.draw k j) ∧
      (firstBelow n k t).run.run s =
        (.ok (s.draw k t - n), s.advance ((t + 1) * wordCount k))) := by
  have hfound : ∀ {s : Source}, s.draw k 0 < n → s.IsFirst k {x | x < n} 0 :=
    fun hlt => ⟨hlt, by omega⟩
  -- with every draw the number of draws that are left goes down, and the places move by one
  induction t generalizing s with
  | zero =>
    rw [firstBelow_zero_run, Nat.zero_add, Nat.one_mul]
    by_cases hlt : s.draw k 0 < n
    · refine Or.inl ⟨0, le_rfl, hfound hlt, ?_⟩
      rw [if_pos hlt, Nat.zero_add, Nat.one_mul]
    · refine Or.inr ⟨?_, by rw [if_neg hlt]⟩
      intro j hj
      rw [Nat.le_zero.mp hj]
      exact not_lt.mp hlt
  | succ t ih =>
    rw [firstBelow_succ_run]
    by_cases hlt : s.draw k 0 < n
    · refine Or.inl ⟨0, Nat.zero_le _, hfound hlt, ?_⟩
      rw [if_pos hlt, Nat.zero_add, Nat.one_mul]
    · have hshift : ∀ j, (s.advance (wordCount k)).advance (j * wordCount k) =
          s.advance ((j + 1) * wordCount k) := by
        intro j
        rw [Source.advance_advance, Nat.succ_mul, Nat.add_comm]
      rw [if_neg hlt]
      rcases ih (s.advance (wordCount k)) with ⟨j, hj, hfirst, hrun⟩ | ⟨hnone, hrun⟩
      · rw [← Source.draw_succ, hshift] at hrun
        exact Or.inl ⟨j + 1, Nat.succ_le_succ hj, (Source.isFirst_succ_iff hlt).mpr hfirst, hrun⟩
      · rw [← Source.draw_succ, hshift] at hrun
        refine Or.inr ⟨?_, hrun⟩
        intro j hj
        cases j with
        | zero => exact not_lt.mp hlt
        | succ j =>
          rw [Source.draw_succ]
          exact hnone j (Nat.le_of_succ_le_succ hj)

theorem drawBelow_eq_firstBelow (hn : 1 ≤ n) :
    drawBelow n = firstBelow n (drawWidth n) (drawLimit - 1) := by
  have hpos : ¬(n : ℤ) ≤ 0 := by omega
  rw [drawBelow, if_neg hpos, Int.toNat_natCast]

/-- **The two ways in which a number below `n` is found**: one of the draws is small enough, and the
first that is has been taken; or none of them is, and the last one has been reduced. -/
theorem drawBelow_run_cases (hn : 1 ≤ n) (s : Source) :
    (∃ j < drawLimit, s.IsFirst (drawWidth n) {x | x < n} j ∧
      (drawBelow n).run.run s = (.ok (s.draw (drawWidth n) j),
        s.advance ((j + 1) * wordCount (drawWidth n)))) ∨
    ((∀ j < drawLimit, n ≤ s.draw (drawWidth n) j) ∧
      (drawBelow n).run.run s = (.ok (s.draw (drawWidth n) (drawLimit - 1) - n),
        s.advance (drawLimit * wordCount (drawWidth n)))) := by
  rw [drawBelow_eq_firstBelow hn]
  rcases firstBelow_run_cases n (drawWidth n) (drawLimit - 1) s with
    ⟨j, hj, hfirst, hrun⟩ | ⟨hnone, hrun⟩
  · exact Or.inl ⟨j, Nat.lt_of_le_pred (by decide) hj, hfirst, hrun⟩
  · exact Or.inr ⟨fun j hj => hnone j (Nat.le_pred_of_lt hj), hrun⟩

theorem drawBelow_run_of_isFirst (hn : 1 ≤ n) {j : ℕ}
    (h : s.IsFirst (drawWidth n) {x | x < n} j) (hj : j < drawLimit) :
    (drawBelow n).run.run s = (.ok (s.draw (drawWidth n) j),
      s.advance ((j + 1) * wordCount (drawWidth n))) := by
  rcases drawBelow_run_cases hn s with ⟨i, -, hfirst, hrun⟩ | ⟨hnone, -⟩
  · rw [hrun, hfirst.unique h]
  · exact absurd h.mem (not_lt.mpr (hnone j hj))

theorem drawBelow_run_of_refused (hn : 1 ≤ n)
    (h : ∀ j < drawLimit, n ≤ s.draw (drawWidth n) j) :
    (drawBelow n).run.run s = (.ok (s.draw (drawWidth n) (drawLimit - 1) - n),
      s.advance (drawLimit * wordCount (drawWidth n))) := by
  rcases drawBelow_run_cases hn s with ⟨j, hj, hfirst, -⟩ | ⟨-, hrun⟩
  · exact absurd hfirst.mem (not_lt.mpr (h j hj))
  · exact hrun

/-- No more than half of what can be drawn is refused, so one subtraction is enough. -/
theorem drawBelow_succeeds (hn : 1 ≤ n) : (drawBelow n).Succeeds (· < n) := by
  intro s
  rcases drawBelow_run_cases hn s with ⟨j, -, hfirst, hrun⟩ | ⟨-, hrun⟩
  · exact ⟨_, _, hrun, hfirst.mem⟩
  · refine ⟨_, _, hrun, ?_⟩
    have hlt := s.draw_lt (drawWidth n) (drawLimit - 1)
    have hle := two_pow_drawWidth_le hn
    omega

theorem lt_of_answers_drawBelow (hn : 1 ≤ n) {as : List ℕ} (h : (drawBelow n).Answers s as s') :
    ∀ a ∈ as, a < n :=
  h.forall_mem fun _ _ _ hrun => (drawBelow_succeeds hn).of_run_eq_ok hrun

/-- Draws that are all small enough are the answers. -/
theorem answers_drawBelow_of_draw_eq (hn : 1 ≤ n) {as : List ℕ} (hlt : ∀ a ∈ as, a < n)
    (hdraw : ∀ j (hj : j < as.length), s.draw (drawWidth n) j = as[j]) :
    (drawBelow n).Answers s as (s.advance (as.length * wordCount (drawWidth n))) := by
  induction as generalizing s with
  | nil =>
    rw [List.length_nil, Nat.zero_mul, Source.advance_zero]
    exact .nil s
  | cons a as ih =>
    obtain ⟨ha, hrest⟩ := List.forall_mem_cons.mp hlt
    have hzero : s.draw (drawWidth n) 0 = a := hdraw 0 (Nat.succ_pos _)
    have hfirst : s.IsFirst (drawWidth n) {x | x < n} 0 := by
      refine ⟨?_, by omega⟩
      rwa [hzero]
    have head := drawBelow_run_of_isFirst hn hfirst (by decide)
    rw [hzero, Nat.zero_add, Nat.one_mul] at head
    -- one draw has been made, so the number of each of the others goes down by one
    have hdraw' : ∀ j (hj : j < as.length),
        (s.advance (wordCount (drawWidth n))).draw (drawWidth n) j = as[j] := by
      intro j hj
      rw [← Source.draw_succ]
      exact hdraw (j + 1) (Nat.succ_lt_succ hj)
    have tail := ih hrest hdraw'
    rw [Source.advance_advance, Nat.add_comm, ← Nat.succ_mul] at tail
    exact .cons head tail

/-- Numbers can be drawn below a bound exactly if they are below it. -/
theorem exists_answers_drawBelow_iff (hn : 1 ≤ n) {as : List ℕ} :
    (∃ σ σ' : Source, (drawBelow n).Answers σ as σ') ↔ ∀ a ∈ as, a < n := by
  constructor
  · rintro ⟨σ, σ', h⟩
    exact lt_of_answers_drawBelow hn h
  · intro hlt
    refine ⟨Source.ofDraws (drawWidth n) as, _, answers_drawBelow_of_draw_eq hn hlt ?_⟩
    intro j hj
    have hget : as.getD j 0 = as[j] := (List.getElem_eq_getD 0).symm
    rw [← hget]
    refine Source.draw_ofDraws ?_
    rw [hget]
    exact lt_two_pow_drawWidth (hlt _ (List.getElem_mem hj))

end Below

/-! ### Units -/

section Units

variable {n : ℕ} {s s' : Source}

/-- From `s` on, as many numbers below `n` as the source has patience for are no units, and then
`s'` is left. -/
def Source.OutOfUnits (n : ℕ) (s s' : Source) : Prop :=
  ∃ refused : List ℕ, refused.length = s.patience ∧ (drawBelow n).Answers s refused s' ∧
    ∀ x ∈ refused, isUnitBelow n x = false

theorem isRetry_firstUnit (n : ℕ) :
    Draw.IsRetry (firstUnit n) (drawBelow n) (fun x => x ≠ 0 ∧ x.gcd n = 1) .drawsExhausted :=
  ⟨rfl, fun _ => rfl⟩

/-- What the loop asks of a number below `n` makes it a unit. -/
theorem isUnitBelow_iff_of_lt {x : ℕ} (hx : x < n) :
    isUnitBelow n x = true ↔ x ≠ 0 ∧ x.gcd n = 1 := by
  rw [isUnitBelow_iff, Nat.pos_iff_ne_zero, Nat.Coprime]
  exact and_congr_right fun _ => and_iff_right hx

/-- Among numbers below `n` the loop refuses what is no unit. -/
theorem forall_not_isUnitBelow_iff {as : List ℕ} (hlt : ∀ y ∈ as, y < n) :
    (∀ y ∈ as, isUnitBelow n y = false) ↔ ∀ y ∈ as, ¬(y ≠ 0 ∧ y.gcd n = 1) :=
  forall₂_congr fun y hy => by rw [← isUnitBelow_iff_of_lt (hlt y hy), Bool.not_eq_true]

theorem drawUnit_run_eq (hn : 2 ≤ n) (s : Source) :
    (drawUnit n).run.run s = (firstUnit n s.patience).run.run s := by
  have hpos : ¬(n : ℤ) ≤ 1 := by omega
  rw [drawUnit, if_neg hpos, Int.toNat_natCast]
  rfl

/-- A unit among the numbers below `n` is the answer if none comes before it. -/
theorem drawUnit_run_of_answers (hn : 2 ≤ n) {refused : List ℕ} {x : ℕ}
    (hanswers : (drawBelow n).Answers s (refused ++ [x]) s')
    (hrefused : ∀ y ∈ refused, isUnitBelow n y = false) (hx : isUnitBelow n x = true)
    (hlen : refused.length < s.patience) : (drawUnit n).run.run s = (.ok x, s') := by
  obtain ⟨hlt, -⟩ :=
    List.forall_mem_append.mp (lt_of_answers_drawBelow (Nat.le_of_succ_le hn) hanswers)
  rw [drawUnit_run_eq hn]
  exact (isRetry_firstUnit n).run_of_answers hanswers
    ((forall_not_isUnitBelow_iff hlt).mp hrefused)
    ((isUnitBelow_iff_of_lt (lt_of_isUnitBelow hx)).mp hx) hlen

/-- **The first unit among the numbers below `n` is found**, or all that were looked at are none. -/
theorem drawUnit_run_cases (hn : 2 ≤ n) (s : Source) :
    (∃ refused x i, refused.length < s.patience ∧
      (drawBelow n).Answers s (refused ++ [x]) (s.advance i) ∧
      (∀ y ∈ refused, isUnitBelow n y = false) ∧ isUnitBelow n x = true ∧
      (drawUnit n).run.run s = (.ok x, s.advance i)) ∨
    ∃ i, s.OutOfUnits n (s.advance i) ∧
      (drawUnit n).run.run s = (.error .drawsExhausted, s.advance i) := by
  have hpos : 1 ≤ n := Nat.le_of_succ_le hn
  rw [drawUnit_run_eq hn]
  rcases (isRetry_firstUnit n).run_cases (drawBelow_succeeds hpos) s.patience s with
    ⟨refused, x, i, hlen, hanswers, hrefused, hx, hrun⟩ |
    ⟨refused, i, hlen, hanswers, hrefused, hrun⟩
  · obtain ⟨hlt, hxlt⟩ := List.forall_mem_append.mp (lt_of_answers_drawBelow hpos hanswers)
    exact Or.inl ⟨refused, x, i, hlen, hanswers, (forall_not_isUnitBelow_iff hlt).mpr hrefused,
      (isUnitBelow_iff_of_lt (hxlt x List.mem_cons_self)).mpr hx, hrun⟩
  · have hlt := lt_of_answers_drawBelow hpos hanswers
    exact Or.inr ⟨i, ⟨refused, hlen, hanswers, (forall_not_isUnitBelow_iff hlt).mpr hrefused⟩, hrun⟩

theorem drawUnit_delivers (hn : 2 ≤ n) :
    (drawUnit n).Delivers (Source.OutOfUnits n) (isUnitBelow n · = true) := by
  intro s
  rcases drawUnit_run_cases hn s with ⟨-, x, i, -, -, -, hx, hrun⟩ | ⟨i, hlost, hrun⟩
  · exact Or.inl ⟨x, i, hrun, hx⟩
  · exact Or.inr ⟨0, _, hrun, hlost⟩

/-- Every unit can be drawn. -/
theorem exists_drawUnit_run (hn : 2 ≤ n) {x : ℕ} (hx : isUnitBelow n x = true) :
    ∃ σ σ' : Source, (drawUnit n).run.run σ = (.ok x, σ') := by
  have hlt : ∀ a ∈ [] ++ [x], a < n := by simpa using lt_of_isUnitBelow hx
  have hdraw : ∀ j (hj : j < ([] ++ [x]).length),
      (Source.ofDraws (drawWidth n) [x]).draw (drawWidth n) j = ([] ++ [x])[j] := by
    intro j hj
    obtain rfl : j = 0 := Nat.lt_one_iff.mp hj
    exact Source.draw_ofDraws (lt_two_pow_drawWidth (lt_of_isUnitBelow hx))
  have hanswers := answers_drawBelow_of_draw_eq (Nat.le_of_succ_le hn) hlt hdraw
  exact ⟨_, _, drawUnit_run_of_answers hn hanswers (by simp) hx Nat.one_pos⟩

end Units

/-- The source in which every word is one, so that every draw is a unit. -/
def Source.ones : Source := ⟨fun _ => 1, 0, 1⟩

end QuorumPaillier
