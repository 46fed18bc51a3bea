import Mathlib.Tactic
import QuorumPaillier.Random.Source

/-!
# Outcomes of drawing computations

A computation that reads a source can fail for a reason of its own, or because a loop lost its
patience.  The second depends on what was drawn only, so the two are kept apart.
`Draw.Succeeds x P` says that `x` answers with a value in `P`, whatever the source.
`Draw.Delivers lost x P` allows one failure besides, and it says what was drawn then: words that
have actually been read make a stretch in `lost`.  Of a computation that fails for reasons of its
own `Draw.Ends x P E` says that its answers are in `P` and its failures in `E`.  All of these
compose along `>>=`.

## Main definitions

* `Draw.Answers` — the answers that a computation gives in turn.
* `Draw.Succeeds`, `Draw.Delivers`, `Draw.Ends` — the outcomes of a drawing computation.
* `Draw.IsRetry` — a loop of attempts.

## Main results

* `Draw.IsRetry.run_cases` — **a loop gives the first acceptable answer of its attempts**, or fails
  after all of them.
-/

namespace QuorumPaillier.Draw

variable {α β : Type} {x : Draw α} {f : α → Draw β} {P : α → Prop} {Q : β → Prop} {s s' : Source}

/-! ### Answers in turn -/

/-- From the source `s` on, `x` answers the members of the list in turn, and then the source `s'` is
left. -/
inductive Answers (x : Draw α) : Source → List α → Source → Prop
  /-- Nothing is asked, nothing is drawn. -/
  | nil (s : Source) : Answers x s [] s
  /-- One answer, then the others from where it left the source. -/
  | cons {s m s' : Source} {a : α} {as : List α} (head : x.run.run s = (.ok a, m))
      (tail : Answers x m as s') : Answers x s (a :: as) s'

/-- A list of draws holds the answers given in turn, as many as were asked for. -/
theorem drawList_run_eq_ok_iff {k : ℕ} {as : List α} :
    (drawList x k).run.run s = (.ok as, s') ↔ as.length = k ∧ x.Answers s as s' := by
  induction k generalizing s as with
  | zero =>
    have hrun : (drawList x 0).run.run s = (.ok [], s) := rfl
    rw [hrun]
    constructor
    · intro h
      cases h
      exact ⟨rfl, .nil _⟩
    · rintro ⟨hlen, hanswers⟩
      cases hanswers with
      | nil => rfl
      | cons head tail => cases hlen
  | succ k ih =>
    rw [drawList, run_bind_eq_ok_iff]
    constructor
    · rintro ⟨a, m, head, hrest⟩
      obtain ⟨as', m', hrun, hpure⟩ := run_bind_eq_ok_iff.mp hrest
      cases hpure
      obtain ⟨hlen, tail⟩ := ih.mp hrun
      exact ⟨by rw [List.length_cons, hlen], .cons head tail⟩
    · rintro ⟨hlen, hanswers⟩
      cases hanswers with
      | nil => cases hlen
      | cons head tail =>
        have hrun := ih.mpr ⟨Nat.succ_injective hlen, tail⟩
        exact ⟨_, _, head, run_bind_eq_ok_iff.mpr ⟨_, _, hrun, rfl⟩⟩

theorem Answers.forall_mem {as : List α} (h : x.Answers s as s')
    (hx : ∀ s a s', x.run.run s = (.ok a, s') → P a) : ∀ a ∈ as, P a := by
  induction h with
  | nil => simp
  | cons head tail ih =>
    intro a ha
    rcases List.mem_cons.mp ha with rfl | ha
    · exact hx _ _ _ head
    · exact ih a ha

/-- Draws that take `c` words each give what is found at places `c` words apart. -/
theorem Answers.getElem_eq {value : Source → α} {c : ℕ} {as : List α} (h : x.Answers s as s')
    (hx : ∀ s, x.run.run s = (.ok (value s), s.advance c)) :
    (∀ j (hj : j < as.length), as[j] = value (s.advance (j * c))) ∧
      s' = s.advance (as.length * c) := by
  induction h with
  | nil s =>
    refine ⟨fun j hj => absurd hj (Nat.not_lt_zero j), ?_⟩
    rw [List.length_nil, Nat.zero_mul, Source.advance_zero]
  | @cons s m s' a as head tail ih =>
    obtain ⟨ha, rfl⟩ : value s = a ∧ s.advance c = m := by
      rw [hx] at head
      cases head
      exact ⟨rfl, rfl⟩
    have hshift : ∀ j, (s.advance c).advance (j * c) = s.advance ((j + 1) * c) := by
      intro j
      rw [Source.advance_advance, Nat.succ_mul, Nat.add_comm]
    obtain ⟨hrest, hlast⟩ := ih
    refine ⟨?_, by rw [hlast, hshift, List.length_cons]⟩
    intro j hj
    cases j with
    | zero => rw [List.getElem_cons_zero, Nat.zero_mul, Source.advance_zero, ha]
    | succ j => rw [List.getElem_cons_succ, hrest j (Nat.lt_of_succ_lt_succ hj), hshift]

/-! ### Answers for every source -/

section Delivers

variable {lost : Source → Source → Prop}

/-- `x` answers with a value in `P`, unless it reads a stretch of the source that is in `lost`. -/
def Delivers (lost : Source → Source → Prop) (x : Draw α) (P : α → Prop) : Prop :=
  ∀ s, (∃ a i, x.run.run s = (.ok a, s.advance i) ∧ P a) ∨
    ∃ i s', x.run.run s = (.error .drawsExhausted, s') ∧ lost (s.advance i) s'

/-- Whatever the source, `x` answers with a value in `P`. -/
def Succeeds (x : Draw α) (P : α → Prop) : Prop :=
  ∀ s, ∃ a i, x.run.run s = (.ok a, s.advance i) ∧ P a

theorem succeeds_iff_delivers : x.Succeeds P ↔ x.Delivers (fun _ _ => False) P := by
  simp [Succeeds, Delivers]

theorem Succeeds.delivers (hx : x.Succeeds P) : x.Delivers lost P := fun s => Or.inl (hx s)

theorem succeeds_pure {a : α} (h : P a) : Succeeds (pure a) P := fun _ => ⟨a, 0, rfl, h⟩

/-- A step that draws nothing gives its value. -/
theorem succeeds_ok {e : Except Error α} {a : α} (he : e = .ok a) (h : P a) :
    Succeeds (liftM e) P := by
  subst he
  exact succeeds_pure h

theorem delivers_pure {a : α} (h : P a) : Delivers lost (pure a) P := (succeeds_pure h).delivers

theorem delivers_ok {e : Except Error α} {a : α} (he : e = .ok a) (h : P a) :
    Delivers lost (liftM e) P := (succeeds_ok he h).delivers

theorem Delivers.mono {P' : α → Prop} (hx : x.Delivers lost P) (h : ∀ a, P a → P' a) :
    x.Delivers lost P' := by
  intro s
  rcases hx s with ⟨a, i, hrun, ha⟩ | hlost
  · exact Or.inl ⟨a, i, hrun, h a ha⟩
  · exact Or.inr hlost

theorem Delivers.bind (hx : x.Delivers lost P) (hf : ∀ a, P a → (f a).Delivers lost Q) :
    Delivers lost (x >>= f) Q := by
  intro s
  rcases hx s with ⟨a, i, hrun, ha⟩ | ⟨i, s', hrun, hlost⟩
  · rw [run_bind_of_ok hrun]
    rcases hf a ha (s.advance i) with ⟨b, j, hrun', hb⟩ | ⟨j, s', hrun', hlost⟩
    · exact Or.inl ⟨b, i + j, by rw [hrun', Source.advance_advance], hb⟩
    · rw [Source.advance_advance] at hlost
      exact Or.inr ⟨i + j, s', hrun', hlost⟩
  · exact Or.inr ⟨i, s', run_bind_of_error hrun, hlost⟩

/-- A list of draws has its length, and every draw lands where one draw does. -/
theorem Delivers.drawList (hx : x.Delivers lost P) (k : ℕ) :
    Delivers lost (drawList x k) fun as => as.length = k ∧ ∀ a ∈ as, P a := by
  induction k with
  | zero => exact delivers_pure ⟨rfl, by simp⟩
  | succ k ih =>
    refine hx.bind fun a ha => ih.bind fun as has => delivers_pure ⟨?_, ?_⟩
    · rw [List.length_cons, has.1]
    · intro b hb
      rcases List.mem_cons.mp hb with rfl | hb
      · exact ha
      · exact has.2 b hb

theorem Succeeds.mono {P' : α → Prop} (hx : x.Succeeds P) (h : ∀ a, P a → P' a) : x.Succeeds P' :=
  succeeds_iff_delivers.mpr ((succeeds_iff_delivers.mp hx).mono h)

theorem Succeeds.bind (hx : x.Succeeds P) (hf : ∀ a, P a → (f a).Succeeds Q) :
    Succeeds (x >>= f) Q :=
  succeeds_iff_delivers.mpr ((succeeds_iff_delivers.mp hx).bind fun a ha => (hf a ha).delivers)

theorem Succeeds.drawList (hx : x.Succeeds P) (k : ℕ) :
    Succeeds (drawList x k) fun as => as.length = k ∧ ∀ a ∈ as, P a :=
  succeeds_iff_delivers.mpr (hx.delivers.drawList k)

/-- What always succeeds gives as many answers in turn as are wanted. -/
theorem Succeeds.exists_answers (hx : x.Succeeds P) (k : ℕ) (s : Source) :
    ∃ as i, as.length = k ∧ x.Answers s as (s.advance i) := by
  obtain ⟨as, i, hrun, -⟩ := hx.drawList k s
  obtain ⟨hlen, hanswers⟩ := drawList_run_eq_ok_iff.mp hrun
  exact ⟨as, i, hlen, hanswers⟩

theorem Delivers.of_run_eq_ok {a : α} (hx : x.Delivers lost P) (h : x.run.run s = (.ok a, s')) :
    P a := by
  rcases hx s with ⟨b, i, hrun, hb⟩ | ⟨i, m, hrun, -⟩
  · rw [h] at hrun
    cases hrun
    exact hb
  · rw [h] at hrun
    cases hrun

theorem Succeeds.of_run_eq_ok {a : α} (hx : x.Succeeds P) (h : x.run.run s = (.ok a, s')) : P a :=
  (succeeds_iff_delivers.mp hx).of_run_eq_ok h

end Delivers

/-! ### Failures -/

section Ends

variable {E : Error → Prop}

/-- Whatever the source, `x` answers with a value in `P` or fails for a reason in `E`. -/
def Ends (x : Draw α) (P : α → Prop) (E : Error → Prop) : Prop :=
  ∀ s, match (x.run.run s).1 with
    | .ok a => P a
    | .error e => E e

theorem Ends.of_run_eq_ok {a : α} (hx : x.Ends P E) (h : x.run.run s = (.ok a, s')) : P a := by
  have hs := hx s
  rwa [h] at hs

theorem Ends.of_run_eq_error {e : Error} (hx : x.Ends P E) (h : x.run.run s = (.error e, s')) :
    E e := by
  have hs := hx s
  rwa [h] at hs

theorem ends_pure {a : α} (h : P a) : Ends (pure a) P E := fun _ => h

theorem ends_throw {e : Error} (h : E e) : Ends (throw e : Draw α) P E := fun _ => h

/-- A step that draws nothing ends as it does by itself. -/
theorem ends_lift {r : Except Error α} (hok : ∀ a, r = .ok a → P a)
    (herror : ∀ e, r = .error e → E e) : Ends (liftM r) P E := by
  cases r with
  | ok a => exact ends_pure (hok a rfl)
  | error e => exact ends_throw (herror e rfl)

theorem Ends.mono {P' : α → Prop} {E' : Error → Prop} (hx : x.Ends P E)
    (hP : ∀ a, P a → P' a) (hE : ∀ e, E e → E' e) : x.Ends P' E' := by
  intro s
  have hs := hx s
  generalize (x.run.run s).1 = out at hs ⊢
  cases out with
  | ok a => exact hP a hs
  | error e => exact hE e hs

/-- Ends compose: what the first step draws does not matter for the second. -/
theorem Ends.bind (hx : x.Ends P E) (hf : ∀ a, P a → (f a).Ends Q E) : Ends (x >>= f) Q E := by
  intro s
  have hs := hx s
  rcases hrun : x.run.run s with ⟨out, s'⟩
  rw [hrun] at hs
  cases out with
  | ok a =>
    rw [run_bind_of_ok hrun]
    exact hf a hs s'
  | error e =>
    rw [run_bind_of_error hrun]
    exact hs

end Ends

/-! ### Loops of attempts -/

/-- A loop of attempts: the first acceptable answer of an attempt is its answer, and when no
attempts are left it fails with `e`. -/
structure IsRetry (loop : ℕ → Draw α) (attempt : Draw α) (accept : α → Prop)
    [DecidablePred accept] (e : Error) : Prop where
  /-- No attempts are left. -/
  zero : loop 0 = throw e
  /-- One attempt: its answer is taken or the rest of the attempts decide. -/
  succ : ∀ t, loop (t + 1) = attempt >>= fun a => if accept a then pure a else loop t

namespace IsRetry

variable {loop loop' : ℕ → Draw α} {attempt : Draw α} {accept accept' : α → Prop}
  [DecidablePred accept] [DecidablePred accept'] {e : Error}

theorem succ_run (h : IsRetry loop attempt accept e) {a : α} {m : Source}
    (ha : attempt.run.run s = (.ok a, m)) (t : ℕ) :
    (loop (t + 1)).run.run s = if accept a then (.ok a, m) else (loop t).run.run m := by
  rw [h.succ, run_bind_of_ok ha]
  split <;> rfl

/-- An acceptable answer after others that are not is the answer of the loop. -/
theorem run_of_answers (h : IsRetry loop attempt accept e) {refused : List α} {a : α}
    (hanswers : attempt.Answers s (refused ++ [a]) s') (hrefused : ∀ b ∈ refused, ¬accept b)
    (ha : accept a) {t : ℕ} (ht : refused.length < t) :
    (loop t).run.run s = (.ok a, s') := by
  -- with every attempt the refused answers and the attempts that are left go down together
  induction refused generalizing s t with
  | nil =>
    obtain ⟨r, rfl⟩ : ∃ r, t = r + 1 := ⟨t - 1, (Nat.sub_add_cancel ht).symm⟩
    cases hanswers with
    | cons head tail =>
      cases tail
      rw [h.succ_run head, if_pos ha]
  | cons b refused ih =>
    obtain ⟨r, rfl⟩ : ∃ r, t = r + 1 := ⟨t - 1, by omega⟩
    obtain ⟨hb, hrest⟩ := List.forall_mem_cons.mp hrefused
    cases hanswers with
    | cons head tail =>
      rw [h.succ_run head, if_neg hb, ih tail hrest (Nat.lt_of_succ_lt_succ ht)]

/-- **There is a first acceptable answer, and it is the answer of the loop; or there is none, and
the loop fails.** -/
theorem run_cases (h : IsRetry loop attempt accept e) (hattempt : attempt.Succeeds P) (t : ℕ)
    (s : Source) :
    (∃ refused a i, refused.length < t ∧ attempt.Answers s (refused ++ [a]) (s.advance i) ∧
      (∀ b ∈ refused, ¬accept b) ∧ accept a ∧ (loop t).run.run s = (.ok a, s.advance i)) ∨
    ∃ refused i, refused.length = t ∧ attempt.Answers s refused (s.advance i) ∧
      (∀ b ∈ refused, ¬accept b) ∧ (loop t).run.run s = (.error e, s.advance i) := by
  -- the answer of the first attempt is put in front of what the other attempts answer
  induction t generalizing s with
  | zero =>
    refine Or.inr ⟨[], 0, rfl, .nil s, by simp, ?_⟩
    rw [h.zero]
    rfl
  | succ t ih =>
    obtain ⟨b, i, head, -⟩ := hattempt s
    rw [h.succ_run head]
    by_cases hb : accept b
    · rw [if_pos hb]
      exact Or.inl ⟨[], b, i, Nat.succ_pos t, .cons head (.nil _), by simp, hb, rfl⟩
    · rw [if_neg hb]
      rcases ih (s.advance i) with ⟨refused, a, j, hlen, tail, hrefused, ha, hrun⟩ |
        ⟨refused, j, hlen, tail, hrefused, hrun⟩
      · rw [Source.advance_advance] at tail hrun
        exact Or.inl ⟨b :: refused, a, i + j, Nat.succ_lt_succ hlen, .cons head tail,
          List.forall_mem_cons.mpr ⟨hb, hrefused⟩, ha, hrun⟩
      · rw [Source.advance_advance] at tail hrun
        exact Or.inr ⟨b :: refused, i + j, congrArg (· + 1) hlen, .cons head tail,
          List.forall_mem_cons.mpr ⟨hb, hrefused⟩, hrun⟩

/-- Two loops whose tests agree on the answers of an attempt run alike. -/
theorem run_congr (h : IsRetry loop attempt accept e) (h' : IsRetry loop' attempt accept' e)
    (hattempt : attempt.Succeeds P) (hagree : ∀ a, P a → (accept a ↔ accept' a)) (t : ℕ)
    (s : Source) : (loop t).run.run s = (loop' t).run.run s := by
  induction t generalizing s with
  | zero => rw [h.zero, h'.zero]
  | succ t ih =>
    obtain ⟨a, i, hrun, ha⟩ := hattempt s
    rw [h.succ_run hrun, h'.succ_run hrun, ih]
    exact if_congr (hagree a ha) rfl rfl

end IsRetry

end QuorumPaillier.Draw
