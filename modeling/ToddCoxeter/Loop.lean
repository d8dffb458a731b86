/-! # Loops with a budget

A loop repeats a step, which gives either the next state or a result.  `Loop.run step bits` takes at
most `2 ^ bits - 1` steps and is written so that a large budget costs nothing: the steps are taken in
blocks of one, two, four, … of them, and no number is counted down.  A loop that ends within its
budget gives its result, and one that does not gives the state that it has reached.

`Loop.steps step n` repeats a step `n` times, or less often if there is a result before.  A loop with a
budget takes as many steps as the budget allows (`Loop.run_eq_steps`), so that what is shown for single
steps holds of the loop. -/

namespace ToddCoxeter.Loop

variable {σ ρ : Type}

/-- Takes `2 ^ k` steps, or as many as there are up to the result. -/
def block (step : σ → σ ⊕ ρ) : Nat → σ → σ ⊕ ρ
  | 0, s => step s
  | k + 1, s =>
    match block step k s with
    | .inl s => block step k s
    | .inr r => .inr r

/-- Takes `bits` blocks of steps, of which the first has `2 ^ k` steps and each next twice as many. -/
def blocks (step : σ → σ ⊕ ρ) : Nat → Nat → σ → σ ⊕ ρ
  | 0, _, s => .inl s
  | bits + 1, k, s =>
    match block step k s with
    | .inl s => blocks step bits (k + 1) s
    | .inr r => .inr r

/-- Repeats the step until there is a result, but at most `2 ^ bits - 1` times. -/
def run (step : σ → σ ⊕ ρ) (bits : Nat) (s : σ) : σ ⊕ ρ := blocks step bits 0 s

/-! ### Step by step -/

/-- Repeats the step until there is a result, but at most `n` times. -/
def steps (step : σ → σ ⊕ ρ) : Nat → σ → σ ⊕ ρ
  | 0, s => .inl s
  | n + 1, s =>
    match step s with
    | .inl s => steps step n s
    | .inr r => .inr r

theorem steps_add (step : σ → σ ⊕ ρ) (m n : Nat) (s : σ) :
    steps step (m + n) s =
      match steps step m s with
      | .inl s => steps step n s
      | .inr r => .inr r := by
  induction m generalizing s with
  | zero => simp [steps]
  | succ m ih =>
      rw [Nat.add_right_comm]
      simp only [steps]
      cases step s with
      | inl s => exact ih s
      | inr r => rfl

theorem steps_succ_of_eq {step : σ → σ ⊕ ρ} {n : Nat} {s s' : σ} (h : steps step n s = .inl s') :
    steps step (n + 1) s = step s' := by
  rw [steps_add, h]
  simp only [steps]
  cases step s' <;> rfl

theorem steps_eq_of_le {step : σ → σ ⊕ ρ} {m n : Nat} {s : σ} {r : ρ} (h : steps step m s = .inr r)
    (hle : m ≤ n) : steps step n s = .inr r := by
  obtain ⟨k, rfl⟩ := Nat.exists_eq_add_of_le hle
  rw [steps_add, h]

theorem eq_of_steps_eq {step : σ → σ ⊕ ρ} {m n : Nat} {s : σ} {r r' : ρ}
    (hm : steps step m s = .inr r) (hn : steps step n s = .inr r') : r = r' := by
  have hm' := steps_eq_of_le hm (Nat.le_max_left m n)
  have hn' := steps_eq_of_le hn (Nat.le_max_right m n)
  exact Sum.inr.inj (hm'.symm.trans hn')

/-- What holds of a state after `k` steps if every step preserves it, holds of the state after `n` more steps,
or else of a state in which the loop ends. -/
theorem steps_cases {step : σ → σ ⊕ ρ} {q : Nat → σ → Prop}
    (hq : ∀ k s s', q k s → step s = .inl s' → q (k + 1) s') {k : Nat} {s : σ} (hs : q k s) (n : Nat) :
    (∃ s', steps step n s = .inl s' ∧ q (k + n) s') ∨
      ∃ m s' r, steps step n s = .inr r ∧ q m s' ∧ step s' = .inr r := by
  induction n generalizing k s with
  | zero => exact .inl ⟨s, rfl, hs⟩
  | succ n ih =>
      unfold steps
      cases hstep : step s with
      | inl s' =>
          have hrest := ih (hq k s s' hs hstep)
          rwa [Nat.add_right_comm] at hrest
      | inr r => exact .inr ⟨k, s, r, rfl, hs, hstep⟩

/-- A loop that ends does so with a step from a state that it reaches. -/
theorem exists_step_of_steps_eq {step : σ → σ ⊕ ρ} {n : Nat} {s : σ} {r : ρ} (h : steps step n s = .inr r) :
    ∃ m s', steps step m s = .inl s' ∧ step s' = .inr r := by
  have hreach : ∀ k s' s'', steps step k s = .inl s' → step s' = .inl s'' →
      steps step (k + 1) s = .inl s'' := fun k s' s'' hk hs => (steps_succ_of_eq hk).trans hs
  rcases steps_cases hreach (k := 0) (s := s) rfl n with ⟨s', hs', -⟩ | ⟨m, s', r', hr', hm, hs'⟩
  · exact absurd (h.symm.trans hs') (by simp)
  · obtain rfl : r' = r := Sum.inr.inj (hr'.symm.trans h)
    exact ⟨m, s', hm, hs'⟩

/-! ### Blocks of steps -/

theorem block_eq_steps (step : σ → σ ⊕ ρ) (k : Nat) (s : σ) :
    block step k s = steps step (1 <<< k) s := by
  induction k generalizing s with
  | zero =>
      simp only [block, Nat.shiftLeft_zero, steps]
      cases step s <;> rfl
  | succ k ih =>
      rw [Nat.shiftLeft_succ, Nat.two_mul, steps_add]
      unfold block
      rw [ih]
      cases steps step (1 <<< k) s with
      | inl s => exact ih s
      | inr r => rfl

theorem blocks_eq_steps (step : σ → σ ⊕ ρ) (bits k : Nat) (s : σ) :
    blocks step bits k s = steps step (1 <<< k * (1 <<< bits - 1)) s := by
  induction bits generalizing k s with
  | zero => simp [blocks, steps]
  | succ bits ih =>
      have hsplit : 1 <<< k * (1 <<< (bits + 1) - 1) = 1 <<< k + 1 <<< (k + 1) * (1 <<< bits - 1) := by
        have hpos : 0 < 1 <<< bits := by
          rw [Nat.one_shiftLeft]
          exact Nat.two_pow_pos bits
        obtain ⟨m, hm⟩ := Nat.exists_eq_add_of_lt hpos
        have hdouble : 1 <<< (bits + 1) - 1 = 1 + 2 * m := by
          rw [Nat.shiftLeft_succ]
          omega
        have hsingle : 1 <<< bits - 1 = m := by omega
        rw [hdouble, hsingle, Nat.shiftLeft_succ, Nat.mul_add, Nat.mul_one, Nat.mul_left_comm, Nat.mul_assoc]
      rw [hsplit, steps_add]
      unfold blocks
      rw [block_eq_steps]
      cases steps step (1 <<< k) s with
      | inl s => exact ih (k + 1) s
      | inr r => rfl

/-- A loop with a budget of `bits` takes up to `2 ^ bits - 1` steps, where the power is written as a shift. -/
theorem run_eq_steps (step : σ → σ ⊕ ρ) (bits : Nat) (s : σ) :
    run step bits s = steps step (1 <<< bits - 1) s := by
  unfold run
  rw [blocks_eq_steps, Nat.shiftLeft_zero, Nat.one_mul]

end ToddCoxeter.Loop
