import Spaze.Lib.Runs

/-! A `while` loop as rounds that are carried out until one of them is the last. -/
namespace Rounds

open Runs

variable {σ ε : Type*}

/-- Carries out rounds until one says that it is the last; `out` when `n` have not sufficed. -/
def iterate (out : ε) (round : σ → Except ε (σ × Bool)) : ℕ → σ → Except ε σ
  | 0, _ => .error out
  | n + 1, s =>
    match round s with
    | .error e => .error e
    | .ok (t, last) => if last then .ok t else iterate out round n t

/-- The rounds that return, labelled with whether they are the last. -/
def roundSystem (round : σ → Except ε (σ × Bool)) : System σ Bool where
  initial _ := True
  step s last t := round s = .ok (t, last)

variable {out e : ε} {round : σ → Except ε (σ × Bool)} {n : ℕ} {s t u : σ}

theorem iterate_last (h : round s = .ok (t, true)) : iterate out round (n + 1) s = .ok t := by
  simp [iterate, h]

theorem iterate_next (h : round s = .ok (t, false)) :
    iterate out round (n + 1) s = iterate out round n t := by
  simp [iterate, h]

theorem iterate_error (h : round s = .error e) : iterate out round (n + 1) s = .error e := by
  simp [iterate, h]

/-- Rounds that are not the last can be left off. -/
theorem iterate_run {tr : List (σ × Bool)} (h : (roundSystem round).Run s tr t)
    (hgo : ∀ x ∈ tr, x.2 = false) :
    iterate out round (n + tr.length) s = iterate out round n t := by
  induction h generalizing n with
  | nil => rfl
  | @snoc t u tr a _ ha ih =>
    obtain rfl : a = false := hgo (t, a) (by simp)
    rw [List.length_append, List.length_singleton, ← Nat.add_assoc, Nat.add_right_comm,
      ih fun x hx => hgo x (by simp [hx]), iterate_next ha]

/-- Fewer rounds than a run has without coming to its last one do not suffice. -/
theorem iterate_short {tr : List (σ × Bool)} (h : (roundSystem round).Run s tr t)
    (hgo : ∀ x ∈ tr, x.2 = false) (hn : n ≤ tr.length) :
    iterate out round n s = .error out := by
  induction h with
  | nil =>
    obtain rfl := Nat.le_zero.mp hn
    rfl
  | @snoc t u tr a hrun ha ih =>
    obtain rfl : a = false := hgo (t, a) (by simp)
    have hgo' : ∀ x ∈ tr, x.2 = false := fun x hx => hgo x (by simp [hx])
    rw [List.length_append, List.length_singleton] at hn
    rcases Nat.lt_or_eq_of_le hn with hlt | rfl
    · exact ih hgo' (Nat.le_of_lt_succ hlt)
    · rw [Nat.add_comm, iterate_run hrun hgo', iterate_next ha]
      rfl

/-- A loop returns after the first round that is the last. -/
theorem iterate_ok_iff : iterate out round n s = .ok t ↔ ∃ tr u,
    (roundSystem round).Run s tr u ∧ (∀ x ∈ tr, x.2 = false) ∧ tr.length < n ∧
      round u = .ok (t, true) := by
  constructor
  · intro h
    induction n generalizing s with
    | zero => cases h
    | succ n ih =>
      rcases hr : round s with e | ⟨v, _ | _⟩
      · cases (iterate_error hr).symm.trans h
      · obtain ⟨tr, u, hrun, hgo, hlt, hu⟩ := ih ((iterate_next hr).symm.trans h)
        have hstep : (roundSystem round).step s false v := hr
        exact ⟨_, u, hrun.cons hstep, by simpa using hgo, by simpa using hlt, hu⟩
      · cases (iterate_last hr).symm.trans h
        exact ⟨[], s, .nil s, by simp, by simp, hr⟩
  · rintro ⟨tr, u, hrun, hgo, hlt, hu⟩
    obtain ⟨m, rfl⟩ := Nat.exists_eq_add_of_lt hlt
    rw [Nat.add_assoc, Nat.add_comm tr.length, iterate_run hrun hgo]
    exact iterate_last hu

/-- A loop whose rounds keep it in states that it cannot leave uses up any number of rounds. -/
theorem iterate_spins {I : σ → Prop} (hround : ∀ s, I s → ∃ t, round s = .ok (t, false) ∧ I t)
    (hs : I s) : iterate out round n s = .error out := by
  induction n generalizing s with
  | zero => rfl
  | succ n ih =>
    obtain ⟨t, hr, ht⟩ := hround s hs
    rw [iterate_next hr, ih ht]

/-- So does a loop that comes to such a state. -/
theorem iterate_spins_from {I : σ → Prop} {tr : List (σ × Bool)}
    (hround : ∀ s, I s → ∃ t, round s = .ok (t, false) ∧ I t)
    (h : (roundSystem round).Run s tr t) (hgo : ∀ x ∈ tr, x.2 = false) (ht : I t) :
    iterate out round n s = .error out := by
  rcases Nat.lt_or_ge tr.length n with hlt | hge
  · obtain ⟨m, rfl⟩ := Nat.exists_eq_add_of_lt hlt
    rw [Nat.add_assoc, Nat.add_comm tr.length, iterate_run h hgo, iterate_spins hround ht]
  · exact iterate_short h hgo hge

/-- A loop that stops for a reason has done so in one of its rounds, or has used them up. -/
theorem iterate_error_cases (h : iterate out round n s = .error e) : ∃ tr u,
    (roundSystem round).Run s tr u ∧ (∀ x ∈ tr, x.2 = false) ∧
      (round u = .error e ∧ tr.length < n ∨ e = out ∧ tr.length = n) := by
  induction n generalizing s with
  | zero =>
    cases h
    exact ⟨[], s, .nil s, by simp, Or.inr ⟨rfl, rfl⟩⟩
  | succ n ih =>
    rcases hr : round s with e' | ⟨v, _ | _⟩
    · cases (iterate_error hr).symm.trans h
      exact ⟨[], s, .nil s, by simp, Or.inl ⟨hr, by simp⟩⟩
    · obtain ⟨tr, u, hrun, hgo, hend⟩ := ih ((iterate_next hr).symm.trans h)
      have hstep : (roundSystem round).step s false v := hr
      refine ⟨_, u, hrun.cons hstep, by simpa using hgo, ?_⟩
      simpa using hend
    · cases (iterate_last hr).symm.trans h

end Rounds
