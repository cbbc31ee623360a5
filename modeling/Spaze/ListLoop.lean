import Spaze.List

/-! The loops over a list: fuel, invariants, errors, walks along a sequence, logs. -/
namespace Spaze

/-- More fuel does not change what a loop returns. -/
theorem listForEachFrom_mono {α σ β : Type} {advance : σ → α → Except Stop (Option α)}
    {body : σ → α → Except Stop (σ × Option β)} {n m : ℕ} (hnm : n ≤ m) {s : σ}
    {link linkNext : Option α} {out : σ × Option β}
    (h : listForEachFrom advance body n s link linkNext = .ok out) :
    listForEachFrom advance body m s link linkNext = .ok out := by
  induction n generalizing m s link linkNext with
  | zero => cases h
  | succ n ih =>
    obtain ⟨m, rfl⟩ : ∃ k, m = k + 1 := ⟨m - 1, by omega⟩
    cases link with
    | none => exact h
    | some link =>
      simp only [listForEachFrom, bind_eq_ok] at h ⊢
      obtain ⟨⟨s', r⟩, hb, h⟩ := h
      refine ⟨⟨s', r⟩, hb, ?_⟩
      cases r with
      | some r => exact h
      | none =>
        simp only [bind_eq_ok] at h ⊢
        obtain ⟨l, hl, h⟩ := h
        exact ⟨l, hl, ih (by omega) h⟩

theorem listForEach_mono {α σ β : Type} {advance : σ → α → Except Stop (Option α)}
    {body : σ → α → Except Stop (σ × Option β)} {n m : ℕ} (hnm : n ≤ m) {s : σ}
    {first : Option α} {out : σ × Option β} (h : listForEach advance body n s first = .ok out) :
    listForEach advance body m s first = .ok out := by
  simp only [listForEach, bind_eq_ok] at h ⊢
  obtain ⟨l, hl, h⟩ := h
  exact ⟨l, hl, listForEachFrom_mono hnm h⟩

/-- What every round of a loop preserves, the loop preserves. -/
theorem listForEachFrom_invariant {α σ β : Type} {I : σ → Prop}
    {advance : σ → α → Except Stop (Option α)} {body : σ → α → Except Stop (σ × Option β)}
    (hbody : ∀ s x s' r, I s → body s x = .ok (s', r) → I s') {n : ℕ} {s : σ}
    {link linkNext : Option α} {out : σ × Option β} (hs : I s)
    (h : listForEachFrom advance body n s link linkNext = .ok out) : I out.1 := by
  induction n generalizing s link linkNext with
  | zero => cases h
  | succ n ih =>
    cases link with
    | none =>
      cases h
      exact hs
    | some link =>
      simp only [listForEachFrom, bind_eq_ok] at h
      obtain ⟨⟨s', r⟩, hb, h⟩ := h
      have hs' := hbody _ _ _ _ hs hb
      cases r with
      | some r =>
        cases h
        exact hs'
      | none =>
        simp only [bind_eq_ok] at h
        obtain ⟨l, _, h⟩ := h
        exact ih hs' h

theorem listForEach_invariant {α σ β : Type} {I : σ → Prop}
    {advance : σ → α → Except Stop (Option α)} {body : σ → α → Except Stop (σ × Option β)}
    (hbody : ∀ s x s' r, I s → body s x = .ok (s', r) → I s') {n : ℕ} {s : σ}
    {first : Option α} {out : σ × Option β} (hs : I s)
    (h : listForEach advance body n s first = .ok out) : I out.1 := by
  simp only [listForEach, bind_eq_ok] at h
  obtain ⟨l, _, h⟩ := h
  exact listForEachFrom_invariant hbody hs h

/-- A loop stops for want of fuel, or for a reason that one of its reads or rounds stops for. -/
theorem listForEachFrom_ne_error {α σ β : Type} {e : Stop}
    {advance : σ → α → Except Stop (Option α)} {body : σ → α → Except Stop (σ × Option β)}
    (he : e ≠ .fuel) (hnext : ∀ s x, advance s x ≠ .error e) (hbody : ∀ s x, body s x ≠ .error e)
    {n : ℕ} {s : σ} {link linkNext : Option α} :
    listForEachFrom advance body n s link linkNext ≠ .error e := by
  induction n generalizing s link linkNext with
  | zero =>
    intro h
    exact he (Except.error.inj h).symm
  | succ n ih =>
    cases link with
    | none => exact nofun
    | some link =>
      refine bind_ne_error (hbody s link) fun out _ => ?_
      obtain ⟨s', r⟩ := out
      cases r with
      | some r => exact nofun
      | none =>
        refine bind_ne_error ?_ fun l _ => ih
        cases linkNext with
        | none => exact nofun
        | some y => exact hnext s' y

theorem listForEach_ne_error {α σ β : Type} {e : Stop}
    {advance : σ → α → Except Stop (Option α)} {body : σ → α → Except Stop (σ × Option β)}
    (he : e ≠ .fuel) (hnext : ∀ s x, advance s x ≠ .error e) (hbody : ∀ s x, body s x ≠ .error e)
    {n : ℕ} {s : σ} {first : Option α} : listForEach advance body n s first ≠ .error e := by
  refine bind_ne_error ?_ fun l _ => listForEachFrom_ne_error he hnext hbody
  cases first with
  | none => exact nofun
  | some x => exact hnext s x

/-! ## Walks along a sequence -/

section Walk

variable {α σ β : Type} {advance : σ → α → Except Stop (Option α)}
  {body : σ → α → Except Stop (σ × Option β)} {I : σ → List α → Prop} {step : σ → α → σ}
  {s : σ} {xs : List α} {fuel : ℕ}

theorem linkAfter_walk (hnext : ∀ s x xs, I s (x :: xs) → advance s x = .ok xs.head?)
    (h : I s xs) : linkAfter advance s xs.head? = .ok xs.tail.head? := by
  cases xs with
  | nil => rfl
  | cons x xs => exact hnext s x xs h

/-- The walk rule. Whatever its body does to the words behind it, a loop goes along a sequence
once if an invariant of the nodes ahead says where the first of them leads, and each round
hands the invariant on to the rest. It takes one round for each node. -/
theorem listForEachFrom_walk (hnext : ∀ s x xs, I s (x :: xs) → advance s x = .ok xs.head?)
    (hbody : ∀ s x xs, I s (x :: xs) → body s x = .ok (step s x, none) ∧ I (step s x) xs)
    (h : I s xs) : listForEachFrom advance body fuel s xs.head? xs.tail.head? =
      if xs.length < fuel then .ok (xs.foldl step s, none) else .error .fuel := by
  induction xs generalizing s fuel with
  | nil => cases fuel <;> rfl
  | cons x xs ih =>
    cases fuel with
    | zero => rfl
    | succ fuel =>
      obtain ⟨hround, hrest⟩ := hbody s x xs h
      have hread := linkAfter_walk hnext hrest
      simp only [List.head?_cons, List.tail_cons, List.length_cons, List.foldl_cons,
        listForEachFrom, hround, hread, Bind.bind, Except.bind, Nat.add_lt_add_iff_right]
      exact ih hrest

theorem listForEach_walk (hnext : ∀ s x xs, I s (x :: xs) → advance s x = .ok xs.head?)
    (hbody : ∀ s x xs, I s (x :: xs) → body s x = .ok (step s x, none) ∧ I (step s x) xs)
    (h : I s xs) : listForEach advance body fuel s xs.head? =
      if xs.length < fuel then .ok (xs.foldl step s, none) else .error .fuel := by
  rw [listForEach, linkAfter_walk hnext h]
  exact listForEachFrom_walk hnext hbody h

end Walk

/-! ## Logs -/

/-- The body of a loop, which also writes down the link it is called with. -/
def loggedBody {α σ β : Type} (body : σ → α → Except Stop (σ × Option β)) (s : σ × List α)
    (link : α) : Except Stop ((σ × List α) × Option β) := do
  let (s', r) ← body s.1 link
  return ((s', s.2 ++ [link]), r)

/-- A loop with a log of the links its body was called with. -/
def listForEachLogged {α σ β : Type} (advance : σ → α → Except Stop (Option α))
    (body : σ → α → Except Stop (σ × Option β)) (fuel : ℕ) (s : σ) (first : Option α) :
    Except Stop ((σ × List α) × Option β) :=
  listForEach (fun s => advance s.1) (loggedBody body) fuel (s, []) first

/-- What a loop with a log returns, without the log. -/
def unlogged {α σ β : Type} (out : Except Stop ((σ × List α) × Option β)) :
    Except Stop (σ × Option β) := out.map fun out => (out.1.1, out.2)

section Log

variable {α σ β : Type} {advance : σ → α → Except Stop (Option α)}
  {body : σ → α → Except Stop (σ × Option β)} {I : σ → List α → Prop} {step : σ → α → σ}
  {s : σ} {xs log : List α} {fuel : ℕ}

theorem linkAfter_logged (link : Option α) :
    linkAfter (fun s : σ × List α => advance s.1) (s, log) link = linkAfter advance s link := by
  cases link <;> rfl

theorem listForEachFrom_unlogged (link linkNext : Option α) :
    unlogged (listForEachFrom (fun s => advance s.1) (loggedBody body) fuel (s, log) link
      linkNext) = listForEachFrom advance body fuel s link linkNext := by
  induction fuel generalizing s log link linkNext with
  | zero => rfl
  | succ fuel ih =>
    cases link with
    | none => rfl
    | some link =>
      simp only [listForEachFrom, loggedBody]
      cases body s link with
      | error e => rfl
      | ok out =>
        obtain ⟨s', r⟩ := out
        cases r with
        | some r => rfl
        | none =>
          simp only [Bind.bind, Except.bind, Pure.pure, Except.pure, linkAfter_logged]
          cases linkAfter advance s' linkNext with
          | error e => rfl
          | ok linkNext' => exact ih linkNext linkNext'

/-- The log changes nothing. -/
theorem listForEachLogged_unlogged (first : Option α) :
    unlogged (listForEachLogged advance body fuel s first) =
      listForEach advance body fuel s first := by
  rw [listForEachLogged, listForEach, listForEach, linkAfter_logged]
  cases linkAfter advance s first with
  | error e => rfl
  | ok linkNext => exact listForEachFrom_unlogged first linkNext

theorem foldl_logged : xs.foldl (fun s x => (step s.1 x, s.2 ++ [x])) (s, log) =
    (xs.foldl step s, log ++ xs) := by
  induction xs generalizing s log with
  | nil => simp
  | cons x xs ih => simp [ih]

/-- The log of a walk is the sequence. -/
theorem listForEachLogged_walk (hnext : ∀ s x xs, I s (x :: xs) → advance s x = .ok xs.head?)
    (hbody : ∀ s x xs, I s (x :: xs) → body s x = .ok (step s x, none) ∧ I (step s x) xs)
    (h : I s xs) : listForEachLogged advance body fuel s xs.head? =
      if xs.length < fuel then .ok ((xs.foldl step s, xs), none) else .error .fuel := by
  have hbody' : ∀ (s : σ × List α) x xs, I s.1 (x :: xs) →
      loggedBody body s x = .ok ((step s.1 x, s.2 ++ [x]), none) ∧ I (step s.1 x) xs := by
    intro s x xs h
    obtain ⟨hround, hrest⟩ := hbody s.1 x xs h
    rw [loggedBody, hround]
    exact ⟨rfl, hrest⟩
  rw [listForEachLogged, listForEach_walk (I := fun s => I s.1) (fun s => hnext s.1) hbody'
    (s := (s, [])) h, foldl_logged, List.nil_append]

end Log

end Spaze
