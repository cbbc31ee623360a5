import Mathlib.Data.List.Basic
import Mathlib.Data.List.Forall2
import Mathlib.Data.List.Induction

/-! Labelled transition systems, their finite runs, and the induction rules for runs. -/
namespace Runs

variable {σ Λ : Type*}

/-- A labelled transition system: its initial states and its labelled steps. -/
structure System (σ Λ : Type*) where
  initial : σ → Prop
  step : σ → Λ → σ → Prop

/-- A finite run. Its trace lists, for every step in order, the state before it and its label. -/
inductive System.Run (M : System σ Λ) : σ → List (σ × Λ) → σ → Prop
  | nil (s : σ) : M.Run s [] s
  | snoc {s t u : σ} {tr : List (σ × Λ)} {a : Λ} :
      M.Run s tr t → M.step t a u → M.Run s (tr ++ [(t, a)]) u

/-- The runs that start in an initial state. -/
def System.Trace (M : System σ Λ) (tr : List (σ × Λ)) (t : σ) : Prop :=
  ∃ s, M.initial s ∧ M.Run s tr t

/-- The labels of a trace, without the states. -/
def labels (tr : List (σ × Λ)) : List Λ := tr.map Prod.snd

variable {M : System σ Λ} {s t u : σ} {tr tr' : List (σ × Λ)} {a : Λ} {x : σ × Λ}

@[simp] theorem labels_snoc : labels (tr ++ [(t, a)]) = labels tr ++ [a] := by
  simp [labels]

theorem System.Run.single (h : M.step s a t) : M.Run s [(s, a)] t :=
  .snoc (.nil s) h

theorem System.Run.trans (h : M.Run s tr t) (h' : M.Run t tr' u) : M.Run s (tr ++ tr') u := by
  induction h' with
  | nil => simpa using h
  | snoc _ hs ih =>
    rw [← List.append_assoc]
    exact .snoc ih hs

theorem System.run_snoc_iff :
    M.Run s (tr ++ [x]) u ↔ M.Run s tr x.1 ∧ M.step x.1 x.2 u := by
  constructor
  · intro h
    generalize hl : tr ++ [x] = l at h
    cases h with
    | nil => simp at hl
    | snoc h hs =>
      obtain ⟨rfl, hx⟩ := List.append_inj' hl rfl
      obtain rfl := List.singleton_injective hx
      exact ⟨h, hs⟩
  · rintro ⟨h, hs⟩
    exact .snoc h hs

/-- The last entry of a trace is the step into the last state. -/
theorem System.Run.last (h : M.Run s tr t) (hx : tr.getLast? = some x) : M.step x.1 x.2 t := by
  obtain ⟨l, rfl⟩ := List.getLast?_eq_some_iff.mp hx
  exact (System.run_snoc_iff.mp h).2

/-- Every entry of a trace is a step taken between two halves of the run. -/
theorem System.Run.split (h : M.Run s (tr ++ x :: tr') u) :
    ∃ v, M.Run s tr x.1 ∧ M.step x.1 x.2 v ∧ M.Run v tr' u := by
  induction tr' using List.reverseRecOn generalizing u with
  | nil =>
    obtain ⟨h, hs⟩ := System.run_snoc_iff.mp h
    exact ⟨u, h, hs, .nil u⟩
  | append_singleton tr' y ih =>
    rw [← List.cons_append, ← List.append_assoc, System.run_snoc_iff] at h
    obtain ⟨v, hv, hx, ht⟩ := ih h.1
    exact ⟨v, hv, hx, .snoc ht h.2⟩

/-- The invariant rule: what every step preserves, every run preserves. -/
theorem System.Run.invariant {I : σ → Prop} (h : M.Run s tr t)
    (hstep : ∀ s a t, I s → M.step s a t → I t) (hs : I s) : I t := by
  induction h with
  | nil => exact hs
  | snoc _ ha ih => exact hstep _ _ _ ih ha

/-- The invariant rule for runs whose steps all satisfy `ok`. -/
theorem System.Run.invariant_of {I : σ → Prop} {ok : σ → Λ → Prop} (h : M.Run s tr t)
    (hok : ∀ x ∈ tr, ok x.1 x.2) (hstep : ∀ s a t, I s → ok s a → M.step s a t → I t)
    (hs : I s) : I t := by
  induction h with
  | nil => exact hs
  | snoc _ ha ih =>
    exact hstep _ _ _ (ih fun x hx => hok x (by simp [hx])) (hok (_, _) (by simp)) ha

/-- Such an invariant also holds in every state the run passes through, where the run then
takes a step. -/
theorem System.Run.invariant_mem {I : σ → Prop} {ok : σ → Λ → Prop} (h : M.Run s tr t)
    (hok : ∀ x ∈ tr, ok x.1 x.2) (hstep : ∀ s a t, I s → ok s a → M.step s a t → I t)
    (hs : I s) (hx : x ∈ tr) : I x.1 ∧ ∃ v, M.step x.1 x.2 v := by
  obtain ⟨l, r, rfl⟩ := List.append_of_mem hx
  obtain ⟨v, hl, ha, _⟩ := h.split
  exact ⟨hl.invariant_of (fun y hy => hok y (by simp [hy])) hstep hs, v, ha⟩

/-- Where a property survives exactly the steps that satisfy `ok`, a run has it all along exactly
if every step of the run does. -/
theorem System.Run.invariant_iff {I J : σ → Prop} {pre ok : σ → Λ → Prop} (h : M.Run s tr t)
    (hpre : ∀ x ∈ tr, pre x.1 x.2) (hkeep : ∀ s a t, J s → pre s a → M.step s a t → J t)
    (hstep : ∀ s a t, J s → I s → pre s a → M.step s a t → (I t ↔ ok s a)) (hj : J s)
    (hi : I s) : (∀ x ∈ tr, I x.1) ∧ I t ↔ ∀ x ∈ tr, ok x.1 x.2 := by
  induction h with
  | nil => simp [hi]
  | @snoc y u tr b hrun ha ih =>
    have hpre' : ∀ x ∈ tr, pre x.1 x.2 := fun x hx => hpre x (by simp [hx])
    have hlast : pre y b := hpre (y, b) (by simp)
    have hjy : J y := hrun.invariant_of hpre' hkeep hj
    have ih := ih hpre'
    simp only [List.forall_mem_append, List.forall_mem_singleton]
    constructor
    · rintro ⟨⟨hbefore, hy⟩, hu⟩
      exact ⟨ih.mp ⟨hbefore, hy⟩, (hstep _ _ _ hjy hy hlast ha).mp hu⟩
    · rintro ⟨hok, hokb⟩
      obtain ⟨hbefore, hy⟩ := ih.mpr hok
      exact ⟨⟨hbefore, hy⟩, (hstep _ _ _ hjy hy hlast ha).mpr hokb⟩

/-- A run of a system whose steps, from where an invariant holds, are steps of another one, is
a run of that one. -/
theorem System.Run.transfer {N : System σ Λ} {I : σ → Prop} (h : M.Run s tr t)
    (hstep : ∀ s a t, I s → M.step s a t → N.step s a t ∧ I t) (hs : I s) :
    N.Run s tr t ∧ I t := by
  induction h with
  | nil => exact ⟨.nil _, hs⟩
  | snoc _ ha ih =>
    obtain ⟨hrun, hi⟩ := ih
    obtain ⟨hn, hi'⟩ := hstep _ _ _ hi ha
    exact ⟨.snoc hrun hn, hi'⟩

/-- What one component of a system does in a trace. -/
def labelsOf {ι : Type*} [DecidableEq ι] (k : ι) (tr : List (σ × (ι × Λ))) : List Λ :=
  tr.filterMap fun x => if x.2.1 = k then some x.2.2 else none

/-- The component rule: where every step is one of one component and leaves the views of the
others, each component's view goes through a run of its own. -/
theorem System.Run.component {ι τ : Type*} [DecidableEq ι] {M : System σ (ι × Λ)}
    {N : ι → System τ Λ} {v : σ → ι → τ} {I : σ → Prop} {tr : List (σ × (ι × Λ))}
    (h : M.Run s tr t)
    (hstep : ∀ s j a t, I s → M.step s (j, a) t → I t ∧ (N j).step (v s j) a (v t j) ∧
      ∀ k, k ≠ j → v t k = v s k) (hs : I s) (k : ι) :
    I t ∧ ∃ tr', (N k).Run (v s k) tr' (v t k) ∧ labels tr' = labelsOf k tr := by
  induction h with
  | nil => exact ⟨hs, [], .nil _, rfl⟩
  | @snoc y u tr x _ ha ih =>
    obtain ⟨hi, tr', hrun, hlabels⟩ := ih
    obtain ⟨hi', hown, hothers⟩ := hstep _ _ _ _ hi ha
    refine ⟨hi', ?_⟩
    by_cases hk : x.1 = k
    · subst hk
      refine ⟨_, .snoc hrun hown, ?_⟩
      rw [labels_snoc, hlabels]
      simp [labelsOf]
    · rw [hothers k fun he => hk he.symm]
      refine ⟨tr', hrun, hlabels.trans ?_⟩
      simp [labelsOf, hk]

/-- The invariant rule with the trace so far as history. -/
theorem System.Run.history {I : List (σ × Λ) → σ → Prop} (h : M.Run s tr t)
    (hstep : ∀ tr s a t, I tr s → M.step s a t → I (tr ++ [(s, a)]) t) (hs : I [] s) :
    I tr t := by
  induction h with
  | nil => exact hs
  | snoc _ ha ih => exact hstep _ _ _ _ ih ha

/-- The simulation rule: a system each of whose steps another one can follow is followed along
every run, with the same labels, through related states. -/
theorem System.Run.simulate {τ : Type*} {N : System τ Λ} {R : σ → τ → Prop} {ok : σ → Λ → Prop}
    {p : τ} (h : M.Run s tr t) (hok : ∀ x ∈ tr, ok x.1 x.2)
    (hstep : ∀ s a t p, R s p → ok s a → M.step s a t → ∃ q, N.step p a q ∧ R t q)
    (hs : R s p) : ∃ tr' q, N.Run p tr' q ∧
      List.Forall₂ (fun x y => R x.1 y.1 ∧ x.2 = y.2) tr tr' ∧ R t q := by
  induction h with
  | nil => exact ⟨[], p, .nil p, .nil, hs⟩
  | snoc _ ha ih =>
    obtain ⟨tr', q, hrun, hall, hq⟩ := ih fun x hx => hok x (by simp [hx])
    obtain ⟨q', hstep', hq'⟩ := hstep _ _ _ _ hq (hok (_, _) (by simp)) ha
    exact ⟨_, q', .snoc hrun hstep', List.rel_append hall (.cons ⟨hq, rfl⟩ .nil), hq'⟩

theorem labels_eq_of_simulate {τ : Type*} {R : σ → τ → Prop} {tr' : List (τ × Λ)}
    (h : List.Forall₂ (fun x y => R x.1 y.1 ∧ x.2 = y.2) tr tr') : labels tr' = labels tr := by
  induction h with
  | nil => rfl
  | cons hxy _ ih =>
    simp only [labels, List.map_cons] at ih ⊢
    rw [ih, hxy.2]

/-- Every step of the run that follows is a step of the one followed. -/
theorem mem_of_simulate {τ : Type*} {R : σ → τ → Prop} {tr' : List (τ × Λ)} {y : τ × Λ}
    (h : List.Forall₂ (fun x y => R x.1 y.1 ∧ x.2 = y.2) tr tr') (hy : y ∈ tr') :
    ∃ x ∈ tr, R x.1 y.1 ∧ x.2 = y.2 := by
  induction h with
  | nil => cases hy
  | @cons x _ _ _ hxy _ ih =>
    rcases List.mem_cons.mp hy with rfl | hy
    · exact ⟨x, List.mem_cons_self, hxy⟩
    · obtain ⟨z, hz, hzy⟩ := ih hy
      exact ⟨z, List.mem_cons_of_mem _ hz, hzy⟩

/-- The largest value that a quantity has in the states of a run, the last one included. -/
def peak (f : σ → ℕ) (tr : List (σ × Λ)) (t : σ) : ℕ :=
  (tr.map (fun x => f x.1) ++ [f t]).foldr max 0

@[simp] theorem peak_nil (f : σ → ℕ) (t : σ) : peak f ([] : List (σ × Λ)) t = f t := by
  simp [peak]

theorem peak_snoc (f : σ → ℕ) :
    peak f (tr ++ [(s, a)]) t = max (peak f tr s) (f t) := by
  have hconcat : ∀ (l : List ℕ) (n : ℕ), (l ++ [n]).foldr max 0 = max (l.foldr max 0) n := by
    intro l n
    induction l with
    | nil => simp
    | cons m l ih => simp [ih, Nat.max_assoc]
  rw [peak, List.map_append, List.map_singleton, hconcat, peak]

/-- The high water rule: a quantity `f` that bounds `g`, and only ever grows to meet it, is the
largest value that `g` has had. -/
theorem System.Run.peak_eq {I : σ → Prop} {ok : σ → Λ → Prop} {f g : σ → ℕ}
    (h : M.Run s tr t) (hok : ∀ x ∈ tr, ok x.1 x.2)
    (hstep : ∀ s a t, I s → ok s a → M.step s a t →
      I t ∧ (f t = f s ∨ f s < f t ∧ f t = g t))
    (hle : ∀ s, I s → g s ≤ f s) (hs : I s) (hstart : f s = g s) : I t ∧ f t = peak g tr t := by
  induction h with
  | nil => exact ⟨hs, by rw [hstart, peak_nil]⟩
  | snoc _ ha ih =>
    obtain ⟨hi, hpeak⟩ := ih fun x hx => hok x (by simp [hx])
    obtain ⟨hi', hmeet⟩ := hstep _ _ _ hi (hok (_, _) (by simp)) ha
    have hbound := hle _ hi'
    refine ⟨hi', ?_⟩
    rw [peak_snoc, ← hpeak]
    omega

/-- The converse of the simulation rule: if a step between related states, which the other system
can follow, satisfies `ok`, then so do all steps of a run that is followed. -/
theorem System.Run.ok_of_simulate {τ : Type*} {N : System τ Λ} {R : σ → τ → Prop}
    {ok : σ → Λ → Prop} {tr' : List (τ × Λ)} {p q : τ} (h : M.Run s tr t) (h' : N.Run p tr' q)
    (hall : List.Forall₂ (fun x y => R x.1 y.1 ∧ x.2 = y.2) tr tr') (ht : R t q)
    (hstep : ∀ s a t p q, R s p → R t q → M.step s a t → N.step p a q → ok s a) :
    ∀ x ∈ tr, ok x.1 x.2 := by
  induction h generalizing tr' q with
  | nil => simp
  | @snoc t u tr a _ ha ih =>
    rcases List.eq_nil_or_concat tr' with rfl | ⟨tr', y, rfl⟩
    · simp at hall
    · rw [List.concat_eq_append] at h' hall
      obtain ⟨hrun, hb⟩ := System.run_snoc_iff.mp h'
      rw [← List.forall₂_reverse_iff, List.reverse_append, List.reverse_append] at hall
      obtain ⟨⟨hR, ha'⟩, hinit⟩ := List.forall₂_cons.mp hall
      intro x hx
      rcases List.mem_append.mp hx with hx | hx
      · exact ih hrun (List.forall₂_reverse_iff.mp hinit) hR x hx
      · rw [List.mem_singleton.mp hx]
        cases ha'
        exact hstep _ _ _ _ _ hR ht ha hb

/-- Related runs have the same peaks of quantities that related states agree on. -/
theorem peak_eq_of_simulate {τ : Type*} {R : σ → τ → Prop} {tr' : List (τ × Λ)} {q : τ}
    {f : σ → ℕ} {g : τ → ℕ} (hall : List.Forall₂ (fun x y => R x.1 y.1 ∧ x.2 = y.2) tr tr')
    (ht : R t q) (hf : ∀ s p, R s p → f s = g p) : peak f tr t = peak g tr' q := by
  induction hall with
  | nil => simp [hf t q ht]
  | cons hxy _ ih =>
    simp only [peak, List.map_cons, List.cons_append, List.foldr_cons] at ih ⊢
    rw [ih, hf _ _ hxy.1]

/-- The first step of a trace that fails a condition. -/
theorem exists_first_failure {ok : σ → Λ → Prop}
    (h : ¬ ∀ x ∈ tr, ok x.1 x.2) :
    ∃ l x r, tr = l ++ x :: r ∧ (∀ y ∈ l, ok y.1 y.2) ∧ ¬ ok x.1 x.2 := by
  induction tr with
  | nil => simp at h
  | cons y tr ih =>
    by_cases hy : ok y.1 y.2
    · have ht : ¬ ∀ x ∈ tr, ok x.1 x.2 := by
        intro ht
        apply h
        simpa [hy] using fun a b => ht (a, b)
      obtain ⟨l, x, r, rfl, hl, hx⟩ := ih ht
      refine ⟨y :: l, x, r, rfl, ?_, hx⟩
      simpa [hy] using fun a b => hl (a, b)
    · exact ⟨[], y, tr, rfl, by simp, hy⟩

theorem System.Run.cons (h : M.step s a t) (h' : M.Run t tr u) : M.Run s ((s, a) :: tr) u :=
  (System.Run.single h).trans h'

/-- Carries out operations one after another and records the trace; `none` when one of
them cannot be carried out. -/
def execute {O : Type*} (exec : σ → O → Option (σ × Λ)) : σ → List O → Option (σ × List (σ × Λ))
  | s, [] => some (s, [])
  | s, o :: os =>
    match exec s o with
    | none => none
    | some (t, a) =>
      match execute exec t os with
      | none => none
      | some (u, tr) => some (u, (s, a) :: tr)

/-- What is carried out is a run, if each operation carries out a step. -/
theorem execute_run {O : Type*} {exec : σ → O → Option (σ × Λ)} {os : List O}
    (hexec : ∀ s o t a, exec s o = some (t, a) → M.step s a t)
    (h : execute exec s os = some (t, tr)) : M.Run s tr t := by
  induction os generalizing s tr with
  | nil =>
    cases h
    exact .nil _
  | cons o os ih =>
    rw [execute] at h
    split at h
    · cases h
    · rename_i v a hv
      split at h
      · cases h
      · rename_i u tr' hu
        cases h
        exact System.Run.cons (hexec _ _ _ _ hv) (ih hu)

/-- What holds of the trace recorded and of the last state holds of a run. -/
theorem execute_any {O : Type*} {exec : σ → O → Option (σ × Λ)} {os : List O}
    {p : List (σ × Λ) → σ → Bool} (hexec : ∀ s o t a, exec s o = some (t, a) → M.step s a t)
    (h : ((execute exec s os).any fun out => p out.2 out.1) = true) :
    ∃ tr t, M.Run s tr t ∧ p tr t = true := by
  obtain ⟨⟨t, tr⟩, hout, hp⟩ := (Option.any_eq_true _ _).mp h
  exact ⟨tr, t, execute_run hexec hout, hp⟩

end Runs
