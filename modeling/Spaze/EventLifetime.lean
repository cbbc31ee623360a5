import Spaze.EventOrder

/-! The events in a queue and the windows that they point to. -/
namespace Spaze

open Runs Stacks

variable {ι : Type} [DecidableEq ι] {w : ℕ}

/-- The windows, the requests sent so far and the events of their loop. As history, the events
pushed and not yet returned, newest first, each with whether its window has been
deinitialised since. -/
structure LoopState (ι : Type) (w : ℕ) where
  windows : ι → WindowS
  requests : List WlRequest
  events : ArrayS w
  queued : List (EventS ι w × Bool)

/-- A call with the answers it got and what it returned, or a callback. -/
inductive LifeCall (ι : Type) (w : ℕ)
  | init (window : ι) (ans : WindowAnswers) (result : WindowErrorE)
  | deinit (window : ι)
  | configure (window : ι) (width height : BitVec 32)
  | close (window : ι)
  | get (result : Option (EventS ι w))

/-- The queued events after their window, if it is this one, has been deinitialised. -/
def outlive (window : ι) (queued : List (EventS ι w × Bool)) : List (EventS ι w × Bool) :=
  queued.map fun p => (p.1, p.2 || decide (p.1.window = window))

/-- One call or callback. Callbacks come while their window is alive. -/
inductive LifeStep (limit : ℕ) (layout : Layout ι w) :
    LoopState ι w → LifeCall ι w → LoopState ι w → Prop
  | init {s : LoopState ι w} (window : ι) {ans : WindowAnswers} {requests : List WlRequest}
      {win : WindowS} {result : WindowErrorE}
      (h : windowInit ans s.requests = (requests, win, result)) :
      LifeStep limit layout s (.init window ans result)
        { s with windows := Function.update s.windows window win, requests := requests }
  | deinit {s : LoopState ι w} (window : ι) :
      LifeStep limit layout s (.deinit window)
        { s with
          windows := Function.update s.windows window (windowDeinit (s.windows window) s.requests).2
          requests := (windowDeinit (s.windows window) s.requests).1
          queued := if (s.windows window).alive then outlive window s.queued else s.queued }
  | configure {s : LoopState ι w} {mem : Malloc} {window : ι} {width height : BitVec 32}
      {events : ArrayS w} (halive : (s.windows window).alive = true) (hm : mem.limit = limit)
      (h : windowConfigure mem layout s.events window width height = .ok events) :
      LifeStep limit layout s (.configure window width height)
        { s with
          events := events
          queued := (resizeEvent window width height, false) :: s.queued }
  | close {s : LoopState ι w} {mem : Malloc} {window : ι} {events : ArrayS w}
      (halive : (s.windows window).alive = true) (hm : mem.limit = limit)
      (h : windowClose mem layout s.events window = .ok events) :
      LifeStep limit layout s (.close window)
        { s with events := events, queued := (closeEvent window, false) :: s.queued }
  | get {s : LoopState ι w} {events : ArrayS w} {result : Option (EventS ι w)}
      (h : eventLoopGet layout s.events = .ok (events, result)) :
      LifeStep limit layout s (.get result) { s with events := events, queued := s.queued.tail }

/-- Every window starts zeroed, and the loop as `event_loop_init` leaves it. -/
def lifeSystem (limit : ℕ) (layout : Layout ι w) : System (LoopState ι w) (LifeCall ι w) where
  initial s := (∀ k, s.windows k = .zero) ∧ s.requests = [] ∧
    s.events = arrayInit layout.size ∧ s.queued = []
  step := LifeStep limit layout

/-- The event returned is the newest one queued, and its window has not been deinitialised
since it was pushed. -/
def AliveGet (s : LoopState ι w) : LifeCall ι w → Prop
  | .get (some e) => s.queued.head? = some (e, false)
  | _ => True

/-- A window that is alive is only deinitialised when no event of it is queued. -/
def DrainedDeinit (s : LoopState ι w) : LifeCall ι w → Prop
  | .deinit window => (s.windows window).alive = true → ∀ p ∈ s.queued, p.1.window ≠ window
  | _ => True

/-- An `event_loop_get`. -/
def LifeCall.IsGet : LifeCall ι w → Prop
  | .get _ => True
  | _ => False

/-- The array stores what is queued. -/
def Tracks (limit : ℕ) (layout : Layout ι w) (s : LoopState ι w) : Prop :=
  Queued limit layout s.events (s.queued.map Prod.fst)

/-- No window has been deinitialised while an event of it was queued. -/
def AllFresh (s : LoopState ι w) : Prop := ∀ p ∈ s.queued, p.2 = false

variable {limit : ℕ} {layout : Layout ι w} {s t : LoopState ι w} {a : LifeCall ι w}
  {tr : List (LoopState ι w × LifeCall ι w)} {p : EventS ι w × Bool}
  {queued : List (EventS ι w × Bool)} {window : ι}

theorem outlive_fst : (outlive window queued).map Prod.fst = queued.map Prod.fst := by
  simp [outlive]

theorem tracks_step (hb : ArrayBounds limit layout.size) (h : Tracks limit layout s)
    (hs : (lifeSystem limit layout).step s a t) : Tracks limit layout t := by
  cases hs with
  | init => exact h
  | deinit window =>
    unfold Tracks
    dsimp only
    split
    · rw [outlive_fst]
      exact h
    · exact h
  | configure _ hm hp => exact Queued.push h hb hm hp
  | close _ hm hp => exact Queued.push h hb hm hp
  | get hg =>
    obtain ⟨events, hget, hq⟩ := Queued.get h hb
    cases hg.symm.trans hget
    rw [← List.map_tail] at hq
    exact hq

/-- What a get returns while nothing queued has outlived its window. -/
theorem aliveGet_of_fresh (hb : ArrayBounds limit layout.size) (h : Tracks limit layout s)
    (hfresh : AllFresh s) (hs : (lifeSystem limit layout).step s a t) : AliveGet s a := by
  cases hs with
  | init | deinit | configure | close => trivial
  | get hg =>
    obtain ⟨events', hget, _⟩ := Queued.get h hb
    cases hg.symm.trans hget
    cases hq : s.queued with
    | nil => trivial
    | cons p queued =>
      have hp : p.2 = false := hfresh p (by simp [hq])
      simp only [List.map_cons, List.head?_cons, AliveGet, hq]
      rw [← hp]

theorem fresh_step (hfresh : AllFresh s) (hdrained : DrainedDeinit s a)
    (hs : (lifeSystem limit layout).step s a t) : AllFresh t := by
  cases hs with
  | init => exact hfresh
  | deinit window =>
    intro p hp
    dsimp only at hp
    split at hp
    · rename_i halive
      obtain ⟨q, hq, rfl⟩ := List.mem_map.mp hp
      simp [hfresh q hq, hdrained halive q hq]
    · exact hfresh p hp
  | configure | close =>
    intro p hp
    rcases List.mem_cons.mp hp with rfl | hp
    · rfl
    · exact hfresh p hp
  | get => exact fun p hp => hfresh p (List.mem_of_mem_tail hp)

theorem tracks_initial (h : (lifeSystem limit layout).initial s) :
    Tracks limit layout s ∧ AllFresh s := by
  obtain ⟨_, _, hevents, hqueued⟩ := h
  constructor
  · rw [Tracks, hevents, hqueued]
    exact ⟨rfl, stores_init _⟩
  · simp [AllFresh, hqueued]

/-- In a run that deinitialises drained windows only, no get returns an event that has outlived
its window. -/
theorem aliveGet_run (hb : ArrayBounds limit layout.size)
    (h : (lifeSystem limit layout).Trace tr t) (hdrained : ∀ x ∈ tr, DrainedDeinit x.1 x.2) :
    ∀ x ∈ tr, AliveGet x.1 x.2 := by
  obtain ⟨s, hi, hr⟩ := h
  have hstep : ∀ s a t, Tracks limit layout s ∧ AllFresh s → DrainedDeinit s a →
      (lifeSystem limit layout).step s a t → Tracks limit layout t ∧ AllFresh t :=
    fun _ _ _ h hd hs => ⟨tracks_step hb h.1 hs, fresh_step h.2 hd hs⟩
  intro x hx
  obtain ⟨⟨htracks, hfresh⟩, u, hs⟩ := hr.invariant_mem hdrained hstep (tracks_initial hi) hx
  exact aliveGet_of_fresh hb htracks hfresh hs

/-- Draining the queue returns every event in it. -/
theorem drain_returns (hb : ArrayBounds limit layout.size) (h : Tracks limit layout s)
    (hp : p ∈ s.queued) : ∃ gets u, (lifeSystem limit layout).Run s gets u ∧
      (∀ x ∈ gets, x.2.IsGet) ∧
      ∃ x ∈ gets, x.1.queued.head? = some p ∧ x.2 = .get (some p.1) := by
  generalize hq : s.queued = queued at hp
  induction queued generalizing s with
  | nil => cases hp
  | cons q queued ih =>
    obtain ⟨events, hget, htail⟩ := Queued.get h hb
    rw [hq] at hget htail
    have hs : LifeStep limit layout s (.get (some q.1))
      { s with events := events, queued := s.queued.tail } := .get hget
    rcases List.mem_cons.mp hp with rfl | hp
    · refine ⟨_, _, System.Run.single hs, ?_, _, List.mem_singleton_self _, ?_, rfl⟩
      · simp [LifeCall.IsGet]
      · simp [hq]
    · have htracks : Tracks limit layout { s with events := events, queued := s.queued.tail } := by
        rw [Tracks, hq]
        exact htail
      obtain ⟨gets, u, hr, hgets, x, hx, hhead⟩ := ih htracks (by simp [hq]) hp
      refine ⟨_, u, System.Run.cons hs hr, ?_, x, List.mem_cons_of_mem _ hx, hhead⟩
      intro y hy
      rcases List.mem_cons.mp hy with rfl | hy
      · trivial
      · exact hgets y hy

/-- A window deinitialised with an event queued leaves the event behind. -/
theorem outlived_step (h : ¬ DrainedDeinit s a) (hs : (lifeSystem limit layout).step s a t) :
    ∃ p ∈ t.queued, p.2 = true := by
  cases hs with
  | init | configure | close | get => exact absurd trivial h
  | deinit window =>
    simp only [DrainedDeinit, Classical.not_imp, not_forall, not_not] at h
    obtain ⟨halive, p, hp, hwindow⟩ := h
    dsimp only
    rw [if_pos halive]
    exact ⟨_, List.mem_map_of_mem hp, by simp [hwindow]⟩

/-- However the queue is drained after some part of a run, no event returned has outlived its
window exactly when every window that the run deinitialises has no event queued then. -/
theorem events_alive_iff (hb : ArrayBounds limit layout.size)
    (h : (lifeSystem limit layout).Trace tr t) :
    (∀ l r gets u, tr = l ++ r → (lifeSystem limit layout).Trace (l ++ gets) u →
        (∀ x ∈ gets, x.2.IsGet) → ∀ x ∈ l ++ gets, AliveGet x.1 x.2) ↔
      ∀ x ∈ tr, DrainedDeinit x.1 x.2 := by
  constructor
  · intro hf x hx
    by_contra hbad
    obtain ⟨l, r, rfl⟩ := List.append_of_mem hx
    obtain ⟨s₀, hi, hr⟩ := h
    obtain ⟨v, hl, hs, _⟩ := hr.split
    have hlv := hl.snoc hs
    have htracks : Tracks limit layout v := hlv.invariant (I := Tracks limit layout)
      (fun _ _ _ h hs => tracks_step hb h hs) (tracks_initial hi).1
    obtain ⟨p, hp, hstale⟩ := outlived_step hbad hs
    obtain ⟨gets, u, hdrain, hgets, y, hy, hhead, hget⟩ := drain_returns hb htracks hp
    have halive := hf (l ++ [x]) r gets u (by simp) ⟨s₀, hi, hlv.trans hdrain⟩ hgets y
      (List.mem_append_right _ hy)
    rw [hget] at halive
    have hsame := Option.some.inj (hhead.symm.trans halive)
    rw [hsame] at hstale
    cases hstale
  · intro hdrained l r gets u htr hrun hgets
    refine aliveGet_run hb hrun fun x hx => ?_
    rcases List.mem_append.mp hx with hx | hx
    · exact hdrained x (by simp [htr, hx])
    · have hg := hgets x hx
      obtain ⟨s, a⟩ := x
      cases a with
      | get => trivial
      | init | deinit | configure | close => exact hg.elim

/-! ## Two runs -/

instance (s : LoopState ι w) (a : LifeCall ι w) : Decidable (AliveGet s a) :=
  match a with
  | .get (some e) => inferInstanceAs (Decidable (s.queued.head? = some (e, false)))
  | .get none | .init .. | .deinit _ | .configure .. | .close _ => isTrue trivial

instance (s : LoopState ι w) (a : LifeCall ι w) : Decidable (DrainedDeinit s a) :=
  match a with
  | .deinit window => inferInstanceAs (Decidable
      ((s.windows window).alive = true → ∀ p ∈ s.queued, p.1.window ≠ window))
  | .get _ | .init .. | .configure .. | .close _ => isTrue trivial

/-- Carries out a call or callback, if it may come and returns. -/
def lifeExec (s : LoopState (UsizeT 64) 64) : LifeCall (UsizeT 64) 64 →
    Option (LoopState (UsizeT 64) 64 × LifeCall (UsizeT 64) 64)
  | .init window ans _ =>
    match windowInit ans s.requests with
    | (requests, win, result) =>
      some ({ s with windows := Function.update s.windows window win, requests := requests },
        .init window ans result)
  | .deinit window =>
    some ({ s with
      windows := Function.update s.windows window (windowDeinit (s.windows window) s.requests).2
      requests := (windowDeinit (s.windows window) s.requests).1
      queued := if (s.windows window).alive then outlive window s.queued else s.queued },
      .deinit window)
  | .configure window width height =>
    if (s.windows window).alive = true then
      match windowConfigure zeroMalloc eventLayout s.events window width height with
      | .ok events => some ({ s with
          events := events
          queued := (resizeEvent window width height, false) :: s.queued },
          .configure window width height)
      | .error _ => none
    else none
  | .close window =>
    if (s.windows window).alive = true then
      match windowClose zeroMalloc eventLayout s.events window with
      | .ok events => some ({ s with
          events := events
          queued := (closeEvent window, false) :: s.queued }, .close window)
      | .error _ => none
    else none
  | .get _ =>
    match eventLoopGet eventLayout s.events with
    | .ok (events, result) =>
      some ({ s with events := events, queued := s.queued.tail }, .get result)
    | .error _ => none

theorem lifeExec_step (s : LoopState (UsizeT 64) 64) (o : LifeCall (UsizeT 64) 64)
    (t : LoopState (UsizeT 64) 64) (a : LifeCall (UsizeT 64) 64) (h : lifeExec s o = some (t, a)) :
    (lifeSystem zeroMalloc.limit eventLayout).step s a t := by
  cases o with
  | init window ans result =>
    cases h
    exact .init window rfl
  | deinit window =>
    cases h
    exact .deinit window
  | configure window width height =>
    simp only [lifeExec] at h
    split at h
    · split at h
      · cases h
        exact .configure (by assumption) rfl (by assumption)
      · cases h
    · cases h
  | close window =>
    simp only [lifeExec] at h
    split at h
    · split at h
      · cases h
        exact .close (by assumption) rfl (by assumption)
      · cases h
    · cases h
  | get result =>
    simp only [lifeExec] at h
    split at h
    · cases h
      exact .get (by assumption)
    · cases h

/-- The windows zeroed and no events. -/
def freshLoop : LoopState (UsizeT 64) 64 := ⟨fun _ => .zero, [], arrayInit eventLayout.size, []⟩

theorem executed_life (ops : List (LifeCall (UsizeT 64) 64))
    (p : List (LoopState (UsizeT 64) 64 × LifeCall (UsizeT 64) 64) → Bool)
    (h : ((execute lifeExec freshLoop ops).any fun out => p out.2) = true) :
    ∃ tr t, (lifeSystem zeroMalloc.limit eventLayout).Trace tr t ∧ p tr = true := by
  obtain ⟨tr, t, hr, hp⟩ := execute_any (p := fun tr _ => p tr) lifeExec_step h
  exact ⟨tr, t, ⟨freshLoop, ⟨fun _ => rfl, rfl, rfl, rfl⟩, hr⟩, hp⟩

/-- Two windows; one is deinitialised once its events have been returned. -/
theorem events_alive_drained : ∃ tr t, (lifeSystem zeroMalloc.limit eventLayout).Trace tr t ∧
    tr.length = 8 ∧ ∀ x ∈ tr, AliveGet x.1 x.2 := by
  obtain ⟨tr, t, htr, hp⟩ := executed_life
    [.init 1 ⟨some 1, some 2, some 3⟩ .ok, .init 2 ⟨some 4, some 5, some 6⟩ .ok, .close 2,
      .configure 1 300 200, .get none, .deinit 1, .get none, .get none]
    (fun tr => tr.length == 8 && tr.all fun x => decide (DrainedDeinit x.1 x.2))
    (by decide +kernel)
  simp only [Bool.and_eq_true, beq_iff_eq, List.all_eq_true, decide_eq_true_eq] at hp
  have halive := (events_alive_iff eventBounds htr).mpr hp.2 tr [] [] t (by simp)
    (by rwa [List.append_nil]) (by simp)
  exact ⟨tr, t, htr, hp.1, by simpa using halive⟩

/-- A window is deinitialised before the client has seen its size. -/
theorem events_alive_fails : ¬ ∀ tr t, (lifeSystem zeroMalloc.limit eventLayout).Trace tr t →
    ∀ x ∈ tr, AliveGet x.1 x.2 := by
  intro hf
  obtain ⟨tr, t, htr, hp⟩ := executed_life
    [.init 1 ⟨some 1, some 2, some 3⟩ .ok, .configure 1 300 200, .deinit 1, .get none]
    (fun tr => tr.any fun x => !decide (AliveGet x.1 x.2)) (by decide +kernel)
  simp only [List.any_eq_true, Bool.not_eq_true', decide_eq_false_iff_not] at hp
  obtain ⟨x, hx, hbad⟩ := hp
  exact hbad (hf tr t htr x hx)

end Spaze
