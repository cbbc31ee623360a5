import Spaze.EventDelivery
import Spaze.Program

/-! The rounds of the loop of `main`. -/
namespace Spaze

open Rounds Runs Stacks

variable {δ ι : Type} {w : ℕ}

/-! ## `handle_events` -/

/-- The event makes `handle_events` set `*should_quit`. -/
def EventS.closes (e : EventS ι w) : Bool := e.kind = .close

/-- The event makes a listener push such an event. -/
def WlEvent.closes : WlEvent ι → Bool
  | .close _ => true
  | _ => false

theorem any_pushes (events : List (WlEvent ι)) :
    (events.filterMap (WlEvent.pushes (w := w))).any EventS.closes = events.any WlEvent.closes := by
  induction events with
  | nil => rfl
  | cons e events ih =>
    cases e <;> simp_all [WlEvent.pushes, WlEvent.closes, EventS.closes, closeEvent, resizeEvent]

variable {out : Outside δ ι} {v : View δ ι} {names : ProtocolNames} {layout : Layout ι w}
  {limit n : ℕ} {s t : Session δ ι w} {contents : List (EventS ι w)} {events : ArrayS w}
  {quit : Bool} {why : Stop} {display : WlProxy}

/-- `handle_events` takes every event of the loop, and has seen whether one of them closes. -/
theorem handleEvents_eq (quit : Bool) (hb : ArrayBounds limit layout.size)
    (hq : Queued limit layout events contents) (hn : contents.length < n) :
    ∃ events', handleEvents layout n events quit =
      .ok (events', quit || contents.any EventS.closes) ∧ Queued limit layout events' [] := by
  induction contents generalizing events n quit with
  | nil =>
    obtain ⟨m, rfl⟩ := Nat.exists_eq_add_of_lt hn
    obtain ⟨events', hget, hq'⟩ := hq.get hb
    refine ⟨events', ?_, hq'⟩
    rw [handleEvents, iterate_last (t := (events', quit))]
    · simp
    · simp [handleEvent, hget, Bind.bind, Except.bind, Pure.pure, Except.pure]
  | cons e contents ih =>
    obtain ⟨m, rfl⟩ := Nat.exists_eq_add_of_lt (Nat.lt_of_le_of_lt (Nat.zero_le _) hn)
    rw [Nat.zero_add] at hn ⊢
    obtain ⟨events', hget, hq'⟩ := hq.get hb
    obtain ⟨events'', hrest, hempty⟩ := ih (quit || e.closes) hq' (Nat.lt_of_succ_lt_succ hn)
    refine ⟨events'', ?_, hempty⟩
    rw [handleEvents, iterate_next (t := (events', quit || e.closes)), List.any_cons,
      ← Bool.or_assoc]
    · exact hrest
    · cases hk : e.kind <;> simp [handleEvent, hget, hk, EventS.closes, Bind.bind, Except.bind,
        Pure.pure, Except.pure]

/-! ## One round -/

/-- Between two rounds everything dispatched has been answered, and no event is left in the
loop. -/
structure Waiting (v : View δ ι) (limit : ℕ) (layout : Layout ι w) (display : WlProxy)
    (s : Session δ ι w) : Prop where
  idle : v.prepared s.1 = false
  display : s.2.loop.display = some display
  alive : s.2.loop.alive = true
  arrived : s.2.dispatched ++ v.queue s.1 = v.arrived s.1
  replies : s.2.replies = s.2.dispatched.filterMap WlEvent.reply
  drained : Queued limit layout s.2.loop.events []

section

variable (hdoc : v.Documented out) (hlimit : ∀ d, (out.malloc d).1.limit = limit)
  (hb : ArrayBounds limit layout.size)
include hdoc hlimit hb

/-- What a round that returns leaves: a batch of events has been dispatched, all there are
unless the connection has failed, and the round is the last exactly if one of them closes a
window. -/
structure Turned (v : View δ ι) (limit : ℕ) (layout : Layout ι w) (display : WlProxy)
    (s t : Session δ ι w) (quit : Bool) : Prop where
  waiting : Waiting v limit layout display t
  queue : v.failed t.1 = false → v.queue t.1 = []
  dispatched : ∃ events, t.2.dispatched = s.2.dispatched ++ events ∧
    quit = events.any WlEvent.closes

/-- A round returns exactly when its update does. -/
theorem mainRound_cases (h : Waiting v limit layout display s) :
    (∃ t quit, mainRound out names layout s = .ok (t, quit) ∧
      Turned v limit layout display s t quit) ∨
    ∃ why, mainRound out names layout s = .error why ∧
      eventLoopUpdate out names layout s = .error why := by
  have hdisplay : s.2.loop.display ≠ none := by simp [h.display]
  cases hu : eventLoopUpdate out names layout s with
  | error why =>
    refine Or.inr ⟨why, ?_, rfl⟩
    rw [mainRound, hu]
    rfl
  | ok u =>
    obtain ⟨htook, hbatch⟩ := eventLoopUpdate_ok hdoc hlimit hb h.idle hdisplay h.drained hu
    obtain ⟨new, harrived, hqueue⟩ := htook.arrived
    have hlength := hbatch.queued.stores.length
    rw [List.length_map, List.length_reverse] at hlength
    obtain ⟨events, hhandle, hempty⟩ := handleEvents_eq false hb hbatch.queued
      (Nat.lt_succ_of_le (Nat.le_of_eq hlength.symm))
    rw [List.append_nil, List.any_reverse, any_pushes, Bool.false_or] at hhandle
    refine Or.inl ⟨(u.1, { u.2 with loop := { u.2.loop with events := events } }), _, ?_,
      ⟨htook.idle, ?_, ?_, ?_, ?_, hempty⟩, htook.drained, _, hbatch.dispatched, rfl⟩
    · rw [mainRound, hu]
      simp only [Bind.bind, Except.bind, Nat.succ_eq_add_one] at hhandle ⊢
      rw [hhandle]
      rfl
    · exact hbatch.display.trans h.display
    · exact hbatch.alive.trans h.alive
    · rw [harrived, ← h.arrived, hbatch.dispatched, List.append_assoc, List.append_assoc, hqueue]
    · rw [hbatch.replies, h.replies, hbatch.dispatched, ← List.filterMap_append]

theorem Waiting.turned (h : Waiting v limit layout display s)
    (hr : mainRound out names layout s = .ok (t, quit)) :
    Turned v limit layout display s t quit := by
  rcases mainRound_cases hdoc hlimit hb h with ⟨t', quit', hr', hturned⟩ | ⟨why, hwhy, _⟩
  · cases hr'.symm.trans hr
    exact hturned
  · cases hwhy.symm.trans hr

/-! ## The loop of `main` -/

/-- As long as no window has been closed, a round is the last exactly if it dispatches the
first event that closes one. -/
theorem quiet_run {tr : List (Session δ ι w × Bool)} (h : Waiting v limit layout display s)
    (hquiet : s.2.dispatched.any WlEvent.closes = false)
    (hrun : (roundSystem (mainRound out names layout)).Run s tr t) :
    Waiting v limit layout display t ∧
      ((∀ x ∈ tr, x.2 = false) ↔ t.2.dispatched.any WlEvent.closes = false) := by
  induction hrun with
  | nil => exact ⟨h, by simp [hquiet]⟩
  | @snoc t u tr quit _ hstep ih =>
    obtain ⟨hwaiting, hiff⟩ := ih
    obtain ⟨hwaiting', _, events, hdispatched, rfl⟩ := hwaiting.turned hdoc hlimit hb hstep
    refine ⟨hwaiting', ?_⟩
    rw [hdispatched, List.any_append, Bool.or_eq_false_iff, ← hiff, List.forall_mem_append]
    simp

theorem mainLoop_ok_iff (h : Waiting v limit layout display s)
    (hquiet : s.2.dispatched.any WlEvent.closes = false) :
    mainLoop out names layout n s = .ok t ↔ ∃ tr u quit,
      (roundSystem (mainRound out names layout)).Run s tr u ∧ tr.length < n ∧
      mainRound out names layout u = .ok (t, quit) ∧
      u.2.dispatched.any WlEvent.closes = false ∧ t.2.dispatched.any WlEvent.closes = true := by
  rw [mainLoop, iterate_ok_iff]
  constructor
  · rintro ⟨tr, u, hrun, hgo, hlt, hlast⟩
    obtain ⟨hwaiting, hiff⟩ := quiet_run hdoc hlimit hb h hquiet hrun
    obtain ⟨_, _, events, hdispatched, hquit⟩ := hwaiting.turned hdoc hlimit hb hlast
    refine ⟨tr, u, true, hrun, hlt, hlast, hiff.mp hgo, ?_⟩
    rw [hdispatched, List.any_append, ← hquit, Bool.or_true]
  · rintro ⟨tr, u, quit, hrun, hlt, hlast, hnone, hclosed⟩
    obtain ⟨hwaiting, hiff⟩ := quiet_run hdoc hlimit hb h hquiet hrun
    obtain ⟨_, _, events, hdispatched, rfl⟩ := hwaiting.turned hdoc hlimit hb hlast
    rw [hdispatched, List.any_append, hnone, Bool.false_or] at hclosed
    rw [hclosed] at hlast
    exact ⟨tr, u, hrun, hiff.mpr hnone, hlt, hlast⟩

theorem mainLoop_waiting (h : Waiting v limit layout display s)
    (hl : mainLoop out names layout n s = .ok t) :
    Waiting v limit layout display t ∧ (v.failed t.1 = false → v.queue t.1 = []) := by
  obtain ⟨tr, u, hrun, _, _, hlast⟩ := iterate_ok_iff.mp hl
  have hwaiting := hrun.invariant (I := Waiting v limit layout display)
    (fun _ _ _ hs hstep => (hs.turned hdoc hlimit hb hstep).waiting) h
  have hturned := hwaiting.turned hdoc hlimit hb hlast
  exact ⟨hturned.waiting, hturned.queue⟩

/-- The loop of `main` does not fault. -/
theorem mainLoop_error (h : Waiting v limit layout display s)
    (hl : mainLoop out names layout n s = .error why) : why ≠ .fault := by
  obtain ⟨tr, u, hrun, _, hend⟩ := iterate_error_cases hl
  have hwaiting := hrun.invariant (I := Waiting v limit layout display)
    (fun _ _ _ hs hstep => (hs.turned hdoc hlimit hb hstep).waiting) h
  rcases hend with ⟨hround, _⟩ | ⟨rfl, _⟩
  · rcases mainRound_cases hdoc hlimit hb hwaiting with ⟨_, _, hr, _⟩ | ⟨why', hwhy, hu⟩
    · cases hr.symm.trans hround
    · obtain rfl := Except.error.inj (hwhy.symm.trans hround)
      have hdisplay : u.2.loop.display ≠ none := by simp [hwaiting.display]
      rw [eventLoopUpdate_eq out names layout hdisplay] at hu
      obtain ⟨_, _, hwhy⟩ := dispatch_error (s := ((updateTakes out u.1).2, u.2)) hdoc hlimit hb
        hwaiting.drained hu
      rcases hwhy with rfl | ⟨rfl, _⟩ <;> decide
  · decide

end

end Spaze
