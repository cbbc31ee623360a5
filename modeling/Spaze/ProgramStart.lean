import Spaze.EventDelivery
import Spaze.PoolRuns
import Spaze.Program

/-! How `main` comes to its loop, or does not. -/
namespace Spaze

variable {δ ι : Type} {w : ℕ}

variable {names : ProtocolNames} {layout : Layout ι w} {ans : StartAnswers} {world : δ}
  {g g' : Gfx w} {p : MainS δ ι w} {r r' : Registry w} {announced : List Announcement}
  {lans : LoopAnswers} {size : UsizeT w} {why : Stop}
  {before gone : List (Option WlProxy)}

/-! ## The calls -/

theorem announced_keeps (h : announced.foldlM (registryGlobal names) r = .ok r') :
    r'.1.events = r.1.events ∧ r'.1.display = r.1.display ∧ r'.1.alive = r.1.alive := by
  induction announced generalizing r with
  | nil =>
    cases h
    exact ⟨rfl, rfl, rfl⟩
  | cons a announced ih =>
    obtain ⟨u, hu, h⟩ := bind_eq_ok.mp h
    obtain ⟨he, hd, ha⟩ := registryGlobal_keeps hu
    obtain ⟨he', hd', ha'⟩ := ih h
    exact ⟨he'.trans he, hd'.trans hd, ha'.trans ha⟩

theorem announced_error (h : announced.foldlM (registryGlobal names) r = .error why) :
    why = .panic := by
  induction announced generalizing r with
  | nil => cases h
  | cons a announced ih =>
    rcases bind_eq_error.mp h with h | ⟨u, _, h⟩
    · exact (registryGlobal_error h).1
    · exact ih h

/-- A loop that has been initialised is connected and holds no events, and nothing has been
disconnected for it. -/
theorem eventLoopInit_connected
    (h : eventLoopInit names size lans before = .ok ((r, gone), .ok)) :
    r.1.events = arrayInit size ∧ (∃ display, lans.display = some display ∧
      r.1.display = some display) ∧ r.1.alive = true ∧ gone = before := by
  cases eventLoopInit_cases h with
  | ok hdisplay _ hannounced =>
    obtain ⟨he, hset, ha⟩ := announced_keeps hannounced
    exact ⟨he, ⟨_, hdisplay, hset⟩, ha, rfl⟩

/-- Only an assertion of `registry_global` keeps a call from returning. -/
theorem eventLoopInit_error (h : eventLoopInit names size lans before = .error why) :
    why = .panic := by
  unfold eventLoopInit at h
  split at h
  · cases h
  · split at h
    · cases h
    · rcases bind_eq_error.mp h with h | ⟨_, _, h⟩
      · exact announced_error h
      · cases h

/-- A global is missing exactly if it was not announced. -/
theorem eventLoopInit_global_iff
    (h : eventLoopInit names size lans before = .ok ((r, gone), .ok)) (k : Global) :
    r.1.global k ≠ none ↔ ∃ a ∈ lans.announced, a.interface = k.interface names := by
  rcases eventLoopInit_settled h k with ⟨hnone, hall⟩ | ⟨proxy, hset, a, ha, hname, _⟩
  · exact iff_of_false (fun hne => hne hnone) fun ⟨a, ha, hname⟩ => hall a ha hname
  · exact iff_of_true (by simp [hset]) ⟨a, ha, hname⟩

/-- Every call of `shm_pool_init` succeeds. -/
structure InitAnswers.Succeeds (ans : InitAnswers) : Prop where
  shmOpen : ans.shmOpen ≠ none
  ftruncate : ans.ftruncate = true
  mmap : ans.mmap ≠ none
  createPool : ans.createPool ≠ none

/-- Every call of `window_init` succeeds. -/
structure WindowAnswers.Succeeds (ans : WindowAnswers) : Prop where
  surface : ans.surface ≠ none
  xdgSurface : ans.xdgSurface ≠ none
  xdgToplevel : ans.xdgToplevel ≠ none

/-- Given a capacity, `shm_pool_init` returns. -/
theorem shmPoolInit_returns (g : Gfx w) (pans : InitAnswers) (hpos : 0 < size) :
    ∃ g' err, shmPoolInit pans g size = .ok (g', err) := by
  have hassert : assert (decide (size > 0)) = .ok () := assert_eq_ok.mpr (decide_eq_true hpos)
  simp only [shmPoolInit, hassert, Bind.bind, Except.bind, Pure.pure, Except.pure]
  split
  · exact ⟨_, _, rfl⟩
  · split
    · split <;> exact ⟨_, _, rfl⟩
    · exact ⟨_, _, rfl⟩

theorem shmPoolInit_ok_iff {pans : InitAnswers} {err : ShmPoolErrorE}
    (h : shmPoolInit pans g size = .ok (g', err)) : err = .ok ↔ pans.Succeeds := by
  obtain ⟨_, _, h⟩ := bind_eq_ok.mp h
  obtain ⟨shmOpen, ftruncate, mmap, createPool⟩ := pans
  cases shmOpen with
  | none =>
    cases h
    exact iff_of_false nofun fun h => h.shmOpen rfl
  | some fd =>
    cases ftruncate with
    | false =>
      cases h
      exact iff_of_false nofun fun h => nomatch h.ftruncate
    | true =>
      cases mmap with
      | none =>
        cases h
        exact iff_of_false nofun fun h => h.mmap rfl
      | some ptr =>
        cases createPool with
        | none =>
          cases h
          exact iff_of_false nofun fun h => h.createPool rfl
        | some pool =>
          cases h
          exact iff_of_true rfl ⟨nofun, rfl, nofun, nofun⟩

theorem windowInit_ok_iff (wans : WindowAnswers) (requests : List WlRequest) :
    (windowInit wans requests).2.2 = .ok ↔ wans.Succeeds := by
  obtain ⟨surface, xdgSurface, xdgToplevel⟩ := wans
  cases surface with
  | none => exact iff_of_false nofun fun h => h.surface rfl
  | some surface =>
    cases xdgSurface with
    | none => exact iff_of_false nofun fun h => h.xdgSurface rfl
    | some xdgSurface =>
      cases xdgToplevel with
      | none => exact iff_of_false nofun fun h => h.xdgToplevel rfl
      | some xdgToplevel => exact iff_of_true rfl ⟨nofun, nofun, nofun⟩

/-! ## `main` up to its loop -/

/-- The global is announced. -/
def Announced (names : ProtocolNames) (announced : List Announcement) (k : Global) : Prop :=
  ∃ a ∈ announced, a.interface = k.interface names

/-- Every call before the loop of `main` succeeds, and every global is announced. -/
structure StartAnswers.Succeeds (names : ProtocolNames) (ans : StartAnswers) : Prop where
  loop : Spaze.Succeeds names ans.loop
  globals : ∀ k, Announced names ans.loop.announced k
  pool : ans.pool.Succeeds
  window : ans.window.Succeeds

/-- `window_init` comes to send a request to a global that was not announced. -/
structure StartAnswers.Crashes (names : ProtocolNames) (ans : StartAnswers) : Prop where
  loop : Spaze.Succeeds names ans.loop
  shm : Announced names ans.loop.announced .shm
  pool : ans.pool.Succeeds
  missing : ¬ Announced names ans.loop.announced .compositor ∨
    ans.window.surface ≠ none ∧ ¬ Announced names ans.loop.announced .wmBase

/-- What `main` has when its loop starts. -/
structure MainStarted (names : ProtocolNames) (layout : Layout ι w) (ans : StartAnswers)
    (world : δ) (g : Gfx w) (p : MainS δ ι w) : Prop where
  loop : eventLoopInit names layout.size ans.loop [] =
    .ok (((p.session.2.loop, p.session.2.binds), p.disconnected), .ok)
  pool : shmPoolInit ans.pool g (shmPoolSize w) = .ok (p.gfx, .ok)
  window : windowInit ans.window [] = (p.requests, p.window, .ok)
  world : p.session.1 = world
  replies : p.session.2.replies = []
  dispatched : p.session.2.dispatched = []

/-- How `main` comes to its loop, or does not. -/
inductive StartOutcome (names : ProtocolNames) (layout : Layout ι w) (ans : StartAnswers)
    (world : δ) (g : Gfx w) : Except Stop (MainS δ ι w) → Prop
  | started {p : MainS δ ι w} (hsucceeds : ans.Succeeds names)
      (h : MainStarted names layout ans world g p) : StartOutcome names layout ans world g (.ok p)
  | fault (hcrashes : ans.Crashes names) : StartOutcome names layout ans world g (.error .fault)
  | panic (hfails : ¬ ans.Succeeds names) (hsafe : ¬ ans.Crashes names) :
      StartOutcome names layout ans world g (.error .panic)

theorem StartOutcome.failed_loop (h : ¬ Succeeds names ans.loop) :
    StartOutcome names layout ans world g (.error .panic) :=
  .panic (fun hs => h hs.loop) fun hc => h hc.loop

/-- What is left once the pool has been initialised. -/
theorem mainStart_outcome_window {loop : EventLoopS w} {binds : List Bind}
    (hinit : eventLoopInit names layout.size ans.loop [] = .ok (((loop, binds), gone), .ok))
    (hshm : loop.shm.isSome) (hpool : shmPoolInit ans.pool g (shmPoolSize w) = .ok (g', .ok)) :
    StartOutcome names layout ans world g (mainStart names layout ans world g) := by
  have hloop : Succeeds names ans.loop := eventLoopInit_returns.mp ⟨_, _, hinit⟩
  have hpools := (shmPoolInit_ok_iff hpool).mp rfl
  have hglobal := eventLoopInit_global_iff hinit
  have hshms : Announced names ans.loop.announced .shm :=
    (hglobal .shm).mp (Option.isSome_iff_ne_none.mp hshm)
  simp only [mainStart, hinit, hshm, hpool, Bind.bind, Except.bind, ne_eq, not_true_eq_false,
    if_false, assert_true, Pure.pure, Except.pure]
  by_cases hcompositor : loop.compositor = none
  · have hnone := fun ha => (hglobal .compositor).mpr ha hcompositor
    rw [windowInitOn, if_pos hcompositor]
    exact .fault ⟨hloop, hshms, hpools, Or.inl hnone⟩
  · by_cases hwmBase : ans.window.surface ≠ none ∧ loop.wmBase = none
    · have hnone := fun ha => (hglobal .wmBase).mpr ha hwmBase.2
      rw [windowInitOn, if_neg hcompositor, if_pos hwmBase]
      exact .fault ⟨hloop, hshms, hpools, Or.inr ⟨hwmBase.1, hnone⟩⟩
    · have hcompositors := (hglobal .compositor).mp hcompositor
      rw [windowInitOn, if_neg hcompositor, if_neg hwmBase]
      rcases hwindow : windowInit ans.window [] with ⟨requests, window, winErr⟩
      have hiff := windowInit_ok_iff ans.window []
      rw [hwindow] at hiff
      by_cases hwinErr : winErr = .ok
      · subst hwinErr
        have hwindows : ans.window.Succeeds := hiff.mp rfl
        have hwmBases : Announced names ans.loop.announced .wmBase :=
          (hglobal .wmBase).mp fun hnull => hwmBase ⟨hwindows.surface, hnull⟩
        refine .started ⟨hloop, fun k => ?_, hpools, hwindows⟩
          ⟨hinit, hpool, hwindow, rfl, rfl, rfl⟩
        cases k with
        | compositor => exact hcompositors
        | wmBase => exact hwmBases
        | shm => exact hshms
      · simp only [hwinErr, not_false_eq_true, if_true]
        refine .panic (fun hs => hwinErr (hiff.mpr hs.window)) fun hc => ?_
        rcases hc.missing with hnone | ⟨hsurface, hnone⟩
        · exact hnone hcompositors
        · refine hwmBase ⟨hsurface, ?_⟩
          by_contra hne
          exact hnone ((hglobal .wmBase).mp hne)

theorem mainStart_outcome (names : ProtocolNames) (layout : Layout ι w) (ans : StartAnswers)
    (world : δ) (g : Gfx w) (hpos : 0 < shmPoolSize w) :
    StartOutcome names layout ans world g (mainStart names layout ans world g) := by
  rcases hinit : eventLoopInit names layout.size ans.loop [] with
    why | ⟨⟨⟨loop, binds⟩, gone⟩, err⟩
  · obtain rfl := eventLoopInit_error hinit
    simp only [mainStart, hinit, Bind.bind, Except.bind]
    refine .failed_loop fun hs => ?_
    obtain ⟨s, gone, hok⟩ := eventLoopInit_returns.mpr hs
    cases hok.symm.trans hinit
  · by_cases herr : err = .ok
    · subst herr
      have hglobal := eventLoopInit_global_iff hinit
      obtain ⟨g', shmErr, hpool⟩ := shmPoolInit_returns g ans.pool hpos
      cases hshm : loop.shm.isSome with
      | false =>
        have hnull : loop.shm = none := by simpa using hshm
        have hnone : ¬ Announced names ans.loop.announced .shm := fun ha =>
          (hglobal .shm).mpr ha hnull
        simp only [mainStart, hinit, hshm, Bind.bind, Except.bind]
        exact .panic (fun hs => hnone (hs.globals .shm)) fun hc => hnone hc.shm
      | true =>
        by_cases hshmErr : shmErr = .ok
        · subst hshmErr
          exact mainStart_outcome_window hinit hshm hpool
        · have hfails := mt (shmPoolInit_ok_iff hpool).mpr hshmErr
          simp only [mainStart, hinit, hshm, hpool, hshmErr, Bind.bind, Except.bind, ne_eq,
            not_true_eq_false, not_false_eq_true, if_true, if_false, assert_true, Pure.pure,
            Except.pure]
          exact .panic (fun hs => hfails hs.pool) fun hc => hfails hc.pool
    · simp only [mainStart, hinit, herr, Bind.bind, Except.bind, ne_eq, not_false_eq_true, if_true]
      refine .failed_loop fun hs => ?_
      obtain ⟨s, gone, hok⟩ := eventLoopInit_returns.mpr hs
      cases hok.symm.trans hinit
      exact herr rfl

theorem shmPoolSize_pos (hw : w = 32 ∨ w = 64) : 0 < shmPoolSize w := by
  rcases hw with rfl | rfl <;> decide

/-- The display is connected when the loop of `main` starts. -/
theorem MainStarted.disconnected (h : MainStarted names layout ans world g p) :
    p.disconnected = [] :=
  (eventLoopInit_connected h.loop).2.2.2

theorem mainStart_started (hw : w = 32 ∨ w = 64)
    (h : mainStart names layout ans world g = .ok p) :
    MainStarted names layout ans world g p := by
  have houtcome := mainStart_outcome names layout ans world g (shmPoolSize_pos hw)
  rw [h] at houtcome
  cases houtcome with
  | started _ hs => exact hs

theorem StartAnswers.Succeeds.safe (hs : ans.Succeeds names) : ¬ ans.Crashes names := by
  intro hc
  rcases hc.missing with hnone | ⟨_, hnone⟩
  · exact hnone (hs.globals .compositor)
  · exact hnone (hs.globals .wmBase)

theorem mainStart_ok_iff (hw : w = 32 ∨ w = 64) :
    (∃ p, mainStart names layout ans world g = .ok p) ↔ ans.Succeeds names := by
  have houtcome := mainStart_outcome names layout ans world g (shmPoolSize_pos hw)
  generalize mainStart names layout ans world g = outcome at houtcome
  cases houtcome with
  | started hsucceeds h => exact iff_of_true ⟨_, rfl⟩ hsucceeds
  | fault hcrashes => exact iff_of_false (by simp) fun hs => hs.safe hcrashes
  | panic hfails _ => exact iff_of_false (by simp) hfails

end Spaze
