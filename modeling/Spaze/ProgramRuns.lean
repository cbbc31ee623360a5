import Spaze.PoolLives
import Spaze.PoolViews
import Spaze.ProgramRounds
import Spaze.ProgramStart
import Spaze.SwapchainReturn
import Spaze.WindowObjects

/-! When the program of spaze.c ends, and what it has given back by then. -/
namespace Spaze

open Rounds Runs Stacks

variable {δ ι : Type} {w : ℕ} {out : Outside δ ι} {v : View δ ι} {names : ProtocolNames}
  {layout : Layout ι w} {limit n : ℕ} {s t : Session δ ι w} {why : Stop} {display : WlProxy}
  {ans : StartAnswers} {world : δ} {g g' : Gfx w} {p : MainS δ ι w} {size : UsizeT w}

/-! ## Between the start and the loop -/

theorem MainStarted.waiting (limit : ℕ) (h : MainStarted names layout ans world g p)
    (hidle : v.prepared world = false) (hnew : v.queue world = v.arrived world) :
    ∃ display, ans.loop.display = some display ∧
      Waiting v limit layout display p.session := by
  obtain ⟨hevents, ⟨display, hdisplay, hset⟩, halive, _⟩ := eventLoopInit_connected h.loop
  refine ⟨display, hdisplay, ?_, hset, halive, ?_, ?_, ?_⟩
  · rw [h.world, hidle]
  · rw [h.world, h.dispatched, hnew, List.nil_append]
  · rw [h.replies, h.dispatched]
    rfl
  · rw [hevents]
    exact ⟨rfl, stores_init _⟩

theorem MainStarted.quiet (h : MainStarted names layout ans world g p) :
    p.session.2.dispatched.any WlEvent.closes = false := by
  rw [h.dispatched]
  rfl

/-! ## After the loop -/

/-- The pool that `main` has not allocated from is given back. -/
theorem MainStarted.poolDeinit (h : MainStarted names layout ans world g p) (hn : 0 < n) :
    ∃ g', shmPoolDeinit n p.gfx = .ok g' ∧ g'.live = g.live ∧
      g'.os.requests = p.gfx.os.requests ++ [.wlShmPoolDestroy p.gfx.pool.pool] := by
  rcases shmPoolInit_cases h.pool with ⟨_, hstarted, _⟩ | ⟨hfail, _⟩
  · have hfree : ListRep p.gfx.links p.gfx.pool.freeBlocks [] := by
      rw [hstarted.freeBlocks]
      exact listRep_zero _
    obtain ⟨g', hdeinit, hrequests, hlive⟩ :=
      shmPoolDeinit_eq hstarted.alive hfree nofun hn
    refine ⟨g', hdeinit, ?_, by simpa using hrequests⟩
    rw [hlive, (shmPoolInit_memory h.pool).2.1]
    simp
  · exact absurd rfl hfail

/-- What `main` has at its end. -/
def MainS.ended (p : MainS δ ι w) (t : Session δ ι w) (g : Gfx w) : MainS δ ι w where
  session := (t.1, { t.2 with loop := (eventLoopDeinit t.2.loop p.disconnected).1 })
  gfx := g
  window := (windowDeinit p.window p.requests).2
  requests := (windowDeinit p.window p.requests).1
  disconnected := (eventLoopDeinit t.2.loop p.disconnected).2

theorem mainRest_eq (hl : mainLoop out names layout n p.session = .ok t)
    (hg : shmPoolDeinit n p.gfx = .ok g') :
    mainRest out names layout n p = .ok (p.ended t g') := by
  simp only [mainRest, hl, hg]
  rfl

theorem mainRest_error (hl : mainLoop out names layout n p.session = .error why) :
    mainRest out names layout n p = .error why := by
  rw [mainRest, hl]
  rfl

theorem MainStarted.mainRest_ok (h : MainStarted names layout ans world g p) {p' : MainS δ ι w}
    (hr : mainRest out names layout n p = .ok p') : ∃ t g',
    mainLoop out names layout n p.session = .ok t ∧ shmPoolDeinit n p.gfx = .ok g' ∧
      p' = p.ended t g' := by
  cases hl : mainLoop out names layout n p.session with
  | error why => cases (mainRest_error hl).symm.trans hr
  | ok t =>
    obtain ⟨_, _, _, _, hlt, _⟩ := iterate_ok_iff.mp hl
    obtain ⟨g', hg, _⟩ := h.poolDeinit (Nat.zero_lt_of_lt hlt)
    cases (mainRest_eq hl hg).symm.trans hr
    exact ⟨t, g', rfl, hg, rfl⟩

/-- A window is deinited to zero, and then every object made for it has been destroyed. -/
theorem windowDeinit_all {wans : WindowAnswers} {requests : List WlRequest} {window : WindowS}
    (h : windowInit wans [] = (requests, window, .ok)) :
    (windowDeinit window requests).2 = .zero ∧
      destroyedIn (windowDeinit window requests).1 =
        createdIn (windowDeinit window requests).1 := by
  have hsucceeds : wans.Succeeds := (windowInit_ok_iff wans []).mp (by rw [h])
  obtain ⟨surface, hs⟩ := Option.ne_none_iff_exists'.mp hsucceeds.surface
  obtain ⟨xdgSurface, hx⟩ := Option.ne_none_iff_exists'.mp hsucceeds.xdgSurface
  obtain ⟨xdgToplevel, ht⟩ := Option.ne_none_iff_exists'.mp hsucceeds.xdgToplevel
  simp only [windowInit, hs, hx, ht] at h
  cases h
  exact ⟨rfl, rfl⟩

theorem eventLoopDeinit_alive {loop : EventLoopS w} (disconnected : List (Option WlProxy))
    (h : loop.alive = true) :
    eventLoopDeinit loop disconnected = (.zero w, disconnected ++ [loop.display]) := by
  rw [eventLoopDeinit, if_pos h]

/-! ## The program -/

theorem any_closes_eq_true {batch : List (WlEvent ι)} :
    batch.any WlEvent.closes = true ↔ ∃ window, .close window ∈ batch := by
  rw [List.any_eq_true]
  constructor
  · rintro ⟨e, he, hclose⟩
    cases e with
    | close window => exact ⟨window, he⟩
    | _ => cases hclose
  · rintro ⟨window, hwindow⟩
    exact ⟨_, hwindow, rfl⟩

theorem any_closes_eq_false {batch : List (WlEvent ι)} :
    batch.any WlEvent.closes = false ↔ ∀ window, .close window ∉ batch := by
  rw [← Bool.not_eq_true, any_closes_eq_true, not_exists]

theorem main_ok (hw : w = 32 ∨ w = 64) (h : main out names layout n ans world g = .ok p) :
    ∃ start t g', mainStart names layout ans world g = .ok start ∧
      MainStarted names layout ans world g start ∧
      mainLoop out names layout n start.session = .ok t ∧
      shmPoolDeinit n start.gfx = .ok g' ∧ p = start.ended t g' := by
  obtain ⟨start, hstart, h⟩ := bind_eq_ok.mp h
  have hs := mainStart_started hw hstart
  obtain ⟨t, g', hl, hg, hp⟩ := hs.mainRest_ok h
  exact ⟨start, t, g', hstart, hs, hl, hg, hp⟩

/-- `main` comes to its loop exactly if every call before it succeeds, no announcement fails an
assertion and every global is announced. It faults exactly if `window_init` comes to send a
request to a global that was not announced, and never later. -/
theorem main_starts_iff (hw : w = 32 ∨ w = 64) (hdoc : v.Documented out)
    (hlimit : ∀ d, (out.malloc d).1.limit = limit) (hb : ArrayBounds limit layout.size)
    (hidle : v.prepared world = false) (hnew : v.queue world = v.arrived world) :
    ((∃ p, mainStart names layout ans world g = .ok p) ↔ ans.Succeeds names) ∧
    (main out names layout n ans world g = .error .fault ↔ ans.Crashes names) := by
  refine ⟨mainStart_ok_iff hw, ?_⟩
  have houtcome := mainStart_outcome names layout ans world g (shmPoolSize_pos hw)
  rw [main]
  generalize mainStart names layout ans world g = outcome at houtcome
  cases houtcome with
  | @started p hsucceeds h =>
    refine iff_of_false (fun hfault => ?_) hsucceeds.safe
    obtain ⟨display, _, hwaiting⟩ := h.waiting limit hidle hnew
    change mainRest out names layout n p = .error .fault at hfault
    cases hl : mainLoop out names layout n p.session with
    | error why =>
      rw [mainRest_error hl] at hfault
      exact mainLoop_error hdoc hlimit hb hwaiting hl (Except.error.inj hfault)
    | ok t =>
      obtain ⟨_, _, _, _, hlt, _⟩ := iterate_ok_iff.mp hl
      obtain ⟨g', hg, _⟩ := h.poolDeinit (Nat.zero_lt_of_lt hlt)
      cases (mainRest_eq hl hg).symm.trans hfault
  | fault hcrashes => exact iff_of_true rfl hcrashes
  | panic _ hnot =>
    refine iff_of_false (fun hfault => ?_) hnot
    have hstop : Stop.panic = .fault := Except.error.inj hfault
    cases hstop

/-- With `n` rounds `main` returns exactly if one of them dispatches the first event that
closes a window. -/
theorem main_returns_iff (hw : w = 32 ∨ w = 64) (hdoc : v.Documented out)
    (hlimit : ∀ d, (out.malloc d).1.limit = limit) (hb : ArrayBounds limit layout.size)
    (hidle : v.prepared world = false) (hnew : v.queue world = v.arrived world) :
    (∃ p, main out names layout n ans world g = .ok p) ↔ ∃ start tr u t quit,
      mainStart names layout ans world g = .ok start ∧
      (roundSystem (mainRound out names layout)).Run start.session tr u ∧ tr.length < n ∧
      mainRound out names layout u = .ok (t, quit) ∧
      (∀ window, .close window ∉ u.2.dispatched) ∧ ∃ window, .close window ∈ t.2.dispatched := by
  constructor
  · rintro ⟨p, hp⟩
    obtain ⟨start, t, g', hstart, hs, hl, _⟩ := main_ok hw hp
    obtain ⟨display, _, hwaiting⟩ := hs.waiting limit hidle hnew
    obtain ⟨tr, u, quit, hrun, hlt, hlast, hnone, hclosed⟩ :=
      (mainLoop_ok_iff hdoc hlimit hb hwaiting hs.quiet).mp hl
    exact ⟨start, tr, u, t, quit, hstart, hrun, hlt, hlast, any_closes_eq_false.mp hnone,
      any_closes_eq_true.mp hclosed⟩
  · rintro ⟨start, tr, u, t, quit, hstart, hrun, hlt, hlast, hnone, hclosed⟩
    have hs := mainStart_started hw hstart
    obtain ⟨display, _, hwaiting⟩ := hs.waiting limit hidle hnew
    have hl := (mainLoop_ok_iff hdoc hlimit hb hwaiting hs.quiet).mpr ⟨tr, u, quit, hrun, hlt,
      hlast, any_closes_eq_false.mpr hnone, any_closes_eq_true.mpr hclosed⟩
    obtain ⟨g', hg, _⟩ := hs.poolDeinit (Nat.zero_lt_of_lt hlt)
    refine ⟨start.ended t g', ?_⟩
    rw [main, hstart]
    exact mainRest_eq hl hg

/-- When `main` returns, every event that arrived has been dispatched, and answered if it asks
for it; if the connection has failed, the last of them may be left. The loop, the pool and the window are zero, the display has been disconnected, once,
nothing is mapped or open or allocated that was not before, and every object that was made for
the window has been destroyed. -/
theorem main_gives_back (hw : w = 32 ∨ w = 64) (hdoc : v.Documented out)
    (hlimit : ∀ d, (out.malloc d).1.limit = limit) (hb : ArrayBounds limit layout.size)
    (hidle : v.prepared world = false) (hnew : v.queue world = v.arrived world)
    (hos : g.os = Os.start w) (h : main out names layout n ans world g = .ok p) :
    (p.session.2.dispatched ++ v.queue p.session.1 = v.arrived p.session.1 ∧
      (v.failed p.session.1 = false → v.queue p.session.1 = []) ∧
      p.session.2.replies = p.session.2.dispatched.filterMap WlEvent.reply ∧
      v.prepared p.session.1 = false) ∧
    (p.session.2.loop = EventLoopS.zero w ∧ p.disconnected = [ans.loop.display]) ∧
    (Released p.gfx ∧ p.gfx.live = g.live ∧ ∃ fd pool,
      p.gfx.os.requests = [.wlShmCreatePool fd (shmPoolSize w), .wlShmPoolDestroy pool]) ∧
    p.window = WindowS.zero ∧ destroyedIn p.requests = createdIn p.requests := by
  obtain ⟨start, t, g', _, hs, hl, hg, rfl⟩ := main_ok hw h
  obtain ⟨display, hdisplay, hwaiting⟩ := hs.waiting limit hidle hnew
  obtain ⟨hend, hqueue⟩ := mainLoop_waiting hdoc hlimit hb hwaiting hl
  have hdeinit := eventLoopDeinit_alive start.disconnected hend.alive
  rw [hs.disconnected, List.nil_append, hend.display, ← hdisplay] at hdeinit
  have hviews : Views start.gfx :=
    views_initial (s := ⟨start.gfx, ∅⟩) ⟨_, rfl, ans.pool, g, hos, hs.pool⟩
  obtain ⟨_, _, _, _, hlt, _⟩ := iterate_ok_iff.mp hl
  obtain ⟨g'', hg'', hlive, hrequests⟩ := hs.poolDeinit (Nat.zero_lt_of_lt hlt)
  obtain rfl := Except.ok.inj (hg''.symm.trans hg)
  obtain ⟨fd, hcreated⟩ : ∃ fd, start.gfx.os.requests = [.wlShmCreatePool fd (shmPoolSize w)] := by
    rcases shmPoolInit_cases hs.pool with ⟨_, hstarted, _⟩ | ⟨hfail, _⟩
    · obtain ⟨ptr, _, hstart⟩ := hstarted.os
      exact ⟨_, by rw [hstart, hos]; rfl⟩
    · exact absurd rfl hfail
  refine ⟨⟨hend.arrived, hqueue, hend.replies, hend.idle⟩, ⟨?_, ?_⟩,
    ⟨hviews.deinit hg, hlive, fd, start.gfx.pool.pool, ?_⟩, windowDeinit_all hs.window⟩
  · simp [MainS.ended, hs.disconnected, hdeinit]
  · simp [MainS.ended, hs.disconnected, hdeinit]
  · exact hrequests.trans (by rw [hcreated]; rfl)

/-- From some state on `poll` finds the connection broken. -/
structure Outside.HungUp (out : Outside δ ι) (Dead : δ → Prop) : Prop where
  errors : ∀ d, Dead d → (out.poll d).1.rc < 0 ∨ (out.poll d).1.pollHup = true ∨
    (out.poll d).1.pollErr = true
  poll : ∀ d, Dead d → Dead (out.poll d).2
  prepareRead : ∀ d, Dead d → Dead (out.prepareRead d).2
  flush : ∀ d, Dead d → Dead (out.flush d).2
  cancelRead : ∀ d, Dead d → Dead (out.cancelRead d)

variable {Dead : δ → Prop} {d : δ}

/-- Nothing can be dispatched any more: the connection has failed, or `poll` finds it broken
with nothing queued. -/
def Stuck (v : View δ ι) (Dead : δ → Prop) (d : δ) : Prop :=
  v.failed d = true ∨ Dead d ∧ v.queue d = []

/-- An update that finds nothing queued and the connection broken only cancels its read. -/
theorem Outside.HungUp.takes (hdead : out.HungUp Dead) (hdoc : v.Documented out) (hd : Dead d)
    (hidle : v.prepared d = false) (hqueue : v.queue d = []) :
    (updateTakes out d).1 = [] ∧ Dead (updateTakes out d).2 ∧
      v.queue (updateTakes out d).2 = [] := by
  obtain ⟨hclear, hheld, hkept, _⟩ := hdoc.held hidle hqueue
  have hdead' : Dead (out.flushed d) := hdead.flush _ (hdead.prepareRead _ (hdead.poll d hd))
  have hbroken : (decide ((out.poll d).1.rc < 0) || (out.poll d).1.pollHup ||
      (out.poll d).1.pollErr) = true := by
    simpa [or_assoc] using hdead.errors d hd
  have htakes : updateTakes out d = ([], out.cancelRead (out.flushed d)) := by
    simp only [updateTakes, if_neg hclear, hbroken, if_true, ite_self]
    rfl
  rw [htakes]
  exact ⟨rfl, hdead.cancelRead _ hdead', (hdoc.cancelRead _ hheld).2.1.trans (hkept.trans hqueue)⟩

theorem Stuck.takes (h : Stuck v Dead d) (hdead : out.HungUp Dead) (hdoc : v.Documented out)
    (hidle : v.prepared d = false) :
    (updateTakes out d).1 = [] ∧ Stuck v Dead (updateTakes out d).2 := by
  rcases h with hfailed | ⟨hd, hqueue⟩
  · obtain ⟨hnone, hfailed'⟩ := (updateTakes_took hdoc hidle).failed hfailed
    exact ⟨hnone, Or.inl hfailed'⟩
  · obtain ⟨hnone, hd', hqueue'⟩ := hdead.takes hdoc hd hidle hqueue
    exact ⟨hnone, Or.inr ⟨hd', hqueue'⟩⟩

theorem mainRound_stuck (hdead : out.HungUp Dead) (hdoc : v.Documented out)
    (hlimit : ∀ d, (out.malloc d).1.limit = limit) (hb : ArrayBounds limit layout.size)
    (h : Waiting v limit layout display s) (hs : Stuck v Dead s.1) :
    ∃ t, mainRound out names layout s = .ok (t, false) ∧ Waiting v limit layout display t ∧
      Stuck v Dead t.1 := by
  have hdisplay : s.2.loop.display ≠ none := by simp [h.display]
  obtain ⟨hnone, hstuck⟩ := hs.takes hdead hdoc h.idle
  have hupdate := eventLoopUpdate_eq out names layout hdisplay
  rw [hnone] at hupdate
  obtain ⟨events, hhandle, _⟩ := handleEvents_eq false
    (n := s.2.loop.events.length.toNat + 1) hb h.drained (Nat.succ_pos _)
  have hround : mainRound out names layout s =
      .ok (((updateTakes out s.1).2, { s.2 with loop := { s.2.loop with events := events } }),
        false) := by
    rw [mainRound, hupdate]
    simp only [List.foldlM_nil, Bind.bind, Except.bind, Pure.pure, Except.pure]
    rw [hhandle]
    rfl
  exact ⟨_, hround, (h.turned hdoc hlimit hb hround).waiting, hstuck⟩

/-- Once the connection is broken with no event queued, or has failed with any number of them
queued, and no window has been closed by then, `main` never ends: its rounds go on and do
nothing. -/
theorem main_spins (hw : w = 32 ∨ w = 64) (hdoc : v.Documented out)
    (hlimit : ∀ d, (out.malloc d).1.limit = limit) (hb : ArrayBounds limit layout.size)
    (hidle : v.prepared world = false) (hnew : v.queue world = v.arrived world)
    (hdead : out.HungUp Dead) {tr : List (Session δ ι w × Bool)}
    (hstart : mainStart names layout ans world g = .ok p)
    (hrun : (roundSystem (mainRound out names layout)).Run p.session tr s)
    (hopen : ∀ window, .close window ∉ s.2.dispatched) (hs : Stuck v Dead s.1) (n : ℕ) :
    main out names layout n ans world g = .error .fuel := by
  have hstarted := mainStart_started hw hstart
  obtain ⟨display, _, hwaiting⟩ := hstarted.waiting limit hidle hnew
  obtain ⟨hwaiting', hiff⟩ := quiet_run hdoc hlimit hb hwaiting hstarted.quiet hrun
  have hspins : mainLoop out names layout n p.session = .error .fuel :=
    iterate_spins_from (I := fun t => Waiting v limit layout display t ∧ Stuck v Dead t.1)
      (fun t ht => mainRound_stuck hdead hdoc hlimit hb ht.1 ht.2) hrun
      (hiff.mpr (any_closes_eq_false.mpr hopen)) ⟨hwaiting', hs⟩
  rw [main, hstart]
  exact mainRest_error hspins

/-! ## Runs -/

def protocolNames : ProtocolNames := ⟨"wl_compositor", "wl_shm"⟩

/-- Nothing allocated, open or mapped yet. -/
def noGfx : Gfx 64 where
  pool := ShmPoolS.zero 64
  links _ := ⟨none, none⟩
  blocks _ := ⟨0, 0, 0, 0, false⟩
  live := ∅
  os := Os.start 64

/-- Everything succeeds, and these interfaces are announced. -/
def answersWith (interfaces : List String) : StartAnswers where
  loop :=
    { display := some 1
      registry := some 2
      announced := interfaces.map fun interface => ⟨7, interface, 1, fun _ => some 3⟩
      roundtrip := 0 }
  pool := ⟨some 4, true, some 5, some 6⟩
  window := ⟨some 8, some 9, some 10⟩

theorem answersWith_succeeds (interfaces : List String) :
    Succeeds protocolNames (answersWith interfaces).loop where
  display := Option.some_ne_none _
  registry := Option.some_ne_none _
  binds a ha := by
    obtain ⟨interface, _, rfl⟩ := List.mem_map.mp ha
    exact ⟨BitVec.le_refl wlVersion, fun _ _ => Option.some_ne_none _⟩

theorem answersWith_announced {interfaces : List String} {k : Global} :
    Announced protocolNames (answersWith interfaces).loop.announced k ↔
      k.interface protocolNames ∈ interfaces := by
  simp [Announced, answersWith]

/-- Everything succeeds. -/
def answersAll : StartAnswers := answersWith ["wl_shm", "xdg_wm_base", "wl_compositor"]

theorem answersAll_succeeds : answersAll.Succeeds protocolNames where
  loop := answersWith_succeeds _
  globals k := answersWith_announced.mpr (by cases k <;> decide)
  pool := ⟨nofun, rfl, nofun, nofun⟩
  window := ⟨nofun, nofun, nofun⟩

/-- A world in which a ping is queued, then the window is configured and then closed. -/
def closingWorld : Scripted (UsizeT 64) where
  queue := [.ping 4 100]
  arrived := [.ping 4 100]
  prepared := false
  beats := [⟨⟨1, true, false, false⟩, 0, [.configure 1 300 200, .surfaceConfigure 5 101]⟩,
    ⟨⟨0, false, false, false⟩, 0, []⟩, ⟨⟨1, true, false, false⟩, 0, [.close 1]⟩]
  fatal := none

/-- A world in which the compositor has hung up. -/
def brokenWorld : Scripted (UsizeT 64) := ⟨[], [], false, [], none⟩

/-- A world in which the connection has failed before a close that is queued. -/
def failedWorld : Scripted (UsizeT 64) := ⟨[.close 1], [.close 1], false, [], some 0⟩

/-- A compositor without `wl_compositor` makes `main` fault. -/
theorem main_starts_or_faults :
    (∃ p, mainStart protocolNames eventLayout answersAll closingWorld noGfx = .ok p) ∧
    main scripted protocolNames eventLayout 9 (answersWith ["wl_shm", "xdg_wm_base"])
      closingWorld noGfx = .error .fault := by
  constructor
  · exact (main_starts_iff (n := 9) (Or.inr rfl) scripted_documented (fun _ => rfl) eventBounds
      rfl rfl).1.mpr answersAll_succeeds
  · refine (main_starts_iff (Or.inr rfl) scripted_documented (fun _ => rfl) eventBounds
      rfl rfl).2.mpr ⟨answersWith_succeeds _, answersWith_announced.mpr (by decide),
        ⟨nofun, rfl, nofun, nofun⟩, Or.inl ?_⟩
    rw [answersWith_announced]
    decide

theorem main_closes :
    ∃ p, main scripted protocolNames eventLayout 4 answersAll closingWorld noGfx = .ok p ∧
      p.session.1.fatal = none := by
  have hok : (main scripted protocolNames eventLayout 4 answersAll closingWorld noGfx).toOption.any
      (fun p => p.session.1.fatal.isNone) = true := by decide +kernel
  generalize main scripted protocolNames eventLayout 4 answersAll closingWorld noGfx = outcome
    at hok ⊢
  cases outcome with
  | error why => cases hok
  | ok p => exact ⟨p, rfl, Option.isNone_iff_eq_none.mp hok⟩

theorem main_returns_closed : ∃ start tr u t quit,
    mainStart protocolNames eventLayout answersAll closingWorld noGfx = .ok start ∧
    (roundSystem (mainRound scripted protocolNames eventLayout)).Run start.session tr u ∧
    tr.length < 4 ∧ mainRound scripted protocolNames eventLayout u = .ok (t, quit) ∧
    (∀ window, .close window ∉ u.2.dispatched) ∧ ∃ window, .close window ∈ t.2.dispatched :=
  (main_returns_iff (Or.inr rfl) scripted_documented (fun _ => rfl) eventBounds rfl rfl).mp
    ⟨_, main_closes.choose_spec.1⟩

theorem main_gives_back_closed : ∃ p,
    main scripted protocolNames eventLayout 4 answersAll closingWorld noGfx = .ok p ∧
    p.session.2.replies = p.session.1.arrived.filterMap WlEvent.reply ∧
    p.disconnected = [some 1] ∧ Released p.gfx ∧ p.window = WindowS.zero := by
  obtain ⟨p, hp, hfatal⟩ := main_closes
  obtain ⟨⟨harrived, hqueue, hreplies, _⟩, ⟨_, hdisconnected⟩, ⟨hreleased, _⟩, hwindow, _⟩ :=
    main_gives_back (Or.inr rfl) scripted_documented (fun _ => rfl) eventBounds rfl rfl rfl hp
  have hempty : p.session.1.queue = [] := hqueue (decide_eq_false (by simp [hfatal]))
  have hall : p.session.2.dispatched = p.session.1.arrived := by
    rw [← List.append_nil p.session.2.dispatched, ← hempty]
    exact harrived
  exact ⟨p, hp, hall ▸ hreplies, hdisconnected, hreleased, hwindow⟩

theorem scripted_hungUp : (scripted (ι := ι)).HungUp fun d => d.beats = [] where
  errors d hd := by
    refine Or.inr (Or.inl ?_)
    simp [scripted, Scripted.beat, hd]
  poll _ hd := hd
  prepareRead d hd := by
    cases hq : d.queue <;> simpa [scripted, hq] using hd
  flush _ hd := hd
  cancelRead d hd := by
    simp [scripted, hd]

/-- A queued close is not dispatched either, once the connection has failed. -/
theorem main_spins_broken :
    main scripted protocolNames eventLayout 1000 answersAll brokenWorld noGfx = .error .fuel ∧
    main scripted protocolNames eventLayout 1000 answersAll failedWorld noGfx = .error .fuel := by
  have hstart : ∀ world : Scripted (UsizeT 64), ∃ p,
      mainStart protocolNames eventLayout answersAll world noGfx = .ok p := fun world =>
    (mainStart_ok_iff (Or.inr rfl)).mpr answersAll_succeeds
  constructor
  · obtain ⟨p, hp⟩ := hstart brokenWorld
    have hs := mainStart_started (Or.inr rfl) hp
    refine main_spins (Or.inr rfl) scripted_documented (fun _ => rfl) eventBounds rfl rfl
      scripted_hungUp hp (.nil _) ?_ ?_ 1000
    · rw [hs.dispatched]
      exact fun _ => List.not_mem_nil
    · rw [hs.world]
      exact Or.inr ⟨rfl, rfl⟩
  · obtain ⟨p, hp⟩ := hstart failedWorld
    have hs := mainStart_started (Or.inr rfl) hp
    refine main_spins (Or.inr rfl) scripted_documented (fun _ => rfl) eventBounds rfl rfl
      scripted_hungUp hp (.nil _) ?_ ?_ 1000
    · rw [hs.dispatched]
      exact fun _ => List.not_mem_nil
    · rw [hs.world]
      exact Or.inl rfl

end Spaze
