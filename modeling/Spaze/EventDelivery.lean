import Spaze.EventLoopUpdate

/-! What `event_loop_update` does with the events of a connection, over runs of updates and gets. -/
namespace Spaze

open Runs Stacks

variable {δ ι : Type} {w : ℕ}

/-! ## What libwayland-client documents -/

/-- A connection as seen from outside: the events read and not yet dispatched, all events read
so far, whether a read is prepared, and whether the connection has failed. -/
structure View (δ ι : Type) where
  queue : δ → List (WlEvent ι)
  arrived : δ → List (WlEvent ι)
  prepared : δ → Bool
  failed : δ → Bool

/-- The call leaves the events alone. The connection may fail in it. -/
structure View.Same (v : View δ ι) (d d' : δ) : Prop where
  queue : v.queue d' = v.queue d
  arrived : v.arrived d' = v.arrived d
  prepared : v.prepared d' = v.prepared d
  failed : v.failed d = true → v.failed d' = true

/-- What the calls do to the events, as documented. A read is prepared exactly if nothing is
queued; only a prepared read may be finished or cancelled, and nothing else may be done while
one is. A dispatch goes through the queue in order and stops only if the connection fails; it
stays failed then, and nothing more is dispatched. -/
structure View.Documented (v : View δ ι) (out : Outside δ ι) : Prop where
  poll : ∀ d, v.Same d (out.poll d).2
  malloc : ∀ d, v.Same d (out.malloc d).2
  flush : ∀ d, v.Same d (out.flush d).2
  prepareRead : ∀ d, v.prepared d = false →
    v.queue (out.prepareRead d).2 = v.queue d ∧ v.arrived (out.prepareRead d).2 = v.arrived d ∧
    v.prepared (out.prepareRead d).2 = (v.queue d).isEmpty ∧
    ((out.prepareRead d).1 = -1 ↔ v.queue d ≠ [])
  readEvents : ∀ d, v.prepared d = true → v.prepared (out.readEvents d) = false ∧
    ∃ events, v.queue (out.readEvents d) = v.queue d ++ events ∧
      v.arrived (out.readEvents d) = v.arrived d ++ events
  cancelRead : ∀ d, v.prepared d = true → v.prepared (out.cancelRead d) = false ∧
    v.queue (out.cancelRead d) = v.queue d ∧ v.arrived (out.cancelRead d) = v.arrived d
  takePending : ∀ d, v.prepared d = false →
    (out.takePending d).1 ++ v.queue (out.takePending d).2 = v.queue d ∧
    v.arrived (out.takePending d).2 = v.arrived d ∧ v.prepared (out.takePending d).2 = false ∧
    (v.failed (out.takePending d).2 = false → v.queue (out.takePending d).2 = [])
  failed : ∀ d, v.failed d = true → v.failed (out.prepareRead d).2 = true ∧
    v.failed (out.readEvents d) = true ∧ v.failed (out.cancelRead d) = true ∧
    v.failed (out.takePending d).2 = true ∧ (out.takePending d).1 = []

/-! ## One callback -/

/-- The answer of the listener. -/
def WlEvent.reply : WlEvent ι → Option Reply
  | .ping wmBase serial => some (.pong wmBase serial)
  | .surfaceConfigure xdgSurface serial => some (.ackConfigure xdgSurface serial)
  | _ => none

/-- The event that the listener pushes for the client. -/
def WlEvent.pushes : WlEvent ι → Option (EventS ι w)
  | .configure window width height => some (resizeEvent window width height)
  | .close window => some (closeEvent window)
  | _ => none

/-- The listener meets assertions of `registry_global`, which hold of the announcement. -/
def WlEvent.Accepted (names : ProtocolNames) : WlEvent ι → Prop
  | .global a => Binds names a
  | _ => True

variable {out : Outside δ ι} {v : View δ ι} {names : ProtocolNames} {layout : Layout ι w}
  {limit : ℕ} {mem : Malloc} {c c' : ClientS ι w} {e : WlEvent ι} {s t : Session δ ι w}
  {contents : List (EventS ι w)} {events : List (WlEvent ι)}

/-- What a callback leaves. -/
structure Called (layout : Layout ι w) (mem : Malloc) (e : WlEvent ι) (c c' : ClientS ι w) :
    Prop where
  replies : c'.replies = c.replies ++ e.reply.toList
  dispatched : c'.dispatched = c.dispatched
  display : c'.loop.display = c.loop.display
  alive : c'.loop.alive = c.loop.alive
  quiet : e.pushes (w := w) = none → c'.loop.events = c.loop.events
  pushed : ∀ event, e.pushes = some event →
    arrayPush mem c.loop.events (layout.encode event) = .ok c'.loop.events

theorem bindGlobal_keeps {k : Global} {a : Announcement} {r r' : Registry w}
    (h : bindGlobal names k a r = .ok r') : r'.1.events = r.1.events ∧
      r'.1.display = r.1.display ∧ r'.1.alive = r.1.alive := by
  unfold bindGlobal at h
  split at h
  · split at h
    · cases h
    · cases h
      cases k <;> exact ⟨rfl, rfl, rfl⟩
  · cases h
    exact ⟨rfl, rfl, rfl⟩

/-- An announcement changes the globals of the loop only. -/
theorem registryGlobal_keeps {a : Announcement} {r r' : Registry w}
    (h : registryGlobal names r a = .ok r') : r'.1.events = r.1.events ∧
      r'.1.display = r.1.display ∧ r'.1.alive = r.1.alive := by
  obtain ⟨_, _, h⟩ := bind_eq_ok.mp h
  obtain ⟨r₁, h₁, h⟩ := bind_eq_ok.mp h
  obtain ⟨r₂, h₂, h₃⟩ := bind_eq_ok.mp h
  obtain ⟨he, hd, ha⟩ := bindGlobal_keeps h₁
  obtain ⟨he', hd', ha'⟩ := bindGlobal_keeps h₂
  obtain ⟨he'', hd'', ha''⟩ := bindGlobal_keeps h₃
  exact ⟨he''.trans (he'.trans he), hd''.trans (hd'.trans hd), ha''.trans (ha'.trans ha)⟩

theorem callListener_ok (h : callListener names layout mem c e = .ok c') :
    Called layout mem e c c' := by
  cases e with
  | global a =>
    obtain ⟨r, hr, h⟩ := bind_eq_ok.mp h
    obtain ⟨he, hd, ha⟩ := registryGlobal_keeps hr
    cases h
    exact ⟨by simp [WlEvent.reply], rfl, hd, ha, fun _ => he, nofun⟩
  | globalRemove name =>
    cases h
    exact ⟨by simp [WlEvent.reply, registryGlobalRemove], rfl, rfl, rfl, fun _ => rfl, nofun⟩
  | ping wmBase serial =>
    cases h
    exact ⟨rfl, rfl, rfl, rfl, fun _ => rfl, nofun⟩
  | surfaceConfigure xdgSurface serial =>
    cases h
    exact ⟨rfl, rfl, rfl, rfl, fun _ => rfl, nofun⟩
  | configure window width height =>
    obtain ⟨r, hr, h⟩ := bind_eq_ok.mp h
    cases h
    refine ⟨by simp [WlEvent.reply], rfl, rfl, rfl, nofun, ?_⟩
    rintro event ⟨⟩
    exact hr
  | close window =>
    obtain ⟨r, hr, h⟩ := bind_eq_ok.mp h
    cases h
    refine ⟨by simp [WlEvent.reply], rfl, rfl, rfl, nofun, ?_⟩
    rintro event ⟨⟩
    exact hr

theorem registryGlobal_error {a : Announcement} {r : Registry w} {why : Stop}
    (h : registryGlobal names r a = .error why) : why = .panic ∧ ¬ Binds names a := by
  have hpanic : ∀ k (r : Registry w), bindGlobal names k a r = .error why → why = .panic := by
    intro k r h
    unfold bindGlobal at h
    split at h
    · split at h <;> cases h
      rfl
    · cases h
  refine ⟨?_, fun hbinds => ?_⟩
  · rcases bind_eq_error.mp h with h | ⟨_, _, h⟩
    · unfold assert at h
      split at h <;> cases h
      rfl
    · rcases bind_eq_error.mp h with h | ⟨_, _, h⟩
      · exact hpanic _ _ h
      · rcases bind_eq_error.mp h with h | ⟨_, _, h⟩
        · exact hpanic _ _ h
        · exact hpanic _ _ h
  · obtain ⟨r', hr⟩ := registryGlobal_returns (s := r).mpr hbinds
    cases hr.symm.trans h

/-- A push onto a queue of events returns, or mi_malloc has aborted. -/
theorem Queued.push_error {events : ArrayS w} {event : EventS ι w} {why : Stop}
    (h : Queued limit layout events contents) (hb : ArrayBounds limit layout.size)
    (hm : mem.limit = limit) (hp : arrayPush mem events (layout.encode event) = .error why) :
    why = .abort := by
  have hb' : ArrayBounds limit events.elemSize := h.elemSize ▸ hb
  have hsize : (layout.encode event).length = events.elemSize.toNat := by
    rw [layout.length_encode, h.elemSize]
  rcases h.stores.push_cases hb'.limit_lt hb'.pos (h.stores.pushFits hb')
    (fun _ hs => Nat.le_trans hs (Nat.le_of_eq hm)) hsize with habort | ⟨_, hok, _⟩
  · exact (Except.error.inj (hp.symm.trans habort))
  · cases hp.symm.trans hok

/-- A callback that does not return has failed an assertion of `registry_global`, or mi_malloc
has aborted. -/
theorem callListener_error {why : Stop} (hq : Queued limit layout c.loop.events contents)
    (hb : ArrayBounds limit layout.size) (hm : mem.limit = limit)
    (h : callListener names layout mem c e = .error why) :
    why = .abort ∨ why = .panic ∧ ¬ e.Accepted names := by
  cases e with
  | global a =>
    rcases bind_eq_error.mp h with h | ⟨_, _, h⟩
    · exact Or.inr (registryGlobal_error h)
    · cases h
  | globalRemove | ping | surfaceConfigure => cases h
  | configure | close =>
    rcases bind_eq_error.mp h with h | ⟨_, _, h⟩
    · exact Or.inl (hq.push_error hb hm h)
    · cases h

theorem Called.queued (h : Called layout mem e c c')
    (hq : Queued limit layout c.loop.events contents) (hb : ArrayBounds limit layout.size)
    (hm : mem.limit = limit) :
    Queued limit layout c'.loop.events (e.pushes.toList ++ contents) := by
  cases he : e.pushes (w := w) with
  | none =>
    rw [h.quiet he]
    exact hq
  | some event => exact hq.push hb hm (h.pushed event he)

/-! ## One batch -/

/-- A batch has dispatched the events before `e`, and stops in the callback of `e`. -/
def StoppedAt (out : Outside δ ι) (names : ProtocolNames) (layout : Layout ι w)
    (events : List (WlEvent ι)) (s : Session δ ι w) (why : Stop) (e : WlEvent ι) : Prop :=
  ∃ done rest u, events = done ++ e :: rest ∧
    done.foldlM (dispatchEvent out names layout) s = .ok u ∧
    dispatchEvent out names layout u e = .error why

/-- What a batch of callbacks leaves of a program with these contents in its queue. -/
structure Batch (limit : ℕ) (layout : Layout ι w) (contents : List (EventS ι w))
    (events : List (WlEvent ι)) (c c' : ClientS ι w) : Prop where
  replies : c'.replies = c.replies ++ events.filterMap WlEvent.reply
  dispatched : c'.dispatched = c.dispatched ++ events
  display : c'.loop.display = c.loop.display
  alive : c'.loop.alive = c.loop.alive
  queued : Queued limit layout c'.loop.events
    ((events.filterMap WlEvent.pushes).reverse ++ contents)

/-! ## One update -/

/-- What an `event_loop_update` in this world calls listeners with, and the world in which it
does. It runs through the calls of the update. -/
def updateTakes (out : Outside δ ι) (world : δ) : List (WlEvent ι) × δ :=
  let (polled, world) := out.poll world
  let hasErrors := polled.rc < 0 || polled.pollHup || polled.pollErr
  let (prepared, world) := out.prepareRead world
  if prepared = -1 then out.takePending world
  else
    let (flushed, world) := out.flush world
    if flushed < 0 then ([], out.cancelRead world)
    else if hasErrors then ([], out.cancelRead world)
    else out.takePending (if polled.pollIn then out.readEvents world else out.cancelRead world)

/-- An update calls the listeners with what it takes, whatever is outside. -/
theorem eventLoopUpdate_eq (out : Outside δ ι) (names : ProtocolNames) (layout : Layout ι w)
    (hdisplay : s.2.loop.display ≠ none) : eventLoopUpdate out names layout s =
      (updateTakes out s.1).1.foldlM (dispatchEvent out names layout)
        ((updateTakes out s.1).2, s.2) := by
  simp only [eventLoopUpdate, updateTakes, if_neg hdisplay]
  split
  · rfl
  · split
    · rfl
    · split <;> rfl

/-- Between reads, after these of the events queued or read by then have been taken. The others
stay queued, and only if the connection has failed. -/
structure View.Took (v : View δ ι) (d : δ) (events : List (WlEvent ι)) (d' : δ) : Prop where
  idle : v.prepared d' = false
  arrived : ∃ new, v.arrived d' = v.arrived d ++ new ∧ events ++ v.queue d' = v.queue d ++ new
  drained : v.failed d' = false → v.queue d' = []
  failed : v.failed d = true → events = [] ∧ v.failed d' = true

theorem View.Same.trans {d d' d'' : δ} (h : v.Same d d') (h' : v.Same d' d'') : v.Same d d'' :=
  ⟨h'.queue.trans h.queue, h'.arrived.trans h.arrived, h'.prepared.trans h.prepared,
    fun hd => h'.failed (h.failed hd)⟩

theorem View.Same.not_failed {d d' : δ} (h : v.Same d d') (hd : v.failed d' = false) :
    v.failed d = false :=
  Bool.eq_false_iff.mpr fun hfailed => Bool.false_ne_true (hd.symm.trans (h.failed hfailed))

/-- What is taken after something has been read, or nothing, counted from before. -/
theorem View.Took.after {d d' d'' : δ} (new : List (WlEvent ι)) (ht : v.Took d' events d'')
    (hqueue : v.queue d' = v.queue d ++ new) (harrived : v.arrived d' = v.arrived d ++ new)
    (hfailed : v.failed d = true → v.failed d' = true) : v.Took d events d'' := by
  obtain ⟨more, harrived', hqueue'⟩ := ht.arrived
  refine ⟨ht.idle, ⟨new ++ more, ?_, ?_⟩, ht.drained, fun hd => ht.failed (hfailed hd)⟩
  · rw [harrived', harrived, List.append_assoc]
  · rw [hqueue', hqueue, List.append_assoc]

theorem View.Took.same {d d' d'' : δ} (ht : v.Took d events d') (h : v.Same d' d'') :
    v.Took d events d'' := by
  obtain ⟨new, harrived, hqueue⟩ := ht.arrived
  refine ⟨h.prepared.trans ht.idle, ⟨new, ?_, ?_⟩, fun hd => ?_, fun hd => ?_⟩
  · rw [h.arrived, harrived]
  · rw [h.queue, hqueue]
  · exact h.queue.trans (ht.drained (h.not_failed hd))
  · obtain ⟨hnone, hd'⟩ := ht.failed hd
    exact ⟨hnone, h.failed hd'⟩

/-- A dispatch takes from the queue. -/
theorem View.Documented.took (hdoc : v.Documented out) {d : δ} (hidle : v.prepared d = false) :
    v.Took d (out.takePending d).1 (out.takePending d).2 := by
  obtain ⟨htake, harrived, hidle', hdrained⟩ := hdoc.takePending d hidle
  refine ⟨hidle', ⟨[], ?_, ?_⟩, hdrained, fun hd => ?_⟩
  · rw [harrived, List.append_nil]
  · rw [htake, List.append_nil]
  · obtain ⟨_, _, _, hd', hnone⟩ := hdoc.failed d hd
    exact ⟨hnone, hd'⟩

theorem View.Documented.cancelled (hdoc : v.Documented out) {d : δ} (hheld : v.prepared d = true)
    (hqueue : v.queue d = []) : v.Took d [] (out.cancelRead d) := by
  obtain ⟨hfree, hkept, harrived⟩ := hdoc.cancelRead d hheld
  refine ⟨hfree, ⟨[], ?_, ?_⟩, fun _ => hkept.trans hqueue, fun hd => ?_⟩
  · rw [harrived, List.append_nil]
  · rw [hkept, List.append_nil, List.nil_append]
  · exact ⟨rfl, (hdoc.failed d hd).2.2.1⟩

/-- The world after the `poll`, `wl_display_prepare_read` and `wl_display_flush` of an update. -/
def Outside.flushed (out : Outside δ ι) (d : δ) : δ :=
  (out.flush (out.prepareRead (out.poll d).2).2).2

/-- With nothing queued, a read is prepared by then. -/
theorem View.Documented.held (hdoc : v.Documented out) {d : δ} (hidle : v.prepared d = false)
    (hnone : v.queue d = []) : (out.prepareRead (out.poll d).2).1 ≠ -1 ∧
      v.prepared (out.flushed d) = true ∧ v.queue (out.flushed d) = v.queue d ∧
      v.arrived (out.flushed d) = v.arrived d ∧
      (v.failed d = true → v.failed (out.flushed d) = true) := by
  have hpoll := hdoc.poll d
  have hflush := hdoc.flush (out.prepareRead (out.poll d).2).2
  obtain ⟨hqueue, harrived, hprepared, hmust⟩ :=
    hdoc.prepareRead (out.poll d).2 (hpoll.prepared.trans hidle)
  refine ⟨fun hbusy => hmust.mp hbusy (hpoll.queue.trans hnone), ?_, ?_, ?_, fun hd => ?_⟩
  · rw [Outside.flushed, hflush.prepared, hprepared, hpoll.queue, hnone]
    rfl
  · exact hflush.queue.trans (hqueue.trans hpoll.queue)
  · exact hflush.arrived.trans (harrived.trans hpoll.arrived)
  · exact hflush.failed (hdoc.failed _ (hpoll.failed hd)).1

/-- An update between reads takes what is queued, or else what it reads, in this order. -/
theorem updateTakes_took (hdoc : v.Documented out) {d : δ} (hidle : v.prepared d = false) :
    v.Took d (updateTakes out d).1 (updateTakes out d).2 := by
  by_cases hnone : v.queue d = []
  · obtain ⟨hclear, hheld, hqueue, harrived, hfailed⟩ := hdoc.held hidle hnone
    have hcancelled : v.Took d [] (out.cancelRead (out.flushed d)) :=
      (hdoc.cancelled hheld (hqueue.trans hnone)).after [] (by rw [hqueue, List.append_nil])
        (by rw [harrived, List.append_nil]) hfailed
    simp only [updateTakes, if_neg hclear]
    split
    · exact hcancelled
    · split
      · exact hcancelled
      · split
        · -- the read may have queued events
          obtain ⟨hfree, new, hread, hgrown⟩ := hdoc.readEvents _ hheld
          exact (hdoc.took hfree).after new (by rw [hread, hqueue]) (by rw [hgrown, harrived])
            fun hd => (hdoc.failed _ (hfailed hd)).2.1
        · obtain ⟨hfree, hkept, harrived'⟩ := hdoc.cancelRead _ hheld
          exact (hdoc.took hfree).after [] (by rw [hkept, hqueue, List.append_nil])
            (by rw [harrived', harrived, List.append_nil])
            fun hd => (hdoc.failed _ (hfailed hd)).2.2.1
  · have hpoll := hdoc.poll d
    obtain ⟨hqueue, harrived, hprepared, hmust⟩ :=
      hdoc.prepareRead (out.poll d).2 (hpoll.prepared.trans hidle)
    rw [hpoll.queue] at hqueue hprepared hmust
    have hbusy : (out.prepareRead (out.poll d).2).1 = -1 := hmust.mpr hnone
    have hfree := hprepared.trans (List.isEmpty_eq_false_iff.mpr hnone)
    simp only [updateTakes, if_pos hbusy]
    exact (hdoc.took hfree).after [] (by rw [hqueue, List.append_nil])
      (by rw [harrived, hpoll.arrived, List.append_nil])
      fun hd => (hdoc.failed _ (hpoll.failed hd)).1

/-! ## Runs of updates and gets -/

/-- An `event_loop_update` with the events it dispatched, an `event_loop_get` with what it
returned, or a request of the client that leaves the events alone. -/
inductive ClientCall (ι : Type) (w : ℕ)
  | update (events : List (WlEvent ι))
  | get (result : Option (EventS ι w))
  | request

/-- One call of the client. -/
inductive ClientStep (v : View δ ι) (out : Outside δ ι) (names : ProtocolNames)
    (layout : Layout ι w) : Session δ ι w → ClientCall ι w → Session δ ι w → Prop
  | update {s t : Session δ ι w} (h : eventLoopUpdate out names layout s = .ok t) :
      ClientStep v out names layout s
        (.update (t.2.dispatched.drop s.2.dispatched.length)) t
  | get {s : Session δ ι w} {events : ArrayS w} {result : Option (EventS ι w)}
      (h : eventLoopGet layout s.2.loop.events = .ok (events, result)) :
      ClientStep v out names layout s (.get result)
        (s.1, { s.2 with loop := { s.2.loop with events := events } })
  | request {s : Session δ ι w} {d : δ} (h : v.Same s.1 d) :
      ClientStep v out names layout s .request (d, s.2)

/-- The loop has been connected and holds no events. What has arrived by then is queued. -/
structure Connected (v : View δ ι) (layout : Layout ι w) (s : Session δ ι w) : Prop where
  display : s.2.loop.display ≠ none
  events : s.2.loop.events = arrayInit layout.size
  replies : s.2.replies = []
  dispatched : s.2.dispatched = []
  queue : v.queue s.1 = v.arrived s.1
  idle : v.prepared s.1 = false

def clientSystem (v : View δ ι) (out : Outside δ ι) (names : ProtocolNames)
    (layout : Layout ι w) : System (Session δ ι w) (ClientCall ι w) where
  initial := Connected v layout
  step := ClientStep v out names layout

/-- What a call does to the events of the loop, read as a stack. -/
def ClientCall.toStack : ClientCall ι w → List (Call (EventS ι w))
  | .update events => (events.filterMap WlEvent.pushes).map .push
  | .get result => [.pop result]
  | .request => []

/-- A trace, read as pushes and pops of events. -/
def clientCalls (tr : List (Session δ ι w × ClientCall ι w)) : List (Call (EventS ι w)) :=
  (labels tr).flatMap ClientCall.toStack

/-- The events that a call dispatched. -/
def ClientCall.dispatches : ClientCall ι w → List (WlEvent ι)
  | .update events => events
  | _ => []

/-- The events that the updates of a trace dispatched. -/
def updated (tr : List (Session δ ι w × ClientCall ι w)) : List (WlEvent ι) :=
  (labels tr).flatMap ClientCall.dispatches

variable {tr : List (Session δ ι w × ClientCall ι w)} {a : ClientCall ι w}

theorem clientCalls_snoc : clientCalls (tr ++ [(s, a)]) = clientCalls tr ++ a.toStack := by
  simp [clientCalls]

theorem updated_snoc : updated (tr ++ [(s, a)]) = updated tr ++ a.dispatches := by
  simp [updated]

/-! ## Batches of callbacks -/

variable (hdoc : v.Documented out) (hlimit : ∀ d, (out.malloc d).1.limit = limit)
  (hb : ArrayBounds limit layout.size)
include hdoc hlimit hb

theorem dispatchEvent_ok (hq : Queued limit layout s.2.loop.events contents)
    (h : dispatchEvent out names layout s e = .ok t) :
    v.Same s.1 t.1 ∧ Batch limit layout contents [e] s.2 t.2 := by
  obtain ⟨c', hcall, h⟩ := bind_eq_ok.mp h
  have hcalled := callListener_ok hcall
  have hqueued := hcalled.queued hq hb (hlimit s.1)
  cases h
  refine ⟨hdoc.malloc s.1, ?_, ?_, hcalled.display, hcalled.alive, ?_⟩
  · cases hr : e.reply <;> simp [hcalled.replies, hr]
  · simp [hcalled.dispatched]
  · cases hp : e.pushes (w := w) <;> simpa [hp] using hqueued

theorem dispatch_ok (hq : Queued limit layout s.2.loop.events contents)
    (h : events.foldlM (dispatchEvent out names layout) s = .ok t) :
    v.Same s.1 t.1 ∧ Batch limit layout contents events s.2 t.2 := by
  induction events generalizing s contents with
  | nil =>
    cases h
    exact ⟨⟨rfl, rfl, rfl, id⟩, by simp, by simp, rfl, rfl, hq⟩
  | cons e events ih =>
    obtain ⟨u, hu, h⟩ := bind_eq_ok.mp h
    obtain ⟨hsame, hfirst⟩ := dispatchEvent_ok hdoc hlimit hb hq hu
    obtain ⟨hsame', hrest⟩ := ih hfirst.queued h
    refine ⟨hsame.trans hsame', ?_, ?_, hrest.display.trans hfirst.display,
      hrest.alive.trans hfirst.alive, ?_⟩
    · rw [hrest.replies, hfirst.replies, List.append_assoc, ← List.filterMap_append,
        List.singleton_append]
    · rw [hrest.dispatched, hfirst.dispatched, List.append_assoc, List.singleton_append]
    · have hqueued := hrest.queued
      rwa [← List.append_assoc, ← List.reverse_append, ← List.filterMap_append,
        List.singleton_append] at hqueued

/-- A batch that does not return has stopped in the callback of one of its events: that has
failed an assertion of `registry_global`, or mi_malloc has aborted. -/
theorem dispatch_error {why : Stop} (hq : Queued limit layout s.2.loop.events contents)
    (h : events.foldlM (dispatchEvent out names layout) s = .error why) :
    ∃ e, StoppedAt out names layout events s why e ∧
      (why = .abort ∨ why = .panic ∧ ¬ e.Accepted names) := by
  induction events generalizing s contents with
  | nil => cases h
  | cons e events ih =>
    rcases bind_eq_error.mp h with h | ⟨u, hu, h⟩
    · refine ⟨e, ⟨[], events, s, rfl, rfl, h⟩, ?_⟩
      rcases bind_eq_error.mp h with h | ⟨_, _, h⟩
      · exact callListener_error hq hb (hlimit s.1) h
      · cases h
    · obtain ⟨_, hfirst⟩ := dispatchEvent_ok hdoc hlimit hb hq hu
      obtain ⟨e', ⟨done, rest, u', rfl, hdone, hstop⟩, hwhy⟩ := ih hfirst.queued h
      exact ⟨e', ⟨e :: done, rest, u', rfl, bind_eq_ok.mpr ⟨u, hu, hdone⟩, hstop⟩, hwhy⟩

theorem eventLoopUpdate_ok (hidle : v.prepared s.1 = false) (hdisplay : s.2.loop.display ≠ none)
    (hq : Queued limit layout s.2.loop.events contents)
    (h : eventLoopUpdate out names layout s = .ok t) :
    v.Took s.1 (updateTakes out s.1).1 t.1 ∧
      Batch limit layout contents (updateTakes out s.1).1 s.2 t.2 := by
  rw [eventLoopUpdate_eq out names layout hdisplay] at h
  obtain ⟨hsame, hbatch⟩ :=
    dispatch_ok (s := ((updateTakes out s.1).2, s.2)) hdoc hlimit hb hq h
  exact ⟨(updateTakes_took hdoc hidle).same hsame, hbatch⟩

omit hlimit hb in
/-- Once the connection has failed, an update does nothing. -/
theorem eventLoopUpdate_of_failed (names : ProtocolNames) (layout : Layout ι w)
    (hidle : v.prepared s.1 = false) (hdisplay : s.2.loop.display ≠ none)
    (hfailed : v.failed s.1 = true) :
    eventLoopUpdate out names layout s = .ok ((updateTakes out s.1).2, s.2) := by
  have htaken := ((updateTakes_took hdoc hidle).failed hfailed).1
  rw [eventLoopUpdate_eq out names layout hdisplay, htaken]
  rfl

/-! ## Whole runs -/

/-- What holds of a run between two calls. -/
structure Delivered (v : View δ ι) (limit : ℕ) (layout : Layout ι w)
    (tr : List (Session δ ι w × ClientCall ι w)) (t : Session δ ι w) : Prop where
  idle : v.prepared t.1 = false
  display : t.2.loop.display ≠ none
  arrived : t.2.dispatched ++ v.queue t.1 = v.arrived t.1
  history : t.2.dispatched = updated tr
  drained : ∀ events, .update events ∈ labels tr → v.failed t.1 = false → v.queue t.1 = []
  replies : t.2.replies = t.2.dispatched.filterMap WlEvent.reply
  queued : Queued limit layout t.2.loop.events ((clientCalls tr).foldl after [])
  lifo : Lifo [] (clientCalls tr)

theorem Delivered.step (h : Delivered v limit layout tr s)
    (hs : ClientStep v out names layout s a t) :
    Delivered v limit layout (tr ++ [(s, a)]) t := by
  cases hs with
  | update hu =>
    obtain ⟨htook, hbatch⟩ := eventLoopUpdate_ok hdoc hlimit hb h.idle h.display h.queued hu
    have hevents : t.2.dispatched.drop s.2.dispatched.length = (updateTakes out s.1).1 := by
      rw [hbatch.dispatched, List.drop_left]
    obtain ⟨new, harrived, hqueue⟩ := htook.arrived
    refine ⟨htook.idle, fun hnull => h.display (hbatch.display.symm.trans hnull), ?_, ?_,
      fun _ _ => htook.drained, ?_, ?_, ?_⟩
    · rw [harrived, ← h.arrived, hbatch.dispatched, List.append_assoc, List.append_assoc, hqueue]
    · rw [updated_snoc, ClientCall.dispatches, hevents, ← h.history, hbatch.dispatched]
    · rw [hbatch.replies, h.replies, hbatch.dispatched, ← List.filterMap_append]
    · rw [clientCalls_snoc, List.foldl_append, ClientCall.toStack, foldl_after_push, hevents]
      exact hbatch.queued
    · rw [clientCalls_snoc, lifo_append]
      exact ⟨h.lifo, lifo_map_push⟩
  | get hg =>
    obtain ⟨array, hget, hqueued⟩ := h.queued.get hb
    obtain ⟨rfl, rfl⟩ := Prod.mk.inj (Except.ok.inj (hget.symm.trans hg))
    refine ⟨h.idle, h.display, h.arrived, ?_, ?_, h.replies, ?_, ?_⟩
    · rw [h.history, updated_snoc]
      exact (List.append_nil _).symm
    · exact fun events he => h.drained events (by simpa using he)
    · rw [clientCalls_snoc, List.foldl_append]
      exact hqueued
    · rw [clientCalls_snoc, lifo_append]
      exact ⟨h.lifo, rfl, trivial⟩
  | request hsame =>
    refine ⟨hsame.prepared.trans h.idle, h.display, ?_, ?_, ?_, h.replies, ?_, ?_⟩
    · rw [hsame.queue, hsame.arrived, h.arrived]
    · rw [h.history, updated_snoc]
      exact (List.append_nil _).symm
    · intro events he hok
      exact hsame.queue.trans (h.drained events (by simpa using he) (hsame.not_failed hok))
    · rw [clientCalls_snoc, ClientCall.toStack, List.append_nil]
      exact h.queued
    · rw [clientCalls_snoc, ClientCall.toStack, List.append_nil]
      exact h.lifo

theorem delivered_run (h : (clientSystem v out names layout).Trace tr t) :
    Delivered v limit layout tr t := by
  obtain ⟨s, hs, hrun⟩ := h
  refine hrun.history (fun tr s a t hi ha => hi.step hdoc hlimit hb ha) ?_
  refine ⟨hs.idle, hs.display, ?_, hs.dispatched, nofun, ?_, ?_, trivial⟩
  · rw [hs.dispatched, hs.queue, List.nil_append]
  · rw [hs.replies, hs.dispatched]
    rfl
  · rw [hs.events]
    exact ⟨rfl, stores_init _⟩

/-- In every run of updates and gets each event that has arrived is dispatched once and in
order, or is still queued; after an update none is, unless the connection has failed. Those that
ask for an answer are answered with their own serial. Reads are prepared and finished in pairs.
The gets return what the callbacks pushed, newest first. The next update calls the listeners
with the events that come next, and none once the connection has failed. If it does not return,
it has dispatched those before some event in whose callback mi_malloc has aborted, or which is a
global that fails an assertion. -/
theorem updates_deliver (h : (clientSystem v out names layout).Trace tr t) :
    updated tr ++ v.queue t.1 = v.arrived t.1 ∧
    (∀ events, .update events ∈ labels tr → v.failed t.1 = false → v.queue t.1 = []) ∧
    t.2.replies = (updated tr).filterMap WlEvent.reply ∧ v.prepared t.1 = false ∧
    Lifo [] (clientCalls tr) ∧
    (updated tr ++ (updateTakes out t.1).1 ++ v.queue (updateTakes out t.1).2 =
        v.arrived (updateTakes out t.1).2 ∧
      (∀ u, eventLoopUpdate out names layout t = .ok u →
        u.2.dispatched = t.2.dispatched ++ (updateTakes out t.1).1) ∧
      (v.failed t.1 = true →
        eventLoopUpdate out names layout t = .ok ((updateTakes out t.1).2, t.2)) ∧
      ∀ why, eventLoopUpdate out names layout t = .error why →
        ∃ e, StoppedAt out names layout (updateTakes out t.1).1 ((updateTakes out t.1).2, t.2)
            why e ∧ (why = .abort ∨ why = .panic ∧ ¬ e.Accepted names)) := by
  have hi := delivered_run hdoc hlimit hb h
  have hall : updated tr ++ v.queue t.1 = v.arrived t.1 := by rw [← hi.history, hi.arrived]
  refine ⟨hall, hi.drained, by rw [hi.replies, hi.history], hi.idle, hi.lifo, ?_,
    fun u hu => ?_, eventLoopUpdate_of_failed hdoc names layout hi.idle hi.display,
    fun why hwhy => ?_⟩
  · obtain ⟨new, harrived, hqueue⟩ := (updateTakes_took hdoc hi.idle).arrived
    rw [harrived, ← hall, List.append_assoc, List.append_assoc, hqueue]
  · exact (eventLoopUpdate_ok hdoc hlimit hb hi.idle hi.display hi.queued hu).2.dispatched
  · rw [eventLoopUpdate_eq out names layout hi.display] at hwhy
    exact dispatch_error (s := ((updateTakes out t.1).2, t.2)) hdoc hlimit hb hi.queued hwhy

omit hdoc hlimit hb

/-! ## A run -/

/-- What happens outside during one update. -/
structure Beat (ι : Type) where
  polled : PollAnswer
  flushed : ℤ
  events : List (WlEvent ι)

/-- A world that goes through a script, one beat for every read that is finished or
cancelled. The connection may be about to fail, after the dispatch of so many more events. -/
structure Scripted (ι : Type) where
  queue : List (WlEvent ι)
  arrived : List (WlEvent ι)
  prepared : Bool
  beats : List (Beat ι)
  fatal : Option ℕ

/-- After the script the compositor has hung up. -/
def Scripted.beat (d : Scripted ι) : Beat ι := d.beats.headD ⟨⟨1, false, true, false⟩, 0, []⟩

def Scripted.view : View (Scripted ι) ι :=
  ⟨Scripted.queue, Scripted.arrived, Scripted.prepared, fun d => decide (d.fatal = some 0)⟩

def scripted : Outside (Scripted ι) ι where
  poll d := (d.beat.polled, d)
  prepareRead d := if d.queue.isEmpty then (0, { d with prepared := true }) else (-1, d)
  flush d := (d.beat.flushed, d)
  readEvents d :=
    { d with
      queue := d.queue ++ d.beat.events
      arrived := d.arrived ++ d.beat.events
      prepared := false
      beats := d.beats.tail }
  cancelRead d := { d with prepared := false, beats := d.beats.tail }
  takePending d :=
    match d.fatal with
    | none => (d.queue, { d with queue := [] })
    | some n =>
      (d.queue.take n, { d with queue := d.queue.drop n, fatal := some (n - d.queue.length) })
  malloc d := (zeroMalloc, d)

theorem scripted_documented : (Scripted.view (ι := ι)).Documented scripted where
  poll _ := ⟨rfl, rfl, rfl, id⟩
  malloc _ := ⟨rfl, rfl, rfl, id⟩
  flush _ := ⟨rfl, rfl, rfl, id⟩
  prepareRead d hidle := by
    cases hq : d.queue with
    | nil => simp [scripted, Scripted.view, hq]
    | cons e events =>
      have hidle' : d.prepared = false := hidle
      simp [scripted, Scripted.view, hq, hidle']
  readEvents d _ := ⟨rfl, d.beat.events, rfl, rfl⟩
  cancelRead _ _ := ⟨rfl, rfl, rfl⟩
  takePending d hidle := by
    have hidle' : d.prepared = false := hidle
    cases hf : d.fatal with
    | none => simp [scripted, Scripted.view, hf, hidle']
    | some n =>
      simpa [scripted, Scripted.view, hf, hidle', Nat.sub_eq_zero_iff_le] using Nat.le_of_lt
  failed d hfailed := by
    have hf : d.fatal = some 0 := of_decide_eq_true hfailed
    cases hq : d.queue <;> simp [scripted, Scripted.view, hf, hq]

/-- Carries out a call, if it returns. -/
def clientExec (names : ProtocolNames) (s : Session (Scripted (UsizeT 64)) (UsizeT 64) 64) :
    ClientCall (UsizeT 64) 64 → Option (Session (Scripted (UsizeT 64)) (UsizeT 64) 64 ×
      ClientCall (UsizeT 64) 64)
  | .update _ =>
    match eventLoopUpdate scripted names eventLayout s with
    | .ok t => some (t, .update (t.2.dispatched.drop s.2.dispatched.length))
    | .error _ => none
  | .get _ =>
    match eventLoopGet eventLayout s.2.loop.events with
    | .ok (events, result) =>
      some ((s.1, { s.2 with loop := { s.2.loop with events := events } }), .get result)
    | .error _ => none
  | .request => some (s, .request)

theorem clientExec_step (names : ProtocolNames)
    (s : Session (Scripted (UsizeT 64)) (UsizeT 64) 64) (o : ClientCall (UsizeT 64) 64)
    (t : Session (Scripted (UsizeT 64)) (UsizeT 64) 64) (a : ClientCall (UsizeT 64) 64)
    (h : clientExec names s o = some (t, a)) :
    (clientSystem Scripted.view scripted names eventLayout).step s a t := by
  cases o with
  | update events =>
    simp only [clientExec] at h
    split at h
    · rename_i hu
      cases h
      exact .update hu
    · cases h
  | get result =>
    simp only [clientExec] at h
    split at h
    · rename_i hg
      cases h
      exact .get hg
    · cases h
  | request =>
    cases h
    exact .request ⟨rfl, rfl, rfl, id⟩

/-- A connection on which one ping is queued, then two configures of one window arrive, and then
another ping, behind which the connection fails. -/
def scriptedSession : Session (Scripted (UsizeT 64)) (UsizeT 64) 64 :=
  ({ queue := [.ping 4 100]
     arrived := [.ping 4 100]
     prepared := false
     beats := [⟨⟨1, true, false, false⟩, 0,
       [.configure 1 300 200, .surfaceConfigure 5 101, .configure 1 400 250]⟩,
       ⟨⟨1, true, false, false⟩, 0, [.ping 4 102, .close 1]⟩]
     fatal := some 5 },
    { loop := { EventLoopS.zero 64 with events := arrayInit eventLayout.size, display := some 1 }
      binds := []
      replies := []
      dispatched := [] })

theorem executed_client (names : ProtocolNames) (ops : List (ClientCall (UsizeT 64) 64))
    (p : List (Session (Scripted (UsizeT 64)) (UsizeT 64) 64 × ClientCall (UsizeT 64) 64) →
      Session (Scripted (UsizeT 64)) (UsizeT 64) 64 → Bool)
    (h : ((execute (clientExec names) scriptedSession ops).any fun out => p out.2 out.1) = true) :
    ∃ tr t, (clientSystem Scripted.view scripted names eventLayout).Trace tr t ∧
      p tr t = true := by
  obtain ⟨tr, t, hr, hp⟩ := execute_any (p := p) (clientExec_step names) h
  exact ⟨tr, t, ⟨_, ⟨Option.some_ne_none _, rfl, rfl, rfl, rfl, rfl⟩, hr⟩, hp⟩

/-- The pings and the configure are answered in order, and the newest size is returned first.
The close stays queued, whatever the number of updates. -/
theorem updates_deliver_scripted : ∃ tr t,
    (clientSystem Scripted.view scripted ⟨"wl_compositor", "wl_shm"⟩ eventLayout).Trace tr t ∧
    t.1.arrived.length = 6 ∧ t.1.queue.length = 1 ∧
    t.2.replies = [.pong 4 100, .ackConfigure 5 101, .pong 4 102] ∧ Lifo [] (clientCalls tr) ∧
    returned (clientCalls tr) = [resizeEvent 1 400 250, resizeEvent 1 300 200] ∧
    ∃ d, eventLoopUpdate scripted ⟨"wl_compositor", "wl_shm"⟩ eventLayout t = .ok (d, t.2) := by
  obtain ⟨tr, t, htr, hp⟩ := executed_client ⟨"wl_compositor", "wl_shm"⟩
    [.update [], .update [], .get none, .get none, .get none, .update [], .update []]
    (fun tr t => decide ((updated tr).length = 5) &&
      decide ((updated tr).filterMap WlEvent.reply =
        [.pong 4 100, .ackConfigure 5 101, .pong 4 102]) &&
      decide (returned (clientCalls tr) = [resizeEvent 1 400 250, resizeEvent 1 300 200]) &&
      decide (t.1.queue.length = 1) && decide (t.1.fatal = some 0)) (by decide +kernel)
  simp only [Bool.and_eq_true, decide_eq_true_eq] at hp
  obtain ⟨⟨⟨⟨hcount, hreply⟩, hreturned⟩, hqueue⟩, hfatal⟩ := hp
  obtain ⟨harrived, _, hreplies, _, hlifo, _, _, hnext, _⟩ :=
    updates_deliver scripted_documented (fun _ => rfl) eventBounds htr
  refine ⟨tr, t, htr, ?_, hqueue, hreplies.trans hreply, hlifo, hreturned, _,
    hnext (decide_eq_true hfatal)⟩
  have hlength := congrArg List.length harrived
  rw [List.length_append, hcount] at hlength
  exact hlength.symm.trans (congrArg (5 + ·) hqueue)

end Spaze
