import Spaze.EventLoopInit
import Spaze.EventOrder

/-!
`event_loop_update`, `event_loop_deinit` and the listeners of windowing.c.

libwayland-client is not in the tree. The calls to it, and poll and mi_malloc, are functions
over a state `δ` of everything outside the program; `View.Documented` says of them what the
documentation of libwayland-client does.
-/
namespace Spaze

open Stacks

variable {δ ι : Type} {w : ℕ}

/-- An event for one of the listeners of windowing.c, with the arguments the listener uses. -/
inductive WlEvent (ι : Type)
  | global (a : Announcement)
  | globalRemove (name : BitVec 32)
  | ping (wmBase : WlProxy) (serial : BitVec 32)
  | surfaceConfigure (xdgSurface : WlProxy) (serial : BitVec 32)
  | configure (window : ι) (width height : BitVec 32)
  | close (window : ι)

/-- The requests with which listeners answer an event. -/
inductive Reply
  | pong (wmBase : WlProxy) (serial : BitVec 32)
  | ackConfigure (xdgSurface : WlProxy) (serial : BitVec 32)
  deriving DecidableEq

/-- What `poll` returns, and the bits of `revents`. -/
structure PollAnswer where
  rc : ℤ
  pollIn : Bool
  pollHup : Bool
  pollErr : Bool
  deriving DecidableEq

/-- The calls out of `event_loop_update` and of the listeners. `takePending` returns the events
that one `wl_display_dispatch_pending` calls listeners with, `malloc` is how mi_malloc answers
during one callback. -/
structure Outside (δ ι : Type) where
  poll : δ → PollAnswer × δ
  prepareRead : δ → ℤ × δ
  flush : δ → ℤ × δ
  readEvents : δ → δ
  cancelRead : δ → δ
  takePending : δ → List (WlEvent ι) × δ
  malloc : δ → Malloc × δ

/-- The loop with the objects bound and the replies sent so far. As history, the events that
listeners have been called with, oldest first. -/
structure ClientS (ι : Type) (w : ℕ) where
  loop : EventLoopS w
  binds : List Bind
  replies : List Reply
  dispatched : List (WlEvent ι)

/-- The program, and what is outside of it. -/
abbrev Session (δ ι : Type) (w : ℕ) := δ × ClientS ι w

/-- `wm_base_ping`. -/
def wmBasePing (s : ClientS ι w) (wmBase : WlProxy) (serial : BitVec 32) : ClientS ι w :=
  { s with replies := s.replies ++ [.pong wmBase serial] }

/-- `surface_configure`. -/
def surfaceConfigure (s : ClientS ι w) (xdgSurface : WlProxy) (serial : BitVec 32) :
    ClientS ι w :=
  { s with replies := s.replies ++ [.ackConfigure xdgSurface serial] }

/-- `registry_global_remove`. -/
def registryGlobalRemove (s : ClientS ι w) (_ : BitVec 32) : ClientS ι w := s

/-- The callback of a listener. -/
def callListener (names : ProtocolNames) (layout : Layout ι w) (mem : Malloc) (s : ClientS ι w) :
    WlEvent ι → Except Stop (ClientS ι w)
  | .global a => do
    let (loop, binds) ← registryGlobal names (s.loop, s.binds) a
    return { s with loop := loop, binds := binds }
  | .globalRemove name => return registryGlobalRemove s name
  | .ping wmBase serial => return wmBasePing s wmBase serial
  | .surfaceConfigure xdgSurface serial => return surfaceConfigure s xdgSurface serial
  | .configure window width height => do
    let events ← windowConfigure mem layout s.loop.events window width height
    return { s with loop := { s.loop with events := events } }
  | .close window => do
    let events ← windowClose mem layout s.loop.events window
    return { s with loop := { s.loop with events := events } }

section

variable (out : Outside δ ι) (names : ProtocolNames) (layout : Layout ι w)

/-- One round of `wl_display_dispatch_pending`: an event goes to its listener. -/
def dispatchEvent (s : Session δ ι w) (e : WlEvent ι) : Except Stop (Session δ ι w) := do
  let (mem, world) := out.malloc s.1
  let client ← callListener names layout mem s.2 e
  return (world, { client with dispatched := client.dispatched ++ [e] })

/-- `wl_display_dispatch_pending`. -/
def dispatchPending (s : Session δ ι w) : Except Stop (Session δ ι w) :=
  let (events, world) := out.takePending s.1
  events.foldlM (dispatchEvent out names layout) (world, s.2)

/-- `event_loop_update`. A NULL display is a fault. -/
def eventLoopUpdate (s : Session δ ι w) : Except Stop (Session δ ι w) :=
  let (world, client) := s
  if client.loop.display = none then .error .fault
  else
    let (polled, world) := out.poll world
    let hasErrors := polled.rc < 0 || polled.pollHup || polled.pollErr
    let (prepared, world) := out.prepareRead world
    if prepared = -1 then dispatchPending out names layout (world, client)
    else
      let (flushed, world) := out.flush world
      if flushed < 0 then .ok (out.cancelRead world, client)
      else if hasErrors then .ok (out.cancelRead world, client)
      else
        let world := if polled.pollIn then out.readEvents world else out.cancelRead world
        dispatchPending out names layout (world, client)

end

/-- The loop after `memset(loop, 0, sizeof(*loop))`. -/
def EventLoopS.zero (w : ℕ) : EventLoopS w where
  events := arrayInit 0
  display := none
  compositor := none
  wmBase := none
  shm := none
  alive := false

/-- `event_loop_deinit`, with the displays disconnected so far. -/
def eventLoopDeinit (loop : EventLoopS w) (disconnected : List (Option WlProxy)) :
    EventLoopS w × List (Option WlProxy) :=
  let loop := { loop with events := arrayDeinit loop.events }
  if loop.alive then (.zero w, disconnected ++ [loop.display]) else (loop, disconnected)

end Spaze
