import Spaze.EventLoopUpdate
import Spaze.Gfx
import Spaze.Lib.Rounds

/-! The program of spaze.c: one event loop, one pool and one window, until an event closes it. -/
namespace Spaze

open Rounds

variable {δ ι : Type} {w : ℕ}

/-- `KiB(n)`. -/
def kiB (n : ℕ) : ℕ := n * 1024

/-- `MiB(n)`. -/
def miB (n : ℕ) : ℕ := kiB n * 1024

/-- `SHM_POOL_SIZE`, as the capacity that `shm_pool_init` is given. -/
def shmPoolSize (w : ℕ) : UsizeT w := BitVec.ofNat w (miB 20)

/-- One test of the loop of `handle_events` and its body, with `*should_quit`. -/
def handleEvent (layout : Layout ι w) (s : ArrayS w × Bool) :
    Except Stop ((ArrayS w × Bool) × Bool) := do
  let (events, event) ← eventLoopGet layout s.1
  match event with
  | none => return ((events, s.2), true)
  | some event =>
    match event.kind with
    | .close => return ((events, true), false)
    | .resize => return ((events, s.2), false)

/-- `handle_events`. -/
def handleEvents (layout : Layout ι w) (fuel : ℕ) (events : ArrayS w) (shouldQuit : Bool) :
    Except Stop (ArrayS w × Bool) :=
  iterate .fuel (handleEvent layout) fuel (events, shouldQuit)

section

variable (out : Outside δ ι) (names : ProtocolNames) (layout : Layout ι w)

/-- The body of the loop of `main`, with `should_quit`. Every event takes `handle_events` one
test of its loop, and the end of the events another one. -/
def mainRound (s : Session δ ι w) : Except Stop (Session δ ι w × Bool) := do
  let (world, client) ← eventLoopUpdate out names layout s
  let (events, shouldQuit) ←
    handleEvents layout (client.loop.events.length.toNat + 1) client.loop.events false
  return ((world, { client with loop := { client.loop with events := events } }), shouldQuit)

/-- The loop of `main`. -/
def mainLoop (fuel : ℕ) (s : Session δ ι w) : Except Stop (Session δ ι w) :=
  iterate .fuel (mainRound out names layout) fuel s

end

/-- `window_init`, with the objects of the loop: to send a request to a NULL object is a fault. -/
def windowInitOn (loop : EventLoopS w) (ans : WindowAnswers) (requests : List WlRequest) :
    Except Stop (List WlRequest × WindowS × WindowErrorE) :=
  if loop.compositor = none then .error .fault
  else if ans.surface ≠ none ∧ loop.wmBase = none then .error .fault
  else .ok (windowInit ans requests)

/-- The answers to the calls of `main` before its loop. -/
structure StartAnswers where
  loop : LoopAnswers
  pool : InitAnswers
  window : WindowAnswers

/-- The variables of `main` and what is outside of it, with the requests about windows and the
displays disconnected so far. -/
structure MainS (δ ι : Type) (w : ℕ) where
  session : Session δ ι w
  gfx : Gfx w
  window : WindowS
  requests : List WlRequest
  disconnected : List (Option WlProxy)

/-- `main` up to its loop. -/
def mainStart (names : ProtocolNames) (layout : Layout ι w) (ans : StartAnswers) (world : δ)
    (g : Gfx w) : Except Stop (MainS δ ι w) := do
  let (((loop, binds), disconnected), err) ← eventLoopInit names layout.size ans.loop []
  if err ≠ .ok then .error .panic
  -- `shm_pool_init` asserts that it is given a `wl_shm`
  assert loop.shm.isSome
  let (g, shmErr) ← shmPoolInit ans.pool g (shmPoolSize w)
  if shmErr ≠ .ok then .error .panic
  let (requests, window, winErr) ← windowInitOn loop ans.window []
  if winErr ≠ .ok then .error .panic
  return {
    session := (world, { loop := loop, binds := binds, replies := [], dispatched := [] })
    gfx := g
    window := window
    requests := requests
    disconnected := disconnected }

/-- `main` from its loop on, after which it deinits the window, the pool and the loop. -/
def mainRest (out : Outside δ ι) (names : ProtocolNames) (layout : Layout ι w) (fuel : ℕ)
    (p : MainS δ ι w) : Except Stop (MainS δ ι w) := do
  let (world, client) ← mainLoop out names layout fuel p.session
  let (requests, window) := windowDeinit p.window p.requests
  let g ← shmPoolDeinit fuel p.gfx
  let (loop, disconnected) := eventLoopDeinit client.loop p.disconnected
  return {
    session := (world, { client with loop := loop })
    gfx := g
    window := window
    requests := requests
    disconnected := disconnected }

/-- `main`. -/
def main (out : Outside δ ι) (names : ProtocolNames) (layout : Layout ι w) (fuel : ℕ)
    (ans : StartAnswers) (world : δ) (g : Gfx w) : Except Stop (MainS δ ι w) := do
  let p ← mainStart names layout ans world g
  mainRest out names layout fuel p

end Spaze
