import Spaze.Array

/-!
The events and the windows of windowing.h and windowing.c.

Windows are named by their pointers, of type `ι`. All of them share one event loop, so
`window->loop` is the loop of the state and not a field.
-/
namespace Spaze

/-- `enum event_kind_e`. -/
inductive EventKindE
  | close
  | resize
  deriving DecidableEq

/-- `struct event_resize_s`. -/
structure EventResizeS (w : ℕ) where
  newWidth : UsizeT w
  newHeight : UsizeT w
  deriving DecidableEq

/-- `union event_data_u`, which has one member. -/
structure EventDataU (w : ℕ) where
  resize : EventResizeS w
  deriving DecidableEq

/-- `struct event_s`. -/
structure EventS (ι : Type) (w : ℕ) where
  kind : EventKindE
  data : EventDataU w
  window : ι
  deriving DecidableEq

/-- How the compiler lays out `struct event_s` in memory. -/
structure Layout (ι : Type) (w : ℕ) where
  size : UsizeT w
  encode : EventS ι w → List Byte
  decode : List Byte → EventS ι w
  length_encode : ∀ e, (encode e).length = size.toNat
  decode_encode : ∀ e, decode (encode e) = e

variable {ι : Type} {w : ℕ}

/-- The event that `window_close` pushes. -/
def closeEvent (window : ι) : EventS ι w where
  kind := .close
  data := ⟨⟨0, 0⟩⟩
  window := window

/-- `width > 0 ? width : 1`, where an `int32_t` becomes a `usize_t`. -/
def safeSize (size : BitVec 32) : UsizeT w :=
  if size.toInt > 0 then BitVec.ofInt w size.toInt else 1

/-- The event that `window_configure` pushes. -/
def resizeEvent (window : ι) (width height : BitVec 32) : EventS ι w where
  kind := .resize
  data := ⟨⟨safeSize width, safeSize height⟩⟩
  window := window

/-- `window_close`, on the events of the loop. -/
def windowClose (mem : Malloc) (layout : Layout ι w) (events : ArrayS w) (window : ι) :
    Except Stop (ArrayS w) :=
  arrayPush mem events (layout.encode (closeEvent window))

/-- `window_configure`, on the events of the loop. -/
def windowConfigure (mem : Malloc) (layout : Layout ι w) (events : ArrayS w) (window : ι)
    (width height : BitVec 32) : Except Stop (ArrayS w) :=
  arrayPush mem events (layout.encode (resizeEvent window width height))

/-- `event_loop_get`: `none` when it returns false, else what it leaves in `*event`. -/
def eventLoopGet (layout : Layout ι w) (events : ArrayS w) :
    Except Stop (ArrayS w × Option (EventS ι w)) := do
  if arrayIsEmpty events then return (events, none)
  let (events, out) ← arrayPop events
  return (events, out.map layout.decode)

/-! ## Windows -/

/-- Wayland objects on the client side. -/
abbrev WlProxy := ℕ

/-- The requests that create and destroy the objects of a window. -/
inductive WlRequest
  | createSurface (surface : WlProxy)
  | getXdgSurface (xdgSurface surface : WlProxy)
  | getToplevel (xdgToplevel xdgSurface : WlProxy)
  | commit (surface : WlProxy)
  | destroySurface (surface : Option WlProxy)
  | destroyXdgSurface (xdgSurface : Option WlProxy)
  | destroyToplevel (xdgToplevel : Option WlProxy)
  deriving DecidableEq

/-- `struct window_s`. -/
structure WindowS where
  surface : Option WlProxy
  xdgSurface : Option WlProxy
  xdgToplevel : Option WlProxy
  alive : Bool
  deriving DecidableEq

/-- A window after `memset(window, 0, sizeof(*window))`. -/
def WindowS.zero : WindowS := ⟨none, none, none, false⟩

/-- `enum window_error_e`. -/
inductive WindowErrorE
  | ok
  | wlSurfaceCreateFailed
  | xdgSurfaceCreateFailed
  | xdgToplevelCreateFailed
  deriving DecidableEq

/-- What the three create calls of one `window_init` return. -/
structure WindowAnswers where
  surface : Option WlProxy
  xdgSurface : Option WlProxy
  xdgToplevel : Option WlProxy
  deriving DecidableEq

/-- `window_init`, with the requests sent so far. -/
def windowInit (ans : WindowAnswers) (requests : List WlRequest) :
    List WlRequest × WindowS × WindowErrorE :=
  match ans.surface with
  | none => (requests, .zero, .wlSurfaceCreateFailed)
  | some surface =>
    let requests := requests ++ [.createSurface surface]
    match ans.xdgSurface with
    | none => (requests ++ [.destroySurface surface], .zero, .xdgSurfaceCreateFailed)
    | some xdgSurface =>
      let requests := requests ++ [.getXdgSurface xdgSurface surface]
      match ans.xdgToplevel with
      | none =>
        (requests ++ [.destroyXdgSurface xdgSurface, .destroySurface surface], .zero,
          .xdgToplevelCreateFailed)
      | some xdgToplevel =>
        (requests ++ [.getToplevel xdgToplevel xdgSurface, .commit surface],
          { surface := surface
            xdgSurface := xdgSurface
            xdgToplevel := xdgToplevel
            alive := true }, .ok)

/-- `window_deinit`, with the requests sent so far. -/
def windowDeinit (window : WindowS) (requests : List WlRequest) : List WlRequest × WindowS :=
  if window.alive then
    (requests ++ [.destroySurface window.surface, .destroyXdgSurface window.xdgSurface,
      .destroyToplevel window.xdgToplevel], .zero)
  else (requests, window)

end Spaze
