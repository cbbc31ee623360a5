import Spaze.Lib.LittleEndian
import Spaze.Lib.Runs
import Spaze.Lib.Stack
import Spaze.Windowing

/-! The order in which the events of a loop reach the client: newest first. -/
namespace Spaze

open Runs Stacks

variable {ι : Type} {w : ℕ}

/-- A callback of a window, or an `event_loop_get` with what it returned. -/
inductive LoopCall (ι : Type) (w : ℕ)
  | configure (window : ι) (width height : BitVec 32)
  | close (window : ι)
  | get (result : Option (EventS ι w))
  deriving DecidableEq

/-- One call, on the events of the loop. -/
inductive LoopStep (limit : ℕ) (layout : Layout ι w) :
    ArrayS w → LoopCall ι w → ArrayS w → Prop
  | configure {s t : ArrayS w} {mem : Malloc} {window : ι} {width height : BitVec 32}
      (hm : mem.limit = limit) (h : windowConfigure mem layout s window width height = .ok t) :
      LoopStep limit layout s (.configure window width height) t
  | close {s t : ArrayS w} {mem : Malloc} {window : ι} (hm : mem.limit = limit)
      (h : windowClose mem layout s window = .ok t) : LoopStep limit layout s (.close window) t
  | get {s t : ArrayS w} {result : Option (EventS ι w)}
      (h : eventLoopGet layout s = .ok (t, result)) : LoopStep limit layout s (.get result) t

/-- The loop starts as `event_loop_init` leaves it, without events. -/
def eventSystem (limit : ℕ) (layout : Layout ι w) : System (ArrayS w) (LoopCall ι w) where
  initial s := s = arrayInit layout.size
  step := LoopStep limit layout

/-- What a call does to the events, read as a stack. -/
def LoopCall.toStack : LoopCall ι w → Call (EventS ι w)
  | .configure window width height => .push (resizeEvent window width height)
  | .close window => .push (closeEvent window)
  | .get result => .pop result

/-- A trace, read as pushes and pops of events. -/
def stackCalls (tr : List (ArrayS w × LoopCall ι w)) : List (Call (EventS ι w)) :=
  (labels tr).map LoopCall.toStack

/-- The array stores these events, newest first. -/
structure Queued (limit : ℕ) (layout : Layout ι w) (s : ArrayS w)
    (contents : List (EventS ι w)) : Prop where
  elemSize : s.elemSize = layout.size
  stores : Stores limit s (contents.reverse.map layout.encode)

/-- The event is a resize of the window. -/
def EventS.resizes [DecidableEq ι] (window : ι) (e : EventS ι w) : Bool :=
  e.kind = .resize ∧ e.window = window

/-- The call is a configure of the window. -/
def LoopCall.configures [DecidableEq ι] (window : ι) : LoopCall ι w → Bool
  | .configure k _ _ => k = window
  | _ => false

variable {limit : ℕ} {layout : Layout ι w} {s t : ArrayS w} {a : LoopCall ι w}
  {contents : List (EventS ι w)} {tr : List (ArrayS w × LoopCall ι w)} {mem : Malloc}
  {e : EventS ι w}

theorem Queued.push (h : Queued limit layout s contents) (hb : ArrayBounds limit layout.size)
    (hm : mem.limit = limit) (hp : arrayPush mem s (layout.encode e) = .ok t) :
    Queued limit layout t (e :: contents) := by
  have hb' : ArrayBounds limit s.elemSize := h.elemSize ▸ hb
  have hsize : (layout.encode e).length = s.elemSize.toNat := by
    rw [layout.length_encode, h.elemSize]
  obtain ⟨hstores, helem⟩ := h.stores.push hb' (Nat.le_of_eq hm) hsize hp
  exact ⟨helem.trans h.elemSize, by simpa using hstores⟩

/-- `event_loop_get` always returns, and takes the newest event. -/
theorem Queued.get (h : Queued limit layout s contents) (hb : ArrayBounds limit layout.size) :
    ∃ t, eventLoopGet layout s = .ok (t, contents.head?) ∧
      Queued limit layout t contents.tail := by
  have hb' : ArrayBounds limit s.elemSize := h.elemSize ▸ hb
  cases contents with
  | nil =>
    have hempty : arrayIsEmpty s = true := h.stores.isEmpty_iff.mpr rfl
    exact ⟨s, by simp [eventLoopGet, hempty, Pure.pure, Except.pure], h⟩
  | cons e contents =>
    have hstores : Stores limit s (contents.reverse.map layout.encode ++ [layout.encode e]) := by
      simpa using h.stores
    have hempty : ¬ arrayIsEmpty s = true := by simp [hstores.isEmpty_iff]
    obtain ⟨t, hpop, htail, helem⟩ := hstores.pop hb'.limit_lt
    refine ⟨t, ?_, helem.trans h.elemSize, htail⟩
    simp [eventLoopGet, hempty, hpop, layout.decode_encode, Bind.bind, Except.bind, Pure.pure,
      Except.pure]

theorem queued_step (h : Queued limit layout s contents) (hb : ArrayBounds limit layout.size)
    (hs : (eventSystem limit layout).step s a t) :
    Queued limit layout t (after contents a.toStack) ∧ Lifo contents [a.toStack] := by
  cases hs with
  | configure hm hp => exact ⟨h.push hb hm hp, trivial⟩
  | close hm hp => exact ⟨h.push hb hm hp, trivial⟩
  | get hg =>
    obtain ⟨u, hu, hq⟩ := h.get hb
    obtain ⟨rfl, rfl⟩ := Prod.mk.inj (Except.ok.inj (hu.symm.trans hg))
    exact ⟨hq, rfl, trivial⟩

theorem queued_run (hb : ArrayBounds limit layout.size)
    (h : (eventSystem limit layout).Trace tr t) :
    Queued limit layout t ((stackCalls tr).foldl after []) ∧ Lifo [] (stackCalls tr) := by
  obtain ⟨s, rfl, hr⟩ := h
  refine hr.history (I := fun tr t => Queued limit layout t ((stackCalls tr).foldl after []) ∧
    Lifo [] (stackCalls tr)) ?_ ⟨⟨rfl, stores_init _⟩, trivial⟩
  rintro tr s a t ⟨hq, hl⟩ hs
  obtain ⟨hq', hl'⟩ := queued_step hq hb hs
  have hcalls : stackCalls (tr ++ [(s, a)]) = stackCalls tr ++ [a.toStack] := by
    simp [stackCalls]
  rw [hcalls, List.foldl_append, lifo_append]
  exact ⟨hq', hl, hl'⟩

variable [DecidableEq ι] {window : ι}

theorem resizes_resizeEvent {width height : BitVec 32} :
    (resizeEvent window width height : EventS ι w).resizes window = true := by
  simp [EventS.resizes, resizeEvent]

/-- A callback that is no configure of the window pushes no resize of it. -/
theorem resizes_of_push (ha : a.configures window = false) (he : a.toStack = .push e) :
    e.resizes window = false := by
  cases a with
  | configure k width height =>
    obtain rfl : resizeEvent k width height = e := Call.push.inj he
    have hk : k ≠ window := by simpa [LoopCall.configures] using ha
    simp [EventS.resizes, resizeEvent, hk]
  | close k =>
    obtain rfl : closeEvent k = e := Call.push.inj he
    simp [EventS.resizes, closeEvent]
  | get result => cases he

/-- Every `event_loop_get` returns, with the newest event pushed and not yet returned, or
false exactly when there is none. So the first resize event of a window that comes after the
newest configure of it carries the size of that configure, and it comes before the loop is
drained. -/
theorem events_newest_first (hb : ArrayBounds limit layout.size)
    (h : (eventSystem limit layout).Trace tr t) :
    Lifo [] (stackCalls tr) ∧ (∃ u result, eventLoopGet layout t = .ok (u, result)) ∧
    ∀ l r window width height, labels tr = l ++ .configure window width height :: r →
      (∀ c ∈ r, c.configures window = false) →
      (∀ e, (returned (r.map LoopCall.toStack)).find? (EventS.resizes window) = some e →
        e = resizeEvent window width height) ∧
      (.get none ∈ r → (returned (r.map LoopCall.toStack)).find? (EventS.resizes window) =
        some (resizeEvent window width height)) := by
  obtain ⟨hq, hl⟩ := queued_run hb h
  refine ⟨hl, ?_, ?_⟩
  · obtain ⟨u, hu, _⟩ := hq.get hb
    exact ⟨u, _, hu⟩
  · intro l r window width height htr hr
    rw [stackCalls, htr, List.map_append, lifo_append] at hl
    have hpush : ∀ e, .push e ∈ r.map LoopCall.toStack → e.resizes window = false := by
      intro e he
      obtain ⟨a, ha, hae⟩ := List.mem_map.mp he
      exact resizes_of_push (hr a ha) hae
    have hrest : Lifo ([] ++ resizeEvent window width height :: _) (r.map LoopCall.toStack) :=
      hl.2
    obtain ⟨hfirst, hdrained⟩ := hrest.first_returned resizes_resizeEvent (by simp) hpush
    exact ⟨hfirst, fun hnone => hdrained (List.mem_map.mpr ⟨_, hnone, rfl⟩)⟩

/-! ## A run -/

/-- `struct event_s` as the x86-64 ABI lays it out: the kind in 4 bytes, 4 bytes of padding,
the two sizes and the pointer to the window. -/
def encodeEvent (e : EventS (UsizeT 64) 64) : List Byte :=
  LittleEndian.toBytes 4 (if e.kind = .close then 0 else 1) ++ List.replicate 4 0 ++
    LittleEndian.toBytes 8 e.data.resize.newWidth.toNat ++
    LittleEndian.toBytes 8 e.data.resize.newHeight.toNat ++ LittleEndian.toBytes 8 e.window.toNat

/-- The `usize_t` at an offset. -/
def decodeUsize (bytes : List Byte) (offset : ℕ) : UsizeT 64 :=
  BitVec.ofNat 64 (LittleEndian.ofBytes ((bytes.drop offset).take 8))

def decodeEvent (bytes : List Byte) : EventS (UsizeT 64) 64 where
  kind := if LittleEndian.ofBytes (bytes.take 4) = 0 then .close else .resize
  data := ⟨⟨decodeUsize bytes 8, decodeUsize bytes 16⟩⟩
  window := decodeUsize bytes 24

theorem ofNat_ofBytes (x : UsizeT 64) :
    BitVec.ofNat 64 (LittleEndian.ofBytes (LittleEndian.toBytes 8 x.toNat)) = x := by
  rw [LittleEndian.ofBytes_toBytes_of_lt (by have := x.isLt; omega)]
  simp

theorem decodeEvent_encodeEvent (e : EventS (UsizeT 64) 64) : decodeEvent (encodeEvent e) = e := by
  obtain ⟨kind, ⟨⟨width, height⟩⟩, window⟩ := e
  have hkind : LittleEndian.ofBytes (LittleEndian.toBytes 4 0) = 0 ∧
      LittleEndian.ofBytes (LittleEndian.toBytes 4 1) = 1 := by decide
  cases kind <;>
    simp [decodeEvent, encodeEvent, decodeUsize, List.drop_append,
      List.drop_of_length_le, List.take_of_length_le, hkind, ofNat_ofBytes]

def eventLayout : Layout (UsizeT 64) 64 where
  size := 32
  encode := encodeEvent
  decode := decodeEvent
  length_encode e := by simp [encodeEvent]
  decode_encode := decodeEvent_encodeEvent

/-- mi_malloc of a 64-bit machine with zeroed memory. -/
def zeroMalloc : Malloc := ⟨2 ^ 63 - 1, fun _ => 0⟩

theorem eventBounds : ArrayBounds zeroMalloc.limit eventLayout.size := by
  constructor <;> decide

/-- Carries out a call, if it returns. -/
def eventExec (s : ArrayS 64) :
    LoopCall (UsizeT 64) 64 → Option (ArrayS 64 × LoopCall (UsizeT 64) 64)
  | .configure window width height =>
    match windowConfigure zeroMalloc eventLayout s window width height with
    | .ok t => some (t, .configure window width height)
    | .error _ => none
  | .close window =>
    match windowClose zeroMalloc eventLayout s window with
    | .ok t => some (t, .close window)
    | .error _ => none
  | .get _ =>
    match eventLoopGet eventLayout s with
    | .ok (t, result) => some (t, .get result)
    | .error _ => none

theorem eventExec_step (s : ArrayS 64) (o : LoopCall (UsizeT 64) 64) (t : ArrayS 64)
    (a : LoopCall (UsizeT 64) 64) (h : eventExec s o = some (t, a)) :
    (eventSystem zeroMalloc.limit eventLayout).step s a t := by
  cases o with
  | configure window width height =>
    simp only [eventExec] at h
    split at h
    · rename_i hp
      cases h
      exact .configure rfl hp
    · cases h
  | close window =>
    simp only [eventExec] at h
    split at h
    · rename_i hp
      cases h
      exact .close rfl hp
    · cases h
  | get result =>
    simp only [eventExec] at h
    split at h
    · rename_i hg
      cases h
      exact .get hg
    · cases h

theorem executed_events (ops : List (LoopCall (UsizeT 64) 64))
    (p : List (ArrayS 64 × LoopCall (UsizeT 64) 64) → ArrayS 64 → Bool)
    (h : ((execute eventExec (arrayInit eventLayout.size) ops).any fun out => p out.2 out.1) =
      true) :
    ∃ tr t, (eventSystem zeroMalloc.limit eventLayout).Trace tr t ∧ p tr t = true := by
  obtain ⟨tr, t, hr, hp⟩ := execute_any (p := p) eventExec_step h
  exact ⟨tr, t, ⟨_, rfl, hr⟩, hp⟩

/-- Five events, for which the array grows, of which the client sees the newest size first. -/
theorem events_newest_first_drained : ∃ tr t l r,
    (eventSystem zeroMalloc.limit eventLayout).Trace tr t ∧
    labels tr = l ++ .configure 1 300 200 :: r ∧ Lifo [] (stackCalls tr) ∧
    (returned (r.map LoopCall.toStack)).find? (EventS.resizes 1) =
      some (resizeEvent 1 300 200) := by
  obtain ⟨tr, t, htr, hp⟩ := executed_events
    [.configure 1 100 100, .close 2, .configure 2 50 50, .configure 1 300 200, .close 1,
      .get none, .get none, .get none, .get none, .get none, .get none]
    (fun tr _ => decide (labels tr = (labels tr).take 3 ++ .configure 1 300 200 ::
      (labels tr).drop 4) && decide (.get none ∈ (labels tr).drop 4) &&
      ((labels tr).drop 4).all fun c => !c.configures 1) (by decide +kernel)
  simp only [Bool.and_eq_true, decide_eq_true_eq, List.all_eq_true, Bool.not_eq_true'] at hp
  obtain ⟨⟨hl, hnone⟩, hr⟩ := hp
  obtain ⟨hlifo, _, hfirst⟩ := events_newest_first eventBounds htr
  exact ⟨tr, t, _, _, htr, hl, hlifo, (hfirst _ _ _ _ _ hl hr).2 hnone⟩

/-- Two configures and a drain: what is returned is no prefix of what was pushed, and the last
size the client sees is the older one. -/
theorem events_fail :
    (¬ ∀ tr t, (eventSystem zeroMalloc.limit eventLayout).Trace tr t →
      returned (stackCalls tr) <+: pushed (stackCalls tr)) ∧
    ¬ ∀ tr t, (eventSystem zeroMalloc.limit eventLayout).Trace tr t →
      ∀ l r window width height, labels tr = l ++ .configure window width height :: r →
        (∀ c ∈ r, c.configures window = false) → r.getLast? = some (.get none) →
        (returned (r.map LoopCall.toStack)).reverse.find? (EventS.resizes window) =
          some (resizeEvent window width height) := by
  obtain ⟨tr, t, htr, hp⟩ := executed_events
    [.configure 1 100 100, .configure 1 200 200, .get none, .get none, .get none]
    (fun tr _ => !(returned (stackCalls tr)).isPrefixOf (pushed (stackCalls tr)) &&
      decide (labels tr = (labels tr).take 1 ++ .configure 1 200 200 :: (labels tr).drop 2) &&
      (((labels tr).drop 2).all fun c => !c.configures 1) &&
      decide (((labels tr).drop 2).getLast? = some (.get none)) &&
      decide ((returned (((labels tr).drop 2).map LoopCall.toStack)).reverse.find?
        (EventS.resizes 1) = some (resizeEvent 1 100 100))) (by decide +kernel)
  simp only [Bool.and_eq_true, decide_eq_true_eq, List.all_eq_true, Bool.not_eq_true'] at hp
  obtain ⟨⟨⟨⟨hbefore, hl⟩, hr⟩, hlast⟩, hseen⟩ := hp
  constructor
  · intro hf
    have hbad := List.isPrefixOf_iff_prefix.mpr (hf tr t htr)
    exact Bool.false_ne_true (hbefore.symm.trans hbad)
  · intro hf
    have hbad := hseen.symm.trans (hf tr t htr _ _ _ _ _ hl hr hlast)
    exact absurd hbad (by decide +kernel)

end Spaze
