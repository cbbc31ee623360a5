import Mathlib.Data.List.Induction
import Spaze.Windowing

/-!
`event_loop_init`, and the globals it leaves to the calls that come after it.

What the compositor announces while `wl_display_roundtrip` runs, and what the calls outside
windowing.c return, are arguments of the model.
-/
namespace Spaze

variable {w : ℕ}

/-- The globals that `registry_global` binds. -/
inductive Global
  | compositor
  | wmBase
  | shm
  deriving DecidableEq

/-- The names of `wl_compositor_interface` and `wl_shm_interface`, which are not in the tree. -/
structure ProtocolNames where
  wlCompositor : String
  wlShm : String

/-- The name of the interface of a global. -/
def Global.interface (names : ProtocolNames) : Global → String
  | .compositor => names.wlCompositor
  | .wmBase => "xdg_wm_base"
  | .shm => names.wlShm

/-- `struct event_loop_s`. -/
structure EventLoopS (w : ℕ) where
  events : ArrayS w
  display : Option WlProxy
  compositor : Option WlProxy
  wmBase : Option WlProxy
  shm : Option WlProxy
  alive : Bool

def EventLoopS.global (loop : EventLoopS w) : Global → Option WlProxy
  | .compositor => loop.compositor
  | .wmBase => loop.wmBase
  | .shm => loop.shm

def EventLoopS.setGlobal (loop : EventLoopS w) (proxy : WlProxy) : Global → EventLoopS w
  | .compositor => { loop with compositor := some proxy }
  | .wmBase => { loop with wmBase := some proxy }
  | .shm => { loop with shm := some proxy }

/-- `enum event_loop_error_e`. -/
inductive EventLoopErrorE
  | ok
  | connectFailed
  | registryGetFailed
  deriving DecidableEq

/-- `WL_VERSION`. -/
def wlVersion : BitVec 32 := 1

/-- The arguments of one `registry_global`, and what `wl_registry_bind` returns in it. -/
structure Announcement where
  name : BitVec 32
  interface : String
  version : BitVec 32
  bound : Global → Option WlProxy

/-- A `wl_registry_bind` that returned an object. -/
structure Bind where
  name : BitVec 32
  interface : String
  version : BitVec 32
  result : WlProxy
  deriving DecidableEq

/-- The loop, and what has been bound so far. -/
abbrev Registry (w : ℕ) := EventLoopS w × List Bind

/-- The block of `registry_global` for one global. -/
def bindGlobal (names : ProtocolNames) (k : Global) (a : Announcement) (s : Registry w) :
    Except Stop (Registry w) :=
  if a.interface = k.interface names then
    match a.bound k with
    | none => .error .panic
    | some proxy =>
      .ok (s.1.setGlobal proxy k, s.2 ++ [⟨a.name, k.interface names, wlVersion, proxy⟩])
  else .ok s

/-- `registry_global`. -/
def registryGlobal (names : ProtocolNames) (s : Registry w) (a : Announcement) :
    Except Stop (Registry w) := do
  assert (decide (a.version ≥ wlVersion))
  let s ← bindGlobal names .compositor a s
  let s ← bindGlobal names .wmBase a s
  bindGlobal names .shm a s

/-- The answers to the calls of one `event_loop_init`. While `wl_display_roundtrip` runs, the
compositor announces its globals. -/
structure LoopAnswers where
  display : Option WlProxy
  registry : Option WlProxy
  announced : List Announcement
  roundtrip : ℤ

/-- `event_loop_init`, where `struct event_s` has this size, with the displays disconnected so
far. It does not look at what `wl_display_roundtrip` returns. -/
def eventLoopInit (names : ProtocolNames) (size : UsizeT w) (ans : LoopAnswers)
    (disconnected : List (Option WlProxy)) :
    Except Stop ((Registry w × List (Option WlProxy)) × EventLoopErrorE) := do
  let loop : EventLoopS w := ⟨arrayInit size, none, none, none, none, false⟩
  match ans.display with
  | none => return (((loop, []), disconnected), .connectFailed)
  | some display =>
    match ans.registry with
    | none => return (((loop, []), disconnected ++ [some display]), .registryGetFailed)
    | some _ =>
      let loop := { loop with display := some display, alive := true }
      let s ← ans.announced.foldlM (registryGlobal names) (loop, [])
      let _ := ans.roundtrip
      return ((s, disconnected), .ok)

/-- Every global is there, and was bound from an announcement of its own interface. -/
def Usable (names : ProtocolNames) (announced : List Announcement) (s : Registry w) : Prop :=
  ∀ k : Global, ∃ proxy, s.1.global k = some proxy ∧ ∃ a ∈ announced,
    a.interface = k.interface names ∧ ⟨a.name, k.interface names, wlVersion, proxy⟩ ∈ s.2

/-- Every global is announced. -/
def Announces (names : ProtocolNames) (announced : List Announcement) : Prop :=
  ∀ k : Global, ∃ a ∈ announced, a.interface = k.interface names

/-- The assertions of `registry_global` hold of the announcement. -/
def Binds (names : ProtocolNames) (a : Announcement) : Prop :=
  wlVersion ≤ a.version ∧ ∀ k : Global, a.interface = k.interface names → a.bound k ≠ none

/-- The answers with which `event_loop_init` comes to return `event_loop_error_ok`. -/
structure Succeeds (names : ProtocolNames) (ans : LoopAnswers) : Prop where
  display : ans.display ≠ none
  registry : ans.registry ≠ none
  binds : ∀ a ∈ ans.announced, Binds names a

variable {names : ProtocolNames} {s t : Registry w} {a : Announcement} {k : Global}
  {announced : List Announcement} {ans : LoopAnswers} {size : UsizeT w}
  {disconnected gone : List (Option WlProxy)}

/-! ## One announcement -/

theorem global_setGlobal (loop : EventLoopS w) (proxy : WlProxy) (j k : Global) :
    (loop.setGlobal proxy j).global k = if k = j then some proxy else loop.global k := by
  cases j <;> cases k <;> rfl

/-- What an announcement does to one global: binds it, if it is announced. -/
inductive Handled (names : ProtocolNames) (a : Announcement) (s t : Registry w) (k : Global) :
    Prop
  | bound (ha : a.interface = k.interface names) (proxy : WlProxy)
      (hset : t.1.global k = some proxy)
      (hbind : ⟨a.name, k.interface names, wlVersion, proxy⟩ ∈ t.2) : Handled names a s t k
  | other (ha : a.interface ≠ k.interface names) (hkeep : t.1.global k = s.1.global k) :
      Handled names a s t k

theorem bindGlobal_ok (h : bindGlobal names k a s = .ok t) :
    Handled names a s t k ∧ (∀ j ≠ k, t.1.global j = s.1.global j) ∧ s.2 ⊆ t.2 := by
  unfold bindGlobal at h
  split at h
  · rename_i ha
    split at h
    · cases h
    · rename_i proxy _
      cases h
      refine ⟨.bound ha proxy ?_ (by simp), fun j hj => ?_, by simp⟩
      · rw [global_setGlobal, if_pos rfl]
      · rw [global_setGlobal, if_neg hj]
  · rename_i ha
    cases h
    exact ⟨.other ha rfl, fun _ _ => rfl, List.Subset.refl _⟩

theorem bindGlobal_returns :
    (∃ t, bindGlobal names k a s = .ok t) ↔
      (a.interface = k.interface names → a.bound k ≠ none) := by
  unfold bindGlobal
  split
  · rename_i ha
    cases hb : a.bound k <;> simp [ha]
  · rename_i ha
    simp [ha]

theorem Handled.frame {u v : Registry w} (h : Handled names a u v k)
    (hs : u.1.global k = s.1.global k) (ht : t.1.global k = v.1.global k) (hsub : v.2 ⊆ t.2) :
    Handled names a s t k := by
  cases h with
  | bound ha proxy hset hbind => exact .bound ha proxy (ht.trans hset) (hsub hbind)
  | other ha hkeep => exact .other ha (ht.trans (hkeep.trans hs))

/-- An announcement that is handled binds the globals it announces and leaves the others. -/
theorem registryGlobal_ok (h : registryGlobal names s a = .ok t) :
    (∀ k, Handled names a s t k) ∧ s.2 ⊆ t.2 := by
  obtain ⟨_, _, h⟩ := bind_eq_ok.mp h
  obtain ⟨u, hu, h⟩ := bind_eq_ok.mp h
  obtain ⟨v, hv, ht⟩ := bind_eq_ok.mp h
  obtain ⟨hcompositor, hother, hsub⟩ := bindGlobal_ok hu
  obtain ⟨hwmBase, hother', hsub'⟩ := bindGlobal_ok hv
  obtain ⟨hshm, hother'', hsub''⟩ := bindGlobal_ok ht
  refine ⟨fun k => ?_, List.Subset.trans hsub (List.Subset.trans hsub' hsub'')⟩
  cases k with
  | compositor =>
    have hkeep := (hother'' .compositor (by decide)).trans (hother' .compositor (by decide))
    exact hcompositor.frame rfl hkeep (List.Subset.trans hsub' hsub'')
  | wmBase =>
    exact hwmBase.frame (hother .wmBase (by decide)) (hother'' .wmBase (by decide)) hsub''
  | shm =>
    have hkeep := (hother' .shm (by decide)).trans (hother .shm (by decide))
    exact hshm.frame hkeep rfl (List.Subset.refl _)

theorem registryGlobal_returns :
    (∃ t, registryGlobal names s a = .ok t) ↔ Binds names a := by
  constructor
  · rintro ⟨t, h⟩
    obtain ⟨_, hversion, h⟩ := bind_eq_ok.mp h
    obtain ⟨u, hu, h⟩ := bind_eq_ok.mp h
    obtain ⟨v, hv, ht⟩ := bind_eq_ok.mp h
    refine ⟨of_decide_eq_true (assert_eq_ok.mp hversion), fun k => ?_⟩
    cases k with
    | compositor => exact bindGlobal_returns.mp ⟨u, hu⟩
    | wmBase => exact bindGlobal_returns.mp ⟨v, hv⟩
    | shm => exact bindGlobal_returns.mp ⟨t, ht⟩
  · rintro ⟨hversion, hbound⟩
    have hassert : assert (decide (a.version ≥ wlVersion)) = .ok () :=
      assert_eq_ok.mpr (decide_eq_true hversion)
    obtain ⟨u, hu⟩ := bindGlobal_returns (s := s).mpr (hbound .compositor)
    obtain ⟨v, hv⟩ := bindGlobal_returns (s := u).mpr (hbound .wmBase)
    obtain ⟨t, ht⟩ := bindGlobal_returns (s := v).mpr (hbound .shm)
    exact ⟨t, bind_eq_ok.mpr ⟨(), hassert, bind_eq_ok.mpr ⟨u, hu, bind_eq_ok.mpr ⟨v, hv, ht⟩⟩⟩⟩

/-! ## The roundtrip -/

/-- So far a global is there exactly if it was announced, and then bound from that. -/
def Settled (names : ProtocolNames) (announced : List Announcement) (s : Registry w)
    (k : Global) : Prop :=
  (s.1.global k = none ∧ ∀ a ∈ announced, a.interface ≠ k.interface names) ∨
    ∃ proxy, s.1.global k = some proxy ∧ ∃ a ∈ announced,
      a.interface = k.interface names ∧ ⟨a.name, k.interface names, wlVersion, proxy⟩ ∈ s.2

theorem Settled.snoc (h : Settled names announced s k) (ha : Handled names a s t k)
    (hsub : s.2 ⊆ t.2) : Settled names (announced ++ [a]) t k := by
  cases ha with
  | bound ha proxy hset hbind => exact Or.inr ⟨proxy, hset, a, by simp, ha, hbind⟩
  | other ha hkeep =>
    rcases h with ⟨hnone, hall⟩ | ⟨proxy, hset, b, hb, hname, hbind⟩
    · refine Or.inl ⟨hkeep.trans hnone, fun b hb => ?_⟩
      rcases List.mem_append.mp hb with hb | hb
      · exact hall b hb
      · rw [List.mem_singleton.mp hb]
        exact ha
    · exact Or.inr ⟨proxy, hkeep.trans hset, b, List.mem_append_left _ hb, hname, hsub hbind⟩

/-- After announcements that were all handled every global is settled. -/
theorem settled_announced (hstart : ∀ k, s.1.global k = none)
    (h : announced.foldlM (registryGlobal names) s = .ok t) (k : Global) :
    Settled names announced t k := by
  induction announced using List.reverseRecOn generalizing t with
  | nil =>
    cases h
    exact Or.inl ⟨hstart k, by simp⟩
  | append_singleton announced a ih =>
    rw [List.foldlM_append] at h
    obtain ⟨u, hu, h⟩ := bind_eq_ok.mp h
    rw [List.foldlM_cons] at h
    obtain ⟨v, hv, h⟩ := bind_eq_ok.mp h
    cases h
    obtain ⟨hhandled, hsub⟩ := registryGlobal_ok hv
    exact (ih hu).snoc (hhandled k) hsub

theorem announced_returns : (∃ t, announced.foldlM (registryGlobal names) s = .ok t) ↔
    ∀ a ∈ announced, Binds names a := by
  induction announced generalizing s with
  | nil => exact iff_of_true ⟨s, rfl⟩ (by simp)
  | cons a announced ih =>
    rw [List.forall_mem_cons, ← registryGlobal_returns (s := s)]
    constructor
    · rintro ⟨t, h⟩
      rw [List.foldlM_cons] at h
      obtain ⟨u, hu, h⟩ := bind_eq_ok.mp h
      exact ⟨⟨u, hu⟩, ih.mp ⟨t, h⟩⟩
    · rintro ⟨⟨u, hu⟩, hrest⟩
      obtain ⟨t, h⟩ := ih (s := u).mpr hrest
      exact ⟨t, by rw [List.foldlM_cons]; exact bind_eq_ok.mpr ⟨u, hu, h⟩⟩

/-! ## The whole call -/

/-- How a call that returns has come to its result. -/
inductive LoopInit (names : ProtocolNames) (size : UsizeT w) (ans : LoopAnswers)
    (disconnected : List (Option WlProxy)) :
    (Registry w × List (Option WlProxy)) × EventLoopErrorE → Prop
  | connectFailed {s : Registry w} (hdisplay : ans.display = none) :
      LoopInit names size ans disconnected ((s, disconnected), .connectFailed)
  | registryGetFailed {s : Registry w} (hdisplay : ans.display ≠ none)
      (hregistry : ans.registry = none) :
      LoopInit names size ans disconnected
        ((s, disconnected ++ [ans.display]), .registryGetFailed)
  | ok {s : Registry w} {display : WlProxy} (hdisplay : ans.display = some display)
      (hregistry : ans.registry ≠ none)
      (hannounced : ans.announced.foldlM (registryGlobal names)
        (⟨arrayInit size, some display, none, none, none, true⟩, []) = .ok s) :
      LoopInit names size ans disconnected ((s, disconnected), .ok)

theorem eventLoopInit_cases {r : (Registry w × List (Option WlProxy)) × EventLoopErrorE}
    (h : eventLoopInit names size ans disconnected = .ok r) :
    LoopInit names size ans disconnected r := by
  unfold eventLoopInit at h
  cases hd : ans.display with
  | none =>
    rw [hd] at h
    cases h
    exact .connectFailed hd
  | some display =>
    cases hr : ans.registry with
    | none =>
      rw [hd, hr] at h
      cases h
      rw [← hd]
      exact .registryGetFailed (by simp [hd]) hr
    | some registry =>
      rw [hd, hr] at h
      obtain ⟨t, ht, h⟩ := bind_eq_ok.mp h
      cases h
      exact .ok hd (by simp [hr]) ht

/-- A call that returns `event_loop_error_ok` has every global settled. -/
theorem eventLoopInit_settled
    (h : eventLoopInit names size ans disconnected = .ok ((s, gone), .ok)) (k : Global) :
    Settled names ans.announced s k := by
  cases eventLoopInit_cases h with
  | ok _ _ hannounced => exact settled_announced (fun k => by cases k <;> rfl) hannounced k

theorem eventLoopInit_returns :
    (∃ s gone, eventLoopInit names size ans disconnected = .ok ((s, gone), .ok)) ↔
      Succeeds names ans := by
  constructor
  · rintro ⟨s, gone, h⟩
    cases eventLoopInit_cases h with
    | ok hdisplay hregistry hannounced =>
      exact ⟨by simp [hdisplay], hregistry, announced_returns.mp ⟨s, hannounced⟩⟩
  · intro hsucceeds
    obtain ⟨display, hd⟩ := Option.ne_none_iff_exists'.mp hsucceeds.display
    obtain ⟨registry, hr⟩ := Option.ne_none_iff_exists'.mp hsucceeds.registry
    obtain ⟨t, ht⟩ := announced_returns.mpr hsucceeds.binds
    refine ⟨t, disconnected, ?_⟩
    simp only [eventLoopInit, hd, hr]
    exact bind_eq_ok.mpr ⟨t, ht, rfl⟩

/-- A call that comes to return `event_loop_error_ok` leaves all three globals, each bound from
an announcement of its own interface, exactly when all three have been announced. -/
theorem loop_usable_iff (names : ProtocolNames) (size : UsizeT w) (ans : LoopAnswers)
    (disconnected : List (Option WlProxy)) :
    (∀ s gone, eventLoopInit names size ans disconnected = .ok ((s, gone), .ok) →
        Usable names ans.announced s) ↔
      (Succeeds names ans → Announces names ans.announced) := by
  constructor
  · intro husable hsucceeds k
    obtain ⟨s, gone, hs⟩ := eventLoopInit_returns.mpr hsucceeds
    obtain ⟨_, _, a, ha, hname, _⟩ := husable s gone hs k
    exact ⟨a, ha, hname⟩
  · intro hannounced s gone hs k
    obtain ⟨a, ha, hname⟩ := hannounced (eventLoopInit_returns.mp ⟨s, gone, hs⟩) k
    rcases eventLoopInit_settled hs k with ⟨_, hnone⟩ | hbound
    · exact absurd hname (hnone a ha)
    · exact hbound

/-- The compositor announces nothing, since the roundtrip fails, and the call succeeds. -/
theorem loop_usable_fails : ¬ ∀ (ans : LoopAnswers) (s : Registry 64)
    (gone : List (Option WlProxy)), (∀ a ∈ ans.announced, wlVersion ≤ a.version) →
    eventLoopInit ⟨"wl_compositor", "wl_shm"⟩ 32 ans [] = .ok ((s, gone), .ok) →
    Usable ⟨"wl_compositor", "wl_shm"⟩ ans.announced s := by
  intro hf
  obtain ⟨_, hset, _⟩ := hf ⟨some 1, some 2, [], -1⟩ _ _ (by simp) rfl .compositor
  cases hset

end Spaze
