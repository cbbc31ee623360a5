import Mathlib.Logic.Function.Basic
import Spaze.Lib.Runs
import Spaze.Windowing

/-! The order in which the objects of windows are destroyed. -/
namespace Spaze

open Runs

variable {ι : Type*} [DecidableEq ι]

/-- The object a request creates. -/
def WlRequest.created : WlRequest → Option WlProxy
  | .createSurface surface => some surface
  | .getXdgSurface xdgSurface _ => some xdgSurface
  | .getToplevel xdgToplevel _ => some xdgToplevel
  | _ => none

/-- The object a request destroys. -/
def WlRequest.destroyed : WlRequest → Option WlProxy
  | .destroySurface surface => surface
  | .destroyXdgSurface xdgSurface => xdgSurface
  | .destroyToplevel xdgToplevel => xdgToplevel
  | _ => none

def createdIn (requests : List WlRequest) : List WlProxy := requests.filterMap WlRequest.created

def destroyedIn (requests : List WlRequest) : List WlProxy :=
  requests.filterMap WlRequest.destroyed

/-- The xdg_surface made from a wl_surface, or the xdg_toplevel made from an xdg_surface. -/
def MadeFrom (requests : List WlRequest) (child parent : WlProxy) : Prop :=
  .getXdgSurface child parent ∈ requests ∨ .getToplevel child parent ∈ requests

/-- When an object is destroyed, the one made from it has been destroyed before. -/
def ChildrenFirst (requests : List WlRequest) : Prop :=
  ∀ l q r, requests = l ++ q :: r → ∀ parent, q.destroyed = some parent →
    ∀ child, MadeFrom l child parent → child ∈ destroyedIn l

/-- The windows, the requests sent so far, and the objects created for each window. -/
structure WindowsState (ι : Type*) where
  windows : ι → WindowS
  requests : List WlRequest
  made : ι → List WlProxy

/-- A call with the answers it got and what it returned. -/
inductive WindowCall (ι : Type*)
  | init (window : ι) (ans : WindowAnswers) (result : WindowErrorE)
  | deinit (window : ι)

/-- The objects that the create calls made. -/
def WindowAnswers.created (ans : WindowAnswers) : List WlProxy :=
  match ans.surface, ans.xdgSurface with
  | none, _ => []
  | some surface, none => [surface]
  | some surface, some xdgSurface => surface :: xdgSurface :: ans.xdgToplevel.toList

/-- One call. An object that is made is named by a proxy no object had before. -/
inductive WindowStep : WindowsState ι → WindowCall ι → WindowsState ι → Prop
  | init {s : WindowsState ι} (window : ι) {ans : WindowAnswers} {requests : List WlRequest}
      {win : WindowS} {result : WindowErrorE} (hnodup : ans.created.Nodup)
      (hfresh : ∀ o ∈ ans.created, o ∉ createdIn s.requests)
      (h : windowInit ans s.requests = (requests, win, result)) :
      WindowStep s (.init window ans result)
        { windows := Function.update s.windows window win
          requests := requests
          made := Function.update s.made window (s.made window ++ ans.created) }
  | deinit {s : WindowsState ι} (window : ι) :
      WindowStep s (.deinit window)
        { s with
          windows := Function.update s.windows window (windowDeinit (s.windows window) s.requests).2
          requests := (windowDeinit (s.windows window) s.requests).1 }

/-- Every window starts zeroed. -/
def windowSystem (ι : Type*) [DecidableEq ι] : System (WindowsState ι) (WindowCall ι) where
  initial s := (∀ k, s.windows k = .zero) ∧ s.requests = [] ∧ ∀ k, s.made k = []
  step := WindowStep

/-- A `window_init` of the window that fails, or a `window_deinit` of it. -/
def WindowCall.Ends (window : ι) : WindowCall ι → Prop
  | .init k _ result => k = window ∧ result ≠ .ok
  | .deinit k => k = window

/-- Every object created for the window has been destroyed. -/
def NoneAlive (s : WindowsState ι) (window : ι) : Prop :=
  ∀ o ∈ s.made window, o ∈ destroyedIn s.requests

/-- A call ends only a window that is not alive. -/
def EndsDead (s : WindowsState ι) (a : WindowCall ι) : Prop :=
  ∀ window, a.Ends window → (s.windows window).alive = false

/-! ## Requests -/

variable {rs rs' : List WlRequest} {q : WlRequest} {o child parent : WlProxy}

@[simp] theorem createdIn_nil : createdIn [] = [] := rfl

@[simp] theorem createdIn_cons : createdIn (q :: rs) = q.created.toList ++ createdIn rs := by
  cases hq : q.created <;> simp [createdIn, hq]

@[simp] theorem createdIn_append (rs rs' : List WlRequest) :
    createdIn (rs ++ rs') = createdIn rs ++ createdIn rs' :=
  List.filterMap_append

@[simp] theorem destroyedIn_nil : destroyedIn [] = [] := rfl

@[simp] theorem destroyedIn_cons :
    destroyedIn (q :: rs) = q.destroyed.toList ++ destroyedIn rs := by
  cases hq : q.destroyed <;> simp [destroyedIn, hq]

@[simp] theorem destroyedIn_append (rs rs' : List WlRequest) :
    destroyedIn (rs ++ rs') = destroyedIn rs ++ destroyedIn rs' :=
  List.filterMap_append

theorem madeFrom_append : MadeFrom (rs ++ rs') child parent ↔
    MadeFrom rs child parent ∨ MadeFrom rs' child parent := by
  simp only [MadeFrom, List.mem_append]
  tauto

theorem madeFrom_cons : MadeFrom (q :: rs) child parent ↔
    (q = .getXdgSurface child parent ∨ q = .getToplevel child parent) ∨
      MadeFrom rs child parent := by
  simp only [MadeFrom, List.mem_cons, eq_comm (a := q)]
  tauto

theorem not_madeFrom_nil : ¬ MadeFrom [] child parent := by
  simp [MadeFrom]

theorem madeFrom_snoc : MadeFrom (rs ++ [q]) child parent ↔
    MadeFrom rs child parent ∨ q = .getXdgSurface child parent ∨ q = .getToplevel child parent := by
  simp [madeFrom_append, madeFrom_cons, not_madeFrom_nil]

theorem ChildrenFirst.snoc (h : ChildrenFirst rs)
    (hq : ∀ parent, q.destroyed = some parent →
      ∀ child, MadeFrom rs child parent → child ∈ destroyedIn rs) :
    ChildrenFirst (rs ++ [q]) := by
  intro l q' r hrs
  rcases List.eq_nil_or_concat r with rfl | ⟨r, z, rfl⟩
  · obtain ⟨rfl, hq'⟩ := List.append_inj' hrs rfl
    obtain rfl := List.singleton_injective hq'
    exact hq
  · have hrs' : rs ++ [q] = (l ++ q' :: r) ++ [z] := by simpa using hrs
    exact h l q' r (List.append_inj' hrs' rfl).1

/-- The requests are those of a client that keeps the order, and every object in them was
created by one of them. -/
structure Orderly (rs : List WlRequest) : Prop where
  once : (destroyedIn rs).Nodup
  order : ChildrenFirst rs
  sub : ∀ o ∈ destroyedIn rs, o ∈ createdIn rs
  made : ∀ child parent, MadeFrom rs child parent → parent ∈ createdIn rs

theorem Orderly.snoc_other (h : Orderly rs) (hd : q.destroyed = none)
    (hm : ∀ child parent, q = .getXdgSurface child parent ∨ q = .getToplevel child parent →
      parent ∈ createdIn rs) : Orderly (rs ++ [q]) := by
  constructor
  · simpa [hd] using h.once
  · exact h.order.snoc fun parent hp => by simp [hd] at hp
  · intro o ho
    have hrs : o ∈ destroyedIn rs := by simpa [hd] using ho
    simp [h.sub o hrs]
  · intro child parent hc
    rw [createdIn_append, List.mem_append]
    rcases madeFrom_snoc.mp hc with hc | hc
    · exact Or.inl (h.made child parent hc)
    · exact Or.inl (hm child parent hc)

theorem Orderly.snoc_destroy (h : Orderly rs) (hd : q.destroyed = some o) (ho : o ∈ createdIn rs)
    (hlive : o ∉ destroyedIn rs) (hc : ∀ child, MadeFrom rs child o → child ∈ destroyedIn rs) :
    Orderly (rs ++ [q]) := by
  have hnot : ∀ child parent,
      ¬ (q = .getXdgSurface child parent ∨ q = .getToplevel child parent) := by
    rintro child parent (rfl | rfl) <;> cases hd
  constructor
  · simpa [hd, List.nodup_append, h.once] using fun a ha (he : a = o) => hlive (he ▸ ha)
  · refine h.order.snoc fun parent hp => ?_
    obtain rfl : o = parent := Option.some.inj (hd.symm.trans hp)
    exact hc
  · intro x hx
    rw [createdIn_append, List.mem_append]
    simp only [destroyedIn_append, destroyedIn_cons, hd, List.mem_append, Option.toList_some,
      List.mem_singleton, destroyedIn_nil, List.append_nil] at hx
    rcases hx with hx | rfl
    · exact Or.inl (h.sub x hx)
    · exact Or.inl ho
  · intro child parent hm
    rw [createdIn_append, List.mem_append]
    rcases madeFrom_snoc.mp hm with hm | hm
    · exact Or.inl (h.made child parent hm)
    · exact absurd hm (hnot child parent)

/-! ## `window_init` -/

variable {ans : WindowAnswers} {win : WindowS} {result : WindowErrorE}

/-- What a `window_init` leaves: on failure everything it made is destroyed again, and on
success nothing is destroyed and the window is alive with its objects. -/
structure Initialised (ans : WindowAnswers) (rs rs' : List WlRequest) (win : WindowS)
    (result : WindowErrorE) : Prop where
  orderly : Orderly rs'
  sent : ∃ ext, rs' = rs ++ ext
  created : createdIn rs' = createdIn rs ++ ans.created
  failed : result ≠ .ok → win.alive = false ∧
    destroyedIn rs' = destroyedIn rs ++ ans.created.reverse
  succeeded : result = .ok → win.alive = true ∧ destroyedIn rs' = destroyedIn rs ∧
    ∃ surface ∈ ans.created, ∃ xdgSurface ∈ ans.created, win.surface = some surface ∧
      MadeFrom rs' xdgSurface surface

/-- A fresh object is not destroyed, and nothing was made from it. -/
theorem Orderly.fresh (h : Orderly rs) (ho : o ∉ createdIn rs) :
    o ∉ destroyedIn rs ∧ ∀ child, ¬ MadeFrom rs child o :=
  ⟨fun hd => ho (h.sub o hd), fun child hm => ho (h.made child o hm)⟩

variable {surface xdgSurface xdgToplevel : WlProxy}

theorem Orderly.getXdgSurface (h : Orderly rs) (hs : surface ∈ createdIn rs) :
    Orderly (rs ++ [.getXdgSurface xdgSurface surface]) := by
  refine h.snoc_other rfl ?_
  rintro child parent (hq | hq) <;> cases hq
  exact hs

theorem Orderly.getToplevel (h : Orderly rs) (hx : xdgSurface ∈ createdIn rs) :
    Orderly (rs ++ [.getToplevel xdgToplevel xdgSurface]) := by
  refine h.snoc_other rfl ?_
  rintro child parent (hq | hq) <;> cases hq
  exact hx

/-- The requests of a `window_init` that gets no xdg_surface. -/
theorem Orderly.withoutXdgSurface (h : Orderly rs) (hs : surface ∉ createdIn rs) :
    Orderly (rs ++ [.createSurface surface] ++ [.destroySurface surface]) := by
  obtain ⟨hlive, hnone⟩ := h.fresh hs
  have hcreate : Orderly (rs ++ [.createSurface surface]) := h.snoc_other rfl (by simp)
  refine hcreate.snoc_destroy (o := surface) rfl ?_ ?_ ?_
  · simp [WlRequest.created]
  · simpa [WlRequest.destroyed] using hlive
  · intro child hm
    have hm : MadeFrom rs child surface := by simpa [madeFrom_snoc] using hm
    exact absurd hm (hnone child)

/-- The requests of every `window_init` that gets an xdg_surface start with these. -/
theorem Orderly.withXdgSurface (h : Orderly rs) :
    Orderly (rs ++ [.createSurface surface] ++ [.getXdgSurface xdgSurface surface]) :=
  (h.snoc_other rfl (by simp)).getXdgSurface (by simp [WlRequest.created])

/-- The requests of a `window_init` that gets no xdg_toplevel: the xdg_surface goes before the
wl_surface it was made from. -/
theorem Orderly.withoutToplevel (h : Orderly rs) (hs : surface ∉ createdIn rs)
    (hx : xdgSurface ∉ createdIn rs) (hne : xdgSurface ≠ surface) :
    Orderly (rs ++ [.createSurface surface] ++ [.getXdgSurface xdgSurface surface] ++
      [.destroyXdgSurface xdgSurface] ++ [.destroySurface surface]) := by
  obtain ⟨hlive, hnone⟩ := h.fresh hs
  obtain ⟨hlive', hnone'⟩ := h.fresh hx
  have hfirst : Orderly (rs ++ [.createSurface surface] ++ [.getXdgSurface xdgSurface surface] ++
      [.destroyXdgSurface xdgSurface]) := by
    refine h.withXdgSurface.snoc_destroy (o := xdgSurface) rfl ?_ ?_ ?_
    · simp [WlRequest.created]
    · simpa [WlRequest.destroyed] using hlive'
    · intro child hm
      have hm : MadeFrom rs child xdgSurface := by
        simpa [madeFrom_append, madeFrom_cons, not_madeFrom_nil, Ne.symm hne] using hm
      exact absurd hm (hnone' child)
  refine hfirst.snoc_destroy (o := surface) rfl ?_ ?_ ?_
  · simp [WlRequest.created]
  · simpa [WlRequest.destroyed, Ne.symm hne] using hlive
  · intro child hm
    have hm : MadeFrom rs child surface ∨ xdgSurface = child := by
      simpa [madeFrom_append, madeFrom_cons, not_madeFrom_nil] using hm
    rcases hm with hm | rfl
    · exact absurd hm (hnone child)
    · simp [WlRequest.destroyed]

/-- The requests of a `window_init` that succeeds. -/
theorem Orderly.withToplevel (h : Orderly rs) :
    Orderly (rs ++ [.createSurface surface] ++ [.getXdgSurface xdgSurface surface] ++
      [.getToplevel xdgToplevel xdgSurface] ++ [.commit surface]) :=
  (h.withXdgSurface.getToplevel (by simp [WlRequest.created])).snoc_other rfl (by simp)

theorem windowInit_initialised (h : Orderly rs) (hnodup : ans.created.Nodup)
    (hfresh : ∀ o ∈ ans.created, o ∉ createdIn rs)
    (hi : windowInit ans rs = (rs', win, result)) : Initialised ans rs rs' win result := by
  obtain ⟨_ | surface, xdgSurface, xdgToplevel⟩ := ans
  · cases hi
    exact ⟨h, ⟨[], by simp⟩, by simp [WindowAnswers.created],
      by simp [WindowS.zero, WindowAnswers.created], nofun⟩
  · cases xdgSurface with
    | none =>
      cases hi
      refine ⟨h.withoutXdgSurface (hfresh surface ?_), ⟨_, List.append_assoc ..⟩, ?_, ?_, nofun⟩
      · simp [WindowAnswers.created]
      · simp [WlRequest.created, WindowAnswers.created]
      · simp [WlRequest.destroyed, WindowAnswers.created, WindowS.zero]
    | some xdgSurface =>
      cases xdgToplevel with
      | none =>
        cases hi
        have hne : xdgSurface ≠ surface := by
          rintro rfl
          simp [WindowAnswers.created] at hnodup
        have horderly := h.withoutToplevel (hfresh surface (by simp [WindowAnswers.created]))
          (hfresh xdgSurface (by simp [WindowAnswers.created])) hne
        refine ⟨by simpa using horderly, ⟨[.createSurface surface,
          .getXdgSurface xdgSurface surface, .destroyXdgSurface xdgSurface,
          .destroySurface surface], by simp⟩, ?_, ?_, nofun⟩
        · simp [WlRequest.created, WindowAnswers.created]
        · simp [WlRequest.destroyed, WindowAnswers.created, WindowS.zero]
      | some xdgToplevel =>
        cases hi
        refine ⟨by simpa using h.withToplevel, ⟨[.createSurface surface,
          .getXdgSurface xdgSurface surface, .getToplevel xdgToplevel xdgSurface,
          .commit surface], by simp⟩, ?_, by simp, fun _ => ⟨rfl, ?_, ?_⟩⟩
        · simp [WlRequest.created, WindowAnswers.created]
        · simp [WlRequest.destroyed]
        · exact ⟨surface, by simp [WindowAnswers.created], xdgSurface,
            by simp [WindowAnswers.created], rfl, by simp [MadeFrom]⟩

/-! ## Runs -/

variable {s t u : WindowsState ι} {a : WindowCall ι} {window : ι}

theorem MadeFrom.created (h : MadeFrom rs child parent) : child ∈ createdIn rs := by
  rcases h with h | h
  · exact List.mem_filterMap.mpr ⟨_, h, rfl⟩
  · exact List.mem_filterMap.mpr ⟨_, h, rfl⟩

theorem ChildrenFirst.of_append (h : ChildrenFirst (rs ++ rs')) : ChildrenFirst rs := by
  intro l q r hrs
  exact h l q (r ++ rs') (by simp [hrs])

/-- The objects of windows that are not alive are destroyed, and each window that is alive
has a wl_surface with an xdg_surface, both not destroyed. -/
structure Tended (s : WindowsState ι) : Prop where
  orderly : Orderly s.requests
  made : ∀ k, ∀ o ∈ s.made k, o ∈ createdIn s.requests
  dead : ∀ k, (s.windows k).alive = false → NoneAlive s k
  held : ∀ k, (s.windows k).alive = true → ∃ surface ∈ s.made k, ∃ xdgSurface,
    (s.windows k).surface = some surface ∧ MadeFrom s.requests xdgSurface surface ∧
    surface ∉ destroyedIn s.requests ∧ xdgSurface ∉ destroyedIn s.requests

theorem tended_initial (h : (windowSystem ι).initial s) : Tended s := by
  obtain ⟨hz, hr, hm⟩ := h
  constructor
  · rw [hr]
    refine ⟨by simp, fun l q r hl => ?_, by simp, fun _ _ hm => absurd hm not_madeFrom_nil⟩
    simp at hl
  · simp [hm]
  · simp [NoneAlive, hm]
  · simp [hz, WindowS.zero]

/-- Only objects made by the call itself are destroyed by it. -/
theorem Initialised.keeps (h : Initialised ans rs rs' win result)
    (hfresh : ∀ o ∈ ans.created, o ∉ createdIn rs) (ho : o ∈ createdIn rs)
    (hlive : o ∉ destroyedIn rs) : o ∉ destroyedIn rs' := by
  by_cases hr : result = .ok
  · rw [(h.succeeded hr).2.1]
    exact hlive
  · rw [(h.failed hr).2, List.mem_append, List.mem_reverse, not_or]
    exact ⟨hlive, fun hc => hfresh o hc ho⟩

theorem Initialised.destroyed (h : Initialised ans rs rs' win result) (ho : o ∈ destroyedIn rs) :
    o ∈ destroyedIn rs' := by
  obtain ⟨ext, hsent⟩ := h.sent
  simp [hsent, ho]

/-- The window is alive after a success only, and then has a wl_surface with an xdg_surface. -/
theorem Initialised.holds (h : Initialised ans rs rs' win result) (hrs : Orderly rs)
    (hfresh : ∀ o ∈ ans.created, o ∉ createdIn rs) (halive : win.alive = true) :
    ∃ surface ∈ ans.created, ∃ xdgSurface, win.surface = some surface ∧
      MadeFrom rs' xdgSurface surface ∧ surface ∉ destroyedIn rs' ∧
      xdgSurface ∉ destroyedIn rs' := by
  have hr : result = .ok := by
    by_contra hr
    simp [(h.failed hr).1] at halive
  obtain ⟨_, hd, surface, hs, xdgSurface, hx, hwin, hmade⟩ := h.succeeded hr
  rw [hd]
  exact ⟨surface, hs, xdgSurface, hwin, hmade, (hrs.fresh (hfresh surface hs)).1,
    (hrs.fresh (hfresh xdgSurface hx)).1⟩

/-- What a failing call made is destroyed. -/
theorem Initialised.noneAlive (h : Initialised ans rs rs' win result) (hr : result ≠ .ok)
    (ho : o ∈ ans.created) : o ∈ destroyedIn rs' := by
  rw [(h.failed hr).2]
  exact List.mem_append_right _ (List.mem_reverse.mpr ho)

theorem Tended.init (h : Tended s) (hnodup : ans.created.Nodup)
    (hfresh : ∀ o ∈ ans.created, o ∉ createdIn s.requests)
    (hi : windowInit ans s.requests = (rs', win, result))
    (hdead : result ≠ .ok → (s.windows window).alive = false) :
    Tended ⟨Function.update s.windows window win, rs',
      Function.update s.made window (s.made window ++ ans.created)⟩ := by
  have hinit := windowInit_initialised h.orderly hnodup hfresh hi
  refine ⟨hinit.orderly, fun k o ho => ?_, fun k halive o ho => ?_, fun k halive => ?_⟩
  · dsimp only at ho ⊢
    rw [hinit.created, List.mem_append]
    by_cases hk : k = window
    · subst k
      rw [Function.update_self, List.mem_append] at ho
      exact ho.imp (h.made window o) id
    · rw [Function.update_of_ne hk] at ho
      exact Or.inl (h.made k o ho)
  · dsimp only at halive ho ⊢
    by_cases hk : k = window
    · subst k
      rw [Function.update_self] at halive
      rw [Function.update_self, List.mem_append] at ho
      have hr : result ≠ .ok := fun hr => by simp [(hinit.succeeded hr).1] at halive
      rcases ho with ho | ho
      · exact hinit.destroyed (h.dead window (hdead hr) o ho)
      · exact hinit.noneAlive hr ho
    · rw [Function.update_of_ne hk] at halive ho
      exact hinit.destroyed (h.dead k halive o ho)
  · dsimp only at halive ⊢
    by_cases hk : k = window
    · subst k
      rw [Function.update_self] at halive ⊢
      rw [Function.update_self]
      obtain ⟨surface, hs, hholds⟩ := hinit.holds h.orderly hfresh halive
      exact ⟨surface, List.mem_append_right _ hs, hholds⟩
    · rw [Function.update_of_ne hk] at halive ⊢
      rw [Function.update_of_ne hk]
      obtain ⟨surface, hs, xdgSurface, hwin, hmade, hlive, hlive'⟩ := h.held k halive
      obtain ⟨ext, hsent⟩ := hinit.sent
      have hmade' : MadeFrom rs' xdgSurface surface := hsent ▸ madeFrom_append.mpr (Or.inl hmade)
      exact ⟨surface, hs, xdgSurface, hwin, hmade', hinit.keeps hfresh (h.made k _ hs) hlive,
        hinit.keeps hfresh hmade.created hlive'⟩

theorem tended_step (h : Tended s) (hends : EndsDead s a) (hs : (windowSystem ι).step s a t) :
    Tended t := by
  cases hs with
  | init window hnodup hfresh hi =>
    exact h.init hnodup hfresh hi fun hr => hends window ⟨rfl, hr⟩
  | deinit window =>
    have hdead := hends window rfl
    simpa [windowDeinit, hdead] using h

/-- The window a call ends is not alive after it. -/
theorem ended_dead (hs : (windowSystem ι).step s a u) (hk : a.Ends window) :
    (u.windows window).alive = false := by
  cases hs with
  | @init k ans rs' win result _ _ hi =>
    obtain ⟨rfl, hr⟩ := hk
    obtain ⟨surface, xdgSurface, xdgToplevel⟩ := ans
    simp only [Function.update_self]
    cases surface <;> cases xdgSurface <;> cases xdgToplevel <;> cases hi <;>
      first | rfl | exact absurd rfl hr
  | deinit k =>
    obtain rfl : k = window := hk
    simp only [Function.update_self, windowDeinit]
    split
    · rfl
    · rename_i halive
      exact Bool.eq_false_iff.mpr halive

/-- A `window_deinit` of a window that is alive destroys its wl_surface first; a failing
`window_init` of such a window leaves the objects it had. -/
theorem unruly_step (h : Tended s) (hends : ¬ EndsDead s a) (hs : (windowSystem ι).step s a u) :
    ¬ ChildrenFirst u.requests ∨ ∃ k, a.Ends k ∧ ¬ NoneAlive u k := by
  simp only [EndsDead, not_forall, Bool.not_eq_false] at hends
  obtain ⟨k, hk, halive⟩ := hends
  obtain ⟨surface, hmade, xdgSurface, hsurface, hfrom, hlive, hlive'⟩ := h.held k halive
  cases hs with
  | @init window ans rs' win result hnodup hfresh hi =>
    obtain ⟨rfl, hr⟩ := hk
    have hinit := windowInit_initialised h.orderly hnodup hfresh hi
    refine Or.inr ⟨window, ⟨rfl, hr⟩, fun hnone => ?_⟩
    have hd : surface ∈ destroyedIn rs' := hnone surface (by simp [hmade])
    rw [(hinit.failed hr).2, List.mem_append, List.mem_reverse] at hd
    exact hd.elim hlive fun hc => hfresh surface hc (h.made window surface hmade)
  | deinit window =>
    obtain rfl : window = k := hk
    refine Or.inl fun hfirst => hlive' ?_
    refine hfirst s.requests (.destroySurface (some surface))
      [.destroyXdgSurface (s.windows window).xdgSurface,
        .destroyToplevel (s.windows window).xdgToplevel] ?_ surface rfl xdgSurface hfrom
    simp [windowDeinit, halive, hsurface]

/-- Requests are only appended. -/
theorem sent_step (hs : (windowSystem ι).step s a t) : ∃ ext, t.requests = s.requests ++ ext := by
  cases hs with
  | @init window ans rs' win result _ _ hi =>
    obtain ⟨surface, xdgSurface, xdgToplevel⟩ := ans
    cases surface <;> cases xdgSurface <;> cases xdgToplevel <;> cases hi <;> simp
  | deinit window =>
    dsimp only
    unfold windowDeinit
    split
    · exact ⟨_, rfl⟩
    · exact ⟨[], by simp⟩

theorem sent_run {tr : List (WindowsState ι × WindowCall ι)} (h : (windowSystem ι).Run s tr t) :
    ∃ ext, t.requests = s.requests ++ ext := by
  refine h.invariant (I := fun u => ∃ ext, u.requests = s.requests ++ ext) ?_ ⟨[], by simp⟩
  rintro v a u ⟨ext, hv⟩ hs
  obtain ⟨ext', hu⟩ := sent_step hs
  exact ⟨ext ++ ext', by simp [hu, hv]⟩

/-- Every object is destroyed at most once and after the one made from it, and no object of a
window outlives the call that ends the window, exactly when no call ends a window that is
alive. -/
theorem objects_orderly_iff {tr : List (WindowsState ι × WindowCall ι)}
    (h : (windowSystem ι).Trace tr t) :
    ((destroyedIn t.requests).Nodup ∧ ChildrenFirst t.requests ∧
      ∀ x ∈ tr, ∀ u, (windowSystem ι).step x.1 x.2 u → ∀ k, x.2.Ends k → NoneAlive u k) ↔
    ∀ x ∈ tr, EndsDead x.1 x.2 := by
  obtain ⟨s, hi, hr⟩ := h
  constructor
  · rintro ⟨_, hfirst, hnone⟩
    by_contra hends
    obtain ⟨l, x, r, rfl, hl, hx⟩ := exists_first_failure hends
    obtain ⟨v, hls, hs, hrest⟩ := hr.split
    have htended := hls.invariant_of hl (fun _ _ _ => tended_step) (tended_initial hi)
    rcases unruly_step htended hx hs with hbad | ⟨k, hk, hbad⟩
    · obtain ⟨ext, hext⟩ := sent_run hrest
      rw [hext] at hfirst
      exact hbad hfirst.of_append
    · exact hbad (hnone x (by simp) v hs k hk)
  · intro hends
    have htended := hr.invariant_of hends (fun _ _ _ => tended_step) (tended_initial hi)
    refine ⟨htended.orderly.once, htended.orderly.order, fun x hx u hs k hk => ?_⟩
    obtain ⟨hx', _⟩ := hr.invariant_mem hends (fun _ _ _ => tended_step) (tended_initial hi) hx
    exact (tended_step hx' (hends x hx) hs).dead k (ended_dead hs hk)

/-! ## Two runs -/

/-- Two windows, zeroed. -/
def zeroedWindows : WindowsState Bool := ⟨fun _ => .zero, [], fun _ => []⟩

theorem zeroedWindows_initial : (windowSystem Bool).initial zeroedWindows :=
  ⟨fun _ => rfl, rfl, fun _ => rfl⟩

/-- Carries out a call, if the objects it makes are new. -/
def windowExec (s : WindowsState Bool) :
    WindowCall Bool → Option (WindowsState Bool × WindowCall Bool)
  | .init k ans _ =>
    if ans.created.Nodup ∧ ∀ o ∈ ans.created, o ∉ createdIn s.requests then
      let (requests, win, result) := windowInit ans s.requests
      some (⟨Function.update s.windows k win, requests,
        Function.update s.made k (s.made k ++ ans.created)⟩, .init k ans result)
    else none
  | .deinit k =>
    some (⟨Function.update s.windows k (windowDeinit (s.windows k) s.requests).2,
      (windowDeinit (s.windows k) s.requests).1, s.made⟩, .deinit k)

theorem windowExec_step (s : WindowsState Bool) (o : WindowCall Bool) (t : WindowsState Bool)
    (a : WindowCall Bool) (h : windowExec s o = some (t, a)) : (windowSystem Bool).step s a t := by
  cases o with
  | init k ans result =>
    simp only [windowExec] at h
    split at h
    · rename_i hnew
      cases h
      exact .init k hnew.1 hnew.2 rfl
    · cases h
  | deinit k =>
    cases h
    exact .deinit k

theorem executed_windows (ops : List (WindowCall Bool))
    (p : List (WindowsState Bool × WindowCall Bool) → WindowsState Bool → Bool)
    (h : ((execute windowExec zeroedWindows ops).any fun out => p out.2 out.1) = true) :
    ∃ tr t, (windowSystem Bool).Trace tr t ∧ p tr t = true := by
  obtain ⟨tr, t, hr, hp⟩ := execute_any (p := p) windowExec_step h
  exact ⟨tr, t, ⟨_, zeroedWindows_initial, hr⟩, hp⟩

instance (a : WindowCall ι) (window : ι) : Decidable (a.Ends window) :=
  match a with
  | .init k _ result => inferInstanceAs (Decidable (k = window ∧ result ≠ .ok))
  | .deinit k => inferInstanceAs (Decidable (k = window))

instance (s : WindowsState Bool) (a : WindowCall Bool) : Decidable (EndsDead s a) :=
  decidable_of_iff ((a.Ends false → (s.windows false).alive = false) ∧
    (a.Ends true → (s.windows true).alive = false)) (by simp [EndsDead])

/-- One window is made and stays; the other fails at its xdg_toplevel and is deinitialised. -/
theorem objects_orderly_failed : ∃ tr t, (windowSystem Bool).Trace tr t ∧
    (destroyedIn t.requests).length = 2 ∧ (destroyedIn t.requests).Nodup ∧
    ChildrenFirst t.requests := by
  obtain ⟨tr, t, htr, hp⟩ := executed_windows
    [.init false ⟨some 1, some 2, some 3⟩ .ok, .init true ⟨some 4, some 5, none⟩ .ok, .deinit true]
    (fun tr t => decide ((destroyedIn t.requests).length = 2) &&
      tr.all fun x => decide (EndsDead x.1 x.2)) (by decide)
  simp only [Bool.and_eq_true, decide_eq_true_eq, List.all_eq_true] at hp
  obtain ⟨honce, hfirst, _⟩ := (objects_orderly_iff htr).mpr hp.2
  exact ⟨tr, t, htr, hp.1, honce, hfirst⟩

/-- A window is made and deinitialised: its wl_surface goes before its xdg_surface. -/
theorem objects_orderly_fails : ¬ ∀ tr (t : WindowsState Bool), (windowSystem Bool).Trace tr t →
    ChildrenFirst t.requests := by
  intro hf
  obtain ⟨tr, t, htr, hp⟩ := executed_windows
    [.init false ⟨some 1, some 2, some 3⟩ .ok, .deinit false]
    (fun _ t => decide (t.requests = [.createSurface 1, .getXdgSurface 2 1, .getToplevel 3 2,
      .commit 1, .destroySurface (some 1), .destroyXdgSurface (some 2),
      .destroyToplevel (some 3)])) (by decide)
  rw [decide_eq_true_eq] at hp
  have hfirst := hf tr t htr
  rw [hp] at hfirst
  have hbad := hfirst [.createSurface 1, .getXdgSurface 2 1, .getToplevel 3 2, .commit 1]
    (.destroySurface (some 1)) _ rfl 1 rfl 2 (Or.inl (by simp))
  exact absurd hbad (by decide)

end Spaze
