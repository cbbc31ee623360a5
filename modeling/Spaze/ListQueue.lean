import Spaze.Lib.Runs
import Spaze.ListRep

/-! Lists drawing on one set of nodes, used only through `listPush` and `listPopFront`. -/
namespace Spaze

open Runs

variable {α κ : Type*} [DecidableEq α]

/-- The memory and the lists, with the nodes pushed to each list and not yet popped from it,
oldest first, as history. -/
structure QueueState (κ α : Type*) where
  links : Links α
  lists : κ → ListS α
  queued : κ → List α

/-- A call and what it returned. -/
inductive QueueCall (κ α : Type*)
  | push (k : κ) (node : α)
  | popFront (k : κ) (result : Option α)

def QueueState.popResult (s : QueueState κ α) (k : κ) : Option α :=
  (listPopFront s.links (s.lists k)).2

/-- A pop returns the oldest node still queued, and NULL when none is. -/
def FifoCall (s : QueueState κ α) : QueueCall κ α → Prop
  | .push _ _ => True
  | .popFront k result => result = (s.queued k).head?

/-- A node pushed into an empty list has NULL in both its words. -/
def CleanPush (s : QueueState κ α) : QueueCall κ α → Prop
  | .push k node => (s.lists k).tail = none → Unlinked s.links node
  | .popFront _ _ => True

/-- A pop, of any list. -/
def QueueCall.IsPop : QueueCall κ α → Prop
  | .push _ _ => False
  | .popFront _ _ => True

/-- The lists hold exactly what is queued. -/
def Queues (s : QueueState κ α) : Prop := Lists s.links s.lists s.queued

theorem Queues.popResult {s : QueueState κ α} (h : Queues s) (k : κ) :
    s.popResult k = (s.queued k).head? := by
  have hr := h.rep k
  cases hq : s.queued k with
  | nil =>
    rw [hq] at hr
    simp [QueueState.popResult, hr.popFront_nil]
  | cons a ys =>
    rw [hq] at hr
    simp [QueueState.popResult, hr.popFront_cons]

variable [DecidableEq κ]

def QueueState.push (s : QueueState κ α) (k : κ) (node : α) : QueueState κ α where
  links := (listPush s.links (s.lists k) node).1
  lists := Function.update s.lists k (listPush s.links (s.lists k) node).2
  queued := Function.update s.queued k (s.queued k ++ [node])

def QueueState.popFront (s : QueueState κ α) (k : κ) : QueueState κ α where
  links := (listPopFront s.links (s.lists k)).1.1
  lists := Function.update s.lists k (listPopFront s.links (s.lists k)).1.2
  queued := Function.update s.queued k
    (match s.popResult k with
    | some node => (s.queued k).erase node
    | none => s.queued k)

/-- A node may be pushed while it is in no list; any list may be popped. -/
inductive QueueStep : QueueState κ α → QueueCall κ α → QueueState κ α → Prop
  | push {s : QueueState κ α} (k : κ) {node : α} (hfree : ∀ j, node ∉ s.queued j) :
      QueueStep s (.push k node) (s.push k node)
  | popFront {s : QueueState κ α} (k : κ) :
      QueueStep s (.popFront k (s.popResult k)) (s.popFront k)

/-- Every list starts empty; the words of the nodes start arbitrary. -/
def queueSystem (κ α : Type*) [DecidableEq α] [DecidableEq κ] :
    System (QueueState κ α) (QueueCall κ α) where
  initial s := (∀ k, s.lists k = ListS.zero) ∧ ∀ k, s.queued k = []
  step := QueueStep

theorem queues_initial {s : QueueState κ α} (h : (queueSystem κ α).initial s) : Queues s := by
  obtain ⟨hl, hq⟩ := h
  constructor
  · intro k
    rw [hl, hq]
    exact listRep_zero _
  · intro j k _
    simp [hq]

theorem Queues.push {s : QueueState κ α} (h : Queues s) {k : κ} {node : α}
    (hfree : ∀ j, node ∉ s.queued j) (hc : CleanPush s (.push k node)) :
    Queues (s.push k node) :=
  Lists.push h hfree hc

theorem Queues.popFront {s : QueueState κ α} (h : Queues s) (k : κ) :
    Queues (s.popFront k) := by
  have hr := h.rep k
  unfold Queues QueueState.popFront
  rw [h.popResult]
  cases hq : s.queued k with
  | nil =>
    rw [hq] at hr
    simp only [hr.popFront_nil, List.head?_nil, Function.update_eq_self]
    rwa [← hq, Function.update_eq_self]
  | cons a ys =>
    rw [hq] at hr
    have hq' : s.queued k = [] ++ a :: ys := hq
    simpa [hr.popFront_cons] using Lists.remove h hq'

theorem queues_step {s t : QueueState κ α} {a : QueueCall κ α} (h : Queues s)
    (hc : CleanPush s a) (hs : (queueSystem κ α).step s a t) : Queues t := by
  cases hs with
  | push k hfree => exact h.push hfree hc
  | popFront => exact h.popFront _

theorem Queues.fifo {s t : QueueState κ α} {a : QueueCall κ α} (h : Queues s)
    (hs : (queueSystem κ α).step s a t) : FifoCall s a := by
  cases hs with
  | push => trivial
  | popFront => exact h.popResult _

theorem queues_clean {s t : QueueState κ α} {tr : List (QueueState κ α × QueueCall κ α)}
    (hi : (queueSystem κ α).initial s) (h : (queueSystem κ α).Run s tr t)
    (hc : ∀ x ∈ tr, CleanPush x.1 x.2) : Queues t :=
  h.invariant_of hc (fun _ _ _ => queues_step) (queues_initial hi)

theorem fifo_of_clean {s t : QueueState κ α} {tr : List (QueueState κ α × QueueCall κ α)}
    (hi : (queueSystem κ α).initial s) (h : (queueSystem κ α).Run s tr t)
    (hc : ∀ x ∈ tr, CleanPush x.1 x.2) : ∀ x ∈ tr, FifoCall x.1 x.2 := by
  intro x hx
  obtain ⟨hq, v, hs⟩ := h.invariant_mem hc (fun _ _ _ => queues_step) (queues_initial hi) hx
  exact hq.fifo hs

/-- Removing the only node of a list that was pushed with a stale word leaves a head. -/
theorem stale_remove_head {m : Links α} {node : α} (h : ¬ Unlinked m node) :
    (listRemove m ⟨some node, some node⟩ node).2.head ≠ none := by
  unfold listRemove
  cases hp : (m node).prev with
  | some p =>
    dsimp only
    split <;> simp
  | none =>
    cases hn : (m node).next with
    | some n => simp [hn]
    | none =>
      refine absurd ?_ h
      cases hm : m node
      simp_all [Unlinked]

/-- Pushing a node with a stale word into an empty list leaves a list whose second pop
still returns a node, although one node was pushed. -/
theorem stale_second_pop {s : QueueState κ α} (h : Queues s) {k : κ} {node : α}
    (hstale : ¬ CleanPush s (.push k node)) :
    ((s.push k node).popFront k).queued k = [] ∧
      ((s.push k node).popFront k).popResult k ≠ none := by
  simp only [CleanPush, Classical.not_imp] at hstale
  obtain ⟨ht, hw⟩ := hstale
  have hq : s.queued k = [] := (h.rep k).tail_eq_none_iff.mp ht
  have hl : (s.push k node).lists k = ⟨some node, some node⟩ := by
    simp [QueueState.push, listPush, ht]
  have hm : (s.push k node).links = s.links := by
    simp [QueueState.push, listPush, ht]
  have hr : (s.push k node).popResult k = some node := by
    simp [QueueState.popResult, listPopFront, hl]
  constructor
  · simp only [QueueState.popFront, hr, Function.update_self]
    simp [QueueState.push, hq]
  · have hhead := stale_remove_head hw
    simp only [QueueState.popFront, QueueState.popResult, Function.update_self, hl, hm,
      listPopFront]
    cases hc : (listRemove s.links ⟨some node, some node⟩ node).2.head with
    | none => exact absurd hc hhead
    | some b => simp

/-- However the lists are drained after some part of a run, the pops are first in first out
exactly when every push of the run into an empty list is of a node with NULL words. -/
theorem fifo_iff_clean {t : QueueState κ α} {tr : List (QueueState κ α × QueueCall κ α)}
    (h : (queueSystem κ α).Trace tr t) :
    (∀ l r pops u, tr = l ++ r → (queueSystem κ α).Trace (l ++ pops) u →
        (∀ x ∈ pops, x.2.IsPop) → ∀ x ∈ l ++ pops, FifoCall x.1 x.2) ↔
      ∀ x ∈ tr, CleanPush x.1 x.2 := by
  constructor
  · intro hf
    by_contra hc
    obtain ⟨l, ⟨s, a⟩, r, rfl, hl, hstale⟩ := exists_first_failure hc
    obtain ⟨s₀, hi, hr⟩ := h
    obtain ⟨v, hls, hs, _⟩ := hr.split
    change QueueStep s a v at hs
    cases hs with
    | popFront => exact hstale trivial
    | @push k node hfree =>
      have hq := queues_clean hi hls hl
      obtain ⟨hnil, hne⟩ := stale_second_pop hq hstale
      -- drain the list twice after the stale push
      have hpush := hls.snoc (QueueStep.push k hfree)
      have hpop := hpush.snoc (QueueStep.popFront k)
      have hpop' := hpop.snoc (QueueStep.popFront k)
      have hfifo := hf (l ++ [(s, .push k node)]) r
        [(s.push k node, .popFront k ((s.push k node).popResult k)),
          ((s.push k node).popFront k,
            .popFront k (((s.push k node).popFront k).popResult k))] _ (by simp)
        ⟨s₀, hi, by simpa using hpop'⟩ (by simp [QueueCall.IsPop])
        ((s.push k node).popFront k,
          .popFront k (((s.push k node).popFront k).popResult k)) (by simp)
      simp only [FifoCall, hnil, List.head?_nil] at hfifo
      exact hne hfifo
  · intro hc l r pops u htr hrun hpops
    obtain ⟨s₀, hi, hr⟩ := hrun
    refine fifo_of_clean hi hr fun x hx => ?_
    rcases List.mem_append.mp hx with hx | hx
    · exact hc x (by simp [htr, hx])
    · have hp := hpops x hx
      obtain ⟨s, a⟩ := x
      cases a with
      | push => exact hp.elim
      | popFront => trivial

/-- One list and two nodes, all words NULL. -/
def freshQueue : QueueState Unit Bool where
  links _ := ⟨none, none⟩
  lists _ := ListS.zero
  queued _ := []

theorem freshQueue_initial : (queueSystem Unit Bool).initial freshQueue :=
  ⟨fun _ => rfl, fun _ => rfl⟩

theorem queueStep_push (s : QueueState Unit Bool) (node : Bool) (h : node ∉ s.queued ()) :
    QueueStep s (.push () node) (s.push () node) :=
  .push () fun _ => h

/-- Both nodes are pushed, and the first is popped and pushed again, behind the second. -/
def reusedNode : QueueState Unit Bool :=
  (((freshQueue.push () false).push () true).popFront ()).push () false

/-- Then both are popped. -/
def reuseCalls : List (QueueState Unit Bool × QueueCall Unit Bool) :=
  [(freshQueue, .push () false), (freshQueue.push () false, .push () true),
    ((freshQueue.push () false).push () true, .popFront () (some false)),
    (((freshQueue.push () false).push () true).popFront (), .push () false),
    (reusedNode, .popFront () (some true)), (reusedNode.popFront (), .popFront () (some false))]

/-- The node that is pushed again still names the other one in its `next` word. -/
theorem fifo_reused : ∃ t, (queueSystem Unit Bool).Trace reuseCalls t ∧
    ((((freshQueue.push () false).push () true).popFront ()).links false).next = some true ∧
    ∀ x ∈ reuseCalls, FifoCall x.1 x.2 := by
  have hpushed : (queueSystem Unit Bool).Run freshQueue (reuseCalls.take 2)
      ((freshQueue.push () false).push () true) :=
    (System.Run.single (queueStep_push freshQueue false (by decide))).snoc
      (queueStep_push _ true (by decide))
  have hagain : (queueSystem Unit Bool).Run freshQueue (reuseCalls.take 4) reusedNode :=
    (hpushed.snoc (QueueStep.popFront ())).snoc (queueStep_push _ false (by decide))
  have hr : (queueSystem Unit Bool).Trace reuseCalls _ := ⟨_, freshQueue_initial,
    (hagain.snoc (QueueStep.popFront ())).snoc (QueueStep.popFront ())⟩
  have hc : ∀ x ∈ reuseCalls, CleanPush x.1 x.2 := by
    simp only [reuseCalls, List.forall_mem_cons]
    -- the list is not empty when the node comes back
    exact ⟨fun _ => rfl, fun _ => rfl, trivial, fun hnil => absurd hnil (by decide), trivial,
      trivial, by simp⟩
  exact ⟨_, hr, rfl, (fifo_iff_clean hr).mpr hc reuseCalls [] [] _ rfl hr (by simp)⟩

/-- Two nodes go through the list, and the first one is pushed again: its `next` word still
names the second, which a pop then returns although it was not pushed again. -/
theorem fifo_fails : ¬ ∀ s t tr, (queueSystem Unit Bool).initial s →
    (queueSystem Unit Bool).Run s tr t → ∀ x ∈ tr, FifoCall x.1 x.2 := by
  intro hf
  let s₁ := freshQueue.push () false
  let s₂ := s₁.push () true
  let s₃ := s₂.popFront ()
  let s₄ := s₃.popFront ()
  let s₅ := s₄.push () false
  let s₆ := s₅.popFront ()
  have hr : (queueSystem Unit Bool).Run freshQueue _ s₆ :=
    (((((System.Run.single (queueStep_push freshQueue false (by decide))).snoc
      (queueStep_push s₁ true (by decide))).snoc (QueueStep.popFront ())).snoc
      (QueueStep.popFront ())).snoc (queueStep_push s₄ false (by decide))).snoc
      (QueueStep.popFront ())
  have hlast : s₆.popResult () = (s₆.queued ()).head? :=
    hf _ _ _ freshQueue_initial (hr.snoc (QueueStep.popFront ()))
      (s₆, .popFront () (s₆.popResult ())) (by simp)
  have hbad : s₆.popResult () ≠ (s₆.queued ()).head? := by decide
  exact hbad hlast

end Spaze
