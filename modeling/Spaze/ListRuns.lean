import Spaze.Lib.Runs
import Spaze.ListLoop
import Spaze.ListSplice

/-! Lists over one memory, used through every function and loop of list.h and list.c, and the
sequences they stand for. -/
namespace Spaze

open Linked Runs

variable {κ α : Type}

/-- The memory and the lists. -/
structure ListMem (κ α : Type) where
  links : Links α
  heads : κ → ListS α

/-- A call or a loop, and what it returned or went along. -/
inductive ListCall (κ α : Type)
  | push (k : κ) (x : α)
  | popFront (k : κ) (result : Option α)
  | remove (k : κ) (x : α)
  | insertAfter (k : κ) (x y : α)
  | forEach (k : κ) (visited : List α)
  | forEachReversed (k : κ) (visited : List α)
  deriving DecidableEq

/-- A loop with an empty body, which reads one of the words of each link. -/
def listWalk (word : α → Option α) (fuel : ℕ) (first : Option α) :
    Except Stop ((Unit × List α) × Option Unit) :=
  listForEachLogged (fun _ link => .ok (word link)) (fun _ _ => .ok ((), none)) fuel () first

/-- The node is in the list. -/
def ListMem.Mem (s : ListMem κ α) (k : κ) (x : α) : Prop :=
  Reach (nexts s.links) (s.heads k).head x

/-! ## The sequences -/

/-- A sequence with `y` put behind the first `x`. -/
def insertBehind [DecidableEq α] (x y : α) : List α → List α
  | [] => []
  | a :: xs => if a = x then a :: y :: xs else a :: insertBehind x y xs

variable [DecidableEq α] [DecidableEq κ]

/-- A step of a family of sequences. -/
inductive FamilyStep : (κ → List α) → ListCall κ α → (κ → List α) → Prop
  | push {p : κ → List α} {k : κ} {x : α} (hfree : ∀ j, x ∉ p j) :
      FamilyStep p (.push k x) (Function.update p k (p k ++ [x]))
  | popFront {p : κ → List α} {k : κ} :
      FamilyStep p (.popFront k (p k).head?) (Function.update p k (p k).tail)
  | remove {p : κ → List α} {k : κ} {x : α} (hx : x ∈ p k) :
      FamilyStep p (.remove k x) (Function.update p k ((p k).erase x))
  | insertAfter {p : κ → List α} {k : κ} {x y : α} (hx : x ∈ p k) (hfree : ∀ j, y ∉ p j) :
      FamilyStep p (.insertAfter k x y) (Function.update p k (insertBehind x y (p k)))
  | forEach {p : κ → List α} {k : κ} : FamilyStep p (.forEach k (p k)) p
  | forEachReversed {p : κ → List α} {k : κ} : FamilyStep p (.forEachReversed k (p k).reverse) p

def familySystem (κ α : Type) [DecidableEq α] [DecidableEq κ] :
    System (κ → List α) (ListCall κ α) where
  initial p := p = fun _ => []
  step := FamilyStep

/-! ## The lists -/

/-- The list is given the memory and the head and tail that a call left. -/
def ListMem.set (s : ListMem κ α) (k : κ) (out : Links α × ListS α) : ListMem κ α :=
  ⟨out.1, Function.update s.heads k out.2⟩

/-- A node that goes into a list is in none, and one that a call is given is in the list. -/
inductive ListStep : ListMem κ α → ListCall κ α → ListMem κ α → Prop
  | push {s : ListMem κ α} {k : κ} {x : α} (hfree : ∀ j, ¬ s.Mem j x) :
      ListStep s (.push k x) (s.set k (listPush s.links (s.heads k) x))
  | popFront {s : ListMem κ α} {k : κ} :
      ListStep s (.popFront k (listPopFront s.links (s.heads k)).2)
        (s.set k (listPopFront s.links (s.heads k)).1)
  | remove {s : ListMem κ α} {k : κ} {x : α} (hx : s.Mem k x) :
      ListStep s (.remove k x) (s.set k (listRemove s.links (s.heads k) x))
  | insertAfter {s : ListMem κ α} {k : κ} {x y : α} (hx : s.Mem k x) (hfree : ∀ j, ¬ s.Mem j y) :
      ListStep s (.insertAfter k x y) (s.set k (listInsertAfter s.links (s.heads k) x y))
  | forEach {s : ListMem κ α} {k : κ} {fuel : ℕ} {visited : List α}
      (h : listWalk (nexts s.links) fuel (s.heads k).head = .ok (((), visited), none)) :
      ListStep s (.forEach k visited) s
  | forEachReversed {s : ListMem κ α} {k : κ} {fuel : ℕ} {visited : List α}
      (h : listWalk (prevs s.links) fuel (s.heads k).tail = .ok (((), visited), none)) :
      ListStep s (.forEachReversed k visited) s

/-- Every list starts empty; the words of the nodes start arbitrary. -/
def listSystem (κ α : Type) [DecidableEq α] [DecidableEq κ] :
    System (ListMem κ α) (ListCall κ α) where
  initial s := ∀ k, s.heads k = ListS.zero
  step := ListStep

omit [DecidableEq α] [DecidableEq κ] in
/-- A node pushed into an empty list has NULL in both its words. -/
def CleanListCall (s : ListMem κ α) : ListCall κ α → Prop
  | .push k x => (s.heads k).tail = none → Unlinked s.links x
  | _ => True

/-! ## A walk -/

variable {word : α → Option α} {fuel : ℕ} {first : Option α} {visited xs ys : List α} {x y : α}
  {m : Links α} {l : ListS α}

omit [DecidableEq α] in
/-- A loop along words that lead from each node to the next one visits the nodes in order. -/
theorem listWalk_ok {prev : α → Option α} {p : Option α} (h : Seg word prev p xs none)
    (hw : listWalk word fuel xs.head? = .ok (((), visited), none)) : visited = xs := by
  have hwalk : listForEachLogged (fun _ link => .ok (word link))
      (fun _ _ => .ok ((), (none : Option Unit))) fuel () xs.head? =
        if xs.length < fuel then .ok ((xs.foldl (fun _ _ => ()) (), xs), none)
        else .error .fuel :=
    listForEachLogged_walk (I := fun _ xs => ∃ prev p, Seg word prev p xs none)
      (fun _ x xs ⟨_, _, _, hn, _⟩ => by rw [hn, Option.or_none])
      (fun _ x xs ⟨_, _, _, _, hrest⟩ => ⟨rfl, _, _, hrest⟩) ⟨_, _, h⟩
  rw [listWalk, hwalk] at hw
  split at hw
  · cases hw
    rfl
  · cases hw

omit [DecidableEq α] in
theorem ListRep.forEach (h : ListRep m l xs)
    (hw : listWalk (nexts m) fuel l.head = .ok (((), visited), none)) : visited = xs := by
  rw [h.head] at hw
  exact listWalk_ok h.seg hw

omit [DecidableEq α] in
theorem ListRep.forEachReversed (h : ListRep m l xs)
    (hw : listWalk (prevs m) fuel l.tail = .ok (((), visited), none)) :
    visited = xs.reverse := by
  rw [h.tail, ← List.head?_reverse] at hw
  exact listWalk_ok h.seg.reverse hw

/-! ## One call -/

variable {s t u : ListMem κ α} {a : ListCall κ α} {p : κ → List α} {k : κ}
  {tr : List (ListMem κ α × ListCall κ α)}

omit [DecidableEq κ] in
theorem insertBehind_eq (hx : x ∉ xs) :
    insertBehind x y (xs ++ x :: ys) = xs ++ x :: y :: ys := by
  induction xs with
  | nil => simp [insertBehind]
  | cons z zs ih =>
    rw [List.mem_cons, not_or] at hx
    obtain ⟨hz, hzs⟩ := hx
    simp only [List.cons_append, insertBehind, if_neg (Ne.symm hz), ih hzs]

theorem Lists.insertAfter {heads : κ → ListS α} {seqs : κ → List α}
    (h : Lists m heads seqs) (hk : seqs k = xs ++ x :: ys) (hy : ∀ j, y ∉ seqs j) :
    Lists (listInsertAfter m (heads k) x y).1
      (Function.update heads k (listInsertAfter m (heads k) x y).2)
      (Function.update seqs k (xs ++ x :: y :: ys)) := by
  have hrep := hk ▸ h.rep k
  have hyk : y ∉ xs ++ x :: ys := hk ▸ hy k
  have hmem : ∀ z, z ∈ xs ++ x :: y :: ys → z ∈ seqs k ∨ z = y := by
    intro z hz
    rw [hk]
    simp only [List.mem_append, List.mem_cons] at hz ⊢
    tauto
  constructor
  · intro j
    by_cases hj : j = k
    · subst j
      simpa using hrep.insertAfter hyk
    · simp only [Function.update_of_ne hj]
      refine (h.rep j).congr fun z hz => hrep.insertAfter_frame hyk ?_ ?_
      · exact fun hm => h.notMem hj (hk ▸ hm) hz
      · exact ne_of_mem_of_not_mem hz (hy j)
  · intro i j hij z hi hj
    rw [Function.update_apply] at hi hj
    split at hi
    · subst i
      rw [if_neg hij.symm] at hj
      rcases hmem z hi with hi | rfl
      · exact h.disjoint k j hij hi hj
      · exact hy j hj
    · split at hj
      · subst j
        rcases hmem z hj with hj | rfl
        · exact h.disjoint i k hij hi hj
        · exact hy i hi
      · exact h.disjoint i j hij hi hj

/-- The lists stand for these sequences. -/
def Holds (s : ListMem κ α) (p : κ → List α) : Prop := Lists s.links s.heads p

omit [DecidableEq α] [DecidableEq κ] in
theorem Holds.mem_iff (h : Holds s p) : s.Mem k x ↔ x ∈ p k := (h.rep k).reach_iff

theorem Holds.remove (h : Holds s p) (hx : x ∈ p k) :
    Holds (s.set k (listRemove s.links (s.heads k) x))
      (Function.update p k ((p k).erase x)) := by
  obtain ⟨xs, ys, hk⟩ := List.append_of_mem hx
  have hmid : ListRep s.links (s.heads k) (xs ++ x :: ys) := hk ▸ h.rep k
  have hremoved := Lists.remove h hk
  rw [← hmid.erase_mid, ← hk] at hremoved
  exact hremoved

/-- Each call does to the sequences what it is for, if it is clean. -/
theorem holds_step (h : Holds s p) (hclean : CleanListCall s a)
    (hs : (listSystem κ α).step s a t) :
    ∃ q, (familySystem κ α).step p a q ∧ Holds t q := by
  cases hs with
  | push hfree =>
    have hfree' : ∀ j, _ ∉ p j := fun j hm => hfree j (h.mem_iff.mpr hm)
    exact ⟨_, .push hfree', Lists.push h hfree' hclean⟩
  | @popFront k =>
    have hrep : ListRep s.links (s.heads k) (p k) := h.rep k
    cases hk : p k with
    | nil =>
      have hsame : s.set k (s.links, s.heads k) = s := by
        simp [ListMem.set]
      have hpop := hrep
      rw [hk] at hpop
      rw [hpop.popFront_nil, hsame]
      have hnone : (p k).head? = none := by rw [hk]; rfl
      refine ⟨Function.update p k (p k).tail, hnone ▸ .popFront, ?_⟩
      rw [hk, List.tail_nil, ← hk, Function.update_eq_self]
      exact h
    | cons x xs =>
      have hpop := hrep
      rw [hk] at hpop
      rw [hpop.popFront_cons]
      have hsome : (p k).head? = some x := by rw [hk]; rfl
      refine ⟨Function.update p k (p k).tail, hsome ▸ .popFront, ?_⟩
      have hremoved := h.remove (k := k) (x := x) (by simp [hk])
      rw [hk, List.erase_cons_head] at hremoved
      rw [hk]
      exact hremoved
  | remove hx =>
    have hx' := h.mem_iff.mp hx
    exact ⟨_, .remove hx', h.remove hx'⟩
  | @insertAfter k x y hx hfree =>
    have hx' : x ∈ p k := h.mem_iff.mp hx
    have hfree' : ∀ j, y ∉ p j := fun j hm => hfree j (h.mem_iff.mpr hm)
    obtain ⟨xs, ys, hk⟩ := List.append_of_mem hx'
    have hnot : x ∉ xs := by
      have hn := (h.rep k).nodup
      rw [hk] at hn
      exact fun hm => (List.nodup_append.mp hn).2.2 x hm x List.mem_cons_self rfl
    refine ⟨_, .insertAfter hx' hfree', ?_⟩
    rw [hk, insertBehind_eq hnot]
    exact Lists.insertAfter h hk hfree'
  | forEach hw =>
    obtain rfl := (h.rep _).forEach hw
    exact ⟨p, .forEach, h⟩
  | forEachReversed hw =>
    obtain rfl := (h.rep _).forEachReversed hw
    exact ⟨p, .forEachReversed, h⟩

/-! ## Runs -/

omit [DecidableEq α] [DecidableEq κ] in
theorem holds_initial (h : ∀ k, s.heads k = ListS.zero) : Holds s fun _ => [] := by
  constructor
  · intro k
    rw [h k]
    exact listRep_zero _
  · intro j k _ x hx
    cases hx

/-- What a push of a node with a stale word leaves in an empty list is no sequence. -/
theorem clean_of_holds {q : κ → List α} (hs : (listSystem κ α).step s a t) (h : Holds t q) :
    CleanListCall s a := by
  cases hs with
  | @push k x hfree =>
    intro htail
    have hrep : ListRep (s.set k (listPush s.links (s.heads k) x)).links
        ((s.set k (listPush s.links (s.heads k) x)).heads k) (q k) := h.rep k
    simp only [ListMem.set, Function.update_self] at hrep
    exact hrep.of_push_first htail
  | popFront | remove | insertAfter | forEach | forEachReversed => trivial

/-- Whatever is called, in any order and on any number of lists, the lists go through the states
of a family of sequences, with the same results and the same loops, exactly if no node with a
stale word is pushed into an empty list. -/
theorem lists_refine_iff (h : (listSystem κ α).Trace tr t) :
    (∀ x ∈ tr, CleanListCall x.1 x.2) ↔ ∃ tr' p, (familySystem κ α).Trace tr' p ∧
      List.Forall₂ (fun x y => Holds x.1 y.1 ∧ x.2 = y.2) tr tr' ∧ Holds t p := by
  obtain ⟨s, hs, hr⟩ := h
  constructor
  · intro hclean
    obtain ⟨tr', p, hrun, hall, hp⟩ := hr.simulate hclean
      (fun _ _ _ _ hq hc hstep => holds_step hq hc hstep) (holds_initial hs)
    exact ⟨tr', p, ⟨_, rfl, hrun⟩, hall, hp⟩
  · rintro ⟨tr', p, ⟨_, _, hrun⟩, hall, hp⟩
    exact hr.ok_of_simulate hrun hall hp fun _ _ _ _ _ _ hq ha _ => clean_of_holds ha hq

/-- One list, and all words NULL. -/
def freshLists : ListMem Unit ℕ where
  links _ := ⟨none, none⟩
  heads _ := ListS.zero

/-- Two nodes are pushed, and a third one goes between them. -/
theorem lists_refine_between : ∃ (tr : List (ListMem Unit ℕ × ListCall Unit ℕ)) (tr' : _)
    (t : ListMem Unit ℕ) (p : Unit → List ℕ), (listSystem Unit ℕ).Trace tr t ∧
      labels tr = [.push () 0, .push () 1, .insertAfter () 0 2, .forEachReversed () [1, 2, 0]] ∧
      (familySystem Unit ℕ).Trace tr' p ∧
      List.Forall₂ (fun x y => Holds x.1 y.1 ∧ x.2 = y.2) tr tr' ∧ Holds t p := by
  let s₁ := freshLists.set () (listPush freshLists.links ListS.zero 0)
  let s₂ := s₁.set () (listPush s₁.links (s₁.heads ()) 1)
  let s₃ := s₂.set () (listInsertAfter s₂.links (s₂.heads ()) 0 2)
  have hrep₁ : ListRep s₁.links (s₁.heads ()) [0] := ⟨⟨rfl, rfl, trivial⟩, rfl, rfl⟩
  have hrep₂ : ListRep s₂.links (s₂.heads ()) [0, 1] := ⟨⟨rfl, rfl, rfl, rfl, trivial⟩, rfl, rfl⟩
  have h₁ : ListStep freshLists (.push () 0) s₁ :=
    .push fun _ hm => by simpa using (listRep_zero freshLists.links).reach_iff.mp hm
  have h₂ : ListStep s₁ (.push () 1) s₂ := .push fun _ hm => by simpa using hrep₁.reach_iff.mp hm
  have h₃ : ListStep s₂ (.insertAfter () 0 2) s₃ :=
    .insertAfter (hrep₂.reach_iff.mpr (by simp)) fun _ hm => by
      simpa using hrep₂.reach_iff.mp hm
  have h₄ : ListStep s₃ (.forEachReversed () [1, 2, 0]) s₃ :=
    @ListStep.forEachReversed _ _ _ _ s₃ () 4 _ rfl
  have hr : (listSystem Unit ℕ).Run freshLists _ s₃ :=
    (((System.Run.single h₁).snoc h₂).snoc h₃).snoc h₄
  have hclean : ∀ x ∈ [(freshLists, ListCall.push () 0), (s₁, .push () 1),
      (s₂, .insertAfter () 0 2), (s₃, .forEachReversed () [1, 2, 0])],
      CleanListCall x.1 x.2 := by
    simp only [List.forall_mem_cons]
    exact ⟨fun _ => rfl, nofun, trivial, trivial, by simp⟩
  obtain ⟨tr', p, htr, hall, hp⟩ := (lists_refine_iff ⟨_, fun _ => rfl, hr⟩).mp hclean
  exact ⟨_, tr', s₃, p, ⟨_, fun _ => rfl, hr⟩, rfl, htr, hall, hp⟩

end Spaze
