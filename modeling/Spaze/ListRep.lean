import Spaze.Lib.Linked
import Spaze.List

/-! When a list in memory holds a sequence of nodes, and what list.c does to the sequence. -/
namespace Spaze

open Linked

variable {α κ : Type*} {m m' : Links α} {l l' : ListS α} {xs ys : List α} {a b x : α}

/-- The `next` words of a memory. -/
def nexts (m : Links α) (a : α) : Option α := (m a).next

/-- The `prev` words of a memory. -/
def prevs (m : Links α) (a : α) : Option α := (m a).prev

/-- A well formed list: `next` and `prev` agree along the sequence, the first `prev` and
the last `next` are NULL, and head and tail are its ends. -/
structure ListRep (m : Links α) (l : ListS α) (xs : List α) : Prop where
  seg : Seg (nexts m) (prevs m) none xs none
  head : l.head = xs.head?
  tail : l.tail = xs.getLast?

/-- A node whose two words are NULL. -/
def Unlinked (m : Links α) (a : α) : Prop := m a = ⟨none, none⟩

theorem listRep_zero (m : Links α) : ListRep m ListS.zero [] := ⟨trivial, rfl, rfl⟩

theorem ListRep.nodup (h : ListRep m l xs) : xs.Nodup := h.seg.nodup

theorem ListRep.tail_eq_none_iff (h : ListRep m l xs) : l.tail = none ↔ xs = [] := by
  rw [h.tail, List.getLast?_eq_none_iff]

/-- The frame rule: only the words of its own nodes matter to a list. -/
theorem ListRep.congr (hm : ∀ x ∈ xs, m' x = m x) (h : ListRep m l xs) : ListRep m' l xs := by
  refine ⟨h.seg.congr ?_ ?_, h.head, h.tail⟩
  · intro x hx
    rw [nexts, hm x hx, nexts]
  · intro x hx
    rw [prevs, hm x hx, prevs]

/-- The `next` word of the last node is NULL. -/
theorem ListRep.next_last (h : ListRep m l (xs ++ [a])) : (m a).next = none :=
  (seg_concat.mp h.seg).2.2

theorem ListRep.prev_mid (h : ListRep m l (xs ++ a :: ys)) : (m a).prev = xs.getLast? :=
  h.seg.mid.2.1

theorem ListRep.next_mid (h : ListRep m l (xs ++ a :: ys)) : (m a).next = ys.head? :=
  h.seg.mid.2.2.1

theorem unlinked_iff : Unlinked m a ↔ (m a).next = none ∧ (m a).prev = none := by
  rw [Unlinked]
  cases m a
  simp

/-- The block of a list of one has NULL in both its words. -/
theorem ListRep.unlinked (h : ListRep m l [a]) : Unlinked m a := by
  have hmid : ListRep m l ([] ++ a :: []) := h
  exact unlinked_iff.mpr ⟨hmid.next_mid, hmid.prev_mid⟩

/-- A list whose head is its tail has one node. -/
theorem ListRep.single (h : ListRep m ⟨some a, some a⟩ xs) : xs = [a] := by
  have hhead := h.head
  have htail := h.tail
  have hn := h.nodup
  match xs with
  | [] => cases hhead
  | [z] =>
    cases hhead
    rfl
  | z :: z' :: zs =>
    cases hhead
    rw [List.getLast?_cons_cons] at htail
    exact absurd (List.mem_of_mem_getLast? htail.symm) (List.nodup_cons.mp hn).1

/-- A list with a tail ends in it. -/
theorem ListRep.concat_of_tail (h : ListRep m l xs) (ht : l.tail = some a) :
    ∃ ys, xs = ys ++ [a] := by
  rw [h.tail] at ht
  exact ⟨_, (List.dropLast_append_getLast? a ht).symm⟩

/-- The nodes of a list are those a walk along it comes to. -/
theorem ListRep.reach_iff (h : ListRep m l xs) : Reach (nexts m) l.head a ↔ a ∈ xs := by
  rw [h.head]
  exact ⟨h.seg.of_reach_next, h.seg.reach_next⟩

theorem ListRep.prev_ne_self (h : ListRep m l (xs ++ a :: ys)) : (m a).prev ≠ some a := by
  rw [h.prev_mid]
  intro hl
  have hd := List.nodup_append.mp h.nodup
  exact hd.2.2 a (List.mem_of_mem_getLast? (by simp [hl])) a (by simp) rfl

theorem links_ext (hn : nexts m' x = nexts m x) (hp : prevs m' x = prevs m x) : m' x = m x := by
  cases h : m x
  cases h' : m' x
  simp_all [nexts, prevs]

/-- Lists that share a memory and no node. -/
structure Lists (m : Links α) (heads : κ → ListS α) (seqs : κ → List α) : Prop where
  rep : ∀ k, ListRep m (heads k) (seqs k)
  disjoint : ∀ j k, j ≠ k → (seqs j).Disjoint (seqs k)

variable {heads : κ → ListS α} {seqs : κ → List α} {k : κ}

theorem Lists.notMem (h : Lists m heads seqs) {j : κ} (hj : j ≠ k) (hx : x ∈ seqs k) :
    x ∉ seqs j :=
  fun hm => h.disjoint j k hj hm hx

/-- Lists whose nodes keep their words stay as they are. -/
theorem Lists.congr (hm : ∀ k, ∀ x ∈ seqs k, m' x = m x) (h : Lists m heads seqs) :
    Lists m' heads seqs :=
  ⟨fun k => (h.rep k).congr (hm k), h.disjoint⟩

theorem Lists.clear [DecidableEq κ] (h : Lists m heads seqs) (k : κ) :
    Lists m (Function.update heads k ListS.zero) (Function.update seqs k []) := by
  constructor
  · intro j
    by_cases hj : j = k
    · subst j
      simpa using listRep_zero m
    · simpa [hj] using h.rep j
  · intro i j hij x hi hj
    rw [Function.update_apply] at hi hj
    split at hi
    · cases hi
    · split at hj
      · cases hj
      · exact h.disjoint i j hij hi hj

theorem ne_of_prev {p : α} (hp : (m a).prev ≠ some a) (hpa : (m a).prev = some p) : a ≠ p :=
  fun he => hp (by rw [hpa, he])

variable [DecidableEq α]

theorem ListRep.erase_mid (h : ListRep m l (xs ++ x :: ys)) :
    (xs ++ x :: ys).erase x = xs ++ ys := by
  have hnot : x ∉ xs := fun hm =>
    (List.nodup_append.mp h.nodup).2.2 x hm x List.mem_cons_self rfl
  rw [List.erase_append_right _ hnot, List.erase_cons_head]

/-! ## The operations as updates of the words -/

theorem listInsertAfter_nexts (hab : a ≠ b) (x : α) :
    nexts (listInsertAfter m l a b).1 x = insertNext (nexts m) a b x := by
  unfold listInsertAfter insertNext nexts
  cases hn : (m a).next <;> by_cases hxa : x = a <;> by_cases hxb : x = b <;> simp_all

theorem listInsertAfter_prevs (hab : a ≠ b) (x : α) :
    prevs (listInsertAfter m l a b).1 x = insertPrev (nexts m) (prevs m) a b x := by
  unfold listInsertAfter insertPrev prevs nexts
  cases hn : (m a).next with
  | none => by_cases hxb : x = b <;> simp_all
  | some n => by_cases hxn : x = n <;> by_cases hxb : x = b <;> simp_all [eq_comm]

theorem listInsertAfter_head : (listInsertAfter m l a b).2.head = l.head := by
  unfold listInsertAfter
  simp only
  split <;> rfl

theorem listInsertAfter_tail (hab : a ≠ b) : (listInsertAfter m l a b).2.tail =
    if (m a).next = none then some b else l.tail := by
  unfold listInsertAfter
  cases hn : (m a).next <;> simp_all

theorem listRemove_nexts (hp : (m a).prev ≠ some a) (x : α) :
    nexts (listRemove m l a).1 x = unlinkNext (nexts m) (prevs m) a x := by
  unfold listRemove unlinkNext nexts prevs
  cases hpa : (m a).prev with
  | none => cases hn : (m a).next <;> simp_all
  | some p =>
    have hap := ne_of_prev hp hpa
    cases hn : (m a).next <;> by_cases hxp : x = p <;> simp_all [eq_comm]

theorem listRemove_prevs (hp : (m a).prev ≠ some a) (x : α) :
    prevs (listRemove m l a).1 x = unlinkPrev (nexts m) (prevs m) a x := by
  unfold listRemove unlinkPrev nexts prevs
  cases hpa : (m a).prev with
  | none => cases hn : (m a).next <;> simp_all [eq_comm]
  | some p =>
    have hap := ne_of_prev hp hpa
    cases hn : (m a).next <;> simp_all [eq_comm]

theorem listRemove_head (hp : (m a).prev ≠ some a) :
    (listRemove m l a).2.head = if (m a).prev = none then (m a).next else l.head := by
  unfold listRemove
  cases hpa : (m a).prev with
  | none => cases hn : (m a).next <;> simp_all
  | some p =>
    have hap := ne_of_prev hp hpa
    cases hn : (m a).next <;> simp_all

theorem listRemove_tail (hp : (m a).prev ≠ some a) :
    (listRemove m l a).2.tail = if (m a).next = none then (m a).prev else l.tail := by
  unfold listRemove
  cases hpa : (m a).prev with
  | none => cases hn : (m a).next <;> simp_all
  | some p =>
    have hap := ne_of_prev hp hpa
    cases hn : (m a).next <;> simp_all

/-! ## What the operations do to the sequence -/

theorem ListRep.insertAfter (h : ListRep m l (xs ++ a :: ys)) (hb : b ∉ xs ++ a :: ys) :
    ListRep (listInsertAfter m l a b).1 (listInsertAfter m l a b).2 (xs ++ a :: b :: ys) := by
  have hab : a ≠ b := by
    rintro rfl
    simp at hb
  refine ⟨(h.seg.insert hb).congr ?_ ?_, ?_, ?_⟩
  · exact fun x _ => listInsertAfter_nexts hab x
  · exact fun x _ => listInsertAfter_prevs hab x
  · rw [listInsertAfter_head, h.head]
    cases xs <;> rfl
  · rw [listInsertAfter_tail hab, h.next_mid, h.tail]
    cases ys <;> simp [List.getLast?_cons]

/-- A push appends, if into an empty list it is the push of a node whose words are NULL. -/
theorem ListRep.push (h : ListRep m l xs) (ha : a ∉ xs)
    (hclean : l.tail = none → Unlinked m a) :
    ListRep (listPush m l a).1 (listPush m l a).2 (xs ++ [a]) := by
  cases ht : l.tail with
  | none =>
    have hxs := h.tail_eq_none_iff.mp ht
    have hm : m a = ⟨none, none⟩ := hclean ht
    subst hxs
    simp only [listPush, ht]
    exact ⟨by simp [nexts, prevs, hm], rfl, rfl⟩
  | some t =>
    obtain ⟨ys, rfl⟩ := h.concat_of_tail ht
    simp only [listPush, ht]
    simpa using h.insertAfter ha

theorem ListRep.remove (h : ListRep m l (xs ++ a :: ys)) :
    ListRep (listRemove m l a).1 (listRemove m l a).2 (xs ++ ys) := by
  have hp := h.prev_ne_self
  refine ⟨h.seg.unlink.congr ?_ ?_, ?_, ?_⟩
  · exact fun x _ => listRemove_nexts hp x
  · exact fun x _ => listRemove_prevs hp x
  · rw [listRemove_head hp, h.prev_mid, h.next_mid, h.head]
    cases xs <;> simp [List.getLast?_cons]
  · rw [listRemove_tail hp, h.prev_mid, h.next_mid, h.tail]
    cases ys <;> simp [List.getLast?_append, List.getLast?_cons]

/-- A push writes the node pushed and the old nodes of the list, nothing else. -/
theorem ListRep.push_frame (h : ListRep m l xs) (hx : x ∉ xs) (hxa : x ≠ a) :
    (listPush m l a).1 x = m x := by
  cases ht : l.tail with
  | none => simp [listPush, ht]
  | some t =>
    have htx : t ∈ xs := List.mem_of_mem_getLast? (by simp [← h.tail, ht])
    have hxt : x ≠ t := fun he => hx (he ▸ htx)
    have hnt : (m t).next = none := by
      obtain ⟨ys, rfl⟩ := h.concat_of_tail ht
      exact h.next_last
    simp only [listPush, ht]
    apply links_ext
    · by_cases hta : t = a
      · subst t
        simp [listInsertAfter, nexts, hxa, hnt]
      · rw [listInsertAfter_nexts hta, insertNext, if_neg hxt, if_neg hxa]
    · by_cases hta : t = a
      · subst t
        simp [listInsertAfter, prevs, hxa, hnt]
      · rw [listInsertAfter_prevs hta, insertPrev, if_neg (by simp [nexts, hnt]), if_neg hxa]

/-- A removal only writes nodes that stay in the list; the removed node keeps its words. -/
theorem ListRep.remove_frame (h : ListRep m l (xs ++ a :: ys)) (hx : x ∉ xs ++ ys) :
    (listRemove m l a).1 x = m x := by
  have hp := h.prev_ne_self
  simp only [List.mem_append, not_or] at hx
  apply links_ext
  · rw [listRemove_nexts hp, unlinkNext, if_neg]
    intro hh
    exact hx.1 (List.mem_of_mem_getLast? (by simp [← h.prev_mid, ← hh, prevs]))
  · rw [listRemove_prevs hp, unlinkPrev, if_neg]
    intro hh
    exact hx.2 (List.mem_of_mem_head? (by simp [← h.next_mid, ← hh, nexts]))

theorem ListRep.popFront_cons (h : ListRep m l (a :: ys)) :
    listPopFront m l = (listRemove m l a, some a) := by
  simp [listPopFront, h.head]

/-- A push into an empty list makes a list only of a node with NULL in both its words. -/
theorem ListRep.of_push_first (h : ListRep (listPush m l a).1 (listPush m l a).2 xs)
    (ht : l.tail = none) : Unlinked m a := by
  simp only [listPush, ht] at h
  have hsingle := h.single
  rw [hsingle] at h
  exact h.unlinked

theorem ListRep.popFront_nil (h : ListRep m l []) : listPopFront m l = ((m, l), none) := by
  simp [listPopFront, h.head]

/-! ## What the operations do to several lists -/

variable [DecidableEq κ]

theorem Lists.push (h : Lists m heads seqs) (ha : ∀ j, a ∉ seqs j)
    (hclean : (heads k).tail = none → Unlinked m a) :
    Lists (listPush m (heads k) a).1 (Function.update heads k (listPush m (heads k) a).2)
      (Function.update seqs k (seqs k ++ [a])) := by
  constructor
  · intro j
    by_cases hj : j = k
    · subst j
      simpa using (h.rep k).push (ha k) hclean
    · simp only [Function.update_of_ne hj]
      refine (h.rep j).congr fun x hx => (h.rep k).push_frame ?_ ?_
      · exact fun hm => h.notMem hj hm hx
      · exact ne_of_mem_of_not_mem hx (ha j)
  · intro i j hij x hi hj
    rw [Function.update_apply] at hi hj
    split at hi <;> split at hj
    · simp_all
    · simp only [List.mem_append, List.mem_singleton] at hi
      rcases hi with hi | rfl
      · exact h.disjoint k j (by rintro rfl; contradiction) hi hj
      · exact ha j hj
    · simp only [List.mem_append, List.mem_singleton] at hj
      rcases hj with hj | rfl
      · exact h.disjoint i k (by assumption) hi hj
      · exact ha i hi
    · exact h.disjoint i j hij hi hj

theorem Lists.remove (h : Lists m heads seqs) (hk : seqs k = xs ++ a :: ys) :
    Lists (listRemove m (heads k) a).1 (Function.update heads k (listRemove m (heads k) a).2)
      (Function.update seqs k (xs ++ ys)) := by
  have hrep := hk ▸ h.rep k
  have hsub : ∀ x ∈ xs ++ ys, x ∈ seqs k := by
    intro x hx
    rw [hk]
    exact ((List.sublist_cons_self a ys).append_left xs).subset hx
  constructor
  · intro j
    by_cases hj : j = k
    · subst j
      simpa using hrep.remove
    · simp only [Function.update_of_ne hj]
      refine (h.rep j).congr fun x hx => hrep.remove_frame fun hm => ?_
      exact h.notMem hj (hsub x hm) hx
  · intro i j hij x hi hj
    rw [Function.update_apply] at hi hj
    split at hi <;> split at hj
    · simp_all
    · exact h.disjoint k j (by rintro rfl; contradiction) (hsub x hi) hj
    · exact h.disjoint i k (by assumption) hi (hsub x hj)
    · exact h.disjoint i j hij hi hj

end Spaze
