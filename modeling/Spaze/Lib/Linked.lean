import Mathlib.Data.List.Basic
import Mathlib.Data.List.Nodup
import Mathlib.Data.List.Induction

/-! Sequences of cells linked both ways, and what inserting or unlinking one cell does to them. -/
namespace Linked

variable {α : Type*} {next prev next' prev' : α → Option α} {p q : Option α}
  {xs ys : List α} {a b x : α}

/-- The cells of a list are linked both ways, after `p` and before `q`. -/
def Seg (next prev : α → Option α) : Option α → List α → Option α → Prop
  | _, [], _ => True
  | p, x :: xs, q => prev x = p ∧ next x = xs.head?.or q ∧ Seg next prev (some x) xs q

@[simp] theorem seg_nil : Seg next prev p [] q := trivial

@[simp] theorem seg_cons : Seg next prev p (x :: xs) q ↔
    prev x = p ∧ next x = xs.head?.or q ∧ Seg next prev (some x) xs q := Iff.rfl

theorem getLast?_cons_or (xs : List α) (x : α) (p : Option α) :
    (x :: xs).getLast?.or p = xs.getLast?.or (some x) := by
  rw [List.getLast?_cons]
  cases xs.getLast? <;> simp

theorem seg_append : Seg next prev p (xs ++ ys) q ↔
    Seg next prev p xs (ys.head?.or q) ∧ Seg next prev (xs.getLast?.or p) ys q := by
  induction xs generalizing p with
  | nil => simp
  | cons x xs ih =>
    rw [List.cons_append, seg_cons, seg_cons, ih, getLast?_cons_or, List.head?_append,
      Option.or_assoc]
    tauto

theorem seg_concat : Seg next prev p (xs ++ [x]) q ↔
    Seg next prev p xs (some x) ∧ prev x = xs.getLast?.or p ∧ next x = q := by
  simp [seg_append]

/-- The frame rule: a segment only depends on the words of its own cells. -/
theorem Seg.congr (hn : ∀ x ∈ xs, next' x = next x) (hp : ∀ x ∈ xs, prev' x = prev x)
    (h : Seg next prev p xs q) : Seg next' prev' p xs q := by
  induction xs generalizing p with
  | nil => trivial
  | cons x xs ih =>
    obtain ⟨hx, hy, ht⟩ := h
    refine ⟨(hp x (by simp)).trans hx, (hn x (by simp)).trans hy, ?_⟩
    exact ih (fun y hy => hn y (by simp [hy])) (fun y hy => hp y (by simp [hy])) ht

theorem Seg.prev_getElem (h : Seg next prev p xs q) {i : ℕ} (hi : i + 1 < xs.length) :
    prev xs[i + 1] = some xs[i] := by
  induction xs generalizing p i with
  | nil => simp at hi
  | cons x xs ih =>
    cases xs with
    | nil => simp at hi
    | cons y ys =>
      cases i with
      | zero => exact h.2.2.1
      | succ i => exact ih h.2.2 (by simpa using hi)

/-- Read from its other end, a segment is one with the words exchanged. -/
theorem Seg.reverse (h : Seg next prev p xs q) : Seg prev next q xs.reverse p := by
  induction xs generalizing p with
  | nil => trivial
  | cons x xs ih =>
    obtain ⟨hp, hn, hrest⟩ := h
    rw [List.reverse_cons, seg_concat, List.getLast?_reverse]
    exact ⟨ih hrest, hn, hp⟩

theorem Seg.prev_head (h : Seg next prev p (x :: xs) q) : prev x = p := h.1

/-- Walking back from a repeated cell would reach the front twice, so no cell is repeated. -/
theorem Seg.nodup (h : Seg next prev none xs q) : xs.Nodup := by
  have hne : ∀ i j, (hj : j < xs.length) → (hi : i < j) → xs[i] ≠ xs[j] := by
    intro i
    induction i with
    | zero =>
      intro j hj hi he
      obtain ⟨k, rfl⟩ : ∃ k, j = k + 1 := ⟨j - 1, by omega⟩
      have hk := h.prev_getElem hj
      rw [← he] at hk
      cases xs with
      | nil => simp at hj
      | cons x xs => simp [h.prev_head] at hk
    | succ i ih =>
      intro j hj hi he
      obtain ⟨k, rfl⟩ : ∃ k, j = k + 1 := ⟨j - 1, by omega⟩
      have hk := h.prev_getElem hj
      rw [← he, h.prev_getElem (by omega)] at hk
      exact ih k (by omega) (by omega) (Option.some.inj hk)
  rw [List.nodup_iff_getElem?_ne_getElem?]
  intro i j hij hj
  rw [List.getElem?_eq_getElem hj, List.getElem?_eq_getElem (by omega)]
  exact fun he => hne i j hj hij (Option.some.inj he)

/-- Giving the last cell another successor only changes where the segment leads. -/
theorem Seg.retarget (h : Seg next prev p xs q) (hd : xs.Nodup) {r : Option α}
    (hp : ∀ x ∈ xs, prev' x = prev x)
    (hn : ∀ x ∈ xs, xs.getLast? ≠ some x → next' x = next x)
    (hl : ∀ x, xs.getLast? = some x → next' x = r) : Seg next' prev' p xs r := by
  induction xs using List.reverseRecOn with
  | nil => trivial
  | append_singleton xs z _ =>
    obtain ⟨hs, hz, _⟩ := seg_concat.mp h
    have hzx : z ∉ xs := by
      have := List.nodup_append.mp hd
      intro hm
      exact this.2.2 z hm z (by simp) rfl
    refine seg_concat.mpr ⟨hs.congr ?_ ?_, ?_, ?_⟩
    · intro x hx
      apply hn x (by simp [hx])
      rw [List.getLast?_concat]
      rintro ⟨⟩
      exact hzx hx
    · exact fun x hx => hp x (by simp [hx])
    · rw [hp z (by simp), hz]
    · exact hl z (by simp)

/-- Giving the first cell another predecessor only changes where the segment comes from. -/
theorem Seg.resource (h : Seg next prev p xs q) (hd : xs.Nodup) {r : Option α}
    (hn : ∀ x ∈ xs, next' x = next x)
    (hp : ∀ x ∈ xs, xs.head? ≠ some x → prev' x = prev x)
    (hf : ∀ x, xs.head? = some x → prev' x = r) : Seg next' prev' r xs q := by
  cases xs with
  | nil => trivial
  | cons z xs =>
    obtain ⟨_, hz, hs⟩ := h
    have hzx : z ∉ xs := (List.nodup_cons.mp hd).1
    refine ⟨hf z rfl, (hn z (by simp)).trans hz, hs.congr ?_ ?_⟩
    · exact fun x hx => hn x (by simp [hx])
    · intro x hx
      apply hp x (by simp [hx])
      rintro ⟨⟩
      exact hzx hx

theorem Seg.mid (h : Seg next prev none (xs ++ a :: ys) none) :
    Seg next prev none xs (some a) ∧ prev a = xs.getLast? ∧ next a = ys.head? ∧
      Seg next prev (some a) ys none := by
  simpa [seg_append] using h

/-! ## Walking along the words -/

/-- The cells met from `start` on along `f`. -/
inductive Reach (f : α → Option α) (start : Option α) : α → Prop
  | start {a : α} (h : start = some a) : Reach f start a
  | step {a b : α} (ha : Reach f start a) (h : f a = some b) : Reach f start b

/-- The first cell of a kind met from a start on along `f`. -/
inductive First (f : α → Option α) (P : α → Prop) : Option α → α → Prop
  | here {a : α} (ha : P a) : First f P (some a) a
  | there {a b : α} (ha : ¬ P a) (h : First f P (f a) b) : First f P (some a) b

variable {f : α → Option α} {P : α → Prop} {start : Option α}

theorem Reach.of_step (h : Reach f (f a) b) : Reach f (some a) b := by
  induction h with
  | start h => exact .step (.start rfl) h
  | step _ h ih => exact .step ih h

theorem First.reach (h : First f P start b) : Reach f start b ∧ P b := by
  induction h with
  | here ha => exact ⟨.start rfl, ha⟩
  | there _ _ ih => exact ⟨ih.1.of_step, ih.2⟩

/-- Some first cell of a kind is met exactly when some cell of the kind is met. -/
theorem exists_first_iff : (∃ b, First f P start b) ↔ ∃ b, Reach f start b ∧ P b := by
  constructor
  · rintro ⟨b, h⟩
    exact ⟨b, h.reach⟩
  · rintro ⟨b, h, hb⟩
    have hback : ∀ a, Reach f start a → (∃ c, First f P (some a) c) → ∃ c, First f P start c := by
      intro a ha
      induction ha with
      | start h => exact fun hc => h ▸ hc
      | @step a b _ hab ih =>
        rintro ⟨c, hc⟩
        by_cases hp : P a
        · exact ih ⟨a, .here hp⟩
        · exact ih ⟨c, .there hp (hab ▸ hc)⟩
    exact hback b h ⟨b, .here hb⟩

/-- Walking back through a segment meets its own cells only. -/
theorem Seg.reach_prev (h : Seg next prev none xs q) (hb : Reach prev xs.getLast? b) :
    b ∈ xs := by
  induction hb with
  | start hl => exact List.mem_of_mem_getLast? hl
  | @step a b _ hab ha =>
    obtain ⟨l, r, rfl⟩ := List.append_of_mem ha
    obtain ⟨_, hp, _⟩ := seg_append.mp h
    rw [hab, Option.or_none] at hp
    exact List.mem_append_left _ (List.mem_of_mem_getLast? hp.symm)

theorem Seg.reach_next (h : Seg next prev p xs none) (hb : b ∈ xs) : Reach next xs.head? b := by
  induction xs generalizing p with
  | nil => cases hb
  | cons x xs ih =>
    obtain ⟨_, hn, ht⟩ := h
    rcases List.mem_cons.mp hb with rfl | hb
    · exact .start rfl
    · rw [Option.or_none] at hn
      exact Reach.of_step (hn ▸ ih ht hb)

theorem Seg.of_reach_next (h : Seg next prev p xs none) (hb : Reach next xs.head? b) :
    b ∈ xs := by
  induction hb with
  | start hl => exact List.mem_of_mem_head? hl
  | @step a b _ hab ha =>
    obtain ⟨l, r, rfl⟩ := List.append_of_mem ha
    obtain ⟨_, _, hn, _⟩ := seg_append.mp h
    rw [hab, Option.or_none] at hn
    exact List.mem_append_right _ (List.mem_cons_of_mem _ (List.mem_of_mem_head? hn.symm))

theorem not_reach_none : ¬ Reach f none b := by
  intro h
  induction h with
  | start h => cases h
  | step _ _ ih => exact ih

/-! ## Unlinking and inserting -/

/-- The `next` words once `a` is unlinked: its predecessor skips it. -/
def unlinkNext [DecidableEq α] (next prev : α → Option α) (a x : α) : Option α :=
  if prev a = some x then next a else next x

/-- The `prev` words once `a` is unlinked: its successor skips it. -/
def unlinkPrev [DecidableEq α] (next prev : α → Option α) (a x : α) : Option α :=
  if next a = some x then prev a else prev x

/-- The `next` words once `b` is inserted after `a`. -/
def insertNext [DecidableEq α] (next : α → Option α) (a b x : α) : Option α :=
  if x = a then some b else if x = b then next a else next x

/-- The `prev` words once `b` is inserted after `a`. -/
def insertPrev [DecidableEq α] (next prev : α → Option α) (a b x : α) : Option α :=
  if next a = some x then some b else if x = b then some a else prev x

variable [DecidableEq α]

theorem Seg.unlink (h : Seg next prev none (xs ++ a :: ys) none) :
    Seg (unlinkNext next prev a) (unlinkPrev next prev a) none (xs ++ ys) none := by
  have hd := h.nodup
  obtain ⟨hx, hpa, hna, hy⟩ := h.mid
  obtain ⟨hdx, hdy, hne⟩ := List.nodup_append.mp hd
  have hdy' := (List.nodup_cons.mp hdy).2
  rw [seg_append]
  constructor
  · apply hx.retarget hdx
    · intro x hx
      rw [unlinkPrev, if_neg]
      intro hh
      exact hne x hx x (List.mem_cons_of_mem _ (List.mem_of_mem_head? (by simp [← hna, hh]))) rfl
    · intro x _ hl
      rw [unlinkNext, if_neg (by rwa [hpa])]
    · intro x hl
      rw [unlinkNext, if_pos (hpa.trans hl), hna]
      simp
  · apply hy.resource hdy'
    · intro x hx
      rw [unlinkNext, if_neg]
      intro hh
      exact hne x (List.mem_of_mem_getLast? (by simp [← hpa, hh])) x (by simp [hx]) rfl
    · intro x _ hl
      rw [unlinkPrev, if_neg (by rwa [hna])]
    · intro x hl
      rw [unlinkPrev, if_pos (hna.trans hl), hpa]
      simp

theorem Seg.insert (h : Seg next prev none (xs ++ a :: ys) none) (hb : b ∉ xs ++ a :: ys) :
    Seg (insertNext next a b) (insertPrev next prev a b) none (xs ++ a :: b :: ys) none := by
  have hd := h.nodup
  obtain ⟨hx, hpa, hna, hy⟩ := h.mid
  obtain ⟨hdx, hdy, hne⟩ := List.nodup_append.mp hd
  obtain ⟨hay, hdy'⟩ := List.nodup_cons.mp hdy
  simp only [List.mem_append, List.mem_cons, not_or] at hb
  obtain ⟨hbx, hba, hby⟩ := hb
  have hsucc : ∀ x, next a = some x → x ∈ ys := fun x hh =>
    List.mem_of_mem_head? (by simp [← hna, hh])
  rw [seg_append]
  refine ⟨hx.congr ?_ ?_, ?_, ?_, ?_, ?_, ?_⟩
  · intro x hx
    rw [insertNext, if_neg (hne x hx a (by simp)), if_neg (ne_of_mem_of_not_mem hx hbx)]
  · intro x hx
    rw [insertPrev, if_neg (fun hh => hne x hx x (by simp [hsucc x hh]) rfl),
      if_neg (ne_of_mem_of_not_mem hx hbx)]
  · rw [insertPrev, if_neg (fun hh => hay (hsucc a hh)), if_neg (Ne.symm hba), hpa]
    simp
  · simp [insertNext]
  · rw [insertPrev, if_neg (fun hh => hby (hsucc b hh)), if_pos rfl]
  · rw [insertNext, if_neg hba, if_pos rfl, hna]
    simp
  · apply hy.resource hdy'
    · intro x hx
      rw [insertNext, if_neg (ne_of_mem_of_not_mem hx hay), if_neg (ne_of_mem_of_not_mem hx hby)]
    · intro x hx hl
      rw [insertPrev, if_neg (by rwa [hna]), if_neg (ne_of_mem_of_not_mem hx hby)]
    · intro x hl
      rw [insertPrev, if_pos (hna.trans hl)]

end Linked
