import Spaze.ArrayGrowth
import Spaze.Lib.Amortized

/-! What a growable array costs over whole runs: the bytes it copies and the room it takes. -/
namespace Spaze

open Amortized Runs

variable {w : ℕ} {elemSize : UsizeT w} {s t : ArrayS w} {a : ArrayCall (List Byte)}
  {mem : Malloc} {e : List Byte} {elems : List (List Byte)}
  {tr : List (ArrayS w × ArrayCall (List Byte))}

/-- The bytes that `array_resize` copies in a call. -/
def moved (s : ArrayS w) : ArrayCall (List Byte) → ℕ
  | .push _ => if arrayNeedsResize s 1 then (s.length * s.elemSize).toNat else 0
  | .pop _ => 0
  | .deinit => 0

/-- Whether a call is a push. -/
def pushes (_ : ArrayS w) : ArrayCall (List Byte) → ℕ
  | .push _ => 1
  | .pop _ => 0
  | .deinit => 0

/-- The calls of mi_malloc since the last deinit. -/
def served (tr : List (ArrayS w × ArrayCall (List Byte))) : ℕ :=
  tr.foldl (fun n x => match x.2 with
    | .push _ => if arrayNeedsResize x.1 1 then n + 1 else n
    | .pop _ => n
    | .deinit => 0) 0

theorem arrayResize_fields {capacity : UsizeT w} (h : arrayResize mem s capacity = .ok t) :
    t.length = s.length ∧ t.capacity = capacity := by
  simp only [arrayResize, bind_eq_ok] at h
  obtain ⟨_, _, _, _, _, _, _, _, h⟩ := h
  cases h
  exact ⟨rfl, rfl⟩

theorem arrayPush_fields (h : arrayPush mem s e = .ok t) : t.length = s.length + 1 ∧
    t.capacity = if arrayNeedsResize s 1 then arrayNewCapacity s else s.capacity := by
  simp only [arrayPush, bind_eq_ok] at h
  obtain ⟨u, hreserve, _, _, _, _, h⟩ := h
  cases h
  unfold arrayReserve at hreserve
  split at hreserve
  · rename_i hneeds
    obtain ⟨hlength, hcapacity⟩ := arrayResize_fields hreserve
    refine ⟨by rw [hlength], ?_⟩
    rw [if_pos hneeds]
    exact hcapacity
  · rename_i hneeds
    cases hreserve
    refine ⟨rfl, ?_⟩
    rw [if_neg hneeds]

theorem arrayPop_fields {result : Option (List Byte)} (h : arrayPop s = .ok (t, result)) :
    t.length.toNat ≤ s.length.toNat ∧ t.capacity = s.capacity := by
  simp only [arrayPop] at h
  split at h
  · cases h
    exact ⟨Nat.le_refl _, rfl⟩
  · rename_i hz
    obtain ⟨_, _, h⟩ := bind_eq_ok.mp h
    cases h
    refine ⟨?_, rfl⟩
    rw [usize_eq_zero_iff] at hz
    have hlt := s.length.isLt
    have hone : (1 : UsizeT w).toNat = 1 := toNat_ofNat_of_lt (k := 1) (by omega)
    dsimp only
    rw [BitVec.toNat_sub_of_le (by rw [BitVec.le_def, hone]; omega)]
    omega

theorem exactNewCapacity_cases (s : ArrayS w) :
    s.capacity.toNat = 0 ∧ exactNewCapacity s = 4 ∨
      0 < s.capacity.toNat ∧ exactNewCapacity s = s.capacity.toNat * 2 := by
  unfold exactNewCapacity
  split
  · rename_i hz
    exact Or.inl ⟨usize_eq_zero_iff.mp hz, rfl⟩
  · rename_i hz
    rw [usize_eq_zero_iff] at hz
    exact Or.inr ⟨by omega, rfl⟩

theorem Stores.needsResize_iff {limit : ℕ} (h : Stores limit s elems)
    (hb : ArrayBounds limit s.elemSize) :
    arrayNeedsResize s 1 = true ↔ s.capacity.toNat < s.length.toNat + 1 := by
  have hsucc := toNat_succ_of_lt (h.pushFits hb).length
  rw [arrayNeedsResize, decide_eq_true_eq, gt_iff_lt, BitVec.lt_def, hsucc]

/-- A push grows a full array to its next capacity, and no other. -/
theorem Grown.push_sizes (h : Grown elemSize s) (hb : ArrayBounds (mallocMax w) elemSize)
    (hp : arrayPush mem s e = .ok t) : t.length.toNat = s.length.toNat + 1 ∧
      (arrayNeedsResize s 1 = true ∧ s.length.toNat = s.capacity.toNat ∧
          t.capacity.toNat = exactNewCapacity s ∨
        arrayNeedsResize s 1 = false ∧ s.length.toNat < s.capacity.toNat ∧
          t.capacity.toNat = s.capacity.toNat) := by
  obtain ⟨elems, hstores⟩ := h.stores
  have hfits := hstores.pushFits (h.bounds hb)
  obtain ⟨hlength, hcapacity⟩ := arrayPush_fields hp
  have hsucc := toNat_succ_of_lt hfits.length
  have hroom := hstores.room
  have helems := hstores.length
  refine ⟨by rw [hlength, hsucc], ?_⟩
  have hneeds := hstores.needsResize_iff (h.bounds hb)
  cases hresize : arrayNeedsResize s 1 with
  | true =>
    have hgrow := hfits.growth hresize
    have hpos := (h.bounds hb).pos
    have hle := Nat.le_mul_of_pos_right (exactNewCapacity s) hpos
    rw [hcapacity, if_pos hresize, newCapacity_toNat (by omega)]
    have hfull := hneeds.mp hresize
    exact Or.inl ⟨rfl, by omega, rfl⟩
  | false =>
    have hnot : ¬ arrayNeedsResize s 1 = true := by
      rw [hresize]
      exact Bool.false_ne_true
    have hfree := mt hneeds.mpr hnot
    rw [hcapacity, if_neg hnot]
    exact Or.inr ⟨rfl, by omega, rfl⟩

theorem Grown.deinit_sizes (h : Grown elemSize s) :
    (arrayDeinit s).length.toNat = 0 ∧ (arrayDeinit s).capacity.toNat = 0 := by
  obtain ⟨elems, hstores⟩ := h.stores
  rw [hstores.deinit]
  exact ⟨rfl, rfl⟩

/-- What the elements beyond half the capacity have saved up for the next growth. -/
def saved (s : ArrayS w) : ℕ := 2 * s.length.toNat - s.capacity.toNat

/-- The elements that `array_resize` copies in a call. -/
def movedElems (s : ArrayS w) : ArrayCall (List Byte) → ℕ
  | .push _ => if arrayNeedsResize s 1 then s.length.toNat else 0
  | .pop _ => 0
  | .deinit => 0

theorem Grown.moved_eq (h : Grown elemSize s) (a : ArrayCall (List Byte)) :
    moved s a = elemSize.toNat * movedElems s a := by
  obtain ⟨elems, hstores⟩ := h.stores
  have hlimit : mallocMax w < 2 ^ w := by
    have hpos := Nat.two_pow_pos w
    have hle : 2 ^ (w - 1) ≤ 2 ^ w := Nat.pow_le_pow_right (by decide) (by omega)
    rw [mallocMax]
    omega
  cases a with
  | push e =>
    simp only [moved, movedElems]
    split
    · rw [(hstores.used hlimit).2, h.elemSize, ← hstores.length, Nat.mul_comm]
    · rfl
  | pop | deinit => rfl

/-- Two elements for each push pay for the copies. -/
theorem movedElems_step (hb : ArrayBounds (mallocMax w) elemSize) (h : Grown elemSize s)
    (hs : (growthSystem elemSize).step s a t) :
    movedElems s a + saved t ≤ 2 * pushes s a + saved s := by
  cases hs with
  | push hm he hp =>
    obtain ⟨hlength, ⟨hresize, hfull, hcapacity⟩ | ⟨hresize, hfree, hcapacity⟩⟩ :=
      h.push_sizes hb hp
    · simp only [movedElems, pushes, saved, hresize, if_true]
      have hnew := exactNewCapacity_cases s
      omega
    · simp only [movedElems, pushes, saved, hresize, Bool.false_eq_true, if_false]
      omega
  | pop hp =>
    obtain ⟨hlength, hcapacity⟩ := arrayPop_fields hp
    simp only [movedElems, pushes, saved, hcapacity]
    omega
  | deinit =>
    obtain ⟨hlength, hcapacity⟩ := h.deinit_sizes
    simp only [movedElems, pushes, saved, hlength]
    omega

theorem moved_step (hb : ArrayBounds (mallocMax w) elemSize) (h : Grown elemSize s)
    (hs : (growthSystem elemSize).step s a t) : Grown elemSize t ∧
      moved s a + elemSize.toNat * saved t ≤
        2 * elemSize.toNat * pushes s a + elemSize.toNat * saved s := by
  refine ⟨(grown_step hb h hs).2, ?_⟩
  calc moved s a + elemSize.toNat * saved t
      = elemSize.toNat * (movedElems s a + saved t) := by rw [h.moved_eq, Nat.mul_add]
    _ ≤ elemSize.toNat * (2 * pushes s a + saved s) :=
        Nat.mul_le_mul_left _ (movedElems_step hb h hs)
    _ = 2 * elemSize.toNat * pushes s a + elemSize.toNat * saved s := by
        rw [Nat.mul_add, ← Nat.mul_assoc, Nat.mul_comm elemSize.toNat 2]

/-- A capacity of more than four elements was grown to when half of it was full. -/
theorem room_step (hb : ArrayBounds (mallocMax w) elemSize) (h : Grown elemSize s)
    (hs : (growthSystem elemSize).step s a t) :
    Grown elemSize t ∧ (t.capacity.toNat ≤ s.capacity.toNat ∨
      t.capacity.toNat ≤ max 4 (2 * t.length.toNat)) := by
  refine ⟨(grown_step hb h hs).2, ?_⟩
  cases hs with
  | push hm he hp =>
    obtain ⟨hlength, ⟨hresize, hfull, hcapacity⟩ | ⟨hresize, hfree, hcapacity⟩⟩ :=
      h.push_sizes hb hp
    · right
      have hnew := exactNewCapacity_cases s
      omega
    · left
      omega
  | pop hp =>
    obtain ⟨hlength, hcapacity⟩ := arrayPop_fields hp
    exact Or.inl (Nat.le_of_eq (by rw [hcapacity]))
  | deinit =>
    obtain ⟨hlength, hcapacity⟩ := h.deinit_sizes
    left
    omega

theorem served_snoc (x : ArrayS w × ArrayCall (List Byte)) : served (tr ++ [x]) =
    match x.2 with
    | .push _ => if arrayNeedsResize x.1 1 then served tr + 1 else served tr
    | .pop _ => served tr
    | .deinit => 0 := by
  simp [served]

/-- The capacity counts the growths. -/
def Doubled (tr : List (ArrayS w × ArrayCall (List Byte))) (s : ArrayS w) : Prop :=
  s.capacity.toNat = if served tr = 0 then 0 else 2 ^ (served tr + 1)

theorem doubled_step (hb : ArrayBounds (mallocMax w) elemSize) (h : Grown elemSize s)
    (hd : Doubled tr s) (hs : (growthSystem elemSize).step s a t) :
    Grown elemSize t ∧ Doubled (tr ++ [(s, a)]) t := by
  refine ⟨(grown_step hb h hs).2, ?_⟩
  unfold Doubled at hd ⊢
  cases hs with
  | push hm he hp =>
    obtain ⟨hlength, ⟨hresize, hfull, hcapacity⟩ | ⟨hresize, hfree, hcapacity⟩⟩ :=
      h.push_sizes hb hp
    · simp only [served_snoc, hresize, if_true, Nat.succ_ne_zero, if_false, hcapacity]
      rcases exactNewCapacity_cases s with ⟨hz, hnew⟩ | ⟨hpos, hnew⟩
      · have hnone : served tr = 0 := by
          by_contra hne
          rw [if_neg hne] at hd
          have hpow := Nat.two_pow_pos (served tr + 1)
          omega
        rw [hnew, hnone]
        rfl
      · have hsome : served tr ≠ 0 := by
          intro hz
          rw [if_pos hz] at hd
          omega
        rw [hnew, hd, if_neg hsome, ← Nat.pow_succ]
    · simp only [served_snoc, hresize, Bool.false_eq_true, if_false, hcapacity, hd]
  | pop hp =>
    obtain ⟨hlength, hcapacity⟩ := arrayPop_fields hp
    simp only [served_snoc, hcapacity, hd]
  | deinit =>
    obtain ⟨hlength, hcapacity⟩ := h.deinit_sizes
    simp only [served_snoc, hcapacity, if_true]

/-- Over every run from `array_init` the bytes that growths copy are those of two elements for
each push at most, the room taken is twice the peak of the elements at most, or four elements,
and the capacity is the power of two that the growths since the last deinit have come to. -/
theorem array_costs (hpos : 1 ≤ elemSize.toNat) (hinit : 4 * elemSize.toNat < 2 ^ w)
    (h : (growthSystem elemSize).Trace tr t) :
    total moved tr ≤ 2 * elemSize.toNat * total pushes tr ∧
    t.capacity.toNat ≤ max 4 (2 * peak (fun s => s.length.toNat) tr t) ∧
    t.capacity.toNat = if served tr = 0 then 0 else 2 ^ (served tr + 1) := by
  have hb := arrayBounds_mallocMax hpos hinit
  obtain ⟨s, rfl, hr⟩ := h
  have hstart : Grown elemSize (arrayInit elemSize) := ⟨rfl, [], stores_init _⟩
  have hempty : saved (arrayInit elemSize) = 0 := rfl
  have hmono : Monotone fun n => max 4 (2 * n) := by
    intro m n hmn
    dsimp only
    omega
  obtain ⟨_, hmoved⟩ := amortized moved (fun s a => 2 * elemSize.toNat * pushes s a)
    (fun s => elemSize.toNat * saved s) hr (fun _ _ _ => moved_step hb) hstart
  obtain ⟨_, hroom⟩ := le_peak hmono hr (fun _ _ _ => room_step hb) hstart (Nat.zero_le _)
  obtain ⟨_, hdoubled⟩ := hr.history (I := fun tr s => Grown elemSize s ∧ Doubled tr s)
    (fun _ _ _ _ hi => doubled_step hb hi.1 hi.2) ⟨hstart, rfl⟩
  rw [total_mul, hempty] at hmoved
  exact ⟨by omega, hroom, hdoubled⟩

/-- Five elements of two bytes, of which four are copied, and another one after a deinit. -/
theorem array_costs_reused : ∃ tr t, (growthSystem 2#64).Trace tr t ∧
    total moved tr = 8 ∧ 8 ≤ 2 * 2 * total pushes tr ∧
    t.capacity.toNat ≤ max 4 (2 * peak (fun s => s.length.toNat) tr t) ∧
    t.capacity.toNat = 2 ^ (served tr + 1) := by
  obtain ⟨tr, t, hr, hp⟩ := execute_any (M := growthSystem 2#64)
    (p := fun tr _ => decide (total moved tr = 8 ∧ served tr = 1))
    (arrayExec_growth ⟨2 ^ 63 - 1, fun _ => 7⟩ (by decide)) (show ((execute _
      (arrayInit 2#64) [.push [1, 1], .push [2, 2], .push [3, 3], .push [4, 4], .push [5, 5],
        .pop none, .deinit, .push [6, 6]]).any _) = true by decide +kernel)
  obtain ⟨hmoved, hserved⟩ := of_decide_eq_true hp
  obtain ⟨hcost, hroom, hcapacity⟩ := array_costs (by decide) (by decide) ⟨_, rfl, hr⟩
  rw [hmoved] at hcost
  rw [if_neg (by omega)] at hcapacity
  exact ⟨tr, t, ⟨_, rfl, hr⟩, hmoved, hcost, hroom, hcapacity⟩

end Spaze
