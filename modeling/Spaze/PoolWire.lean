import Spaze.PoolSizes

/-! The sizes and offsets of gfx.c on the wire, where they are `int32_t`. -/
namespace Spaze

open Runs

variable {w : ℕ} {fuel : ℕ} {ans : Answers} {g g' : Gfx w} {s t : PoolState w} {a : PoolCall w}
  {r : Option Addr} {width height stride size target capacity : UsizeT w} {err : ShmPoolErrorE}

/-- The conversion of a `usize_t` argument to a parameter of type `int32_t`. -/
def toInt32 (x : UsizeT w) : ℤ := (x.setWidth 32).toInt

/-- The size and offset arguments of a request whose parameters are `int32_t`. -/
def Request.sizeArgs : Request w → List (UsizeT w)
  | .wlShmCreatePool _ size => [size]
  | .wlShmPoolResize _ size => [size]
  | .wlShmPoolCreateBuffer _ offset width height stride _ => [offset, width, height, stride]
  | .wlShmPoolDestroy _ => []
  | .wlBufferDestroy _ => []

/-- Every size of the request has the value on the wire that it has in the process. -/
def Request.SameOnWire (q : Request w) : Prop := ∀ x ∈ q.sizeArgs, toInt32 x = x.toNat

theorem toInt32_eq_iff (x : UsizeT w) : toInt32 x = x.toNat ↔ x.toNat < 2 ^ 31 := by
  rw [toInt32, BitVec.toInt_setWidth, Int.bmod_def]
  split <;> omega

/-! ## The capacity search, without overflow -/

theorem mul_two_mul_pow (n k : ℕ) : n * 2 * 2 ^ k = n * 2 ^ (k + 1) := by
  rw [Nat.pow_succ, Nat.mul_assoc, Nat.mul_comm 2]

theorem shmPoolNewCapacity_toNat (h : 2 * size.toNat < 2 ^ w) :
    (shmPoolNewCapacity size).toNat = size.toNat * 2 := by
  rw [shmPoolNewCapacity, BitVec.toNat_mul, BitVec.ofNat_eq_ofNat, BitVec.toNat_ofNat]
  rcases Nat.eq_zero_or_pos size.toNat with h0 | h0
  · simp [h0]
  · have htwo : 2 % 2 ^ w = 2 := Nat.mod_eq_of_lt (by omega)
    rw [htwo, Nat.mod_eq_of_lt (by omega)]

/-- While the target is at most half the range, the search only doubles. -/
theorem search_doubles (h : shmPoolCapacitySearch target fuel size = .ok capacity)
    (ht : 2 * target.toNat ≤ 2 ^ w) : ∃ k, capacity.toNat = size.toNat * 2 ^ k := by
  induction fuel generalizing size with
  | zero => cases h
  | succ fuel ih =>
    rw [shmPoolCapacitySearch] at h
    split at h
    · rename_i hlt
      obtain ⟨k, hk⟩ := ih h
      have hsize := BitVec.lt_def.mp hlt
      rw [shmPoolNewCapacity_toNat (by omega)] at hk
      exact ⟨k + 1, by rw [hk, mul_two_mul_pow]⟩
    · cases h
      exact ⟨0, by simp⟩

/-- A doubling that is large enough and in range is not passed. -/
theorem search_le (h : shmPoolCapacitySearch target fuel size = .ok capacity) {k : ℕ}
    (hk : target.toNat ≤ size.toNat * 2 ^ k) (hw : size.toNat * 2 ^ k < 2 ^ w) :
    capacity.toNat ≤ size.toNat * 2 ^ k := by
  induction k generalizing fuel size with
  | zero =>
    cases fuel with
    | zero => cases h
    | succ fuel =>
      have hnot : ¬ size < target := by
        rw [BitVec.lt_def]
        simpa using hk
      rw [shmPoolCapacitySearch, if_neg hnot] at h
      cases h
      simp
  | succ k ih =>
    cases fuel with
    | zero => cases h
    | succ fuel =>
      rw [shmPoolCapacitySearch] at h
      split at h
      · have hpow := mul_two_mul_pow size.toNat k
        have hpos : 0 < 2 ^ k := Nat.pow_pos (by decide)
        have hdouble : 2 * size.toNat < 2 ^ w := by
          have := Nat.le_mul_of_pos_right (size.toNat * 2) hpos
          omega
        have hnew := shmPoolNewCapacity_toNat hdouble
        have hle := ih h (by rw [hnew, hpow]; exact hk) (by rw [hnew, hpow]; exact hw)
        rwa [hnew, hpow] at hle
      · cases h
        exact Nat.le_mul_of_pos_right _ (Nat.pow_pos (by decide))

/-! ## Requests of a run -/

/-- The least doubling of the capacity that a growth goes to is one that fits `int32_t`. -/
def GrowthFits (s : PoolState w) : PoolCall w → Prop
  | .allocate ans width height stride _ =>
    (∀ b, FreeBlock s.gfx b → ¬ Shaped s.gfx width height stride b) →
      shmPoolNeedsGrow s.gfx.pool (stride * height) = true → ans.ftruncate = true →
      ans.mmap ≠ none →
      ∃ k, (s.gfx.pool.poolUsed + stride * height).toNat ≤
          s.gfx.pool.poolCapacity.toNat * 2 ^ (k + 1) ∧
        s.gfx.pool.poolCapacity.toNat * 2 ^ (k + 1) < 2 ^ 31
  | .deallocate _ => True

/-- The caller's arguments fit `int32_t`. -/
def SmallArgs : PoolCall w → Prop
  | .allocate _ width height stride _ =>
    width.toNat < 2 ^ 31 ∧ height.toNat < 2 ^ 31 ∧ stride.toNat < 2 ^ 31
  | .deallocate _ => True

/-- So far every size went out as it is, and so would those recorded now. -/
structure OnWire (g : Gfx w) : Prop where
  used : g.pool.poolUsed ≤ g.pool.poolCapacity
  capacity : g.pool.poolCapacity.toNat < 2 ^ 31
  sent : ∀ q ∈ g.os.requests, q.SameOnWire

/-- The new capacity of a growth fits `int32_t` exactly when some doubling that is large
enough does. -/
theorem SearchedCapacity.fits_iff (hw : 32 ≤ w) (hcap : g.pool.poolCapacity.toNat < 2 ^ 31)
    (h : SearchedCapacity g size capacity) : capacity.toNat < 2 ^ 31 ↔
      ∃ k, (g.pool.poolUsed + size).toNat ≤ g.pool.poolCapacity.toNat * 2 ^ (k + 1) ∧
        g.pool.poolCapacity.toNat * 2 ^ (k + 1) < 2 ^ 31 := by
  have hrange : 2 ^ 32 ≤ 2 ^ w := Nat.pow_le_pow_right (by decide) hw
  have hge := BitVec.le_def.mp h.fits
  obtain ⟨fuel, h⟩ := h
  have hfirst : (shmPoolNewCapacity g.pool.poolCapacity).toNat = g.pool.poolCapacity.toNat * 2 :=
    shmPoolNewCapacity_toNat (by omega)
  have hpow := mul_two_mul_pow g.pool.poolCapacity.toNat
  constructor
  · intro hlt
    obtain ⟨k, hk⟩ := search_doubles h (by omega)
    rw [hfirst, hpow] at hk
    exact ⟨k, by omega, by omega⟩
  · rintro ⟨k, hk, hlt⟩
    have hle := search_le h (k := k) (by rw [hfirst, hpow]; exact hk)
      (by rw [hfirst, hpow]; omega)
    rw [hfirst, hpow] at hle
    omega

theorem OnWire.snoc (hg : OnWire g) {q : Request w} (hq : q.SameOnWire) :
    OnWire { g with os := g.os.send q } := by
  refine ⟨hg.used, hg.capacity, ?_⟩
  intro x hx
  simp only [Os.send, List.mem_append, List.mem_singleton] at hx
  rcases hx with hx | rfl
  · exact hg.sent x hx
  · exact hq

theorem OnWire.madeRoom (hg : OnWire g) (h : MadeRoom ans g size g' err)
    (hfit : g'.pool.poolCapacity.toNat < 2 ^ 31) : OnWire g' := by
  constructor
  · rw [h.sameBlocks.poolUsed]
    exact BitVec.le_trans hg.used h.capacity_le
  · exact hfit
  · rcases h.requests with hr | ⟨hr, _⟩
    · rw [hr]
      exact hg.sent
    · intro q hq
      simp only [hr, List.mem_append, List.mem_singleton] at hq
      rcases hq with hq | rfl
      · exact hg.sent q hq
      · simpa [Request.SameOnWire, Request.sizeArgs, toInt32_eq_iff] using hfit

/-- What `GrowthFits` asks of one allocation, in terms of what it does to the pool. -/
theorem MadeRoom.capacity_lt (hw : 32 ≤ w) (hcap : g.pool.poolCapacity.toNat < 2 ^ 31)
    (h : MadeRoom ans g size g' err)
    (hfit : shmPoolNeedsGrow g.pool size = true → ans.ftruncate = true → ans.mmap ≠ none →
      ∃ k, (g.pool.poolUsed + size).toNat ≤ g.pool.poolCapacity.toNat * 2 ^ (k + 1) ∧
        g.pool.poolCapacity.toNat * 2 ^ (k + 1) < 2 ^ 31) :
    g'.pool.poolCapacity.toNat < 2 ^ 31 := by
  cases h with
  | enough | truncateFailed | mmapFailed => exact hcap
  | grown hgrow hsearch ht hm =>
    exact (hsearch.fits_iff hw hcap).mpr (hfit hgrow ht (by simp [hm]))

theorem OnWire.createBuffer (hg : OnWire g) (hwidth : width.toNat < 2 ^ 31)
    (hheight : height.toNat < 2 ^ 31) (hstride : stride.toNat < 2 ^ 31)
    (hused : g.pool.poolUsed + size ≤ g.pool.poolCapacity) :
    OnWire (shmPoolCreateBuffer ans g g.pool.poolUsed size width height stride).1 := by
  have hoffset : g.pool.poolUsed.toNat < 2 ^ 31 :=
    Nat.lt_of_le_of_lt (BitVec.le_def.mp hg.used) hg.capacity
  have hsame : (Request.wlShmPoolCreateBuffer g.pool.pool g.pool.poolUsed width height stride
      ans.createBuffer).SameOnWire := by
    simp only [Request.SameOnWire, Request.sizeArgs, toInt32_eq_iff, List.forall_mem_cons]
    exact ⟨hoffset, hwidth, hheight, hstride, by simp⟩
  have hsent := hg.snoc hsame
  unfold shmPoolCreateBuffer
  cases hb : ans.createBuffer with
  | none => simpa only [hb] using hsent
  | some buffer => exact ⟨hused, hsent.capacity, by simpa only [hb] using hsent.sent⟩

theorem onWire_step (hw : 32 ≤ w) (hg : OnWire s.gfx) (hargs : SmallArgs a)
    (hfit : GrowthFits s a) (hs : (poolSystem w).step s a t) : OnWire t.gfx := by
  cases hs with
  | deallocate => exact ⟨hg.used, hg.capacity, hg.sent⟩
  | @allocate _ ans width height stride g r _ hcall =>
    have hroom_lt : ∀ {fuel g₁ err},
        shmPoolReuse fuel s.gfx width height stride = .ok (s.gfx, none) →
        MadeRoom ans s.gfx (stride * height) g₁ err → OnWire g₁ := by
      intro fuel g₁ err hmiss hroom
      have hnone := (shmPoolReuse_none_iff hmiss).mp rfl
      exact hg.madeRoom hroom (hroom.capacity_lt hw hg.capacity (hfit hnone))
    cases shmPoolAllocate_cases hcall with
    | reused => exact ⟨hg.used, hg.capacity, hg.sent⟩
    | refused hmiss hroom => exact hroom_lt hmiss hroom
    | @created _ g₁ hmiss hroom =>
      have hused := hroom.sameBlocks.poolUsed
      obtain ⟨hwidth, hheight, hstride⟩ := hargs
      rw [← hused]
      exact (hroom_lt hmiss hroom).createBuffer hwidth hheight hstride (hused ▸ hroom.fits)

/-- A request once sent stays sent. -/
theorem requests_step (hs : (poolSystem w).step s a t) :
    s.gfx.os.requests ⊆ t.gfx.os.requests := by
  have hroom_sub : ∀ {ans : Answers} {g g₁ : Gfx w} {size err}, MadeRoom ans g size g₁ err →
      g.os.requests ⊆ g₁.os.requests := by
    intro ans g g₁ size err hroom
    rcases hroom.requests with hr | ⟨hr, _⟩ <;> simp [hr]
  cases hs with
  | deallocate => exact List.Subset.refl _
  | allocate _ hcall =>
    cases shmPoolAllocate_cases hcall with
    | reused => exact List.Subset.refl _
    | refused _ hroom => exact hroom_sub hroom
    | created _ hroom =>
      refine List.Subset.trans (hroom_sub hroom) ?_
      unfold shmPoolCreateBuffer
      split <;> simp [Os.send]

theorem requests_run {tr : List (PoolState w × PoolCall w)} (h : (poolSystem w).Run s tr t) :
    s.gfx.os.requests ⊆ t.gfx.os.requests :=
  h.invariant (I := fun u => s.gfx.os.requests ⊆ u.gfx.os.requests)
    (fun _ _ _ hsub hs => List.Subset.trans hsub (requests_step hs)) (List.Subset.refl _)

/-- A growth to a doubling that does not fit sends a size that does not survive. -/
theorem unfit_step (hw : 32 ≤ w) (hg : OnWire s.gfx) (hunfit : ¬ GrowthFits s a)
    (hs : (poolSystem w).step s a t) : ∃ q ∈ t.gfx.os.requests, ¬ q.SameOnWire := by
  cases hs with
  | deallocate => exact absurd trivial hunfit
  | @allocate _ ans width height stride g r _ hcall =>
    simp only [GrowthFits, Classical.not_imp] at hunfit
    obtain ⟨hnone, hgrow, ht, hm, hno⟩ := hunfit
    cases shmPoolAllocate_cases hcall with
    | reused hfound =>
      cases (shmPoolReuse_none_iff hfound).mpr hnone
    | refused hmiss hroom herr =>
      cases hroom with
      | enough | grown => exact absurd rfl herr
      | truncateFailed _ ht' => simp [ht] at ht'
      | mmapFailed _ _ hm' => exact absurd hm' hm
    | created hmiss hroom =>
      cases hroom with
      | enough hfit => simp [hgrow] at hfit
      | @grown capacity ptr _ hsearch =>
        have hlarge : ¬ capacity.toNat < 2 ^ 31 := fun hlt =>
          hno ((hsearch.fits_iff hw hg.capacity).mp hlt)
        refine ⟨.wlShmPoolResize s.gfx.pool.pool capacity, ?_, ?_⟩
        · unfold shmPoolCreateBuffer
          split <;> simp [Os.send]
        · simpa [Request.SameOnWire, Request.sizeArgs, toInt32_eq_iff] using hlarge

theorem onWire_initial (hsize : size.toNat < 2 ^ 31) (h : PoolInitial size s) : OnWire s.gfx := by
  have hs := h.started
  obtain ⟨ptr, _, hos⟩ := hs.os
  constructor
  · rw [hs.used, hs.capacity]
    exact BitVec.le_of_lt hs.pos
  · rw [hs.capacity]
    exact hsize
  · simpa [hos, Os.send, Os.mmap, Os.ftruncate, Os.shmOpen, Os.start, Request.SameOnWire,
      Request.sizeArgs, toInt32_eq_iff] using hsize

/-- In a run with small arguments every size goes out as it is exactly when every growth goes
to a doubling that fits `int32_t`. -/
theorem wire_sizes_iff {tr : List (PoolState w × PoolCall w)} (hw : 32 ≤ w)
    (hsize : size.toNat < 2 ^ 31) (hi : PoolInitial size s) (hr : (poolSystem w).Run s tr t)
    (hargs : ∀ x ∈ tr, SmallArgs x.2) :
    (∀ q ∈ t.gfx.os.requests, q.SameOnWire) ↔ ∀ x ∈ tr, GrowthFits x.1 x.2 := by
  have hstep : ∀ s a t, OnWire s.gfx → SmallArgs a ∧ GrowthFits s a →
      (poolSystem w).step s a t → OnWire t.gfx :=
    fun _ _ _ hg hok hs => onWire_step hw hg hok.1 hok.2 hs
  constructor
  · intro hsame
    by_contra hunfit
    obtain ⟨l, x, r, rfl, hl, hx⟩ := exists_first_failure hunfit
    obtain ⟨v, hls, hs, hrest⟩ := hr.split
    have hok : ∀ y ∈ l, SmallArgs y.2 ∧ GrowthFits y.1 y.2 :=
      fun y hy => ⟨hargs y (by simp [hy]), hl y hy⟩
    have hg : OnWire x.1.gfx := hls.invariant_of (I := fun s => OnWire s.gfx) hok hstep
      (onWire_initial hsize hi)
    obtain ⟨q, hq, hbad⟩ := unfit_step hw hg hx hs
    exact hbad (hsame q (requests_run hrest hq))
  · intro hfit
    have hok : ∀ x ∈ tr, SmallArgs x.2 ∧ GrowthFits x.1 x.2 :=
      fun x hx => ⟨hargs x hx, hfit x hx⟩
    have hg : OnWire t.gfx := hr.invariant_of (I := fun s => OnWire s.gfx) hok hstep
      (onWire_initial hsize hi)
    exact hg.sent

instance (a : PoolCall w) : Decidable (SmallArgs a) :=
  match a with
  | .allocate _ width height stride _ => inferInstanceAs (Decidable
      (width.toNat < 2 ^ 31 ∧ height.toNat < 2 ^ 31 ∧ stride.toNat < 2 ^ 31))
  | .deallocate _ => isTrue trivial

/-- The sizes of the request all fit `int32_t`. -/
def Request.fits (q : Request w) : Bool := q.sizeArgs.all fun x => decide (x.toNat < 2 ^ 31)

theorem Request.fits_iff (q : Request w) : q.fits = true ↔ q.SameOnWire := by
  simp only [Request.fits, Request.SameOnWire, toInt32_eq_iff, List.all_eq_true, decide_eq_true_eq]

/-- A pool of 64 bytes grows to 128 and then to 512. -/
theorem wire_sizes_grown : ∃ tr t, (poolSystem 64).Run (startedPool 64 64) tr t ∧
    t.gfx.pool.poolCapacity = 512 ∧ ∀ x ∈ tr, GrowthFits x.1 x.2 := by
  obtain ⟨tr, t, hr, hp⟩ := executed_run 64
    [.allocate (answersAt 0) 8 3 32, .allocate (answersAt 1) 16 4 64]
    (fun tr t => decide (t.gfx.pool.poolCapacity = 512 ∧ ∀ x ∈ tr, SmallArgs x.2) &&
      t.gfx.os.requests.all Request.fits) (by decide)
  simp only [Bool.and_eq_true, decide_eq_true_eq, List.all_eq_true, Request.fits_iff] at hp
  obtain ⟨⟨hcap, hargs⟩, hsame⟩ := hp
  exact ⟨tr, t, hr, hcap, (wire_sizes_iff (by decide) (by decide)
    (startedPool_initial (by decide)) hr hargs).mp hsame⟩

/-- A pool of 1 GiB asked for one row more doubles to 2 GiB, which is negative on the wire. -/
theorem wire_sizes_fail : ¬ ∀ (size : UsizeT 64) s t tr, size.toNat < 2 ^ 31 →
    PoolInitial size s → (poolSystem 64).Run s tr t → (∀ x ∈ tr, SmallArgs x.2) →
    ∀ q ∈ t.gfx.os.requests, q.SameOnWire := by
  intro hf
  obtain ⟨tr, t, hr, hp⟩ := executed_run 0x40000000
    [.allocate (answersAt 0) 16384 16385 65536]
    (fun tr t => decide (∀ x ∈ tr, SmallArgs x.2) &&
      t.gfx.os.requests.any fun q => !q.fits) (by decide)
  simp only [Bool.and_eq_true, decide_eq_true_eq, List.any_eq_true, Bool.not_eq_true'] at hp
  obtain ⟨hargs, q, hq, hbad⟩ := hp
  have hsame := hf _ _ t tr (by decide) (startedPool_initial (by decide)) hr hargs q hq
  simp [q.fits_iff.mpr hsame] at hbad

end Spaze
