import Spaze.SwapchainIdle

/-! A `swapchain_acquire` that returns NULL, and what becomes of the block it popped. -/
namespace Spaze

open Linked Runs

variable {w : ℕ} {ι : Type*} [DecidableEq ι] {get : Option Addr → Option Addr}
  {g : Gfx w} {sc : SwapchainS w} {s t : SwapState ι w} {a : SwapCall ι w} {k : ι} {b x : Addr}
  {r : Option Addr} {xs ys : List Addr} {tr : List (SwapState ι w × SwapCall ι w)}

/-- The block is in the chain: it is met from the head on along the `next` words. -/
def InChain (g : Gfx w) (sc : SwapchainS w) (b : Addr) : Prop :=
  Reach (nexts g.links) sc.chain.head b

theorem ListRep.inChain_iff (h : ListRep g.links sc.chain xs) : InChain g sc b ↔ b ∈ xs := by
  rw [InChain, h.head]
  exact ⟨h.seg.of_reach_next, h.seg.reach_next⟩

/-- The front block is popped whether it is busy or not; if it is, it is not returned. -/
theorem ListRep.acquire (h : ListRep g.links sc.chain (x :: xs)) (hget : ShmBlockGet get)
    (halive : sc.alive = true) : ∃ g' sc',
      swapchainAcquire get g sc =
        .ok (g', sc', if (g.blocks x).busy then none else some x) ∧
      ListRep g'.links sc'.chain xs := by
  have hfront : ListRep g.links sc.chain ([] ++ x :: xs) := h
  refine ⟨{ g with links := (listRemove g.links sc.chain x).1 },
    { sc with chain := (listRemove g.links sc.chain x).2 }, ?_, hfront.remove⟩
  simp only [swapchainAcquire, halive, assert_true, h.popFront_cons, hget.ofLink, Bind.bind,
    Except.bind, Pure.pure, Except.pure]
  split <;> simp_all

/-- A call leaves the set of blocks in the chain alone when it returns NULL, which it only does
when the front block is busy. -/
theorem ListRep.acquire_null_iff (h : ListRep g.links sc.chain (x :: xs)) (hget : ShmBlockGet get)
    (halive : sc.alive = true) :
    (∀ g' sc', swapchainAcquire get g sc = .ok (g', sc', none) →
      ∀ b, InChain g' sc' b ↔ InChain g sc b) ↔ (g.blocks x).busy = false := by
  obtain ⟨g', sc', hcall, hrep⟩ := h.acquire hget halive
  have hx : x ∉ xs := (List.nodup_cons.mp h.nodup).1
  constructor
  · intro hsame
    by_contra hbusy
    rw [if_pos (by simpa using hbusy)] at hcall
    have hin := (hsame g' sc' hcall x).mpr (h.inChain_iff.mpr List.mem_cons_self)
    exact hx (hrep.inChain_iff.mp hin)
  · intro hidle g₁ sc₁ hnull
    rw [hcall, hidle] at hnull
    cases hnull

/-! ## Runs of one chain -/

/-- The calls on one swapchain and the events that change a busy flag. -/
def ChainCall (k : ι) (s : SwapState ι w) : SwapCall ι w → Prop
  | .acquire j _ => j = k
  | .reclaim j block => j = k ∧ block ∈ s.held
  | .attach _ => True
  | .release _ => True
  | _ => False

/-- The chain is a well formed list of blocks that the client does not hold. -/
structure Chained (s : SwapState ι w) (k : ι) (xs : List Addr) : Prop where
  rep : ListRep s.gfx.links (s.swapchains k).chain xs
  notHeld : ∀ b ∈ xs, b ∉ s.held

def chainSystem (get : Option Addr → Option Addr) (w : ℕ) (k : ι) :
    System (SwapState ι w) (SwapCall ι w) where
  initial s := ∃ xs, Chained s k xs
  step s a t := ChainCall k s a ∧ SwapStep get s a t

/-- At an acquire the front block is not busy, if there is one. -/
def IdleFront (s : SwapState ι w) : SwapCall ι w → Prop
  | .acquire k _ => ∀ b ∈ (s.swapchains k).chain.head, Idle s b
  | _ => True

/-- What a step does to the blocks in the chain and to those held. -/
structure Moved (k : ι) (s : SwapState ι w) (a : SwapCall ι w) (t : SwapState ι w)
    (xs ys : List Addr) : Prop where
  chained : Chained t k ys
  source : ∀ b ∈ ys, b ∈ xs ∨ a = .reclaim k b
  reclaimed : ∀ b, a = .reclaim k b → b ∈ ys
  kept : IdleFront s a → ∀ b, b ∈ xs ∨ b ∈ s.held → b ∈ ys ∨ b ∈ t.held
  lost : ¬ IdleFront s a → ∃ b ∈ xs, b ∉ ys ∧ b ∉ t.held

omit [DecidableEq ι] in
theorem Chained.idleFront_iff (h : Chained s k (x :: xs)) :
    IdleFront s (.acquire k r) ↔ (s.gfx.blocks x).busy = false := by
  have hhead : (s.swapchains k).chain.head = some x := h.rep.head
  simp [IdleFront, hhead, Idle]

theorem Chained.acquire {g : Gfx w} {sc : SwapchainS w} (h : Chained s k xs)
    (hget : ShmBlockGet get)
    (hcall : swapchainAcquire get s.gfx (s.swapchains k) = .ok (g, sc, r)) :
    ∃ ys, Moved k s (.acquire k r)
      ⟨g, Function.update s.swapchains k sc, receive s.held r⟩ xs ys := by
  obtain ⟨x, xs, rfl, hacquired⟩ := h.rep.acquired hget hcall
  have hfront : ListRep s.gfx.links (s.swapchains k).chain ([] ++ x :: xs) := h.rep
  have hrep := hfront.remove
  have hreceive : ∀ b ∈ receive s.held r, b = x ∨ b ∈ s.held :=
    fun _ hb => hacquired.mem_receive hb
  obtain ⟨rfl, rfl, hresult⟩ := hacquired
  obtain ⟨hx, _⟩ := List.nodup_cons.mp h.rep.nodup
  have hheld : x ∉ s.held := h.notHeld x List.mem_cons_self
  have hrest : ∀ b ∈ xs, b ∉ s.held := fun b hb => h.notHeld b (List.mem_cons_of_mem _ hb)
  have hidle := h.idleFront_iff (r := r)
  refine ⟨xs, ⟨by simpa using hrep, ?_⟩, ?_, nofun, ?_, ?_⟩
  · intro b hb hm
    rcases hreceive b hm with rfl | hm
    · exact hx hb
    · exact hrest b hb hm
  · exact fun b hb => Or.inl (List.mem_cons_of_mem _ hb)
  · intro hfree b hb
    rw [hidle.mp hfree] at hresult
    obtain rfl : r = some x := hresult
    rcases hb with hb | hb
    · rcases List.mem_cons.mp hb with rfl | hb
      · exact Or.inr (Finset.mem_insert_self _ _)
      · exact Or.inl hb
    · exact Or.inr (Finset.mem_insert_of_mem hb)
  · intro hbusy
    rw [hidle, Bool.not_eq_false] at hbusy
    rw [hbusy] at hresult
    obtain rfl : r = none := hresult
    exact ⟨x, List.mem_cons_self, hx, hheld⟩

theorem Chained.reclaim (h : Chained s k xs) (hb : b ∈ s.held)
    (hclean : CleanCall s (.reclaim k b)) : Moved k s (.reclaim k b)
      ⟨(swapchainReclaim s.gfx (s.swapchains k) b).1,
        Function.update s.swapchains k (swapchainReclaim s.gfx (s.swapchains k) b).2,
        s.held.erase b⟩ xs (xs ++ [b]) := by
  have hnot : b ∉ xs := fun hm => h.notHeld b hm hb
  have hpush := h.rep.push hnot hclean
  refine ⟨⟨by simpa [swapchainReclaim] using hpush, ?_⟩, ?_, ?_, ?_, fun hi => absurd trivial hi⟩
  · intro c hc hm
    obtain ⟨hne, hm⟩ := Finset.mem_erase.mp hm
    rcases List.mem_append.mp hc with hc | hc
    · exact h.notHeld c hc hm
    · exact hne (List.mem_singleton.mp hc)
  · intro c hc
    rcases List.mem_append.mp hc with hc | hc
    · exact Or.inl hc
    · exact Or.inr (by rw [List.mem_singleton.mp hc])
  · rintro c ⟨⟩
    simp
  · rintro _ c (hc | hc)
    · exact Or.inl (List.mem_append_left _ hc)
    · by_cases he : c = b
      · exact Or.inl (by simp [he])
      · exact Or.inr (Finset.mem_erase.mpr ⟨he, hc⟩)

omit [DecidableEq ι] in
/-- An event writes a busy flag only. -/
theorem Chained.event (h : Chained s k xs) (hlinks : t.gfx.links = s.gfx.links)
    (hchains : t.swapchains = s.swapchains) (hheld : t.held = s.held)
    (hnot : ∀ b, a ≠ .reclaim k b) (hidle : IdleFront s a) : Moved k s a t xs xs := by
  refine ⟨⟨?_, ?_⟩, fun b hb => Or.inl hb, fun b hb => absurd hb (hnot b), ?_, ?_⟩
  · rw [hlinks, hchains]
    exact h.rep
  · rw [hheld]
    exact h.notHeld
  · rw [hheld]
    exact fun _ b hb => hb
  · exact fun hi => absurd hidle hi

theorem Chained.step (h : Chained s k xs) (hget : ShmBlockGet get) (hclean : CleanCall s a)
    (hs : (chainSystem get w k).step s a t) : ∃ ys, Moved k s a t xs ys := by
  obtain ⟨hcall, hs⟩ := hs
  cases hs with
  | init | allocate | deallocate | resize => exact hcall.elim
  | acquire hpop =>
    obtain rfl := hcall
    exact h.acquire hget hpop
  | reclaim =>
    obtain ⟨rfl, hb⟩ := hcall
    exact ⟨_, h.reclaim hb hclean⟩
  | attach => exact ⟨xs, h.event rfl rfl rfl nofun trivial⟩
  | release => exact ⟨xs, h.event rfl rfl rfl nofun trivial⟩

/-! ## Blocks are conserved -/

/-- The blocks put into the chain so far: those it began with and those reclaimed since. -/
def Reclaimed (k : ι) (s : SwapState ι w) (tr : List (SwapState ι w × SwapCall ι w)) (b : Addr) :
    Prop :=
  InChain s.gfx (s.swapchains k) b ∨ .reclaim k b ∈ labels tr

/-- Every block put into the chain so far is in the chain or held. -/
def Conserved (k : ι) (s : SwapState ι w) (tr : List (SwapState ι w × SwapCall ι w))
    (t : SwapState ι w) : Prop :=
  ∀ b, Reclaimed k s tr b → InChain t.gfx (t.swapchains k) b ∨ b ∈ t.held

omit [DecidableEq ι] in
theorem reclaimed_snoc {u : SwapState ι w} :
    Reclaimed k s (tr ++ [(u, a)]) b ↔ Reclaimed k s tr b ∨ a = .reclaim k b := by
  simp [Reclaimed, or_assoc, eq_comm]

/-- What holds of a run all of whose reclaims into an empty chain are of unlinked blocks. -/
structure ChainRun (k : ι) (s : SwapState ι w) (tr : List (SwapState ι w × SwapCall ι w))
    (t : SwapState ι w) (xs : List Addr) : Prop where
  chained : Chained t k xs
  source : ∀ b ∈ xs, Reclaimed k s tr b
  kept : (∀ x ∈ tr, IdleFront x.1 x.2) → ∀ b, Reclaimed k s tr b → b ∈ xs ∨ b ∈ t.held

theorem chainRun (hget : ShmBlockGet get) (hi : (chainSystem get w k).initial s)
    (hr : (chainSystem get w k).Run s tr t) (hclean : ∀ x ∈ tr, CleanCall x.1 x.2) :
    ∃ xs, ChainRun k s tr t xs := by
  revert hclean
  refine hr.history (I := fun tr t => (∀ x ∈ tr, CleanCall x.1 x.2) → ∃ xs, ChainRun k s tr t xs)
    ?_ ?_
  · intro tr u a v ih hs hclean
    obtain ⟨xs, hu⟩ := ih fun x hx => hclean x (by simp [hx])
    obtain ⟨ys, hm⟩ := hu.chained.step hget (hclean (u, a) (by simp)) hs
    refine ⟨ys, hm.chained, ?_, ?_⟩
    · intro b hb
      apply reclaimed_snoc.mpr
      exact (hm.source b hb).imp (hu.source b) id
    · intro hidle b hb
      have hfront : IdleFront u a := hidle (u, a) (by simp)
      rcases reclaimed_snoc.mp hb with hb | hb
      · exact hm.kept hfront b (hu.kept (fun x hx => hidle x (by simp [hx])) b hb)
      · exact Or.inl (hm.reclaimed b hb)
  · intro _
    obtain ⟨xs, h⟩ := hi
    have hstart : ∀ b, Reclaimed k s [] b ↔ b ∈ xs := by
      intro b
      simp [Reclaimed, labels, h.rep.inChain_iff]
    exact ⟨xs, h, fun b hb => (hstart b).mpr hb, fun _ b hb => Or.inl ((hstart b).mp hb)⟩

/-- The blocks are conserved all along the run exactly when no acquire is refused. -/
theorem conserved_iff (hget : ShmBlockGet get) (hi : (chainSystem get w k).initial s)
    (hr : (chainSystem get w k).Run s tr t) (hclean : ∀ x ∈ tr, CleanCall x.1 x.2) :
    (∀ l r u, tr = l ++ r → (chainSystem get w k).Run s l u → (chainSystem get w k).Run u r t →
        Conserved k s l u) ↔ ∀ x ∈ tr, IdleFront x.1 x.2 := by
  constructor
  · intro hcons x hx
    by_contra hbusy
    obtain ⟨l, r, rfl⟩ := List.append_of_mem hx
    obtain ⟨v, hl, hs, hrest⟩ := hr.split
    obtain ⟨xs, hu⟩ := chainRun hget hi hl fun y hy => hclean y (by simp [hy])
    obtain ⟨ys, hm⟩ := hu.chained.step hget (hclean x (by simp)) hs
    obtain ⟨b, hb, hys, hheld⟩ := hm.lost hbusy
    have hput : Reclaimed k s (l ++ [x]) b := reclaimed_snoc.mpr (Or.inl (hu.source b hb))
    rcases hcons (l ++ [x]) r v (by simp) (.snoc hl hs) hrest b hput with hin | hin
    · exact hys (hm.chained.rep.inChain_iff.mp hin)
    · exact hheld hin
  · rintro hidle l r u rfl hl _ b hb
    obtain ⟨xs, hu⟩ := chainRun hget hi hl fun y hy => hclean y (by simp [hy])
    exact (hu.kept (fun y hy => hidle y (by simp [hy])) b hb).imp hu.chained.rep.inChain_iff.mpr id

/-- A call leaves the set of blocks in the chain alone when it returns NULL exactly when the
front block is not busy; and a run conserves the blocks exactly when it acquires no chain with
a busy front. -/
theorem refused_keeps_iff (hget : ShmBlockGet get) (k : ι) :
    (∀ (g : Gfx w) sc x xs, sc.alive = true → ListRep g.links sc.chain (x :: xs) →
      ((∀ g' sc', swapchainAcquire get g sc = .ok (g', sc', none) →
        ∀ b, InChain g' sc' b ↔ InChain g sc b) ↔ (g.blocks x).busy = false)) ∧
    (∀ s tr t, (chainSystem get w k).initial s → (chainSystem get w k).Run s tr t →
      (∀ x ∈ tr, CleanCall x.1 x.2) →
      ((∀ l r u, tr = l ++ r → (chainSystem get w k).Run s l u →
        (chainSystem get w k).Run u r t → Conserved k s l u) ↔ ∀ x ∈ tr, IdleFront x.1 x.2)) :=
  ⟨fun _ _ _ _ halive h => h.acquire_null_iff hget halive,
    fun _ _ _ hi hr hclean => conserved_iff hget hi hr hclean⟩

/-! ## Two swapchains -/

theorem chain_run_of (hr : (swapSystem get ι w).Run s tr t)
    (hcall : ∀ x ∈ tr, ChainCall k x.1 x.2) : (chainSystem get w k).Run s tr t := by
  induction hr with
  | nil => exact .nil _
  | snoc _ hs ih =>
    exact .snoc (ih fun x hx => hcall x (by simp [hx])) ⟨hcall (_, _) (by simp), hs⟩

instance (s : SwapState ι w) (a : SwapCall ι w) : Decidable (ChainCall k s a) :=
  match a with
  | .acquire j _ => inferInstanceAs (Decidable (j = k))
  | .reclaim j block => inferInstanceAs (Decidable (j = k ∧ block ∈ s.held))
  | .attach _ | .release _ => isTrue trivial
  | .init .. | .allocate .. | .deallocate _ | .resize .. => isFalse id

instance (s : SwapState ι w) (a : SwapCall ι w) : Decidable (IdleFront s a) :=
  match a with
  | .acquire k _ => inferInstanceAs (Decidable (∀ b ∈ (s.swapchains k).chain.head, Idle s b))
  | .init .. | .allocate .. | .deallocate _ | .reclaim .. | .resize .. | .attach _
  | .release _ => isTrue trivial

/-- A swapchain with an empty chain and a client that holds two blocks. -/
def twoHeld : SwapState Unit 64 where
  gfx := (startedPool 64 4096).gfx
  swapchains _ := swapchainInit 4 4
  held := {0, 1}

theorem twoHeld_initial : (chainSystem id 64 ()).initial twoHeld :=
  ⟨[], listRep_zero _, by simp⟩

/-- A live swapchain with one block in its chain. -/
def oneInChain : SwapchainS 64 := { swapchainInit 4 4 with chain := ⟨some 0, some 0⟩ }

/-- A chain of one idle block, and a run that acquires and reclaims. -/
theorem refused_keeps_reclaimed :
    (∀ g' sc', swapchainAcquire id twoHeld.gfx oneInChain = .ok (g', sc', none) →
      ∀ b, InChain g' sc' b ↔ InChain twoHeld.gfx oneInChain b) ∧
    ∃ tr t, (chainSystem id 64 ()).Run twoHeld tr t ∧ tr.length = 6 ∧
      Conserved () twoHeld tr t := by
  obtain ⟨hone, hruns⟩ := refused_keeps_iff (w := 64) shmBlockGet_id ()
  constructor
  · exact (hone twoHeld.gfx oneInChain 0 [] rfl ⟨⟨rfl, rfl, trivial⟩, rfl, rfl⟩).mpr rfl
  · obtain ⟨tr, t, hr, hp⟩ := executed_swap twoHeld
      [.reclaim () 0, .reclaim () 1, .acquire () none, .attach 0, .release 0, .reclaim () 0]
      (fun tr _ => tr.length == 6 && tr.all fun x => decide (ChainCall () x.1 x.2) &&
        decide (CleanCall x.1 x.2) && decide (IdleFront x.1 x.2)) (by decide)
    simp only [Bool.and_eq_true, beq_iff_eq, List.all_eq_true, decide_eq_true_eq] at hp
    obtain ⟨hlen, hok⟩ := hp
    have hrun := chain_run_of hr fun x hx => (hok x hx).1.1
    have hcons := (hruns _ _ _ twoHeld_initial hrun fun x hx => (hok x hx).1.2).mpr
      fun x hx => (hok x hx).2
    exact ⟨tr, t, hrun, hlen, hcons tr [] t (by simp) hrun (.nil t)⟩

/-- A block that the compositor uses is popped and not returned: it is in no list any more. -/
theorem refused_keeps_fails : ¬ ∀ (g : Gfx 64) (sc : SwapchainS 64) x xs g' sc',
    sc.alive = true → ListRep g.links sc.chain (x :: xs) →
    swapchainAcquire id g sc = .ok (g', sc', none) →
    ∀ b, InChain g' sc' b ↔ InChain g sc b := by
  intro hf
  have hsame := hf (attachBlock twoHeld.gfx 0) oneInChain 0 [] _ _ rfl
    ⟨⟨rfl, rfl, trivial⟩, rfl, rfl⟩ rfl 0
  exact not_reach_none (hsame.mpr (.start rfl))

end Spaze
