import Spaze.PoolRuns

/-!
`shm_pool_init` in many processes, which all open their memory under one name.

Objects are numbered in the order in which they are made. A process may stop before any of
its steps.
-/
namespace Spaze

open Runs

variable {ι : Type} {w : ℕ}

/-- Objects of shared memory. -/
abbrev ShmObj := ℕ

/-- What the names refer to, and how many objects have been made. -/
structure ShmNames where
  object : String → Option ShmObj
  made : ℕ

/-- The flags of `shm_open` that decide what it does about the name. -/
structure OFlags where
  creat : Bool
  excl : Bool

/-- `SHM_OFLAGS`. -/
def shmOflags : OFlags := ⟨true, true⟩

/-- `SHM_NAME`. -/
def shmName : String := "/spaze"

/-- `shm_open`, which fails for the name only. -/
def ShmNames.shmOpen (names : ShmNames) (name : String) (oflags : OFlags) :
    Option (ShmNames × ShmObj) :=
  match names.object name with
  | some obj => if oflags.creat && oflags.excl then none else some (names, obj)
  | none =>
    if oflags.creat then
      some (⟨Function.update names.object name (some names.made), names.made + 1⟩, names.made)
    else none

/-- `shm_unlink`, with the object that the name referred to. -/
def ShmNames.shmUnlink (names : ShmNames) (name : String) : ShmNames × Option ShmObj :=
  ({ names with object := Function.update names.object name none }, names.object name)

/-- How far a process is in `shm_pool_init`. -/
inductive InitPhase
  | start
  | opened (fd : Fd) (obj : ShmObj)
  | unlinked (fd : Fd) (obj : ShmObj)
  | refused (err : ShmPoolErrorE)
  | returned (fd : Fd) (obj : ShmObj) (err : ShmPoolErrorE)

/-- The process is between its `shm_open` and its `shm_unlink`. -/
def InitPhase.between : InitPhase → Bool
  | .opened .. => true
  | .start | .unlinked .. | .refused _ | .returned .. => false

/-- The object that the process has opened. -/
def InitPhase.object : InitPhase → Option ShmObj
  | .opened _ obj | .unlinked _ obj | .returned _ obj _ => some obj
  | .start | .refused _ => none

/-- The name space, and the processes: how far each is, whether it has stopped, and its pool. -/
structure ShmState (ι : Type) (w : ℕ) where
  names : ShmNames
  phase : ι → InitPhase
  stopped : ι → Bool
  gfx : ι → Gfx w

/-- The steps of a process: its two calls with what they return or remove, the return of
`shm_pool_init`, and its end. -/
inductive InitCall (ι : Type)
  | opens (p : ι) (fd : Fd) (obj : ShmObj)
  | refused (p : ι) (err : ShmPoolErrorE)
  | unlinks (p : ι) (removed : Option ShmObj)
  | returns (p : ι) (obj : ShmObj) (err : ShmPoolErrorE)
  | stops (p : ι)

/-- One step of one process, where `capacity` is what each asks for. -/
inductive InitStep [DecidableEq ι] (capacity : ι → UsizeT w) :
    ShmState ι w → InitCall ι → ShmState ι w → Prop
  | opens {s : ShmState ι w} {p : ι} {names : ShmNames} {fd : Fd} {obj : ShmObj}
      (hrun : s.stopped p = false) (hphase : s.phase p = .start) (hcapacity : capacity p > 0)
      (h : s.names.shmOpen shmName shmOflags = some (names, obj)) :
      InitStep capacity s (.opens p fd obj)
        { s with names := names, phase := Function.update s.phase p (.opened fd obj) }
  | refused {s : ShmState ι w} {p : ι} {ans : InitAnswers} {g : Gfx w} {err : ShmPoolErrorE}
      (hrun : s.stopped p = false) (hphase : s.phase p = .start)
      (h : s.names.shmOpen shmName shmOflags = none) (hans : ans.shmOpen = none)
      (hret : shmPoolInit ans (s.gfx p) (capacity p) = .ok (g, err)) :
      InitStep capacity s (.refused p err)
        { s with
          phase := Function.update s.phase p (.refused err)
          gfx := Function.update s.gfx p g }
  | unlinks {s : ShmState ι w} {p : ι} {fd : Fd} {obj : ShmObj}
      (hrun : s.stopped p = false) (hphase : s.phase p = .opened fd obj) :
      InitStep capacity s (.unlinks p (s.names.shmUnlink shmName).2)
        { s with
          names := (s.names.shmUnlink shmName).1
          phase := Function.update s.phase p (.unlinked fd obj) }
  | returns {s : ShmState ι w} {p : ι} {fd : Fd} {obj : ShmObj} {ans : InitAnswers} {g : Gfx w}
      {err : ShmPoolErrorE} (hrun : s.stopped p = false) (hphase : s.phase p = .unlinked fd obj)
      (hans : ans.shmOpen = some fd)
      (hret : shmPoolInit ans (s.gfx p) (capacity p) = .ok (g, err)) :
      InitStep capacity s (.returns p obj err)
        { s with
          phase := Function.update s.phase p (.returned fd obj err)
          gfx := Function.update s.gfx p g }
  | stops {s : ShmState ι w} (p : ι) :
      InitStep capacity s (.stops p) { s with stopped := Function.update s.stopped p true }

/-- No process has called `shm_pool_init` yet, and nothing has the name. -/
def initSystem [DecidableEq ι] (capacity : ι → UsizeT w) :
    System (ShmState ι w) (InitCall ι) where
  initial s := (∀ p, s.phase p = .start) ∧ s.names.object shmName = none
  step := InitStep capacity

/-- The process opened the object with this descriptor and no other process opened it; it
removed its name and no other process did. -/
structure Owns (calls : List (InitCall ι)) (p : ι) (fd : Fd) (obj : ShmObj) : Prop where
  opened : .opens p fd obj ∈ calls
  alone : ∀ q fd', .opens q fd' obj ∈ calls → q = p
  removed : .unlinks p (some obj) ∈ calls
  removedAlone : ∀ q, .unlinks q (some obj) ∈ calls → q = p

/-- No process is refused, and every one that succeeds owns the object of its pool. -/
def Isolated (tr : List (ShmState ι w × InitCall ι)) (t : ShmState ι w) : Prop :=
  (∀ p err, .refused p err ∉ labels tr) ∧
    ∀ p obj, .returns p obj .ok ∈ labels tr → Owns (labels tr) p (t.gfx p).pool.fd obj

/-- The process whose `shm_open` this is. -/
def InitCall.opener : InitCall ι → Option ι
  | .opens p _ _ | .refused p _ => some p
  | .unlinks .. | .returns .. | .stops _ => none

/-- While a process calls `shm_open`, no other one is between its `shm_open` and its
`shm_unlink`. -/
def OpensAlone (s : ShmState ι w) (a : InitCall ι) : Prop :=
  ∀ p, a.opener = some p → ∀ q ≠ p, (s.phase q).between = false

variable {names names' : ShmNames} {p q : ι} {fd fd' : Fd} {obj obj' : ShmObj} {b : InitPhase}
  {s t : ShmState ι w}

/-! ## The name -/

/-- With `SHM_OFLAGS` an object is only ever opened by making it, under a free name. -/
theorem shmOpen_eq_some (h : names.shmOpen shmName shmOflags = some (names', obj)) :
    names.object shmName = none ∧ obj = names.made ∧
      names' = ⟨Function.update names.object shmName (some obj), obj + 1⟩ := by
  unfold ShmNames.shmOpen at h
  split at h
  · cases h
  · rename_i hfree
    cases h
    exact ⟨hfree, rfl, rfl⟩

theorem shmOpen_eq_none (h : names.shmOpen shmName shmOflags = none) :
    ∃ obj, names.object shmName = some obj := by
  unfold ShmNames.shmOpen at h
  split at h
  · rename_i obj hobj
    exact ⟨obj, hobj⟩
  · cases h

/-- The name refers to the object of the process that is between its two calls, and to none
if there is no such process. Every process has an object of its own. -/
structure Apart (s : ShmState ι w) : Prop where
  named : ∀ p fd obj, s.phase p = .opened fd obj → s.names.object shmName = some obj
  holder : ∀ obj, s.names.object shmName = some obj → ∃ p fd, s.phase p = .opened fd obj
  distinct : ∀ p q obj, (s.phase p).object = some obj → (s.phase q).object = some obj → p = q
  made : ∀ p obj, (s.phase p).object = some obj → obj < s.names.made

theorem InitPhase.object_opened (hb : b = .opened fd obj) : b.object = some obj := by
  rw [hb]
  rfl

/-- At most one process is between its two calls. -/
theorem Apart.holder_unique (h : Apart s) (hp : s.phase p = .opened fd obj)
    (hq : s.phase q = .opened fd' obj') : p = q := by
  have hname := (h.named p fd obj hp).symm.trans (h.named q fd' obj' hq)
  obtain rfl := Option.some.inj hname
  exact h.distinct p q obj (InitPhase.object_opened hp) (InitPhase.object_opened hq)

/-- The `shm_unlink` of a process removes the object that it has opened. -/
theorem Apart.removed (h : Apart s) (hp : s.phase p = .opened fd obj) :
    (s.names.shmUnlink shmName).2 = some obj := h.named p fd obj hp

/-- A process is refused exactly while another one is between its two calls. -/
theorem refused_iff (h : Apart s) :
    s.names.shmOpen shmName shmOflags = none ↔ ∃ q, (s.phase q).between = true := by
  constructor
  · intro hopen
    obtain ⟨obj, hname⟩ := shmOpen_eq_none hopen
    obtain ⟨q, fd, hq⟩ := h.holder obj hname
    exact ⟨q, by rw [hq]; rfl⟩
  · rintro ⟨q, hq⟩
    cases hphase : s.phase q with
    | opened fd obj => simp [ShmNames.shmOpen, h.named q fd obj hphase, shmOflags]
    | start | unlinked | refused | returned =>
      rw [hphase] at hq
      cases hq

theorem Apart.shmOpen_free (h : Apart s) (hfree : ∀ q, (s.phase q).between = false) :
    ∃ names, s.names.shmOpen shmName shmOflags = some (names, s.names.made) := by
  cases hopen : s.names.shmOpen shmName shmOflags with
  | none =>
    obtain ⟨q, hq⟩ := (refused_iff h).mp hopen
    cases (hfree q).symm.trans hq
  | some opened =>
    obtain ⟨names, obj⟩ := opened
    obtain ⟨_, rfl, _⟩ := shmOpen_eq_some hopen
    exact ⟨names, rfl⟩

variable [DecidableEq ι]

/-- A process that keeps its object leaves all objects as they are. -/
theorem object_update (hb : b.object = (s.phase p).object) (q : ι) :
    (Function.update s.phase p b q).object = (s.phase q).object := by
  by_cases hq : q = p
  · rw [hq, Function.update_self, hb]
  · rw [Function.update_of_ne hq]

/-- A process that opens nothing, before its `shm_open` or after its `shm_unlink`. -/
theorem Apart.keep (h : Apart s) (hb : b.object = (s.phase p).object)
    (hbetween : b.between = false) (hp : (s.phase p).between = false)
    (hnames : t.names = s.names) (ht : t.phase = Function.update s.phase p b) : Apart t := by
  have hobject (q : ι) : (t.phase q).object = (s.phase q).object := by
    rw [ht, object_update hb]
  constructor
  · intro q fd obj hq
    rw [hnames]
    rw [ht] at hq
    rcases eq_or_ne q p with rfl | hne
    · rw [Function.update_self] at hq
      rw [hq] at hbetween
      cases hbetween
    · rw [Function.update_of_ne hne] at hq
      exact h.named q fd obj hq
  · intro obj hname
    rw [hnames] at hname
    obtain ⟨q, fd, hq⟩ := h.holder obj hname
    have hne : q ≠ p := by
      rintro rfl
      rw [hq] at hp
      cases hp
    exact ⟨q, fd, by rw [ht, Function.update_of_ne hne, hq]⟩
  · intro q q' obj hq hq'
    rw [hobject] at hq hq'
    exact h.distinct q q' obj hq hq'
  · intro q obj hq
    rw [hobject] at hq
    rw [hnames]
    exact h.made q obj hq

/-- After an `shm_open` the objects of the other processes are older than the one just made. -/
theorem Apart.object_opens (h : Apart s) (hobj : obj = s.names.made)
    (ht : t.phase = Function.update s.phase p (.opened fd obj))
    (hq : (t.phase q).object = some obj') :
    q = p ∧ obj' = obj ∨ q ≠ p ∧ obj' < obj ∧ t.phase q = s.phase q := by
  rw [ht] at hq
  rcases eq_or_ne q p with rfl | hne
  · rw [Function.update_self] at hq
    exact Or.inl ⟨rfl, (Option.some.inj hq).symm⟩
  · rw [Function.update_of_ne hne] at hq
    refine Or.inr ⟨hne, ?_, ?_⟩
    · rw [hobj]
      exact h.made q obj' hq
    · rw [ht, Function.update_of_ne hne]

theorem Apart.opens (h : Apart s) (hopen : s.names.shmOpen shmName shmOflags = some (names, obj))
    (hnames : t.names = names) (ht : t.phase = Function.update s.phase p (.opened fd obj)) :
    Apart t := by
  obtain ⟨hfree, hobj, hnew⟩ := shmOpen_eq_some hopen
  have hname : t.names.object shmName = some obj := by
    rw [hnames, hnew]
    exact Function.update_self shmName (some obj) s.names.object
  have hmade : t.names.made = obj + 1 := by
    rw [hnames, hnew]
  constructor
  · intro q fd' obj' hq
    rcases h.object_opens hobj ht (InitPhase.object_opened hq) with ⟨_, rfl⟩ | ⟨_, _, hkeep⟩
    · exact hname
    · cases (h.named q fd' obj' (hkeep.symm.trans hq)).symm.trans hfree
  · intro obj' hname'
    obtain rfl := Option.some.inj (hname.symm.trans hname')
    exact ⟨p, fd, by rw [ht, Function.update_self]⟩
  · intro q q' obj' hq hq'
    rcases h.object_opens hobj ht hq with ⟨rfl, hnew⟩ | ⟨_, hlt, hkeep⟩ <;>
      rcases h.object_opens hobj ht hq' with ⟨rfl, hnew'⟩ | ⟨_, hlt', hkeep'⟩
    · rfl
    · exact absurd hnew (Nat.ne_of_lt hlt')
    · exact absurd hnew' (Nat.ne_of_lt hlt)
    · rw [hkeep] at hq
      rw [hkeep'] at hq'
      exact h.distinct q q' obj' hq hq'
  · intro q obj' hq
    rw [hmade]
    rcases h.object_opens hobj ht hq with ⟨_, rfl⟩ | ⟨_, hlt, _⟩
    · exact Nat.lt_succ_self _
    · exact Nat.lt_succ_of_lt hlt

theorem Apart.unlinks (h : Apart s) (hp : s.phase p = .opened fd obj)
    (hnames : t.names = (s.names.shmUnlink shmName).1)
    (ht : t.phase = Function.update s.phase p (.unlinked fd obj)) : Apart t := by
  have hobject (q : ι) : (t.phase q).object = (s.phase q).object := by
    have hkeep : (InitPhase.unlinked fd obj).object = (s.phase p).object := by
      rw [hp]
      rfl
    rw [ht, object_update hkeep]
  have hfree : t.names.object shmName = none := by
    rw [hnames]
    exact Function.update_self shmName none s.names.object
  constructor
  · intro q fd' obj' hq
    rw [ht] at hq
    rcases eq_or_ne q p with rfl | hne
    · rw [Function.update_self] at hq
      cases hq
    · rw [Function.update_of_ne hne] at hq
      exact absurd (h.holder_unique hq hp) hne
  · intro obj' hname
    cases hfree.symm.trans hname
  · intro q q' obj' hq hq'
    rw [hobject] at hq hq'
    exact h.distinct q q' obj' hq hq'
  · intro q obj' hq
    rw [hobject] at hq
    rw [hnames]
    exact h.made q obj' hq

variable {capacity : ι → UsizeT w} {a : InitCall ι}

theorem apart_step (h : Apart s) (hs : (initSystem capacity).step s a t) : Apart t := by
  cases hs with
  | opens _ _ _ hopen => exact h.opens hopen rfl rfl
  | refused _ hphase => exact h.keep (by rw [hphase]; rfl) rfl (by rw [hphase]; rfl) rfl rfl
  | unlinks _ hphase => exact h.unlinks hphase rfl rfl
  | returns _ hphase => exact h.keep (by rw [hphase]; rfl) rfl (by rw [hphase]; rfl) rfl rfl
  | stops => exact ⟨h.named, h.holder, h.distinct, h.made⟩

theorem apart_initial (h : (initSystem capacity).initial s) : Apart s := by
  obtain ⟨hphase, hfree⟩ := h
  constructor
  · intro p fd obj hp
    cases (hphase p).symm.trans hp
  · intro obj hname
    cases hfree.symm.trans hname
  · intro p q obj hp
    rw [hphase p] at hp
    cases hp
  · intro p obj hp
    rw [hphase p] at hp
    cases hp

/-! ## What a process has done -/

/-- The process that takes the step; stopping is not a step of `shm_pool_init`. -/
def InitCall.process : InitCall ι → Option ι
  | .opens p .. | .refused p _ | .unlinks p _ | .returns p .. => some p
  | .stops _ => none

/-- The steps of one process so far. -/
def callsOf (tr : List (ShmState ι w × InitCall ι)) (p : ι) : List (InitCall ι) :=
  (labels tr).filter fun a => decide (a.process = some p)

/-- The steps that lead to a phase. -/
def InitPhase.calls (p : ι) : InitPhase → List (InitCall ι)
  | .start => []
  | .opened fd obj => [.opens p fd obj]
  | .unlinked fd obj => [.opens p fd obj, .unlinks p (some obj)]
  | .refused err => [.refused p err]
  | .returned fd obj err => [.opens p fd obj, .unlinks p (some obj), .returns p obj err]

/-- Every process has taken the steps that lead to its phase, in that order, and no others. -/
def Recorded (tr : List (ShmState ι w × InitCall ι)) (s : ShmState ι w) : Prop :=
  ∀ p, callsOf tr p = (s.phase p).calls p

variable {tr : List (ShmState ι w × InitCall ι)} {err : ShmPoolErrorE} {removed : Option ShmObj}

theorem callsOf_snoc (p : ι) : callsOf (tr ++ [(s, a)]) p =
    callsOf tr p ++ if a.process = some p then [a] else [] := by
  rw [callsOf, labels_snoc, List.filter_append, ← callsOf, List.filter_singleton]
  by_cases ha : a.process = some p <;> simp [ha]

theorem mem_callsOf (ha : a.process = some p) : a ∈ callsOf tr p ↔ a ∈ labels tr := by
  simp [callsOf, ha]

theorem Recorded.mem (h : Recorded tr s) (ha : a.process = some p) :
    a ∈ labels tr ↔ a ∈ (s.phase p).calls p := by
  rw [← h p, mem_callsOf ha]

theorem Recorded.step (h : Recorded tr s) (ha : a.process = some p)
    (hb : b.calls p = (s.phase p).calls p ++ [a])
    (ht : t.phase = Function.update s.phase p b) : Recorded (tr ++ [(s, a)]) t := by
  intro q
  rw [callsOf_snoc, h q, ha, ht]
  rcases eq_or_ne q p with rfl | hne
  · rw [if_pos rfl, Function.update_self, hb]
  · have hother : ¬ some p = some q := fun hq => hne (Option.some.inj hq).symm
    rw [if_neg hother, List.append_nil, Function.update_of_ne hne]

theorem recorded_step (hapart : Apart s) (h : Recorded tr s)
    (hs : (initSystem capacity).step s a t) : Recorded (tr ++ [(s, a)]) t := by
  cases hs with
  | opens _ hphase => exact h.step rfl (by rw [hphase]; rfl) rfl
  | refused _ hphase => exact h.step rfl (by rw [hphase]; rfl) rfl
  | unlinks _ hphase =>
    exact h.step rfl (by rw [hphase, hapart.removed hphase]; rfl) rfl
  | returns _ hphase => exact h.step rfl (by rw [hphase]; rfl) rfl
  | stops p =>
    intro q
    have hother : ¬ (InitCall.stops p).process = some q := by simp [InitCall.process]
    rw [callsOf_snoc, if_neg hother, List.append_nil]
    exact h q

/-- The pool of every process that has succeeded has the descriptor of its object. -/
def PoolsOpen (s : ShmState ι w) : Prop :=
  ∀ p fd obj, s.phase p = .returned fd obj .ok → (s.gfx p).pool.fd = fd

theorem PoolsOpen.step (h : PoolsOpen s)
    (hpool : ∀ fd obj, b = .returned fd obj .ok → (t.gfx p).pool.fd = fd)
    (ht : t.phase = Function.update s.phase p b) (hgfx : ∀ q ≠ p, t.gfx q = s.gfx q) :
    PoolsOpen t := by
  intro q fd obj hq
  rw [ht] at hq
  rcases eq_or_ne q p with rfl | hne
  · rw [Function.update_self] at hq
    exact hpool fd obj hq
  · rw [Function.update_of_ne hne] at hq
    rw [hgfx q hne]
    exact h q fd obj hq

theorem poolsOpen_step (h : PoolsOpen s) (hs : (initSystem capacity).step s a t) :
    PoolsOpen t := by
  cases hs with
  | opens | unlinks => exact h.step (fun _ _ hb => by cases hb) rfl fun _ _ => rfl
  | refused =>
    exact h.step (fun _ _ hb => by cases hb) rfl fun _ hne => Function.update_of_ne hne _ _
  | @returns p _ _ _ g _ _ _ hans hret =>
    refine h.step (fun fd obj hb => ?_) rfl fun _ hne => Function.update_of_ne hne _ _
    cases hb
    change (Function.update s.gfx p g p).pool.fd = _
    rw [Function.update_self]
    rcases shmPoolInit_cases hret with ⟨_, _, hfd⟩ | ⟨herr, _⟩
    · exact Option.some.inj (hfd.symm.trans hans)
    · exact absurd rfl herr
  | stops => exact h

/-- What holds after every run. -/
structure InitInvariant (tr : List (ShmState ι w × InitCall ι)) (s : ShmState ι w) : Prop where
  apart : Apart s
  recorded : Recorded tr s
  poolsOpen : PoolsOpen s

theorem initInvariant_run (h : (initSystem capacity).Trace tr t) : InitInvariant tr t := by
  obtain ⟨s, hi, hr⟩ := h
  refine hr.history ?_ ?_
  · intro tr s a t h hs
    exact ⟨apart_step h.apart hs, recorded_step h.apart h.recorded hs,
      poolsOpen_step h.poolsOpen hs⟩
  · refine ⟨apart_initial hi, ?_, ?_⟩
    · intro p
      rw [hi.1 p]
      rfl
    · intro p fd obj hp
      cases (hi.1 p).symm.trans hp

/-- In every state that a run passes through, names and objects are apart. -/
theorem apart_of_mem (h : (initSystem capacity).Trace tr t) {x : ShmState ι w × InitCall ι}
    (hx : x ∈ tr) : Apart x.1 ∧ ∃ v, InitStep capacity x.1 x.2 v := by
  obtain ⟨s, hi, hr⟩ := h
  have hstep : ∀ s a t, Apart s → True → (initSystem capacity).step s a t → Apart t :=
    fun _ _ _ h _ hs => apart_step h hs
  exact hr.invariant_mem (fun _ _ => trivial) hstep (apart_initial hi) hx

/-! ## Whole runs -/

theorem Recorded.object_of_opens (h : Recorded tr s) (ho : .opens p fd obj ∈ labels tr) :
    (s.phase p).object = some obj := by
  rw [h.mem rfl] at ho
  cases hp : s.phase p with
  | start | refused => simp [hp, InitPhase.calls] at ho
  | opened | unlinked | returned => simp_all [InitPhase.calls, InitPhase.object]

theorem Recorded.object_of_unlinks (h : Recorded tr s)
    (hu : .unlinks p (some obj) ∈ labels tr) : (s.phase p).object = some obj := by
  rw [h.mem rfl] at hu
  cases hp : s.phase p with
  | start | refused | opened => simp [hp, InitPhase.calls] at hu
  | unlinked | returned => simp_all [InitPhase.calls, InitPhase.object]

theorem Recorded.phase_of_returns (h : Recorded tr s) (hr : .returns p obj err ∈ labels tr) :
    ∃ fd, s.phase p = .returned fd obj err := by
  rw [h.mem rfl] at hr
  cases hp : s.phase p with
  | start | refused | opened | unlinked => simp [hp, InitPhase.calls] at hr
  | returned => simp_all [InitPhase.calls]

/-- Every process that succeeds owns the object of its pool, whatever the others do. -/
theorem owns_of_returns (h : InitInvariant tr t) (hr : .returns p obj .ok ∈ labels tr) :
    Owns (labels tr) p (t.gfx p).pool.fd obj := by
  obtain ⟨fd, hp⟩ := h.recorded.phase_of_returns hr
  have hobject : (t.phase p).object = some obj := by
    rw [hp]
    rfl
  rw [h.poolsOpen p fd obj hp]
  constructor
  · rw [h.recorded.mem rfl, hp]
    simp [InitPhase.calls]
  · intro q fd' hq
    exact h.apart.distinct q p obj (h.recorded.object_of_opens hq) hobject
  · rw [h.recorded.mem rfl, hp]
    simp [InitPhase.calls]
  · intro q hq
    exact h.apart.distinct q p obj (h.recorded.object_of_unlinks hq) hobject

/-- In any interleaving no process is refused and every one that succeeds owns an object of
its own, exactly when no process calls `shm_open` while another one, running or stopped, is
between its `shm_open` and its `shm_unlink`. -/
theorem isolated_iff (h : (initSystem capacity).Trace tr t) :
    Isolated tr t ↔ ∀ x ∈ tr, OpensAlone x.1 x.2 := by
  constructor
  · rintro ⟨hnone, _⟩ ⟨u, a⟩ hx p hp q hne
    obtain ⟨hapart, v, hs⟩ : Apart u ∧ ∃ v, InitStep capacity u a v := apart_of_mem h hx
    cases hs with
    | opens _ _ _ hopen =>
      by_contra hbetween
      have hrefuse := (refused_iff hapart).mpr ⟨q, by simpa using hbetween⟩
      cases hrefuse.symm.trans hopen
    | @refused p' _ _ err => exact absurd (List.mem_map_of_mem hx) (hnone p' err)
    | unlinks | returns | stops => cases hp
  · intro halone
    refine ⟨fun p err hmem' => ?_, fun p obj hreturns =>
      owns_of_returns (initInvariant_run h) hreturns⟩
    obtain ⟨⟨u, a⟩, hx, rfl⟩ := List.mem_map.mp hmem'
    obtain ⟨hapart, v, hs⟩ : Apart u ∧ ∃ v, InitStep capacity u (.refused p err) v :=
      apart_of_mem h hx
    cases hs with
    | refused _ hphase hopen =>
      obtain ⟨q, hq⟩ := (refused_iff hapart).mp hopen
      have hne : q ≠ p := by
        rintro rfl
        rw [hphase] at hq
        cases hq
      have hfree := halone _ hx p rfl q hne
      cases hfree.symm.trans hq

theorem stopped_step (hstop : s.stopped p = true) (hs : (initSystem capacity).step s a t) :
    t.phase p = s.phase p ∧ t.stopped p = true := by
  have hne {q : ι} (hrun : s.stopped q = false) : p ≠ q := by
    rintro rfl
    cases hstop.symm.trans hrun
  cases hs with
  | opens hrun | refused hrun | unlinks hrun | returns hrun =>
    exact ⟨Function.update_of_ne (hne hrun) _ _, hstop⟩
  | stops q =>
    refine ⟨rfl, ?_⟩
    rcases eq_or_ne p q with rfl | hq
    · exact Function.update_self p true s.stopped
    · exact (Function.update_of_ne hq _ _).trans hstop

/-- A process that stops between its two calls keeps the name: from then on all are refused. -/
theorem stopped_refuses {tr' : List (ShmState ι w × InitCall ι)}
    (h : (initSystem capacity).Trace tr s) (hp : s.phase p = .opened fd obj)
    (hstop : s.stopped p = true) (hr : (initSystem capacity).Run s tr' t) :
    ∀ q fd' obj', .opens q fd' obj' ∉ labels tr' := by
  have hstep : ∀ s a t,
      Apart s ∧ s.phase p = .opened fd obj ∧ s.stopped p = true → True →
      (initSystem capacity).step s a t →
      Apart t ∧ t.phase p = .opened fd obj ∧ t.stopped p = true := by
    rintro s a t ⟨hapart, hp, hstop⟩ - hs
    obtain ⟨hphase, hstop'⟩ := stopped_step hstop hs
    exact ⟨apart_step hapart hs, hphase.trans hp, hstop'⟩
  intro q fd' obj' hmem
  obtain ⟨⟨u, a⟩, hx, rfl⟩ := List.mem_map.mp hmem
  obtain ⟨⟨hapart, hp, _⟩, v, hs⟩ := hr.invariant_mem (fun _ _ => trivial) hstep
    ⟨(initInvariant_run h).apart, hp, hstop⟩ hx
  have hrefuse := (refused_iff hapart).mpr ⟨p, by rw [hp]; rfl⟩
  cases hs with
  | opens _ _ _ hopen => cases hrefuse.symm.trans hopen

theorem shmPoolInit_succeeds (g : Gfx w) {size : UsizeT w} (hsize : size > 0) (fd : Fd) :
    ∃ g', shmPoolInit ⟨some fd, true, some 0, some 0⟩ g size = .ok (g', .ok) := by
  have hassert : assert (decide (size > 0)) = .ok () := assert_eq_ok.mpr (decide_eq_true hsize)
  exact ⟨_, bind_eq_ok.mpr ⟨(), hassert, rfl⟩⟩

/-- A process that finds no other one between its two calls can go through `shm_pool_init`. -/
theorem init_alone (h : Apart s) (hrun : s.stopped p = false) (hphase : s.phase p = .start)
    (hcapacity : capacity p > 0) (hfree : ∀ q, (s.phase q).between = false) (fd : Fd) :
    ∃ tr t, (initSystem capacity).Run s tr t ∧
      labels tr = [.opens p fd s.names.made, .unlinks p (some s.names.made),
        .returns p s.names.made .ok] ∧
      (∀ x ∈ tr, OpensAlone x.1 x.2) ∧ t.stopped = s.stopped ∧
      t.phase = Function.update s.phase p (.returned fd s.names.made .ok) := by
  obtain ⟨names, hopen⟩ := h.shmOpen_free hfree
  obtain ⟨g, hg⟩ := shmPoolInit_succeeds (s.gfx p) hcapacity fd
  let s₁ : ShmState ι w :=
    { s with names := names, phase := Function.update s.phase p (.opened fd s.names.made) }
  have hp₁ : s₁.phase p = .opened fd s.names.made := Function.update_self _ _ _
  have hopens : InitStep capacity s (.opens p fd s.names.made) s₁ :=
    .opens hrun hphase hcapacity hopen
  let s₂ : ShmState ι w :=
    { s₁ with
      names := (s₁.names.shmUnlink shmName).1
      phase := Function.update s₁.phase p (.unlinked fd s.names.made) }
  have hp₂ : s₂.phase p = .unlinked fd s.names.made := Function.update_self _ _ _
  have hunlinks : InitStep capacity s₁ (.unlinks p (some s.names.made)) s₂ := by
    rw [← (apart_step h hopens).removed hp₁]
    exact .unlinks hrun hp₁
  let s₃ : ShmState ι w :=
    { s₂ with
      phase := Function.update s₂.phase p (.returned fd s.names.made .ok)
      gfx := Function.update s₂.gfx p g }
  have hreturns : InitStep capacity s₂ (.returns p s.names.made .ok) s₃ :=
    .returns hrun hp₂ rfl hg
  refine ⟨_, s₃, ((System.Run.single hopens).snoc hunlinks).snoc hreturns, rfl, ?_, rfl, ?_⟩
  · intro x hx q hq q' _
    simp only [List.cons_append, List.nil_append, List.mem_cons, List.not_mem_nil, or_false] at hx
    rcases hx with rfl | rfl | rfl
    · exact hfree q'
    · cases hq
    · cases hq
  · change Function.update (Function.update (Function.update s.phase p _) p _) p _ = _
    rw [Function.update_idem, Function.update_idem]

/-! ## Two processes -/

/-- Each process asks for one page. -/
def onePage (_ : Fin 2) : UsizeT 64 := 4096

/-- Nothing has happened yet. -/
def twoProcesses : ShmState (Fin 2) 64 where
  names := ⟨fun _ => none, 0⟩
  phase _ := .start
  stopped _ := false
  gfx _ := (startedPool 64 4096).gfx

theorem twoProcesses_initial : (initSystem onePage).initial twoProcesses :=
  ⟨fun _ => rfl, rfl⟩

theorem onePage_pos (p : Fin 2) : onePage p > 0 := by
  change (4096 : UsizeT 64) > 0
  decide

/-- One process after the other. -/
theorem isolated_sequential : ∃ tr t, (initSystem onePage).Trace tr t ∧ tr.length = 6 ∧
    Isolated tr t := by
  obtain ⟨tr, t, hr, hcalls, halone, hstopped, hphase⟩ := init_alone (p := 0)
    (apart_initial twoProcesses_initial) rfl rfl (onePage_pos 0) (fun _ => rfl) 3
  have hapart : Apart t := (initInvariant_run ⟨_, twoProcesses_initial, hr⟩).apart
  have hstart : t.phase 1 = .start := by
    rw [hphase]
    rfl
  have hrun : t.stopped 1 = false := by
    rw [hstopped]
    rfl
  have hfree (q : Fin 2) : (t.phase q).between = false := by
    rw [hphase]
    match q with
    | 0 => rfl
    | 1 => rfl
  obtain ⟨tr', t', hr', hcalls', halone', _⟩ :=
    init_alone hapart hrun hstart (onePage_pos 1) hfree 3
  have htrace : (initSystem onePage).Trace (tr ++ tr') t' :=
    ⟨_, twoProcesses_initial, hr.trans hr'⟩
  refine ⟨tr ++ tr', t', htrace, ?_, ?_⟩
  · have hlength := congrArg List.length hcalls
    have hlength' := congrArg List.length hcalls'
    simp only [labels, List.length_map, List.length_cons, List.length_nil] at hlength hlength'
    rw [List.length_append]
    omega
  · refine (isolated_iff htrace).mpr fun x hx => ?_
    rcases List.mem_append.mp hx with hx | hx
    · exact halone x hx
    · exact halone' x hx

/-- The first process has opened the memory and not yet removed its name. -/
def firstOpened : ShmState (Fin 2) 64 :=
  { twoProcesses with
    names := ⟨Function.update twoProcesses.names.object shmName (some 0), 1⟩
    phase := Function.update twoProcesses.phase 0 (.opened 3 0) }

/-- The second process opens before the first one has removed the name. -/
theorem isolated_fails : ¬ ∀ tr t, (initSystem onePage).Trace tr t → Isolated tr t := by
  intro hf
  have hopens : (initSystem onePage).step twoProcesses (.opens 0 3 0) firstOpened :=
    InitStep.opens rfl rfl (onePage_pos 0) rfl
  obtain ⟨g, hg⟩ : ∃ g, shmPoolInit ⟨none, true, none, none⟩ (firstOpened.gfx 1) (onePage 1) =
      .ok (g, .shmemOpenFailed) := ⟨_, rfl⟩
  have hrefused : (initSystem onePage).step firstOpened (.refused 1 .shmemOpenFailed) _ :=
    InitStep.refused rfl rfl rfl rfl hg
  have hrun := (System.Run.single hopens).snoc hrefused
  exact (hf _ _ ⟨_, twoProcesses_initial, hrun⟩).1 1 .shmemOpenFailed (by simp [labels])

end Spaze
