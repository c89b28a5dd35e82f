import Bigbird.FreshIds

/-! The reservation of ids: the batch task that `getNextId` schedules when `nextId` comes
near `maximum`, and what is left behind when one of its puts fails. -/
namespace Bigbird
namespace CommandQueue

open JavaText (wrap wrap_eq_self wrap_range)

variable {C V : Type} {codec : Codec C V}

def Thread.batch : Thread C → Bool
  | .getNextBatch _ => true
  | .batchPutMaximum _ _ => true
  | .batchReadMinimum _ _ => true
  | .batchPutMinimum _ _ _ => true
  | .batchSetMaximum _ => true
  | .clearGettingNextBatch => true
  | _ => false

/-- A maximum that a batch has computed and not assigned yet. -/
def Thread.newMaximum : Thread C → Option ℤ
  | .batchPutMaximum _ m => some m
  | .batchReadMinimum _ m => some m
  | .batchPutMinimum _ m _ => some m
  | .batchSetMaximum m => some m
  | _ => none

/-- A batch about to add the increment to the maximum. -/
def Thread.summing : Thread C → Bool
  | .getNextBatch _ => true
  | _ => false

def Thread.batchPut : Thread C → Bool
  | .batchPutMaximum _ _ => true
  | .batchPutMinimum _ _ _ => true
  | _ => false

/-- A batch between its put of `nodeName:maximum` and the assignment. -/
def Thread.batchStored : Thread C → Bool
  | .batchReadMinimum _ _ => true
  | .batchPutMinimum _ _ _ => true
  | .batchSetMaximum _ => true
  | _ => false

def Thread.shuttingDown : Thread C → Bool
  | .shutdown => true
  | .shutdownPutMaximum _ => true
  | _ => false

def Thread.loading : Thread C → Bool
  | .initializeMaximum => true
  | .initializeMinimum => true
  | _ => false

/-- The object when `initialize` has returned: without a stored maximum nothing is loaded,
otherwise the recovery loop is queued. -/
def State.initialized (increment threshold : ℤ) (store : Store V) : State C V :=
  let fields : Fields := { increment := increment, threshold := threshold }
  match store.maximum with
  | some m =>
    { shared := ⟨{ fields with maximum := m, minimum := store.minimum.getD 0 },store,[],[],[],[]⟩
      threads := [.recovery] }
  | none => { shared := ⟨fields,store,[],[],[],[]⟩, threads := [.initialized] }

def State.batches (s : State C V) : ℕ := s.threads.countP Thread.batch

theorem batches_of_step {s : State C V} (x : Shared C V) {i : ℕ} {t : Thread C} (t' : Thread C)
    (new : List (Thread C)) (ht : s.threads[i]? = some t) :
    State.batches ⟨x,s.threads.set i t' ++ new⟩ + (if t.batch then 1 else 0) =
      s.batches + (if t'.batch then 1 else 0) + new.countP Thread.batch := by
  obtain ⟨hi,rfl⟩ := List.getElem?_eq_some_iff.mp ht
  have hpos : s.threads[i].batch → 0 < s.threads.countP Thread.batch := fun hb =>
    List.countP_pos_iff.mpr ⟨_,List.getElem_mem hi,hb⟩
  simp only [State.batches,List.countP_append,List.countP_set hi]
  by_cases hb : s.threads[i].batch
  · have := hpos hb
    simp only [hb,if_true]
    omega
  · simp only [hb]
    simp

theorem two_le_batches {s : State C V} {t u : Thread C} (ht : t ∈ s.threads) (hu : u ∈ s.threads)
    (hbt : t.batch) (hbu : u.batch) (h : t ≠ u) : 2 ≤ s.batches := by
  have hsub : [t,u] ⊆ s.threads.filter Thread.batch := by
    simp [List.mem_filter,ht,hu,hbt,hbu]
  have hle := (List.subperm_of_subset (by simp [h]) hsub).length_le
  rwa [← List.countP_eq_length_filter] at hle

theorem Thread.batch_of_newMaximum {t : Thread C} {m : ℤ} (h : t.newMaximum = some m) : t.batch := by
  cases t <;> first | rfl | simp [Thread.newMaximum] at h

/-- Where there is one batch, a thread that goes on as one is the only one. -/
theorem eq_of_batch {x : Shared C V} {ts new : List (Thread C)} {i : ℕ} {t t' u : Thread C}
    (ht : ts[i]? = some t) (hle : State.batches (⟨x,ts.set i t' ++ new⟩ : State C V) ≤ 1)
    (ht' : t'.batch) (hu : u ∈ ts.set i t' ++ new) (hbu : u.batch) : u = t' := by
  by_contra hne
  have hmem : t' ∈ ts.set i t' ++ new :=
    List.mem_append_left _ (List.mem_set (List.getElem?_eq_some_iff.mp ht).1 _)
  have htwo := two_le_batches (s:=⟨x,_⟩) hu hmem hbu ht' hne
  omega

/-- A batch task comes into being with `getNextId` and ends by clearing the flag or by an
exception. -/
theorem step_batch {o : Outcome} {s : Shared C V} {t t' : Thread C} {a : Action C}
    {new : List (Thread C)} (h : t.Steps codec s o a t' new) :
    (a = .getNextId ∧ t.batch = false ∧ t'.batch = false ∧
      new.countP Thread.batch = if s.fields.needsBatch then 1 else 0) ∨
    (a = .clearGettingNextBatch ∧ t.batch ∧ t'.batch = false ∧ new = []) ∨
    (a ≠ .getNextId ∧ a ≠ .clearGettingNextBatch ∧ (t'.batch → t.batch) ∧
      new.countP Thread.batch = 0) := by
  cases h with
  | getNextId => cases hb : s.fields.needsBatch <;> simp [Thread.batch]
  | batchAgain h => rcases h with ⟨m,rfl⟩ | ⟨m,v,rfl⟩ <;> simp [Thread.batch]
  | batchRefused h => rcases h with ⟨m,rfl⟩ | ⟨m,v,rfl⟩ <;> simp [Thread.batch]
  | _ => simp [Thread.batch]

theorem step_newMaximum {o : Outcome} {s : Shared C V} {t t' : Thread C} {a : Action C}
    {new : List (Thread C)} (h : t.Steps codec s o a t' new) :
    (∀ m, t'.newMaximum = some m → (t.newMaximum = some m ∨ t.summing ∧ m = s.fields.newMaximum) ∧
      ∀ v, a ≠ .setMaximum v) ∧
    (∀ u ∈ new, u.newMaximum = none) ∧
    (∀ m, a = .setMaximum m → t.newMaximum = some m ∧ t' = .clearGettingNextBatch) := by
  cases h with
  | getNextId => cases hb : s.fields.needsBatch <;> simp [Thread.newMaximum]
  | batchAgain h => rcases h with ⟨m,rfl⟩ | ⟨m,v,rfl⟩ <;> simp [Thread.newMaximum]
  | batchRefused h => rcases h with ⟨m,rfl⟩ | ⟨m,v,rfl⟩ <;> simp [Thread.newMaximum]
  | getNextBatch => simp [Thread.newMaximum,Thread.summing]
  | _ => simp [Thread.newMaximum]

theorem step_loading {o : Outcome} {s : Shared C V} {t t' : Thread C} {a : Action C}
    {new : List (Thread C)} (h : t.Steps codec s o a t' new) :
    (t'.loading → t.loading) ∧ (∀ u ∈ new, u.loading = false) ∧
    (∀ v, a = .loadMaximum v → t.loading) := by
  cases h with
  | getNextId => cases hb : s.fields.needsBatch <;> simp [Thread.loading]
  | _ => simp [Thread.loading]

theorem loads_nothing {o : Outcome} {s : Shared C V} {t t' : Thread C} {a : Action C} {new : List (Thread C)}
    (h : t.Steps codec s o a t' new) (ht : t.loading = false) : ∀ v, a ≠ .loadMaximum v := by
  intro v hv
  have hloading := (step_loading h).2.2 v hv
  simp [ht] at hloading

theorem batchPut_fails {s : Shared C V} {t t' : Thread C} {a : Action C} {new : List (Thread C)}
    (h : t.Steps codec s .fails a t' new) (hput : t.batchPut) : t.batch ∧ a = .skip ∧ t' = .ended ∧ new = [] := by
  have hbatch : t.batch := by
    cases t <;> first | rfl | simp [Thread.batchPut] at hput
  cases h with
  | fails => exact ⟨hbatch,rfl,rfl,rfl⟩
  | _ => simp [Thread.batchPut] at hput

/-- One batch at a time: while the flag is down there is none, and the one there is will
assign the sum of the maximum and the increment. -/
structure OneBatch (s : State C V) : Prop where
  le_one : s.batches ≤ 1
  free : s.shared.fields.gettingNextBatch = false → s.batches = 0
  newMaximum : ∀ t ∈ s.threads, ∀ m, t.newMaximum = some m → m = s.shared.fields.newMaximum
  loaded : ∀ t ∈ s.threads, t.loading = false

theorem initialized_oneBatch (increment threshold : ℤ) (store : Store V) :
    OneBatch (State.initialized increment threshold store : State C V) := by
  unfold State.initialized
  split <;> constructor <;> simp [State.batches,Thread.batch,Thread.newMaximum,Thread.loading]

variable [DecidableEq C]

@[simp] theorem apply_increment (a : Action C) (s : Shared C V) :
    (a.apply codec s).fields.increment = s.fields.increment := by
  cases a <;> rfl

@[simp] theorem apply_threshold (a : Action C) (s : Shared C V) :
    (a.apply codec s).fields.threshold = s.fields.threshold := by
  cases a <;> rfl

theorem maximum_of_apply (codec : Codec C V) {a : Action C} (s : Shared C V) (hset : ∀ m, a ≠ .setMaximum m)
    (hload : ∀ m, a ≠ .loadMaximum m) :
    (a.apply codec s).fields.maximum = s.fields.maximum := by
  cases a with
  | setMaximum m => exact absurd rfl (hset m)
  | loadMaximum m => exact absurd rfl (hload m)
  | _ => rfl

theorem gettingNextBatch_of_apply (codec : Codec C V) {a : Action C} (s : Shared C V) (hid : a ≠ .getNextId)
    (hclear : a ≠ .clearGettingNextBatch) :
    (a.apply codec s).fields.gettingNextBatch = s.fields.gettingNextBatch := by
  cases a <;> first | rfl | contradiction

theorem newMaximum_of_step {P : ℤ → ℤ → ℤ → Prop} {s : State C V} {i : ℕ} {o : Outcome} {t t' : Thread C}
    {a : Action C} {new : List (Thread C)} (ht : s.threads[i]? = some t) (hs : t.Steps codec s.shared o a t' new)
    (hle : State.batches (⟨a.apply codec s.shared,s.threads.set i t' ++ new⟩ : State C V) ≤ 1)
    (hloaded : t.loading = false)
    (hold : ∀ u ∈ s.threads, ∀ m, u.newMaximum = some m → P s.shared.fields.maximum s.shared.fields.increment m)
    (hsum : t.summing → P s.shared.fields.maximum s.shared.fields.increment s.shared.fields.newMaximum) :
    ∀ u ∈ s.threads.set i t' ++ new, ∀ m, u.newMaximum = some m →
      P (a.apply codec s.shared).fields.maximum (a.apply codec s.shared).fields.increment m := by
  obtain ⟨hmax,hnewMax,hset⟩ := step_newMaximum hs
  intro u hu m hm
  by_cases hassign : ∃ v, a = .setMaximum v
  · obtain ⟨v,rfl⟩ := hassign
    obtain ⟨_,rfl⟩ := hset v rfl
    obtain rfl := eq_of_batch ht hle rfl hu (Thread.batch_of_newMaximum hm)
    simp [Thread.newMaximum] at hm
  · rw [maximum_of_apply codec _ (fun v hv => hassign ⟨v,hv⟩) (loads_nothing hs hloaded),apply_increment]
    rcases mem_threads hu with hu | rfl | hu
    · exact hold u hu m hm
    · rcases (hmax m hm).1 with hm | ⟨hsumming,rfl⟩
      · exact hold t (List.mem_of_getElem? ht) m hm
      · exact hsum hsumming
    · simp [hnewMax u hu] at hm

theorem oneBatch_thread_step {i : ℕ} {o : Outcome} {s s' : State C V} (hb : OneBatch s)
    (h : s.step codec (.thread i o) = some s') : OneBatch s' := by
  obtain ⟨t,a,t',new,ht,hs,_,rfl⟩ := thread_step h
  have htmem : t ∈ s.threads := List.mem_of_getElem? ht
  have hcount := batches_of_step (a.apply codec s.shared) t' new ht
  obtain ⟨hload,hnewLoad,_⟩ := step_loading hs
  have hle : State.batches ⟨a.apply codec s.shared,s.threads.set i t' ++ new⟩ ≤ 1 ∧
      ((a.apply codec s.shared).fields.gettingNextBatch = false →
        State.batches ⟨a.apply codec s.shared,s.threads.set i t' ++ new⟩ = 0) := by
    have hone := hb.le_one
    have hfree := hb.free
    rcases step_batch hs with ⟨rfl,h₁,h₂,h₃⟩ | ⟨rfl,h₁,h₂,rfl⟩ | ⟨h₁,h₂,h₃,h₄⟩
    · simp only [h₁,h₂,h₃] at hcount
      cases hflag : s.shared.fields.gettingNextBatch with
      | false =>
        have hzero := hfree hflag
        cases hneeds : s.shared.fields.needsBatch <;> simp_all [Action.apply]
      | true =>
        have hneeds : s.shared.fields.needsBatch = false := by simp [Fields.needsBatch,hflag]
        simp_all [Action.apply]
    · simp only [h₁,h₂,if_true,Bool.false_eq_true,if_false,List.countP_nil,Nat.add_zero] at hcount
      exact ⟨by omega,fun _ => by omega⟩
    · have hb' : (if t'.batch then 1 else 0) ≤ (if t.batch then 1 else 0) := by
        by_cases ht' : t'.batch
        · simp [ht',h₃ ht']
        · simp [ht']
      rw [gettingNextBatch_of_apply codec _ h₁ h₂]
      exact ⟨by omega,fun hflag => by have := hfree hflag; omega⟩
  refine ⟨hle.1,hle.2,?_,fun u hu => ?_⟩
  · exact newMaximum_of_step (P:=fun maximum increment m => m = wrap 64 (maximum + increment)) ht hs hle.1
      (hb.loaded t htmem) hb.newMaximum fun _ => rfl
  · rcases mem_threads hu with hu | rfl | hu
    · exact hb.loaded u hu
    · have := hb.loaded t htmem
      by_contra hne
      simp_all
    · exact hnewLoad u hu

theorem oneBatch_step {e : Event C} {s s' : State C V} (hb : OneBatch s) (hr : NoRestart e s)
    (h : s.step codec e = some s') : OneBatch s' := by
  cases e with
  | thread i o => exact oneBatch_thread_step hb h
  | restart => exact hr.elim
  | call | shutdown =>
    obtain rfl := Option.some.inj h
    refine ⟨?_,fun hflag => ?_,fun t ht m hm => ?_,fun t ht => ?_⟩
    · simpa [State.batches,Thread.batch] using hb.le_one
    · simpa [State.batches,Thread.batch] using hb.free hflag
    · rcases List.mem_append.mp ht with ht | ht
      · exact hb.newMaximum t ht m hm
      · simp [List.mem_singleton.mp ht,Thread.newMaximum] at hm
    · rcases List.mem_append.mp ht with ht | ht
      · exact hb.loaded t ht
      · rw [List.mem_singleton.mp ht]
        rfl

theorem reaches_initialized (codec : Codec C V) (increment threshold : ℤ) (store : Store V) :
    ∃ es, Runs.Reaches (State.step codec) NoRestart (State.start increment threshold store) es
      (State.initialized increment threshold store) := by
  have hfirst (s' : State C V)
      (h : (State.start increment threshold store).step codec (.thread 0 .ok) = some s') :=
    show Runs.Reaches (State.step codec) NoRestart _ _ s' from
      .next (Event.thread 0 .ok) .start trivial h
  cases hmax : store.maximum with
  | none => exact ⟨_,hfirst _ (by simp [State.step,State.start,Thread.step,hmax,Action.apply,
      State.initialized])⟩
  | some m =>
    have h₁ := hfirst ⟨Action.apply codec (.loadMaximum m) (State.start increment threshold store).shared,
      [.initializeMinimum]⟩ (by simp [State.step,State.start,Thread.step,hmax])
    cases hmin : store.minimum with
    | none => exact ⟨_,.next (Event.thread 0 .ok) h₁ trivial
        (by simp [State.step,State.start,Thread.step,hmax,hmin,Action.apply,State.initialized])⟩
    | some v => exact ⟨_,.next (Event.thread 0 .ok) h₁ trivial
        (by simp [State.step,State.start,Thread.step,hmax,hmin,Action.apply,State.initialized])⟩

theorem configured_step {e : Event C} {s s' : State C V} (hr : NoRestart e s)
    (h : s.step codec e = some s') :
    s'.shared.fields.increment = s.shared.fields.increment ∧
      s'.shared.fields.threshold = s.shared.fields.threshold := by
  cases e with
  | thread i o =>
    obtain ⟨t,a,t',new,_,_,_,rfl⟩ := thread_step h
    exact ⟨apply_increment a _,apply_threshold a _⟩
  | restart => exact hr.elim
  | call | shutdown =>
    obtain rfl := Option.some.inj h
    exact ⟨rfl,rfl⟩

theorem maximum_of_step {e : Event C} {s s' : State C V} (hb : OneBatch s) (hr : NoRestart e s)
    (h : s.step codec e = some s') :
    s'.shared.fields.maximum = s.shared.fields.maximum ∨
      e.action codec s = .setMaximum s'.shared.fields.maximum ∧
        ∃ t ∈ s.threads, t.newMaximum = some s'.shared.fields.maximum := by
  cases e with
  | thread i o =>
    obtain ⟨t,a,t',new,ht,hs,ha,rfl⟩ := thread_step h
    have htmem : t ∈ s.threads := List.mem_of_getElem? ht
    have hload := loads_nothing hs (hb.loaded t htmem)
    by_cases hset : ∃ m, a = .setMaximum m
    · obtain ⟨m,rfl⟩ := hset
      exact Or.inr ⟨ha,t,htmem,((step_newMaximum hs).2.2 m rfl).1⟩
    · exact Or.inl (maximum_of_apply codec _ (fun m hm => hset ⟨m,hm⟩) hload)
  | restart => exact hr.elim
  | call | shutdown =>
    obtain rfl := Option.some.inj h
    exact Or.inl rfl

/-- What any batch leaves behind, failed or not: the stored maximum is not below the one in
use, the flag stands only for a task that is there, and where ids run short a task is there
or the next `getNextId` schedules one. -/
structure Reserved (s : State C V) : Prop where
  persisted : ∀ v, s.shared.store.maximum = some v → s.shared.fields.maximum ≤ v
  scheduled : s.shared.fields.gettingNextBatch = true → 0 < s.batches
  retried : s.shared.fields.atThreshold → s.shared.fields.needsBatch = true ∨ 0 < s.batches

/-- No put of a batch ends in an exception other than `ObsoleteVersionException`. -/
def PutsRecover (e : Event C) (s : State C V) : Prop :=
  match e with
  | .thread i .fails => ∀ t ∈ s.threads[i]?, t.batchPut = false
  | _ => True

/-- The stored maximum keeps ahead of the one in use: no put takes it below, and what a
batch assigns is still stored. -/
def MaximumInOrder (codec : Codec C V) (e : Event C) (s : State C V) : Prop :=
  match e.action codec s with
  | .putMaximum v => s.shared.fields.maximum ≤ v
  | .setMaximum m => ∀ v ∈ s.shared.store.maximum, m ≤ v
  | _ => True

omit [DecidableEq C] in
instance (e : Event C) (s : State C V) : Decidable (PutsRecover e s) := by
  unfold PutsRecover
  induction e using Event.casesOn with
  | thread i o => induction o using Outcome.casesOn <;> infer_instance
  | _ => infer_instance

instance (codec : Codec C V) (e : Event C) (s : State C V) :
    Decidable (MaximumInOrder codec e s) := by
  unfold MaximumInOrder
  induction e.action codec s using Action.casesOn <;> infer_instance

theorem persisted_step {i : ℕ} {o : Outcome} {s s' : State C V} (hb : OneBatch s)
    (hp : ∀ v, s.shared.store.maximum = some v → s.shared.fields.maximum ≤ v)
    (h : s.step codec (.thread i o) = some s') :
    (∀ v, s'.shared.store.maximum = some v → s'.shared.fields.maximum ≤ v) ↔
      MaximumInOrder codec (.thread i o) s := by
  obtain ⟨t,a,t',new,ht,hs,ha,rfl⟩ := thread_step h
  rw [MaximumInOrder,ha]
  cases a with
  | putMaximum v => simp [Action.apply]
  | setMaximum m => simp [Action.apply]
  | loadMaximum m => exact absurd rfl (loads_nothing hs (hb.loaded t (List.mem_of_getElem? ht)) m)
  | _ => simpa [Action.apply] using hp

theorem batch_continues {i : ℕ} {o : Outcome} {s s' : State C V} {t : Thread C}
    (ht : s.threads[i]? = some t) (hb : t.batch) (hp : o = .fails → t.batchPut = false)
    (h : s.step codec (.thread i o) = some s') :
    s'.shared.fields.gettingNextBatch = false ∨ 0 < s'.batches := by
  have hi := (List.getElem?_eq_some_iff.mp ht).1
  have hgoes {x : Shared C V} {t' : Thread C} {new : List (Thread C)} (hb' : t'.batch) :
      0 < State.batches ⟨x,s.threads.set i t' ++ new⟩ :=
    List.countP_pos_iff.mpr ⟨t',List.mem_append_left _ (List.mem_set hi _),hb'⟩
  obtain ⟨x,⟨a,t',new⟩,hs,hs'⟩ : ∃ x r, t.step codec o s.shared = some r ∧
      s' = ⟨x,s.threads.set i r.2.1 ++ r.2.2⟩ ∧ x = r.1.apply codec s.shared := by
    simp only [State.step,ht,Option.bind_eq_bind,Option.bind_some,Option.bind_eq_some_iff,
      Option.some.injEq] at h
    obtain ⟨r,hr,rfl⟩ := h
    exact ⟨_,r,hr,rfl,rfl⟩
  obtain ⟨rfl,rfl⟩ := hs'
  cases t with
  | getNextBatch | batchReadMinimum | batchSetMaximum =>
    cases hs
    exact Or.inr (hgoes rfl)
  | clearGettingNextBatch =>
    cases hs
    exact Or.inl rfl
  | batchPutMaximum n m | batchPutMinimum n m v =>
    simp only [Thread.step] at hs
    split at hs <;> cases hs
    · exact Or.inr (hgoes rfl)
    · exact Or.inr (hgoes rfl)
    · exact Or.inr (hgoes rfl)
    · simp [Thread.batchPut] at hp
  | _ => simp [Thread.batch] at hb

theorem scheduled_step {i : ℕ} {o : Outcome} {s s' : State C V} (hb : OneBatch s)
    (hp : s.shared.fields.gettingNextBatch = true → 0 < s.batches)
    (h : s.step codec (.thread i o) = some s') :
    (s'.shared.fields.gettingNextBatch = true → 0 < s'.batches) ↔ PutsRecover (.thread i o) s := by
  have hgoes {t : Thread C} := batch_continues (t:=t) (h:=h)
  obtain ⟨t,a,t',new,ht,hs,_,rfl⟩ := thread_step h
  have hcount := batches_of_step (a.apply codec s.shared) t' new ht
  constructor
  · -- the thread that a failed put ends was the one batch, and the flag stands
    intro hp'
    cases o with
    | ok | obsolete => trivial
    | fails =>
      intro u hu
      obtain rfl : t = u := Option.some.inj (ht.symm.trans hu)
      by_contra hput
      have hone := hb.le_one
      obtain ⟨hbt,rfl,rfl,rfl⟩ := batchPut_fails hs (by simpa using hput)
      have hended : (Thread.ended : Thread C).batch = false := rfl
      simp only [hbt,hended,if_true,Bool.false_eq_true,if_false,List.countP_nil,Nat.add_zero] at hcount
      have hflag : s.shared.fields.gettingNextBatch = true := by
        by_contra hflag
        have := hb.free (Bool.eq_false_iff.mpr hflag)
        omega
      have := hp' hflag
      omega
  · intro hc hflag
    by_cases hbt : t.batch
    · have hput : o = .fails → t.batchPut = false := by
        rintro rfl
        exact hc t ht
      exact (hgoes ht hbt hput).resolve_left fun hf => Bool.noConfusion (hflag.symm.trans hf)
    · rcases step_batch hs with ⟨rfl,h₁,h₂,h₃⟩ | ⟨_,h₁,_,_⟩ | ⟨h₁,h₂,h₃,h₄⟩
      · simp only [h₁,h₂,h₃,Bool.false_eq_true,if_false,Nat.add_zero] at hcount
        by_cases hneeds : s.shared.fields.needsBatch
        · simp only [hneeds,if_true] at hcount
          omega
        · have := hp (by simpa [Action.apply,hneeds] using hflag)
          omega
      · exact absurd h₁ hbt
      · rw [gettingNextBatch_of_apply codec _ h₁ h₂] at hflag
        have := hp hflag
        have hbt' : ¬t'.batch := fun h => hbt (h₃ h)
        simp only [hbt,hbt',Bool.false_eq_true,if_false,h₄,Nat.add_zero] at hcount
        omega

omit [DecidableEq C] in
/-- With the flag down a call at the threshold schedules a batch. -/
theorem Reserved.of_scheduled {s : State C V}
    (hp : ∀ v, s.shared.store.maximum = some v → s.shared.fields.maximum ≤ v)
    (hs : s.shared.fields.gettingNextBatch = true → 0 < s.batches) : Reserved s := by
  refine ⟨hp,hs,fun hthreshold => ?_⟩
  cases hflag : s.shared.fields.gettingNextBatch with
  | false => exact Or.inl (by simp [Fields.needsBatch,hthreshold,hflag])
  | true => exact Or.inr (hs hflag)

theorem reserved_step {e : Event C} {s s' : State C V} (hb : OneBatch s) (hi : Reserved s)
    (hr : NoRestart e s) (h : s.step codec e = some s') :
    Reserved s' ↔ PutsRecover e s ∧ MaximumInOrder codec e s := by
  cases e with
  | thread i o =>
    have hpersisted := persisted_step hb hi.persisted h
    have hscheduled := scheduled_step hb hi.scheduled h
    constructor
    · exact fun hi' => ⟨hscheduled.mp hi'.scheduled,hpersisted.mp hi'.persisted⟩
    · exact fun hc => .of_scheduled (hpersisted.mpr hc.2) (hscheduled.mpr hc.1)
  | restart => exact hr.elim
  | call | shutdown =>
    obtain rfl := Option.some.inj h
    refine iff_of_true (.of_scheduled hi.persisted fun hflag => ?_) ⟨trivial,trivial⟩
    simpa [State.batches,Thread.batch] using hi.scheduled hflag

omit [DecidableEq C] in
theorem initialized_reserved (increment threshold : ℤ) (store : Store V) :
    Reserved (State.initialized increment threshold store : State C V) := by
  cases hmax : store.maximum <;> apply Reserved.of_scheduled <;> simp [State.initialized,hmax]

/-- Without `shutdown`, what a batch has stored is what it will assign. -/
structure StoredAhead (s : State C V) : Prop where
  running : ∀ t ∈ s.threads, t.shuttingDown = false
  stored : ∀ t ∈ s.threads, t.batchStored →
    s.shared.store.maximum = some s.shared.fields.newMaximum

omit [DecidableEq C] in
theorem step_stored {o : Outcome} {s : Shared C V} {t t' : Thread C} {a : Action C}
    {new : List (Thread C)} (h : t.Steps codec s o a t' new) :
    (t'.shuttingDown → t.shuttingDown) ∧
    (t'.batchStored → (t.batchStored ∨ ∃ m, a = .putMaximum m) ∧ ∃ m, t'.newMaximum = some m) ∧
    (∀ u ∈ new, u.shuttingDown = false ∧ u.batchStored = false) ∧
    (∀ m, a = .putMaximum m → t.newMaximum = some m ∨ t.shuttingDown) ∧
    (∀ m, a = .setMaximum m → t.batchStored) := by
  cases h with
  | getNextId => cases hb : s.fields.needsBatch <;> simp [Thread.shuttingDown,Thread.batchStored]
  | shutdownPutMaximum => simp [Thread.shuttingDown,Thread.batchStored]
  | _ => simp [Thread.shuttingDown,Thread.batchStored,Thread.newMaximum]

theorem storedAhead_step {e : Event C} {s s' : State C V} (hb : OneBatch s) (hs : StoredAhead s)
    (hr : NoRestart e s) (he : e ≠ .shutdown) (h : s.step codec e = some s') : StoredAhead s' := by
  have hb' := oneBatch_step hb hr h
  cases e with
  | thread i o =>
    obtain ⟨t,a,t',new,ht,hsteps,_,rfl⟩ := thread_step h
    have htmem : t ∈ s.threads := List.mem_of_getElem? ht
    obtain ⟨hdown,hstored,hnew,hput,_⟩ := step_stored hsteps
    refine ⟨fun u hu => ?_,fun u hu hu' => ?_⟩
    · rcases mem_threads hu with hu | rfl | hu
      · exact hs.running u hu
      · by_contra hne
        have := hs.running t htmem
        simp_all
      · exact (hnew u hu).1
    · by_cases hmax : ∃ m, a = .putMaximum m
      · obtain ⟨m,rfl⟩ := hmax
        rcases hput m rfl with hm | hm
        · exact congrArg some (hb.newMaximum t htmem m hm)
        · simp [hs.running t htmem] at hm
      · by_cases hset : ∃ m, a = .setMaximum m
        · obtain ⟨m,rfl⟩ := hset
          obtain ⟨_,rfl⟩ := (step_newMaximum hsteps).2.2 m rfl
          have hbatch : u.batch := by cases u <;> first | rfl | simp [Thread.batchStored] at hu'
          obtain rfl := eq_of_batch ht hb'.le_one rfl hu hbatch
          simp [Thread.batchStored] at hu'
        · have hstore : (a.apply codec s.shared).store.maximum = s.shared.store.maximum := by
            cases a <;> first | rfl | simp at hmax
          have hload := loads_nothing hsteps (hb.loaded t htmem)
          rw [hstore,Fields.newMaximum,maximum_of_apply codec _ (fun m hm => hset ⟨m,hm⟩) hload,apply_increment]
          rcases mem_threads hu with hu | rfl | hu
          · exact hs.stored u hu hu'
          · exact hs.stored t htmem ((hstored hu').1.resolve_right hmax)
          · simp [(hnew u hu).2] at hu'
  | restart => exact hr.elim
  | shutdown => exact absurd rfl he
  | call =>
    obtain rfl := Option.some.inj h
    refine ⟨fun t ht => ?_,fun t ht ht' => ?_⟩
    · rcases List.mem_append.mp ht with ht | ht
      · exact hs.running t ht
      · rw [List.mem_singleton.mp ht]
        rfl
    · rcases List.mem_append.mp ht with ht | ht
      · exact hs.stored t ht ht'
      · simp [List.mem_singleton.mp ht,Thread.batchStored] at ht'

omit [DecidableEq C] in
theorem newMaximum_eq {f : Fields} (h : -2^63 ≤ f.maximum + f.increment ∧ f.maximum + f.increment < 2^63) :
    f.newMaximum = f.maximum + f.increment := @wrap_eq_self 63 _ h

/-- The sums that batches have computed are those of the numbers. -/
def Exact (s : State C V) : Prop :=
  ∀ t ∈ s.threads, ∀ m, t.newMaximum = some m → m = s.shared.fields.maximum + s.shared.fields.increment

/-- A batch adds up two `long`s whose sum is one. -/
def SumFits (e : Event C) (s : State C V) : Prop :=
  match e with
  | .thread i _ => ∀ t ∈ s.threads[i]?, t.summing →
      -2^63 ≤ s.shared.fields.maximum + s.shared.fields.increment ∧
        s.shared.fields.maximum + s.shared.fields.increment < 2^63
  | _ => True

omit [DecidableEq C] in
instance (e : Event C) (s : State C V) : Decidable (SumFits e s) := by
  unfold SumFits
  induction e using Event.casesOn <;> infer_instance

omit [DecidableEq C] in
theorem initialized_exact (increment threshold : ℤ) (store : Store V) :
    Exact (State.initialized increment threshold store : State C V) := by
  cases hmax : store.maximum <;> simp [Exact,State.initialized,hmax,Thread.newMaximum]

theorem exact_step {e : Event C} {s s' : State C V} (hb : OneBatch s) (hx : Exact s) (hr : NoRestart e s)
    (hc : SumFits e s) (h : s.step codec e = some s') : Exact s' := by
  cases e with
  | thread i o =>
    have hb' := oneBatch_thread_step hb h
    obtain ⟨t,a,t',new,ht,hs,_,rfl⟩ := thread_step h
    exact newMaximum_of_step (P:=fun maximum increment m => m = maximum + increment) ht hs hb'.le_one
      (hb.loaded t (List.mem_of_getElem? ht)) hx fun hsumming => newMaximum_eq (hc t ht hsumming)
  | restart => exact hr.elim
  | call | shutdown =>
    obtain rfl := Option.some.inj h
    intro t ht m hm
    rcases List.mem_append.mp ht with ht | ht
    · exact hx t ht m hm
    · simp [List.mem_singleton.mp ht,Thread.newMaximum] at hm

theorem StoredAhead.maximumInOrder {e : Event C} {s s' : State C V} (hb : OneBatch s) (hx : Exact s)
    (hs : StoredAhead s) (hinc : 0 ≤ s.shared.fields.increment) (h : s.step codec e = some s') :
    MaximumInOrder codec e s := by
  cases e with
  | thread i o =>
    obtain ⟨t,a,t',new,ht,hsteps,ha,rfl⟩ := thread_step h
    have htmem : t ∈ s.threads := List.mem_of_getElem? ht
    rw [MaximumInOrder,ha]
    cases a with
    | putMaximum m =>
      rcases (step_stored hsteps).2.2.2.1 m rfl with hm | hm
      · rw [hx t htmem m hm]
        exact Int.le_add_of_nonneg_right hinc
      · simp [hs.running t htmem] at hm
    | setMaximum m =>
      intro v hv
      have hstored := hs.stored t htmem ((step_stored hsteps).2.2.2.2 m rfl)
      have hm := hb.newMaximum t htmem m ((step_newMaximum hsteps).2.2 m rfl).1
      have := Option.some.inj (hv.symm.trans hstored)
      omega
    | _ => trivial
  | call | shutdown | restart => trivial

omit [DecidableEq C] in
theorem initialized_storedAhead (increment threshold : ℤ) (store : Store V) :
    StoredAhead (State.initialized increment threshold store : State C V) := by
  cases hmax : store.maximum <;> constructor <;>
    simp [State.initialized,hmax,Thread.shuttingDown,Thread.batchStored]

/-- A reservation that fails is made good, in exactly the runs in which no put of a batch
ends in another exception than `ObsoleteVersionException` and the stored maximum keeps ahead
of the one in use. The latter is given where `shutdown` is not called, the increment is not
negative and no sum leaves the range of `long`. In all runs the maximum in use moves when a
batch assigns it, and then by the increment. -/
theorem reserved_iff_puts_recover (codec : Codec C V) (increment threshold : ℤ) (store : Store V)
    (es : List (Event C)) (s : State C V)
    (h : Runs.Reaches (State.step codec) NoRestart (State.initialized increment threshold store) es s) :
    ((∀ fs t, fs <+: es →
        Runs.Reaches (State.step codec) NoRestart (State.initialized increment threshold store) fs t →
        Reserved t) ↔
      Runs.Reaches (State.step codec)
        (fun e s => NoRestart e s ∧ PutsRecover e s ∧ MaximumInOrder codec e s)
        (State.initialized increment threshold store) es s) ∧
    (0 ≤ increment → (∀ e ∈ es, e ≠ .shutdown) →
      Runs.Reaches (State.step codec) (fun e s => NoRestart e s ∧ SumFits e s)
        (State.initialized increment threshold store) es s →
      Runs.Reaches (State.step codec) (fun e s => NoRestart e s ∧ MaximumInOrder codec e s)
        (State.initialized increment threshold store) es s) ∧
    ∀ e s', NoRestart e s → s.step codec e = some s' →
      s'.shared.fields.maximum = s.shared.fields.maximum ∨
        e.action codec s = .setMaximum s'.shared.fields.maximum ∧
          s'.shared.fields.maximum = wrap 64 (s.shared.fields.maximum + increment) := by
  have hstart : (State.initialized increment threshold store : State C V).shared.fields.increment =
      increment := by
    cases hmax : store.maximum <;> simp [State.initialized,hmax]
  have hinc {fs : List (Event C)} {u : State C V}
      (hu : Runs.Reaches (State.step codec) NoRestart (State.initialized increment threshold store)
        fs u) : u.shared.fields.increment = increment :=
    hu.invariant hstart fun _ _ _ hi hr hs => (configured_step hr hs).1.trans hi
  have hone {fs : List (Event C)} {u : State C V}
      (hu : Runs.Reaches (State.step codec) NoRestart (State.initialized increment threshold store)
        fs u) : OneBatch u :=
    hu.invariant (initialized_oneBatch _ _ _) fun _ _ _ hb hr hs => oneBatch_step hb hr hs
  refine ⟨?_,fun hpos hes hfits => ?_,fun e s' hr hs => ?_⟩
  · exact Runs.invariant_iff_conditions_within (initialized_oneBatch _ _ _)
      (initialized_reserved _ _ _) (fun _ _ _ hb hr hs => oneBatch_step hb hr hs)
      (fun _ _ _ hb hi hr hs => reserved_step hb hi hr hs) h
  · suffices hsuff : Runs.Reaches (State.step codec) (fun e s => NoRestart e s ∧ MaximumInOrder codec e s)
        (State.initialized increment threshold store) es s ∧ StoredAhead s ∧ Exact s from hsuff.1
    clear h
    induction hfits with
    | start => exact ⟨.start,initialized_storedAhead _ _ _,initialized_exact _ _ _⟩
    | @next es s s' e hreach hc hs ih =>
      obtain ⟨hprev,hahead,hexact⟩ := ih fun e he => hes e (List.mem_append_left _ he)
      have he : e ≠ .shutdown := hes e (List.mem_append_right _ (List.mem_singleton_self e))
      have hreach' := hreach.mono fun e s hc => show NoRestart e s from hc.1
      have horder := hahead.maximumInOrder (hone hreach') hexact (by rwa [hinc hreach']) hs
      exact ⟨.next e hprev ⟨hc.1,horder⟩ hs,storedAhead_step (hone hreach') hahead hc.1 he hs,
        exact_step (hone hreach') hexact hc.1 hc.2 hs⟩
  · rw [← hinc h]
    refine (maximum_of_step (hone h) hr hs).imp_right fun ⟨hassign,t,ht,hm⟩ => ⟨hassign,?_⟩
    exact (hone h).newMaximum t ht _ hm

/-- The first call schedules a batch whose first put ends in an exception, and the flag stays. -/
theorem batch_lost :
    ¬ ∀ (es : List (Event ℕ)) (s : State ℕ ℕ),
      Runs.Reaches (State.step (Codec.plain ℕ)) NoRestart
        (State.initialized 100 10 ⟨some 10,none,fun _ => none⟩) es s → Reserved s := by
  intro hall
  have hrun : ((Runs.runIf (State.step (Codec.plain ℕ)) NoRestart
      [.call .async 7,.thread 1 .ok,.thread 2 .ok,.thread 2 .fails]
      (State.initialized 100 10 ⟨some 10,none,fun _ => none⟩)).map fun s =>
        (s.shared.fields.gettingNextBatch,s.batches)) = some (true,0) := by decide
  obtain ⟨s,hs,hp⟩ := Option.map_eq_some_iff.mp hrun
  simp only [Prod.mk.injEq] at hp
  have hpos := (hall _ s (Runs.reaches_of_runIf .start hs)).scheduled hp.1
  omega

/-- A batch whose first put is refused once. -/
theorem reserved_after_retry :
    ∃ es, ∃ s : State ℕ ℕ, Runs.Reaches (State.step (Codec.plain ℕ)) NoRestart
      (State.initialized 100 10 ⟨some 10,none,fun _ => none⟩) es s ∧
      s.shared.fields.maximum = 110 ∧ s.shared.fields.gettingNextBatch = false ∧ Reserved s := by
  have hrun : ((Runs.runIf (State.step (Codec.plain ℕ))
      (fun e s => NoRestart e s ∧ PutsRecover e s ∧ MaximumInOrder (Codec.plain ℕ) e s)
      ([.call .async 7,.thread 1 .ok,.thread 2 .ok,.thread 2 .obsolete]++List.replicate 6 (.thread 2 .ok))
      (State.initialized 100 10 ⟨some 10,none,fun _ => none⟩)).map fun s =>
        (s.shared.fields.maximum,s.shared.fields.gettingNextBatch)) = some (110,false) := by decide
  obtain ⟨s,hs,hp⟩ := Option.map_eq_some_iff.mp hrun
  simp only [Prod.mk.injEq] at hp
  have hreach := Runs.reaches_of_runIf .start hs
  have hreach' := hreach.mono fun _ _ hc => (show NoRestart _ _ from hc.1)
  exact ⟨_,s,hreach',hp.1,hp.2,(reserved_iff_puts_recover (Codec.plain ℕ) _ _ _ _ s hreach').1.mpr hreach _ s
    (List.prefix_refl _) hreach'⟩

/-- A put that ends its batch without a new maximum. -/
def Thread.batchLost : Outcome → Thread C → Bool
  | .fails, .batchPutMaximum _ _ => true
  | .fails, .batchPutMinimum _ _ _ => true
  | .obsolete, .batchPutMaximum 0 _ => true
  | .obsolete, .batchPutMinimum 0 _ _ => true
  | _, _ => false

/-- A state with the number of ids that were handed out since the call that scheduled the
last batch, that call included. -/
structure Issuing (C V : Type) where
  state : State C V
  issued : ℕ

def Issuing.next (codec : Codec C V) (e : Event C) (s : Issuing C V) : ℕ :=
  match e.action codec s.state with
  | .getNextId => if s.state.shared.fields.needsBatch then 1 else s.issued + 1
  | _ => s.issued

def Issuing.step (codec : Codec C V) (e : Event C) (s : Issuing C V) : Option (Issuing C V) :=
  (s.state.step codec e).map fun s' => ⟨s',s.next codec e⟩

/-- No put ends a batch without a new maximum. -/
def BatchSucceeds (e : Event C) (s : State C V) : Prop :=
  match e with
  | .thread i o => ∀ t ∈ s.threads[i]?, t.batchLost o = false
  | _ => True

/-- No more than `threshold` ids are handed out from the call that schedules a batch until
its task clears the flag. -/
def Within (codec : Codec C V) (e : Event C) (s : Issuing C V) : Prop :=
  match e.action codec s.state with
  | .getNextId => s.state.shared.fields.gettingNextBatch = true →
      s.next codec e ≤ s.state.shared.fields.threshold
  | _ => True

def Succeeds (codec : Codec C V) (e : Event C) (s : Issuing C V) : Prop :=
  NoRestart e s.state ∧ BatchSucceeds e s.state ∧ Within codec e s

omit [DecidableEq C] in
instance (e : Event C) (s : State C V) : Decidable (BatchSucceeds e s) := by
  unfold BatchSucceeds
  induction e using Event.casesOn <;> infer_instance

omit [DecidableEq C] in
instance (codec : Codec C V) (e : Event C) (s : Issuing C V) : Decidable (Within codec e s) := by
  unfold Within
  induction e.action codec s.state using Action.casesOn <;> infer_instance

omit [DecidableEq C] in
instance (codec : Codec C V) (e : Event C) (s : Issuing C V) : Decidable (Succeeds codec e s) := by
  unfold Succeeds
  infer_instance

omit [DecidableEq C] in
theorem Succeeds.within {codec : Codec C V} {e : Event C} {s : Issuing C V}
    (hc : Succeeds codec e s) (he : e.action codec s.state = .getNextId)
    (hflag : s.state.shared.fields.gettingNextBatch = true) :
    s.next codec e ≤ s.state.shared.fields.threshold := by
  have hwithin := hc.2.2
  rw [Within,he] at hwithin
  exact hwithin hflag

/-- How far ids have come: a threshold below the maximum while no batch is on its way, and
from there as far as were handed out since, before and after the assignment of the batch. -/
structure Ample (s : Issuing C V) : Prop where
  one : OneBatch s.state
  threshold : 1 ≤ s.state.shared.fields.threshold
  increment : s.state.shared.fields.threshold ≤ s.state.shared.fields.increment
  scheduled : s.state.shared.fields.gettingNextBatch = true → 0 < s.state.batches
  within : s.state.shared.fields.gettingNextBatch = true → s.issued ≤ s.state.shared.fields.threshold
  idle : s.state.shared.fields.gettingNextBatch = false →
    s.state.shared.fields.nextId ≤ s.state.shared.fields.maximum - s.state.shared.fields.threshold
  busy : ∀ t ∈ s.state.threads, t.batch → t ≠ .clearGettingNextBatch →
    s.state.shared.fields.nextId =
      s.state.shared.fields.maximum - s.state.shared.fields.threshold + s.issued
  clearing : .clearGettingNextBatch ∈ s.state.threads →
    s.state.shared.fields.nextId = s.state.shared.fields.maximum - s.state.shared.fields.increment -
      s.state.shared.fields.threshold + s.issued

omit [DecidableEq C] in
theorem step_clearing {o : Outcome} {s : Shared C V} {t t' : Thread C} {a : Action C}
    {new : List (Thread C)} (h : t.Steps codec s o a t' new) :
    (t'.batch → t ≠ .clearGettingNextBatch) ∧
    (t' = .clearGettingNextBatch → (∃ m, a = .setMaximum m ∧ t = .batchSetMaximum m) ∨ t.batchLost o) := by
  cases h with
  | batchAgain h => rcases h with ⟨m,rfl⟩ | ⟨m,v,rfl⟩ <;> simp
  | batchRefused h => rcases h with ⟨m,rfl⟩ | ⟨m,v,rfl⟩ <;> simp [Thread.batchLost]
  | _ => simp [Thread.batch]

omit [DecidableEq C] in
theorem Ample.handed_out_lt {s : Issuing C V} (ha : Ample s) (codec : Codec C V) {e : Event C}
    (he : e.action codec s.state = .getNextId)
    (hw : s.state.shared.fields.gettingNextBatch = true →
      s.next codec e ≤ s.state.shared.fields.threshold) :
    s.state.shared.fields.nextId < s.state.shared.fields.maximum := by
  have hthreshold := ha.threshold
  have hincrement := ha.increment
  cases hflag : s.state.shared.fields.gettingNextBatch with
  | false =>
    have := ha.idle hflag
    omega
  | true =>
    have hnext : s.next codec e = s.issued + 1 := by
      simp [Issuing.next,he,Fields.needsBatch,hflag]
    have hle := hw hflag
    rw [hnext] at hle
    push_cast at hle
    obtain ⟨t,ht,hbt⟩ := List.countP_pos_iff.mp (ha.scheduled hflag)
    by_cases hclear : t = .clearGettingNextBatch
    · have := ha.clearing (hclear ▸ ht)
      omega
    · have := ha.busy t ht hbt hclear
      omega

omit [DecidableEq C] in
theorem not_batch_of_countP {l : List (Thread C)} (h : l.countP Thread.batch = 0) {t : Thread C}
    (ht : t ∈ l) : ¬t.batch :=
  List.countP_eq_zero.mp h t ht

/-- The maximum in use is a `long` and not below the threshold, and the sums are exact. -/
structure Ranged (s : State C V) : Prop where
  exact : Exact s
  threshold_le : s.shared.fields.threshold ≤ s.shared.fields.maximum
  long : s.shared.fields.maximum < 2^63

omit [DecidableEq C] in
theorem Ranged.atThreshold_iff {s : State C V} (hr : Ranged s) (hthreshold : 1 ≤ s.shared.fields.threshold) :
    s.shared.fields.atThreshold ↔
      s.shared.fields.maximum - s.shared.fields.threshold ≤ s.shared.fields.nextId := by
  have hle := hr.threshold_le
  have hlong := hr.long
  rw [Fields.atThreshold,@wrap_eq_self 63 _ ⟨by omega,by omega⟩]

theorem ranged_step {e : Event C} {s s' : State C V} (hr : Ranged s) (hb : OneBatch s)
    (hincrement : 0 ≤ s.shared.fields.increment) (hnone : NoRestart e s) (hc : SumFits e s)
    (h : s.step codec e = some s') : Ranged s' := by
  have hle := hr.threshold_le
  have hconfigured := (configured_step hnone h).2
  rcases maximum_of_step hb hnone h with hmax | ⟨_,t,ht,hm⟩
  · exact ⟨exact_step hb hr.exact hnone hc h,by rwa [hmax,hconfigured],by rw [hmax]; exact hr.long⟩
  · have hsum := hr.exact t ht _ hm
    refine ⟨exact_step hb hr.exact hnone hc h,by omega,?_⟩
    rw [hb.newMaximum t ht _ hm]
    exact (wrap_range 63 _).2

section AmpleStep

variable {s : Issuing C V} {i n : ℕ} {o : Outcome} {t t' : Thread C} {a : Action C}
  {new : List (Thread C)}

omit [DecidableEq C] in
theorem OneBatch.flag {s : State C V} (hb : OneBatch s) {t : Thread C} (ht : t ∈ s.threads)
    (hbt : t.batch) : s.shared.fields.gettingNextBatch = true := by
  by_contra hf
  exact not_batch_of_countP (hb.free (Bool.eq_false_iff.mpr hf)) ht hbt

/-- The call at the threshold: no batch is on its way, and the one it schedules is new. -/
theorem ample_scheduling (ha : Ample s) (hr : Ranged s.state) (hneeds : s.state.shared.fields.needsBatch = true)
    (hs : t.Steps codec s.state.shared o .getNextId t' new)
    (hone : OneBatch ⟨Action.getNextId.apply codec s.state.shared,s.state.threads.set i t' ++ new⟩)
    (hscheduled : 0 < State.batches ⟨Action.getNextId.apply codec s.state.shared,
      s.state.threads.set i t' ++ new⟩) :
    Ample ⟨⟨Action.getNextId.apply codec s.state.shared,s.state.threads.set i t' ++ new⟩,1⟩ := by
  obtain ⟨hmax,hidle⟩ : s.state.shared.fields.maximum - s.state.shared.fields.threshold ≤
      s.state.shared.fields.nextId ∧ s.state.shared.fields.gettingNextBatch = false := by
    rw [← hr.atThreshold_iff ha.threshold]
    simpa [Fields.needsBatch] using hneeds
  have hle := ha.idle hidle
  have hnone := ha.one.free hidle
  refine ⟨hone,ha.threshold,ha.increment,fun _ => hscheduled,fun _ => ?_,fun hf => ?_,
    fun u _ _ _ => ?_,fun hu => ?_⟩
  · simpa [Action.apply] using ha.threshold
  · simp [Action.apply,hneeds] at hf
  · simp only [Action.apply]
    push_cast
    omega
  · rcases mem_threads hu with hold | hown | hnew
    · exact absurd rfl (not_batch_of_countP hnone hold)
    · cases hs
      simp at hown
    · cases hs
      simp [hneeds] at hnew

theorem ample_numbering (ha : Ample s) (hr : Ranged s.state) (hneeds : s.state.shared.fields.needsBatch = false)
    (hs : t.Steps codec s.state.shared o .getNextId t' new)
    (hwithin : s.state.shared.fields.gettingNextBatch = true →
      ((s.issued+1 : ℕ) : ℤ) ≤ s.state.shared.fields.threshold)
    (hone : OneBatch ⟨Action.getNextId.apply codec s.state.shared,s.state.threads.set i t' ++ new⟩)
    (hscheduled : (Action.getNextId.apply codec s.state.shared).fields.gettingNextBatch = true →
      0 < State.batches ⟨Action.getNextId.apply codec s.state.shared,s.state.threads.set i t' ++ new⟩) :
    Ample ⟨⟨Action.getNextId.apply codec s.state.shared,s.state.threads.set i t' ++ new⟩,s.issued+1⟩ := by
  have hbusy : ∀ u, u ∈ s.state.threads.set i t' ++ new → u.batch → u ∈ s.state.threads := by
    intro u hu hbu
    rcases mem_threads hu with hold | rfl | hnew
    · exact hold
    · cases hs
      simp [Thread.batch] at hbu
    · cases hs
      simp [hneeds] at hnew
  refine ⟨hone,ha.threshold,ha.increment,hscheduled,fun hf => ?_,fun hf => ?_,fun u hu hbu hne => ?_,
    fun hu => ?_⟩
  · exact hwithin (by simpa [Action.apply,hneeds] using hf)
  · have hidle : s.state.shared.fields.gettingNextBatch = false := by
      simpa [Action.apply,hneeds] using hf
    have hlt : ¬s.state.shared.fields.maximum - s.state.shared.fields.threshold ≤
        s.state.shared.fields.nextId := by
      rw [← hr.atThreshold_iff ha.threshold]
      simpa [Fields.needsBatch,hidle] using hneeds
    simp only [Action.apply]
    omega
  · have := ha.busy u (hbusy u hu hbu) hbu hne
    simp only [Action.apply]
    push_cast
    omega
  · have := ha.clearing (hbusy _ hu rfl)
    simp only [Action.apply]
    push_cast
    omega

/-- The end of a batch: what was handed out meanwhile is made up for by the increment. -/
theorem ample_cleared (ha : Ample s) (ht : t ∈ s.state.threads)
    (hs : t.Steps codec s.state.shared o .clearGettingNextBatch t' new)
    (hone : OneBatch ⟨Action.clearGettingNextBatch.apply codec s.state.shared,
      s.state.threads.set i t' ++ new⟩) :
    Ample ⟨⟨Action.clearGettingNextBatch.apply codec s.state.shared,
      s.state.threads.set i t' ++ new⟩,s.issued⟩ := by
  have hdone := hone.free rfl
  have hincrement := ha.increment
  have hid : s.state.shared.fields.nextId ≤
      s.state.shared.fields.maximum - s.state.shared.fields.threshold := by
    cases hs
    have := ha.clearing ht
    have := ha.within (ha.one.flag ht rfl)
    omega
  refine ⟨hone,ha.threshold,ha.increment,fun hf => ?_,fun hf => ?_,fun _ => hid,
    fun u hu hbu => ?_,fun hu => ?_⟩
  · simp [Action.apply] at hf
  · simp [Action.apply] at hf
  · exact absurd hbu (not_batch_of_countP hdone hu)
  · exact absurd rfl (not_batch_of_countP hdone hu)

theorem ample_assigned {m : ℤ} (ha : Ample s) (hr : Ranged s.state) (ht : s.state.threads[i]? = some t)
    (hs : t.Steps codec s.state.shared o (.setMaximum m) t' new)
    (hone : OneBatch ⟨(Action.setMaximum m).apply codec s.state.shared,
      s.state.threads.set i t' ++ new⟩)
    (hscheduled : 0 < State.batches ⟨(Action.setMaximum m).apply codec s.state.shared,
      s.state.threads.set i t' ++ new⟩) :
    Ample ⟨⟨(Action.setMaximum m).apply codec s.state.shared,s.state.threads.set i t' ++ new⟩,
      s.issued⟩ := by
  have htmem : t ∈ s.state.threads := List.mem_of_getElem? ht
  obtain ⟨hm,rfl⟩ := (step_newMaximum hs).2.2 m rfl
  have hm' := hr.exact t htmem m hm
  have hbt := Thread.batch_of_newMaximum hm
  have hup := ha.one.flag htmem hbt
  refine ⟨hone,ha.threshold,ha.increment,fun _ => hscheduled,ha.within,fun hf => ?_,
    fun u hu hbu hne => ?_,fun _ => ?_⟩
  · simp [Action.apply,hup] at hf
  · exact absurd (eq_of_batch ht hone.le_one rfl hu hbu) hne
  · have hne : t ≠ .clearGettingNextBatch := by
      rintro rfl
      simp [Thread.newMaximum] at hm
    have := ha.busy t htmem hbt hne
    simp only [Action.apply]
    omega

theorem ample_other (ha : Ample s) (ht : t ∈ s.state.threads)
    (hs : t.Steps codec s.state.shared o a t' new) (hlost : t.batchLost o = false)
    (hid : a ≠ .getNextId) (hclear : a ≠ .clearGettingNextBatch) (hset : ∀ m, a ≠ .setMaximum m)
    (hone : OneBatch ⟨a.apply codec s.state.shared,s.state.threads.set i t' ++ new⟩)
    (hscheduled : (a.apply codec s.state.shared).fields.gettingNextBatch = true →
      0 < State.batches ⟨a.apply codec s.state.shared,s.state.threads.set i t' ++ new⟩) :
    Ample ⟨⟨a.apply codec s.state.shared,s.state.threads.set i t' ++ new⟩,s.issued⟩ := by
  obtain ⟨_,_,hkeep,hnew⟩ := ((step_batch hs).resolve_left fun h => hid h.1).resolve_left
    fun h => hclear h.1
  obtain ⟨hstill,hends⟩ := step_clearing hs
  have hid' : (a.apply codec s.state.shared).fields.nextId = s.state.shared.fields.nextId := by
    cases a <;> first | rfl | contradiction
  have hmax := maximum_of_apply codec s.state.shared hset (loads_nothing hs (ha.one.loaded t ht))
  have hup := gettingNextBatch_of_apply codec s.state.shared hid hclear
  refine ⟨hone,?_,?_,hscheduled,fun hf => ?_,fun hf => ?_,fun u hu hbu hne => ?_,fun hu => ?_⟩
  · simpa using ha.threshold
  · simpa using ha.increment
  · simpa using ha.within (hup ▸ hf)
  · simpa [hid',hmax] using ha.idle (hup ▸ hf)
  · simp only [hid',hmax,apply_threshold]
    rcases mem_threads hu with hold | rfl | hnew'
    · exact ha.busy u hold hbu hne
    · exact ha.busy t ht (hkeep hbu) (hstill hbu)
    · exact absurd hbu (not_batch_of_countP hnew hnew')
  · simp only [hid',hmax,apply_threshold,apply_increment]
    rcases mem_threads hu with hold | hown | hnew'
    · exact ha.clearing hold
    · rcases hends hown.symm with ⟨m,hm,_⟩ | hlost'
      · exact absurd hm (hset m)
      · simp [hlost] at hlost'
    · exact absurd rfl (not_batch_of_countP hnew hnew')

end AmpleStep

theorem ample_thread_step {i : ℕ} {o : Outcome} {s s' : Issuing C V} (ha : Ample s) (hr : Ranged s.state)
    (hc : Succeeds codec (.thread i o) s) (h : s.step codec (.thread i o) = some s') : Ample s' := by
  obtain ⟨w,hw,rfl⟩ := Option.map_eq_some_iff.mp h
  have hone := oneBatch_thread_step ha.one hw
  have hrecover : PutsRecover (.thread i o) s.state := by
    cases o with
    | ok | obsolete => trivial
    | fails =>
      intro t ht
      have hlost := hc.2.1 t ht
      cases t <;> first | rfl | simp [Thread.batchLost] at hlost
  have hscheduled := (scheduled_step ha.one ha.scheduled hw).mpr hrecover
  obtain ⟨t,a,t',new,ht,hs,hact,rfl⟩ := thread_step hw
  have htmem : t ∈ s.state.threads := List.mem_of_getElem? ht
  by_cases hid : a = .getNextId
  · subst hid
    have hwithin := hc.within hact
    cases hneeds : s.state.shared.fields.needsBatch with
    | true =>
      have hnext : s.next codec (.thread i o) = 1 := by simp [Issuing.next,hact,hneeds]
      rw [hnext]
      exact ample_scheduling ha hr hneeds hs hone (hscheduled (by simp [Action.apply,hneeds]))
    | false =>
      have hnext : s.next codec (.thread i o) = s.issued + 1 := by simp [Issuing.next,hact,hneeds]
      rw [hnext] at hwithin ⊢
      exact ample_numbering ha hr hneeds hs hwithin hone hscheduled
  · have hnext : s.next codec (.thread i o) = s.issued := by
      rw [Issuing.next,hact]
      cases a <;> first | rfl | contradiction
    rw [hnext]
    by_cases hclear : a = .clearGettingNextBatch
    · subst hclear
      exact ample_cleared ha htmem hs hone
    · by_cases hset : ∃ m, a = .setMaximum m
      · obtain ⟨m,rfl⟩ := hset
        have hup := ha.one.flag htmem (Thread.batch_of_newMaximum ((step_newMaximum hs).2.2 m rfl).1)
        exact ample_assigned ha hr ht hs hone (hscheduled hup)
      · exact ample_other ha htmem hs (hc.2.1 t ht) hid hclear (fun m hm => hset ⟨m,hm⟩)
          hone hscheduled

theorem ample_step {e : Event C} {s s' : Issuing C V} (ha : Ample s) (hr : Ranged s.state) (hc : Succeeds codec e s)
    (h : s.step codec e = some s') : Ample s' := by
  cases e with
  | thread i o => exact ample_thread_step ha hr hc h
  | restart => exact hc.1.elim
  | call | shutdown =>
    obtain ⟨w,hw,rfl⟩ := Option.map_eq_some_iff.mp h
    have hone := oneBatch_step ha.one hc.1 hw
    obtain rfl := Option.some.inj hw
    refine ⟨hone,ha.threshold,ha.increment,fun hf => ?_,ha.within,ha.idle,fun t ht hbt => ?_,fun ht => ?_⟩
    · simpa [State.batches,Thread.batch] using ha.scheduled hf
    · rcases List.mem_append.mp ht with ht | ht
      · exact ha.busy t ht hbt
      · simp [List.mem_singleton.mp ht,Thread.batch] at hbt
    · rcases List.mem_append.mp ht with ht | ht
      · exact ha.clearing ht
      · simp at ht

omit [DecidableEq C] in
theorem initialized_ample {increment threshold : ℤ} {store : Store V} (hthreshold : 1 ≤ threshold)
    (hincrement : threshold ≤ increment) (hmaximum : threshold ≤ store.maximum.getD 100) :
    Ample (⟨State.initialized increment threshold store,0⟩ : Issuing C V) := by
  have hone := initialized_oneBatch (C:=C) increment threshold store
  cases hmax : store.maximum <;> simp only [hmax] at hmaximum <;> constructor <;>
    simp_all [State.initialized,Thread.batch]

omit [DecidableEq C] in
theorem initialized_ranged {increment threshold : ℤ} {store : Store V}
    (hmaximum : threshold ≤ store.maximum.getD 100) (hlong : store.maximum.getD 100 < 2^63) :
    Ranged (State.initialized increment threshold store : State C V) := by
  have hexact := initialized_exact (C:=C) increment threshold store
  cases hmax : store.maximum with
  | none =>
    simp only [hmax,Option.getD_none] at hmaximum
    exact ⟨hexact,by simpa [State.initialized,hmax] using hmaximum,by simp [State.initialized,hmax]⟩
  | some m =>
    simp only [hmax,Option.getD_some] at hmaximum hlong
    exact ⟨hexact,by simpa [State.initialized,hmax] using hmaximum,by simpa [State.initialized,hmax] using hlong⟩

/-- Ids stay below the maximum where no more than `threshold` of them are handed out while a
batch is on its way; there is at most one batch, and it raises the maximum by the increment, as
long as the sum is a `long`. -/
theorem threshold_is_enough (codec : Codec C V) (increment threshold : ℤ) (store : Store V)
    (hthreshold : 1 ≤ threshold) (hincrement : threshold ≤ increment)
    (hmaximum : threshold ≤ store.maximum.getD 100) (hlong : store.maximum.getD 100 < 2^63)
    (es : List (Event C)) (s : Issuing C V)
    (h : Runs.Reaches (Issuing.step codec) (fun e s => Succeeds codec e s ∧ SumFits e s.state)
      ⟨State.initialized increment threshold store,0⟩ es s) :
    s.state.batches ≤ 1 ∧ ∀ e s', Succeeds codec e s → SumFits e s.state → s.step codec e = some s' →
      (∀ i o mode c id n, e = .thread i o → e.action codec s.state = .getNextId →
        s'.state.threads[i]? = some (.put mode c id n) → id < s'.state.shared.fields.maximum) ∧
      (s'.state.shared.fields.maximum = s.state.shared.fields.maximum ∨
        e.action codec s.state = .setMaximum s'.state.shared.fields.maximum ∧
          s'.state.shared.fields.maximum = s.state.shared.fields.maximum + increment) := by
  have hinvariant := h.invariant (I:=fun s => (Ample s ∧ Ranged s.state) ∧ s.state.shared.fields.increment = increment)
    ⟨⟨initialized_ample hthreshold hincrement hmaximum,initialized_ranged hmaximum hlong⟩,
      by cases hmax : store.maximum <;> simp [State.initialized,hmax]⟩
    fun e s s' ⟨⟨ha,hr⟩,hinc⟩ hc hs => by
      have ha' := ample_step ha hr hc.1 hs
      obtain ⟨w,hw,rfl⟩ := Option.map_eq_some_iff.mp hs
      exact ⟨⟨ha',ranged_step hr ha.one (by omega) hc.1.1 hc.2 hw⟩,(configured_step hc.1.1 hw).1.trans hinc⟩
  obtain ⟨⟨ha,hr⟩,hinc⟩ := hinvariant
  refine ⟨ha.one.le_one,fun e s' hc _ hs => ?_⟩
  have hbelow {e : Event C} := ha.handed_out_lt codec (e:=e)
  obtain ⟨w,hw,rfl⟩ := Option.map_eq_some_iff.mp hs
  refine ⟨fun i o mode c id n he hact hid => ?_,?_⟩
  · subst he
    have hlt := hbelow hact (hc.within hact)
    obtain ⟨t,a,t',new,ht,hsteps,ha',rfl⟩ := thread_step hw
    obtain rfl : a = .getNextId := ha'.symm.trans hact
    cases hsteps
    rw [List.getElem?_append_left (by simpa using (List.getElem?_eq_some_iff.mp ht).1),
      List.getElem?_set_self (List.getElem?_eq_some_iff.mp ht).1] at hid
    cases hid
    exact hlt
  · refine (maximum_of_step ha.one hc.1 hw).imp_right fun ⟨hassign,t,ht,hm⟩ => ⟨hassign,?_⟩
    rw [← hinc]
    exact hr.exact t ht _ hm

/-- The tightest setting: every call schedules a batch that ends before the next call. -/
theorem threshold_is_enough_at_equality :
    ∃ es, ∃ s : Issuing ℕ ℕ, Runs.Reaches (Issuing.step (Codec.plain ℕ))
      (fun e s => Succeeds (Codec.plain ℕ) e s ∧ SumFits e s.state)
      ⟨State.initialized 1 1 ⟨some 1,none,fun _ => none⟩,0⟩ es s ∧
      s.state.shared.fields.nextId = 1 ∧ s.state.shared.fields.maximum = 2 ∧
      s.state.batches ≤ 1 := by
  have hrun : ((Runs.runIf (Issuing.step (Codec.plain ℕ)) (fun e s => Succeeds (Codec.plain ℕ) e s ∧ SumFits e s.state)
      ([.call .async 7,.thread 1 .ok]++List.replicate 6 (.thread 2 .ok))
      ⟨State.initialized 1 1 ⟨some 1,none,fun _ => none⟩,0⟩).map fun s =>
        (s.state.shared.fields.nextId,s.state.shared.fields.maximum)) = some (1,2) := by decide
  obtain ⟨s,hs,hp⟩ := Option.map_eq_some_iff.mp hrun
  simp only [Prod.mk.injEq] at hp
  have h := Runs.reaches_of_runIf .start hs
  exact ⟨_,s,h,hp.1,hp.2,(threshold_is_enough (Codec.plain ℕ) 1 1 ⟨some 1,none,fun _ => none⟩
    (by decide) (by decide) (by decide) (by decide) _ s h).1⟩

/-- The first call schedules a batch, which ends before the second. -/
def twoCalls : List (Event ℕ) :=
  [.call .async 7,.thread 1 .ok] ++ List.replicate 6 (.thread 2 .ok) ++ [.call .async 8]

/-- The greatest `long` for an increment, and a first maximum of 1: the first batch makes the maximum
negative, and the second id is not below it. -/
theorem increment_overflows :
    ¬ ∀ (increment threshold : ℤ) (store : Store ℕ), 1 ≤ threshold → threshold ≤ increment → increment < 2^63 →
      threshold ≤ store.maximum.getD 100 → store.maximum.getD 100 < 2^63 → ∀ (es : List (Event ℕ)) (s : Issuing ℕ ℕ),
      Runs.Reaches (Issuing.step (Codec.plain ℕ)) (Succeeds (Codec.plain ℕ))
        ⟨State.initialized increment threshold store,0⟩ es s →
      s.state.batches ≤ 1 ∧ ∀ e s', Succeeds (Codec.plain ℕ) e s → s.step (Codec.plain ℕ) e = some s' →
        (∀ i o mode c id n, e = .thread i o → e.action (Codec.plain ℕ) s.state = .getNextId →
          s'.state.threads[i]? = some (.put mode c id n) → id < s'.state.shared.fields.maximum) ∧
        (s'.state.shared.fields.maximum = s.state.shared.fields.maximum ∨
          e.action (Codec.plain ℕ) s.state = .setMaximum s'.state.shared.fields.maximum ∧
            s'.state.shared.fields.maximum = s.state.shared.fields.maximum + increment) := by
  intro hall
  have hrun : ((Runs.runIf (Issuing.step (Codec.plain ℕ)) (Succeeds (Codec.plain ℕ)) twoCalls
      ⟨State.initialized (2^63-1) 1 ⟨some 1,none,fun _ => none⟩,0⟩).bind fun s =>
        (s.step (Codec.plain ℕ) (.thread 3 .ok)).map fun s' =>
          (decide (Succeeds (Codec.plain ℕ) (.thread 3 .ok) s),
            (match Event.action (Codec.plain ℕ) (.thread 3 .ok) s.state with | .getNextId => true | _ => false),
            s'.state.threads[3]?,s'.state.shared.fields.maximum)) =
      some (true,true,some (.put .async 8 1 2),-2^63) := by decide +kernel
  obtain ⟨s,hs,hrest⟩ := Option.bind_eq_some_iff.mp hrun
  obtain ⟨s',hs',hp⟩ := Option.map_eq_some_iff.mp hrest
  simp only [Prod.mk.injEq,decide_eq_true_eq] at hp
  obtain ⟨hsucceeds,haction,hthread,hmaximum⟩ := hp
  have hid : Event.action (Codec.plain ℕ) (.thread 3 .ok) s.state = .getNextId := by
    split at haction
    · assumption
    · cases haction
  have hclaim := hall (2^63-1) 1 ⟨some 1,none,fun _ => none⟩ (by decide) (by decide) (by decide) (by decide) (by decide)
    _ s (Runs.reaches_of_runIf .start hs)
  have hlt := (hclaim.2 _ s' hsucceeds hs').1 3 .ok .async 8 1 2 rfl hid hthread
  rw [hmaximum] at hlt
  exact absurd hlt (by decide)

end CommandQueue
end Bigbird
