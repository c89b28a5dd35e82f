import Bigbird.JavaText
import Bigbird.Runs

/-! The command queue of one node: `AbstractCommandQueue` with the storage of
`VoldemortCommandQueue`. Every call, task and background job is a thread that makes
one access to the shared fields or to the `commandQueues` store at a time. -/
namespace Bigbird
namespace CommandQueue

open JavaText (wrap)

variable {C V : Type}

/-- The fields of a queue object, with the values that `new` gives them. They are `long`s; `nextId` is
0 in a new object and goes up by one with each call. -/
structure Fields where
  increment : ℤ := 100
  maximum : ℤ := 100
  minimum : ℤ := 0
  threshold : ℤ := 10
  nextId : ℤ := 0
  gettingNextBatch : Bool := false
  deriving DecidableEq

/-- The keys of one node in `commandQueues`: `nodeName:maximum`, `nodeName:minimum`
and one `nodeName:id` for each command record. -/
structure Store (V : Type) where
  maximum : Option ℤ
  minimum : Option ℤ
  command : ℤ → Option V

/-- `new String(serialize(command))`, and what `initialize` makes of the stored string;
`none` is the `IOException` or `ClassNotFoundException` that it logs. -/
structure Codec (C V : Type) where
  encode : C → V
  decode : V → Option C
  decode_encode : ∀ c c', decode (encode c) = some c' → c' = c

def Codec.plain (C : Type) : Codec C C := ⟨id,some,fun _ _ h => (Option.some.inj h).symm⟩

/-- What all threads share. The last four fields record the history of the commands and
are read by no step: accepted by `addAsync` and not yet through `delete`; accepted and
not yet returned from `execute`; unfinished at the last restart; handed to
`commandExecutor` by the recovery loop since then. -/
structure Shared (C V : Type) where
  fields : Fields
  store : Store V
  unfinished : List (ℤ × C)
  unreturned : List (ℤ × C)
  inherited : List (ℤ × C)
  recovered : List (ℤ × C)

/-- `add` runs the command in the caller, `addAsync` hands it to `commandExecutor`. -/
inductive Mode
  | sync | async
  deriving DecidableEq

/-- How the store call or the command body of a step ends: normally, with an
`ObsoleteVersionException`, or with any other exception. -/
inductive Outcome
  | ok | obsolete | fails
  deriving DecidableEq

/-- Where a thread stands; `retries` counts the attempts `applyUpdate` has left. -/
inductive Thread (C : Type)
  -- `add` and `addAsync`
  | storeRemotely (mode : Mode) (command : C)
  | put (mode : Mode) (command : C) (id : ℤ) (retries : ℕ)
  | addCommand (command : C) (id : ℤ)
  -- the task of `addCommand`
  | queued (command : C) (id : ℤ)
  | execute (mode : Mode) (command : C) (id : ℤ)
  | delete (command : C) (id : ℤ) (retries : ℕ)
  | compareMinimum (id : ℤ)
  | setMinimum (id : ℤ)
  -- the task of `getNextId`
  | getNextBatch (retries : ℕ)
  | batchPutMaximum (retries : ℕ) (newMaximum : ℤ)
  | batchReadMinimum (retries : ℕ) (newMaximum : ℤ)
  | batchPutMinimum (retries : ℕ) (newMaximum value : ℤ)
  | batchSetMaximum (newMaximum : ℤ)
  | clearGettingNextBatch
  -- `initialize` and its recovery loop
  | initializeMaximum
  | initializeMinimum
  | recovery
  | recover (l : ℤ)
  | recoverGet (l : ℤ)
  | recoverAdd (l : ℤ) (command : C)
  | initialized
  -- `shutdown`
  | shutdown
  | shutdownPutMaximum (value : ℤ)
  | shutdownReadMinimum
  | shutdownPutMinimum (value : ℤ)
  | ended
  deriving DecidableEq

inductive Action (C : Type)
  | skip
  | getNextId
  | putCommand (mode : Mode) (command : C) (id : ℤ)
  | returnNormally (command : C) (id : ℤ)
  | deleteCommand (command : C) (id : ℤ)
  | leaveCommand (command : C) (id : ℤ)
  | setMinimum (id : ℤ)
  | putMaximum (value : ℤ)
  | putMinimum (value : ℤ)
  | setMaximum (value : ℤ)
  | clearGettingNextBatch
  | loadMaximum (value : ℤ)
  | loadMinimum (value : ℤ)
  | resubmit (command : C) (id : ℤ)

def retries : ℕ := 2

def Fields.newMaximum (f : Fields) : ℤ := wrap 64 (f.maximum + f.increment)

def Fields.atThreshold (f : Fields) : Prop := wrap 64 (f.maximum - f.threshold) ≤ f.nextId

instance (f : Fields) : Decidable f.atThreshold := by
  unfold Fields.atThreshold
  infer_instance

def Fields.needsBatch (f : Fields) : Bool := decide f.atThreshold && !f.gettingNextBatch

/-- One step of a thread: its access to the shared state, where it stands afterwards, and
the tasks it hands to an executor. -/
def Thread.step (codec : Codec C V) (o : Outcome) (s : Shared C V) :
    Thread C → Option (Action C × Thread C × List (Thread C))
  -- `serialize` throws a `RuntimeException`, or `getNextId` hands out an id
  | .storeRemotely mode c => match o with
    | .fails => some (.skip,.ended,[])
    | _ => some (.getNextId,.put mode c s.fields.nextId retries,
        if s.fields.needsBatch then [.getNextBatch retries] else [])
  -- refused after the last retry or after another exception, which `storeRemotely` catches
  | .put mode c id n => match o,n with
    | .ok,_ => some (.putCommand mode c id,
        match mode with
        | .sync => .execute .sync c id
        | .async => .addCommand c id,[])
    | .obsolete,n+1 => some (.skip,.put mode c id n,[])
    | _,_ => some (.skip,.ended,[])
  | .addCommand c id => some (.skip,.ended,[.queued c id])
  | .queued c id => some (.skip,.execute .async c id,[])
  -- `add` returns the result; the task of `addCommand` goes on to `finishCommand`
  | .execute mode c id => match o with
    | .ok => some (.returnNormally c id,
        match mode with
        | .sync => .ended
        | .async => .delete c id retries,[])
    | _ => some (.skip,.ended,[])
  -- the result of `applyUpdate` in `delete` is not looked at
  | .delete c id n => match o,n with
    | .ok,_ => some (.deleteCommand c id,.compareMinimum id,[])
    | .obsolete,n+1 => some (.skip,.delete c id n,[])
    | .obsolete,0 => some (.leaveCommand c id,.compareMinimum id,[])
    | .fails,_ => some (.skip,.ended,[])
  | .compareMinimum id => some (.skip,if s.fields.minimum ≤ id then .setMinimum id else .ended,[])
  | .setMinimum id => some (.setMinimum id,.ended,[])
  | .getNextBatch n => some (.skip,.batchPutMaximum n s.fields.newMaximum,[])
  | .batchPutMaximum n m => match o,n with
    | .ok,_ => some (.putMaximum m,.batchReadMinimum n m,[])
    | .obsolete,n+1 => some (.skip,.getNextBatch n,[])
    | .obsolete,0 => some (.skip,.clearGettingNextBatch,[])
    | .fails,_ => some (.skip,.ended,[])
  | .batchReadMinimum n m => some (.skip,.batchPutMinimum n m s.fields.minimum,[])
  | .batchPutMinimum n m v => match o,n with
    | .ok,_ => some (.putMinimum v,.batchSetMaximum m,[])
    | .obsolete,n+1 => some (.skip,.getNextBatch n,[])
    | .obsolete,0 => some (.skip,.clearGettingNextBatch,[])
    | .fails,_ => some (.skip,.ended,[])
  | .batchSetMaximum m => some (.setMaximum m,.clearGettingNextBatch,[])
  | .clearGettingNextBatch => some (.clearGettingNextBatch,.ended,[])
  -- without a stored maximum `initialize` returns and nothing is recovered
  | .initializeMaximum => match o,s.store.maximum with
    | .ok,some m => some (.loadMaximum m,.initializeMinimum,[])
    | .ok,none => some (.skip,.initialized,[])
    | _,_ => some (.skip,.ended,[])
  | .initializeMinimum => match o,s.store.minimum with
    | .ok,some m => some (.loadMinimum m,.recovery,[])
    | .ok,none => some (.skip,.recovery,[])
    | _,_ => some (.skip,.ended,[])
  | .recovery => some (.skip,.recover s.fields.minimum,[])
  | .recover l => some (.skip,if l < s.fields.maximum then .recoverGet l else .initialized,[])
  | .recoverGet l => match o with
    | .ok => some (.skip,
        match (s.store.command l).bind codec.decode with
        | some c => .recoverAdd l c
        | none => .recover (l+1),[])
    | _ => some (.skip,.ended,[])
  | .recoverAdd l c => some (.resubmit c l,.recover (l+1),[.queued c l])
  | .shutdown => some (.skip,.shutdownPutMaximum s.fields.maximum,[])
  | .shutdownPutMaximum v => match o with
    | .ok => some (.putMaximum v,.shutdownReadMinimum,[])
    | _ => some (.skip,.ended,[])
  | .shutdownReadMinimum => some (.skip,.shutdownPutMinimum s.fields.minimum,[])
  | .shutdownPutMinimum v => match o with
    | .ok => some (.putMinimum v,.ended,[])
    | _ => some (.skip,.ended,[])
  | .initialized => none
  | .ended => none

/-- The branches of `Thread.step` with the outcomes and the tests that choose them. -/
inductive Thread.Steps (codec : Codec C V) (s : Shared C V) :
    Outcome → Thread C → Action C → Thread C → List (Thread C) → Prop
  | getNextId {o mode c} : o ≠ .fails → Steps codec s o (.storeRemotely mode c) .getNextId
      (.put mode c s.fields.nextId retries) (if s.fields.needsBatch then [.getNextBatch retries] else [])
  | putSync {c id n} :
      Steps codec s .ok (.put .sync c id n) (.putCommand .sync c id) (.execute .sync c id) []
  | putAsync {c id n} :
      Steps codec s .ok (.put .async c id n) (.putCommand .async c id) (.addCommand c id) []
  | putAgain {mode c id n} :
      Steps codec s .obsolete (.put mode c id (n+1)) .skip (.put mode c id n) []
  | addCommand {o c id} : Steps codec s o (.addCommand c id) .skip .ended [.queued c id]
  | queued {o c id} : Steps codec s o (.queued c id) .skip (.execute .async c id) []
  | returnSync {c id} : Steps codec s .ok (.execute .sync c id) (.returnNormally c id) .ended []
  | returnAsync {c id} :
      Steps codec s .ok (.execute .async c id) (.returnNormally c id) (.delete c id retries) []
  | delete {c id n} :
      Steps codec s .ok (.delete c id n) (.deleteCommand c id) (.compareMinimum id) []
  | deleteAgain {c id n} : Steps codec s .obsolete (.delete c id (n+1)) .skip (.delete c id n) []
  | leave {c id} : Steps codec s .obsolete (.delete c id 0) (.leaveCommand c id) (.compareMinimum id) []
  | finish {o id} : s.fields.minimum ≤ id → Steps codec s o (.compareMinimum id) .skip (.setMinimum id) []
  | finished {o id} : id < s.fields.minimum → Steps codec s o (.compareMinimum id) .skip .ended []
  | setMinimum {o id} : Steps codec s o (.setMinimum id) (.setMinimum id) .ended []
  | getNextBatch {o n} : Steps codec s o (.getNextBatch n) .skip (.batchPutMaximum n s.fields.newMaximum) []
  | batchPutMaximum {n m} :
      Steps codec s .ok (.batchPutMaximum n m) (.putMaximum m) (.batchReadMinimum n m) []
  | batchReadMinimum {o n m} :
      Steps codec s o (.batchReadMinimum n m) .skip (.batchPutMinimum n m s.fields.minimum) []
  | batchPutMinimum {n m v} :
      Steps codec s .ok (.batchPutMinimum n m v) (.putMinimum v) (.batchSetMaximum m) []
  | batchAgain {t n} : (∃ m, t = .batchPutMaximum (n+1) m) ∨ (∃ m v, t = .batchPutMinimum (n+1) m v) →
      Steps codec s .obsolete t .skip (.getNextBatch n) []
  | batchRefused {t} : (∃ m, t = .batchPutMaximum 0 m) ∨ (∃ m v, t = .batchPutMinimum 0 m v) →
      Steps codec s .obsolete t .skip .clearGettingNextBatch []
  | batchSetMaximum {o m} :
      Steps codec s o (.batchSetMaximum m) (.setMaximum m) .clearGettingNextBatch []
  | clearGettingNextBatch {o} :
      Steps codec s o .clearGettingNextBatch .clearGettingNextBatch .ended []
  | initializeMaximum {m} : s.store.maximum = some m →
      Steps codec s .ok .initializeMaximum (.loadMaximum m) .initializeMinimum []
  | noMaximum : s.store.maximum = none →
      Steps codec s .ok .initializeMaximum .skip .initialized []
  | initializeMinimum {m} : s.store.minimum = some m →
      Steps codec s .ok .initializeMinimum (.loadMinimum m) .recovery []
  | noMinimum : s.store.minimum = none → Steps codec s .ok .initializeMinimum .skip .recovery []
  | recovery {o} : Steps codec s o .recovery .skip (.recover s.fields.minimum) []
  | recover {o l} : l < s.fields.maximum → Steps codec s o (.recover l) .skip (.recoverGet l) []
  | initialized {o l} : s.fields.maximum ≤ l → Steps codec s o (.recover l) .skip .initialized []
  | readable {l v c} : s.store.command l = some v → codec.decode v = some c →
      Steps codec s .ok (.recoverGet l) .skip (.recoverAdd l c) []
  | unreadable {l} : (∀ v, s.store.command l = some v → codec.decode v = none) →
      Steps codec s .ok (.recoverGet l) .skip (.recover (l+1)) []
  | recoverAdd {o l c} :
      Steps codec s o (.recoverAdd l c) (.resubmit c l) (.recover (l+1)) [.queued c l]
  | shutdown {o} : Steps codec s o .shutdown .skip (.shutdownPutMaximum s.fields.maximum) []
  | shutdownPutMaximum {v} :
      Steps codec s .ok (.shutdownPutMaximum v) (.putMaximum v) .shutdownReadMinimum []
  | shutdownReadMinimum {o} :
      Steps codec s o .shutdownReadMinimum .skip (.shutdownPutMinimum s.fields.minimum) []
  | shutdownPutMinimum {v} : Steps codec s .ok (.shutdownPutMinimum v) (.putMinimum v) .ended []
  | fails {o t} : o ≠ .ok → (o = .obsolete → ∀ c id n, t ≠ .delete c id n) →
      Steps codec s o t .skip .ended []

theorem Thread.steps {codec : Codec C V} {o : Outcome} {s : Shared C V} {t t' : Thread C}
    {a : Action C} {new : List (Thread C)} (h : t.step codec o s = some (a,t',new)) :
    t.Steps codec s o a t' new := by
  cases t with
  | storeRemotely mode c =>
    simp only [Thread.step] at h
    split at h <;> cases h
    · exact .fails (by simp) (by simp)
    · exact .getNextId ‹_›
  | put mode c id n =>
    simp only [Thread.step] at h
    split at h <;> cases h
    · cases mode with
      | sync => exact .putSync
      | async => exact .putAsync
    · exact .putAgain
    · exact .fails ‹_› (by simp)
  | addCommand =>
    cases h
    exact .addCommand
  | queued =>
    cases h
    exact .queued
  | execute mode c id =>
    simp only [Thread.step] at h
    split at h <;> cases h
    · cases mode with
      | sync => exact .returnSync
      | async => exact .returnAsync
    · exact .fails ‹_› (by simp)
  | delete c id n =>
    simp only [Thread.step] at h
    split at h <;> cases h
    · exact .delete
    · exact .deleteAgain
    · exact .leave
    · exact .fails (by simp) (by simp)
  | compareMinimum id =>
    cases h
    by_cases hid : s.fields.minimum ≤ id
    · rw [if_pos hid]
      exact .finish hid
    · rw [if_neg hid]
      exact .finished (Int.not_le.mp hid)
  | setMinimum =>
    cases h
    exact .setMinimum
  | getNextBatch =>
    cases h
    exact .getNextBatch
  | batchPutMaximum n m =>
    simp only [Thread.step] at h
    split at h <;> cases h
    · exact .batchPutMaximum
    · exact .batchAgain (Or.inl ⟨m,rfl⟩)
    · exact .batchRefused (Or.inl ⟨m,rfl⟩)
    · exact .fails (by simp) (by simp)
  | batchReadMinimum =>
    cases h
    exact .batchReadMinimum
  | batchPutMinimum n m v =>
    simp only [Thread.step] at h
    split at h <;> cases h
    · exact .batchPutMinimum
    · exact .batchAgain (Or.inr ⟨m,v,rfl⟩)
    · exact .batchRefused (Or.inr ⟨m,v,rfl⟩)
    · exact .fails (by simp) (by simp)
  | batchSetMaximum =>
    cases h
    exact .batchSetMaximum
  | clearGettingNextBatch =>
    cases h
    exact .clearGettingNextBatch
  | initializeMaximum =>
    simp only [Thread.step] at h
    split at h <;> cases h
    · exact .initializeMaximum ‹_›
    · exact .noMaximum ‹_›
    · rename_i hsome hnone
      refine .fails (fun ho => ?_) (by simp)
      cases hm : s.store.maximum with
      | none => exact hnone ho hm
      | some m => exact hsome m ho hm
  | initializeMinimum =>
    simp only [Thread.step] at h
    split at h <;> cases h
    · exact .initializeMinimum ‹_›
    · exact .noMinimum ‹_›
    · rename_i hsome hnone
      refine .fails (fun ho => ?_) (by simp)
      cases hm : s.store.minimum with
      | none => exact hnone ho hm
      | some m => exact hsome m ho hm
  | recovery =>
    cases h
    exact .recovery
  | recover l =>
    cases h
    by_cases hl : l < s.fields.maximum
    · rw [if_pos hl]
      exact .recover hl
    · rw [if_neg hl]
      exact .initialized (Int.not_lt.mp hl)
  | recoverGet l =>
    simp only [Thread.step] at h
    split at h <;> cases h
    · split
      · rename_i hc
        obtain ⟨v,hv,hd⟩ := Option.bind_eq_some_iff.mp hc
        exact .readable hv hd
      · rename_i hc
        exact .unreadable (Option.bind_eq_none_iff.mp hc)
    · exact .fails ‹_› (by simp)
  | recoverAdd =>
    cases h
    exact .recoverAdd
  | shutdown =>
    cases h
    exact .shutdown
  | shutdownPutMaximum =>
    simp only [Thread.step] at h
    split at h <;> cases h
    · exact .shutdownPutMaximum
    · exact .fails ‹_› (by simp)
  | shutdownReadMinimum =>
    cases h
    exact .shutdownReadMinimum
  | shutdownPutMinimum =>
    simp only [Thread.step] at h
    split at h <;> cases h
    · exact .shutdownPutMinimum
    · exact .fails ‹_› (by simp)
  | initialized => cases h
  | ended => cases h

variable [DecidableEq C]

def Action.apply (codec : Codec C V) : Action C → Shared C V → Shared C V
  | .skip, s => s
  | .getNextId, s => { s with fields := { s.fields with
      nextId := s.fields.nextId + 1
      gettingNextBatch := s.fields.gettingNextBatch || s.fields.needsBatch } }
  | .putCommand mode c id, s => { s with
      store := { s.store with command := Function.update s.store.command id (some (codec.encode c)) }
      unfinished := match mode with
        | .sync => s.unfinished
        | .async => (id,c)::s.unfinished
      unreturned := (id,c)::s.unreturned }
  | .returnNormally c id, s => { s with unreturned := s.unreturned.erase (id,c) }
  | .deleteCommand c id, s => { s with
      store := { s.store with command := Function.update s.store.command id none }
      unfinished := s.unfinished.erase (id,c) }
  | .leaveCommand c id, s => { s with unfinished := s.unfinished.erase (id,c) }
  | .setMinimum id, s => { s with fields := { s.fields with minimum := id + 1 } }
  | .putMaximum v, s => { s with store := { s.store with maximum := some v } }
  | .putMinimum v, s => { s with store := { s.store with minimum := some v } }
  | .setMaximum v, s => { s with fields := { s.fields with maximum := v } }
  | .clearGettingNextBatch, s => { s with fields := { s.fields with gettingNextBatch := false } }
  | .loadMaximum v, s => { s with fields := { s.fields with maximum := v } }
  | .loadMinimum v, s => { s with fields := { s.fields with minimum := v } }
  | .resubmit c id, s => { s with recovered := (id,c)::s.recovered }

/-- The node: its shared state and all threads that were ever started in this process. -/
structure State (C V : Type) where
  shared : Shared C V
  threads : List (Thread C)

/-- `restart` is a crash between two steps followed by a new object on which
`initialize` is called; a clean stop is a `shutdown` run to its end before it. -/
inductive Event (C : Type)
  | call (mode : Mode) (command : C)
  | shutdown
  | thread (i : ℕ) (o : Outcome)
  | restart (increment threshold : ℤ)

def State.step (codec : Codec C V) : Event C → State C V → Option (State C V)
  | .call mode c, s => some { s with threads := s.threads ++ [.storeRemotely mode c] }
  | .shutdown, s => some { s with threads := s.threads ++ [.shutdown] }
  | .thread i o, s => do
    let t ← s.threads[i]?
    let (a,t',new) ← t.step codec o s.shared
    some ⟨a.apply codec s.shared,s.threads.set i t' ++ new⟩
  | .restart increment threshold, s => some
    { shared := { s.shared with
        fields := { increment := increment, threshold := threshold }
        inherited := s.shared.unfinished
        recovered := [] }
      threads := [.initializeMaximum] }

def Store.empty : Store V := ⟨none,none,fun _ => none⟩

def State.start (increment threshold : ℤ) (store : Store V) : State C V where
  shared := ⟨{ increment := increment, threshold := threshold },store,[],[],[],[]⟩
  threads := [.initializeMaximum]

/-- The access that an event makes to the shared state. -/
def Event.action (codec : Codec C V) (e : Event C) (s : State C V) : Action C :=
  match e with
  | .thread i o => match (s.threads[i]?).bind (Thread.step codec o s.shared) with
    | some (a,_,_) => a
    | none => .skip
  | _ => .skip

/-- What a thread event does, with the thread that takes it. -/
theorem thread_step {codec : Codec C V} {i : ℕ} {o : Outcome} {s s' : State C V}
    (h : s.step codec (.thread i o) = some s') :
    ∃ t a t' new, s.threads[i]? = some t ∧ t.Steps codec s.shared o a t' new ∧
      Event.action codec (.thread i o) s = a ∧
      s' = ⟨a.apply codec s.shared,s.threads.set i t' ++ new⟩ := by
  simp only [State.step,Option.bind_eq_bind,Option.bind_eq_some_iff,Option.some.injEq,Prod.exists] at h
  obtain ⟨t,ht,a,t',new,hs,rfl⟩ := h
  exact ⟨t,a,t',new,ht,Thread.steps hs,by simp [Event.action,ht,hs],rfl⟩

omit [DecidableEq C] in
theorem mem_threads {ts new : List (Thread C)} {i : ℕ} {t u : Thread C}
    (h : u ∈ ts.set i t ++ new) : u ∈ ts ∨ u = t ∨ u ∈ new := by
  rcases List.mem_append.mp h with h | h
  · exact (List.mem_or_eq_of_mem_set h).imp_right Or.inl
  · exact Or.inr (Or.inr h)

omit [DecidableEq C] in
theorem mem_threads_of_mem {ts new : List (Thread C)} {i : ℕ} {t t' u : Thread C}
    (ht : ts[i]? = some t) (hu : u ∈ ts) (hut : u ≠ t) : u ∈ ts.set i t' ++ new := by
  obtain ⟨j,hj⟩ := List.mem_iff_getElem?.mp hu
  have hij : i ≠ j := by
    rintro rfl
    exact hut (Option.some.inj (hj.symm.trans ht))
  exact List.mem_append_left _ (List.mem_iff_getElem?.mpr ⟨j,by rw [List.getElem?_set_ne hij,hj]⟩)

def Thread.putId : Thread C → Option ℤ
  | .put _ _ id _ => some id
  | _ => none

/-- The command that a thread has to run, runs or has run, with the id of its record. -/
def Thread.task : Thread C → Option (ℤ × C)
  | .addCommand c id => some (id,c)
  | .queued c id => some (id,c)
  | .execute _ c id => some (id,c)
  | .delete c id _ => some (id,c)
  | _ => none

theorem record_of_apply {codec : Codec C V} {a : Action C} {s : Shared C V} {id : ℤ}
    {v : V}
    (h : (a.apply codec s).store.command id = some v) :
    s.store.command id = some v ∨ ∃ m c, a = .putCommand m c id ∧ v = codec.encode c := by
  cases a with
  | putCommand mode c k =>
    by_cases hk : id = k
    · subst hk
      exact Or.inr ⟨mode,c,rfl,(Option.some.inj (by simpa [Action.apply] using h)).symm⟩
    · exact Or.inl (by simpa [Action.apply,Function.update_of_ne hk] using h)
  | deleteCommand c k =>
    by_cases hk : id = k
    · subst hk
      simp [Action.apply] at h
    · exact Or.inl (by simpa [Action.apply,Function.update_of_ne hk] using h)
  | _ => exact Or.inl h

omit [DecidableEq C] in
theorem step_putId {o : Outcome} {s : Shared C V} {t t' : Thread C} {a : Action C}
    {new : List (Thread C)} {codec : Codec C V} (h : t.Steps codec s o a t' new) :
    (∀ id, t'.putId = some id →
      t.putId = some id ∧ a = .skip ∨ id = s.fields.nextId ∧ a = .getNextId) ∧
    (∀ u ∈ new, u.putId = none) ∧ (∀ m c id, a = .putCommand m c id → t.putId = some id) := by
  cases h <;> simp [Thread.putId]

omit [DecidableEq C] in
theorem step_task {o : Outcome} {s : Shared C V} {t t' : Thread C} {a : Action C}
    {new : List (Thread C)} {codec : Codec C V} (h : t.Steps codec s o a t' new) :
    (∀ p, t'.task = some p → t.task = some p ∨ ∃ m, a = .putCommand m p.2 p.1) ∧
    (∀ u ∈ new, ∀ p, u.task = some p → t.task = some p ∨ a = .resubmit p.2 p.1) ∧
    (∀ c id, a = .returnNormally c id ∨ a = .deleteCommand c id ∨ a = .leaveCommand c id →
      t.task = some (id,c)) := by
  cases h <;> simp [Thread.task]

end CommandQueue
end Bigbird
