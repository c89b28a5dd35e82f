import Bigbird.CommandQueue

/-! The low watermark of the queue: `minimum`, its stored copy, and the values that
`getNextBatch` and `shutdown` have read and not written yet. -/
namespace Bigbird
namespace CommandQueue

variable {C V : Type} {codec : Codec C V}

def Thread.watermark : Thread C → Option ℤ
  | .batchPutMinimum _ _ v => some v
  | .shutdownPutMinimum v => some v
  | _ => none

def State.watermarks (s : State C V) : List ℤ :=
  s.shared.fields.minimum :: (s.shared.store.minimum.toList ++ s.threads.filterMap Thread.watermark)

theorem mem_watermarks {s : State C V} {w : ℤ} : w ∈ s.watermarks ↔
    w = s.shared.fields.minimum ∨ s.shared.store.minimum = some w ∨
      ∃ t ∈ s.threads, t.watermark = some w := by
  simp [State.watermarks,eq_comm]

/-- No unfinished command is below a watermark: what `getNextBatch` and `shutdown` store
leaves every one of them inside the window of the recovery loop. -/
def Watermark (s : State C V) : Prop :=
  ∀ w ∈ s.watermarks, ∀ p ∈ s.shared.unfinished, w ≤ p.1

/-- What holds of a step as far as watermarks go: a thread is about to put only what it
read from `minimum`, and only what was read reaches the store or the field. -/
theorem step_watermark {o : Outcome} {s : Shared C V} {t t' : Thread C} {a : Action C}
    {new : List (Thread C)} (h : t.Steps codec s o a t' new) :
    (∀ w, t'.watermark = some w → t.watermark = some w ∨ w = s.fields.minimum) ∧
    (∀ u ∈ new, u.watermark = none) ∧ (∀ v, a = .putMinimum v → t.watermark = some v) ∧
    (∀ v, a = .loadMinimum v → s.store.minimum = some v) := by
  cases h <;> simp_all [Thread.watermark]

variable [DecidableEq C]

theorem watermark_of_step {s s' : State C V} {i : ℕ} {o : Outcome} {w : ℤ}
    (h : s.step codec (.thread i o) = some s') (hw : w ∈ s'.watermarks) :
    w ∈ s.watermarks ∨ ∃ id, Event.action codec (.thread i o) s = .setMinimum id ∧ w = id+1 := by
  obtain ⟨t,a,t',new,ht,hs,ha,rfl⟩ := thread_step h
  obtain ⟨hread,hnew,hput,hload⟩ := step_watermark hs
  have htmem : t ∈ s.threads := List.mem_of_getElem? ht
  rw [ha]
  simp only [mem_watermarks] at hw ⊢
  rcases hw with hw | hw | ⟨u,hu,hw⟩
  · cases a with
    | setMinimum id => exact Or.inr ⟨id,rfl,hw⟩
    | loadMinimum v => exact Or.inl (Or.inr (Or.inl (hw ▸ hload v rfl)))
    | _ => exact Or.inl (Or.inl hw)
  · cases a with
    | putMinimum v =>
      have hv : v = w := Option.some.inj hw
      exact Or.inl (Or.inr (Or.inr ⟨t,htmem,hv ▸ hput v rfl⟩))
    | _ => exact Or.inl (Or.inr (Or.inl hw))
  · rcases mem_threads hu with hu | rfl | hu
    · exact Or.inl (Or.inr (Or.inr ⟨u,hu,hw⟩))
    · rcases hread w hw with h | h
      · exact Or.inl (Or.inr (Or.inr ⟨t,htmem,h⟩))
      · exact Or.inl (Or.inl h)
    · simp [hnew u hu] at hw

theorem unfinished_of_step {s s' : State C V} {i : ℕ} {o : Outcome} {p : ℤ × C}
    (h : s.step codec (.thread i o) = some s') (hp : p ∈ s'.shared.unfinished) :
    p ∈ s.shared.unfinished ∨
      Event.action codec (.thread i o) s = .putCommand .async p.2 p.1 := by
  obtain ⟨t,a,t',new,_,_,ha,rfl⟩ := thread_step h
  rw [ha]
  cases a with
  | putCommand mode c id =>
    cases mode with
    | sync => exact Or.inl hp
    | async =>
      rcases List.mem_cons.mp hp with rfl | hp
      · exact Or.inr rfl
      · exact Or.inl hp
  | deleteCommand | leaveCommand => exact Or.inl (List.mem_of_mem_erase hp)
  | _ => exact Or.inl hp

/-- The steps that keep the watermark below all unfinished commands: `finishCommand(id)`
assigns `minimum` when everything up to `id` is finished, and a record is stored only
under an id that no watermark has passed. -/
def InOrder (codec : Codec C V) (e : Event C) (s : State C V) : Prop :=
  match e.action codec s with
  | .setMinimum id => ∀ p ∈ s.shared.unfinished, id < p.1
  | .putCommand .async _ id => ∀ w ∈ s.watermarks, w ≤ id
  | _ => True

instance (codec : Codec C V) (e : Event C) (s : State C V) : Decidable (InOrder codec e s) := by
  unfold InOrder
  induction e.action codec s using Action.casesOn with
  | putCommand mode => induction mode using Mode.casesOn <;> infer_instance
  | _ => infer_instance

/-- Ids start at 0 and are handed out upwards. -/
structure NonNegative (s : State C V) : Prop where
  nextId : 0 ≤ s.shared.fields.nextId
  put : ∀ t ∈ s.threads, ∀ id, t.putId = some id → 0 ≤ id
  unfinished : ∀ p ∈ s.shared.unfinished, 0 ≤ p.1

omit [DecidableEq C] in
theorem start_nonNegative (increment threshold : ℤ) (store : Store V) :
    NonNegative (State.start increment threshold store : State C V) where
  nextId := Int.le_refl 0
  put := by simp [State.start,Thread.putId]
  unfinished := by simp [State.start]

theorem nextId_le {a : Action C} {s : Shared C V} :
    s.fields.nextId ≤ (a.apply codec s).fields.nextId := by
  cases a with
  | getNextId => exact Int.le_of_lt (Int.lt_succ _)
  | _ => exact Int.le_refl _

theorem nonNegative_step {e : Event C} {s s' : State C V} (hn : NonNegative s)
    (h : s.step codec e = some s') : NonNegative s' := by
  cases e with
  | call mode c =>
    obtain rfl := Option.some.inj h
    refine ⟨hn.nextId,fun t ht id hid => ?_,hn.unfinished⟩
    rcases List.mem_append.mp ht with ht | ht
    · exact hn.put t ht id hid
    · simp_all [Thread.putId]
  | shutdown =>
    obtain rfl := Option.some.inj h
    refine ⟨hn.nextId,fun t ht id hid => ?_,hn.unfinished⟩
    rcases List.mem_append.mp ht with ht | ht
    · exact hn.put t ht id hid
    · simp_all [Thread.putId]
  | restart increment threshold =>
    obtain rfl := Option.some.inj h
    exact ⟨Int.le_refl 0,by simp [Thread.putId],hn.unfinished⟩
  | thread i o =>
    have hunfinished := fun p => unfinished_of_step (p:=p) h
    obtain ⟨t,a,t',new,ht,hs,ha,rfl⟩ := thread_step h
    obtain ⟨hid,hnew,hput⟩ := step_putId hs
    have htmem : t ∈ s.threads := List.mem_of_getElem? ht
    refine ⟨Int.le_trans hn.nextId nextId_le,fun u hu id hu' => ?_,fun p hp => ?_⟩
    · rcases mem_threads hu with hu | rfl | hu
      · exact hn.put u hu id hu'
      · rcases hid id hu' with ⟨h,_⟩ | ⟨h,_⟩
        · exact hn.put t htmem id h
        · exact h ▸ hn.nextId
      · simp [hnew u hu] at hu'
    · rcases hunfinished p hp with hp | hp
      · exact hn.unfinished p hp
      · exact hn.put t htmem p.1 (hput _ _ _ (ha.symm.trans hp))

/-- Over a restart the watermark goes back to 0, or to its stored copy. -/
theorem watermark_restart {increment threshold : ℤ} {s s' : State C V} (hn : NonNegative s)
    (hw : Watermark s) (h : s.step codec (.restart increment threshold) = some s') :
    Watermark s' := by
  obtain rfl := Option.some.inj h
  intro w hmem p hp
  rcases mem_watermarks.mp hmem with rfl | hmem | ⟨t,ht,hmem⟩
  · exact hn.unfinished p hp
  · exact hw w (mem_watermarks.mpr (Or.inr (Or.inl hmem))) p hp
  · simp_all [Thread.watermark]

theorem watermark_thread_step {i : ℕ} {o : Outcome} {s s' : State C V} (hw : Watermark s)
    (h : s.step codec (.thread i o) = some s') :
    Watermark s' ↔ InOrder codec (.thread i o) s := by
  constructor
  · -- the watermark and the id that a step brings in are compared in the state after it
    intro hw'
    obtain ⟨t,a,t',new,ht,hs,ha,rfl⟩ := thread_step h
    unfold InOrder
    rw [ha]
    cases a with
    | setMinimum id =>
      intro p hp
      have := hw' (id+1) (mem_watermarks.mpr (Or.inl rfl)) p hp
      omega
    | putCommand mode c id =>
      cases mode with
      | sync => trivial
      | async =>
        intro w hmem
        have hput := (step_putId hs).2.2 _ _ _ rfl
        refine hw' w (mem_watermarks.mpr ?_) (id,c) (by simp [Action.apply])
        rcases mem_watermarks.mp hmem with hmem | hmem | ⟨u,hu,hmem⟩
        · exact Or.inl hmem
        · exact Or.inr (Or.inl hmem)
        · have hut : u ≠ t := by
            rintro rfl
            cases u <;> simp_all [Thread.putId,Thread.watermark]
          exact Or.inr (Or.inr ⟨u,mem_threads_of_mem ht hu hut,hmem⟩)
    | _ => trivial
  · intro hc w hmem p hp
    unfold InOrder at hc
    rcases watermark_of_step h hmem with hmem | ⟨id,ha,rfl⟩
    · rcases unfinished_of_step h hp with hp | ha
      · exact hw w hmem p hp
      · rw [ha] at hc
        exact hc w hmem
    · rcases unfinished_of_step h hp with hp | ha'
      · rw [ha] at hc
        have := hc p hp
        omega
      · simp [ha] at ha'

theorem watermark_step {e : Event C} {s s' : State C V} (hn : NonNegative s) (hw : Watermark s)
    (h : s.step codec e = some s') : Watermark s' ↔ InOrder codec e s := by
  cases e with
  | thread i o => exact watermark_thread_step hw h
  | restart => exact iff_of_true (watermark_restart hn hw h) trivial
  | call | shutdown =>
    obtain rfl := Option.some.inj h
    refine iff_of_true (fun w hmem => hw w ?_) trivial
    simpa [mem_watermarks,Thread.watermark] using hmem

/-- In the runs of the queue the watermark stays at or below every unfinished command
exactly when all steps are in order, whatever the store held at the start. -/
theorem watermark_iff_inOrder (codec : Codec C V) (increment threshold : ℤ) (store : Store V)
    (es : List (Event C)) (s : State C V)
    (h : Runs.Reaches (State.step codec) Runs.anyStep (State.start increment threshold store) es s) :
    (∀ fs t, fs <+: es →
      Runs.Reaches (State.step codec) Runs.anyStep (State.start increment threshold store) fs t →
      Watermark t) ↔
    Runs.Reaches (State.step codec) (InOrder codec) (State.start increment threshold store) es s :=
  Runs.invariant_iff_conditions (start_nonNegative increment threshold store)
    (by simp [Watermark,State.start])
    (fun _ _ _ hn h => nonNegative_step hn h)
    (fun _ _ _ hn hw h => watermark_step hn hw h) h

def twoAccepted : List (Event ℕ) :=
  [.call .async 7,.call .async 8,.thread 1 .ok,.thread 2 .ok,.thread 1 .ok,.thread 2 .ok,
    .thread 1 .ok,.thread 2 .ok]

/-- The task started as thread `i` runs from the executor to the end of `finishCommand`. -/
def completes (i : ℕ) : List (Event ℕ) :=
  [.thread i .ok,.thread i .ok,.thread i .ok,.thread i .ok,.thread i .ok]

/-- The command accepted second finishes first and takes the watermark past the other one. -/
theorem watermark_overtaken :
    ¬ ∀ (es : List (Event ℕ)) (s : State ℕ ℕ),
      Runs.Reaches (State.step (Codec.plain ℕ)) Runs.anyStep (State.start 100 10 Store.empty) es s →
      Watermark s := by
  intro hall
  have hrun : ((Runs.run (State.step (Codec.plain ℕ)) (twoAccepted++completes 4)
      (State.start 100 10 Store.empty)).map fun s => (s.watermarks,s.shared.unfinished)) =
      some ([2],[(0,7)]) := by decide
  obtain ⟨s,hs,hp⟩ := Option.map_eq_some_iff.mp hrun
  simp only [Prod.mk.injEq] at hp
  have hw := hall _ s (by simpa using Runs.reaches_of_run .start hs) 2 (by simp [hp.1]) (0,7)
    (by simp [hp.2])
  omega

/-- Completed in the order of their ids, the two commands keep the watermark in place. -/
theorem watermark_two_in_order :
    ∃ s, Runs.Reaches (State.step (Codec.plain ℕ)) Runs.anyStep (State.start 100 10 Store.empty)
        (twoAccepted++completes 3++completes 4) s ∧
      ∀ fs t, fs <+: twoAccepted++completes 3++completes 4 →
        Runs.Reaches (State.step (Codec.plain ℕ)) Runs.anyStep (State.start 100 10 Store.empty) fs t →
        Watermark t := by
  have hrun : (Runs.runIf (State.step (Codec.plain ℕ)) (InOrder (Codec.plain ℕ))
      (twoAccepted++completes 3++completes 4) (State.start 100 10 Store.empty)).isSome := by decide
  obtain ⟨s,hs⟩ := Option.isSome_iff_exists.mp hrun
  have hin := Runs.reaches_of_runIf .start hs
  exact ⟨s,hin.weaken,
    (watermark_iff_inOrder (Codec.plain ℕ) 100 10 Store.empty _ s hin.weaken).mpr hin⟩

end CommandQueue
end Bigbird
