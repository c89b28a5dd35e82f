import Bigbird.Watermark

/-! Durability of the queue: what the recovery loop of `initialize` hands to
`commandExecutor` after a crash or a shutdown. -/
namespace Bigbird
namespace CommandQueue

variable {C V : Type} [DecidableEq C] {codec : Codec C V}

/-- The commands that were unfinished at the restart and that the recovery loop has not
handed to `commandExecutor` yet. -/
def Shared.toRecover (s : Shared C V) (p : ℤ × C) : Prop := p ∈ s.inherited ∧ p ∉ s.recovered

/-- Once `initialize` and its recovery loop have run to the end, every command that was
unfinished at the restart is submitted again. -/
def Recovered (s : State C V) : Prop :=
  .initialized ∈ s.threads → ∀ p ∈ s.shared.inherited, p ∈ s.shared.recovered

/-- The steps that lose no accepted command. A record is stored under an id that no other
unfinished command has and no watermark has passed; the task of one command does not
delete the record of another; `finishCommand` completes in the order of the ids; the
maximum stays above what the recovery loop has still to reach; and at a crash a maximum
above all unfinished commands is in the store. -/
def Durable (codec : Codec C V) (e : Event C) (s : State C V) : Prop :=
  (match e with
    | .restart _ _ => ∀ p ∈ s.shared.unfinished, ∃ m ∈ s.shared.store.maximum, p.1 < m
    | _ => True) ∧
  match e.action codec s with
  | .putCommand mode _ id => (∀ p ∈ s.shared.unfinished, p.1 ≠ id) ∧
      (mode = .async → ∀ w ∈ s.watermarks, w ≤ id)
  | .deleteCommand c id => ∀ p ∈ s.shared.unfinished, p.1 = id → p.2 = c
  | .setMinimum id => ∀ p ∈ s.shared.unfinished, id < p.1
  | .putMaximum v => ∀ p ∈ s.shared.inherited, p ∉ s.shared.recovered → p.1 < v
  | .setMaximum v => ∀ p ∈ s.shared.inherited, p ∉ s.shared.recovered → p.1 < v
  | _ => True

instance (codec : Codec C V) (e : Event C) (s : State C V) : Decidable (Durable codec e s) := by
  unfold Durable
  refine @instDecidableAnd _ _ ?_ ?_
  · induction e using Event.casesOn <;> infer_instance
  · induction e.action codec s using Action.casesOn <;> infer_instance

omit [DecidableEq C] in
theorem Durable.inOrder {e : Event C} {s : State C V} (h : Durable codec e s) :
    InOrder codec e s := by
  unfold Durable at h
  unfold InOrder
  split
  · rename_i id ha
    simpa [ha] using h.2
  · rename_i c id ha
    rw [ha] at h
    exact h.2.2 rfl
  · trivial

/-- How far the thread of `initialize` has come: what is still to recover lies ahead of it,
below the maximum that it reads or has read. -/
def Thread.Ahead (s : Shared C V) : Thread C → Prop
  | .initializeMaximum => ∀ p, s.toRecover p → ∃ m ∈ s.store.maximum, p.1 < m
  | .initializeMinimum => ∀ p, s.toRecover p → p.1 < s.fields.maximum
  | .recovery => ∀ p, s.toRecover p → p.1 < s.fields.maximum
  | .recover l => ∀ p, s.toRecover p → l ≤ p.1 ∧ p.1 < s.fields.maximum
  | .recoverGet l => ∀ p, s.toRecover p → l ≤ p.1 ∧ p.1 < s.fields.maximum
  | .recoverAdd l c => ∀ p, s.toRecover p → l ≤ p.1 ∧ p.1 < s.fields.maximum ∧ (p.1 = l → p.2 = c)
  | .initialized => ∀ p, ¬s.toRecover p
  | _ => True

structure Safe (codec : Codec C V) (s : State C V) : Prop where
  nonNegative : NonNegative s
  watermark : Watermark s
  nodup : s.shared.unfinished.Nodup
  record : ∀ p ∈ s.shared.unfinished, s.shared.store.command p.1 = some (codec.encode p.2)
  pending : ∀ p, s.shared.toRecover p → p ∈ s.shared.unfinished
  task : ∀ t ∈ s.threads, ∀ p, t.task = some p → ¬s.shared.toRecover p
  ahead : ∀ t ∈ s.threads, t.Ahead s.shared

theorem toRecover_of_apply {a : Action C} {s : Shared C V} {p : ℤ × C}
    (h : (a.apply codec s).toRecover p) : s.toRecover p := by
  cases a with
  | resubmit c id => exact ⟨h.1,fun hp => h.2 (List.mem_cons_of_mem _ hp)⟩
  | _ => exact h

theorem ahead_own_step {o : Outcome} {s : Shared C V} {t t' : Thread C} {a : Action C}
    {new : List (Thread C)} (h : t.Steps codec s o a t' new) (ht : t.Ahead s)
    (hdec : ∀ c, codec.decode (codec.encode c) = some c)
    (hmin : ∀ p, s.toRecover p → s.fields.minimum ≤ p.1)
    (hrec : ∀ p, s.toRecover p → s.store.command p.1 = some (codec.encode p.2)) :
    t'.Ahead (a.apply codec s) := by
  cases h with
  | initializeMaximum hm =>
    intro p hp
    obtain ⟨m,hm',hlt⟩ := ht p hp
    exact (Option.some.inj (hm.symm.trans hm')) ▸ hlt
  | noMaximum hm =>
    intro p hp
    obtain ⟨m,hm',_⟩ := ht p hp
    simp [hm] at hm'
  | initializeMinimum | noMinimum => exact ht
  | recovery => exact fun p hp => ⟨hmin p hp,ht p hp⟩
  | recover => exact ht
  | initialized hl =>
    intro p hp
    have := ht p hp
    omega
  | readable hv hd =>
    intro p hp
    refine ⟨(ht p hp).1,(ht p hp).2,?_⟩
    rintro rfl
    obtain rfl := Option.some.inj (hv.symm.trans (hrec p hp))
    exact Option.some.inj ((hdec p.2).symm.trans hd)
  | @unreadable l hnone =>
    -- a record to recover would have decoded
    intro p hp
    have hl : p.1 ≠ l := by
      rintro rfl
      simpa [hdec] using hnone _ (hrec p hp)
    have hp' := ht p hp
    exact ⟨by omega,hp'.2⟩
  | @recoverAdd _ l c =>
    intro p hp
    have hp' := ht p (toRecover_of_apply hp)
    have hl : p.1 ≠ l := fun hl => hp.2 (by simp [Action.apply,← hl,← hp'.2.2 hl])
    exact ⟨by omega,hp'.2.1⟩
  | _ => trivial

omit [DecidableEq C] in
theorem ahead_new {o : Outcome} {s s' : Shared C V} {t t' u : Thread C} {a : Action C}
    {new : List (Thread C)} (h : t.Steps codec s o a t' new) (hu : u ∈ new) :
    u.Ahead s' := by
  cases h with
  | getNextId =>
    obtain rfl := List.mem_singleton.mp (List.mem_ite_nil_right.mp hu).2
    trivial
  | addCommand | recoverAdd =>
    obtain rfl := List.mem_singleton.mp hu
    trivial
  | _ => cases hu

theorem ahead_other_step {a : Action C} {s : Shared C V} {u : Thread C} (hu : u.Ahead s)
    (hload : ∀ v, a = .loadMaximum v → ∀ p, s.toRecover p → p.1 < v)
    (hput : ∀ v, a = .putMaximum v → ∀ p, s.toRecover p → p.1 < v)
    (hset : ∀ v, a = .setMaximum v → ∀ p, s.toRecover p → p.1 < v) :
    u.Ahead (a.apply codec s) := by
  have hmax : ∀ p, (a.apply codec s).toRecover p → p.1 < s.fields.maximum →
      p.1 < (a.apply codec s).fields.maximum := by
    intro p hp hlt
    cases a with
    | setMaximum v => exact hset v rfl p hp
    | loadMaximum v => exact hload v rfl p hp
    | _ => exact hlt
  cases u with
  | initializeMaximum =>
    intro p hp
    cases a with
    | putMaximum v => exact ⟨v,rfl,hput v rfl p hp⟩
    | _ => exact hu p (toRecover_of_apply hp)
  | initializeMinimum => exact fun p hp => hmax p hp (hu p (toRecover_of_apply hp))
  | recovery => exact fun p hp => hmax p hp (hu p (toRecover_of_apply hp))
  | recover l =>
    intro p hp
    have hp' := hu p (toRecover_of_apply hp)
    exact ⟨hp'.1,hmax p hp hp'.2⟩
  | recoverGet l =>
    intro p hp
    have hp' := hu p (toRecover_of_apply hp)
    exact ⟨hp'.1,hmax p hp hp'.2⟩
  | recoverAdd l c =>
    intro p hp
    have hp' := hu p (toRecover_of_apply hp)
    exact ⟨hp'.1,hmax p hp hp'.2.1,hp'.2.2⟩
  | initialized => exact fun p hp => hu p (toRecover_of_apply hp)
  | _ => trivial

omit [DecidableEq C] in
/-- The maximum that `initialize` reads lies above all that is to recover. -/
theorem loadMaximum_above {o : Outcome} {s : Shared C V} {t t' : Thread C} {v : ℤ}
    {new : List (Thread C)} (h : t.Steps codec s o (.loadMaximum v) t' new) (ht : t.Ahead s)
    {p : ℤ × C} (hp : s.toRecover p) : p.1 < v := by
  cases h with
  | initializeMaximum hm =>
    obtain ⟨m,hm',hlt⟩ := ht p hp
    exact (Option.some.inj (hm.symm.trans hm')) ▸ hlt

section Access

variable {s : State C V} {a : Action C}

theorem Safe.nodup_apply (hs : Safe codec s)
    (hfresh : ∀ m c id, a = .putCommand m c id → ∀ p ∈ s.shared.unfinished, p.1 ≠ id) :
    (a.apply codec s.shared).unfinished.Nodup := by
  cases a with
  | putCommand mode c id =>
    cases mode with
    | sync => exact hs.nodup
    | async => exact List.nodup_cons.mpr ⟨fun hmem => hfresh _ c id rfl _ hmem rfl,hs.nodup⟩
  | deleteCommand c id => exact hs.nodup.erase _
  | leaveCommand c id => exact hs.nodup.erase _
  | _ => exact hs.nodup

theorem Safe.record_apply (hs : Safe codec s)
    (hfresh : ∀ m c id, a = .putCommand m c id → ∀ p ∈ s.shared.unfinished, p.1 ≠ id)
    (hdelete : ∀ c id, a = .deleteCommand c id → ∀ p ∈ s.shared.unfinished, p.1 = id → p.2 = c) :
    ∀ p ∈ (a.apply codec s.shared).unfinished,
      (a.apply codec s.shared).store.command p.1 = some (codec.encode p.2) := by
  intro p hp
  cases a with
  | putCommand mode c id =>
    have hold : p ∈ s.shared.unfinished →
        Function.update s.shared.store.command id (some (codec.encode c)) p.1 =
          some (codec.encode p.2) := by
      intro hp
      rw [Function.update_of_ne (hfresh _ c id rfl p hp)]
      exact hs.record p hp
    cases mode with
    | sync => exact hold hp
    | async =>
      rcases List.mem_cons.mp hp with rfl | hp
      · simp [Action.apply]
      · exact hold hp
  | deleteCommand c id =>
    have hmem := List.mem_of_mem_erase hp
    have hne : p.1 ≠ id := by
      intro hid
      have hpc : p = (id,c) := Prod.ext hid (hdelete c id rfl p hmem hid)
      exact (hs.nodup.mem_erase_iff.mp hp).1 hpc
    exact (Function.update_of_ne hne _ _).trans (hs.record p hmem)
  | leaveCommand c id => exact hs.record p (List.mem_of_mem_erase hp)
  | _ => exact hs.record p hp

/-- What is to recover leaves the unfinished commands only after it was recovered. -/
theorem Safe.pending_apply (hs : Safe codec s)
    (htaken : ∀ c id, a = .deleteCommand c id ∨ a = .leaveCommand c id →
      ¬s.shared.toRecover (id,c)) {p : ℤ × C} (hp : (a.apply codec s.shared).toRecover p) :
    p ∈ (a.apply codec s.shared).unfinished := by
  have hp' := toRecover_of_apply hp
  have hmem := hs.pending p hp'
  have hne : ∀ c id, a = .deleteCommand c id ∨ a = .leaveCommand c id → p ≠ (id,c) := by
    rintro c id ha rfl
    exact htaken c id ha hp'
  cases a with
  | putCommand mode c id =>
    cases mode with
    | sync => exact hmem
    | async => exact List.mem_cons_of_mem _ hmem
  | deleteCommand c id => exact (List.mem_erase_of_ne (hne c id (Or.inl rfl))).mpr hmem
  | leaveCommand c id => exact (List.mem_erase_of_ne (hne c id (Or.inr rfl))).mpr hmem
  | _ => exact hmem

end Access

theorem safe_thread_step {i : ℕ} {o : Outcome} {s s' : State C V}
    (hdec : ∀ c, codec.decode (codec.encode c) = some c) (hs : Safe codec s)
    (hc : Durable codec (.thread i o) s) (h : s.step codec (.thread i o) = some s') :
    Safe codec s' := by
  have hnonneg := nonNegative_step hs.nonNegative h
  have hwatermark := (watermark_thread_step hs.watermark h).mpr hc.inOrder
  obtain ⟨t,a,t',new,ht,hstep,ha,rfl⟩ := thread_step h
  obtain ⟨htask,hnewTask,hown⟩ := step_task hstep
  have htmem : t ∈ s.threads := List.mem_of_getElem? ht
  have hc := hc.2
  rw [ha] at hc
  -- the command that a task returns from or deletes was recovered before
  have htaken : ∀ c id, a = .deleteCommand c id ∨ a = .leaveCommand c id →
      ¬s.shared.toRecover (id,c) := fun c id hcid =>
    hs.task t htmem (id,c) (hown c id (by tauto))
  have hfresh : ∀ m c id, a = .putCommand m c id → ∀ p ∈ s.shared.unfinished, p.1 ≠ id := by
    rintro m c id rfl
    exact hc.1
  have hdelete : ∀ c id, a = .deleteCommand c id →
      ∀ p ∈ s.shared.unfinished, p.1 = id → p.2 = c := by
    rintro c id rfl
    exact hc
  refine ⟨hnonneg,hwatermark,hs.nodup_apply hfresh,hs.record_apply hfresh hdelete,
    fun p hp => hs.pending_apply htaken hp,?_,?_⟩
  · intro u hu p hup hp
    have hp' := toRecover_of_apply hp
    rcases mem_threads hu with hu | rfl | hu
    · exact hs.task u hu p hup hp'
    · rcases htask p hup with h | ⟨m,rfl⟩
      · exact hs.task t htmem p h hp'
      · exact hc.1 p (hs.pending p hp') rfl
    · rcases hnewTask u hu p hup with h | rfl
      · exact hs.task t htmem p h hp'
      · exact hp.2 (by simp [Action.apply])
  · intro u hu
    rcases mem_threads hu with hu | rfl | hu
    · refine ahead_other_step (hs.ahead u hu) ?_ ?_ ?_
      · rintro v rfl p hp
        exact loadMaximum_above hstep (hs.ahead t htmem) hp
      · rintro v rfl p hp
        exact hc p hp.1 hp.2
      · rintro v rfl p hp
        exact hc p hp.1 hp.2
    · refine ahead_own_step hstep (hs.ahead t htmem) hdec (fun p hp => ?_) (fun p hp => ?_)
      · exact hs.watermark _ (mem_watermarks.mpr (Or.inl rfl)) p (hs.pending p hp)
      · exact hs.record p (hs.pending p hp)
    · exact ahead_new hstep hu

theorem safe_restart {increment threshold : ℤ} {s s' : State C V} (hs : Safe codec s)
    (hc : Durable codec (.restart increment threshold) s)
    (h : s.step codec (.restart increment threshold) = some s') : Safe codec s' := by
  have hnonneg := nonNegative_step hs.nonNegative h
  have hwatermark := watermark_restart hs.nonNegative hs.watermark h
  obtain rfl := Option.some.inj h
  refine ⟨hnonneg,hwatermark,hs.nodup,hs.record,fun p hp => hp.1,?_,?_⟩
  · simp [Thread.task]
  · intro u hu
    obtain rfl := List.mem_singleton.mp hu
    exact fun p hp => hc.1 p hp.1

theorem safe_step {e : Event C} {s s' : State C V}
    (hdec : ∀ c, codec.decode (codec.encode c) = some c) (hs : Safe codec s)
    (hc : Durable codec e s) (h : s.step codec e = some s') : Safe codec s' := by
  cases e with
  | thread i o => exact safe_thread_step hdec hs hc h
  | restart => exact safe_restart hs hc h
  | call | shutdown =>
    have hnonneg := nonNegative_step hs.nonNegative h
    have hwatermark := (watermark_step hs.nonNegative hs.watermark h).mpr trivial
    obtain rfl := Option.some.inj h
    refine ⟨hnonneg,hwatermark,hs.nodup,hs.record,hs.pending,fun u hu => ?_,fun u hu => ?_⟩
    · rcases List.mem_append.mp hu with hu | hu
      · exact hs.task u hu
      · simp_all [Thread.task]
    · rcases List.mem_append.mp hu with hu | hu
      · exact hs.ahead u hu
      · simp_all [Thread.Ahead]

omit [DecidableEq C] in
theorem start_safe (codec : Codec C V) (increment threshold : ℤ) (store : Store V) :
    Safe codec (State.start increment threshold store) where
  nonNegative := start_nonNegative increment threshold store
  watermark := by simp [Watermark,State.start]
  nodup := List.nodup_nil
  record := by simp [State.start]
  pending := by simp [State.start,Shared.toRecover]
  task := by simp [State.start,Thread.task]
  ahead := by simp [State.start,Thread.Ahead,Shared.toRecover]

/-- In a run whose steps are all durable, over any number of crashes, shutdowns and
restarts, no accepted command is lost. -/
theorem recovered_of_durable (codec : Codec C V)
    (hdec : ∀ c, codec.decode (codec.encode c) = some c) (increment threshold : ℤ)
    (store : Store V) (es : List (Event C)) (s : State C V)
    (h : Runs.Reaches (State.step codec) (Durable codec) (State.start increment threshold store) es s) :
    Recovered s := by
  have hs := h.invariant (start_safe codec increment threshold store)
    fun _ _ _ hs hc hstep => safe_step hdec hs hc hstep
  intro hinit p hp
  by_contra hrec
  exact hs.ahead _ hinit p ⟨hp,hrec⟩

/-- A command is accepted and the process dies before a maximum was ever stored:
`initialize` returns at once and nothing is submitted. -/
theorem crash_before_first_batch :
    ¬ ∀ (es : List (Event ℕ)) (s : State ℕ ℕ),
      Runs.Reaches (State.step (Codec.plain ℕ)) Runs.anyStep (State.start 100 10 Store.empty) es s →
      Recovered s := by
  intro hall
  have hrun : ((Runs.run (State.step (Codec.plain ℕ))
      [.call .async 7,.thread 1 .ok,.thread 1 .ok,.thread 1 .ok,.restart 100 10,.thread 0 .ok]
      (State.start 100 10 Store.empty)).map fun s =>
        (s.threads,s.shared.inherited,s.shared.recovered)) =
      some ([.initialized],[(0,7)],[]) := by decide
  obtain ⟨s,hs,hp⟩ := Option.map_eq_some_iff.mp hrun
  simp only [Prod.mk.injEq] at hp
  have hr := hall _ s (Runs.reaches_of_run .start hs) (by simp [hp.1]) (0,7) (by simp [hp.2.1])
  simp [hp.2.2] at hr

/-- A command that waits in the executor over a shutdown is recovered after the restart. -/
theorem recovered_after_shutdown :
    ∃ es, ∃ s : State ℕ ℕ, Runs.Reaches (State.step (Codec.plain ℕ)) (Durable (Codec.plain ℕ))
      (State.start 100 10 Store.empty) es s ∧ .initialized ∈ s.threads ∧ s.shared.inherited = [(0,7)] ∧
      ∀ p ∈ s.shared.inherited, p ∈ s.shared.recovered := by
  have hrun : ((Runs.runIf (State.step (Codec.plain ℕ)) (Durable (Codec.plain ℕ))
      ([.call .async 7,.thread 1 .ok,.thread 1 .ok,.thread 1 .ok,.shutdown,.thread 3 .ok,
        .thread 3 .ok,.thread 3 .ok,.thread 3 .ok,.restart 100 10] ++
        List.replicate 205 (.thread 0 .ok)) (State.start 100 10 Store.empty)).map fun s =>
        (s.threads.contains .initialized,s.shared.inherited)) =
      some (true,[(0,7)]) := by decide +kernel
  obtain ⟨s,hs,hp⟩ := Option.map_eq_some_iff.mp hrun
  simp only [Prod.mk.injEq,List.contains_iff_mem] at hp
  have h := Runs.reaches_of_runIf .start hs
  exact ⟨_,s,h,hp.1,hp.2,recovered_of_durable (Codec.plain ℕ) (fun _ => rfl) 100 10 Store.empty _ s h hp.1⟩

end CommandQueue
end Bigbird
