import Bigbird.Watermark

/-! The ids that `getNextId` hands out over any number of restarts. `nextId` is not
stored, so a new object counts from 0 again. -/
namespace Bigbird
namespace CommandQueue

variable {C V : Type} {codec : Codec C V}

def State.pending (s : State C V) : List (ℤ × C) := s.shared.unfinished ++ s.shared.unreturned

/-- There is a record `nodeName:id` or a command with this id that is not finished. -/
def State.Occupied (s : State C V) (id : ℤ) : Prop :=
  s.shared.store.command id ≠ none ∨ ∃ p ∈ s.pending, p.1 = id

/-- The next id is free and within reach of a later recovery loop, no record is about to be
overwritten, and no task is about to delete the record of another pending command. -/
structure FreshIds (s : State C V) : Prop where
  free : ¬s.Occupied s.shared.fields.nextId
  reachable : ∀ m ∈ s.shared.store.minimum, m ≤ s.shared.fields.nextId
  put : ∀ t ∈ s.threads, ∀ id, t.putId = some id → ¬s.Occupied id
  delete : ∀ c id n, .delete c id n ∈ s.threads → ∀ p ∈ s.pending, p.1 = id → p.2 = c

/-- What a new object needs to find for its ids from 0 on to be fresh. -/
structure Clean (s : State C V) : Prop where
  command : ∀ id, s.shared.store.command id = none
  pending : s.pending = []
  minimum : ∀ m ∈ s.shared.store.minimum, m ≤ 0

/-- A restart is taken only in a clean state; every other step is free. -/
def CleanRestart (e : Event C) (s : State C V) : Prop :=
  match e with
  | .restart _ _ => Clean s
  | _ => True

def NoRestart (e : Event C) (_ : State C V) : Prop :=
  match e with
  | .restart _ _ => False
  | _ => True

instance (e : Event C) (s : State C V) : Decidable (NoRestart e s) := by
  unfold NoRestart
  induction e using Event.casesOn <;> infer_instance

theorem NoRestart.cleanRestart {e : Event C} {s : State C V} (h : NoRestart e s) :
    CleanRestart e s := by
  cases e with
  | restart => exact h.elim
  | _ => trivial

/-- The command a thread holds, from the id it was given to the end of `delete`. -/
def Thread.carried : Thread C → Option (ℤ × C)
  | .put _ c id _ => some (id,c)
  | .recoverAdd l c => some (l,c)
  | t => t.task

def Thread.finishing : Thread C → Option ℤ
  | .compareMinimum id => some id
  | .setMinimum id => some id
  | _ => none

theorem step_carried {o : Outcome} {s : Shared C V} {t t' : Thread C} {a : Action C}
    {new : List (Thread C)} (h : t.Steps codec s o a t' new) :
    (∀ p, t'.carried = some p → t.carried = some p ∨
      (∃ v, s.store.command p.1 = some v ∧ codec.decode v = some p.2) ∨
      a = .getNextId ∧ p.1 = s.fields.nextId) ∧
    (∀ u ∈ new, ∀ p, u.carried = some p → t.carried = some p) ∧
    (∀ m c id, a = .putCommand m c id → t.carried = some (id,c)) := by
  cases h with
  | readable hv hd =>
    refine ⟨fun p hp => ?_,by simp,by simp⟩
    obtain rfl := Option.some.inj hp
    exact Or.inr (Or.inl ⟨_,hv,hd⟩)
  | _ => simp [Thread.carried,Thread.task]

theorem step_finishing {o : Outcome} {s : Shared C V} {t t' : Thread C} {a : Action C}
    {new : List (Thread C)} (h : t.Steps codec s o a t' new) :
    (∀ id, t'.finishing = some id → t.finishing = some id ∨ ∃ c, t.carried = some (id,c)) ∧
    (∀ u ∈ new, u.finishing = none) ∧ (∀ id, a = .setMinimum id → t.finishing = some id) := by
  cases h <;> simp [Thread.finishing,Thread.carried,Thread.task]

/-- A command that some thread, record or list of the history speaks of, with its id. -/
def State.InPlay (codec : Codec C V) (s : State C V) (p : ℤ × C) : Prop :=
  p ∈ s.pending ∨ (∃ t ∈ s.threads, t.carried = some p) ∨
    ∃ v, s.shared.store.command p.1 = some v ∧ codec.decode v = some p.2

/-- All ids in use lie between 0 and `nextId`, and each belongs to one command. -/
structure Numbered (codec : Codec C V) (s : State C V) : Prop where
  nonNegative : NonNegative s
  inPlay : ∀ p, s.InPlay codec p → 0 ≤ p.1 ∧ p.1 < s.shared.fields.nextId
  record : ∀ id, s.shared.store.command id ≠ none → 0 ≤ id ∧ id < s.shared.fields.nextId
  same : ∀ p q, s.InPlay codec p → s.InPlay codec q → p.1 = q.1 → p.2 = q.2
  finishing : ∀ t ∈ s.threads, ∀ id, t.finishing = some id → id < s.shared.fields.nextId
  watermark : ∀ w ∈ s.watermarks, w ≤ s.shared.fields.nextId
  put : ∀ t ∈ s.threads, ∀ id, t.putId = some id → ¬s.Occupied id
  putOnce : ∀ (i j : ℕ) (t u : Thread C) (id : ℤ), s.threads[i]? = some t → s.threads[j]? = some u →
    t.putId = some id → u.putId = some id → i = j

theorem Numbered.occupied {s : State C V} (hn : Numbered codec s) {id : ℤ} (h : s.Occupied id) :
    0 ≤ id ∧ id < s.shared.fields.nextId := by
  rcases h with h | ⟨p,hp,rfl⟩
  · exact hn.record id h
  · exact hn.inPlay p (Or.inl hp)

theorem Numbered.freshIds {s : State C V} (hn : Numbered codec s) : FreshIds s where
  free h := by
    have hlt := (hn.occupied h).2
    omega
  reachable m hm := hn.watermark m (mem_watermarks.mpr (Or.inr (Or.inl hm)))
  put := hn.put
  delete c id n ht p hp hid := hn.same p (id,c) (Or.inl hp) (Or.inr (Or.inl ⟨_,ht,rfl⟩)) hid

variable [DecidableEq C]

theorem pending_of_apply {a : Action C} {s : Shared C V} {p : ℤ × C}
    (h : p ∈ (a.apply codec s).unfinished ++ (a.apply codec s).unreturned) :
    p ∈ s.unfinished ++ s.unreturned ∨ ∃ m, a = .putCommand m p.2 p.1 := by
  rw [List.mem_append] at h ⊢
  cases a with
  | putCommand mode c id =>
    have hp : p ∈ s.unfinished ∨ p ∈ s.unreturned ∨ p = (id,c) := by
      cases mode <;> simp only [Action.apply,List.mem_cons] at h <;> tauto
    rcases hp with hp | hp | rfl
    · exact Or.inl (Or.inl hp)
    · exact Or.inl (Or.inr hp)
    · exact Or.inr ⟨mode,rfl⟩
  | returnNormally c id => exact Or.inl (h.imp_right List.mem_of_mem_erase)
  | deleteCommand c id => exact Or.inl (h.imp_left List.mem_of_mem_erase)
  | leaveCommand c id => exact Or.inl (h.imp_left List.mem_of_mem_erase)
  | _ => exact Or.inl h

section ThreadStep

variable {s : State C V} {o : Outcome} {i : ℕ} {t t' : Thread C} {a : Action C}
  {new : List (Thread C)}

theorem occupied_of_step {id : ℤ}
    (h : State.Occupied ⟨a.apply codec s.shared,s.threads.set i t' ++ new⟩ id) :
    s.Occupied id ∨ ∃ m c, a = .putCommand m c id := by
  rcases h with h | ⟨p,hp,rfl⟩
  · obtain ⟨v,hv⟩ := Option.ne_none_iff_exists'.mp h
    rcases record_of_apply hv with hv | ⟨m,c,ha,_⟩
    · exact Or.inl (Or.inl (by simp [hv]))
    · exact Or.inr ⟨m,c,ha⟩
  · rcases pending_of_apply hp with hp | ⟨m,ha⟩
    · exact Or.inl (Or.inr ⟨p,hp,rfl⟩)
    · exact Or.inr ⟨m,p.2,ha⟩

theorem inPlay_of_step {p : ℤ × C} (ht : t ∈ s.threads)
    (hs : t.Steps codec s.shared o a t' new)
    (h : State.InPlay codec ⟨a.apply codec s.shared,s.threads.set i t' ++ new⟩ p) :
    s.InPlay codec p ∨ a = .getNextId ∧ p.1 = s.shared.fields.nextId ∧ t'.carried = some p := by
  obtain ⟨hown,hnew,hput⟩ := step_carried hs
  rcases h with hp | ⟨u,hu,hp⟩ | ⟨v,hv,hd⟩
  · rcases pending_of_apply hp with hp | ⟨m,ha⟩
    · exact Or.inl (Or.inl hp)
    · exact Or.inl (Or.inr (Or.inl ⟨t,ht,hput _ _ _ ha⟩))
  · rcases mem_threads hu with hu | rfl | hu
    · exact Or.inl (Or.inr (Or.inl ⟨u,hu,hp⟩))
    · rcases hown p hp with h | h | ⟨h₁,h₂⟩
      · exact Or.inl (Or.inr (Or.inl ⟨t,ht,h⟩))
      · exact Or.inl (Or.inr (Or.inr h))
      · exact Or.inr ⟨h₁,h₂,hp⟩
    · exact Or.inl (Or.inr (Or.inl ⟨t,ht,hnew u hu p hp⟩))
  · rcases record_of_apply hv with hv | ⟨m,c,ha,rfl⟩
    · exact Or.inl (Or.inr (Or.inr ⟨v,hv,hd⟩))
    · have hc := codec.decode_encode _ _ hd
      have hcarried := hput m c p.1 ha
      rw [← hc] at hcarried
      exact Or.inl (Or.inr (Or.inl ⟨t,ht,hcarried⟩))

end ThreadStep

omit [DecidableEq C] in
theorem getElem?_threads {ts new : List (Thread C)} {i j : ℕ} {t u : Thread C}
    (h : (ts.set i t ++ new)[j]? = some u) : (j = i ∧ u = t) ∨ (j ≠ i ∧ ts[j]? = some u) ∨ u ∈ new := by
  by_cases hj : j < (ts.set i t).length
  · rw [List.getElem?_append_left hj] at h
    by_cases hij : i = j
    · subst hij
      rw [List.length_set] at hj
      rw [List.getElem?_set_self hj] at h
      exact Or.inl ⟨rfl,(Option.some.inj h).symm⟩
    · rw [List.getElem?_set_ne hij] at h
      exact Or.inr (Or.inl ⟨Ne.symm hij,h⟩)
  · rw [List.getElem?_append_right (Nat.le_of_not_lt hj)] at h
    exact Or.inr (Or.inr (List.mem_of_getElem? h))

omit [DecidableEq C] in
theorem Numbered.putId_lt {s : State C V} (hn : Numbered codec s) {j : ℕ} {t : Thread C} {id : ℤ}
    (ht : s.threads[j]? = some t) (h : t.putId = some id) : id < s.shared.fields.nextId := by
  cases t with
  | put m c k n =>
    obtain rfl := Option.some.inj h
    exact (hn.inPlay (k,c) (Or.inr (Or.inl ⟨_,List.mem_of_getElem? ht,rfl⟩))).2
  | _ => simp [Thread.putId] at h

omit [DecidableEq C] in
theorem putOnce_of_step {s : State C V}
    (honce : ∀ (i j : ℕ) (t u : Thread C) (id : ℤ), s.threads[i]? = some t → s.threads[j]? = some u →
      t.putId = some id → u.putId = some id → i = j)
    (hlt : ∀ (j : ℕ) (t : Thread C) (id : ℤ), s.threads[j]? = some t → t.putId = some id →
      id < s.shared.fields.nextId) {o : Outcome} {i : ℕ}
    {t t' : Thread C} {a : Action C} {new : List (Thread C)} (ht : s.threads[i]? = some t)
    (hs : t.Steps codec s.shared o a t' new) {j k : ℕ} {u v : Thread C} {id : ℤ}
    (hj : (s.threads.set i t' ++ new)[j]? = some u) (hk : (s.threads.set i t' ++ new)[k]? = some v)
    (hu : u.putId = some id) (hv : v.putId = some id) : j = k := by
  obtain ⟨hid,hnew,_⟩ := step_putId hs
  rcases getElem?_threads hj with ⟨rfl,rfl⟩ | ⟨_,hj'⟩ | hj'
  · rcases getElem?_threads hk with ⟨rfl,_⟩ | ⟨_,hk'⟩ | hk'
    · rfl
    · rcases hid id hu with ⟨h,_⟩ | ⟨h,_⟩
      · exact honce _ _ _ _ _ ht hk' h hv
      · have hlt' := hlt _ _ _ hk' hv
        omega
    · simp [hnew v hk'] at hv
  · rcases getElem?_threads hk with ⟨rfl,rfl⟩ | ⟨_,hk'⟩ | hk'
    · rcases hid id hv with ⟨h,_⟩ | ⟨h,_⟩
      · exact honce _ _ _ _ _ hj' ht hu h
      · have hlt' := hlt _ _ _ hj' hu
        omega
    · exact honce _ _ _ _ _ hj' hk' hu hv
    · simp [hnew v hk'] at hv
  · simp [hnew u hj'] at hu

theorem numbered_thread_step {i : ℕ} {o : Outcome} {s s' : State C V} (hn : Numbered codec s)
    (h : s.step codec (.thread i o) = some s') : Numbered codec s' := by
  have hnonneg := nonNegative_step hn.nonNegative h
  have hwatermark := fun w => watermark_of_step (w:=w) h
  obtain ⟨t,a,t',new,ht,hs,ha,rfl⟩ := thread_step h
  have htmem : t ∈ s.threads := List.mem_of_getElem? ht
  obtain ⟨hid,hnewId,hputId⟩ := step_putId hs
  obtain ⟨hfin,hnewFin,hset⟩ := step_finishing hs
  have hcarried := (step_carried hs).2.2
  have hnext : s.shared.fields.nextId ≤ (a.apply codec s.shared).fields.nextId := nextId_le
  refine ⟨hnonneg,fun p hp => ?_,fun id hrec => ?_,fun p q hp hq hpq => ?_,fun u hu id hu' => ?_,
    fun w hw => ?_,fun u hu id hu' hocc => ?_,fun j k u v id hj hk hu hv => ?_⟩
  · rcases inPlay_of_step htmem hs hp with hp | ⟨rfl,hp,_⟩
    · have hlt := hn.inPlay p hp
      exact ⟨hlt.1,Int.lt_of_lt_of_le hlt.2 hnext⟩
    · exact ⟨hp ▸ hn.nonNegative.nextId,hp ▸ Int.lt_succ _⟩
  · obtain ⟨v,hv⟩ := Option.ne_none_iff_exists'.mp hrec
    rcases record_of_apply hv with hv | ⟨m,c,rfl,_⟩
    · have hlt := hn.record id (by simp [hv])
      exact ⟨hlt.1,Int.lt_of_lt_of_le hlt.2 hnext⟩
    · have hlt := hn.inPlay (id,c) (Or.inr (Or.inl ⟨t,htmem,hcarried m c id rfl⟩))
      exact ⟨hlt.1,Int.lt_of_lt_of_le hlt.2 hnext⟩
  · rcases inPlay_of_step htmem hs hp with hp' | ⟨_,hp₁,hp₂⟩
    · rcases inPlay_of_step htmem hs hq with hq' | ⟨_,hq₁,_⟩
      · exact hn.same p q hp' hq' hpq
      · have hlt := hn.inPlay p hp'
        omega
    · rcases inPlay_of_step htmem hs hq with hq' | ⟨_,_,hq₂⟩
      · have hlt := hn.inPlay q hq'
        omega
      · rw [Option.some.inj (hp₂.symm.trans hq₂)]
  · rcases mem_threads hu with hu | rfl | hu
    · exact Int.lt_of_lt_of_le (hn.finishing u hu id hu') hnext
    · rcases hfin id hu' with h | ⟨c,h⟩
      · exact Int.lt_of_lt_of_le (hn.finishing t htmem id h) hnext
      · exact Int.lt_of_lt_of_le (hn.inPlay (id,c) (Or.inr (Or.inl ⟨t,htmem,h⟩))).2 hnext
    · simp [hnewFin u hu] at hu'
  · rcases hwatermark w hw with hw | ⟨id,ha',rfl⟩
    · exact Int.le_trans (hn.watermark w hw) hnext
    · exact Int.le_trans (hn.finishing t htmem id (hset id (ha.symm.trans ha'))) hnext
  · -- an occupied id is an old one, or the one this step has just stored a record under
    rcases occupied_of_step hocc with hold | ⟨m,c,rfl⟩
    · rcases mem_threads hu with hu | rfl | hu
      · exact hn.put u hu id hu' hold
      · rcases hid id hu' with ⟨h,_⟩ | ⟨rfl,_⟩
        · exact hn.put t htmem id h hold
        · have hlt := (hn.occupied hold).2
          omega
      · simp [hnewId u hu] at hu'
    · obtain ⟨j,hj⟩ := List.mem_iff_getElem?.mp hu
      rcases getElem?_threads hj with ⟨_,rfl⟩ | ⟨hji,hj⟩ | hu
      · rcases hid id hu' with ⟨_,h⟩ | ⟨_,h⟩ <;> simp at h
      · exact hji (hn.putOnce j i u t id hj ht hu' (hputId m c id rfl))
      · simp [hnewId u hu] at hu'
  · exact putOnce_of_step hn.putOnce (fun _ _ _ => hn.putId_lt) ht hs hj hk hu hv

theorem numbered_restart {increment threshold : ℤ} {s s' : State C V} (hn : Numbered codec s)
    (hc : Clean s) (h : s.step codec (.restart increment threshold) = some s') :
    Numbered codec s' := by
  have hnonneg := nonNegative_step hn.nonNegative h
  obtain rfl := Option.some.inj h
  have hpending := List.append_eq_nil_iff.mp hc.pending
  have hplay : ∀ p, ¬State.InPlay codec ⟨{ s.shared with
      fields := { increment := increment, threshold := threshold }
      inherited := s.shared.unfinished, recovered := [] },[.initializeMaximum]⟩ p := by
    rintro p (hp | ⟨t,ht,hp⟩ | ⟨v,hv,_⟩)
    · simp [State.pending,hpending] at hp
    · obtain rfl := List.mem_singleton.mp ht
      simp [Thread.carried,Thread.task] at hp
    · simp [hc.command] at hv
  refine ⟨hnonneg,fun p hp => absurd hp (hplay p),fun id hid => absurd (hc.command id) hid,
    fun p q hp => absurd hp (hplay p),by simp [Thread.finishing],fun w hw => ?_,
    by simp [Thread.putId],?_⟩
  · rcases mem_watermarks.mp hw with rfl | hw | ⟨t,ht,hw⟩
    · exact Int.le_refl 0
    · exact hc.minimum w hw
    · obtain rfl := List.mem_singleton.mp ht
      simp [Thread.watermark] at hw
  · intro i j t u id hi hj hti huj
    have ht := List.mem_of_getElem? hi
    obtain rfl := List.mem_singleton.mp ht
    simp [Thread.putId] at hti

omit [DecidableEq C] in
theorem numbered_newThread {s : State C V} (hn : Numbered codec s) {t : Thread C}
    (hcarried : t.carried = none) (hfinishing : t.finishing = none) (hputId : t.putId = none)
    (hwatermark : t.watermark = none) : Numbered codec { s with threads := s.threads ++ [t] } := by
  have hmem : ∀ u ∈ s.threads ++ [t], u ∈ s.threads ∨ u = t := by simp
  have hplay : ∀ p, State.InPlay codec { s with threads := s.threads ++ [t] } p → s.InPlay codec p := by
    rintro p (hp | ⟨u,hu,hp⟩ | hp)
    · exact Or.inl hp
    · rcases hmem u hu with hu | rfl
      · exact Or.inr (Or.inl ⟨u,hu,hp⟩)
      · simp [hcarried] at hp
    · exact Or.inr (Or.inr hp)
  refine ⟨⟨hn.nonNegative.nextId,fun u hu id hid => ?_,hn.nonNegative.unfinished⟩,
    fun p hp => hn.inPlay p (hplay p hp),hn.record,
    fun p q hp hq => hn.same p q (hplay p hp) (hplay q hq),fun u hu id hid => ?_,
    fun w hw => hn.watermark w ?_,fun u hu id hid => ?_,fun i j u v id hi hj hu hv => ?_⟩
  · rcases hmem u hu with hu | rfl
    · exact hn.nonNegative.put u hu id hid
    · simp [hputId] at hid
  · rcases hmem u hu with hu | rfl
    · exact hn.finishing u hu id hid
    · simp [hfinishing] at hid
  · rcases mem_watermarks.mp hw with hw' | hw' | ⟨u,hu,hw'⟩
    · exact mem_watermarks.mpr (Or.inl hw')
    · exact mem_watermarks.mpr (Or.inr (Or.inl hw'))
    · rcases hmem u hu with hu | rfl
      · exact mem_watermarks.mpr (Or.inr (Or.inr ⟨u,hu,hw'⟩))
      · simp [hwatermark] at hw'
  · rcases hmem u hu with hu | rfl
    · exact hn.put u hu id hid
    · simp [hputId] at hid
  · have hold : ∀ (k : ℕ) (w : Thread C), (s.threads ++ [t])[k]? = some w → w.putId = some id →
        s.threads[k]? = some w := by
      intro k w hk hw
      rw [List.getElem?_append] at hk
      split at hk
      · exact hk
      · have hwt := List.mem_singleton.mp (List.mem_of_getElem? hk)
        simp [hwt,hputId] at hw
    exact hn.putOnce i j u v id (hold i u hi hu) (hold j v hj hv) hu hv

theorem numbered_step {e : Event C} {s s' : State C V} (hn : Numbered codec s)
    (hc : CleanRestart e s) (h : s.step codec e = some s') : Numbered codec s' := by
  cases e with
  | thread i o => exact numbered_thread_step hn h
  | restart => exact numbered_restart hn hc h
  | call | shutdown =>
    obtain rfl := Option.some.inj h
    exact numbered_newThread hn rfl rfl rfl rfl

omit [DecidableEq C] in
theorem start_numbered (codec : Codec C V) (increment threshold : ℤ) :
    Numbered codec (State.start increment threshold Store.empty) := by
  have hplay : ∀ p, ¬State.InPlay codec (State.start increment threshold Store.empty) p := by
    rintro p (hp | ⟨t,ht,hp⟩ | ⟨v,hv,_⟩)
    · simp [State.pending,State.start] at hp
    · obtain rfl := List.mem_singleton.mp ht
      simp [Thread.carried,Thread.task] at hp
    · simp [State.start,Store.empty] at hv
  refine ⟨start_nonNegative _ _ _,fun p hp => absurd hp (hplay p),by simp [State.start,Store.empty],
    fun p q hp => absurd hp (hplay p),by simp [State.start,Thread.finishing],
    by simp [mem_watermarks,State.start,Store.empty,Thread.watermark],
    by simp [State.start,Thread.putId],?_⟩
  intro i j t u id hi hj ht hu
  have hmem := List.mem_of_getElem? hi
  obtain rfl := List.mem_singleton.mp hmem
  simp [Thread.putId] at ht

theorem handOut [Inhabited C] (s : State C V) (es : List (Event C)) (s₀ : State C V)
    (h : Runs.Reaches (State.step codec) NoRestart s₀ es s) :
    ∃ fs s', Runs.Reaches (State.step codec) NoRestart s₀ fs s' ∧
      s'.shared.fields.nextId = s.shared.fields.nextId + 1 ∧ s'.shared.store = s.shared.store ∧
      s'.pending = s.pending := by
  have hcall : Runs.Reaches (State.step codec) NoRestart s₀ (es++[.call .async default])
      { s with threads := s.threads ++ [.storeRemotely .async default] } :=
    .next (Event.call .async default) h (show NoRestart _ _ from trivial) rfl
  obtain ⟨new,hs⟩ : ∃ new, (Thread.storeRemotely .async default).step codec .ok s.shared =
      some (.getNextId,.put .async default s.shared.fields.nextId retries,new) := ⟨_,rfl⟩
  have hstep : State.step codec (.thread s.threads.length .ok)
      { s with threads := s.threads ++ [Thread.storeRemotely .async default] } =
      some ⟨Action.getNextId.apply codec s.shared,(s.threads ++ [Thread.storeRemotely .async default]).set
        s.threads.length (.put .async default s.shared.fields.nextId retries) ++ new⟩ := by
    simp [State.step,hs]
  exact ⟨_,_,.next (Event.thread s.threads.length .ok) hcall (show NoRestart _ _ from trivial) hstep,
    rfl,rfl,rfl⟩

theorem handOut_many [Inhabited C] (codec : Codec C V) (s : State C V) (n : ℕ) :
    ∃ fs s', Runs.Reaches (State.step codec) NoRestart s fs s' ∧
      s'.shared.fields.nextId = s.shared.fields.nextId + n ∧ s'.shared.store = s.shared.store ∧
      s'.pending = s.pending := by
  induction n with
  | zero => exact ⟨[],s,.start,by simp,rfl,rfl⟩
  | succ n ih =>
    obtain ⟨es,u,hu,hn,hs,hp⟩ := ih
    obtain ⟨fs,s',h',hn',hs',hp'⟩ := handOut u es s hu
    exact ⟨fs,s',h',by push_cast; omega,hs'.trans hs,hp'.trans hp⟩

/-- A new object that finds a record, an unfinished command or a minimum above 0 can hand
out an id that is in use or out of reach. -/
theorem unclean_restart [Inhabited C] {s s₁ : State C V} {increment threshold : ℤ}
    (hn : Numbered codec s) (hc : ¬Clean s)
    (h : s.step codec (.restart increment threshold) = some s₁) :
    ∃ fs s', Runs.Reaches (State.step codec) NoRestart s₁ fs s' ∧ ¬FreshIds s' := by
  obtain rfl := Option.some.inj h
  by_cases hocc : ∃ id, s.Occupied id
  · obtain ⟨id,hid⟩ := hocc
    obtain ⟨fs,s',hr,hnext,hstore,hpending⟩ := handOut_many codec ⟨{ s.shared with
      fields := { increment := increment, threshold := threshold }
      inherited := s.shared.unfinished, recovered := [] },[.initializeMaximum]⟩ id.toNat
    have hnext' : s'.shared.fields.nextId = id := by
      rw [hnext]
      have := (hn.occupied hid).1
      change 0 + ((id.toNat : ℕ) : ℤ) = id
      omega
    refine ⟨fs,s',hr,fun hf => hf.free ?_⟩
    rw [hnext',State.Occupied,hstore,hpending]
    exact hid
  · refine ⟨[],_,.start,fun hf => hc ⟨fun id => ?_,?_,hf.reachable⟩⟩
    · by_contra hid
      exact hocc ⟨id,Or.inl hid⟩
    · refine List.eq_nil_iff_forall_not_mem.mpr fun p hp => hocc ⟨p.1,Or.inr ⟨p,hp,rfl⟩⟩

/-- Ids are fresh in all runs whose restarts are clean, and only in these: every other
restart can go on to a state without fresh ids. -/
theorem freshIds_iff_clean [Inhabited C] (codec : Codec C V) (increment threshold : ℤ)
    (es : List (Event C)) (s : State C V)
    (h : Runs.Reaches (State.step codec) CleanRestart (State.start increment threshold Store.empty) es s) :
    FreshIds s ∧ ∀ increment' threshold' s₁,
      s.step codec (.restart increment' threshold') = some s₁ →
      ((∀ fs s', Runs.Reaches (State.step codec) NoRestart s₁ fs s' → FreshIds s') ↔ Clean s) := by
  have hn := h.invariant (start_numbered codec increment threshold)
    fun _ _ _ hn hc hstep => numbered_step hn hc hstep
  refine ⟨hn.freshIds,fun increment' threshold' s₁ hs => ⟨fun hall => ?_,fun hc fs s' hr => ?_⟩⟩
  · by_contra hc
    obtain ⟨fs,s',hr,hf⟩ := unclean_restart hn hc hs
    exact hf (hall fs s' hr)
  · exact (hr.invariant (numbered_restart hn hc hs)
      fun _ _ _ hn hne hstep => numbered_step hn hne.cleanRestart hstep).freshIds

/-- A command waits over a crash under the id 0, which the new object hands out again. -/
theorem id_handed_out_again :
    ¬ ∀ (es : List (Event ℕ)) (s : State ℕ ℕ),
      Runs.Reaches (State.step (Codec.plain ℕ)) Runs.anyStep (State.start 100 10 Store.empty) es s →
      FreshIds s := by
  intro hall
  have hrun : ((Runs.run (State.step (Codec.plain ℕ))
      [.call .async 7,.thread 1 .ok,.thread 1 .ok,.thread 1 .ok,.restart 100 10]
      (State.start 100 10 Store.empty)).map fun s =>
        (s.shared.fields.nextId,s.shared.store.command 0)) = some (0,some 7) := by decide
  obtain ⟨s,hs,hp⟩ := Option.map_eq_some_iff.mp hrun
  simp only [Prod.mk.injEq] at hp
  refine (hall _ s (Runs.reaches_of_run .start hs)).free (Or.inl ?_)
  simp [hp.1,hp.2]

/-- A command runs to the end, the process dies, and the next object starts from 0 again. -/
theorem freshIds_after_completion :
    ∃ es, ∃ s : State ℕ ℕ, Runs.Reaches (State.step (Codec.plain ℕ)) CleanRestart (State.start 100 10 Store.empty)
      (es ++ [.restart 100 10]) s ∧ s.shared.fields.nextId = 0 ∧ FreshIds s := by
  have hrun : ((Runs.runIf (State.step (Codec.plain ℕ)) NoRestart
      ([.call .async 7,.thread 1 .ok,.thread 1 .ok,.thread 1 .ok]++completes 2)
      (State.start 100 10 Store.empty)).map fun s =>
        (s.pending,s.shared.store.minimum,s.shared.store.command)) =
      some ([],none,Function.update (Function.update (fun _ => none) 0 (some 7)) 0 none) := rfl
  obtain ⟨s,hs,hp⟩ := Option.map_eq_some_iff.mp hrun
  simp only [Prod.mk.injEq,Function.update_idem] at hp
  have hclean : Clean s := ⟨fun id => by by_cases h : id = 0 <;> simp [hp.2.2,h],hp.1,by simp [hp.2.1]⟩
  have hreach := (Runs.reaches_of_runIf .start hs).mono fun _ _ he => he.cleanRestart
  have h := Runs.Reaches.next (Event.restart 100 10) hreach hclean rfl
  exact ⟨_,_,h,rfl,(freshIds_iff_clean (Codec.plain ℕ) 100 10 _ _ h).1⟩

end CommandQueue
end Bigbird
