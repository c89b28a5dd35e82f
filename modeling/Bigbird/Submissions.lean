import Bigbird.FreshIds

/-! What one session hands to `commandExecutor`: the commands of `addAsync` and those that
the recovery loop finds in the store. Records are told apart by how often the session has
stored one under their id. -/
namespace Bigbird
namespace CommandQueue

variable {C V : Type} {codec : Codec C V}

/-- A session with its history: `version` counts the records stored under an id, with 0
for what an earlier session left; `held` is the version of the record that a thread stored
or read last; `added` are the ids stored by `addAsync`, `handed` the records handed over. -/
structure Session (C V : Type) where
  state : State C V
  version : ℤ → ℕ
  held : ℕ → ℕ
  added : List ℤ
  handed : List (ℤ × ℕ)

def Session.start (increment threshold : ℤ) (store : Store V) : Session C V where
  state := State.start increment threshold store
  version := fun _ => 0
  held := fun _ => 0
  added := []
  handed := []

/-- What the step of thread `i` adds to the history. -/
def Session.record (s : Session C V) (i : ℕ) (o : Outcome) : Session C V :=
  match s.state.threads[i]?,o with
  | some (.put mode _ id _),.ok => { s with
      version := Function.update s.version id (s.version id + 1)
      held := Function.update s.held i (s.version id + 1)
      added := match mode with
        | .sync => s.added
        | .async => id::s.added }
  | some (.recoverGet l),.ok => { s with held := Function.update s.held i (s.version l) }
  | some (.addCommand _ id),_ => { s with handed := (id,s.held i)::s.handed }
  | some (.recoverAdd l _),_ => { s with handed := (l,s.held i)::s.handed }
  | _,_ => s

def Session.step [DecidableEq C] (codec : Codec C V) (e : Event C) (s : Session C V) :
    Option (Session C V) :=
  (s.state.step codec e).map fun s' => match e with
    | .thread i o => { s.record i o with state := s' }
    | _ => { s with state := s' }

/-- In one session the recovery loop reads no record that an `addAsync` has stored. -/
def Unread (codec : Codec C V) (e : Event C) (s : Session C V) : Prop :=
  match e with
  | .thread i .ok => ∀ l ∈ s.added, s.state.threads[i]? = some (.recoverGet l) →
      (s.state.shared.store.command l).bind codec.decode = none
  | .restart _ _ => False
  | _ => True

instance [DecidableEq C] (codec : Codec C V) (e : Event C) (s : Session C V) :
    Decidable (Unread codec e s) := by
  unfold Unread
  induction e using Event.casesOn with
  | thread i o => induction o using Outcome.casesOn <;> infer_instance
  | _ => infer_instance

def Thread.adding : Thread C → Option ℤ
  | .addCommand _ id => some id
  | _ => none

def Thread.rereads : Thread C → Option ℤ
  | .recoverAdd l _ => some l
  | _ => none

def Thread.position : Thread C → Option ℤ
  | .recover l => some l
  | .recoverGet l => some l
  | .recoverAdd l _ => some l
  | _ => none

/-- `initialize` and its recovery loop, until the loop is over. -/
def Thread.recovering : Thread C → Bool
  | .initializeMaximum => true
  | .initializeMinimum => true
  | .recovery => true
  | t => t.position.isSome

theorem step_adding {o : Outcome} {s : Shared C V} {t t' : Thread C} {a : Action C}
    {new : List (Thread C)} (h : t.Steps codec s o a t' new) :
    (∀ id, t'.adding = some id → ∃ c n, t = .put .async c id n ∧ o = .ok) ∧
    (∀ l, t'.rereads = some l → t = .recoverGet l ∧ o = .ok ∧
      (s.store.command l).bind codec.decode ≠ none) ∧
    (∀ u ∈ new, u.adding = none ∧ u.rereads = none ∧ u.recovering = false) := by
  cases h with
  | getNextId => cases hb : s.fields.needsBatch <;>
      simp [Thread.adding,Thread.rereads,Thread.recovering,Thread.position]
  | readable hv hd => simp [Thread.adding,Thread.rereads,hv,hd]
  | _ => simp [Thread.adding,Thread.rereads,Thread.recovering,Thread.position]

/-- The loop goes upwards, and past each record that it hands over. -/
theorem step_recovering {o : Outcome} {s : Shared C V} {t t' : Thread C} {a : Action C}
    {new : List (Thread C)} (h : t.Steps codec s o a t' new) (ht' : t'.recovering) :
    t.recovering ∧ (∀ k l, t.position = some l → k < l → ∃ l', t'.position = some l' ∧ k < l') ∧
    ∀ l, t.rereads = some l → t'.position = some (l+1) := by
  cases h with
  | unreadable =>
    refine ⟨rfl,fun k l hl hk => ⟨_,rfl,?_⟩,by simp [Thread.rereads]⟩
    obtain rfl := Option.some.inj hl
    omega
  | recoverAdd =>
    refine ⟨rfl,fun k l hl hk => ⟨_,rfl,?_⟩,fun l hl => ?_⟩
    · obtain rfl := Option.some.inj hl
      omega
    · obtain rfl := Option.some.inj hl
      rfl
  | _ => simp_all [Thread.recovering,Thread.position,Thread.rereads]

/-- No record is handed over twice, and none can be: what `addAsync` is about to hand over
was not handed over before and is not read by the loop, and the loop has handed over only
records below its position. -/
structure HandedOnce (s : Session C V) : Prop where
  nodup : s.handed.Nodup
  putId : ∀ (i : ℕ) (t : Thread C) (id : ℤ), s.state.threads[i]? = some t → t.putId = some id →
    id < s.state.shared.fields.nextId ∧ s.version id = 0
  putOnce : ∀ (i j : ℕ) (t u : Thread C) (id : ℤ), s.state.threads[i]? = some t →
    s.state.threads[j]? = some u → t.putId = some id → u.putId = some id → i = j
  version : ∀ id, s.version id ≠ 0 → s.version id = 1 ∧ id < s.state.shared.fields.nextId
  handed : ∀ p ∈ s.handed, p.2 ≤ s.version p.1
  added : ∀ id ∈ s.added, s.version id = 1
  adding : ∀ (i : ℕ) (t : Thread C) (id : ℤ), s.state.threads[i]? = some t → t.adding = some id →
    s.held i = 1 ∧ id ∈ s.added ∧ (id,1) ∉ s.handed
  addOnce : ∀ (i j : ℕ) (t u : Thread C) (id : ℤ), s.state.threads[i]? = some t →
    s.state.threads[j]? = some u → t.adding = some id → u.adding = some id → i = j
  accounted : ∀ id ∈ s.added, (id,1) ∈ s.handed ∨
    ∃ (i : ℕ) (t : Thread C), s.state.threads[i]? = some t ∧ t.adding = some id
  first : ∀ (i : ℕ) (t : Thread C), s.state.threads[i]? = some t → t.recovering → i = 0
  loop : ∀ (i : ℕ) (t : Thread C), s.state.threads[i]? = some t → t.recovering → ∀ p ∈ s.handed,
    (p.1 ∈ s.added ∧ p.2 = 1) ∨ ∃ l, t.position = some l ∧ p.1 < l
  rereads : ∀ (i : ℕ) (t : Thread C) (l : ℤ), s.state.threads[i]? = some t → t.rereads = some l →
    s.held i = 0 ∨ s.held i = 1 ∧ s.version l = 1 ∧ l ∉ s.added

theorem start_handedOnce (increment threshold : ℤ) (store : Store V) :
    HandedOnce (Session.start increment threshold store : Session C V) := by
  have hone : ∀ (i : ℕ) (t : Thread C), [Thread.initializeMaximum][i]? = some t →
      i = 0 ∧ t = .initializeMaximum := by
    intro i t ht
    obtain ⟨hi,rfl⟩ := List.getElem?_eq_some_iff.mp ht
    rw [List.length_singleton] at hi
    exact ⟨by omega,by simp⟩
  constructor
  case putId | adding | rereads =>
    intro i t id ht hid
    obtain ⟨_,rfl⟩ := hone i t ht
    simp [Thread.putId,Thread.adding,Thread.rereads] at hid
  case putOnce | addOnce =>
    intro i j t u id ht _ hid
    obtain ⟨_,rfl⟩ := hone i t ht
    simp [Thread.putId,Thread.adding] at hid
  case first => exact fun i t ht _ => (hone i t ht).1
  all_goals simp [Session.start]

theorem HandedOnce.not_mem_of_rereads {s : Session C V} (hs : HandedOnce s) {i : ℕ} {t : Thread C}
    {l : ℤ} (ht : s.state.threads[i]? = some t) (hl : t.rereads = some l) :
    (l,s.held i) ∉ s.handed := by
  intro hmem
  cases t with
  | recoverAdd k c =>
    obtain rfl := Option.some.inj hl
    rcases hs.loop i _ ht rfl _ hmem with ⟨hadded,hheld⟩ | ⟨m,hm,hlt⟩
    · rcases hs.rereads i _ k ht rfl with h | ⟨_,_,h⟩
      · exact absurd (h.symm.trans hheld) (by simp)
      · exact h hadded
    · obtain rfl := Option.some.inj hm
      exact Int.lt_irrefl _ hlt
  | _ => simp [Thread.rereads] at hl

variable [DecidableEq C]

section HandStep

variable {s : Session C V} {i : ℕ} {o : Outcome} {t t' : Thread C} {a : Action C}
  {new : List (Thread C)}

omit [DecidableEq C] in
theorem adding_of_step (hs : t.Steps codec s.state.shared o a t' new) {j : ℕ} {u : Thread C} {id : ℤ}
    (hu : (s.state.threads.set i t' ++ new)[j]? = some u) (hid : u.adding = some id) :
    (j ≠ i ∧ s.state.threads[j]? = some u) ∨ (j = i ∧ ∃ c n, t = .put .async c id n ∧ o = .ok) := by
  obtain ⟨hown,_,hnew⟩ := step_adding hs
  rcases getElem?_threads hu with ⟨hj,rfl⟩ | h | h
  · exact Or.inr ⟨hj,hown id hid⟩
  · exact Or.inl h
  · simp [(hnew u h).1] at hid

omit [DecidableEq C] in
theorem rereads_of_step (hs : t.Steps codec s.state.shared o a t' new) {j : ℕ} {u : Thread C} {l : ℤ}
    (hu : (s.state.threads.set i t' ++ new)[j]? = some u) (hl : u.rereads = some l) :
    (j ≠ i ∧ s.state.threads[j]? = some u) ∨ (j = i ∧ t = .recoverGet l ∧ o = .ok ∧
      (s.state.shared.store.command l).bind codec.decode ≠ none) := by
  obtain ⟨_,hown,hnew⟩ := step_adding hs
  rcases getElem?_threads hu with ⟨hj,rfl⟩ | h | h
  · exact Or.inr ⟨hj,hown l hl⟩
  · exact Or.inl h
  · simp [(hnew u h).2.1] at hl

omit [DecidableEq C] in
theorem recovering_of_step (hs : t.Steps codec s.state.shared o a t' new) {j : ℕ} {u : Thread C}
    (hu : (s.state.threads.set i t' ++ new)[j]? = some u) (hr : u.recovering) :
    (j ≠ i ∧ s.state.threads[j]? = some u) ∨ (j = i ∧ u = t' ∧ t.recovering) := by
  rcases getElem?_threads hu with ⟨hj,rfl⟩ | h | h
  · exact Or.inr ⟨hj,rfl,(step_recovering hs hr).1⟩
  · exact Or.inl h
  · simp [((step_adding hs).2.2 u h).2.2] at hr

omit [DecidableEq C] in
theorem getElem?_threads_of_ne {ts new : List (Thread C)} {i j : ℕ} {t u : Thread C} (hj : j ≠ i)
    (h : ts[j]? = some u) : (ts.set i t ++ new)[j]? = some u := by
  have hlt := (List.getElem?_eq_some_iff.mp h).1
  rw [List.getElem?_append_left (by simpa using hlt),List.getElem?_set_ne (Ne.symm hj),h]

omit [DecidableEq C] in
theorem putOnce_of_handedOnce (hh : HandedOnce s) (ht : s.state.threads[i]? = some t)
    (hs : t.Steps codec s.state.shared o a t' new) (j k : ℕ) (u v : Thread C) (id : ℤ)
    (hj : (s.state.threads.set i t' ++ new)[j]? = some u)
    (hk : (s.state.threads.set i t' ++ new)[k]? = some v) (hu : u.putId = some id)
    (hv : v.putId = some id) : j = k :=
  putOnce_of_step hh.putOnce (fun j t id ht hid => (hh.putId j t id ht hid).1) ht hs hj hk hu hv

theorem putId_of_step (hh : HandedOnce s) (ht : s.state.threads[i]? = some t)
    (hs : t.Steps codec s.state.shared o a t' new) (j : ℕ) (u : Thread C) (id : ℤ)
    (hu : (s.state.threads.set i t' ++ new)[j]? = some u) (hid : u.putId = some id) :
    id < (a.apply codec s.state.shared).fields.nextId ∧ s.version id = 0 := by
  have hle : s.state.shared.fields.nextId ≤ (a.apply codec s.state.shared).fields.nextId := nextId_le
  obtain ⟨hown,hnew,_⟩ := step_putId hs
  rcases getElem?_threads hu with ⟨_,rfl⟩ | ⟨_,h⟩ | h
  · rcases hown id hid with ⟨h,_⟩ | ⟨rfl,rfl⟩
    · have hold := hh.putId i t id ht h
      exact ⟨Int.lt_of_lt_of_le hold.1 hle,hold.2⟩
    · refine ⟨Int.lt_succ _,?_⟩
      by_contra hne
      exact Int.lt_irrefl _ (hh.version _ hne).2
  · have hold := hh.putId j u id h hid
    exact ⟨Int.lt_of_lt_of_le hold.1 hle,hold.2⟩
  · simp [hnew u h] at hid

/-- A step that neither stores nor hands over a record; it may read one that no `addAsync`
of the session has stored. -/
theorem handedOnce_silent (hh : HandedOnce s) (ht : s.state.threads[i]? = some t)
    (hs : t.Steps codec s.state.shared o a t' new) (held : ℕ → ℕ)
    (hheld : ∀ j, j ≠ i → held j = s.held j) (hadding : t.adding = none) (hrereads : t.rereads = none)
    (hput : o = .ok → t.putId = none)
    (hread : ∀ l, t = .recoverGet l → o = .ok →
      (s.state.shared.store.command l).bind codec.decode ≠ none → held i = s.version l ∧ l ∉ s.added) :
    HandedOnce { s with
      state := ⟨a.apply codec s.state.shared,s.state.threads.set i t' ++ new⟩, held := held } := by
  have hold {j : ℕ} {u : Thread C} {id : ℤ} (hu : (s.state.threads.set i t' ++ new)[j]? = some u)
      (hid : u.adding = some id) : j ≠ i ∧ s.state.threads[j]? = some u := by
    rcases adding_of_step hs hu hid with h | ⟨_,c,n,rfl,ho⟩
    · exact h
    · simp [Thread.putId] at hput
      exact absurd ho hput
  refine ⟨hh.nodup,putId_of_step hh ht hs,putOnce_of_handedOnce hh ht hs,fun id hid => ?_,hh.handed,
    hh.added,fun j u id hu hid => ?_,fun j k u v id hj hk hu hv => ?_,fun id hid => ?_,
    fun j u hu hr => ?_,fun j u hu hr p hp => ?_,fun j u l hu hl => ?_⟩
  · have := hh.version id hid
    exact ⟨this.1,Int.lt_of_lt_of_le this.2 nextId_le⟩
  · obtain ⟨hj,hu⟩ := hold hu hid
    have := hh.adding j u id hu hid
    exact ⟨(hheld j hj).trans this.1,this.2⟩
  · exact hh.addOnce j k u v id (hold hj hu).2 (hold hk hv).2 hu hv
  · rcases hh.accounted id hid with h | ⟨j,u,hu,huid⟩
    · exact Or.inl h
    · refine Or.inr ⟨j,u,getElem?_threads_of_ne ?_ hu,huid⟩
      rintro rfl
      obtain rfl := Option.some.inj (ht.symm.trans hu)
      simp [hadding] at huid
  · rcases recovering_of_step hs hu hr with ⟨_,hu⟩ | ⟨rfl,_,hr'⟩
    · exact hh.first j u hu hr
    · exact hh.first j t ht hr'
  · rcases recovering_of_step hs hu hr with ⟨_,hu⟩ | ⟨rfl,rfl,hr'⟩
    · exact hh.loop j u hu hr p hp
    · rcases hh.loop j t ht hr' p hp with h | ⟨l,hl,hlt⟩
      · exact Or.inl h
      · exact Or.inr ((step_recovering hs hr).2.1 p.1 l hl hlt)
  · rcases rereads_of_step hs hu hl with ⟨hj,hu⟩ | ⟨rfl,hget,ho,hreadable⟩
    · have := hh.rereads j u l hu hl
      rwa [← hheld j hj] at this
    · obtain ⟨hversion,hnot⟩ := hread l hget ho hreadable
      by_cases hzero : s.version l = 0
      · exact Or.inl (hversion.trans hzero)
      · have hv := (hh.version l hzero).1
        exact Or.inr ⟨hversion.trans hv,hv,hnot⟩

theorem handedOnce_stored {mode : Mode} {c : C} {id : ℤ} {n : ℕ} (hh : HandedOnce s)
    (ht : s.state.threads[i]? = some (.put mode c id n))
    (hs : (Thread.put mode c id n).Steps codec s.state.shared .ok a t' new) {added : List ℤ}
    (hadded : ∀ k, k ∈ added ↔ k ∈ s.added ∨ k = id ∧ mode = .async) :
    HandedOnce { s with
      state := ⟨a.apply codec s.state.shared,s.state.threads.set i t' ++ new⟩
      version := Function.update s.version id (s.version id + 1)
      held := Function.update s.held i (s.version id + 1)
      added := added } := by
  obtain ⟨hlt,hzero⟩ := hh.putId i _ id ht rfl
  have hne {k : ℤ} (hk : s.version k = 1) : k ≠ id := by
    rintro rfl
    omega
  obtain ⟨rfl,hputId,hnext,hpos⟩ : new = [] ∧ t'.putId = none ∧
      (a.apply codec s.state.shared).fields.nextId = s.state.shared.fields.nextId ∧
      (t'.adding = if mode = .async then some id else none) := by
    cases hs with
    | fails h => exact absurd rfl h
    | _ => exact ⟨rfl,rfl,rfl,rfl⟩
  have hself : (s.state.threads.set i t' ++ [])[i]? = some t' := by
    rw [List.append_nil,List.getElem?_set_self (List.getElem?_eq_some_iff.mp ht).1]
  -- the thread itself may now be about to hand over the new record, the others are as before
  have hadding {j : ℕ} {u : Thread C} {k : ℤ} (hu : (s.state.threads.set i t' ++ [])[j]? = some u)
      (hk : u.adding = some k) :
      (j ≠ i ∧ s.state.threads[j]? = some u ∧ k ≠ id) ∨ (j = i ∧ k = id ∧ mode = .async) := by
    rcases adding_of_step hs hu hk with ⟨hj,hu⟩ | ⟨rfl,c',n',hput,_⟩
    · exact Or.inl ⟨hj,hu,hne (hh.added k (hh.adding j u k hu hk).2.1)⟩
    · cases hput
      obtain rfl : u = t' := Option.some.inj (hu.symm.trans hself)
      exact Or.inr ⟨rfl,Option.some.inj (hk.symm.trans (hpos.trans (if_pos rfl))),rfl⟩
  refine ⟨hh.nodup,fun j u k hu hk => ?_,putOnce_of_handedOnce hh ht hs,fun k hk => ?_,
    fun p hp => ?_,fun k hk => ?_,fun j u k hu hk => ?_,fun j l u v k hj hl hu hv => ?_,fun k hk => ?_,
    fun j u hu hr => ?_,fun j u hu hr p hp => ?_,fun j u l hu hl => ?_⟩
  · rcases getElem?_threads hu with ⟨_,rfl⟩ | ⟨hj,h⟩ | h
    · simp [hputId] at hk
    · have hold := hh.putId j u k h hk
      have hkid : k ≠ id := by
        rintro rfl
        exact hj (hh.putOnce j i u _ k h ht hk rfl)
      simp only [hnext,Function.update_of_ne hkid]
      exact hold
    · simp at h
  · by_cases hkid : k = id
    · subst hkid
      simp only [hnext,Function.update_self]
      exact ⟨by omega,hlt⟩
    · simp only [hnext,Function.update_of_ne hkid] at hk ⊢
      exact hh.version k hk
  · have hle := hh.handed p hp
    by_cases hkid : p.1 = id
    · simp only [hkid,Function.update_self]
      rw [hkid] at hle
      omega
    · simpa only [Function.update_of_ne hkid] using hle
  · rcases (hadded k).mp hk with hk | ⟨rfl,_⟩
    · simpa only [Function.update_of_ne (hne (hh.added k hk))] using hh.added k hk
    · simp [hzero]
  · rcases hadding hu hk with ⟨hj,hu,_⟩ | ⟨rfl,rfl,hmode⟩
    · obtain ⟨h₁,h₂,h₃⟩ := hh.adding j u k hu hk
      simp only [Function.update_of_ne hj]
      exact ⟨h₁,(hadded k).mpr (Or.inl h₂),h₃⟩
    · refine ⟨by simp [hzero],(hadded k).mpr (Or.inr ⟨rfl,hmode⟩),fun hmem => ?_⟩
      have := hh.handed _ hmem
      simp [hzero] at this
  · rcases hadding hj hu with ⟨_,hj,hkid⟩ | ⟨rfl,rfl,_⟩
    · rcases hadding hl hv with ⟨_,hl,_⟩ | ⟨_,h,_⟩
      · exact hh.addOnce j l u v k hj hl hu hv
      · exact absurd h hkid
    · rcases hadding hl hv with ⟨_,_,h⟩ | ⟨rfl,_,_⟩
      · exact absurd rfl h
      · rfl
  · rcases (hadded k).mp hk with hk | ⟨rfl,hmode⟩
    · refine (hh.accounted k hk).imp_right fun ⟨j,u,hu,huid⟩ =>
        ⟨j,u,getElem?_threads_of_ne ?_ hu,huid⟩
      rintro rfl
      obtain rfl := Option.some.inj (ht.symm.trans hu)
      simp [Thread.adding] at huid
    · exact Or.inr ⟨i,t',hself,by simp [hpos,hmode]⟩
  · rcases recovering_of_step hs hu hr with ⟨_,hu⟩ | ⟨_,_,hr'⟩
    · exact hh.first j u hu hr
    · simp [Thread.recovering,Thread.position] at hr'
  · rcases recovering_of_step hs hu hr with ⟨_,hu⟩ | ⟨_,_,hr'⟩
    · exact (hh.loop j u hu hr p hp).imp_left fun h => ⟨(hadded p.1).mpr (Or.inl h.1),h.2⟩
    · simp [Thread.recovering,Thread.position] at hr'
  · rcases rereads_of_step hs hu hl with ⟨hj,hu⟩ | ⟨_,hget,_⟩
    · simp only [Function.update_of_ne hj]
      refine (hh.rereads j u l hu hl).imp_right fun ⟨h₁,h₂,h₃⟩ => ?_
      rw [Function.update_of_ne (hne h₂)]
      refine ⟨h₁,h₂,fun h => ?_⟩
      rcases (hadded l).mp h with h | ⟨h,_⟩
      · exact h₃ h
      · exact hne h₂ h
    · simp at hget

theorem handedOnce_handed {k : ℤ} (hh : HandedOnce s) (ht : s.state.threads[i]? = some t)
    (hs : t.Steps codec s.state.shared o a t' new) (hk : t.adding = some k ∨ t.rereads = some k) :
    HandedOnce { s with
      state := ⟨a.apply codec s.state.shared,s.state.threads.set i t' ++ new⟩
      handed := (k,s.held i)::s.handed } := by
  have hnew : (k,s.held i) ∉ s.handed := by
    rcases hk with hk | hk
    · obtain ⟨h₁,_,h₃⟩ := hh.adding i t k ht hk
      rwa [h₁]
    · exact hh.not_mem_of_rereads ht hk
  have hold {j : ℕ} {u : Thread C} {id : ℤ} (hu : (s.state.threads.set i t' ++ new)[j]? = some u)
      (hid : u.adding = some id) : j ≠ i ∧ s.state.threads[j]? = some u := by
    rcases adding_of_step hs hu hid with h | ⟨_,c,n,rfl,_⟩
    · exact h
    · simp [Thread.adding,Thread.rereads] at hk
  refine ⟨List.nodup_cons.mpr ⟨hnew,hh.nodup⟩,putId_of_step hh ht hs,putOnce_of_handedOnce hh ht hs,
    fun id hid => ?_,fun p hp => ?_,hh.added,fun j u id hu hid => ?_,fun j l u v id hj hl hu hv => ?_,
    fun id hid => ?_,fun j u hu hr => ?_,fun j u hu hr p hp => ?_,fun j u l hu hl => ?_⟩
  · have := hh.version id hid
    exact ⟨this.1,Int.lt_of_lt_of_le this.2 nextId_le⟩
  · rcases List.mem_cons.mp hp with rfl | hp
    · rcases hk with hk | hk
      · obtain ⟨h₁,h₂,_⟩ := hh.adding i t k ht hk
        exact (h₁.trans (hh.added k h₂).symm).le
      · rcases hh.rereads i t k ht hk with h | ⟨h₁,h₂,_⟩
        · exact h.le.trans (Nat.zero_le _)
        · exact (h₁.trans h₂.symm).le
    · exact hh.handed p hp
  · obtain ⟨hj,hu'⟩ := hold hu hid
    obtain ⟨h₁,h₂,h₃⟩ := hh.adding j u id hu' hid
    refine ⟨h₁,h₂,fun hmem => ?_⟩
    rcases List.mem_cons.mp hmem with heq | hmem
    · obtain ⟨rfl,hheld⟩ := Prod.mk.inj heq
      rcases hk with hk | hk
      · exact hj (hh.addOnce j i u t id hu' ht hid hk)
      · rcases hh.rereads i t id ht hk with h | ⟨_,_,h⟩
        · omega
        · exact h h₂
    · exact h₃ hmem
  · exact hh.addOnce j l u v id (hold hj hu).2 (hold hl hv).2 hu hv
  · rcases hh.accounted id hid with h | ⟨j,u,hu,huid⟩
    · exact Or.inl (List.mem_cons_of_mem _ h)
    · by_cases hj : j = i
      · subst hj
        obtain rfl := Option.some.inj (ht.symm.trans hu)
        rcases hk with hk | hk
        · obtain rfl := Option.some.inj (hk.symm.trans huid)
          rw [(hh.adding j t k ht hk).1]
          exact Or.inl List.mem_cons_self
        · cases t <;> simp [Thread.adding,Thread.rereads] at hk huid
      · exact Or.inr ⟨j,u,getElem?_threads_of_ne hj hu,huid⟩
  · rcases recovering_of_step hs hu hr with ⟨_,hu⟩ | ⟨rfl,_,hr'⟩
    · exact hh.first j u hu hr
    · exact hh.first j t ht hr'
  · rcases recovering_of_step hs hu hr with ⟨hj,hu⟩ | ⟨rfl,rfl,hr'⟩
    · rcases List.mem_cons.mp hp with rfl | hp
      · rcases hk with hk | hk
        · obtain ⟨h₁,h₂,_⟩ := hh.adding i t k ht hk
          exact Or.inl ⟨h₂,h₁⟩
        · have hi : t.recovering := by
            cases t <;> simp [Thread.rereads] at hk
            rfl
          exact absurd ((hh.first j u hu hr).trans (hh.first i t ht hi).symm) hj
      · exact hh.loop j u hu hr p hp
    · obtain ⟨_,hup,hpast⟩ := step_recovering hs hr
      rcases List.mem_cons.mp hp with rfl | hp
      · rcases hk with hk | hk
        · cases t <;> simp [Thread.adding,Thread.recovering,Thread.position] at hk hr'
        · exact Or.inr ⟨k+1,hpast k hk,Int.lt_succ k⟩
      · refine (hh.loop j t ht hr' p hp).imp_right fun ⟨l,hl,hlt⟩ => ?_
        exact hup p.1 l hl hlt
  · rcases rereads_of_step hs hu hl with ⟨_,hu⟩ | ⟨_,rfl,_⟩
    · exact hh.rereads j u l hu hl
    · simp [Thread.adding,Thread.rereads] at hk

end HandStep

theorem handedOnce_thread_step {i : ℕ} {o : Outcome} {s s' : Session C V} (hh : HandedOnce s)
    (hc : Unread codec (.thread i o) s) (h : s.step codec (.thread i o) = some s') :
    HandedOnce s' := by
  obtain ⟨w,hw,rfl⟩ := Option.map_eq_some_iff.mp h
  obtain ⟨t,a,t',new,ht,hs,_,rfl⟩ := thread_step hw
  have hsilent := handedOnce_silent hh ht hs
  simp only [Session.record,ht]
  cases t with
  | put mode c id n =>
    cases o with
    | ok => cases mode <;> exact handedOnce_stored hh ht hs (by simp [or_comm])
    | obsolete | fails => exact hsilent s.held (fun _ _ => rfl) rfl rfl (by simp) (by simp)
  | addCommand c id => exact handedOnce_handed hh ht hs (Or.inl rfl)
  | recoverAdd l c => exact handedOnce_handed hh ht hs (Or.inr rfl)
  | recoverGet l =>
    cases o with
    | ok =>
      refine hsilent _ (fun j hj => Function.update_of_ne hj _ _) rfl rfl (fun _ => rfl) ?_
      intro k hk _ hreadable
      obtain rfl : l = k := by simpa using hk
      exact ⟨Function.update_self _ _ _,fun hmem => hreadable (hc l hmem ht)⟩
    | obsolete | fails => exact hsilent s.held (fun _ _ => rfl) rfl rfl (by simp) (by simp)
  | _ => cases o <;> exact hsilent s.held (fun _ _ => rfl) rfl rfl (fun _ => rfl) (by simp)

omit [DecidableEq C] in
theorem handedOnce_newThread {s : Session C V} (hh : HandedOnce s) {u : Thread C}
    (hputId : u.putId = none) (hadding : u.adding = none) (hrereads : u.rereads = none)
    (hrecovering : u.recovering = false) :
    HandedOnce { s with state := { s.state with threads := s.state.threads ++ [u] } } := by
  have hold {t : Thread C} {j : ℕ} (ht : (s.state.threads ++ [u])[j]? = some t) :
      s.state.threads[j]? = some t ∨ t = u := by
    rw [List.getElem?_append] at ht
    split at ht
    · exact Or.inl ht
    · exact Or.inr (List.mem_singleton.mp (List.mem_of_getElem? ht))
  have hput {t : Thread C} {j : ℕ} {id : ℤ} (ht : (s.state.threads ++ [u])[j]? = some t)
      (hid : t.putId = some id) : s.state.threads[j]? = some t := by
    rcases hold ht with ht | rfl
    · exact ht
    · simp [hputId] at hid
  have hadd {t : Thread C} {j : ℕ} {id : ℤ} (ht : (s.state.threads ++ [u])[j]? = some t)
      (hid : t.adding = some id) : s.state.threads[j]? = some t := by
    rcases hold ht with ht | rfl
    · exact ht
    · simp [hadding] at hid
  have hloop {t : Thread C} {j : ℕ} (ht : (s.state.threads ++ [u])[j]? = some t)
      (hr : t.recovering) : s.state.threads[j]? = some t := by
    rcases hold ht with ht | rfl
    · exact ht
    · simp [hrecovering] at hr
  refine ⟨hh.nodup,fun j t id ht hid => hh.putId j t id (hput ht hid) hid,
    fun i j t v id hi hj ht hv => hh.putOnce i j t v id (hput hi ht) (hput hj hv) ht hv,hh.version,
    hh.handed,hh.added,fun j t id ht hid => hh.adding j t id (hadd ht hid) hid,
    fun i j t v id hi hj ht hv => hh.addOnce i j t v id (hadd hi ht) (hadd hj hv) ht hv,
    fun id hid => ?_,fun j t ht hr => hh.first j t (hloop ht hr) hr,
    fun j t ht hr => hh.loop j t (hloop ht hr) hr,fun j t l ht hl => ?_⟩
  · refine (hh.accounted id hid).imp_right fun ⟨j,t,ht,htid⟩ => ⟨j,t,?_,htid⟩
    rw [List.getElem?_append_left (List.getElem?_eq_some_iff.mp ht).1,ht]
  · rcases hold ht with ht | rfl
    · exact hh.rereads j t l ht hl
    · simp [hrereads] at hl

theorem handedOnce_step {e : Event C} {s s' : Session C V} (hh : HandedOnce s)
    (hc : Unread codec e s) (h : s.step codec e = some s') : HandedOnce s' := by
  cases e with
  | thread i o => exact handedOnce_thread_step hh hc h
  | restart => exact hc.elim
  | call | shutdown =>
    obtain ⟨w,hw,rfl⟩ := Option.map_eq_some_iff.mp h
    obtain rfl := Option.some.inj hw
    exact handedOnce_newThread hh rfl rfl rfl rfl

theorem session_step {s : Session C V} {i : ℕ} {o : Outcome} {t t' : Thread C} {a : Action C}
    {new : List (Thread C)} (ht : s.state.threads[i]? = some t)
    (hs : t.step codec o s.state.shared = some (a,t',new)) :
    s.step codec (.thread i o) = some { s.record i o with
      state := ⟨a.apply codec s.state.shared,s.state.threads.set i t' ++ new⟩ } := by
  simp [Session.step,State.step,ht,hs]

/-- A record of `addAsync` that the loop has read goes to the executor twice. -/
theorem handed_twice {s s' : Session C V} (hh : HandedOnce s) {i : ℕ} {l : ℤ} (hl : l ∈ s.added)
    (ht : s.state.threads[i]? = some (.recoverGet l))
    (hreadable : (s.state.shared.store.command l).bind codec.decode ≠ none)
    (h : s.step codec (.thread i .ok) = some s') :
    ∃ fs u, Runs.Reaches (Session.step codec) (Unread codec) s' fs u ∧ ¬u.handed.Nodup := by
  obtain ⟨c,hc⟩ := Option.ne_none_iff_exists'.mp hreadable
  have hi := (List.getElem?_eq_some_iff.mp ht).1
  obtain ⟨hthreads,hheld,hhanded⟩ : s'.state.threads = s.state.threads.set i (.recoverAdd l c) ∧
      s'.held = Function.update s.held i 1 ∧ s'.handed = s.handed := by
    have hread : (Thread.recoverGet l).step codec .ok s.state.shared =
        some (.skip,.recoverAdd l c,[]) := by simp only [Thread.step,hc]
    rw [session_step ht hread] at h
    obtain rfl := Option.some.inj h
    simp [Session.record,ht,hh.added l hl]
  -- the loop hands it over in its next step, before or after `addAsync` does
  have hresubmit {u : Session C V} (hu : u.state.threads[i]? = some (.recoverAdd l c))
      (hi' : u.held i = 1) (hmem : (l,1) ∈ u.handed) :
      ∃ v, u.step codec (.thread i .ok) = some v ∧ ¬v.handed.Nodup ∧ Unread codec (.thread i .ok) u :=
    ⟨_,session_step hu rfl,by simp [Session.record,hu,hi',hmem],by simp [Unread,hu]⟩
  have hown : s'.state.threads[i]? = some (.recoverAdd l c) := by simp [hthreads,hi]
  have hheld' : s'.held i = 1 := by simp [hheld]
  rcases hh.accounted l hl with hmem | ⟨j,u,hj,hu⟩
  · obtain ⟨v,hv,hdup,hunread⟩ := hresubmit hown hheld' (hhanded ▸ hmem)
    exact ⟨_,v,.next (Event.thread i .ok) .start hunread hv,hdup⟩
  · have hji : j ≠ i := by
      rintro rfl
      obtain rfl := Option.some.inj (hj.symm.trans ht)
      simp [Thread.adding] at hu
    cases u with
    | addCommand d k =>
      obtain rfl := Option.some.inj hu
      have hj' : s'.state.threads[j]? = some (.addCommand d k) := by
        rw [hthreads,List.getElem?_set_ne (Ne.symm hji),hj]
      have hone : s'.held j = 1 := by
        rw [hheld,Function.update_of_ne hji]
        exact (hh.adding j _ k hj rfl).1
      have hfirst := show s'.step codec (.thread j .ok) = _ from session_step hj' rfl
      have hreach := Runs.Reaches.next (Event.thread j .ok) .start
        (show Unread codec (.thread j .ok) s' by simp [Unread,hj']) hfirst
      obtain ⟨v,hv,hdup,hunread⟩ := hresubmit (u:={ s'.record j .ok with
          state := ⟨Action.skip.apply codec s'.state.shared,
            s'.state.threads.set j .ended ++ [.queued d k]⟩ })
        (getElem?_threads_of_ne (Ne.symm hji) hown) (by simp [Session.record,hj',hheld'])
        (by simp [Session.record,hj',hone])
      exact ⟨_,v,.next (Event.thread i .ok) hreach hunread hv,hdup⟩
    | _ => simp [Thread.adding] at hu

/-- Every record is handed over at most once in all sessions whose recovery loop reads no
record that the session has stored by `addAsync`, and only in these: the first such read
can be continued to a state in which a record was handed over twice. -/
theorem handed_once_iff_unread (codec : Codec C V) (increment threshold : ℤ) (store : Store V)
    (es : List (Event C)) (s : Session C V)
    (h : Runs.Reaches (Session.step codec) (Unread codec) (Session.start increment threshold store) es s) :
    s.handed.Nodup ∧ ∀ e s', NoRestart e s.state → s.step codec e = some s' →
      ((∀ fs u, Runs.Reaches (Session.step codec) (Unread codec) s' fs u → u.handed.Nodup) ↔
        Unread codec e s) := by
  have hh := h.invariant (start_handedOnce increment threshold store)
    fun _ _ _ hh hc hs => handedOnce_step hh hc hs
  refine ⟨hh.nodup,fun e s' hr hs => ⟨fun hall => ?_,fun hc fs u hu => ?_⟩⟩
  · cases e with
    | thread i o =>
      cases o with
      | ok =>
        intro l hl ht
        by_contra hreadable
        obtain ⟨fs,u,hu,hdup⟩ := handed_twice hh hl ht hreadable hs
        exact hdup (hall fs u hu)
      | obsolete | fails => trivial
    | restart => exact hr.elim
    | call | shutdown => trivial
  · exact (hu.invariant (handedOnce_step hh hc hs) fun _ _ _ hh hc hs => handedOnce_step hh hc hs).nodup

/-- The window of the store reaches to 100, and a new command gets the id 0 before the loop
reads there. -/
theorem handed_by_both :
    ¬ ∀ (es : List (Event ℕ)) (s : Session ℕ ℕ),
      Runs.Reaches (Session.step (Codec.plain ℕ)) (fun e s => NoRestart e s.state)
        (Session.start 100 10 ⟨some 100,some 0,fun _ => none⟩) es s → s.handed.Nodup := by
  intro hall
  have hrun : ((Runs.runIf (Session.step (Codec.plain ℕ)) (fun e s => NoRestart e s.state)
      ([.thread 0 .ok,.thread 0 .ok,.call .async 7,.thread 1 .ok,.thread 1 .ok,.thread 1 .ok]++
        List.replicate 4 (.thread 0 .ok))
      (Session.start 100 10 ⟨some 100,some 0,fun _ => none⟩)).map Session.handed) =
        some [(0,1),(0,1)] := by decide
  obtain ⟨s,hs,hp⟩ := Option.map_eq_some_iff.mp hrun
  have hnodup := hall _ s (Runs.reaches_of_runIf .start hs)
  rw [hp] at hnodup
  simp at hnodup

/-- The record of the earlier session is read first, and a new command goes to the same id. -/
theorem handed_once_each :
    ∃ es, ∃ s : Session ℕ ℕ, Runs.Reaches (Session.step (Codec.plain ℕ)) (Unread (Codec.plain ℕ))
      (Session.start 100 10 ⟨some 100,some 0,Function.update (fun _ => none) 0 (some 5)⟩) es s ∧
      s.handed = [(0,1),(0,0)] ∧ s.handed.Nodup := by
  have hrun : ((Runs.runIf (Session.step (Codec.plain ℕ)) (Unread (Codec.plain ℕ))
      (List.replicate 6 (.thread 0 .ok)++[.call .async 7,.thread 2 .ok,.thread 2 .ok,.thread 2 .ok])
      (Session.start 100 10 ⟨some 100,some 0,Function.update (fun _ => none) 0 (some 5)⟩)).map
        Session.handed) = some [(0,1),(0,0)] := by decide
  obtain ⟨s,hs,hp⟩ := Option.map_eq_some_iff.mp hrun
  have h := Runs.reaches_of_runIf .start hs
  exact ⟨_,s,h,hp,(handed_once_iff_unread (Codec.plain ℕ) 100 10 _ _ s h).1⟩

end CommandQueue
end Bigbird
