import Bigbird.FreshIds

/-! The records of one session: which keys `nodeName:k` are in the store once no call and
no task of a command is midway. -/
namespace Bigbird
namespace CommandQueue

variable {C V : Type} {codec : Codec C V}

/-- A thread of `add` or `addAsync`, or of a task that `addCommand` has started. -/
def Thread.midway : Thread C → Bool
  | .storeRemotely _ _ => true
  | .put _ _ _ _ => true
  | .addCommand _ _ => true
  | .execute _ _ _ => true
  | .delete _ _ _ => true
  | .compareMinimum _ => true
  | .setMinimum _ => true
  | _ => false

def State.Quiet (s : State C V) : Prop := ∀ t ∈ s.threads, t.midway = false

/-- The records are those of the accepted commands that have not returned from `execute`. -/
def StoreContents (s : State C V) : Prop :=
  ∀ id, s.shared.store.command id ≠ none ↔ ∃ p ∈ s.shared.unreturned, p.1 = id

def Thread.holds : Thread C → Option (ℤ × C)
  | .recoverAdd l c => some (l,c)
  | t => t.task

/-- Neither a record nor a command of an earlier session has this id. -/
def State.Unused (s : State C V) (id : ℤ) : Prop :=
  s.shared.store.command id = none ∧ (∀ p ∈ s.shared.unreturned, p.1 ≠ id) ∧
    ∀ t ∈ s.threads, ∀ p ∈ t.holds, p.1 ≠ id

/-- The steps of a session that keep records and commands together: no command of `add`
returns, `delete` goes through within its three attempts, and a record is stored under
an id that no record or command of an earlier session has. -/
def Kept (e : Event C) (s : State C V) : Prop :=
  match e with
  | .restart _ _ => False
  | .thread i o => match s.threads[i]? with
    | some (.put _ _ id _) => o = .ok → s.Unused id
    | some (.execute .sync _ _) => o ≠ .ok
    | some (.delete _ _ n) => o = .ok ∨ o = .obsolete ∧ 0 < n
    | _ => True
  | _ => True

instance (s : State C V) (id : ℤ) : Decidable (s.Unused id) := by
  unfold State.Unused; infer_instance

instance (e : Event C) (s : State C V) : Decidable (Kept e s) := by
  unfold Kept
  induction e using Event.casesOn with
  | thread i o =>
    dsimp only
    induction s.threads[i]? using Option.casesOn with
    | none => infer_instance
    | some t =>
      induction t using Thread.casesOn with
      | execute mode => induction mode using Mode.casesOn <;> infer_instance
      | _ => infer_instance
  | _ => infer_instance

theorem step_holds {o : Outcome} {s : Shared C V} {t t' : Thread C} {a : Action C}
    {new : List (Thread C)} (h : t.Steps codec s o a t' new) :
    (∀ p, t'.holds = some p → t.holds = some p ∨ (∃ m, a = .putCommand m p.2 p.1) ∨
      ∃ v, s.store.command p.1 = some v ∧ codec.decode v = some p.2) ∧
    (∀ u ∈ new, ∀ p, u.holds = some p → t.holds = some p) ∧
    (∀ c id, a = .returnNormally c id ∨ a = .resubmit c id → t.holds = some (id,c)) := by
  cases h with
  | readable hv hd =>
    refine ⟨fun p hp => ?_,by simp,by simp⟩
    obtain rfl := Option.some.inj hp
    exact Or.inr (Or.inr ⟨_,hv,hd⟩)
  | _ => simp [Thread.holds,Thread.task]

def Thread.deleting : Thread C → Option ℤ
  | .delete _ id _ => some id
  | _ => none

def State.Deleting (s : State C V) (id : ℤ) : Prop := ∃ t ∈ s.threads, t.deleting = some id

/-- Every command that has not returned has its record, and every other record has a task
that deletes it. -/
structure Matched (s : State C V) : Prop where
  nodup : (s.shared.unreturned.map Prod.fst).Nodup
  present : ∀ p ∈ s.shared.unreturned, s.shared.store.command p.1 ≠ none
  origin : ∀ id, s.shared.store.command id ≠ none →
    (∃ p ∈ s.shared.unreturned, p.1 = id) ∨ s.Deleting id
  deleting : ∀ id, s.Deleting id → ∀ p ∈ s.shared.unreturned, p.1 ≠ id

/-- What holds between the steps of a session. Whoever holds a command under an id, a task
or a record, holds the one that has not returned. -/
structure Contents (codec : Codec C V) (s : State C V) : Prop extends Matched s where
  held : ∀ t ∈ s.threads, ∀ p, t.holds = some p → ∀ q ∈ s.shared.unreturned, q.1 = p.1 → q = p
  record : ∀ id v c, s.shared.store.command id = some v → codec.decode v = some c →
    ∀ q ∈ s.shared.unreturned, q.1 = id → q = (id,c)

theorem Matched.storeContents {s : State C V} (hs : Matched s) (hq : s.Quiet) :
    StoreContents s := by
  intro id
  constructor
  · intro h
    rcases hs.origin id h with h | ⟨t,ht,hid⟩
    · exact h
    · have hmid := hq t ht
      cases t with
      | delete => simp [Thread.midway] at hmid
      | _ => cases hid
  · rintro ⟨p,hp,rfl⟩
    exact hs.present p hp

variable [DecidableEq C]

section ThreadStep

variable {s : State C V} {o : Outcome} {i : ℕ} {t t' : Thread C} {a : Action C}
  {new : List (Thread C)}

/-- What a kept step does to the records and to the commands that have not returned. -/
theorem kept_cases (ht : s.threads[i]? = some t) (hk : Kept (.thread i o) s)
    (h : t.Steps codec s.shared o a t' new) :
    (∃ m c id, a = .putCommand m c id ∧ s.Unused id ∧ t.deleting = none ∧ t'.deleting = none) ∨
    (∃ c id, a = .returnNormally c id ∧ t.deleting = none ∧ t'.deleting = some id) ∨
    (∃ c id, a = .deleteCommand c id ∧ t.deleting = some id ∧ t'.deleting = none) ∨
    ((a.apply codec s.shared).unreturned = s.shared.unreturned ∧
      (a.apply codec s.shared).store.command = s.shared.store.command ∧ t'.deleting = t.deleting) := by
  simp only [Kept,ht] at hk
  cases h with
  | putSync | putAsync => exact Or.inl ⟨_,_,_,rfl,hk rfl,rfl,rfl⟩
  | returnSync => exact absurd rfl hk
  | returnAsync => exact Or.inr (Or.inl ⟨_,_,rfl,rfl,rfl⟩)
  | delete => exact Or.inr (Or.inr (Or.inl ⟨_,_,rfl,rfl,rfl⟩))
  | leave => simp at hk
  | batchAgain h | batchRefused h =>
    rcases h with ⟨_,rfl⟩ | ⟨_,_,rfl⟩ <;> exact Or.inr (Or.inr (Or.inr ⟨rfl,rfl,rfl⟩))
  | fails hok hdelete =>
    refine Or.inr (Or.inr (Or.inr ⟨rfl,rfl,?_⟩))
    cases t with
    | delete => simp_all
    | _ => rfl
  | _ => exact Or.inr (Or.inr (Or.inr ⟨rfl,rfl,rfl⟩))

omit [DecidableEq C] in
theorem new_deleting (h : t.Steps codec s.shared o a t' new) :
    ∀ u ∈ new, u.deleting = none := by
  cases h <;> simp [Thread.deleting]

theorem deleting_of_step {id : ℤ} (hs : t.Steps codec s.shared o a t' new)
    (h : State.Deleting ⟨a.apply codec s.shared,s.threads.set i t' ++ new⟩ id) :
    s.Deleting id ∨ t'.deleting = some id := by
  obtain ⟨u,hu,hid⟩ := h
  rcases mem_threads hu with hu | rfl | hu
  · exact Or.inl ⟨u,hu,hid⟩
  · exact Or.inr hid
  · simp [new_deleting hs u hu] at hid

theorem deleting_step {id : ℤ} (ht : s.threads[i]? = some t) (h : s.Deleting id) :
    State.Deleting ⟨a.apply codec s.shared,s.threads.set i t' ++ new⟩ id ∨ t.deleting = some id := by
  obtain ⟨u,hu,hid⟩ := h
  by_cases hut : u = t
  · exact Or.inr (hut ▸ hid)
  · exact Or.inl ⟨u,mem_threads_of_mem ht hu hut,hid⟩

omit [DecidableEq C] in
theorem deleting_self (ht : s.threads[i]? = some t) {s₁ : Shared C V} {id : ℤ}
    (h : t'.deleting = some id) : State.Deleting ⟨s₁,s.threads.set i t' ++ new⟩ id := by
  have hi : i < s.threads.length := (List.getElem?_eq_some_iff.mp ht).1
  exact ⟨t',List.mem_append_left _ (List.mem_set hi t'),h⟩

omit [DecidableEq C] in
theorem unused_of_step (ht : s.threads[i]? = some t) (hk : Kept (.thread i o) s)
    (h : t.Steps codec s.shared o a t' new) {m : Mode} {c : C} {id : ℤ}
    (ha : a = .putCommand m c id) : s.Unused id := by
  subst ha
  simp only [Kept,ht] at hk
  cases h <;> exact hk rfl

/-- After a kept step a command has not returned if it had not returned before, or if its
record has just been stored under an unused id. -/
theorem unreturned_of_step (ht : s.threads[i]? = some t) (hk : Kept (.thread i o) s)
    (h : t.Steps codec s.shared o a t' new) {q : ℤ × C}
    (hq : q ∈ (a.apply codec s.shared).unreturned) :
    q ∈ s.shared.unreturned ∨ s.Unused q.1 ∧ ∃ m, a = .putCommand m q.2 q.1 := by
  rcases kept_cases ht hk h with ⟨m,c,id,rfl,hun,_⟩ | ⟨c,id,rfl,_⟩ | ⟨c,id,rfl,_⟩ | ⟨hun,_⟩
  · rcases List.mem_cons.mp hq with rfl | hq
    · exact Or.inr ⟨hun,m,rfl⟩
    · exact Or.inl hq
  · exact Or.inl (List.mem_of_mem_erase hq)
  · exact Or.inl hq
  · exact Or.inl (hun ▸ hq)

omit [DecidableEq C] in
theorem holds_of_step (ht : t ∈ s.threads) (hs : t.Steps codec s.shared o a t' new)
    {u : Thread C} (hu : u ∈ s.threads.set i t' ++ new) {p : ℤ × C} (hp : u.holds = some p) :
    (∃ w ∈ s.threads, w.holds = some p) ∨ (∃ m, a = .putCommand m p.2 p.1) ∨
      ∃ v, s.shared.store.command p.1 = some v ∧ codec.decode v = some p.2 := by
  obtain ⟨hown,hnew,_⟩ := step_holds hs
  rcases mem_threads hu with hu | rfl | hu
  · exact Or.inl ⟨u,hu,hp⟩
  · exact (hown p hp).imp_left fun h => ⟨t,ht,h⟩
  · exact Or.inl ⟨t,ht,hnew u hu p hp⟩

omit [DecidableEq C] in
theorem holds_of_deleting {u : Thread C} {id : ℤ} (h : u.deleting = some id) :
    ∃ c, u.holds = some (id,c) := by
  cases u with
  | delete c k n => exact ⟨c,by simpa [Thread.deleting,Thread.holds,Thread.task] using h⟩
  | _ => simp [Thread.deleting] at h

theorem matched_put {m : Mode} {c : C} {id : ℤ} (hs : Matched s) (ht : s.threads[i]? = some t)
    (h : t.Steps codec s.shared o (.putCommand m c id) t' new) (hun : s.Unused id)
    (hd : t.deleting = none) (hd' : t'.deleting = none) :
    Matched ⟨(Action.putCommand m c id).apply codec s.shared,s.threads.set i t' ++ new⟩ := by
  refine ⟨List.nodup_cons.mpr ⟨fun hmem => ?_,hs.nodup⟩,fun p hp => ?_,fun k hk => ?_,
    fun k hk p hp => ?_⟩
  · obtain ⟨p,hp,hid⟩ := List.mem_map.mp hmem
    exact hun.2.1 p hp hid
  · rcases List.mem_cons.mp hp with rfl | hp
    · simp [Action.apply]
    · simpa [Action.apply,Function.update_of_ne (hun.2.1 p hp)] using hs.present p hp
  · by_cases hkid : k = id
    · exact Or.inl ⟨(id,c),List.mem_cons_self,hkid.symm⟩
    · have hk' : s.shared.store.command k ≠ none := by
        simpa [Action.apply,Function.update_of_ne hkid] using hk
      rcases hs.origin k hk' with ⟨p,hp,hpk⟩ | hdel
      · exact Or.inl ⟨p,List.mem_cons_of_mem _ hp,hpk⟩
      · exact Or.inr ((deleting_step ht hdel).resolve_right (by simp [hd]))
  · have hold := (deleting_of_step h hk).resolve_right (by simp [hd'])
    rcases List.mem_cons.mp hp with rfl | hp
    · obtain ⟨u,hu,huk⟩ := hold
      obtain ⟨c',hc'⟩ := holds_of_deleting huk
      exact (hun.2.2 u hu _ hc').symm
    · exact hs.deleting k hold p hp

theorem matched_return {c : C} {id : ℤ} (hs : Contents codec s) (ht : s.threads[i]? = some t)
    (h : t.Steps codec s.shared o (.returnNormally c id) t' new)
    (hd : t.deleting = none) (hd' : t'.deleting = some id) :
    Matched ⟨(Action.returnNormally c id).apply codec s.shared,s.threads.set i t' ++ new⟩ := by
  have hsub : ∀ p ∈ s.shared.unreturned.erase (id,c), p ∈ s.shared.unreturned :=
    fun p => List.mem_of_mem_erase
  have hheld := hs.held t (List.mem_of_getElem? ht) _ ((step_holds h).2.2 c id (Or.inl rfl))
  refine ⟨hs.nodup.sublist (List.erase_sublist.map _),fun p hp => hs.present p (hsub p hp),
    fun k hk => ?_,fun k hk p hp hpk => ?_⟩
  · rcases hs.origin k hk with ⟨p,hp,hpk⟩ | hdel
    · by_cases hpc : p = (id,c)
      · subst hpc
        exact Or.inr (hpk ▸ deleting_self ht hd')
      · exact Or.inl ⟨p,(List.mem_erase_of_ne hpc).mpr hp,hpk⟩
    · exact Or.inr ((deleting_step ht hdel).resolve_right (by simp [hd]))
  · rcases deleting_of_step h hk with hk | hk
    · exact hs.deleting k hk p (hsub p hp) hpk
    · obtain rfl : id = k := by simpa [hd'] using hk
      obtain rfl := hheld p (hsub p hp) hpk
      have hnodup : s.shared.unreturned.Nodup :=
        List.Pairwise.of_map Prod.fst (fun _ _ h => ne_of_apply_ne _ h) hs.nodup
      exact hnodup.not_mem_erase hp

theorem matched_delete {c : C} {id : ℤ} (hs : Matched s) (ht : s.threads[i]? = some t)
    (h : t.Steps codec s.shared o (.deleteCommand c id) t' new)
    (hd : t.deleting = some id) (hd' : t'.deleting = none) :
    Matched ⟨(Action.deleteCommand c id).apply codec s.shared,s.threads.set i t' ++ new⟩ := by
  have hdel := hs.deleting id ⟨t,List.mem_of_getElem? ht,hd⟩
  refine ⟨hs.nodup,fun p hp => ?_,fun k hk => ?_,fun k hk p hp => ?_⟩
  · simpa [Action.apply,Function.update_of_ne (hdel p hp)] using hs.present p hp
  · have hkid : k ≠ id := by
      rintro rfl
      simp [Action.apply] at hk
    have hk' : s.shared.store.command k ≠ none := by
      simpa [Action.apply,Function.update_of_ne hkid] using hk
    refine (hs.origin k hk').imp_right fun hk' => (deleting_step ht hk').resolve_right ?_
    simpa [hd] using Ne.symm hkid
  · exact hs.deleting k ((deleting_of_step h hk).resolve_right (by simp [hd'])) p hp

theorem matched_unchanged (hs : Matched s) (ht : s.threads[i]? = some t)
    (h : t.Steps codec s.shared o a t' new)
    (hun : (a.apply codec s.shared).unreturned = s.shared.unreturned)
    (hcommand : (a.apply codec s.shared).store.command = s.shared.store.command)
    (hd : t'.deleting = t.deleting) :
    Matched ⟨a.apply codec s.shared,s.threads.set i t' ++ new⟩ := by
  refine ⟨by simpa [hun] using hs.nodup,by simpa [hun,hcommand] using hs.present,fun k hk => ?_,
    fun k hk p hp => ?_⟩
  · rcases hs.origin k (by simpa [hcommand] using hk) with hp | hdel
    · exact Or.inl (by simpa [hun] using hp)
    · rcases deleting_step ht hdel with hdel | htk
      · exact Or.inr hdel
      · exact Or.inr (deleting_self ht (hd.trans htk))
  · have hold : s.Deleting k := (deleting_of_step h hk).elim id
      fun htk => ⟨t,List.mem_of_getElem? ht,hd ▸ htk⟩
    exact hs.deleting k hold p (by simpa [hun] using hp)

end ThreadStep

theorem matched_thread_step {i : ℕ} {o : Outcome} {s s' : State C V} (hs : Contents codec s)
    (hk : Kept (.thread i o) s) (h : s.step codec (.thread i o) = some s') : Matched s' := by
  obtain ⟨t,a,t',new,ht,hstep,_,rfl⟩ := thread_step h
  rcases kept_cases ht hk hstep with ⟨m,c,id,rfl,hun,hd,hd'⟩ | ⟨c,id,rfl,hd,hd'⟩ |
    ⟨c,id,rfl,hd,hd'⟩ | ⟨hun,hcommand,hd⟩
  · exact matched_put hs.toMatched ht hstep hun hd hd'
  · exact matched_return hs ht hstep hd hd'
  · exact matched_delete hs.toMatched ht hstep hd hd'
  · exact matched_unchanged hs.toMatched ht hstep hun hcommand hd

theorem contents_thread_step {i : ℕ} {o : Outcome} {s s' : State C V} (hs : Contents codec s)
    (hk : Kept (.thread i o) s) (h : s.step codec (.thread i o) = some s') : Contents codec s' := by
  have hmatched := matched_thread_step hs hk h
  obtain ⟨t,a,t',new,ht,hstep,_,rfl⟩ := thread_step h
  have htmem : t ∈ s.threads := List.mem_of_getElem? ht
  have hun := fun q => unreturned_of_step (q:=q) ht hk hstep
  refine ⟨hmatched,fun u hu p hp q hq hqp => ?_,fun id v c hv hd q hq hid => ?_⟩
  · have hu' := holds_of_step htmem hstep hu hp
    rcases hun q hq with hq | ⟨hfree,m,ha⟩
    · rcases hu' with ⟨w,hw,hwp⟩ | ⟨m,ha⟩ | ⟨v,hv,hd⟩
      · exact hs.held w hw p hwp q hq hqp
      · exact absurd hqp ((unused_of_step ht hk hstep ha).2.1 q hq)
      · exact hs.record _ v _ hv hd q hq hqp
    · rcases hu' with ⟨w,hw,hwp⟩ | ⟨m',ha'⟩ | ⟨v,hv,hd⟩
      · exact absurd hqp.symm (hfree.2.2 w hw p hwp)
      · rw [ha] at ha'
        injection ha' with _ hc hid
        exact Prod.ext hid hc
      · rw [← hqp,hfree.1] at hv
        simp at hv
  · rcases record_of_apply hv with hv | ⟨m,c',ha,rfl⟩
    · rcases hun q hq with hq | ⟨hfree,_⟩
      · exact hs.record id v c hv hd q hq hid
      · rw [← hid,hfree.1] at hv
        simp at hv
    · obtain rfl := codec.decode_encode _ _ hd
      rcases hun q hq with hq | ⟨_,m',ha'⟩
      · exact absurd hid ((unused_of_step ht hk hstep ha).2.1 q hq)
      · rw [ha] at ha'
        injection ha' with _ hc hid
        exact Prod.ext hid.symm hc.symm

theorem contents_step {e : Event C} {s s' : State C V} (hs : Contents codec s) (hk : Kept e s)
    (h : s.step codec e = some s') : Contents codec s' := by
  cases e with
  | thread i o => exact contents_thread_step hs hk h
  | restart => exact hk.elim
  | call | shutdown =>
    obtain rfl := Option.some.inj h
    have hmem {t u : Thread C} (h : u ∈ s.threads ++ [t]) : u ∈ s.threads ∨ u = t := by simpa using h
    refine ⟨⟨hs.nodup,hs.present,fun id hid => ?_,fun id hid => ?_⟩,fun u hu p hp => ?_,hs.record⟩
    · rcases hs.origin id hid with h | ⟨t,ht,htid⟩
      · exact Or.inl h
      · exact Or.inr ⟨t,List.mem_append_left _ ht,htid⟩
    · obtain ⟨t,ht,htid⟩ := hid
      rcases hmem ht with ht | rfl
      · exact hs.deleting id ⟨t,ht,htid⟩
      · simp [Thread.deleting] at htid
    · rcases hmem hu with hu | rfl
      · exact hs.held u hu p hp
      · simp [Thread.holds,Thread.task] at hp

/-- A new object over a store that holds the commands of earlier sessions. -/
structure SessionStart (codec : Codec C V) (s : State C V) : Prop where
  threads : s.threads = [.initializeMaximum]
  nodup : (s.shared.unreturned.map Prod.fst).Nodup
  storeContents : StoreContents s
  record : ∀ id v c, s.shared.store.command id = some v → codec.decode v = some c →
    ∀ q ∈ s.shared.unreturned, q.1 = id → q = (id,c)

omit [DecidableEq C] in
theorem SessionStart.contents {s : State C V} (h : SessionStart codec s) : Contents codec s := by
  refine ⟨⟨h.nodup,fun p hp => (h.storeContents p.1).mpr ⟨p,hp,rfl⟩,
    fun id hid => Or.inl ((h.storeContents id).mp hid),fun id hid => ?_⟩,fun t ht p hp => ?_,h.record⟩
  · obtain ⟨t,ht,htid⟩ := hid
    rw [h.threads] at ht
    obtain rfl := List.mem_singleton.mp ht
    simp [Thread.deleting] at htid
  · rw [h.threads] at ht
    obtain rfl := List.mem_singleton.mp ht
    simp [Thread.holds,Thread.task] at hp

def OnlyThreads (e : Event C) (_ : State C V) : Prop :=
  match e with
  | .thread _ _ => True
  | _ => False

def Thread.accepting : Thread C → Bool
  | .storeRemotely _ _ => true
  | .put _ _ _ _ => true
  | _ => false

omit [DecidableEq C] in
theorem step_accepting {o : Outcome} {s : Shared C V} {t t' : Thread C} {a : Action C}
    {new : List (Thread C)} (h : t.Steps codec s o a t' new) (ht : t.accepting = false) :
    t'.accepting = false ∧ (∀ u ∈ new, u.accepting = false) ∧ ∀ m c id, a ≠ .putCommand m c id := by
  cases h <;> simp_all [Thread.accepting]

/-- After a restart and without new calls, all that is left in the queue is in `pending`. -/
structure Replays (codec : Codec C V) (pending : List (ℤ × C)) (s : State C V) : Prop where
  accepting : ∀ t ∈ s.threads, t.accepting = false
  record : ∀ id v c, s.shared.store.command id = some v → codec.decode v = some c → (id,c) ∈ pending
  held : ∀ t ∈ s.threads, ∀ p, t.holds = some p → p ∈ pending
  recovered : ∀ p ∈ s.shared.recovered, p ∈ pending

theorem replays_step {pending : List (ℤ × C)} {e : Event C} {s s' : State C V}
    (hs : Replays codec pending s) (ho : OnlyThreads e s) (h : s.step codec e = some s') :
    Replays codec pending s' := by
  cases e with
  | thread i o =>
    obtain ⟨t,a,t',new,ht,hstep,_,rfl⟩ := thread_step h
    have htmem : t ∈ s.threads := List.mem_of_getElem? ht
    obtain ⟨hown,hnew,hput⟩ := step_accepting hstep (hs.accepting t htmem)
    refine ⟨fun u hu => ?_,fun id v c hv hd => ?_,fun u hu p hp => ?_,fun p hp => ?_⟩
    · rcases mem_threads hu with hu | rfl | hu
      · exact hs.accepting u hu
      · exact hown
      · exact hnew u hu
    · rcases record_of_apply hv with hv | ⟨m,c',ha,_⟩
      · exact hs.record id v c hv hd
      · exact absurd ha (hput m c' id)
    · rcases holds_of_step htmem hstep hu hp with ⟨w,hw,hwp⟩ | ⟨m,ha⟩ | ⟨v,hv,hd⟩
      · exact hs.held w hw p hwp
      · exact absurd ha (hput m _ _)
      · exact hs.record _ v _ hv hd
    · cases a with
      | resubmit c id =>
        rcases List.mem_cons.mp hp with rfl | hp
        · exact hs.held t htmem _ ((step_holds hstep).2.2 c id (Or.inr rfl))
        · exact hs.recovered p hp
      | _ => exact hs.recovered p hp
  | _ => exact ho.elim

omit [DecidableEq C] in
theorem Contents.mem_unreturned {s : State C V} (hs : Contents codec s) (hq : s.Quiet) {id : ℤ}
    {v : V} {c : C} (hv : s.shared.store.command id = some v) (hd : codec.decode v = some c) :
    (id,c) ∈ s.shared.unreturned := by
  obtain ⟨q,hmem,hid⟩ := (hs.toMatched.storeContents hq id).mp (by simp [hv])
  exact hs.record id v c hv hd q hmem hid ▸ hmem

/-- In a session whose steps keep records and commands together, every quiet state holds
exactly the records of the commands that have not returned, and the next `initialize`
submits none but these. -/
theorem storeContents_of_kept (s₀ : State C V) (h₀ : SessionStart codec s₀) (es : List (Event C))
    (s : State C V) (h : Runs.Reaches (State.step codec) Kept s₀ es s) (hq : s.Quiet) :
    StoreContents s ∧ ∀ increment threshold s₁ fs s',
      s.step codec (.restart increment threshold) = some s₁ →
      Runs.Reaches (State.step codec) OnlyThreads s₁ fs s' →
      ∀ p ∈ s'.shared.recovered, p ∈ s.shared.unreturned := by
  have hs := h.invariant h₀.contents fun _ _ _ hs hk hstep => contents_step hs hk hstep
  refine ⟨hs.toMatched.storeContents hq,fun increment threshold s₁ fs s' hrestart hrun => ?_⟩
  obtain rfl := Option.some.inj hrestart
  refine (hrun.invariant (I:=Replays codec s.shared.unreturned) ?_
    fun _ _ _ hs ho hstep => replays_step hs ho hstep).recovered
  exact ⟨by simp [Thread.accepting],fun id v c => hs.mem_unreturned hq,
    by simp [Thread.holds,Thread.task],by simp⟩

/-- The record of a command that `add` has run to the end stays in the store. -/
theorem record_after_add :
    ¬ ∀ (es : List (Event ℕ)) (s : State ℕ ℕ),
      Runs.Reaches (State.step (Codec.plain ℕ)) NoRestart (State.start 100 10 Store.empty) es s →
      s.Quiet → StoreContents s := by
  intro hall
  have hrun : ((Runs.runIf (State.step (Codec.plain ℕ)) NoRestart
      [.call .sync 7,.thread 1 .ok,.thread 1 .ok,.thread 1 .ok]
      (State.start 100 10 Store.empty)).map fun s =>
        (s.threads,s.shared.store.command 0,s.shared.unreturned)) =
      some ([.initializeMaximum,.ended],some 7,[]) := by decide
  obtain ⟨s,hs,hp⟩ := Option.map_eq_some_iff.mp hrun
  simp only [Prod.mk.injEq] at hp
  have hquiet : s.Quiet := by simp [State.Quiet,hp.1,Thread.midway]
  have hcontents := hall _ s (Runs.reaches_of_runIf .start hs) hquiet 0
  simp [hp.2] at hcontents

/-- One command completes, a second one ends in an exception, and a third one, called by
`add`, does too: the records of the last two are left. -/
theorem storeContents_after_failures :
    ∃ es, ∃ s : State ℕ ℕ, Runs.Reaches (State.step (Codec.plain ℕ)) Kept (State.start 100 10 Store.empty) es s ∧
      s.shared.unreturned = [(2,9),(1,8)] ∧ StoreContents s := by
  have hrun : ((Runs.runIf (State.step (Codec.plain ℕ)) Kept
      (twoAccepted++completes 3++[.thread 4 .ok,.thread 4 .fails,.call .sync 9,.thread 5 .ok,
        .thread 5 .obsolete,.thread 5 .ok,.thread 5 .fails])
      (State.start 100 10 Store.empty)).map fun s =>
        (s.shared.unreturned,s.threads.all fun t => !t.midway)) = some ([(2,9),(1,8)],true) := by decide
  obtain ⟨s,hs,hp⟩ := Option.map_eq_some_iff.mp hrun
  simp only [Prod.mk.injEq,List.all_eq_true,Bool.not_eq_true'] at hp
  have hstart : SessionStart (Codec.plain ℕ) (State.start 100 10 Store.empty) :=
    ⟨rfl,List.nodup_nil,by simp [StoreContents,State.start,Store.empty],
      by simp [State.start,Store.empty]⟩
  have h := Runs.reaches_of_runIf .start hs
  exact ⟨_,s,h,hp.1,(storeContents_of_kept _ hstart _ s h hp.2).1⟩

end CommandQueue
end Bigbird
