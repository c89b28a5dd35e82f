import Bigbird.Changes

/-! The commands that `tweet` hands to the queue: one for each number that it has given, with
the content filled in. -/
namespace Bigbird
namespace TweetService

open JavaText VersionedStore Programs

/-- The call raises no counter and hands no command to the queue, and the tasks that it
submits belong to a fan-out. -/
def Plain (j : Job) (op : Op) : Prop :=
  (∀ r, counterWrite (j,⟨op,r⟩) = none) ∧ match op with
  | .storeRemotely _ => False
  | .submit (.updateTimeline _ _ _) => True
  | .submit _ => False
  | _ => True

/-- A command goes to the queue right after the counter was raised for it, and at no other
time; it is the first argument as long as the program still has to do that. -/
inductive Orderly (j : Job) {α : Type} : Option Command → Client α → Prop
  | ret (a : α) : Orderly j none (.ret a)
  | throw (e : Exn) : Orderly j none (.throw e)
  | call {op : Op} {k : Except Exn op.Res → Client α} (hop : Plain j op)
      (hk : ∀ r, Orderly j none (k r)) : Orderly j none (.call op k)
  | raise {userId : JString} {text id : Option JString} {n : ℤ} {tweetMap : TweetMap}
      {x : Versioned UserMap} {k : Except Exn Unit → Client α} (hj : j = .tweet userId text id)
      (hx : x.value.lastTweet = some (decimal n)) (herror : ∀ e, Orderly j none (k (.error e)))
      (hok : Orderly j (some (.tweet userId (tweetKey userId n) tweetMap)) (k (.ok ()))) :
      Orderly j none (.call (.put .users userId x) k)
  | issue {userId tweetId : JString} {text id : Option JString} {tweetMap : TweetMap}
      {k : Except Exn Bool → Client α} (hj : j = .tweet userId text id)
      (hm : Filled userId tweetId tweetMap) (hk : ∀ r, Orderly j none (k r)) :
      Orderly j (some (.tweet userId tweetId tweetMap))
        (.call (.storeRemotely (.tweet userId tweetId tweetMap)) k)

section Programs

variable {j : Job} {α β : Type} {o : Option Command} {p : Client α}

theorem Orderly.of_all (hp : p.All (Plain j)) : Orderly j none p := by
  induction p with
  | ret a => exact .ret a
  | throw e => exact .throw e
  | call op k ih => exact .call hp.1 fun r => ih r (hp.2 r)

theorem Orderly.andThen {f : Except Exn α → Client β} (hp : Orderly j o p)
    (hf : ∀ r, Orderly j none (f r)) : Orderly j o (p.andThen f) := by
  induction hp with
  | ret a => exact hf _
  | throw e => exact hf _
  | call hop _ ih => exact .call hop ih
  | raise hj hx _ _ iherror ihok => exact .raise hj hx iherror ihok
  | issue hj hm _ ih => exact .issue hj hm ih

theorem Orderly.bind {f : α → Client β} (hp : Orderly j o p) (hf : ∀ a, Orderly j none (f a)) :
    Orderly j o (p >>= f) := by
  refine hp.andThen fun r => ?_
  cases r with
  | ok a => exact hf a
  | error e => exact .throw e

theorem Orderly.retry {again : Exn → Bool} (hp : Orderly j none p) (n : ℕ) :
    Orderly j none (p.retry again n) := by
  induction n with
  | zero => exact .ret none
  | succ n ih =>
    refine hp.andThen fun r => ?_
    cases r with
    | ok a => exact .ret (some a)
    | error e =>
      change Orderly j none (if again e then p.retry again n else .throw e)
      split
      · exact ih
      · exact .throw e

theorem TimelineCall.plain {op : Op} (h : TimelineCall op) : Plain j op := by
  refine ⟨fun r => counterWrite_of_timelineOnly h.only,?_⟩
  cases op <;> trivial

theorem plain_get (n : StoreName) (key : JString) : Plain j (.get n key) :=
  (show TimelineCall (.get n key) from trivial).plain

theorem plain_iterator (set : List JString) : Plain j (.iterator set) :=
  ⟨fun _ => by cases j <;> rfl,trivial⟩

theorem plain_putIfNotObsolete (n : StoreName) (key : JString) (x : Versioned (Val n)) :
    Plain j (.putIfNotObsolete n key x) :=
  ⟨fun _ => by cases j <;> rfl,trivial⟩

theorem plain_startUpdate (edges : Edges) (key member : JString) :
    (startUpdate edges key member).All (Plain j) := by
  refine (Prog.All.op (plain_get _ _)).bind fun x => ?_
  cases x with
  | none => trivial
  | some x =>
    exact (Prog.All.op (plain_iterator _)).bind fun _ =>
      (Prog.All.op (plain_putIfNotObsolete _ _ _)).bind fun _ => Prog.All.pure

theorem plain_stopUpdate (hj : j.isTweet = false) (edges : Edges) (key member : JString) :
    (stopUpdate edges key member).All (Plain j) := by
  refine (Prog.All.op (plain_get _ _)).bind fun x => (all_orThrow _ x).bind fun x => ?_
  exact (Prog.All.op (plain_iterator _)).bind fun _ =>
    Prog.All.op ⟨fun r => counterWrite_of_not_isTweet hj ⟨_,r⟩,trivial⟩

theorem plain_tweetCommand (userId tweetId : JString) (tweetMap : TweetMap) :
    (tweetCommand userId tweetId tweetMap).All (Plain j) :=
  all_tweetCommand userId tweetId tweetMap ⟨fun r => by cases j <;> rfl,trivial⟩ plain_iterator
    (fun _ => ⟨fun r => by cases j <;> rfl,trivial⟩) fun _ => TimelineCall.plain

theorem orderly_execute (c : Command) (hj : j.isTweet = false ∨ ∃ u i m, c = .tweet u i m) :
    Orderly j none c.execute := by
  refine (Orderly.retry ?_ 3).bind fun _ => .ret ()
  refine Orderly.of_all ?_
  cases c with
  | tweet userId tweetId tweetMap => exact plain_tweetCommand userId tweetId tweetMap
  | startFollowing userId toStartUser =>
    exact (plain_startUpdate _ _ _).bind fun _ => (plain_startUpdate _ _ _).bind fun _ =>
      (all_startTimeline _ _).mono fun _ => TimelineCall.plain
  | stopFollowing userId toStopUser =>
    have hj' : j.isTweet = false := hj.resolve_right (by simp)
    exact (plain_stopUpdate hj' _ _ _).bind fun _ => (plain_stopUpdate hj' _ _ _).bind fun _ =>
      (all_stopTimeline _ _).mono fun _ => TimelineCall.plain

theorem orderly_newUser (user : User) : Orderly j none (newUser user) := by
  refine Orderly.bind (.call ⟨fun r => by cases j <;> rfl,trivial⟩ fun r => ?_) fun created => ?_
  · cases r with
    | ok a => exact .ret a
    | error e => exact .throw e
  · refine (Orderly.retry (Orderly.of_all (Prog.All.op (plain_putIfNotObsolete _ _ _))) 3).bind fun success => ?_
    cases success with
    | none => exact .throw _
    | some success => exact .ret _

theorem orderly_tweetUpdate (userId : JString) (text id : Option JString) {tweetMap : TweetMap}
    (hm : ∀ n, Filled userId (tweetKey userId n) tweetMap) :
    Orderly (.tweet userId text id) none (tweetUpdate userId tweetMap) := by
  refine Orderly.bind (Orderly.of_all (Prog.All.op (plain_get _ _))) fun x => ?_
  refine (Orderly.of_all (all_orThrow _ x)).bind fun x => ?_
  refine (Orderly.of_all (all_orThrow _ _)).bind fun lastTweet => ?_
  refine .raise rfl rfl (fun e => .throw e) (.issue rfl (hm _) fun r => ?_)
  cases r with
  | error e => exact .throw e
  | ok success =>
    cases success with
    | false => exact .throw _
    | true => exact (orderly_execute _ (Or.inr ⟨_,_,_,rfl⟩)).bind fun _ => .ret _

theorem orderly_tweet (userId : JString) (text id : Option JString) :
    Orderly (.tweet userId text id) none (tweet userId text id) := by
  refine Orderly.bind (.call ⟨fun r => rfl,trivial⟩ fun r => ?_) fun date => ?_
  · cases r with
    | ok a => exact .ret a
    | error e => exact .throw e
  · refine Orderly.bind (Orderly.of_all (Prog.All.op (plain_get _ _))) fun x => ?_
    refine (Orderly.of_all (all_orThrow _ x)).bind fun x => ?_
    refine ((orderly_tweetUpdate userId text id fun n => ⟨n,date,text,id,rfl,rfl⟩).retry 3).bind
      fun success => ?_
    exact (Orderly.of_all (all_orThrow _ success)).bind fun tweetId => .ret _

theorem orderly_body (j : Job) : Orderly j none j.body := by
  cases j with
  | newUser user => exact (orderly_newUser user).bind fun _ => .ret none
  | tweet userId text id =>
    change Orderly _ none (some <$> tweet userId text id)
    rw [map_eq_pure_bind]
    exact (orderly_tweet userId text id).bind fun t => .ret (some t)
  | execute c => exact (orderly_execute c (Or.inl rfl)).bind fun _ => .ret none
  | updateTimeline tweetId tweetMap follower =>
    exact (Orderly.of_all ((all_updateTimeline _ _ _).mono fun _ => TimelineCall.plain)).bind
      fun _ => .ret none

theorem Orderly.tasks (h : Orderly j o p) :
    p.All fun op => ∀ task, op = .submit task → ∃ tweetId tweetMap user,
      task = .updateTimeline tweetId tweetMap user := by
  induction h with
  | ret a => trivial
  | throw e => trivial
  | call hop _ ih =>
    refine ⟨?_,ih⟩
    rintro task rfl
    cases task with
    | updateTimeline tweetId tweetMap user => exact ⟨tweetId,tweetMap,user,rfl⟩
    | _ => exact hop.2.elim
  | raise _ _ _ _ iherror ihok =>
    refine ⟨by simp,fun r => ?_⟩
    cases r with
    | ok a => exact ihok
    | error e => exact iherror e
  | issue _ _ _ ih => exact ⟨by simp,ih⟩

end Programs

/-- A `TweetCommand` is run again only if some `tweet` has handed it to the queue. -/
def Replays (e : Event) (s : State) : Prop :=
  match e with
  | .start (.updateTimeline _ _ _) => False
  | .start (.execute (.tweet userId tweetId tweetMap)) => Issued s.world.history userId tweetId tweetMap
  | _ => True

def issue : Job × (op : Op) × Except Exn op.Res → Option (JString × Command)
  | (.tweet userId _ _,⟨.storeRemotely c,.ok _⟩) => some (userId,c)
  | _ => none

theorem mem_issues {h : History} {userId tweetId : JString} {tweetMap : TweetMap} :
    (userId,Command.tweet userId tweetId tweetMap) ∈ h.filterMap issue ↔
      Issued h userId tweetId tweetMap := by
  rw [List.mem_filterMap]
  constructor
  · rintro ⟨call,hmem,hcall⟩
    unfold issue at hcall
    split at hcall
    · cases hcall
      exact ⟨_,_,_,hmem⟩
    · simp at hcall
  · rintro ⟨text,id,success,hmem⟩
    exact ⟨_,hmem,rfl⟩

instance (h : History) (userId tweetId : JString) (tweetMap : TweetMap) :
    Decidable (Issued h userId tweetId tweetMap) := decidable_of_iff _ mem_issues

instance (e : Event) (s : State) : Decidable (Replays e s) := by
  unfold Replays
  induction e using Event.casesOn with
  | start job =>
    induction job using Job.casesOn with
    | execute command => induction command using Command.casesOn <;> infer_instance
    | _ => infer_instance
  | thread i choice => infer_instance

theorem Replays.arrives {e : Event} {s : State} (h : Replays e s) : Arrives e s := by
  cases e with
  | start job => cases job <;> first | exact h.elim | trivial
  | thread i choice => trivial

structure Disciplined (s : State) : Prop where
  threads : ∀ t ∈ s.threads, ∃ o, Orderly t.1 o t.2
  filled : ∀ userId tweetId tweetMap, Issued s.world.history userId tweetId tweetMap →
    Filled userId tweetId tweetMap
  issued : ∀ userId tweetId tweetMap p, (Job.execute (.tweet userId tweetId tweetMap),p) ∈ s.threads →
    Issued s.world.history userId tweetId tweetMap

variable {s s' : State}

def pendingId : Job × Client (Option Tweet) → Option JString
  | (_,.call (.storeRemotely (.tweet _ tweetId _)) _) => some tweetId
  | _ => none

def issuedId : Job × (op : Op) × Except Exn op.Res → Option JString
  | (_,⟨.storeRemotely (.tweet _ tweetId _),_⟩) => some tweetId
  | _ => none

def commandIds (s : State) : List JString :=
  s.threads.filterMap pendingId ++ s.world.history.filterMap issuedId

theorem pendingId_eq_none {j : Job} {p : Client (Option Tweet)} (h : Orderly j none p) :
    pendingId (j,p) = none := by
  cases h with
  | @call op k hop =>
    cases op with
    | storeRemotely c => exact hop.2.elim
    | _ => rfl
  | _ => rfl

theorem pendingId_eq_some {j : Job} {userId tweetId : JString} {tweetMap : TweetMap}
    {p : Client (Option Tweet)} (h : Orderly j (some (.tweet userId tweetId tweetMap)) p) :
    pendingId (j,p) = some tweetId := by
  cases h
  rfl

theorem filterMap_set_perm {τ β : Type} (f : τ → Option β) {ts : List τ} {i : ℕ} {t : τ}
    (ht : ts[i]? = some t) (t' : τ) :
    ((f t).toList ++ (ts.set i t').filterMap f).Perm ((f t').toList ++ ts.filterMap f) := by
  induction ts generalizing i with
  | nil => simp at ht
  | cons u ts ih =>
    cases i with
    | zero =>
      obtain rfl := Option.some.inj ht
      have hcons (x : τ) : (x::ts).filterMap f = (f x).toList ++ ts.filterMap f := by
        cases hx : f x <;> simp [hx]
      rw [List.set_cons_zero,hcons,hcons]
      exact List.perm_append_comm_assoc _ _ _
    | succ i =>
      have hcons (ts : List τ) : (u::ts).filterMap f = (f u).toList ++ ts.filterMap f := by
        cases hu : f u <;> simp [hu]
      rw [List.set_cons_succ,hcons,hcons]
      refine (List.perm_append_comm_assoc _ _ _).trans (((ih (by simpa using ht)).append_left _).trans ?_)
      exact List.perm_append_comm_assoc _ _ _

theorem filterMap_pendingId_new (new : Option Job) :
    (new.toList.map fun job => (job,job.body)).filterMap pendingId = [] := by
  cases new with
  | none => rfl
  | some job => simp [pendingId_eq_none (orderly_body job)]

theorem commandIds_thread {i : ℕ} {job : Job} {op : Op} {k : Except Exn op.Res → Client (Option Tweet)}
    (ht : s.threads[i]? = some (job,.call op k)) {r : Except Exn op.Res} {w : World}
    (hhistory : w.history = (job,⟨op,r⟩)::s.world.history) (new : Option Job) :
    ((pendingId (job,.call op k)).toList ++
      commandIds ⟨w,s.threads.set i (job,k r) ++ new.toList.map fun job => (job,job.body)⟩).Perm
    ((pendingId (job,k r)).toList ++ ((issuedId (job,⟨op,r⟩)).toList ++ commandIds s)) := by
  have hissued : ((job,⟨op,r⟩)::s.world.history).filterMap issuedId =
      (issuedId (job,⟨op,r⟩)).toList ++ s.world.history.filterMap issuedId := by
    cases hr : issuedId (job,⟨op,r⟩) <;> simp [hr]
  simp only [commandIds,List.filterMap_append,filterMap_pendingId_new,List.append_nil,hhistory,hissued]
  rw [← List.append_assoc]
  refine ((filterMap_set_perm pendingId ht (job,k r)).append_right _).trans ?_
  rw [List.append_assoc]
  exact (List.perm_append_comm_assoc _ _ _).append_left _

theorem issuedId_of_plain {j : Job} {op : Op} (h : Plain j op) (r : Except Exn op.Res) :
    issuedId (j,⟨op,r⟩) = none := by
  cases op with
  | storeRemotely c => exact h.2.elim
  | _ => rfl

theorem tweetIds_cons {j : Job} {op : Op} {r : Except Exn op.Res} {h : History}
    (hnone : counterWrite (j,⟨op,r⟩) = none) : tweetIds ((j,⟨op,r⟩)::h) = tweetIds h := by
  simp [tweetIds,counterWrites,hnone]

/-- A number that is given is the id of one command, and no command has another id. -/
theorem commandIds_step (hs : Disciplined s) {e : Event} (h : machine.step e s = some s') :
    (commandIds s').Perm (commandIds s) ∧ tweetIds s'.world.history = tweetIds s.world.history ∨
    ∃ id, (commandIds s').Perm (id::commandIds s) ∧
      tweetIds s'.world.history = id::tweetIds s.world.history := by
  cases e with
  | start job =>
    obtain rfl := Option.some.inj h
    refine Or.inl ⟨?_,rfl⟩
    simp [commandIds,machine,pendingId_eq_none (orderly_body job)]
  | thread i choice =>
    obtain ⟨job,op,k,r,w,new,ht,hexec,rfl⟩ := Machine.thread_step h
    have hhistory := exec_history hexec
    have hperm := commandIds_thread ht hhistory new
    obtain ⟨o,ho⟩ := hs.threads _ (List.mem_of_getElem? ht)
    rw [hhistory]
    cases ho with
    | call hop hk =>
      rw [pendingId_eq_none (.call hop hk),pendingId_eq_none (hk r),issuedId_of_plain hop r] at hperm
      exact Or.inl ⟨hperm,tweetIds_cons (hop.1 r)⟩
    | @raise userId text id n tweetMap x k hj hx herror hok =>
      subst hj
      cases r with
      | error e =>
        rw [pendingId_eq_none (herror e)] at hperm
        exact Or.inl ⟨hperm,tweetIds_cons rfl⟩
      | ok a =>
        rw [pendingId_eq_some hok] at hperm
        refine Or.inr ⟨tweetKey userId n,hperm,?_⟩
        simp [tweetIds,counterWrites,counterWrite,hx,tweetKey]
    | @issue userId tweetId text id tweetMap k hj hm hk =>
      subst hj
      rw [pendingId_eq_none (hk r)] at hperm
      exact Or.inl ⟨hperm.cons_inv,tweetIds_cons rfl⟩

theorem disciplined_step (hs : Disciplined s) {e : Event} (hc : Replays e s)
    (h : machine.step e s = some s') : Disciplined s' := by
  cases e with
  | start job =>
    obtain rfl := Option.some.inj h
    refine ⟨fun t ht => ?_,hs.filled,fun userId tweetId tweetMap p hmem => ?_⟩
    · rcases List.mem_append.mp ht with ht | ht
      · exact hs.threads t ht
      · obtain rfl := List.mem_singleton.mp ht
        exact ⟨none,orderly_body job⟩
    · rcases List.mem_append.mp hmem with hmem | hmem
      · exact hs.issued _ _ _ p hmem
      · obtain ⟨rfl,rfl⟩ := Prod.mk.inj (List.mem_singleton.mp hmem)
        exact hc
  | thread i choice =>
    obtain ⟨job,op,k,r,w,new,ht,hexec,rfl⟩ := Machine.thread_step h
    have hhistory := exec_history hexec
    obtain ⟨o,ho⟩ := hs.threads _ (List.mem_of_getElem? ht)
    have hnext : ∃ o, Orderly job o (k r) := by
      cases ho with
      | call hop hk => exact ⟨none,hk r⟩
      | raise hj hx herror hok =>
        cases r with
        | error e => exact ⟨none,herror e⟩
        | ok a => exact ⟨_,hok⟩
      | issue hj hm hk => exact ⟨none,hk r⟩
    refine ⟨fun t htmem => ?_,fun userId tweetId tweetMap hissued => ?_,fun userId tweetId tweetMap p hmem => ?_⟩
    · rcases mem_set_append htmem with ⟨n,_,hn⟩ | rfl | hnew
      · exact hs.threads t (List.mem_of_getElem? hn)
      · exact hnext
      · obtain ⟨job',_,rfl⟩ := List.mem_map.mp hnew
        exact ⟨none,orderly_body job'⟩
    · obtain ⟨text,id,success,hmem⟩ := hissued
      change _ ∈ w.history at hmem
      rw [hhistory] at hmem
      rcases List.mem_cons.mp hmem with heq | hmem
      · cases ho with
        | call hop hk =>
          obtain rfl : op = _ := (congrArg (fun call => call.2.1) heq).symm
          exact hop.2.elim
        | raise => cases heq
        | issue hj hm hk =>
          cases heq
          exact hm
      · exact hs.filled _ _ _ ⟨text,id,success,hmem⟩
    · have hold (hmem : (Job.execute (.tweet userId tweetId tweetMap)) ∈ s.threads.map Prod.fst) :
          Issued w.history userId tweetId tweetMap := by
        obtain ⟨t,ht,hjob⟩ := List.mem_map.mp hmem
        obtain ⟨job',p'⟩ := t
        subst hjob
        exact (hs.issued _ _ _ p' ht).mono (hhistory ▸ List.suffix_cons _ _)
      rcases mem_set_append hmem with ⟨n,_,hn⟩ | heq | hnew
      · exact hold (List.mem_map_of_mem (List.mem_of_getElem? hn))
      · obtain ⟨rfl,-⟩ := Prod.mk.inj heq
        exact hold (List.mem_map_of_mem (List.mem_of_getElem? ht))
      · obtain ⟨u,hu,heq⟩ := List.mem_map.mp hnew
        obtain ⟨rfl,-⟩ := Prod.mk.inj heq
        have htask : op.task r = some (.execute (.tweet userId tweetId tweetMap)) :=
          (exec_cases hexec).1.symm.trans (by simpa using hu)
        cases ho with
        | @call op k hop hk =>
          cases op with
          | submit task =>
            cases r with
            | ok a =>
              obtain rfl := Option.some.inj htask
              exact hop.2.elim
            | error e => simp [Op.task] at htask
          | _ => simp [Op.task] at htask
        | raise => simp [Op.task] at htask
        | issue => simp [Op.task] at htask

theorem disciplined_of_reaches {store : (n : StoreName) → Store JString (Val n)} {es : List Event}
    (h : Runs.Reaches machine.step Replays (State.initial store) es s) : Disciplined s :=
  h.invariant ⟨by simp [State.initial],by simp [State.initial,Issued],by simp [State.initial]⟩
    fun _ _ _ hs hc hstep => disciplined_step hs hc hstep

theorem issued_of_stored (hs : changing.Good s) (hd : Disciplined s) {e : Event}
    (h : machine.step e s = some s')
    {tweetId : JString} {tweetMap : TweetMap} (hvalue : (s'.world.store .tweets).value tweetId = some tweetMap) :
    (s.world.store .tweets).value tweetId = some tweetMap ∨
      ∃ userId, Issued s.world.history userId tweetId tweetMap := by
  cases e with
  | start job =>
    obtain rfl := Option.some.inj h
    exact Or.inl hvalue
  | thread i choice =>
    obtain ⟨job,op,k,r,ht,hchange⟩ := change_of_thread hs h
    refine (tweet_of_change hchange hvalue).imp_right ?_
    rintro ⟨userId,rfl | ⟨_,hissued,_⟩⟩
    · exact ⟨userId,hd.issued _ _ _ _ (List.mem_of_getElem? ht)⟩
    · exact ⟨userId,hissued⟩

end TweetService
end Bigbird
