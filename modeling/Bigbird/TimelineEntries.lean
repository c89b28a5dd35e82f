import Bigbird.Issues
import Bigbird.Replay

/-! How many entries a timeline can get, and whether a tweet can have two of them. -/
namespace Bigbird
namespace TweetService

open JavaText VersionedStore Programs

/-- What a call stores, by the state that it finds. -/
def Op.applies (op : Op) (choice : Choice) (w : World) :
    Option ((n : StoreName) × JString × Versioned (Val n)) :=
  match op, choice with
  | .put n key x, .go => if x.version = (w.store n key).length then some ⟨n,key,x⟩ else none
  | .putIfNotObsolete n key x, .go => if x.version = (w.store n key).length then some ⟨n,key,x⟩ else none
  | _, _ => none

theorem written_eq_applies {job : Job} {op : Op} {choice : Choice} {w w' : World}
    {r : Except Exn op.Res} {new : Option Job} (h : exec job op choice w = some (r,w',new)) :
    op.written r = op.applies choice w := by
  cases op with
  | put n key x =>
    cases choice <;> simp only [exec,Op.answer,Option.map_some,Option.map_none,Option.some.injEq,reduceCtorEq] at h
    · by_cases hv : x.version = (w.store n key).length
      · simp only [if_pos hv,Prod.mk.injEq] at h
        rw [← h.1,Op.applies,if_pos hv]
        rfl
      · simp only [if_neg hv,Prod.mk.injEq] at h
        rw [← h.1,Op.applies,if_neg hv]
        rfl
    · rw [← (Prod.mk.inj h).1]
      rfl
  | putIfNotObsolete n key x =>
    cases choice <;> simp only [exec,Op.answer,Option.map_some,Option.map_none,Option.some.injEq,reduceCtorEq] at h
    · by_cases hv : x.version = (w.store n key).length
      · simp only [if_pos hv,Prod.mk.injEq] at h
        rw [← h.1,Op.applies,if_pos hv]
        rfl
      · simp only [if_neg hv,Prod.mk.injEq] at h
        rw [← h.1,Op.applies,if_neg hv]
        rfl
    · rw [← (Prod.mk.inj h).1]
      rfl
  | _ => rfl

/-- The timeline that the call stores, if it stores one, satisfies `C`. -/
def StoresTimeline (C : Job → World → JString → List JString → Prop) (j : Job) (op : Op) (choice : Choice)
    (w : World) : Prop :=
  match op.applies choice w with
  | some ⟨.friendsTimeline,user,x⟩ => C j w user x.value
  | _ => True

instance (C : Job → World → JString → List JString → Prop) [∀ j w user list, Decidable (C j w user list)]
    (j : Job) (op : Op) (choice : Choice) (w : World) : Decidable (StoresTimeline C j op choice w) := by
  unfold StoresTimeline
  split <;> infer_instance

theorem StoresTimeline.mono {C C' : Job → World → JString → List JString → Prop}
    (hC : ∀ j w user list, C j w user list → C' j w user list) {j : Job} {op : Op} {choice : Choice}
    {w : World} (h : StoresTimeline C j op choice w) : StoresTimeline C' j op choice w := by
  unfold StoresTimeline at h ⊢
  split at h
  · exact hC _ _ _ _ h
  · trivial

variable {s s' : State}

theorem timeline_step (hs : changing.Good s) {e : Event} (h : machine.step e s = some s')
    (C : Job → World → JString → List JString → Prop) :
    (Calls (StoresTimeline C) e s ∧ ∀ user, s'.world.timeline user = s.world.timeline user) ∨
    ∃ j user list, (Calls (StoresTimeline C) e s ↔ C j s.world user list) ∧
      Change s.world j .friendsTimeline user list ∧
      ∀ user', s'.world.timeline user' = if user' = user then list else s.world.timeline user' := by
  cases e with
  | start job =>
    obtain rfl := Option.some.inj h
    exact Or.inl ⟨trivial,fun _ => rfl⟩
  | thread i choice =>
    obtain ⟨job,op,k,r,w,new,ht,hexec,rfl⟩ := Machine.thread_step h
    have happlies := written_eq_applies hexec
    have hcalls : Calls (StoresTimeline C) (.thread i choice) s ↔ StoresTimeline C job op choice s.world := by
      simp only [Calls,ht]
    have hadmits : changing.Admits (.thread i choice) s := fun _ _ _ _ => trivial
    have hguar := hs.guar_call hadmits ht hexec
    rcases (exec_cases hexec).2 with ⟨hnone,rfl⟩ | ⟨n,key,x,hwritten,_,rfl⟩
    · refine Or.inl ⟨hcalls.mpr ?_,fun _ => rfl⟩
      rw [StoresTimeline,← happlies,hnone]
      trivial
    · have hchange := hguar.2 op r n key x rfl hwritten
      rw [StoresTimeline,← happlies,hwritten] at hcalls
      by_cases hn : n = .friendsTimeline
      · subst hn
        refine Or.inr ⟨job,key,x.value,hcalls,hchange,fun user => ?_⟩
        by_cases hkey : user = key
        · subst hkey
          rw [if_pos rfl]
          exact timeline_write_self _ _ _ _ _ _
        · rw [if_neg hkey]
          exact timeline_write_ne _ _ _ _ hkey _
      · refine Or.inl ⟨hcalls.mpr ?_,fun user => ?_⟩
        · cases n <;> trivial
        · simp [World.timeline,World.logWrite,Ne.symm hn]

def Bounded (s : State) : Prop := ∀ user, (s.world.timeline user).length ≤ maxTweetsInTimeline

/-- There is room for what the job adds to a timeline: the entry of its tweet, or those recent
tweets of the followed user that are missing. -/
def HasRoom (j : Job) (w : World) (user : JString) (list : List JString) : Prop :=
  match j with
  | .execute (.startFollowing _ toStartUser) => ∀ tweets, Recents w toStartUser tweets →
    startBackfill tweets (w.timeline user) 0 = .ok list →
    (w.timeline user).length + (newEntries tweets (w.timeline user)).card ≤ maxTweetsInTimeline
  | .execute (.stopFollowing _ _) => True
  | _ => (w.timeline user).length < maxTweetsInTimeline

theorem HasRoom.iff_of_target {j : Job} {w : World} {tweetId user : JString} {tweetMap : TweetMap}
    (h : Target j w tweetId tweetMap user) (list : List JString) :
    HasRoom j w user list ↔ (w.timeline user).length < maxTweetsInTimeline := by
  rcases h with ⟨rfl,_⟩ | rfl | ⟨htweet,_⟩
  · rfl
  · rfl
  · cases j <;> first | rfl | simp [Job.isTweet] at htweet

/-- A timeline that is changed stays within the bound exactly if there was room. -/
theorem length_change_iff {j : Job} {w : World} {user : JString} {list : List JString}
    (hbound : (w.timeline user).length ≤ maxTweetsInTimeline) (h : Change w j .friendsTimeline user list) :
    list.length ≤ maxTweetsInTimeline ↔ HasRoom j w user list := by
  cases h with
  | insert _ htarget hinsert =>
    rw [HasRoom.iff_of_target htarget,(insertTweet_perm hinsert).length_eq,List.length_cons]
    omega
  | backfill hrecent hlist =>
    constructor
    · intro hle tweets _ htweets
      exact (startBackfill_length_iff (Nat.zero_le _) hbound htweets).mp hle
    · intro hroom
      exact (startBackfill_length_iff (Nat.zero_le _) hbound hlist).mpr (hroom _ hrecent hlist)
  | filter hlist => exact iff_of_true ((stopFilter_sublist hlist).length_le.trans hbound) trivial

theorem bounded_step (hs : changing.Good s) (hi : Bounded s) {e : Event} (h : machine.step e s = some s') :
    Bounded s' ↔ Calls (StoresTimeline HasRoom) e s := by
  rcases timeline_step hs h HasRoom with ⟨hcalls,hsame⟩ | ⟨j,user,list,hcalls,hchange,htimeline⟩
  · refine iff_of_true (fun user => ?_) hcalls
    rw [hsame]
    exact hi user
  · rw [hcalls,← length_change_iff (hi user) hchange]
    constructor
    · intro hi'
      have huser := hi' user
      rwa [htimeline,if_pos rfl] at huser
    · intro hlist user'
      rw [htimeline]
      split
      · exact hlist
      · exact hi user'

/-- All timelines are bounded, in all states of a run, exactly in the runs in which no entry
is added without room. -/
theorem bounded_iff_room (es : List Event) (s : State)
    (h : Runs.Reaches machine.step Arrives State.empty es s) :
    (∀ fs t, fs <+: es → Runs.Reaches machine.step Arrives State.empty fs t → Bounded t) ↔
      Runs.Reaches machine.step (fun e s => Arrives e s ∧ Calls (StoresTimeline HasRoom) e s)
        State.empty es s := by
  have hempty : Bounded State.empty := by simp [Bounded,State.empty,World.timeline,Store.value]
  refine Runs.invariant_iff_conditions_within (J:=changing.Good)
    ⟨trivial,by simp [State.empty],by simp [State.empty]⟩ hempty ?_ ?_ h
  · exact fun e s s' hj hc hs => changing_step hj hc hs
  · exact fun e s s' hj hi _ hs => bounded_step hj hi hs

section Growth

variable {order : List JString → List JString}

variable {userId : JString} {x : Versioned UserMap} {n : ℤ} {w : World}

theorem eval_tweetUpdate (horder : ∀ l, (order l).Perm l) (job : Job) {tweetMap : TweetMap} (hdated : tweetMap.Dated)
    (hentry : HeadDated [entry (tweetKey userId (wrap 32 (n+1))) tweetMap])
    (hget : (w.store .users).get userId = some x) (hparse : parseInt x.value.lastTweet = some n)
    (hhead : ∀ u, HeadDated (w.timeline u)) (hnew : w.store .tweets (tweetKey userId (wrap 32 (n+1))) = []) :
    ∃ w' ws, (tweetUpdate userId tweetMap).eval (call order (runTask order) job) w =
        (.ok (tweetKey userId (wrap 32 (n+1))),w') ∧
      Wrote w w' (⟨.users,userId,{ x.value with lastTweet := some (decimal (wrap 32 (n+1))) }⟩::
        ⟨.tweets,tweetKey userId (wrap 32 (n+1)),tweetMap⟩::ws) ∧
      Inserts (entry (tweetKey userId (wrap 32 (n+1))) tweetMap) w.timeline
        (order (asSet x.value.followers) ++ [userId]) ws := by
  let tweetId := tweetKey userId (wrap 32 (n+1))
  let x' : Versioned UserMap := ⟨{ x.value with lastTweet := some (decimal (wrap 32 (n+1))) },x.version⟩
  let w₁ := w.log job (.get .users userId) (.ok (some x))
  let w₂ := w₁.logWrite job (.put .users userId x') (.ok ()) .users userId x'.value
  let w₃ := w₂.log job (.storeRemotely (.tweet userId tweetId tweetMap)) (.ok true)
  have hread : Wrote w w₁ [] := Wrote.log job rfl
  have hput : Wrote w₁ w₂ [⟨.users,userId,x'.value⟩] := Wrote.logWrite job rfl
  have hissue : Wrote w₂ w₃ [] := Wrote.log job rfl
  have htimeline : w₃.timeline = w.timeline := by
    funext u
    simp [w₁,w₂,w₃,World.timeline,World.log,World.logWrite]
  have htargets : targets order w₃ userId = order (asSet x.value.followers) ++ [userId] := by
    simp [targets,w₁,w₂,w₃,x',World.log,World.logWrite,Store.value]
  have hnew₃ : w₃.store .tweets tweetId = [] := by simpa [w₁,w₂,w₃,World.log,World.logWrite] using hnew
  obtain ⟨w',ws,hcommand,hwrote,hinserts⟩ : ∃ w' ws, (tweetCommand userId tweetId tweetMap).eval
      (call order (runTask order) job) w₃ = (.ok (),w') ∧ Wrote w₃ w' (⟨.tweets,tweetId,tweetMap⟩::ws) ∧
      Inserts (entry tweetId tweetMap) w₃.timeline (targets order w₃ userId) ws :=
    eval_tweetCommand horder job hdated hentry (fun u => htimeline ▸ hhead u) hnew₃
  rw [htargets,htimeline] at hinserts
  refine ⟨w',ws,?_,((hread.trans hput).trans hissue).trans hwrote,hinserts⟩
  have hversion : x.version = (w₁.store .users userId).length := by
    obtain ⟨vs,hvs,hv⟩ := Store.get_eq_some.mp hget
    exact hv.trans (congrArg List.length hvs).symm
  rw [tweetUpdate,eval_get,hget]
  change (orThrow .numberFormat (parseInt x.value.lastTweet) >>= _).eval _ _ = _
  rw [hparse]
  change (put .users userId x' >>= fun _ => _).eval _ w₁ = _
  rw [Prog.eval_bind,put,Prog.eval_op,call_put order _ job w₁ hversion]
  change (Prog.op (Op.storeRemotely (.tweet userId tweetId tweetMap)) >>= fun success => _).eval _ w₂ = _
  rw [Prog.eval_bind,Prog.eval_op]
  change ((Command.tweet userId tweetId tweetMap).execute >>= fun _ => .ret tweetId).eval _ w₃ = _
  rw [Prog.eval_bind,Command.execute,Prog.eval_bind,applyUpdate,Command.body,Prog.eval_retry_ok hcommand 2]
  rfl

theorem eval_tweet (horder : ∀ l, (order l).Perm l) (job : Job) (text id : Option JString) {m : ℤ}
    (hm : wrap 32 (n+1) = m)
    (hentry : HeadDated [entry (tweetKey userId (m)) ⟨some (decimal 0),text,some userId,id⟩])
    (hget : (w.store .users).get userId = some x) (hparse : parseInt x.value.lastTweet = some n)
    (hhead : ∀ u, HeadDated (w.timeline u)) (hnew : w.store .tweets (tweetKey userId (m)) = []) :
    ∃ w' ws, (tweet userId text id).eval (call order (runTask order) job) w =
        (.ok ⟨0,text,some userId,some (tweetKey userId (m))⟩,w') ∧
      Wrote w w' (⟨.users,userId,{ x.value with lastTweet := some (decimal (m)) }⟩::
        ⟨.tweets,tweetKey userId (m),⟨some (decimal 0),text,some userId,id⟩⟩::ws) ∧
      Inserts (entry (tweetKey userId (m)) ⟨some (decimal 0),text,some userId,id⟩) w.timeline
        (order (asSet x.value.followers) ++ [userId]) ws := by
  subst hm
  let w₁ := w.log job .now (.ok 0)
  let w₂ := w₁.log job (.get .users userId) (.ok (some x))
  have htime : Wrote w w₁ [] := Wrote.log job rfl
  have hread : Wrote w₁ w₂ [] := Wrote.log job rfl
  obtain ⟨w',ws,hupdate,hwrote,hinserts⟩ : ∃ w' ws, (tweetUpdate userId ⟨some (decimal 0),text,some userId,id⟩).eval
      (call order (runTask order) job) w₂ = (.ok (tweetKey userId (wrap 32 (n+1))),w') ∧ Wrote w₂ w' _ ∧
      Inserts _ w₂.timeline (order (asSet x.value.followers) ++ [userId]) ws :=
    eval_tweetUpdate horder job rfl hentry hget hparse hhead hnew
  refine ⟨w',ws,?_,(htime.trans hread).trans hwrote,hinserts⟩
  rw [tweet,Prog.eval_bind,Prog.eval_op]
  change (get .users userId >>= fun x => _).eval _ w₁ = _
  rw [eval_get,show (w₁.store .users).get userId = some x from hget]
  change (applyUpdate (tweetUpdate userId ⟨some (decimal 0),text,some userId,id⟩) >>= fun success => _).eval _ w₂ = _
  rw [Prog.eval_bind,applyUpdate,Prog.eval_retry_ok hupdate 2]
  rfl

theorem timelineDate_entry {d : ℤ} (hd : -2^63 ≤ d ∧ d < 2^63) (hcolon : ':' ∉ userId) (n : ℤ)
    (text user id : Option JString) :
    timelineDate (entry (tweetKey userId n) ⟨some (decimal d),text,user,id⟩) = .ok d := by
  have hnumber : ':' ∉ decimal n := not_mem_decimal (by decide) (by decide) n
  have hid : ':' ∉ tweetKey userId n := by simp [tweetKey,hcolon,hnumber]
  have hdate : ':' ∉ decimal d := not_mem_decimal (by decide) (by decide) d
  have hparse : parse 64 (decimal d) = some d := parse_decimal hd
  simp only [timelineDate,entry,Option.getD_some,split_append_cons hid hdate (decimal_ne_nil d),hparse]

theorem endsWithin_body {cond : Event → State → Prop}
    (hcond : ∀ i choice s, choice ≠ .fails → cond (.thread i choice) s) (horder : ∀ l, (order l).Perm l)
    (job : Job) {s : State} {i : ℕ} (hi : s.threads[i]? = some (job,job.body)) :
    EndsWithin cond s i job (job.body.eval (call order (runTask order) job) s.world).2 := by
  refine endsWithin_runAlone hcond horder ((orderly_body job).tasks.mono ?_) hi
  rintro op hop task htask s n hn
  obtain ⟨tweetId,tweetMap,user,rfl⟩ := hop task htask
  refine endsWithin_runAlone hcond horder (Prog.All.bind
    ((all_updateTimeline tweetId tweetMap user).mono ?_) fun _ => Prog.All.pure) hn
  rintro _ hcall task rfl
  exact hcall.elim

structure Tweeted (userId : JString) (n : ℕ) (w : World) : Prop where
  user : ∃ x, (w.store .users).value userId = some x ∧ x.lastTweet = some (decimal n) ∧ x.followers = none
  fresh : ∀ m : ℕ, n < m → w.store .tweets (tweetKey userId m) = []
  dated : ∀ u, ∀ e ∈ w.timeline u, (timelineDate e).toOption.isSome
  length : (w.timeline userId).length = n

theorem tweeted_step {n : ℕ} (hcolon : ':' ∉ userId) (hn : n+1 < 2^31) {s : State}
    (h : Tweeted userId n s.world) :
    ∃ es s', Runs.Reaches machine.step Arrives s es s' ∧ Tweeted userId (n+1) s'.world := by
  obtain ⟨x,hx,hcount,hfollowers⟩ := h.user
  obtain ⟨xs,hxs⟩ := Store.value_eq_some.mp hx
  have hget : (s.world.store .users).get userId = some ⟨x,xs.length+1⟩ := by simp [Store.get,hxs]
  have hparse : parseInt x.lastTweet = some (n : ℤ) := by
    rw [hcount]
    exact @parse_decimal 32 _ ⟨by omega,by omega⟩
  have hwrap : wrap 32 ((n : ℤ)+1) = ((n+1 : ℕ) : ℤ) := by
    rw [@wrap_eq_self 31 _ ⟨by omega,by omega⟩]
    rfl
  let job : Job := .tweet userId none none
  let tweetId := tweetKey userId (n+1 : ℕ)
  let e := entry tweetId ⟨some (decimal 0),none,some userId,none⟩
  have he : timelineDate e = .ok 0 := timelineDate_entry (by omega) hcolon _ _ _ _
  have hhead : ∀ u, HeadDated (s.world.timeline u) := fun u e he => h.dated u e (List.mem_of_mem_head? he)
  have hentry : HeadDated [e] := by
    intro e' he'
    obtain rfl : e = e' := by simpa using he'
    rw [he]
    rfl
  obtain ⟨w',ws,heval,hwrote,hinserts⟩ := eval_tweet (fun l : List JString => List.Perm.refl (id l)) job none none
    hwrap hentry hget hparse hhead (h.fresh _ (by omega))
  have husers : id (asSet x.followers) ++ [userId] = [userId] := by
    rw [hfollowers]
    rfl
  rw [husers] at hinserts
  let w₁ := (s.world.apply ⟨.users,userId,{ x with lastTweet := some (decimal (n+1 : ℕ)) }⟩).apply
    ⟨.tweets,tweetId,⟨some (decimal 0),none,some userId,none⟩⟩
  have hstore : w'.store = (w₁.applyAll ws).store := hwrote.store
  have hothers {n : StoreName} (hn : n ≠ .friendsTimeline) : w'.store n = w₁.store n := by
    rw [hstore]
    simpa using hinserts.store hn w₁ ws.length
  have htimeline (u : JString) : (w'.timeline u).Perm (List.replicate ([userId].count u) e ++ s.world.timeline u) := by
    have hw₁ : w₁.timeline = s.world.timeline := by
      funext u
      simp [w₁,World.timeline,World.apply]
    have hw' : w'.timeline u = (w₁.applyAll ws).timeline u := by rw [World.timeline,World.timeline,hstore]
    have hperm := hinserts.timeline hw₁ ws.length u
    rwa [List.take_length,hinserts.length_eq,List.take_length,← hw'] at hperm
  let s₁ : State := ⟨s.world,s.threads ++ [(job,job.body)]⟩
  have hstart : Runs.Reaches machine.step Arrives s [.start job] s₁ := .next _ .start trivial rfl
  have hbody : (job.body.eval (call id (runTask id) job) s.world).2 = w' := by
    change ((some <$> tweet userId none none).eval _ _).2 = w'
    rw [map_eq_pure_bind,Prog.eval_bind,heval]
    rfl
  have hlast : s₁.threads[s.threads.length]? = some (job,job.body) := by simp [s₁]
  obtain ⟨es,q,new,hrun,_,_⟩ : EndsWithin Arrives s₁ s.threads.length job _ :=
    endsWithin_body (fun _ _ _ _ => trivial) (fun l : List JString => List.Perm.refl (id l)) job hlast
  rw [hbody] at hrun
  refine ⟨_,_,hstart.trans hrun,⟨⟨{ x with lastTweet := some (decimal (n+1 : ℕ)) },?_,rfl,hfollowers⟩,?_,?_,?_⟩⟩
  · rw [hothers (by simp)]
    simp [w₁,World.apply,Store.value]
  · intro m hm
    rw [hothers (by simp)]
    have hne : tweetKey userId m ≠ tweetId := by
      intro heq
      have := (tweetKey_injective heq).2
      omega
    simpa [w₁,World.apply,hne] using h.fresh m (by omega)
  · intro u e' he'
    rcases List.mem_append.mp ((htimeline u).mem_iff.mp he') with he' | he'
    · rw [(List.mem_replicate.mp he').2,he]
      rfl
    · exact h.dated u e' he'
  · have hlength := (htimeline userId).length_eq
    simp only [List.count_singleton_self,List.length_append,List.length_replicate,h.length] at hlength
    change (w'.timeline userId).length = _
    omega

/-- A user that nobody follows gets an entry for each of his tweets, however many. -/
theorem timeline_grows (hcolon : ':' ∉ userId) {n : ℕ} (hn : n < 2^31) :
    ∃ es s, Runs.Reaches machine.step Arrives State.empty es s ∧ Tweeted userId n s.world := by
  induction n with
  | zero =>
    let job : Job := .newUser ⟨userId,none,none⟩
    let userMap := newUserMap ⟨userId,none,none⟩ 0
    let w : World := ⟨fun _ _ => [],[]⟩
    let s : State := ⟨w,[(job,job.body)]⟩
    have hstart : Runs.Reaches machine.step Arrives State.empty [.start job] s := .next _ .start trivial rfl
    have hbody : (job.body.eval (call id (runTask id) job) w).2 = (w.log job .now (.ok 0)).logWrite job
        (.putIfNotObsolete .users userId ⟨userMap,0⟩) (.ok true) .users userId userMap := rfl
    obtain ⟨es,q,new,hrun,_,_⟩ : EndsWithin Arrives s 0 job _ :=
      endsWithin_body (fun _ _ _ _ => trivial) (fun l : List JString => List.Perm.refl (id l)) job
      (show s.threads[0]? = some (job,job.body) from rfl)
    rw [show s.world = w from rfl,hbody] at hrun
    refine ⟨_,_,hstart.trans hrun,⟨userMap,?_,rfl,rfl⟩,?_,?_,?_⟩ <;>
      simp [World.logWrite,World.log,World.timeline,Store.value,w]
  | succ n ih =>
    obtain ⟨es,s,hs,htweeted⟩ := ih (by omega)
    obtain ⟨es',s',hs',htweeted'⟩ := tweeted_step hcolon hn htweeted
    exact ⟨_,s',hs.trans hs',htweeted'⟩

/-- 251 tweets of one user. -/
theorem timeline_of_251 : ¬ ∀ es s, Runs.Reaches machine.step Arrives State.empty es s → Bounded s := by
  intro hall
  obtain ⟨es,s,hs,htweeted⟩ := timeline_grows (show ':' ∉ ['a'] by decide) (show 251 < 2^31 by decide)
  have hle := hall es s hs ['a']
  rw [htweeted.length] at hle
  exact absurd hle (by decide)

end Growth

theorem HasRoom.of_length {j : Job} {w : World} {user : JString} {list : List JString}
    (h : (w.timeline user).length < maxTweetsInTimeline ∧ list.length ≤ maxTweetsInTimeline) :
    HasRoom j w user list := by
  unfold HasRoom
  split
  · intro tweets _ htweets
    exact (startBackfill_length_iff (Nat.zero_le _) h.1.le htweets).mp h.2
  · trivial
  · exact h.1

/-- Two users register, the first one tweets, and the second one follows him and gets his
tweet. -/
def tweetAndFollow : List Event :=
  [.start (.newUser ⟨['a'],none,none⟩),.thread 0 (.time 1),.thread 0 .go,
    .start (.newUser ⟨['b'],none,none⟩),.thread 1 (.time 2),.thread 1 .go,
    .start (.tweet ['a'] none none),.thread 2 (.time 5),.thread 2 .go,.thread 2 .go,.thread 2 .go,
    .thread 2 (.stored true),.thread 2 .go,.thread 2 .go,.thread 2 (.order []),.thread 2 .go,.thread 2 .go,
    .start (.execute (.startFollowing ['b'] ['a'])),.thread 3 .go,.thread 3 (.order [['a']]),.thread 3 .go,
    .thread 3 .go,.thread 3 (.order [['b']]),.thread 3 .go,.thread 3 .go,.thread 3 .go,.thread 3 .go,.thread 3 .go]

theorem bounded_two_users : ∃ s : State, Runs.Reaches machine.step Arrives State.empty tweetAndFollow s ∧ (∀ fs t, fs <+: tweetAndFollow →
    Runs.Reaches machine.step Arrives State.empty fs t → Bounded t) ∧
    s.world.timeline ['b'] = [['a','-','1',':','5']] := by
  have hrun : ((Runs.runIf machine.step (fun e s => Arrives e s ∧ Calls (StoresTimeline fun _ w user list =>
      (w.timeline user).length < maxTweetsInTimeline ∧ list.length ≤ maxTweetsInTimeline) e s)
      tweetAndFollow State.empty).map fun s => s.world.timeline ['b']) = some [['a','-','1',':','5']] := by
    decide +kernel
  obtain ⟨s,hs,hp⟩ := Option.map_eq_some_iff.mp hrun
  have hreaches : Runs.Reaches machine.step (fun e s => Arrives e s ∧ Calls (StoresTimeline HasRoom) e s)
      State.empty ([] ++ tweetAndFollow) s := (Runs.reaches_of_runIf .start hs).mono fun e s hc =>
    ⟨hc.1,hc.2.mono fun _ _ _ _ h => h.mono fun _ _ _ _ => HasRoom.of_length⟩
  have h : Runs.Reaches machine.step Arrives State.empty tweetAndFollow s := hreaches.mono fun _ _ hc => hc.1
  exact ⟨s,h,(bounded_iff_room _ s h).mpr hreaches,hp⟩

/-- The id of the tweet that an entry of a timeline stands for. -/
def entryId (e : JString) : JString := (e.rdropWhile (· ≠ ':')).dropLast

theorem entryId_append (tweetId : JString) {date : JString} (hdate : ':' ∉ date) :
    entryId (tweetId ++ ':'::date) = tweetId := by
  have hall : ∀ c ∈ date.reverse, decide (c ≠ ':') = true := by
    intro c hc
    simp only [ne_eq,decide_not,Bool.not_eq_eq_eq_not,Bool.not_true,decide_eq_false_iff_not]
    rintro rfl
    exact hdate (List.mem_reverse.mp hc)
  rw [entryId,List.rdropWhile,List.reverse_append,List.reverse_cons,List.append_assoc,
    List.dropWhile_append_of_pos hall]
  simp

def NoDuplicates (s : State) : Prop := ∀ user, ((s.world.timeline user).map entryId).Nodup

/-- A `TweetCommand` enters its tweet into a timeline that has no entry for it yet. -/
def EntersNew (j : Job) (w : World) (user : JString) (list : List JString) : Prop :=
  match j with
  | .execute (.startFollowing _ _) => True
  | .execute (.stopFollowing _ _) => True
  | _ => ∀ tweetId tweetMap, insertTweet tweetId tweetMap (w.timeline user) = .ok list →
    tweetId ∉ (w.timeline user).map entryId

theorem EntersNew.iff_of_target {j : Job} {w : World} {tweetId user : JString} {tweetMap : TweetMap}
    (h : Target j w tweetId tweetMap user) (list : List JString) : EntersNew j w user list ↔
      ∀ tweetId tweetMap, insertTweet tweetId tweetMap (w.timeline user) = .ok list →
        tweetId ∉ (w.timeline user).map entryId := by
  rcases h with ⟨rfl,_⟩ | rfl | ⟨htweet,_⟩
  · rfl
  · rfl
  · cases j <;> first | rfl | simp [Job.isTweet] at htweet

theorem ids_of_insertTweet {tweetId : JString} {tweetMap : TweetMap} {timeline list : List JString}
    (h : insertTweet tweetId tweetMap timeline = .ok list) :
    (list.map entryId).Perm (tweetId::timeline.map entryId) := by
  have hperm := (insertTweet_perm h).map entryId
  have hid : entryId (entry tweetId tweetMap) = tweetId := by
    unfold insertTweet at h
    cases hdate : tweetMap.date with
    | none => simp [hdate] at h
    | some date =>
      cases hparse : parse 64 date with
      | none => simp [hdate,hparse] at h
      | some d =>
        rw [entry,hdate]
        exact entryId_append tweetId (not_mem_of_parse (by decide) (by decide) (by decide) hparse)
  rwa [List.map_cons,hid] at hperm

def StoredEntry (w : World) (e : JString) : Prop :=
  ∃ tweetId tweetMap, (w.store .tweets).value tweetId = some tweetMap ∧ e = entry tweetId tweetMap

theorem StoredEntry.mono {w w' : World} (h : w.Extends w') {e : JString} (he : StoredEntry w e) :
    StoredEntry w' e := by
  obtain ⟨tweetId,tweetMap,hvalue,rfl⟩ := he
  exact ⟨tweetId,tweetMap,h.tweet hvalue,rfl⟩

/-- What is known of tweets and timelines in all runs. -/
structure Entered (s : State) : Prop where
  changing : changing.Good s
  disciplined : Disciplined s
  filled : ∀ tweetId tweetMap, (s.world.store .tweets).value tweetId = some tweetMap →
    ∃ userId, Filled userId tweetId tweetMap
  entries : ∀ user, ∀ e ∈ s.world.timeline user, StoredEntry s.world e

theorem Entered.id_entry (hs : Entered s) {tweetId : JString} {tweetMap : TweetMap}
    (h : (s.world.store .tweets).value tweetId = some tweetMap) : entryId (entry tweetId tweetMap) = tweetId := by
  obtain ⟨_,n,date,text,id,_,rfl⟩ := hs.filled tweetId tweetMap h
  exact entryId_append tweetId (not_mem_decimal (by decide) (by decide) date)

theorem Entered.recent (hs : Entered s) {userId : JString} {t : Tweet} (h : Recent s.world userId t) :
    ∃ tweetId tweetMap, (s.world.store .tweets).value tweetId = some tweetMap ∧
      t.entry = entry tweetId tweetMap := by
  obtain ⟨n,tweetMap,hid,hvalue,hdate⟩ := h
  obtain ⟨_,_,date,text,id,_,rfl⟩ := hs.filled _ tweetMap hvalue
  have hdate' : t.date = date := eq_of_parse_decimal hdate
  refine ⟨_,_,hvalue,?_⟩
  rw [Tweet.entry,hid,hdate']
  rfl

theorem Entered.eq_of_entryId (hs : Entered s) {e e' : JString} (he : StoredEntry s.world e)
    (he' : StoredEntry s.world e') (h : entryId e = entryId e') : e = e' := by
  obtain ⟨tweetId,tweetMap,hvalue,rfl⟩ := he
  obtain ⟨tweetId',tweetMap',hvalue',rfl⟩ := he'
  rw [hs.id_entry hvalue,hs.id_entry hvalue'] at h
  subst h
  rw [Option.some.inj (hvalue.symm.trans hvalue')]

theorem Entered.backfill (hs : Entered s) {userId toStartUser : JString} {tweets : List Tweet}
    {list : List JString} (hrecent : Recents s.world toStartUser tweets)
    (h : startBackfill tweets (s.world.timeline userId) 0 = .ok list) :
    (∀ e ∈ list, StoredEntry s.world e) ∧
      (((s.world.timeline userId).map entryId).Nodup →
        (list.map entryId).Nodup) := by
  refine startBackfill_keeps (P:=fun list => (∀ e ∈ list, StoredEntry s.world e) ∧
    (((s.world.timeline userId).map entryId).Nodup →
      (list.map entryId).Nodup)) (fun t ht l l' hl hmem hperm => ?_) (Nat.zero_le _)
    (Nat.zero_le _) ⟨hs.entries userId,fun h => h⟩ h
  obtain ⟨tweetId,tweetMap,hvalue,hentry⟩ := hs.recent (hrecent t ht)
  have hstored : StoredEntry s.world t.entry := ⟨tweetId,tweetMap,hvalue,hentry⟩
  refine ⟨fun e he => ?_,fun hnodup => ?_⟩
  · rcases List.mem_cons.mp (hperm.mem_iff.mp he) with rfl | he
    · exact hstored
    · exact hl.1 e he
  · refine (hperm.map _).nodup_iff.mpr (List.nodup_cons.mpr ⟨fun hid => ?_,hl.2 hnodup⟩)
    obtain ⟨e,he,heq⟩ := List.mem_map.mp hid
    rw [hs.eq_of_entryId (hl.1 e he) hstored heq] at he
    exact hmem he

theorem noDuplicates_step (hs : Entered s) (hi : NoDuplicates s) {e : Event} (h : machine.step e s = some s') :
    NoDuplicates s' ↔ Calls (StoresTimeline EntersNew) e s := by
  rcases timeline_step hs.changing h EntersNew with ⟨hcalls,hsame⟩ | ⟨j,user,list,hcalls,hchange,htimeline⟩
  · refine iff_of_true (fun user => ?_) hcalls
    rw [hsame]
    exact hi user
  · have hlist : NoDuplicates s' ↔ (list.map entryId).Nodup := by
      constructor
      · intro hi'
        have huser := hi' user
        rwa [htimeline,if_pos rfl] at huser
      · intro hlist user'
        rw [htimeline]
        split
        · exact hlist
        · exact hi user'
    rw [hlist,hcalls]
    cases hchange with
    | @insert _ tweetId _ tweetMap _ _ htarget hinsert =>
      rw [EntersNew.iff_of_target htarget]
      constructor
      · intro hnodup tweetId' tweetMap' hinsert'
        exact (List.nodup_cons.mp ((ids_of_insertTweet hinsert').nodup_iff.mp hnodup)).1
      · intro hnew
        exact (ids_of_insertTweet hinsert).nodup_iff.mpr
          (List.nodup_cons.mpr ⟨hnew tweetId tweetMap hinsert,hi user⟩)
    | backfill hrecent hbackfill => exact iff_of_true ((hs.backfill hrecent hbackfill).2 (hi user)) trivial
    | filter hfilter => exact iff_of_true ((hi user).sublist ((stopFilter_sublist hfilter).map _)) trivial

theorem entered_step (hs : Entered s) {e : Event} (hc : Replays e s) (h : machine.step e s = some s') :
    Entered s' := by
  have hext := extends_of_step hs.changing h
  refine ⟨changing_step hs.changing hc.arrives h,disciplined_step hs.disciplined hc h,?_,?_⟩
  · intro tweetId tweetMap hvalue
    rcases issued_of_stored hs.changing hs.disciplined h hvalue with hold | ⟨userId,hissued⟩
    · exact hs.filled tweetId tweetMap hold
    · exact ⟨userId,hs.disciplined.filled userId tweetId tweetMap hissued⟩
  · intro user e he
    rcases timeline_step hs.changing h EntersNew with ⟨_,hsame⟩ | ⟨j,user',list,_,hchange,htimeline⟩
    · rw [hsame] at he
      exact (hs.entries user e he).mono hext
    · rw [htimeline] at he
      split at he
      · refine StoredEntry.mono hext ?_
        cases hchange with
        | @insert _ tweetId _ tweetMap _ hvalue _ hinsert =>
          rcases List.mem_cons.mp ((insertTweet_perm hinsert).mem_iff.mp he) with rfl | he
          · exact ⟨tweetId,tweetMap,hvalue,rfl⟩
          · exact hs.entries user' e he
        | backfill hrecent hbackfill => exact (hs.backfill hrecent hbackfill).1 e he
        | filter hfilter => exact hs.entries user' e ((stopFilter_sublist hfilter).subset he)
      · exact (hs.entries user e he).mono hext

theorem empty_entered : Entered State.empty :=
  ⟨⟨trivial,by simp [State.empty],by simp [State.empty]⟩,
    ⟨by simp [State.empty],by simp [State.empty,Issued],by simp [State.empty]⟩,
    by simp [State.empty,Store.value],by simp [State.empty,World.timeline,Store.value]⟩

/-- No timeline has two entries for one tweet, in all states of a run, exactly in the runs in
which every `TweetCommand` finds the timelines that it writes without its tweet. -/
theorem no_duplicates_iff_new (es : List Event) (s : State)
    (h : Runs.Reaches machine.step Replays State.empty es s) :
    (∀ fs t, fs <+: es → Runs.Reaches machine.step Replays State.empty fs t → NoDuplicates t) ↔
      Runs.Reaches machine.step (fun e s => Replays e s ∧ Calls (StoresTimeline EntersNew) e s)
        State.empty es s := by
  have hempty : NoDuplicates State.empty := by simp [NoDuplicates,State.empty,World.timeline,Store.value]
  refine Runs.invariant_iff_conditions_within empty_entered hempty ?_ ?_ h
  · exact fun e s s' hj hc hs => entered_step hj hc hs
  · exact fun e s s' hj hi _ hs => noDuplicates_step hj hi hs

/-- A user who follows himself tweets; the task for the follower and the update for the
author both enter the tweet. -/
def tweetToSelf : List Event :=
  [.start (.newUser ⟨['a'],none,none⟩),.thread 0 (.time 1),.thread 0 .go,
    .start (.execute (.startFollowing ['a'] ['a'])),.thread 1 .go,.thread 1 (.order [['a']]),.thread 1 .go,
    .thread 1 .go,.thread 1 (.order [['a']]),.thread 1 .go,.thread 1 .go,.thread 1 .go,.thread 1 .go,
    .start (.tweet ['a'] none none),.thread 2 (.time 5),.thread 2 .go,.thread 2 .go,.thread 2 .go,
    .thread 2 (.stored true),.thread 2 .go,.thread 2 .go,.thread 2 (.order [['a']]),.thread 2 .go,
    .thread 3 .go,.thread 3 .go,.thread 2 .go,.thread 2 .go]

theorem duplicate_for_self : ¬ ∀ es s, Runs.Reaches machine.step Replays State.empty es s → NoDuplicates s := by
  intro hall
  have hrun : ((Runs.runIf machine.step Replays tweetToSelf State.empty).map fun s => s.world.timeline ['a']) =
      some [['a','-','1',':','5'],['a','-','1',':','5']] := by decide +kernel
  obtain ⟨s,hs,hp⟩ := Option.map_eq_some_iff.mp hrun
  have hnodup := hall _ s (Runs.reaches_of_runIf .start hs) ['a']
  rw [hp] at hnodup
  exact absurd hnodup (by decide)

theorem EntersNew.of_nodup {j : Job} {w : World} {user : JString} {list : List JString}
    (h : (list.map entryId).Nodup) : EntersNew j w user list := by
  unfold EntersNew
  split
  · trivial
  · trivial
  · exact fun _ _ hinsert => (List.nodup_cons.mp ((ids_of_insertTweet hinsert).nodup_iff.mp h)).1

theorem no_duplicates_two_users : ∃ s : State, Runs.Reaches machine.step Replays State.empty tweetAndFollow s ∧ (∀ fs t, fs <+: tweetAndFollow →
    Runs.Reaches machine.step Replays State.empty fs t → NoDuplicates t) ∧
    s.world.timeline ['b'] = [['a','-','1',':','5']] := by
  have hrun : ((Runs.runIf machine.step (fun e s => Replays e s ∧ Calls (StoresTimeline fun _ _ _ list =>
      (list.map entryId).Nodup) e s) tweetAndFollow State.empty).map fun s => s.world.timeline ['b']) =
      some [['a','-','1',':','5']] := by decide +kernel
  obtain ⟨s,hs,hp⟩ := Option.map_eq_some_iff.mp hrun
  have hreaches : Runs.Reaches machine.step (fun e s => Replays e s ∧ Calls (StoresTimeline EntersNew) e s)
      State.empty ([] ++ tweetAndFollow) s := (Runs.reaches_of_runIf .start hs).mono fun e s hc =>
    ⟨hc.1,hc.2.mono fun _ _ _ _ h => h.mono fun _ _ _ _ => EntersNew.of_nodup⟩
  have h : Runs.Reaches machine.step Replays State.empty tweetAndFollow s := hreaches.mono fun _ _ hc => hc.1
  exact ⟨s,h,(no_duplicates_iff_new _ s h).mpr hreaches,hp⟩

end TweetService
end Bigbird
