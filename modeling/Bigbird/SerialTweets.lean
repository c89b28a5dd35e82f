import Bigbird.SerialRuns
import Bigbird.TimelineEntries

/-! What a `tweet` does that is executed alone, with the tasks of its fan-out. -/
namespace Bigbird
namespace TweetService

open JavaText VersionedStore Programs

/-- The call is no conditional write of a user. -/
def Unconditional : Op → Prop
  | .putIfNotObsolete .users _ _ => False
  | _ => True

theorem TimelineCall.unconditional {op : Op} (h : TimelineCall op) : Unconditional op := by
  cases op with
  | putIfNotObsolete n key x =>
    obtain rfl : n = .friendsTimeline := h
    trivial
  | _ => trivial

theorem unconditional_tweet (userId : JString) (text id : Option JString) :
    (tweet userId text id).All Unconditional := by
  refine (Prog.All.op trivial).bind fun date => (Prog.All.op trivial).bind fun x =>
    (all_orThrow _ x).bind fun x => (Prog.All.retry ?_ 3).bind fun success =>
      (all_orThrow _ success).bind fun _ => Prog.All.pure
  refine (Prog.All.op trivial).bind fun x => (all_orThrow _ x).bind fun x => (all_orThrow _ _).bind fun n =>
    (Prog.All.op trivial).bind fun _ => (Prog.All.op trivial).bind fun success => ?_
  cases success with
  | false => trivial
  | true =>
    refine Prog.All.bind (Prog.All.bind (Prog.All.retry ?_ 3) fun _ => Prog.All.pure) fun _ => Prog.All.pure
    exact all_tweetCommand _ _ _ trivial (fun _ => trivial) (fun _ => trivial) fun _ => TimelineCall.unconditional

theorem unconditional_body {userId : JString} {j : Job} (hj : j.Delivers userId) :
    j.body.All Unconditional := by
  cases j with
  | tweet userId' text id =>
    change (some <$> tweet userId' text id).All _
    rw [map_eq_pure_bind]
    exact (unconditional_tweet userId' text id).bind fun _ => Prog.All.pure
  | updateTimeline tweetId tweetMap follower =>
    exact ((all_updateTimeline _ _ _).mono fun _ => TimelineCall.unconditional).bind fun _ => Prog.All.pure
  | newUser => exact hj.elim
  | execute => exact hj.elim

theorem put_of_written {op : Op} {r : Except Exn op.Res} (hop : Unconditional op) {key : JString}
    {x : Versioned UserMap} (h : op.written r = some ⟨.users,key,x⟩) : op = .put .users key x := by
  cases op with
  | put n key' x' =>
    cases r with
    | ok _ =>
      cases h
      rfl
    | error _ => simp [Op.written] at h
  | putIfNotObsolete n key' x' =>
    cases r with
    | ok success =>
      cases success with
      | true =>
        cases h
        exact hop.elim
      | false => simp [Op.written] at h
    | error _ => simp [Op.written] at h
  | _ => simp [Op.written] at h

theorem written_of_counterWrite {j : Job} {op : Op} {r : Except Exn op.Res} {p : JString × JString}
    (h : counterWrite (j,⟨op,r⟩) = some p) :
    ∃ x : Versioned UserMap, op.written r = some ⟨.users,p.1,x⟩ ∧ p.2 = x.value.lastTweet.getD [] := by
  unfold counterWrite at h
  split at h
  · rename_i heq
    cases heq
    cases h
    exact ⟨_,rfl,rfl⟩
  · simp at h

/-- The counters are numbers below 2^31-1. -/
def World.Counting (w : World) : Prop :=
  ∀ user c, w.counter user = some c → ∃ n : ℕ, c = some (decimal n) ∧ (n : ℤ) < 2^31 - 1

structure SignedBy (w : World) (author tweetId : JString) (tweetMap : TweetMap) : Prop where
  numbered : ∃ n : ℕ, tweetId = tweetKey author n
  filled : Filled author tweetId tweetMap
  registered : w.store .users author ≠ []

def World.Signed (w : World) : Prop :=
  ∀ tweetId tweetMap, (w.store .tweets).value tweetId = some tweetMap →
    ∃ author, SignedBy w author tweetId tweetMap

def EntryBy (w : World) (author e : JString) : Prop :=
  ∃ tweetId tweetMap, (w.store .tweets).value tweetId = some tweetMap ∧ tweetMap.user = some author ∧
    e = entry tweetId tweetMap

theorem SignedBy.mono {w w' : World} (h : w.Extends w') {author tweetId : JString} {tweetMap : TweetMap}
    (hs : SignedBy w author tweetId tweetMap) : SignedBy w' author tweetId tweetMap :=
  ⟨hs.numbered,hs.filled,(h.grows.store .users).ne_nil hs.registered⟩

theorem EntryBy.mono {w w' : World} (h : w.Extends w') {author e : JString} (he : EntryBy w author e) :
    EntryBy w' author e := by
  obtain ⟨tweetId,tweetMap,hvalue,huser,rfl⟩ := he
  exact ⟨tweetId,tweetMap,h.tweet hvalue,huser,rfl⟩

theorem Filled.user {userId tweetId : JString} {tweetMap : TweetMap} (h : Filled userId tweetId tweetMap) :
    tweetMap.user = some userId := by
  obtain ⟨_,_,_,_,_,rfl⟩ := h
  rfl

/-- What is known while the only job is a `tweet` of this user. -/
structure Tweeting (userId : JString) (w₀ : World) (s : State) : Prop extends Delivering userId w₀ s where
  extension : w₀.Extends s.world
  unconditional : ∀ t ∈ s.threads, t.2.All Unconditional
  calls : ∀ call ∈ s.world.history, call.1.Delivers userId
  counting : s.world.Counting
  writes : ∀ p ∈ counterWrites s.world.history,
    p.1 = userId ∧ s.world.store .users userId ≠ [] ∧ ∃ n : ℕ, p.2 = decimal n
  given : commandIds s ⊆ tweetIds s.world.history
  reads : ∀ j x, (j,⟨Op.get .users userId,.ok (some x)⟩) ∈ s.world.history →
    asSet x.value.followers = w₀.names .followers userId
  signed : s.world.Signed
  entries : ∀ v, ∀ e ∈ s.world.timeline v, e ∈ w₀.timeline v ∨
    EntryBy s.world userId e ∧ (v = userId ∨ w₀.follows .followers (v,userId))

theorem tweeting_start {userId : JString} {text id : Option JString} {store : Stores}
    (hcounting : (World.mk store []).Counting) (hsigned : (World.mk store []).Signed) :
    Tweeting userId ⟨store,[]⟩ ⟨⟨store,[]⟩,[(.tweet userId text id,(Job.tweet userId text id).body)]⟩ := by
  refine ⟨delivering_start store,World.Extends.refl _,fun t ht => ?_,by simp,hcounting,by simp [counterWrites],?_,by simp,hsigned,
    fun v e he => Or.inl he⟩
  · obtain rfl := List.mem_singleton.mp ht
    have hj : (Job.tweet userId text id).Delivers userId := rfl
    exact unconditional_body hj
  · simp [commandIds,pendingId_eq_none (orderly_body (.tweet userId text id))]

variable {userId : JString} {w₀ : World} {s : State}

theorem Tweeting.carries (hs : Tweeting userId w₀ s) {j : Job} (hj : j.Delivers userId)
    {author tweetId : JString} {tweetMap : TweetMap} (h : j.Carries s.world.history author tweetId tweetMap) :
    author = userId ∧ SignedBy s.world userId tweetId tweetMap := by
  rcases h with rfl | ⟨_,⟨text,id,success,hmem⟩,hfilled⟩
  · exact hj.elim
  · obtain rfl : author = userId := hs.calls _ hmem
    have hid : tweetId ∈ commandIds s :=
      List.mem_append_right _ (List.mem_filterMap.mpr ⟨_,hmem,rfl⟩)
    obtain ⟨p,hp,rfl⟩ := List.mem_map.mp (hs.given hid)
    obtain ⟨huser,hregistered,n,hn⟩ := hs.writes p hp
    exact ⟨rfl,⟨n,by rw [huser,hn]; rfl⟩,hfilled,hregistered⟩

theorem Tweeting.count (hs : Tweeting userId w₀ s) {x : UserMap} {n : ℤ}
    (hvalue : (s.world.store .users).value userId = some x) (hparse : parseInt x.lastTweet = some n) :
    ∃ m : ℕ, wrap 32 (n+1) = m ∧ (m : ℤ) < 2^31 := by
  obtain ⟨m,hm,hlt⟩ := hs.counting userId x.lastTweet (by rw [World.counter,hvalue]; rfl)
  rw [hm] at hparse
  obtain rfl : n = m := eq_of_parse_decimal hparse
  refine ⟨m+1,?_,by omega⟩
  rw [@wrap_eq_self 31 _ ⟨by omega,by omega⟩]
  rfl

theorem Tweeting.users_change (hs : Tweeting userId w₀ s) {j : Job} (hj : j.Delivers userId)
    {key : JString} {v : UserMap} (h : Change s.world j .users key v) :
    key = userId ∧ (∃ text id, j = .tweet userId text id) ∧ s.world.store .users userId ≠ [] ∧
      ∃ m : ℕ, v.lastTweet = some (decimal m) ∧ (m : ℤ) < 2^31 := by
  cases h with
  | register => exact hj.elim
  | @count _ text id x n hvalue hparse =>
    obtain rfl : key = userId := hj
    obtain ⟨m,hm,hlt⟩ := hs.count hvalue hparse
    obtain ⟨xs,hxs⟩ := Store.value_eq_some.mp hvalue
    exact ⟨rfl,⟨text,id,rfl⟩,by simp [hxs],m,by rw [hm],hlt⟩
  | edges hpair _ => cases j <;> first | exact hj.elim | simp [Job.pair] at hpair

section Step

variable {i : ℕ} {choice : Choice} {job : Job} {op : Op} {k : Except Exn op.Res → Client (Option Tweet)}
  {r : Except Exn op.Res} {w : World} {new : Option Job}

theorem Tweeting.counting_step (hs : Tweeting userId w₀ s) (ht : s.threads[i]? = some (job,.call op k))
    (hexec : exec job op choice s.world = some (r,w,new)) (hoverflow : NoOverflow job op choice s.world) :
    w.Counting := by
  have hjob := hs.jobs _ (List.mem_of_getElem? ht)
  have hop := (hs.unconditional _ (List.mem_of_getElem? ht)).1
  rcases change_of_exec hs.changing ht hexec with ⟨_,rfl⟩ | ⟨n,key,x,hwritten,hchange,rfl⟩
  · exact hs.counting
  · intro user c hc
    by_cases hn : StoreName.users = n
    · subst hn
      by_cases huser : user = key
      · subst huser
        obtain rfl := put_of_written hop hwritten
        obtain ⟨_,⟨text,id,rfl⟩,_,m,hm,hlt⟩ := hs.users_change hjob hchange
        obtain rfl : x.value.lastTweet = c := by simpa [World.counter,World.logWrite,Store.value] using hc
        refine ⟨m,hm,?_⟩
        have hne : (m : ℤ) ≠ 2^31 - 1 := fun heq => hoverflow (hm.trans (by rw [heq]))
        omega
      · exact hs.counting user c (by simpa [World.counter,World.logWrite,Store.value,huser] using hc)
    · exact hs.counting user c (by simpa [World.counter,World.logWrite,hn] using hc)

theorem Tweeting.writes_step (hs : Tweeting userId w₀ s) (ht : s.threads[i]? = some (job,.call op k))
    (hexec : exec job op choice s.world = some (r,w,new)) : ∀ p ∈ counterWrites w.history,
      p.1 = userId ∧ w.store .users userId ≠ [] ∧ ∃ n : ℕ, p.2 = decimal n := by
  have hjob := hs.jobs _ (List.mem_of_getElem? ht)
  have hgrows := (exec_grows hexec).store .users
  intro p hp
  rw [exec_history hexec] at hp
  obtain ⟨call,hmem,hcall⟩ := List.mem_filterMap.mp hp
  rcases List.mem_cons.mp hmem with rfl | hmem
  · obtain ⟨x,hx,hp₂⟩ := written_of_counterWrite hcall
    rcases change_of_exec hs.changing ht hexec with ⟨hnone,_⟩ | ⟨n,key,x',hwritten,hchange,_⟩
    · simp [hnone] at hx
    · rw [hx] at hwritten
      cases hwritten
      obtain ⟨huser,_,hregistered,m,hm,_⟩ := hs.users_change hjob hchange
      exact ⟨huser,hgrows.ne_nil hregistered,m,by rw [hp₂,hm]; rfl⟩
  · obtain ⟨huser,hregistered,hn⟩ := hs.writes p (List.mem_filterMap.mpr ⟨call,hmem,hcall⟩)
    exact ⟨huser,hgrows.ne_nil hregistered,hn⟩

theorem Tweeting.reads_step (hs : Tweeting userId w₀ s) (hexec : exec job op choice s.world = some (r,w,new)) :
    ∀ j x, (j,⟨Op.get .users userId,.ok (some x)⟩) ∈ w.history →
      asSet x.value.followers = w₀.names .followers userId := by
  intro j x hmem
  rw [exec_history hexec] at hmem
  rcases List.mem_cons.mp hmem with heq | hmem
  · cases heq
    cases choice <;> simp only [exec,Op.answer,Option.map_some,Option.map_none,Option.some.injEq,reduceCtorEq,
      Prod.mk.injEq,Except.ok.injEq,false_and] at hexec
    obtain ⟨hget,_⟩ := hexec
    obtain ⟨vs,hvs,_⟩ := Store.get_eq_some.mp hget
    have hvalue : (s.world.store .users).value userId = some x.value := Store.value_eq_some.mpr ⟨vs,hvs⟩
    have hsets := hs.users userId
    rw [hvalue] at hsets
    cases hw₀ : (w₀.store .users).value userId with
    | none => simp [hw₀] at hsets
    | some y =>
      have hedges : x.value.edges = y.edges := by simpa [hw₀] using hsets
      rw [World.names,hw₀]
      exact congrArg asSet (congrFun hedges .followers)
  · exact hs.reads j x hmem

theorem Tweeting.signed_step (hs : Tweeting userId w₀ s) (ht : s.threads[i]? = some (job,.call op k))
    (hexec : exec job op choice s.world = some (r,w,new)) (hext : s.world.Extends w) : w.Signed := by
  have hjob := hs.jobs _ (List.mem_of_getElem? ht)
  intro tweetId tweetMap hvalue
  rcases tweet_of_change (change_of_exec hs.changing ht hexec) hvalue with hvalue | ⟨_,hcarries⟩
  · obtain ⟨author,hsigned⟩ := hs.signed tweetId tweetMap hvalue
    exact ⟨author,hsigned.mono hext⟩
  · exact ⟨_,(hs.carries hjob hcarries).2.mono hext⟩

/-- The user whose timeline gets the tweet is its author, or one of the followers that the
command has read. -/
theorem Tweeting.target (hs : Tweeting userId w₀ s) (hjob : job.Delivers userId) {tweetId user : JString}
    {tweetMap : TweetMap} (h : Target job s.world tweetId tweetMap user) :
    tweetMap.user = some userId ∧ (user = userId ∨ w₀.follows .followers (user,userId)) := by
  rcases h with ⟨rfl,_,j,author,x,hcarries,hread,hfollower⟩ | hcarries
  · obtain ⟨rfl,hsigned⟩ := hs.carries (hs.calls _ hread) hcarries
    have hmem : user ∈ w₀.names .followers author := hs.reads j x hread ▸ hfollower
    exact ⟨hsigned.filled.user,Or.inr hmem⟩
  · obtain ⟨rfl,hsigned⟩ := hs.carries hjob hcarries
    exact ⟨hsigned.filled.user,Or.inl rfl⟩

theorem Tweeting.entries_step (hs : Tweeting userId w₀ s) (ht : s.threads[i]? = some (job,.call op k))
    (hexec : exec job op choice s.world = some (r,w,new)) (hext : s.world.Extends w) :
    ∀ v, ∀ e ∈ w.timeline v, e ∈ w₀.timeline v ∨
      EntryBy w userId e ∧ (v = userId ∨ w₀.follows .followers (v,userId)) := by
  have hjob := hs.jobs _ (List.mem_of_getElem? ht)
  intro v e he
  have hold (h : e ∈ s.world.timeline v) : e ∈ w₀.timeline v ∨
      EntryBy w userId e ∧ (v = userId ∨ w₀.follows .followers (v,userId)) :=
    (hs.entries v e h).imp_right fun h => ⟨h.1.mono hext,h.2⟩
  rcases change_of_exec hs.changing ht hexec with ⟨_,rfl⟩ | ⟨n,key,x,_,hchange,rfl⟩
  · exact hold he
  · by_cases hn : n = .friendsTimeline
    · subst hn
      by_cases hv : v = key
      · subst hv
        rw [timeline_write_self] at he
        generalize x.value = list at hchange he
        cases hchange with
        | @insert _ tweetId _ tweetMap _ hvalue htarget hinsert =>
          obtain ⟨huser,hv⟩ := hs.target hjob htarget
          rcases List.mem_cons.mp ((insertTweet_perm hinsert).mem_iff.mp he) with rfl | he
          · exact Or.inr ⟨EntryBy.mono hext ⟨tweetId,tweetMap,hvalue,huser,rfl⟩,hv⟩
          · exact hold he
        | backfill => exact hjob.elim
        | filter => exact hjob.elim
      · rw [timeline_write_ne _ _ _ _ hv] at he
        exact hold he
    · exact hold (by simpa [World.timeline,World.logWrite,Ne.symm hn] using he)

end Step

theorem tweeting_step (hs : Tweeting userId w₀ s) {e : Event} {s' : State}
    (hc : ClosedCalls Responds e s ∧ Calls NoOverflow e s) (h : machine.step e s = some s') :
    Tweeting userId w₀ s' := by
  have hdelivering := delivering_step hs.toDelivering hc.1 h
  have hext := extends_of_step hs.changing h
  have hids : commandIds s' ⊆ tweetIds s'.world.history := by
    rcases commandIds_step hs.disciplined h with ⟨hperm,htweets⟩ | ⟨id,hperm,htweets⟩
    · rw [htweets]
      exact fun id hid => hs.given (hperm.mem_iff.mp hid)
    · rw [htweets]
      exact fun id' hid' => List.cons_subset_cons id hs.given (hperm.mem_iff.mp hid')
  cases e with
  | start job => exact hc.1.elim
  | thread i choice =>
    obtain ⟨job,op,k,r,w,new,ht,hexec,rfl⟩ := Machine.thread_step h
    have hjob := hs.jobs _ (List.mem_of_getElem? ht)
    have hoverflow : NoOverflow job op choice s.world := by simpa only [Calls,ht] using hc.2
    refine ⟨hdelivering,hs.extension.trans hext,fun t htmem => ?_,fun call hcall => ?_,hs.counting_step ht hexec hoverflow,
      hs.writes_step ht hexec,hids,hs.reads_step hexec,hs.signed_step ht hexec hext,
      hs.entries_step ht hexec hext⟩
    · rcases mem_set_append htmem with ⟨n,_,hn⟩ | rfl | hnew
      · exact hs.unconditional t (List.mem_of_getElem? hn)
      · exact (hs.unconditional _ (List.mem_of_getElem? ht)).2 r
      · obtain ⟨u,hu,rfl⟩ := List.mem_map.mp hnew
        exact unconditional_body (delivers_new userId hs.disciplined ht hexec u (by simpa using hu))
    · change call ∈ w.history at hcall
      rw [exec_history hexec] at hcall
      rcases List.mem_cons.mp hcall with rfl | hcall
      · exact hjob
      · exact hs.calls call hcall

end TweetService
end Bigbird
