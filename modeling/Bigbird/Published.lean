import Bigbird.Issues

/-! A tweet that `tweet` has returned is there for everyone, for good. -/
namespace Bigbird
namespace TweetService

open JavaText VersionedStore Programs

/-- A step of a run in which no counter is raised to 2^31-1. -/
def Publishes (e : Event) (s : State) : Prop := Replays e s ∧ Calls NoOverflow e s

instance (e : Event) (s : State) : Decidable (Publishes e s) := by
  unfold Publishes
  infer_instance

theorem read_getTweet {w : World} {tweetId : JString} {tweetMap : TweetMap} {date : ℤ}
    (hvalue : (w.store .tweets).value tweetId = some tweetMap)
    (hdate : parseLong tweetMap.date = some date) :
    w.read (getTweet tweetId) = .ok ⟨date,tweetMap.text,tweetMap.user,some tweetId⟩ := by
  obtain ⟨ms,hms⟩ := Store.value_eq_some.mp hvalue
  have hget : (w.store .tweets).get tweetId = some ⟨tweetMap,ms.length+1⟩ := by simp [Store.get,hms]
  change ((orThrow .notFound ((w.store .tweets).get tweetId) >>= fun x => toTweet x.value tweetId).eval _ w).1 = _
  rw [hget]
  change ((orThrow .numberFormat (parseLong tweetMap.date) >>= fun date => _).eval _ w).1 = _
  rw [hdate]
  rfl

theorem eq_of_filterMap {τ β : Type} {f : τ → Option β} {l : List τ} (h : (l.filterMap f).Nodup)
    {x y : τ} (hx : x ∈ l) (hy : y ∈ l) {b : β} (hfx : f x = some b) (hfy : f y = some b) : x = y := by
  induction l with
  | nil => simp at hx
  | cons z l ih =>
    have hnot (hz : f z = some b) {u : τ} (hu : u ∈ l) (hfu : f u = some b) : False := by
      rw [List.filterMap_cons_some hz] at h
      exact (List.nodup_cons.mp h).1 (List.mem_filterMap.mpr ⟨u,hu,hfu⟩)
    rcases List.mem_cons.mp hx with rfl | hxl
    · rcases List.mem_cons.mp hy with rfl | hyl
      · rfl
      · exact (hnot hfx hyl hfy).elim
    · rcases List.mem_cons.mp hy with rfl | hyl
      · exact (hnot hfy hxl hfx).elim
      · exact ih (h.sublist ((List.sublist_cons_self z l).filterMap f)) hxl hyl

/-- What holds in all runs without an overflow: each number is given to one command. -/
structure Publishing (s : State) : Prop where
  numbered : numbered.Good s
  changing : changing.Good s
  disciplined : Disciplined s
  nodup : (commandIds s).Nodup
  given : commandIds s ⊆ tweetIds s.world.history
  stored : ∀ tweetId tweetMap, (s.world.store .tweets).value tweetId = some tweetMap →
    ∃ userId, Issued s.world.history userId tweetId tweetMap

variable {s s' : State}

theorem Publishes.counted (hs : Publishing s) {e : Event} (hc : Publishes e s) : Counted e s := by
  cases e with
  | start job =>
    cases job with
    | execute c =>
      cases c with
      | tweet userId tweetId tweetMap =>
        obtain ⟨text,id,success,hmem⟩ := hc.1
        exact hs.given (List.mem_append_right _ (List.mem_filterMap.mpr ⟨_,hmem,rfl⟩))
      | _ => trivial
    | _ => trivial
  | thread i choice => exact hc.2

theorem Publishing.unique (hs : Publishing s) {userId userId' tweetId : JString} {tweetMap tweetMap' : TweetMap}
    (h : Issued s.world.history userId tweetId tweetMap)
    (h' : Issued s.world.history userId' tweetId tweetMap') : tweetMap = tweetMap' := by
  obtain ⟨text,id,success,hmem⟩ := h
  obtain ⟨text',id',success',hmem'⟩ := h'
  have hnodup := (List.nodup_append.mp hs.nodup).2.1
  have heq := eq_of_filterMap hnodup hmem hmem' rfl rfl
  simp only [Prod.mk.injEq,Sigma.mk.injEq,Op.storeRemotely.injEq,Command.tweet.injEq] at heq
  exact heq.2.1.2.2

theorem publishing_step (hs : Publishing s) {e : Event} (hc : Publishes e s)
    (h : machine.step e s = some s') : Publishing s' := by
  have hnumbered := numbered_step hs.numbered (hc.counted hs) h
  have hdisciplined := disciplined_step hs.disciplined hc.1 h
  have hids : (commandIds s').Nodup ∧ commandIds s' ⊆ tweetIds s'.world.history := by
    rcases commandIds_step hs.disciplined h with ⟨hperm,htweets⟩ | ⟨id,hperm,htweets⟩
    · rw [htweets]
      exact ⟨hperm.nodup_iff.mpr hs.nodup,fun id hid => hs.given (hperm.mem_iff.mp hid)⟩
    · have hnodup := hnumbered.inv.consecutive.nodup
      change (tweetIds s'.world.history).Nodup at hnodup
      rw [htweets] at hnodup ⊢
      refine ⟨hperm.nodup_iff.mpr (List.nodup_cons.mpr ⟨fun hid => ?_,hs.nodup⟩),?_⟩
      · exact (List.nodup_cons.mp hnodup).1 (hs.given hid)
      · exact fun id' hid' => List.cons_subset_cons id hs.given (hperm.mem_iff.mp hid')
  refine ⟨hnumbered,changing_step hs.changing hc.1.arrives h,hdisciplined,hids.1,hids.2,?_⟩
  intro tweetId tweetMap hvalue
  rcases issued_of_stored hs.changing hs.disciplined h hvalue with hold | ⟨userId,hissued⟩
  · obtain ⟨userId,hissued⟩ := hs.stored tweetId tweetMap hold
    exact ⟨userId,hissued.mono (step_grows h).history⟩
  · exact ⟨userId,hissued.mono (step_grows h).history⟩

theorem publishing_of_reaches {es : List Event}
    (h : Runs.Reaches machine.step Publishes State.empty es s) : Publishing s := by
  refine h.invariant ⟨empty_good,⟨trivial,by simp [State.empty],by simp [State.empty]⟩,
    ⟨by simp [State.empty],by simp [State.empty,Issued],by simp [State.empty]⟩,by simp [State.empty,commandIds],
    by simp [State.empty,commandIds],by simp [State.empty,Store.value]⟩ ?_
  exact fun _ _ _ hs hc hstep => publishing_step hs hc hstep

theorem read_of_returned (hs : Publishing s) {userId : JString} {text id : Option JString} {t : Tweet}
    (h : Returned s.world userId text id t) : ∃ tweetId tweetMap, t.id = some tweetId ∧
      (s.world.store .tweets).value tweetId = some tweetMap ∧
      ∀ w : World, (w.store .tweets).value tweetId = some tweetMap → w.read (getTweet tweetId) = .ok t := by
  obtain ⟨tweetId,date,rfl,hdate,hissued,hstored⟩ := h
  obtain ⟨m,ms,hm⟩ := List.exists_cons_of_ne_nil hstored
  have hvalue : (s.world.store .tweets).value tweetId = some m := Store.value_eq_some.mpr ⟨ms,hm⟩
  obtain ⟨userId',hissued'⟩ := hs.stored tweetId m hvalue
  obtain rfl := hs.unique hissued hissued'
  refine ⟨tweetId,_,rfl,hvalue,fun w hw => ?_⟩
  exact read_getTweet hw (@parse_decimal 64 date hdate)

/-- Once `tweet` has returned, its tweet is read in every later state as it was returned. -/
theorem read_own_tweet (es es' : List Event) (s s' : State)
    (h : Runs.Reaches machine.step Publishes State.empty es s)
    (h' : Runs.Reaches machine.step Publishes s es' s') (userId : JString) (text id : Option JString)
    (p : Client (Option Tweet)) (t : Tweet) (hthread : (Job.tweet userId text id,p) ∈ s.threads)
    (hreturned : p.outcome = some (.ok (some t))) :
    ∃ tweetId, t.id = some tweetId ∧ t.text = text ∧ t.user = some userId ∧
      s'.world.read (getTweet tweetId) = .ok t := by
  have hs := publishing_of_reaches h
  have hreturn := hs.changing.post hthread hreturned userId text id t rfl rfl
  obtain ⟨tweetId,tweetMap,hid,hvalue,hread⟩ := read_of_returned hs hreturn
  have hlater := h'.invariant (I:=fun s' => changing.Good s' ∧ (s'.world.store .tweets).value tweetId = some tweetMap)
    ⟨hs.changing,hvalue⟩ fun e s s' hi hc hstep =>
      ⟨changing_step hi.1 hc.1.arrives hstep,(extends_of_step hi.1 hstep).tweet hi.2⟩
  refine ⟨tweetId,hid,?_,?_,hread s'.world hlater.2⟩
  · obtain ⟨_,_,rfl,_⟩ := hreturn
    rfl
  · obtain ⟨_,_,rfl,_⟩ := hreturn
    rfl

def registerAndTweet : List Event :=
  [.start (.newUser ⟨['a'],none,none⟩),.thread 0 (.time 1),.thread 0 .go,
    .start (.tweet ['a'] (some ['h','i']) none),.thread 1 (.time 5),.thread 1 .go,.thread 1 .go,.thread 1 .go,
    .thread 1 (.stored true),.thread 1 .go,.thread 1 .go,.thread 1 (.order []),.thread 1 .go,.thread 1 .go]

/-- He follows himself, and his tweet is replayed. -/
def followAndReplay : List Event :=
  [.start (.execute (.startFollowing ['a'] ['a'])),.thread 2 .go,.thread 2 (.order [['a']]),.thread 2 .go,
    .start (.execute (.tweet ['a'] ['a','-','1'] ⟨some ['5'],some ['h','i'],some ['a'],none⟩)),
    .thread 3 .go,.thread 2 .go,.thread 3 .go,.thread 2 (.order [['a']]),.thread 3 .go]

theorem read_own_tweet_replayed : ∃ s s' : State,
    Runs.Reaches machine.step Publishes State.empty registerAndTweet s ∧
    Runs.Reaches machine.step Publishes s followAndReplay s' ∧
    s'.world.read (getTweet ['a','-','1']) = .ok ⟨5,some ['h','i'],some ['a'],some ['a','-','1']⟩ := by
  have hrun : ((Runs.runIf machine.step Publishes registerAndTweet State.empty).bind fun s =>
      (Runs.runIf machine.step Publishes followAndReplay s).map fun _ =>
        s.threads.map fun t => (t.1,t.2.outcome)) =
      some [(.newUser ⟨['a'],none,none⟩,some (.ok none)),(.tweet ['a'] (some ['h','i']) none,
        some (.ok (some ⟨5,some ['h','i'],some ['a'],some ['a','-','1']⟩)))] := by decide +kernel
  obtain ⟨s,hs,hrest⟩ := Option.bind_eq_some_iff.mp hrun
  obtain ⟨s',hs',hthreads⟩ := Option.map_eq_some_iff.mp hrest
  have hmem : (Job.tweet ['a'] (some ['h','i']) none,
      some (.ok (some ⟨5,some ['h','i'],some ['a'],some ['a','-','1']⟩))) ∈
      s.threads.map fun t => (t.1,t.2.outcome) := by simp [hthreads]
  obtain ⟨⟨j,p⟩,ht,heq⟩ := List.mem_map.mp hmem
  obtain ⟨rfl,hp⟩ := Prod.mk.inj heq
  have h := Runs.reaches_of_runIf .start hs
  have h' := Runs.reaches_of_runIf .start hs'
  obtain ⟨tweetId,hid,_,_,hread⟩ := read_own_tweet _ _ s s' h h' _ _ _ p _ ht hp
  obtain rfl := Option.some.inj hid
  exact ⟨s,s',h,h',hread⟩

end TweetService
end Bigbird
