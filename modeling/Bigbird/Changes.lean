import Bigbird.FollowEdges
import Bigbird.Timelines
import Bigbird.TweetNumbers

/-! What the services write. Whatever else runs at the same time, each value that is stored
is made from the value it replaces in one of a few ways. -/
namespace Bigbird
namespace TweetService

open JavaText VersionedStore Programs

/-- Stores and history grow, and a tweet that is stored stays as it is. -/
structure World.Extends (w w' : World) : Prop where
  grows : w.Grows w'
  tweets : ∀ id, w.store .tweets id ≠ [] → w'.store .tweets id = w.store .tweets id

theorem World.Extends.refl (w : World) : w.Extends w := ⟨World.Grows.refl w,fun _ _ => rfl⟩

theorem World.Extends.trans {w w' w'' : World} (h : w.Extends w') (h' : w'.Extends w'') :
    w.Extends w'' := by
  refine ⟨h.grows.trans h'.grows,fun id hid => ?_⟩
  have hid' := h.tweets id hid
  rw [h'.tweets id (hid' ▸ hid),hid']

theorem World.extends_log (w : World) (j : Job) (op : Op) (r : Except Exn op.Res) :
    w.Extends (w.log j op r) := ⟨w.grows_log j op r,fun _ _ => rfl⟩

theorem World.Extends.of_log {w w' : World} {j : Job} {op : Op} {r : Except Exn op.Res}
    (h : (w.log j op r).Extends w') : w.Extends w' := (w.extends_log j op r).trans h

theorem World.Extends.tweet {w w' : World} (h : w.Extends w') {id : JString} {m : TweetMap}
    (hm : (w.store .tweets).value id = some m) : (w'.store .tweets).value id = some m := by
  obtain ⟨ms,hms⟩ := Store.value_eq_some.mp hm
  rw [Store.value,h.tweets id (by simp [hms]),hms,List.head?_cons]

theorem World.Extends.stored {w w' : World} (h : w.Extends w') {id : JString}
    (hid : w.store .tweets id ≠ []) : w'.store .tweets id ≠ [] :=
  (h.grows.store .tweets).ne_nil hid

def Issued (h : History) (userId tweetId : JString) (tweetMap : TweetMap) : Prop :=
  ∃ text id success, (Job.tweet userId text id,
    ⟨Op.storeRemotely (.tweet userId tweetId tweetMap),.ok success⟩) ∈ h

/-- What the command of a `tweet` looks like: it fills in date, user and id. -/
def Filled (userId tweetId : JString) (tweetMap : TweetMap) : Prop :=
  ∃ n date text id, tweetId = tweetKey userId n ∧ tweetMap = ⟨some (decimal date),text,some userId,id⟩

/-- The job runs this `TweetCommand`, for the queue or within `tweet`. -/
def Job.Carries (j : Job) (h : History) (userId tweetId : JString) (tweetMap : TweetMap) : Prop :=
  j = .execute (.tweet userId tweetId tweetMap) ∨
    j.isTweet = true ∧ Issued h userId tweetId tweetMap ∧ Filled userId tweetId tweetMap

/-- The command has stored its tweet, and the name is one of the followers it has read. -/
structure FanOut (w : World) (tweetId : JString) (tweetMap : TweetMap) (follower : JString) : Prop where
  stored : (w.store .tweets).value tweetId = some tweetMap
  read : ∃ (j : Job) (userId : JString) (x : Versioned UserMap), j.Carries w.history userId tweetId tweetMap ∧
    (j,⟨Op.get .users userId,.ok (some x)⟩) ∈ w.history ∧ follower ∈ asSet x.value.followers

theorem Issued.mono {h h' : History} (hs : h <:+ h') {userId tweetId : JString} {tweetMap : TweetMap}
    (hi : Issued h userId tweetId tweetMap) : Issued h' userId tweetId tweetMap := by
  obtain ⟨text,id,success,hmem⟩ := hi
  exact ⟨text,id,success,hs.subset hmem⟩

theorem Job.Carries.mono {j : Job} {h h' : History} (hs : h <:+ h') {userId tweetId : JString}
    {tweetMap : TweetMap} (hc : j.Carries h userId tweetId tweetMap) :
    j.Carries h' userId tweetId tweetMap :=
  hc.imp_right fun hi => ⟨hi.1,hi.2.1.mono hs,hi.2.2⟩

theorem FanOut.mono {w w' : World} (h : w.Extends w') {tweetId : JString} {tweetMap : TweetMap}
    {follower : JString} (hf : FanOut w tweetId tweetMap follower) :
    FanOut w' tweetId tweetMap follower := by
  obtain ⟨j,userId,x,hcarries,hread,hmem⟩ := hf.read
  exact ⟨h.tweet hf.stored,j,userId,x,hcarries.mono h.grows.history,h.grows.history.subset hread,hmem⟩

/-- The job puts the entry of a tweet into the timeline of a follower, or of its author. -/
def Target (j : Job) (w : World) (tweetId : JString) (tweetMap : TweetMap) (user : JString) : Prop :=
  j = .updateTimeline tweetId tweetMap user ∧ FanOut w tweetId tweetMap user ∨
    j.Carries w.history user tweetId tweetMap

theorem Target.mono {j : Job} {w w' : World} (h : w.Extends w') {tweetId : JString}
    {tweetMap : TweetMap} {user : JString} (ht : Target j w tweetId tweetMap user) :
    Target j w' tweetId tweetMap user :=
  ht.imp (fun h₁ => ⟨h₁.1,h₁.2.mono h⟩) fun h₂ => h₂.mono h.grows.history

def Recent (w : World) (userId : JString) (tweet : Tweet) : Prop :=
  ∃ n tweetMap, tweet.id = some (tweetKey userId n) ∧
    (w.store .tweets).value (tweetKey userId n) = some tweetMap ∧
    parseLong tweetMap.date = some tweet.date

theorem Recent.mono {w w' : World} (h : w.Extends w') {userId : JString} {tweet : Tweet}
    (hr : Recent w userId tweet) : Recent w' userId tweet := by
  obtain ⟨n,tweetMap,hid,hvalue,hdate⟩ := hr
  exact ⟨n,tweetMap,hid,h.tweet hvalue,hdate⟩

def newUserMap (user : User) (created : ℤ) : UserMap where
  username := some user.username
  password := user.password
  name := user.name
  created := some (decimal created)
  lastTweet := some (decimal 0)

/-- The value that a job may store in a world, in place of the one that is there. -/
inductive Change (w : World) : Job → (n : StoreName) → JString → Val n → Prop
  | register {user : User} {created : ℤ} : w.store .users user.username = [] →
      Change w (.newUser user) .users user.username (newUserMap user created)
  | count {userId : JString} {text id : Option JString} {x : UserMap} {n : ℤ} :
      (w.store .users).value userId = some x → parseInt x.lastTweet = some n →
      Change w (.tweet userId text id) .users userId
        { x with lastTweet := some (decimal (wrap 32 (n+1))) }
  | edges {j : Job} {key : JString} {x : UserMap} {e : Edges} {s : JString} : j.pair.isSome →
      (w.store .users).value key = some x → Change w j .users key (x.setEdges e s)
  | tweet {j : Job} {userId tweetId : JString} {tweetMap : TweetMap} :
      j.Carries w.history userId tweetId tweetMap → w.store .tweets tweetId = [] →
      Change w j .tweets tweetId tweetMap
  | insert {j : Job} {tweetId user : JString} {tweetMap : TweetMap} {list : List JString} :
      (w.store .tweets).value tweetId = some tweetMap → Target j w tweetId tweetMap user →
      insertTweet tweetId tweetMap (w.timeline user) = .ok list →
      Change w j .friendsTimeline user list
  | backfill {userId toStartUser : JString} {tweets : List Tweet} {list : List JString} :
      (∀ t ∈ tweets, Recent w toStartUser t) → startBackfill tweets (w.timeline userId) 0 = .ok list →
      Change w (.execute (.startFollowing userId toStartUser)) .friendsTimeline userId list
  | filter {userId toStopUser : JString} {list : List JString} :
      stopFilter toStopUser (w.timeline userId) = .ok list →
      Change w (.execute (.stopFollowing userId toStopUser)) .friendsTimeline userId list

/-- The tweet that a call has returned: it was issued with this content, and one is stored
under its id. -/
def Returned (w : World) (userId : JString) (text id : Option JString) (t : Tweet) : Prop :=
  ∃ tweetId date, t = ⟨date,text,some userId,some tweetId⟩ ∧ (-2^63 ≤ date ∧ date < 2^63) ∧
    Issued w.history userId tweetId ⟨some (decimal date),text,some userId,id⟩ ∧
    w.store .tweets tweetId ≠ []

/-- Every job keeps to the changes, whatever the others do in between. -/
def changing : Logic machine where
  inv _ := True
  rely _ := World.Extends
  guar j w w' := w.Extends w' ∧ ∀ op r n key x, w'.history = (j,⟨op,r⟩)::w.history →
    op.written r = some ⟨n,key,x⟩ → Change w j n key x.value
  cond _ _ _ _ := True
  pre j w := ∀ tweetId tweetMap follower, j = .updateTimeline tweetId tweetMap follower →
    FanOut w tweetId tweetMap follower
  post j r w := ∀ userId text id t, j = .tweet userId text id → r = .ok (some t) →
    Returned w userId text id t
  apart _ _ := True
  rely_refl _ := World.Extends.refl
  rely_trans _ _ _ _ := World.Extends.trans
  rely_of_guar _ _ _ _ _ h := h.1
  apart_symm _ _ _ := trivial

theorem World.extends_logWrite {w : World} {n : StoreName} {key : JString}
    (h : n = .tweets → w.store .tweets key = []) (j : Job) (op : Op) (r : Except Exn op.Res) (v : Val n) :
    w.Extends (w.logWrite j op r n key v) := by
  refine ⟨w.grows_logWrite j op r n key v,fun id hid => ?_⟩
  by_cases hn : StoreName.tweets = n
  · subst hn
    have hne : id ≠ key := by
      rintro rfl
      exact hid (h rfl)
    simp [World.logWrite,hne]
  · simp [World.logWrite,hn]

section Walk

variable {j : Job} {w : World} {α β : Type}

theorem changing_logs (j : Job) : Logs changing j := by
  intro op r w _ hw
  refine ⟨trivial,⟨w.extends_log j op r,?_⟩,by simp⟩
  rintro op' r' n key x hhistory hwritten
  cases (List.cons.inj hhistory).1
  simp [hw] at hwritten

theorem changing_write {op : Op} {r : Except Exn op.Res} {n : StoreName} {key : JString}
    {x : Versioned (Val n)} (hw : op.written r = some ⟨n,key,x⟩) (hc : Change w j n key x.value)
    (htweets : n = .tweets → w.store .tweets key = []) :
    changing.Call j w (w.logWrite j op r n key x.value) none := by
  refine ⟨trivial,⟨World.extends_logWrite htweets j op r x.value,?_⟩,by simp⟩
  rintro op' r' n' key' x' hhistory hwritten
  cases (List.cons.inj hhistory).1
  cases hw.symm.trans hwritten
  exact hc

theorem changing_throw {e : Exn} : changing.wp j (.throw e : Client α) Anyhow w := fun _ _ _ => trivial

theorem changing_ret {a : α} : changing.wp j (.ret a) Anyhow w := fun _ _ _ => trivial

theorem changing_since {p : Client α} {Q : Except Exn α → World → Prop} (h : changing.wp j p Q w) :
    changing.wp j p (fun r w' => w.Extends w' ∧ Q r w') w :=
  changing.wp_since (T:=World.Extends) (fun _ _ _ => World.Extends.trans) (fun _ _ h => h)
    (fun _ _ h => h.1) h

theorem changing_then {p : Client α} {f : α → Client β} {Q : α → World → Prop}
    (hp : changing.wp j p (fun r w' => ∀ a, r = .ok a → Q a w') w)
    (hf : ∀ a w', w.Extends w' → Q a w' → changing.wp j (f a) Anyhow w') :
    changing.wp j (p >>= f) Anyhow w := by
  refine changing.wp_bind (changing.wp_mono (changing_since hp) fun r w' _ h => ?_)
  cases r with
  | ok a => exact hf a w' h.1 (h.2 a rfl)
  | error e => exact changing_throw

theorem changing_anyhow {p : Client α} (hp : changing.wp j p Anyhow w) {Q : α → World → Prop}
    (hQ : ∀ a w', Q a w') : changing.wp j p (fun r w' => ∀ a, r = .ok a → Q a w') w :=
  changing.wp_mono hp fun _ w' _ _ a _ => hQ a w'

theorem changing_startUpdate (hj : j.pair.isSome) (edges : Edges) (key member : JString) :
    changing.wp j (startUpdate edges key member) Anyhow w := by
  refine wp_get (changing_logs j) (fun w₁ _ _ _ => ?_) fun _ _ _ _ => changing_throw
  cases hget : (w₁.store .users).get key with
  | none => exact changing_ret
  | some x =>
    refine wp_iterator (changing_logs j) fun w₂ l _ hr₂ _ => ?_
    refine wp_putIfNotObsolete (changing_logs j) (fun w₃ _ hr₃ _ hv => ⟨?_,changing_ret⟩)
      (fun _ _ _ _ _ => changing_ret) fun _ _ _ _ => changing_throw
    have hvalue := value_of_get hget (hr₂.of_log.trans hr₃.of_log).grows hv
    exact changing_write rfl (.edges hj hvalue) (by simp)

theorem changing_stopUpdate (hj : j.pair.isSome) (edges : Edges) (key member : JString) :
    changing.wp j (stopUpdate edges key member) Anyhow w := by
  refine wp_get (changing_logs j) (fun w₁ _ _ _ => ?_) fun _ _ _ _ => changing_throw
  cases hget : (w₁.store .users).get key with
  | none => exact changing_throw
  | some x =>
    refine wp_iterator (changing_logs j) fun w₂ l _ hr₂ _ => wp_of_bind_pure ?_
    refine wp_put (changing_logs j) (fun w₃ _ hr₃ _ hv => ⟨?_,changing_ret⟩)
      (fun _ _ _ _ _ => changing_throw) fun _ _ _ _ => changing_throw
    have hvalue := value_of_get hget (hr₂.of_log.trans hr₃.of_log).grows hv
    exact changing_write rfl (.edges hj hvalue) (by simp)

theorem changing_updateTimeline {tweetId user : JString} {tweetMap : TweetMap}
    (hstored : (w.store .tweets).value tweetId = some tweetMap) (ht : Target j w tweetId tweetMap user) :
    changing.wp j (updateTimeline tweetId tweetMap user) Anyhow w := by
  refine wp_get (changing_logs j) (fun w₁ _ hr₁ _ => ?_) fun _ _ _ _ => changing_throw
  change changing.wp j (liftExcept (insertTweet tweetId tweetMap (w₁.getTimeline user).value) >>= fun list =>
    put .friendsTimeline user ⟨list,(w₁.getTimeline user).version⟩) Anyhow _
  cases hlist : insertTweet tweetId tweetMap (w₁.getTimeline user).value with
  | error e => exact changing_throw
  | ok list =>
    refine wp_of_bind_pure (wp_put (changing_logs j) (fun w₂ _ hr₂ _ hv => ⟨?_,changing_ret⟩)
      (fun _ _ _ _ _ => changing_throw) fun _ _ _ _ => changing_throw)
    have hext := hr₁.trans hr₂.of_log
    refine changing_write rfl (.insert (hext.tweet hstored) (ht.mono hext) ?_) (by simp)
    rw [timeline_of_get hr₂.of_log.grows hv]
    exact hlist

theorem changing_submitAll {tweetId : JString} {tweetMap : TweetMap} {followers : List JString}
    (hf : ∀ f ∈ followers, FanOut w tweetId tweetMap f) :
    changing.wp j (submitAll tweetId tweetMap followers) Anyhow w := by
  induction followers generalizing w with
  | nil => exact changing_ret
  | cons follower followers ih =>
    refine wp_submit (changing_logs j) (fun w' _ hr _ => ?_) fun _ _ _ _ => changing_throw
    have hext := hr.trans (w'.extends_log j (.submit (.updateTimeline tweetId tweetMap follower)) (.ok ()))
    refine ⟨?_,ih fun f hf' => (hf f (List.mem_cons_of_mem _ hf')).mono hext⟩
    refine ⟨trivial,((changing_logs j) _ _ w' trivial rfl).guar,?_⟩
    rintro u ⟨⟩
    refine ⟨?_,trivial,fun _ _ => trivial⟩
    rintro _ _ _ ⟨⟩
    exact (hf follower List.mem_cons_self).mono hext

/-- A `TweetCommand` gets past its first call only if there is a tweet under the id. -/
theorem changing_tweetCommand {userId tweetId : JString} {tweetMap : TweetMap}
    (hc : j.Carries w.history userId tweetId tweetMap) :
    changing.wp j (tweetCommand userId tweetId tweetMap)
      (fun r w' => (∃ a, r = .ok a) ∨ r = .error .obsoleteVersion → w'.store .tweets tweetId ≠ []) w := by
  refine wp_put (changing_logs j) (fun w₁ _ hr₁ _ hv => ?_) (fun w₁ _ hr₁ _ hv => ?_)
    fun _ _ _ _ => Logic.wp_throw fun _ _ _ h => by simp at h
  · have habsent : w₁.store .tweets tweetId = [] := List.length_eq_zero_iff.mp hv.symm
    have hc₁ := hc.mono hr₁.grows.history
    refine ⟨changing_write rfl (.tweet hc₁ habsent) fun _ => habsent,?_⟩
    let w₂ := w₁.logWrite j (.put .tweets tweetId ⟨tweetMap,0⟩) (.ok ()) .tweets tweetId tweetMap
    have hstored : (w₂.store .tweets).value tweetId = some tweetMap := by
      simp [w₂,World.logWrite,Store.value]
    have hc₂ : j.Carries w₂.history userId tweetId tweetMap := hc₁.mono (List.suffix_cons _ _)
    refine changing.wp_mono (changing_since (Q:=Anyhow) ?_) fun r w' _ h _ => h.1.stored (by simp [World.logWrite])
    refine wp_getValue (changing_logs j) (fun w₃ _ hr₃ _ => ?_) fun _ _ _ _ => changing_throw
    rw [← Store.map_get]
    cases hget : (w₃.store .users).get userId with
    | none => exact changing_ret
    | some x =>
      refine wp_iterator (changing_logs j) fun w₄ l _ hr₄ hl => ?_
      have hext₄ := hr₃.trans hr₄.of_log
      have hfan (w₅ : World) (h₅ : w₄.Extends w₅) (f : JString) (hf : f ∈ l) : FanOut w₅ tweetId tweetMap f := by
        refine ⟨(hext₄.trans h₅).tweet hstored,j,userId,x,hc₂.mono (hext₄.trans h₅).grows.history,?_,
          hl.mem_iff.mp hf⟩
        exact (hr₄.trans h₅).grows.history.subset List.mem_cons_self
      have hlog := w₄.extends_log j (.iterator (asSet x.value.followers)) (.ok l)
      refine changing_then (changing_anyhow (changing_submitAll fun f hf => hfan _ hlog f hf)
        (Q:=fun _ _ => True) fun _ _ => trivial) fun _ w₅ h₅ _ => ?_
      have hext₅ := (hext₄.trans hlog).trans h₅
      exact changing_updateTimeline (hext₅.tweet hstored) (Or.inr (hc₂.mono hext₅.grows.history))
  · refine Logic.wp_throw fun w₂ _ hr₂ _ => hr₂.stored fun hnil => hv ?_
    have habsent : w₁.store .tweets tweetId = [] := hnil
    simp [habsent]

def Recents (w : World) (userId : JString) (tweets : List Tweet) : Prop := ∀ t ∈ tweets, Recent w userId t

theorem Recents.mono {w w' : World} (h : w.Extends w') {userId : JString} {tweets : List Tweet}
    (hr : Recents w userId tweets) : Recents w' userId tweets := fun t ht => (hr t ht).mono h

theorem changing_getTweetsLoop (userId : JString) (lastTweet limit : ℤ) (rounds : ℕ) (i : ℤ)
    {tweetList : List Tweet} (hr : Recents w userId tweetList) :
    changing.wp j (getTweetsLoop userId lastTweet limit rounds i tweetList)
      (fun r w' => ∀ tweets, r = .ok tweets → Recents w' userId tweets) w := by
  have hret {w : World} {tweetList : List Tweet} (hr : Recents w userId tweetList) :
      changing.wp j (.ret tweetList)
        (fun r w' => ∀ tweets, r = .ok tweets → Recents w' userId tweets) w := by
    refine Logic.wp_ret fun w' _ hr' tweets h => ?_
    cases h
    exact hr.mono hr'
  induction rounds generalizing i w tweetList with
  | zero => exact hret hr
  | succ rounds ih =>
    unfold getTweetsLoop
    split
    · dsimp only
      split
      · exact hret hr
      · refine wp_getValue (changing_logs j) (fun w₁ _ hr₁ _ => ?_)
          fun _ _ _ _ => Logic.wp_throw fun _ _ _ _ h => by simp at h
        have hlog := w₁.extends_log j (.get .tweets (tweetKey userId (wrap 32 (lastTweet - i))))
          (.ok ((w₁.store .tweets).get (tweetKey userId (wrap 32 (lastTweet - i)))))
        have hr₂ := hr.mono (hr₁.trans hlog)
        cases hvalue : (w₁.store .tweets).value (tweetKey userId (wrap 32 (lastTweet - i))) with
        | none => exact ih _ hr₂
        | some tweetMap =>
          cases hdate : parseLong tweetMap.date with
          | none =>
            simp only [toTweet,hdate]
            exact Logic.wp_throw fun _ _ _ _ h => by simp at h
          | some date =>
            simp only [toTweet,hdate]
            refine ih _ fun t ht => ?_
            rcases List.mem_append.mp ht with ht | ht
            · exact hr₂ t ht
            · obtain rfl := List.mem_singleton.mp ht
              exact ⟨_,tweetMap,rfl,hlog.tweet hvalue,hdate⟩
    · exact hret hr

theorem changing_getRecentTweets (userId : JString) :
    changing.wp j (getRecentTweets userId)
      (fun r w' => ∀ tweets, r = .ok tweets → Recents w' userId tweets) w := by
  refine wp_getValue (changing_logs j) (fun w₁ _ _ _ => ?_)
    fun _ _ _ _ => Logic.wp_throw fun _ _ _ _ h => by simp at h
  cases (w₁.store .users).value userId with
  | none => exact Logic.wp_throw fun _ _ _ _ h => by simp at h
  | some user =>
    change changing.wp j (orThrow .numberFormat (parseInt user.lastTweet) >>= _) _ _
    cases parseInt user.lastTweet with
    | none => exact Logic.wp_throw fun _ _ _ _ h => by simp at h
    | some lastTweet => exact changing_getTweetsLoop _ _ _ _ _ (by simp [Recents])

theorem changing_startTimeline {userId toStartUser : JString}
    (hj : j = .execute (.startFollowing userId toStartUser)) :
    changing.wp j (startTimeline userId toStartUser) Anyhow w := by
  refine wp_get (changing_logs j) (fun w₁ _ _ _ => ?_) fun _ _ _ _ => changing_throw
  dsimp only
  refine Logic.wp_andThen (changing.wp_mono (changing_since (changing_getRecentTweets toStartUser))
    fun r w₂ _ h => ?_)
  obtain ⟨h₂,hrecent⟩ := h
  rcases r with e | tweets
  · cases e <;> first | exact changing_ret | exact changing_throw
  · change changing.wp j (liftExcept (startBackfill tweets (w₁.getTimeline userId).value 0) >>= fun list =>
      putIfNotObsolete .friendsTimeline userId ⟨list,(w₁.getTimeline userId).version⟩ >>= fun _ => .ret ())
      Anyhow _
    cases hlist : startBackfill tweets (w₁.getTimeline userId).value 0 with
    | error e => exact changing_throw
    | ok list =>
      refine wp_putIfNotObsolete (changing_logs j) (fun w₃ _ hr₃ _ hv => ⟨?_,changing_ret⟩)
        (fun _ _ _ _ _ => changing_ret) fun _ _ _ _ => changing_throw
      subst hj
      refine changing_write rfl (.backfill ((hrecent tweets rfl).mono hr₃) ?_) (by simp)
      rw [timeline_of_get (h₂.of_log.trans hr₃).grows hv]
      exact hlist

theorem changing_stopTimeline {userId toStopUser : JString}
    (hj : j = .execute (.stopFollowing userId toStopUser)) :
    changing.wp j (stopTimeline userId toStopUser) Anyhow w := by
  refine wp_get (changing_logs j) (fun w₁ _ _ _ => ?_) fun _ _ _ _ => changing_throw
  cases hget : (w₁.store .friendsTimeline).get userId with
  | none => exact changing_ret
  | some x =>
    change changing.wp j (liftExcept (stopFilter toStopUser x.value) >>= _) Anyhow _
    cases hlist : stopFilter toStopUser x.value with
    | error e => exact changing_throw
    | ok list =>
      refine wp_of_bind_pure (wp_put (changing_logs j) (fun w₂ _ hr₂ _ hv => ⟨?_,changing_ret⟩)
        (fun _ _ _ _ _ => changing_throw) fun _ _ _ _ => changing_throw)
      subst hj
      refine changing_write rfl (.filter ?_) (by simp)
      rw [World.timeline,value_of_get hget hr₂.of_log.grows hv]
      exact hlist

theorem changing_attempts {p : Client α} {again : Exn → Bool} {n : ℕ}
    (hp : ∀ w', w.Extends w' → changing.wp j p Anyhow w') :
    changing.wp j (p.retry again n) Anyhow w := by
  refine changing.wp_retry (fun _ w' => w.Extends w') (fun _ _ _ => trivial)
    (fun _ _ _ hr h => h.trans hr) (fun n w₁ h₁ => ?_) (World.Extends.refl w)
  refine changing.wp_mono (changing_since (hp w₁ h₁)) fun r w₂ _ h => ?_
  cases r with
  | ok a => trivial
  | error e =>
    change if again e then w.Extends w₂ else True
    split
    · exact h₁.trans h.1
    · trivial

/-- A `TweetCommand` that returns leaves a tweet under its id, be it its own or not. -/
theorem changing_executeTweet {userId tweetId : JString} {tweetMap : TweetMap}
    (hc : j.Carries w.history userId tweetId tweetMap) :
    changing.wp j (Command.tweet userId tweetId tweetMap).execute
      (fun r w' => ∀ a, r = .ok a → w'.store .tweets tweetId ≠ []) w := by
  refine Logic.wp_bind (changing.wp_mono (changing.wp_stable (changing.wp_retry
    (Q:=fun r w' => ∀ a, r = .ok a → w'.store .tweets tweetId ≠ [])
    (fun n w' => w.Extends w' ∧ (n < 3 → w'.store .tweets tweetId ≠ []))
    (fun w' _ h a _ => h.2 (by omega)) (fun _ _ _ hr h => ⟨h.1.trans hr,fun hn => hr.stored (h.2 hn)⟩)
    (fun n w₁ h₁ => ?_) ⟨World.Extends.refl w,by simp⟩)) fun r w₁ hi h => ?_)
  · refine changing.wp_mono (changing_since (changing_tweetCommand (hc.mono h₁.1.grows.history)))
      fun r w₂ _ h => ?_
    cases r with
    | ok a => exact fun _ _ => h.2 (Or.inl ⟨a,rfl⟩)
    | error e =>
      dsimp only
      by_cases he : e = .obsoleteVersion
      · subst he
        simp only [decide_true,if_true]
        exact ⟨h₁.1.trans h.1,fun _ => h.2 (Or.inr rfl)⟩
      · simp [he]
  · cases r with
    | ok a => exact Logic.wp_ret fun w₂ hi₂ hr₂ _ _ => h w₂ hi₂ hr₂ a rfl
    | error e => exact Logic.wp_throw fun _ _ _ _ h => by simp at h

theorem changing_execute (c : Command) : changing.wp (.execute c) c.execute Anyhow w := by
  cases c with
  | tweet userId tweetId tweetMap =>
    exact changing.wp_mono (changing_executeTweet (Or.inl rfl)) fun _ _ _ _ => trivial
  | startFollowing userId toStartUser =>
    refine Logic.wp_map (changing_attempts fun w₁ _ => ?_)
    refine changing_then (changing_anyhow (changing_startUpdate rfl _ _ _) (Q:=fun _ _ => True)
      fun _ _ => trivial) fun _ w₂ _ _ => ?_
    exact changing_then (changing_anyhow (changing_startUpdate rfl _ _ _) (Q:=fun _ _ => True)
      fun _ _ => trivial) fun _ w₃ _ _ => changing_startTimeline rfl
  | stopFollowing userId toStopUser =>
    refine Logic.wp_map (changing_attempts fun w₁ _ => ?_)
    refine changing_then (changing_anyhow (changing_stopUpdate rfl _ _ _) (Q:=fun _ _ => True)
      fun _ _ => trivial) fun _ w₂ _ _ => ?_
    exact changing_then (changing_anyhow (changing_stopUpdate rfl _ _ _) (Q:=fun _ _ => True)
      fun _ _ => trivial) fun _ w₃ _ _ => changing_stopTimeline rfl

theorem changing_newUser (user : User) : changing.wp (.newUser user) (newUser user) Anyhow w := by
  refine wp_now (changing_logs _) fun w₁ date _ _ _ => ?_
  refine changing_then (changing_anyhow (changing_attempts fun w₂ _ => wp_of_bind_pure ?_)
    (Q:=fun _ _ => True) fun _ _ => trivial) fun success _ _ _ => ?_
  · refine wp_putIfNotObsolete (changing_logs _) (fun w₃ _ _ _ hv => ⟨?_,changing_ret⟩)
      (fun _ _ _ _ _ => changing_ret) fun _ _ _ _ => changing_throw
    exact changing_write rfl (.register (List.length_eq_zero_iff.mp hv.symm)) (by simp)
  · cases success with
    | none => exact changing_throw
    | some success => exact changing_ret

theorem changing_tweetUpdate (userId : JString) (text id id' : Option JString) (date : ℤ) :
    changing.wp (.tweet userId text id) (tweetUpdate userId ⟨some (decimal date),text,some userId,id'⟩)
      (fun r w' => ∀ tweetId, r = .ok tweetId →
        Issued w'.history userId tweetId ⟨some (decimal date),text,some userId,id'⟩ ∧
        w'.store .tweets tweetId ≠ []) w := by
  have hthrow {e : Exn} {w : World} : changing.wp (.tweet userId text id) (.throw e : Client JString)
      (fun r w' => ∀ tweetId, r = .ok tweetId →
        Issued w'.history userId tweetId ⟨some (decimal date),text,some userId,id'⟩ ∧
        w'.store .tweets tweetId ≠ []) w := Logic.wp_throw fun _ _ _ _ h => by simp at h
  refine wp_get (changing_logs _) (fun w₁ _ _ _ => ?_) fun _ _ _ _ => hthrow
  cases hget : (w₁.store .users).get userId with
  | none => exact hthrow
  | some x =>
    change changing.wp _ (orThrow .numberFormat (parseInt x.value.lastTweet) >>= _) _ _
    cases hparse : parseInt x.value.lastTweet with
    | none => exact hthrow
    | some n =>
      refine wp_put (changing_logs _) (fun w₂ _ hr₂ _ hv => ⟨?_,?_⟩) (fun _ _ _ _ _ => hthrow)
        fun _ _ _ _ => hthrow
      · exact changing_write rfl (.count (value_of_get hget hr₂.of_log.grows hv) hparse) (by simp)
      · refine wp_storeRemotely (changing_logs _) fun w₃ success _ _ => ?_
        cases success with
        | false => exact hthrow
        | true =>
          let tweetId := tweetKey userId (wrap 32 (n+1))
          let tweetMap : TweetMap := ⟨some (decimal date),text,some userId,id'⟩
          have hissued : Issued (w₃.log (.tweet userId text id)
              (.storeRemotely (.tweet userId tweetId tweetMap)) (.ok true)).history userId tweetId tweetMap :=
            ⟨text,id,true,List.mem_cons_self⟩
          have hcarries : (Job.tweet userId text id).Carries (w₃.log (.tweet userId text id)
              (.storeRemotely (.tweet userId tweetId tweetMap)) (.ok true)).history userId tweetId tweetMap :=
            Or.inr ⟨rfl,hissued,_,date,text,id',rfl,rfl⟩
          refine Logic.wp_bind (changing.wp_mono (changing_since (changing_executeTweet hcarries))
            fun r w₄ _ h => ?_)
          cases r with
          | ok a =>
            refine Logic.wp_ret fun w₅ _ hr₅ i hi => ?_
            cases hi
            exact ⟨hissued.mono (h.1.trans hr₅).grows.history,hr₅.stored (h.2 a rfl)⟩
          | error e => exact hthrow

theorem changing_tweet (userId : JString) (text id : Option JString) :
    changing.wp (.tweet userId text id) (tweet userId text id)
      (fun r w' => ∀ t, r = .ok t → Returned w' userId text id t) w := by
  have hthrow {e : Exn} {w : World} : changing.wp (.tweet userId text id) (.throw e : Client Tweet)
      (fun r w' => ∀ t, r = .ok t → Returned w' userId text id t) w :=
    Logic.wp_throw fun _ _ _ _ h => by simp at h
  refine wp_now (changing_logs _) fun w₁ date _ _ hdate => ?_
  refine wp_get (changing_logs _) (fun w₂ _ _ _ => ?_) fun _ _ _ _ => hthrow
  cases (w₂.store .users).get userId with
  | none => exact hthrow
  | some x =>
    let tweetMap : TweetMap := ⟨some (decimal date),text,some userId,id⟩
    let Q (tweetId : JString) (w : World) : Prop :=
      Issued w.history userId tweetId tweetMap ∧ w.store .tweets tweetId ≠ []
    change changing.wp _ (applyUpdate (tweetUpdate userId tweetMap) >>= fun success =>
      orThrow .backend success >>= fun tweetId =>
        .ret (⟨date,text,some userId,some tweetId⟩ : Tweet)) _ _
    refine Logic.wp_bind (changing.wp_mono (changing.wp_stable (changing.wp_retry
      (Q:=fun r w' => ∀ tweetId, r = .ok (some tweetId) → Q tweetId w') (fun _ _ => True)
      (by rintro w' - - tweetId ⟨⟩) (fun _ _ _ _ _ => trivial) (fun n w₃ _ => ?_) trivial))
      fun r w₃ hi h => ?_)
    · refine changing.wp_mono (changing_tweetUpdate userId text id id date) fun r w₄ _ h => ?_
      cases r with
      | ok tweetId =>
        intro tweetId' heq
        cases heq
        exact h tweetId rfl
      | error e =>
        dsimp only
        split <;> simp
    · rcases r with e | success
      · exact hthrow
      · cases success with
        | none => exact hthrow
        | some tweetId =>
          refine Logic.wp_ret fun w₄ hi₄ hr₄ t ht => ?_
          cases ht
          obtain ⟨hissued,hstored⟩ := h w₄ hi₄ hr₄ tweetId rfl
          exact ⟨tweetId,date,rfl,hdate,hissued,hstored⟩

theorem changing_body (j : Job) (w : World) (hpre : changing.pre j w) :
    changing.wp j j.body (changing.post j) w := by
  have hnot {p : Client (Option Tweet)} {w : World} (hj : j.isTweet = false)
      (hp : changing.wp j p Anyhow w) : changing.wp j p (changing.post j) w := by
    refine changing.wp_mono hp fun r w' _ _ => ?_
    rintro userId text id t rfl
    simp [Job.isTweet] at hj
  cases j with
  | newUser user =>
    exact hnot rfl (changing_then (changing_anyhow (changing_newUser user) (Q:=fun _ _ => True)
      fun _ _ => trivial) fun _ _ _ _ => changing_ret)
  | tweet userId text id =>
    change changing.wp _ (some <$> tweet userId text id) _ w
    rw [map_eq_pure_bind]
    refine Logic.wp_bind (changing.wp_mono (changing.wp_stable (changing_tweet userId text id))
      fun r w₁ _ h => ?_)
    cases r with
    | ok t =>
      refine Logic.wp_ret fun w₂ hi₂ hr₂ => ?_
      rintro _ _ _ t' ⟨⟩ ⟨⟩
      exact h w₂ hi₂ hr₂ t rfl
    | error e =>
      refine Logic.wp_throw fun w₂ _ _ => ?_
      rintro _ _ _ t' _ ⟨⟩
  | execute c =>
    exact hnot rfl (changing_then (changing_anyhow (changing_execute c) (Q:=fun _ _ => True)
      fun _ _ => trivial) fun _ _ _ _ => changing_ret)
  | updateTimeline tweetId tweetMap follower =>
    have hfan := hpre tweetId tweetMap follower rfl
    exact hnot rfl (changing_then (changing_anyhow (changing_updateTimeline hfan.stored
      (Or.inl ⟨rfl,hfan⟩)) (Q:=fun _ _ => True) fun _ _ => trivial) fun _ _ _ _ => changing_ret)

end Walk

/-- Anything may arrive but the task of a fan-out. -/
def Arrives (e : Event) (_ : State) : Prop :=
  match e with
  | .start (.updateTimeline _ _ _) => False
  | _ => True

instance (e : Event) (s : State) : Decidable (Arrives e s) := by
  unfold Arrives
  induction e using Event.casesOn with
  | start job => induction job using Job.casesOn <;> infer_instance
  | thread i choice => infer_instance

def State.initial (store : (n : StoreName) → Store JString (Val n)) : State := ⟨⟨store,[]⟩,[]⟩

theorem Arrives.admits {e : Event} {s : State} (h : Arrives e s) : changing.Admits e s := by
  cases e with
  | start job =>
    refine ⟨?_,fun _ _ => trivial⟩
    rintro tweetId tweetMap follower rfl
    exact h.elim
  | thread i choice => exact fun _ _ _ _ => trivial

theorem changing_step {e : Event} {s s' : State} (hs : changing.Good s) (hc : Arrives e s)
    (h : machine.step e s = some s') : changing.Good s' :=
  changing.good_step (fun j w _ hpre => changing_body j w hpre) hs hc.admits h

theorem changing_good {store : (n : StoreName) → Store JString (Val n)} {es : List Event} {s : State}
    (h : Runs.Reaches machine.step Arrives (State.initial store) es s) : changing.Good s :=
  h.invariant ⟨trivial,by simp [State.initial],by simp [State.initial]⟩
    fun _ _ _ hs hc hstep => changing_step hs hc hstep

theorem extends_of_step {e : Event} {s s' : State} (hs : changing.Good s)
    (h : machine.step e s = some s') : s.world.Extends s'.world := by
  cases e with
  | start job =>
    obtain rfl := Option.some.inj h
    exact World.Extends.refl _
  | thread i choice =>
    obtain ⟨job,op,k,r,w,new,ht,hexec,rfl⟩ := Machine.thread_step h
    have hadmits : changing.Admits (.thread i choice) s := fun _ _ _ _ => trivial
    exact (hs.guar_call hadmits ht hexec).1

theorem change_of_exec {s : State} (hs : changing.Good s) {i : ℕ} {choice : Choice} {job : Job} {op : Op}
    {k : Except Exn op.Res → Client (Option Tweet)} (ht : s.threads[i]? = some (job,.call op k))
    {r : Except Exn op.Res} {w : World} {new : Option Job} (hexec : exec job op choice s.world = some (r,w,new)) :
    op.written r = none ∧ w = s.world.log job op r ∨
      ∃ n key x, op.written r = some ⟨n,key,x⟩ ∧ Change s.world job n key x.value ∧
        w = s.world.logWrite job op r n key x.value := by
  refine (exec_cases hexec).2.imp_right ?_
  rintro ⟨n,key,x,hwritten,_,rfl⟩
  have hadmits : changing.Admits (.thread i choice) s := fun _ _ _ _ => trivial
  have hguar := hs.guar_call hadmits ht hexec
  exact ⟨n,key,x,hwritten,hguar.2 op r n key x rfl hwritten,rfl⟩

theorem change_of_thread {s s' : State} (hs : changing.Good s) {i : ℕ} {choice : Choice}
    (h : machine.step (.thread i choice) s = some s') :
    ∃ job op k r, s.threads[i]? = some (job,.call op k) ∧
      (op.written r = none ∧ s'.world = s.world.log job op r ∨
        ∃ n key x, op.written r = some ⟨n,key,x⟩ ∧ Change s.world job n key x.value ∧
          s'.world = s.world.logWrite job op r n key x.value) := by
  obtain ⟨job,op,k,r,w,new,ht,hexec,rfl⟩ := Machine.thread_step h
  exact ⟨job,op,k,r,ht,change_of_exec hs ht hexec⟩

theorem tweet_of_change {w w' : World} {job : Job} {op : Op} {r : Except Exn op.Res}
    (h : op.written r = none ∧ w' = w.log job op r ∨ ∃ n key x, op.written r = some ⟨n,key,x⟩ ∧
      Change w job n key x.value ∧ w' = w.logWrite job op r n key x.value) {tweetId : JString} {tweetMap : TweetMap}
    (hvalue : (w'.store .tweets).value tweetId = some tweetMap) :
    (w.store .tweets).value tweetId = some tweetMap ∨ ∃ userId, job.Carries w.history userId tweetId tweetMap := by
  rcases h with ⟨_,rfl⟩ | ⟨n,key,x,_,hchange,rfl⟩
  · exact Or.inl hvalue
  · by_cases hn : StoreName.tweets = n
    · subst hn
      by_cases hkey : tweetId = key
      · subst hkey
        obtain rfl : x.value = tweetMap := by simpa [World.logWrite,Store.value] using hvalue
        cases hchange with
        | tweet hcarries _ => exact Or.inr ⟨_,hcarries⟩
      · exact Or.inl (by simpa [World.logWrite,Store.value,hkey] using hvalue)
    · exact Or.inl (by simpa [World.logWrite,hn] using hvalue)

end TweetService
end Bigbird
