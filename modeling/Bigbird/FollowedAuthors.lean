import Bigbird.SerialTweets

/-! Whose tweets a timeline shows after operations that were executed one at a time. -/
namespace Bigbird
namespace TweetService

open JavaText VersionedStore Programs

section Follow

variable {Q' : Except Exn (Option Tweet) → World → Prop} {j : Job} {w : World} {author : JString}

/-- A tweet of the author as `getTweets` returns it, with the number that it looked for. -/
def Posted (w : World) (author : JString) (t : Tweet) : Prop :=
  ∃ (n : ℕ) (tweetMap : TweetMap), t.id = some (tweetKey author n) ∧
    (w.store .tweets).value (tweetKey author n) = some tweetMap ∧ parseLong tweetMap.date = some t.date

theorem alone_getTweetsLoop {w₀ : World} {lastTweet : ℤ} (hlast : lastTweet < 2^31) (limit : ℤ) (rounds : ℕ)
    {i : ℤ} (hi : 0 ≤ i ∧ i ≤ lastTweet) {tweets : List Tweet} (htweets : ∀ t ∈ tweets, Posted w₀ author t)
    (hw : w.store = w₀.store) :
    (alone Q').wp j (getTweetsLoop author lastTweet limit rounds i tweets) (fun r w' => w'.store = w₀.store ∧
      ∀ list, r = .ok list → ∀ t ∈ list, Posted w₀ author t) w := by
  have hret {w : World} {tweets : List Tweet} (hw : w.store = w₀.store)
      (htweets : ∀ t ∈ tweets, Posted w₀ author t) : (alone Q').wp j (.ret tweets) (fun r w' =>
        w'.store = w₀.store ∧ ∀ list, r = .ok list → ∀ t ∈ list, Posted w₀ author t) w := by
    refine alone_ret ⟨hw,?_⟩
    rintro _ ⟨⟩
    exact htweets
  induction rounds generalizing i tweets w with
  | zero => exact hret hw htweets
  | succ rounds ih =>
    unfold getTweetsLoop
    split
    · have hidx : wrap 32 (lastTweet - i) = ((lastTweet - i).toNat : ℤ) := by
        rw [@wrap_eq_self 31 _ ⟨by omega,by omega⟩]
        omega
      dsimp only
      rw [hidx]
      split
      · exact hret hw htweets
      · rename_i hne
        have hnext : wrap 32 (i+1) = i+1 := @wrap_eq_self 31 _ ⟨by omega,by omega⟩
        have hi' : 0 ≤ i+1 ∧ i+1 ≤ lastTweet := by omega
        rw [hnext]
        refine alone_getValue ?_
        cases hvalue : (w.store .tweets).value (tweetKey author (lastTweet - i).toNat) with
        | none => exact ih hi' htweets hw
        | some tweetMap =>
          change (alone Q').wp j ((orThrow .numberFormat (parseLong tweetMap.date) >>= fun date =>
            (.ret (⟨date,tweetMap.text,tweetMap.user,some _⟩ : Tweet) : Client Tweet)) >>= _) _ _
          cases hdate : parseLong tweetMap.date with
          | none => exact alone_throw ⟨hw,by simp⟩
          | some date =>
            refine ih hi' (fun t ht => ?_) hw
            rcases List.mem_append.mp ht with ht | ht
            · exact htweets t ht
            · obtain rfl := List.mem_singleton.mp ht
              exact ⟨_,tweetMap,rfl,hw ▸ hvalue,hdate⟩
    · exact hret hw htweets

theorem alone_getRecentTweets {w₀ : World} (hcounting : w₀.Counting) (hw : w.store = w₀.store) :
    (alone Q').wp j (getRecentTweets author) (fun r w' => w'.store = w₀.store ∧
      ∀ list, r = .ok list → ∀ t ∈ list, Posted w₀ author t) w := by
  refine alone_getValue ?_
  cases hvalue : (w.store .users).value author with
  | none => exact alone_throw ⟨hw,by simp⟩
  | some user =>
    change (alone Q').wp j (orThrow .numberFormat (parseInt user.lastTweet) >>= _) _ _
    cases hparse : parseInt user.lastTweet with
    | none => exact alone_throw ⟨hw,by simp⟩
    | some lastTweet =>
      have hcounter : w₀.counter author = some user.lastTweet := by rw [World.counter,← hw,hvalue]; rfl
      obtain ⟨n,hn,hlt⟩ := hcounting author _ hcounter
      rw [hn] at hparse
      have hlast : lastTweet = n := eq_of_parse_decimal hparse
      exact alone_getTweetsLoop (by omega) _ _ ⟨le_rfl,by omega⟩ (by simp) hw

theorem Posted.entryBy (hsigned : w.Signed) {t : Tweet} (ht : Posted w author t) : EntryBy w author t.entry := by
  obtain ⟨n,tweetMap,hid,hvalue,hdate⟩ := ht
  obtain ⟨author',⟨n',hn'⟩,hfilled,_⟩ := hsigned _ _ hvalue
  obtain ⟨rfl,_⟩ := tweetKey_injective hn'
  refine ⟨_,tweetMap,hvalue,hfilled.user,?_⟩
  obtain ⟨_,date,text,id,_,rfl⟩ := hfilled
  have hdate' : t.date = date := eq_of_parse_decimal hdate
  rw [Tweet.entry,hid,hdate']
  rfl

theorem stopFilter_ok (toStopUser : JString) {timeline : List JString}
    (h : ∀ e ∈ timeline, ∃ id rest, split ':' e = id::rest) :
    ∃ list, stopFilter toStopUser timeline = .ok list ∧
      ∀ e ∈ list, e ∈ timeline ∧ ∀ id rest, split ':' e = id::rest → ¬ (toStopUser ++ ['-']) <+: id := by
  induction timeline with
  | nil => exact ⟨[],rfl,by simp⟩
  | cons entry timeline ih =>
    obtain ⟨list,hlist,hrest⟩ := ih fun e he => h e (List.mem_cons_of_mem _ he)
    obtain ⟨id,rest,hsplit⟩ := h entry List.mem_cons_self
    have hrest' : ∀ e ∈ list, e ∈ entry::timeline ∧
        ∀ id rest, split ':' e = id::rest → ¬ (toStopUser ++ ['-']) <+: id :=
      fun e he => ⟨List.mem_cons_of_mem _ (hrest e he).1,(hrest e he).2⟩
    simp only [stopFilter,hsplit,hlist]
    by_cases hprefix : (toStopUser ++ ['-']) <+: id
    · exact ⟨list,by rw [if_pos hprefix],hrest'⟩
    · refine ⟨entry::list,by rw [if_neg hprefix],fun e he => ?_⟩
      rcases List.mem_cons.mp he with rfl | he
      · refine ⟨List.mem_cons_self,fun id' rest' h' => ?_⟩
        rw [hsplit] at h'
        cases h'
        exact hprefix
      · exact hrest' e he

theorem EntryBy.split (hsigned : w.Signed) (hcolon : ':' ∉ author) {e : JString} (he : EntryBy w author e) :
    ∃ (n : ℕ) (rest : List JString), split ':' e = tweetKey author n::rest := by
  obtain ⟨tweetId,tweetMap,hvalue,huser,rfl⟩ := he
  obtain ⟨author',⟨n,rfl⟩,hfilled,_⟩ := hsigned _ _ hvalue
  obtain rfl : author' = author := Option.some.inj (hfilled.user.symm.trans huser)
  obtain ⟨_,date,text,id,_,rfl⟩ := hfilled
  have hnumber : ':' ∉ decimal n := not_mem_decimal (by decide) (by decide) n
  have hid : ':' ∉ tweetKey author' n := by simp [tweetKey,hcolon,hnumber]
  have hdate : ':' ∉ decimal date := not_mem_decimal (by decide) (by decide) date
  exact ⟨n,[decimal date],split_append_cons hid hdate (decimal_ne_nil date)⟩

theorem EntryBy.congr {w' : World} (h : w'.store .tweets = w.store .tweets) {e : JString} :
    EntryBy w' author e ↔ EntryBy w author e := by
  unfold EntryBy
  rw [h]

/-- What a follow or an unfollow leaves: the edges, and the entries of the other user's
tweets in the timeline of the first one. -/
structure Executed (c : FollowChange) (w w' : World) : Prop extends Followed c w w' where
  others : ∀ user, user ≠ c.pair.1 → w'.timeline user = w.timeline user
  entries : ∀ e ∈ w'.timeline c.pair.1,
    if c.start then e ∈ w.timeline c.pair.1 ∨ EntryBy w c.pair.2 e
    else e ∈ w.timeline c.pair.1 ∧ ¬ EntryBy w c.pair.2 e

theorem Executed.trans {c : FollowChange} {w w' w'' : World} (h : Executed c w w') (h' : Executed c w' w'') :
    Executed c w w'' := by
  refine ⟨h.toFollowed.trans h'.toFollowed,fun user hu => (h'.others user hu).trans (h.others user hu),
    fun e he => ?_⟩
  have he' := h'.entries e he
  split at he'
  · rename_i hstart
    rcases he' with he' | he'
    · exact h.entries e he'
    · rw [if_pos hstart]
      exact Or.inr ((EntryBy.congr h.tweets).mp he')
  · exact h.entries e he'.1

/-- What the command needs to find: numbered tweets, and entries that it can take apart. -/
structure Prepared (c : FollowChange) (w : World) : Prop where
  counting : w.Counting
  signed : w.Signed
  known : w.Knows c.pair
  named : ':' ∉ c.pair.2
  entries : ∀ e ∈ w.timeline c.pair.1, ∃ author, ':' ∉ author ∧ EntryBy w author e

theorem World.Signed.congr {w' : World} (hsigned : w.Signed) (hcounter : ∀ user, w'.counter user = w.counter user)
    (htweets : w'.store .tweets = w.store .tweets) : w'.Signed := by
  intro tweetId tweetMap hvalue
  rw [htweets] at hvalue
  obtain ⟨author,hnumbered,hfilled,hregistered⟩ := hsigned tweetId tweetMap hvalue
  refine ⟨author,hnumbered,hfilled,?_⟩
  rw [registered_iff,hcounter,← registered_iff]
  exact hregistered

theorem World.Counting.congr {w' : World} (hcounting : w.Counting)
    (hcounter : ∀ user, w'.counter user = w.counter user) : w'.Counting := by
  intro user c hc
  rw [hcounter] at hc
  exact hcounting user c hc

theorem Executed.prepared {c : FollowChange} {w' : World} (hr : Prepared c w) (h : Executed c w w') : Prepared c w' := by
  refine ⟨hr.counting.congr h.counter,hr.signed.congr h.counter h.tweets,
    (World.Knows.congr h.counter).mpr hr.known,hr.named,fun e he => ?_⟩
  have he' := h.entries e he
  have hold (he : e ∈ w.timeline c.pair.1) : ∃ author, ':' ∉ author ∧ EntryBy w' author e := by
    obtain ⟨author,hcolon,hentry⟩ := hr.entries e he
    exact ⟨author,hcolon,(EntryBy.congr h.tweets).mpr hentry⟩
  split at he'
  · rcases he' with he' | he'
    · exact hold he'
    · exact ⟨c.pair.2,hr.named,(EntryBy.congr h.tweets).mpr he'⟩
  · exact hold he'.1

theorem timeline_congr {w' : World} (h : w'.store .friendsTimeline = w.store .friendsTimeline) (user : JString) :
    w'.timeline user = w.timeline user := by
  rw [World.timeline,World.timeline,h]

theorem executed_of_followed {c : FollowChange} {w₁ w' : World} (h : Followed c w w₁)
    (htimelines : w₁.store .friendsTimeline = w.store .friendsTimeline) (hw : w'.store = w₁.store)
    (hentries : ∀ e ∈ w.timeline c.pair.1,
      if c.start then e ∈ w.timeline c.pair.1 ∨ EntryBy w c.pair.2 e
      else e ∈ w.timeline c.pair.1 ∧ ¬ EntryBy w c.pair.2 e) : Executed c w w' := by
  have htimeline (user : JString) : w'.timeline user = w.timeline user :=
    timeline_congr (hw ▸ htimelines) user
  refine ⟨⟨fun user => ?_,?_,fun e q hq hk => ?_⟩,fun user _ => htimeline user,fun e he => ?_⟩
  · rw [← h.counter user,World.counter,World.counter,hw]
  · rw [hw,h.tweets]
  · rw [← h.follows e q hq hk,World.follows,World.follows,World.names,World.names,hw]
  · exact hentries e (htimeline _ ▸ he)

theorem executed_logWrite {c : FollowChange} {w₁ w₂ : World} (h : Followed c w w₁)
    (htimelines : w₁.store .friendsTimeline = w.store .friendsTimeline) (hw : w₂.store = w₁.store)
    {list : List JString} (hentries : ∀ e ∈ list,
      if c.start then e ∈ w.timeline c.pair.1 ∨ EntryBy w c.pair.2 e
      else e ∈ w.timeline c.pair.1 ∧ ¬ EntryBy w c.pair.2 e) (op : Op) (r : Except Exn op.Res) :
    Executed c w (w₂.logWrite j op r .friendsTimeline c.pair.1 list) := by
  refine ⟨⟨fun user => ?_,?_,fun e q hq hk => ?_⟩,fun user hu => ?_,fun e he => ?_⟩
  · rw [← h.counter user,World.counter,World.counter,← hw]
    simp [World.logWrite]
  · rw [← h.tweets,← hw]
    simp [World.logWrite]
  · rw [follows_logTimeline,← h.follows e q hq hk,World.follows,World.follows,World.names,World.names,hw]
  · rw [timeline_write_ne _ _ _ _ hu]
    exact timeline_congr (hw ▸ htimelines) user
  · rw [timeline_write_self] at he
    exact hentries e he

theorem alone_startTimeline {userId toStartUser : JString} {w₁ : World}
    (hr : Prepared ⟨true,(userId,toStartUser)⟩ w) (h : Followed ⟨true,(userId,toStartUser)⟩ w w₁)
    (htimelines : w₁.store .friendsTimeline = w.store .friendsTimeline) :
    (alone Q').wp j (startTimeline userId toStartUser)
      (fun _ => Executed ⟨true,(userId,toStartUser)⟩ w) w₁ := by
  have hsame {w' : World} (hw : w'.store = w₁.store) : Executed ⟨true,(userId,toStartUser)⟩ w w' :=
    executed_of_followed h htimelines hw fun e he => Or.inl he
  refine alone_get ?_
  dsimp only
  refine Logic.wp_andThen ((alone Q').wp_mono (alone_getRecentTweets
    (show w₁.Counting from hr.counting.congr h.counter) rfl) fun r w₂ _ h₂ => ?_)
  obtain ⟨hw₂,hposted⟩ := h₂
  rcases r with e | tweets
  · cases e <;> first | exact alone_ret (hsame hw₂) | exact alone_throw (hsame hw₂)
  · change (alone Q').wp j (liftExcept (startBackfill tweets (w₁.getTimeline userId).value 0) >>= fun list =>
      putIfNotObsolete .friendsTimeline userId ⟨list,(w₁.getTimeline userId).version⟩ >>= fun _ => .ret ()) _ _
    cases hlist : startBackfill tweets (w₁.getTimeline userId).value 0 with
    | error e => exact alone_throw (hsame hw₂)
    | ok list =>
      refine alone_putIfNotObsolete ?_ (alone_ret ?_)
      · rw [hw₂]
        exact getTimeline_version w₁ userId
      · have htimeline : (w₁.getTimeline userId).value = w.timeline userId :=
          (getTimeline_value w₁ userId).trans (timeline_congr htimelines userId)
        rw [htimeline] at hlist
        refine executed_logWrite h htimelines hw₂ ?_ _ _
        refine startBackfill_keeps (P:=fun l => ∀ e ∈ l, e ∈ w.timeline userId ∨ EntryBy w toStartUser e)
          (fun t ht l l' hl _ hperm e he => ?_) (Nat.zero_le _) (Nat.zero_le _) (fun e he => Or.inl he) hlist
        rcases List.mem_cons.mp (hperm.mem_iff.mp he) with rfl | he
        · exact Or.inr ((EntryBy.congr h.tweets).mp
            ((hposted tweets rfl t ht).entryBy (hr.signed.congr h.counter h.tweets)))
        · exact hl e he

theorem alone_stopTimeline {userId toStopUser : JString} {w₁ : World}
    (hr : Prepared ⟨false,(userId,toStopUser)⟩ w) (h : Followed ⟨false,(userId,toStopUser)⟩ w w₁)
    (htimelines : w₁.store .friendsTimeline = w.store .friendsTimeline) :
    (alone Q').wp j (stopTimeline userId toStopUser)
      (fun _ => Executed ⟨false,(userId,toStopUser)⟩ w) w₁ := by
  have htimeline : w₁.timeline userId = w.timeline userId := timeline_congr htimelines userId
  refine alone_get ?_
  cases hget : (w₁.store .friendsTimeline).get userId with
  | none =>
    have hnil : w.timeline userId = [] := by
      rw [← htimeline,World.timeline,← Store.map_get,hget]
      rfl
    exact alone_ret (executed_of_followed h htimelines rfl fun e he => by simp [hnil] at he)
  | some x =>
    obtain ⟨vs,hvs,hv⟩ := Store.get_eq_some.mp hget
    have hvalue : x.value = w.timeline userId := by
      rw [← htimeline,World.timeline,← Store.map_get,hget]
      rfl
    have hsplits : ∀ e ∈ x.value, ∃ id rest, split ':' e = id::rest := fun e he => by
      obtain ⟨author,hcolon,hentry⟩ := hr.entries e (hvalue ▸ he)
      obtain ⟨n,rest,hsplit⟩ := hentry.split hr.signed hcolon
      exact ⟨_,rest,hsplit⟩
    obtain ⟨list,hlist,hkept⟩ := stopFilter_ok toStopUser hsplits
    change (alone Q').wp j (liftExcept (stopFilter toStopUser x.value) >>= fun list =>
      put .friendsTimeline userId ⟨list,x.version⟩) _ _
    rw [hlist]
    refine wp_of_bind_pure (alone_put (hv.trans (congrArg List.length hvs).symm) (alone_ret ?_))
    refine executed_logWrite h htimelines ?_ (fun e he => ⟨hvalue ▸ (hkept e he).1,fun hentry => ?_⟩) _ _
    · rfl
    · obtain ⟨n,rest,hsplit⟩ := hentry.split hr.signed hr.named
      exact (hkept e he).2 _ rest hsplit ⟨decimal n,by simp [tweetKey]⟩

theorem alone_execute (c : FollowChange) (hc : Proper c.pair.1 ∧ Proper c.pair.2) (hr : Prepared c w) :
    (alone Q').wp c.job c.job.body (fun _ w' => Prepared c w' ∧ Executed c w w') w := by
  obtain ⟨start,userId,other⟩ := c
  cases start with
  | true =>
    refine alone_command (R:=Executed ⟨true,(userId,other)⟩) (fun _ _ _ => Executed.trans) (fun w hr => ?_) hr
    refine alone_startFollowing hc.1 hc.2 fun w' h htimelines => ?_
    exact (alone Q').wp_mono (alone_startTimeline hr h htimelines) fun _ _ _ h => ⟨h.prepared hr,h⟩
  | false =>
    refine alone_command (R:=Executed ⟨false,(userId,other)⟩) (fun _ _ _ => Executed.trans) (fun w hr => ?_) hr
    refine alone_stopFollowing (fun w' h htimelines => ?_) fun _ hk _ => absurd hr.known hk
    exact (alone Q').wp_mono (alone_stopTimeline hr h htimelines) fun _ _ _ h => ⟨h.prepared hr,h⟩

end Follow

/-- Every entry in the timeline of a registered user is by himself or by someone he follows. -/
structure Authored (w : World) : Prop where
  counting : w.Counting
  signed : w.Signed
  entries : ∀ v, w.store .users v ≠ [] → ∀ e ∈ w.timeline v,
    ∃ author, EntryBy w author e ∧ (author = v ∨ w.follows .following (v,author))

theorem EntryBy.registered {w : World} (hsigned : w.Signed) {author e : JString} (he : EntryBy w author e) :
    w.store .users author ≠ [] := by
  obtain ⟨tweetId,tweetMap,hvalue,huser,_⟩ := he
  obtain ⟨author',hsigned'⟩ := hsigned tweetId tweetMap hvalue
  obtain rfl : author' = author := Option.some.inj (hsigned'.filled.user.symm.trans huser)
  exact hsigned'.registered

section Serial

variable {store mid : Stores} {js : List Job}

theorem Mirrored.named (hfresh : FreshUsers store) (hm : Mirrored store js mid) {user : JString}
    (h : mid .users user ≠ []) : Named user := (hfresh user ((hm.registered user).mp h)).1

/-- Followers get the tweet, and the author is among the users they follow. -/
theorem Authored.tweet (hm : Mirrored store js mid) (hi : Authored ⟨mid,[]⟩) {userId : JString} {s : State}
    (ht : Tweeting userId ⟨mid,[]⟩ s) :
    Authored ⟨s.world.store,[]⟩ := by
  have hregistered (user : JString) : s.world.store .users user ≠ [] ↔ mid .users user ≠ [] :=
    ht.users.registered user
  refine ⟨ht.counting,ht.signed.congr (fun _ => rfl) rfl,fun v hv e he => ?_⟩
  rcases ht.entries v e he with hold | ⟨hentry,htarget⟩
  · obtain ⟨author,hentry,hauthor⟩ := hi.entries v ((hregistered v).mp hv) e hold
    exact ⟨author,hentry.mono ht.extension,hauthor.imp_right (ht.users.follows .following (v,author)).mpr⟩
  · refine ⟨userId,hentry,htarget.imp Eq.symm fun hfollower => ?_⟩
    have hk : (World.mk mid []).Knows (v,userId) := fun e => by
      cases e with
      | following => exact (hregistered v).mp hv
      | followers => exact (hregistered userId).mp (hentry.registered ht.signed)
    have hfollowing := (hm.edges .following _ hk).mpr ((hm.edges .followers _ hk).mp hfollower)
    exact (ht.users.follows .following (v,userId)).mpr hfollowing

theorem Authored.prepared (hfresh : FreshUsers store) (hm : Mirrored store js mid) (hi : Authored ⟨mid,[]⟩)
    {c : FollowChange} (hk : (World.mk mid []).Knows c.pair) : Prepared c ⟨mid,[]⟩ := by
  refine ⟨hi.counting,hi.signed,hk,(hm.named hfresh (hk .followers)).2,fun e he => ?_⟩
  obtain ⟨author,hentry,_⟩ := hi.entries _ (hk .following) e he
  exact ⟨author,(hm.named hfresh (hentry.registered hi.signed)).2,hentry⟩

/-- A follow adds the edge with the entries, and an unfollow removes them with the edge. -/
theorem Authored.execute (hfresh : FreshUsers store) (hm : Mirrored store js mid) (hi : Authored ⟨mid,[]⟩)
    {c : FollowChange} {w : World} (h : Executed c ⟨mid,[]⟩ w) : Authored ⟨w.store,[]⟩ := by
  have hregistered (user : JString) : w.store .users user ≠ [] ↔ mid .users user ≠ [] := by
    rw [registered_iff w,h.counter user,← registered_iff]
  refine ⟨hi.counting.congr h.counter,hi.signed.congr h.counter h.tweets,fun v hv e he => ?_⟩
  have hv' := (hregistered v).mp hv
  have hfollows {author : JString} (hentry : EntryBy ⟨mid,[]⟩ author e) : w.follows .following (v,author) ↔
      if (v,author) = c.pair then c.start = true else (World.mk mid []).follows .following (v,author) := by
    have hauthor := hentry.registered hi.signed
    refine h.follows .following (v,author) (hm.named hfresh hauthor).1.1 fun e => ?_
    cases e with
    | following => exact hv'
    | followers => exact hauthor
  have hold (he : e ∈ (World.mk mid []).timeline v) (hpair : c.start = true ∨ ¬ EntryBy ⟨mid,[]⟩ c.pair.2 e) :
      ∃ author, EntryBy ⟨w.store,[]⟩ author e ∧ (author = v ∨ w.follows .following (v,author)) := by
    obtain ⟨author,hentry,hauthor⟩ := hi.entries v hv' e he
    refine ⟨author,(EntryBy.congr h.tweets).mpr hentry,hauthor.imp_right fun hf => (hfollows hentry).mpr ?_⟩
    split
    · rename_i heq
      refine hpair.resolve_right fun hnot => hnot ?_
      rw [← heq]
      exact hentry
    · exact hf
  by_cases hvc : v = c.pair.1
  · subst hvc
    have he' := h.entries e he
    split at he'
    · rename_i hstart
      rcases he' with he' | he'
      · exact hold he' (Or.inl hstart)
      · refine ⟨c.pair.2,(EntryBy.congr h.tweets).mpr he',Or.inr ((hfollows he').mpr ?_)⟩
        rw [if_pos rfl]
        exact hstart
    · exact hold he'.1 (Or.inr he'.2)
  · obtain ⟨author,hentry,hauthor⟩ := hi.entries v hv' e (h.others v hvc ▸ he)
    refine ⟨author,(EntryBy.congr h.tweets).mpr hentry,hauthor.imp_right fun hf => (hfollows hentry).mpr ?_⟩
    rw [if_neg fun heq => hvc (congrArg Prod.fst heq)]
    exact hf

structure Fresh (store : Stores) : Prop where
  users : FreshUsers store
  tweets : ∀ id, store .tweets id = []
  timelines : ∀ user, store .friendsTimeline user = []

theorem authored_start (hfresh : Fresh store) : Authored ⟨store,[]⟩ := by
  refine ⟨fun user c hc => ?_,fun tweetId tweetMap h => ?_,fun v _ e he => ?_⟩
  · have hregistered : (World.mk store []).store .users user ≠ [] :=
      (registered_iff ⟨store,[]⟩ user).mpr (by simp [hc])
    obtain ⟨_,u,created,_,hmap⟩ := hfresh.users user hregistered
    have hcounter : (World.mk store []).counter user = some (some (decimal 0)) := by
      rw [World.counter,show ((World.mk store []).store .users).value user = some (newUserMap u created) from
        Store.value_eq_some.mpr ⟨[],hmap⟩]
      rfl
    exact ⟨0,(Option.some.inj (hcounter.symm.trans hc)).symm,by decide⟩
  · simp [Store.value,hfresh.tweets] at h
  · simp [World.timeline,Store.value,hfresh.timelines] at he

/-- A step of an operation that raises no counter to 2^31-1. -/
def RespondsBelow (e : Event) (s : State) : Prop := ClosedCalls Responds e s ∧ Calls NoOverflow e s

instance (e : Event) (s : State) : Decidable (RespondsBelow e s) := by
  unfold RespondsBelow
  infer_instance

theorem authored (hfresh : Fresh store) {store' : Stores}
    (h : Serial (fun user => store .users user ≠ []) RespondsBelow store js store') :
    Mirrored store js store' ∧ Authored ⟨store',[]⟩ := by
  induction h with
  | start => exact ⟨mirrored_start hfresh.users,authored_start hfresh⟩
  | @next js mid j es s _ hserves hrun hended ih =>
    obtain ⟨hm,hi⟩ := ih
    rcases hserves.cases with ⟨userId,text,id,rfl⟩ | ⟨c,rfl,hc⟩
    · have ht := hrun.invariant (tweeting_start hi.counting hi.signed) fun _ _ _ hs hc hstep =>
        tweeting_step hs hc hstep
      exact ⟨hm.tweet ht.users,hi.tweet hm ht⟩
    · have hk : (World.mk mid []).Knows c.pair := fun e => by
        cases e with
        | following => exact (hm.registered _).mpr hc.1
        | followers => exact (hm.registered _).mpr hc.2
      obtain ⟨_,_,hexecuted⟩ := alone_ended (fun _ _ h => h.1) (alone_execute c
        ⟨(hfresh.users _ hc.1).1.1,(hfresh.users _ hc.2).1.1⟩ (hi.prepared hfresh.users hm hk)) hrun hended
      exact ⟨hm.follow hfresh.users hexecuted.toFollowed,hi.execute hfresh.users hm hexecuted⟩

end Serial

/-- Each entry in the timeline of the user is that of a stored tweet, by the user or by
someone whom he follows. -/
def ShowsFollowed (store : Stores) (user : JString) : Prop :=
  ∀ e ∈ (World.mk store []).timeline user, ∃ tweetMap author,
    (store .tweets).value (entryId e) = some tweetMap ∧ tweetMap.user = some author ∧
    (author = user ∨ ∃ following, (World.mk store []).read (getFollowing user) = .ok following ∧ author ∈ following)

/-- As long as no counter is raised to 2^31-1, timelines show the tweets of their users and
of those they follow, and no others. -/
theorem followed_authors (store store' : Stores) (hfresh : Fresh store) (js : List Job)
    (h : Serial (fun user => store .users user ≠ []) RespondsBelow store js store') (user : JString)
    (huser : store .users user ≠ []) : ShowsFollowed store' user := by
  obtain ⟨hm,hi⟩ := authored hfresh h
  have huser' := (hm.registered user).mpr huser
  intro e he
  obtain ⟨author,⟨tweetId,tweetMap,hvalue,htweet,rfl⟩,hauthor⟩ := hi.entries user huser' e he
  have hid : entryId (entry tweetId tweetMap) = tweetId := by
    obtain ⟨_,_,⟨_,date,text,id,_,rfl⟩,_⟩ := hi.signed tweetId tweetMap hvalue
    exact entryId_append tweetId (not_mem_decimal (by decide) (by decide) date)
  refine ⟨tweetMap,author,by rw [hid]; exact hvalue,htweet,hauthor.imp_right fun hf => ?_⟩
  exact ⟨_,read_getEdges huser' .following,hf⟩

theorem followed_authors_two_users : ∃ store' : Stores, ShowsFollowed store' ['a'] ∧
    (World.mk store' []).timeline ['a'] = [['b','-','1',':','5']] := by
  have hrun : ((runSerial (fun user => twoFresh .users user ≠ []) RespondsBelow
      (followAndUnfollowAgain.take 2) twoFresh).map fun store' => (World.mk store' []).timeline ['a']) =
      some [['b','-','1',':','5']] := by decide +kernel
  obtain ⟨store',hstore',htimeline⟩ := Option.map_eq_some_iff.mp hrun
  exact ⟨store',followed_authors twoFresh store' ⟨twoFresh_users,fun _ => rfl,fun _ => rfl⟩ _
    (serial_of_runSerial .start hstore') ['a'] (by decide),htimeline⟩

section Overflow

def World.AllDated (w : World) : Prop :=
  ∀ tweetId tweetMap, (w.store .tweets).value tweetId = some tweetMap → tweetMap.Dated

/-- What a user without followers leaves alone when he tweets. -/
structure Spares (userId : JString) (w w' : World) : Prop where
  users : ∀ user, user ≠ userId → w'.store .users user = w.store .users user
  tweets : ∀ id, w.store .tweets id ≠ [] → w'.store .tweets id = w.store .tweets id
  timelines : ∀ user, user ≠ userId → w'.timeline user = w.timeline user
  dated : w.AllDated → w'.AllDated

variable {Q' : Except Exn (Option Tweet) → World → Prop} {j : Job} {w w' w'' : World} {userId : JString}

theorem Spares.trans (h : Spares userId w w') (h' : Spares userId w' w'') : Spares userId w w'' := by
  refine ⟨fun user hu => (h'.users user hu).trans (h.users user hu),fun id hid => ?_,
    fun user hu => (h'.timelines user hu).trans (h.timelines user hu),fun hd => h'.dated (h.dated hd)⟩
  rw [h'.tweets id (h.tweets id hid ▸ hid),h.tweets id hid]

theorem Spares.of_store (h : w'.store = w.store) : Spares userId w w' := by
  refine ⟨fun _ _ => by rw [h],fun _ _ => by rw [h],fun user _ => timeline_congr (by rw [h]) user,fun hd => ?_⟩
  intro tweetId tweetMap hvalue
  exact hd tweetId tweetMap (h ▸ hvalue)

theorem Spares.after (h : Spares userId w' w'') (hw : w'.store = w.store) : Spares userId w w'' :=
  (Spares.of_store hw).trans h

theorem Spares.write_users (op : Op) (r : Except Exn op.Res) (v : UserMap) :
    Spares userId w (w.logWrite j op r .users userId v) :=
  ⟨fun user hu => by simp [World.logWrite,hu],fun _ _ => by simp [World.logWrite],
    fun user _ => by simp [World.timeline,World.logWrite],fun hd tweetId tweetMap hvalue =>
      hd tweetId tweetMap (by simpa [World.logWrite] using hvalue)⟩

theorem Spares.write_tweets {tweetId : JString} {tweetMap : TweetMap} (hnew : w.store .tweets tweetId = [])
    (hdated : tweetMap.Dated) (op : Op) (r : Except Exn op.Res) :
    Spares userId w (w.logWrite j op r .tweets tweetId tweetMap) := by
  refine ⟨fun _ _ => by simp [World.logWrite],fun id hid => ?_,
    fun user _ => by simp [World.timeline,World.logWrite],fun hd id m hvalue => ?_⟩
  · have hne : id ≠ tweetId := by
      rintro rfl
      exact hid hnew
    simp [World.logWrite,hne]
  · by_cases hid : id = tweetId
    · subst hid
      obtain rfl : tweetMap = m := by simpa [World.logWrite,Store.value] using hvalue
      exact hdated
    · exact hd id m (by simpa [World.logWrite,Store.value,hid] using hvalue)

theorem Spares.write_timeline (op : Op) (r : Except Exn op.Res) (list : List JString) :
    Spares userId w (w.logWrite j op r .friendsTimeline userId list) :=
  ⟨fun _ _ => by simp [World.logWrite],fun _ _ => by simp [World.logWrite],
    fun _ hu => timeline_write_ne _ _ _ _ hu _,fun hd tweetId tweetMap hvalue =>
      hd tweetId tweetMap (by simpa [World.logWrite] using hvalue)⟩

theorem alone_updateTimeline {x : UserMap} (tweetId : JString) (tweetMap : TweetMap)
    (hvalue : (w.store .users).value userId = some x) :
    (alone Q').wp j (updateTimeline tweetId tweetMap userId)
      (fun _ w' => (w'.store .users).value userId = some x ∧ Spares userId w w') w := by
  refine alone_get ?_
  change (alone Q').wp j (liftExcept (insertTweet tweetId tweetMap (w.getTimeline userId).value) >>= fun list =>
    put .friendsTimeline userId ⟨list,(w.getTimeline userId).version⟩) _ _
  cases insertTweet tweetId tweetMap (w.getTimeline userId).value with
  | error e => exact alone_throw ⟨hvalue,Spares.of_store rfl⟩
  | ok list =>
    refine wp_of_bind_pure (alone_put (getTimeline_version w userId) (alone_ret ⟨?_,?_⟩))
    · simpa [World.logWrite,World.log] using hvalue
    · exact (Spares.write_timeline _ _ _).after rfl

theorem alone_tweetCommand {tweetId : JString} {tweetMap : TweetMap} {x : UserMap} (hdated : tweetMap.Dated)
    (hfollowers : x.followers = none) (hvalue : (w.store .users).value userId = some x) :
    (alone Q').wp j (tweetCommand userId tweetId tweetMap)
      (fun _ w' => (w'.store .users).value userId = some x ∧ Spares userId w w') w := by
  refine alone_putNew (fun hnew => ?_) ⟨hvalue,Spares.of_store rfl⟩
  let w₁ := w.logWrite j (.put .tweets tweetId ⟨tweetMap,0⟩) (.ok ()) .tweets tweetId tweetMap
  have hput : Spares userId w w₁ := Spares.write_tweets hnew hdated _ _
  have hvalue₁ : (w₁.store .users).value userId = some x := by simpa [w₁,World.logWrite] using hvalue
  refine alone_getValue ?_
  rw [show (World.store _ .users).value userId = some x from hvalue₁]
  refine alone_iterator fun l hl => ?_
  rw [hfollowers] at hl
  obtain rfl := List.perm_nil.mp hl
  exact (alone Q').wp_mono (alone_updateTimeline tweetId tweetMap hvalue₁) fun _ w' _ h =>
    ⟨h.1,hput.trans (h.2.after rfl)⟩

theorem alone_tweetUpdate {text id : Option JString} {date n : ℤ} {x : UserMap} (hdate : -2^63 ≤ date ∧ date < 2^63)
    (hfollowers : x.followers = none) (hparse : parseInt x.lastTweet = some n)
    (hvalue : (w.store .users).value userId = some x) :
    (alone Q').wp j (tweetUpdate userId ⟨some (decimal date),text,some userId,id⟩)
      (fun r w' => (∀ e, r = .error e → decide (e = Exn.obsoleteVersion) = false) ∧
        (w'.store .users).value userId = some { x with lastTweet := some (decimal (wrap 32 (n+1))) } ∧
        Spares userId w w') w := by
  obtain ⟨vs,hvs⟩ := Store.value_eq_some.mp hvalue
  have hget : (w.store .users).get userId = some ⟨x,vs.length+1⟩ := by simp [Store.get,hvs]
  refine alone_get ?_
  rw [hget]
  change (alone Q').wp j (orThrow .numberFormat (parseInt x.lastTweet) >>= _) _ _
  rw [hparse]
  refine alone_put (congrArg List.length hvs).symm ?_
  let x' : UserMap := { x with lastTweet := some (decimal (wrap 32 (n+1))) }
  let w₁ := (w.log j (.get .users userId) (.ok (some ⟨x,vs.length+1⟩))).logWrite j
    (.put .users userId ⟨x',vs.length+1⟩) (.ok ()) .users userId x'
  have hraised : Spares userId w w₁ := (Spares.write_users _ _ _).after rfl
  have hvalue₁ : (w₁.store .users).value userId = some x' := by simp [w₁,World.logWrite,Store.value]
  have hdated : TweetMap.Dated ⟨some (decimal date),text,some userId,id⟩ := by
    rw [TweetMap.Dated,show parseLong (some (decimal date)) = some date from @parse_decimal 64 date hdate]
    rfl
  refine alone_storeRemotely fun success => ?_
  cases success with
  | false => exact alone_throw ⟨by simp,hvalue₁,hraised.trans (Spares.of_store rfl)⟩
  | true =>
    refine Logic.wp_bind (Logic.wp_bind ((alone Q').wp_mono (alone_retry (R:=Spares userId)
      (P:=fun w => (w.store .users).value userId = some x') (fun _ _ _ => Spares.trans)
      (fun w hw => alone_tweetCommand hdated hfollowers hw) 2 hvalue₁) fun r w₂ _ h => ?_))
    obtain ⟨hthrown,hvalue₂,hspares⟩ := h
    have hspares₂ : Spares userId w w₂ := hraised.trans (hspares.after rfl)
    cases r with
    | ok a => exact alone_ret (alone_ret ⟨by simp,hvalue₂,hspares₂⟩)
    | error e =>
      refine alone_throw (alone_throw ⟨?_,hvalue₂,hspares₂⟩)
      rintro _ ⟨⟩
      exact hthrown e rfl

theorem alone_tweet {text id : Option JString} {n : ℤ} {x : UserMap} (hfollowers : x.followers = none)
    (hparse : parseInt x.lastTweet = some n) (hvalue : (w.store .users).value userId = some x) :
    (alone Q').wp j (Job.tweet userId text id).body (fun _ w' =>
      (w'.store .users).value userId = some { x with lastTweet := some (decimal (wrap 32 (n+1))) } ∧
      Spares userId w w') w := by
  obtain ⟨vs,hvs⟩ := Store.value_eq_some.mp hvalue
  have hget : (w.store .users).get userId = some ⟨x,vs.length+1⟩ := by simp [Store.get,hvs]
  change (alone Q').wp j (some <$> tweet userId text id) _ _
  rw [map_eq_pure_bind]
  refine Logic.wp_map ?_
  refine alone_now fun date hdate => alone_get ?_
  rw [show ((w.log j .now (.ok date)).store .users).get userId = some ⟨x,vs.length+1⟩ from hget]
  let w₁ := (w.log j .now (.ok date)).log j (.get .users userId) (.ok (some ⟨x,vs.length+1⟩))
  have hvalue₁ : (w₁.store .users).value userId = some x := hvalue
  change (alone Q').wp j (applyUpdate (tweetUpdate userId ⟨some (decimal date),text,some userId,id⟩) >>= _) _ w₁
  refine Logic.wp_bind ((alone Q').wp_mono (Logic.wp_retry_once (alone_tweetUpdate hdate hfollowers hparse hvalue₁))
    fun r w' _ h => ?_)
  have h' := And.intro h.1 (h.2.after (w:=w) rfl)
  rcases r with e | success
  · exact alone_throw h'
  · cases success with
    | none => exact alone_throw h'
    | some tweetId => exact alone_ret h'

/-- The author has tweeted so often that his counter has this value; a tweet is stored under
his id with the number -1, and nothing was delivered to the reader. -/
structure Wrapped (author reader : JString) (posted : TweetMap) (n : ℕ) (store : Stores) : Prop where
  counter : ∃ x, (store .users).value author = some x ∧ x.followers = none ∧
    x.lastTweet = some (decimal (wrap 32 n))
  dated : (World.mk store []).AllDated
  stored : (store .tweets).value (tweetKey author (-1)) = some posted
  following : ∃ x, (store .users).value reader = some x ∧ x.following = none
  timeline : (World.mk store []).timeline reader = []

theorem parse_wrapped {x : UserMap} {n : ℕ} (h : x.lastTweet = some (decimal (wrap 32 n))) :
    parseInt x.lastTweet = some (wrap 32 n) := by
  have hrange : -2^31 ≤ wrap 32 n ∧ wrap 32 n < 2^31 := wrap_range 31 n
  have hparse : parse 32 (decimal (wrap 32 n)) = some (wrap 32 n) := parse_decimal ⟨by omega,by omega⟩
  rw [h,parseInt,Option.bind_some,hparse]

theorem exists_ended (store : Stores) (job : Job) : ∃ es s,
    Runs.Reaches machine.step (ClosedCalls Responds) ⟨⟨store,[]⟩,[(job,job.body)]⟩ es s ∧ Ended s := by
  let s : State := ⟨⟨store,[]⟩,[(job,job.body)]⟩
  have hcond : ∀ i choice (s : State), choice ≠ .fails → ClosedCalls Responds (.thread i choice) s := by
    intro i choice s hchoice
    simp only [ClosedCalls,Calls]
    split
    · exact hchoice
    · trivial
  obtain ⟨es,q,new,hrun,hq,hnew⟩ : EndsWithin (ClosedCalls Responds) s 0 job _ :=
    endsWithin_body hcond (fun l : List JString => List.Perm.refl (id l)) job rfl
  refine ⟨es,_,hrun,fun t ht => ?_⟩
  rcases List.mem_cons.mp ht with rfl | ht
  · exact hq
  · exact hnew t ht

variable {known : JString → Prop} {store mid : Stores} {js : List Job} {author reader : JString}
  {posted : TweetMap} {n : ℕ}

theorem wrapped_step (hne : reader ≠ author) (h : Serial known (ClosedCalls Responds) store js mid)
    (hw : Wrapped author reader posted n mid) : ∃ js' mid',
      Serial known (ClosedCalls Responds) store js' mid' ∧ Wrapped author reader posted (n+1) mid' := by
  obtain ⟨x,hx,hfollowers,hlast⟩ := hw.counter
  obtain ⟨y,hy,hfollowing⟩ := hw.following
  let job : Job := .tweet author none none
  obtain ⟨es,s,hrun,hended⟩ := exists_ended mid job
  obtain ⟨_,hvalue,hspares⟩ := alone_ended (fun _ _ h => h)
    (alone_tweet (w:=⟨mid,[]⟩) hfollowers (parse_wrapped hlast) hx) hrun hended
  refine ⟨_,_,.next h (show job.Serves known from trivial) hrun hended,⟨_,hvalue,hfollowers,?_⟩,?_,?_,⟨y,?_,hfollowing⟩,?_⟩
  · rw [wrap_add_one]
    rfl
  · exact hspares.dated hw.dated
  · obtain ⟨ms,hms⟩ := Store.value_eq_some.mp hw.stored
    rw [Store.value,hspares.tweets _ (by simp [hms]),← hw.stored]
    rfl
  · rw [Store.value,hspares.users reader hne]
    exact hy
  · exact (hspares.timelines reader hne).trans hw.timeline

theorem Wrapped.not_follows (hw : Wrapped author reader posted n mid) (followed : JString) :
    ¬ (World.mk mid []).follows .following (reader,followed) := by
  obtain ⟨x,hx,hnone⟩ := hw.following
  have hnames : (World.mk mid []).names .following reader = [] := by
    rw [World.names,show ((World.mk mid []).store .users).value reader = some x from hx]
    exact congrArg asSet hnone
  rw [World.follows,show Edges.following.owner (reader,followed) = reader from rfl,hnames]
  simp

theorem wrapped_tweets (hne : reader ≠ author) (h : Serial known (ClosedCalls Responds) store js mid)
    (hw : Wrapped author reader posted 0 mid) (n : ℕ) : ∃ js' mid',
      Serial known (ClosedCalls Responds) store js' mid' ∧ Wrapped author reader posted n mid' := by
  induction n with
  | zero => exact ⟨js,mid,h,hw⟩
  | succ n ih =>
    obtain ⟨js',mid',h',hw'⟩ := ih
    exact wrapped_step hne h' hw'

theorem alone_getTweetsLoop_all {w₀ : World} (hdated : w₀.AllDated) (lastTweet limit : ℤ) (rounds : ℕ) (i : ℤ)
    (tweets : List Tweet) (hw : w.store = w₀.store) :
    (alone Q').wp j (getTweetsLoop author lastTweet limit rounds i tweets) (fun r w' => w'.store = w₀.store ∧
      ∃ list, r = .ok (tweets ++ list) ∧ Recents w₀ author list) w := by
  have hret {w : World} {tweets : List Tweet} (hw : w.store = w₀.store) :
      (alone Q').wp j (.ret tweets) (fun r w' => w'.store = w₀.store ∧
        ∃ list, r = .ok (tweets ++ list) ∧ Recents w₀ author list) w :=
    alone_ret ⟨hw,[],by simp,by simp [Recents]⟩
  induction rounds generalizing i tweets w with
  | zero => exact hret hw
  | succ rounds ih =>
    unfold getTweetsLoop
    split
    · dsimp only
      split
      · exact hret hw
      · refine alone_getValue ?_
        cases hvalue : (w.store .tweets).value (tweetKey author (wrap 32 (lastTweet - i))) with
        | none => exact ih _ _ hw
        | some tweetMap =>
          rw [hw] at hvalue
          obtain ⟨date,hdate⟩ := Option.isSome_iff_exists.mp (hdated _ _ hvalue)
          simp only [toTweet,hdate]
          refine (alone Q').wp_mono (ih _ _ hw) fun r w' _ h => ?_
          obtain ⟨hw',list,rfl,hrecents⟩ := h
          refine ⟨hw',_,by rw [List.append_assoc],fun t ht => ?_⟩
          rcases List.mem_append.mp ht with ht | ht
          · obtain rfl := List.mem_singleton.mp ht
            exact ⟨_,tweetMap,rfl,hvalue,hdate⟩
          · exact hrecents t ht
    · exact hret hw

theorem alone_getTweetsLoop_first {w₀ : World} (hdated : w₀.AllDated) {lastTweet limit : ℤ} {rounds : ℕ}
    (hrounds : 0 < rounds) (hlimit : 0 < limit) (hlast : wrap 32 (lastTweet - 0) = -1)
    (hposted : (w₀.store .tweets).value (tweetKey author (-1)) = some posted) {date : ℤ}
    (hdate : parseLong posted.date = some date) (hw : w.store = w₀.store) :
    (alone Q').wp j (getTweetsLoop author lastTweet limit rounds 0 []) (fun r w' => w'.store = w₀.store ∧
      ∃ list, r = .ok (⟨date,posted.text,posted.user,some (tweetKey author (-1))⟩::list) ∧
        Recents w₀ author list) w := by
  cases rounds with
  | zero => simp at hrounds
  | succ rounds =>
    unfold getTweetsLoop
    simp only [List.length_nil,Nat.cast_zero,if_pos hlimit,hlast]
    rw [if_neg (by decide)]
    refine alone_getValue ?_
    rw [hw,hposted]
    simp only [toTweet,hdate]
    exact alone_getTweetsLoop_all hdated _ _ _ _ _ hw

theorem alone_getRecentTweets_first {w₀ : World} (hdated : w₀.AllDated)
    (hcounter : w₀.counter author = some (some (decimal (-1))))
    (hposted : (w₀.store .tweets).value (tweetKey author (-1)) = some posted) {date : ℤ}
    (hdate : parseLong posted.date = some date) (hw : w.store = w₀.store) :
    (alone Q').wp j (getRecentTweets author) (fun r w' => w'.store = w₀.store ∧
      ∃ list, r = .ok (⟨date,posted.text,posted.user,some (tweetKey author (-1))⟩::list) ∧
        Recents w₀ author list) w := by
  refine alone_getValue ?_
  rw [World.counter,← hw] at hcounter
  cases hvalue : (w.store .users).value author with
  | none => simp [hvalue] at hcounter
  | some user =>
    have hlast : user.lastTweet = some (decimal (-1)) := by simpa [hvalue] using hcounter
    change (alone Q').wp j (orThrow .numberFormat (parseInt user.lastTweet) >>= _) _ _
    cases hparse : parseInt user.lastTweet with
    | none =>
      rw [hlast] at hparse
      exact absurd hparse (by decide)
    | some lastTweet =>
      rw [hlast] at hparse
      obtain rfl : -1 = lastTweet := Option.some.inj ((show parseInt (some (decimal (-1))) = some (-1) by decide).symm.trans hparse)
      have hlimit : (0 : ℤ) < wrap 32 (0+20) := by decide
      have hidx : wrap 32 (-1 - 0) = -1 := by decide
      exact alone_getTweetsLoop_first hdated (Nat.two_pow_pos 32) hlimit hidx hposted hdate hw

theorem Recent.dated {w₀ : World} (hcolon : ':' ∉ author) {t : Tweet} (ht : Recent w₀ author t) :
    (timelineDate t.entry).toOption.isSome := by
  obtain ⟨n,tweetMap,hid,_,hdate⟩ := ht
  obtain ⟨s,_,hs⟩ := Option.bind_eq_some_iff.mp hdate
  have hentry : t.entry = entry (tweetKey author n) ⟨some (decimal t.date),none,none,none⟩ := by
    rw [Tweet.entry,hid]
    rfl
  rw [hentry,timelineDate_entry (parse_range hs) hcolon]
  rfl

theorem alone_startTimeline_first {w₀ : World} (hcolon : ':' ∉ author) (hdated : w₀.AllDated)
    (hcounter : w₀.counter author = some (some (decimal (-1))))
    (hposted : (w₀.store .tweets).value (tweetKey author (-1)) = some posted) {date : ℤ}
    (hdate : parseLong posted.date = some date) (htimeline : w₀.timeline reader = []) :
    (alone Q').wp j (startTimeline reader author) (fun r w' => (∃ a, r = .ok a) ∧
      w'.store .users = w₀.store .users ∧ w'.store .tweets = w₀.store .tweets ∧
      tweetKey author (-1) ++ ':'::decimal date ∈ w'.timeline reader) w₀ := by
  refine alone_get ?_
  dsimp only
  refine Logic.wp_andThen ((alone Q').wp_mono (alone_getRecentTweets_first hdated hcounter hposted hdate rfl)
    fun r w₂ _ h₂ => ?_)
  obtain ⟨hw₂,rest,rfl,hrest⟩ := h₂
  let t : Tweet := ⟨date,posted.text,posted.user,some (tweetKey author (-1))⟩
  have ht : Recent w₀ author t := ⟨-1,posted,rfl,hposted,hdate⟩
  change (alone Q').wp j (liftExcept (startBackfill (t::rest) (w₀.getTimeline reader).value 0) >>= fun list =>
    putIfNotObsolete .friendsTimeline reader ⟨list,(w₀.getTimeline reader).version⟩ >>= fun _ => .ret ()) _ _
  have hnil : (w₀.getTimeline reader).value = [] := (getTimeline_value w₀ reader).trans htimeline
  have hfirst : startBackfill (t::rest) [] 0 = startBackfill rest [t.entry] 0 := rfl
  obtain ⟨list,hlist⟩ : ∃ list, startBackfill rest [t.entry] 0 = .ok list := by
    refine startBackfill_ok (fun e he => ?_) (fun t' ht' => (hrest t' ht').dated hcolon) 0
    obtain rfl := List.mem_singleton.mp he
    exact ht.dated hcolon
  have hmem : t.entry ∈ list := by
    refine startBackfill_keeps (P:=fun l => t.entry ∈ l) (fun t' _ l l' hl _ hperm => ?_) (Nat.zero_le _)
      (Nat.zero_le _) List.mem_cons_self hlist
    exact hperm.mem_iff.mpr (List.mem_cons_of_mem _ hl)
  rw [hnil,hfirst,hlist]
  refine alone_putIfNotObsolete ?_ (alone_ret ⟨⟨(),rfl⟩,?_,?_,?_⟩)
  · rw [hw₂]
    exact getTimeline_version w₀ reader
  · simp [World.logWrite,hw₂]
  · simp [World.logWrite,hw₂]
  · rw [timeline_write_self]
    exact hmem

/-- The follow shows the reader that tweet, whoever has written it. -/
theorem wrapped_follow (hr : Proper reader) (ha : Proper author) (hcolon : ':' ∉ author)
    (hn : wrap 32 n = -1) (hw : Wrapped author reader posted n mid) {date : ℤ}
    (hdate : parseLong posted.date = some date) :
    (alone Q').wp (.execute (.startFollowing reader author)) (Job.execute (.startFollowing reader author)).body
      (fun _ w' => Followed ⟨true,(reader,author)⟩ ⟨mid,[]⟩ w' ∧
        tweetKey author (-1) ++ ':'::decimal date ∈ w'.timeline reader) ⟨mid,[]⟩ := by
  obtain ⟨x,hx,_,hlast⟩ := hw.counter
  have hcounter : (World.mk mid []).counter author = some (some (decimal (-1))) := by
    rw [World.counter,show ((World.mk mid []).store .users).value author = some x from hx,Option.map_some,hlast,hn]
  refine Logic.wp_map (Logic.wp_map (Logic.wp_retry_ok ?_))
  refine alone_startFollowing hr ha fun w₁ h htimelines => ?_
  have hdated : w₁.AllDated := fun tweetId tweetMap hvalue => hw.dated tweetId tweetMap (h.tweets ▸ hvalue)
  refine (alone Q').wp_mono (alone_startTimeline_first hcolon hdated ((h.counter author).trans hcounter)
    (by rw [h.tweets]; exact hw.stored) hdate ((timeline_congr htimelines reader).trans hw.timeline))
    fun r w' _ h' => ?_
  obtain ⟨hok,husers,htweets,hmem⟩ := h'
  refine ⟨hok,⟨fun user => ?_,htweets.trans h.tweets,fun e q hq hk => ?_⟩,hmem⟩
  · rw [← h.counter user,World.counter,World.counter,husers]
  · rw [← h.follows e q hq hk,World.follows,World.follows,World.names,World.names,husers]

end Overflow

def threeFresh : Stores
  | .users => fun u => if u = ['a'] ∨ u = ['a','-'] ∨ u = ['u'] then [newUserMap ⟨u,none,none⟩ 0] else []
  | .tweets => fun _ => []
  | .friendsTimeline => fun _ => []

def dashTweets : List Event :=
  [.thread 0 (.time 5),.thread 0 .go,.thread 0 .go,.thread 0 .go,.thread 0 (.stored true),.thread 0 .go,
    .thread 0 .go,.thread 0 (.order []),.thread 0 .go,.thread 0 .go]

theorem fresh_threeFresh : Fresh threeFresh := by
  refine ⟨fun name hname => ?_,fun _ => rfl,fun _ => rfl⟩
  by_cases h : name = ['a'] ∨ name = ['a','-'] ∨ name = ['u']
  · refine ⟨by rcases h with rfl | rfl | rfl <;> decide,⟨name,none,none⟩,0,rfl,if_pos h⟩
  · exact absurd (if_neg h) hname

theorem wrapped_dashTweets : ∃ js mid,
    Serial (fun user => threeFresh .users user ≠ []) (ClosedCalls Responds) threeFresh js mid ∧
      Wrapped ['a'] ['u'] ⟨some ['5'],none,some ['a','-'],none⟩ 0 mid := by
  let posted : TweetMap := ⟨some ['5'],none,some ['a','-'],none⟩
  have hrun : ((Runs.runIf machine.step (ClosedCalls Responds) dashTweets ⟨⟨threeFresh,[]⟩,
      [(.tweet ['a','-'] none none,(Job.tweet ['a','-'] none none).body)]⟩).map fun s =>
        (decide (Ended s),(s.world.store .tweets).value ['a','-','-','1'])) = some (true,some posted) := by
    decide +kernel
  obtain ⟨s,hs,hp⟩ := Option.map_eq_some_iff.mp hrun
  simp only [Prod.mk.injEq,decide_eq_true_eq] at hp
  have hreaches := Runs.reaches_of_runIf .start hs
  obtain ⟨_,_,hspares⟩ := alone_ended (fun _ _ h => h) (alone_tweet (w:=⟨threeFresh,[]⟩) (n:=0)
    (x:=newUserMap ⟨['a','-'],none,none⟩ 0) rfl (by decide) rfl) hreaches hp.1
  refine ⟨_,_,.next .start (show (Job.tweet ['a','-'] none none).Serves _ from trivial) hreaches hp.1,?_⟩
  have ha := hspares.users ['a'] (by decide)
  have hu := hspares.users ['u'] (by decide)
  refine ⟨⟨newUserMap ⟨['a'],none,none⟩ 0,by rw [Store.value,ha]; rfl,rfl,rfl⟩,?_,hp.2,
    ⟨newUserMap ⟨['u'],none,none⟩ 0,by rw [Store.value,hu]; rfl,rfl⟩,?_⟩
  · exact hspares.dated fun _ _ h => by simp [threeFresh,Store.value] at h
  · exact (hspares.timelines ['u'] (by decide)).trans rfl

/-- After 2^32-1 tweets of `a`, a follow shows `u` the tweet of `a-`. -/
theorem overflow_shows_stranger : ¬ ∀ (store store' : Stores), Fresh store → ∀ js : List Job,
    Serial (fun user => store .users user ≠ []) (ClosedCalls Responds) store js store' →
    ∀ user, store .users user ≠ [] → ShowsFollowed store' user := by
  intro hall
  have hfresh := fresh_threeFresh
  obtain ⟨_,_,hdash,hwrapped⟩ := wrapped_dashTweets
  obtain ⟨js,mid,hserial,hw⟩ := wrapped_tweets (by decide) hdash hwrapped (2^32 - 1)
  have hn : wrap 32 ((2^32 - 1 : ℕ) : ℤ) = -1 := by decide
  have hdate : parseLong (some ['5']) = some 5 := by decide
  obtain ⟨es,s',hrun',hended⟩ := exists_ended mid (.execute (.startFollowing ['u'] ['a']))
  obtain ⟨_,hfollowed,hmem⟩ := alone_ended (fun _ _ h => h)
    (wrapped_follow (by decide) (by decide) (by decide) hn hw hdate) hrun' hended
  have hknown : (Job.execute (.startFollowing ['u'] ['a'])).Serves (fun user => threeFresh .users user ≠ []) :=
    ⟨by decide,by decide⟩
  have hserial' := Serial.next hserial hknown hrun' hended
  have hm := mirrored hfresh.users (hserial.mono (fun user huser => (hfresh.users user huser).1) fun _ _ h => h)
  have hm' := mirrored hfresh.users (hserial'.mono (fun user huser => (hfresh.users user huser).1) fun _ _ h => h)
  obtain ⟨tweetMap,author,hvalue,huser,hauthor⟩ :=
    hall threeFresh _ hfresh _ hserial' ['u'] (by decide) _ hmem
  rw [entryId_append _ (by decide),hfollowed.tweets] at hvalue
  obtain rfl := Option.some.inj (hw.stored.symm.trans hvalue)
  obtain rfl : ['a','-'] = author := Option.some.inj huser
  rcases hauthor with heq | ⟨following,hread,hmember⟩
  · exact absurd heq (by decide)
  · have hu : s'.world.store .users ['u'] ≠ [] := (hm'.registered ['u']).mpr (by decide)
    have hread' := (read_getEdges (w:=⟨s'.world.store,[]⟩) hu .following).symm.trans hread
    have hk : (World.mk mid []).Knows (['u'],['a','-']) := fun e => by
      cases e with
      | following => exact (hm.registered ['u']).mpr (by decide)
      | followers => exact (hm.registered ['a','-']).mpr (by decide)
    have hfollows : s'.world.follows .following (['u'],['a','-']) := by
      rw [← Except.ok.inj hread'] at hmember
      exact hmember
    have hold := (hfollowed.follows .following (['u'],['a','-']) (by decide) hk).mp hfollows
    rw [if_neg (by decide)] at hold
    exact hw.not_follows _ hold

end TweetService
end Bigbird
