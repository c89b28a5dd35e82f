import Bigbird.IssuedTweets
import Bigbird.TimelineEntries
import Bigbird.TweetPages

/-! Whose tweets a timeline shows: those of the reader and of the authors that a command has
followed for him, whatever runs at the same time and however often it is retried. -/
namespace Bigbird
namespace TweetService

open JavaText VersionedStore Programs

def OfAuthor (author tweetId : JString) (tweetMap : TweetMap) : Prop :=
  ∃ text id, PostedBy author text id tweetId tweetMap

/-- A follow names the reader. The name of a follower stands in a list with commas, and what
is read back from there are its parts. -/
def FollowsAs (started : JString → JString → Prop) (reader author : JString) : Prop :=
  ∃ follower, started follower author ∧ (reader = follower ∨ reader ∈ split ',' follower)

/-- The reader may be shown tweets of the author. The set that is left when the last follower
has gone is written as an empty string, which is read as one empty name. -/
def MayShow (started : JString → JString → Prop) (reader author : JString) : Prop :=
  reader = author ∨ reader = [] ∨ FollowsAs started reader author

/-- The entry belongs to a stored tweet of an author whom the reader may be shown. -/
def Shown (started : JString → JString → Prop) (w : World) (reader e : JString) : Prop :=
  ∃ author tweetId tweetMap, (w.store .tweets).value tweetId = some tweetMap ∧
    OfAuthor author tweetId tweetMap ∧ e = entry tweetId tweetMap ∧ MayShow started reader author

section Sets

variable {y : JString}

theorem mem_splitOn_join (hy : y ≠ []) (sb s : JString) :
    y ∈ ((if 0 < sb.length then sb ++ [','] else sb) ++ s).splitOn ',' ↔
      y ∈ sb.splitOn ',' ∨ y ∈ s.splitOn ',' := by
  cases sb with
  | nil => simp [hy]
  | cons c sb =>
    rw [if_pos (by simp),List.append_assoc,List.singleton_append,List.splitOn_append_cons_self,
      List.mem_append]

theorem mem_parts_toString (hy : y ≠ []) {set : List JString} :
    y ∈ asSet (some (toString set)) ↔ ∃ s ∈ set, y ∈ split ',' s := by
  have hjoin (sb : JString) :
      y ∈ (set.foldl (fun sb s => (if 0 < sb.length then sb ++ [','] else sb) ++ s) sb).splitOn ',' ↔
        y ∈ sb.splitOn ',' ∨ ∃ s ∈ set, y ∈ split ',' s := by
    induction set generalizing sb with
    | nil => simp
    | cons s set ih =>
      rw [List.foldl_cons,ih,mem_splitOn_join hy,or_assoc,← mem_split hy (s:=s),List.exists_mem_cons_iff]
  rw [asSet,List.mem_dedup,mem_split hy,toString,hjoin]
  simp [hy]

theorem split_of_mem_asSet {s : Option JString} (h : y ∈ asSet s) : split ',' y = [y] := by
  rw [split,if_neg (not_mem_of_mem_asSet h)]

end Sets

/-- What users, tweets and timelines look like when `started` are the follows that commands
have asked for. -/
structure Honest (started : JString → JString → Prop) (w : World) : Prop where
  counter : ∀ u x, (w.store .users).value u = some x →
    ∃ n : ℕ, x.lastTweet = some (decimal n) ∧ (n : ℤ) < 2^31 - 1
  followers : ∀ u x, (w.store .users).value u = some x → ∀ name ∈ asSet x.followers,
    name = [] ∨ FollowsAs started name u
  posted : ∀ tweetId tweetMap, (w.store .tweets).value tweetId = some tweetMap →
    ∃ author, OfAuthor author tweetId tweetMap
  shown : ∀ reader, ∀ e ∈ w.timeline reader, Shown started w reader e

variable {started : JString → JString → Prop}

theorem Shown.mono {w w' : World} (h : w.Extends w') {reader e : JString} (hs : Shown started w reader e) :
    Shown started w' reader e := by
  obtain ⟨author,tweetId,tweetMap,hvalue,hrest⟩ := hs
  exact ⟨author,tweetId,tweetMap,h.tweet hvalue,hrest⟩

section Write

variable {w : World} {j : Job} {op : Op} {r : Except Exn op.Res}

theorem Honest.log (hw : Honest started w) : Honest started (w.log j op r) :=
  ⟨hw.counter,hw.followers,hw.posted,hw.shown⟩

theorem Honest.write_users (hw : Honest started w) {u : JString} {x : UserMap}
    (hcounter : ∃ n : ℕ, x.lastTweet = some (decimal n) ∧ (n : ℤ) < 2^31 - 1)
    (hfollowers : ∀ name ∈ asSet x.followers, name = [] ∨ FollowsAs started name u) :
    Honest started (w.logWrite j op r .users u x) := by
  have hcases {u' : JString} {x' : UserMap}
      (hx' : ((w.logWrite j op r .users u x).store .users).value u' = some x') :
      u' = u ∧ x' = x ∨ (w.store .users).value u' = some x' := by
    by_cases hu : u' = u
    · subst hu
      exact Or.inl ⟨rfl,by simpa [World.logWrite,Store.value,eq_comm] using hx'⟩
    · exact Or.inr (by simpa [World.logWrite,Store.value,hu] using hx')
  refine ⟨fun u' x' hx' => ?_,fun u' x' hx' => ?_,?_,?_⟩
  · rcases hcases hx' with ⟨_,rfl⟩ | hold
    · exact hcounter
    · exact hw.counter u' x' hold
  · rcases hcases hx' with ⟨rfl,rfl⟩ | hold
    · exact hfollowers
    · exact hw.followers u' x' hold
  · intro tweetId tweetMap hvalue
    exact hw.posted tweetId tweetMap (by simpa [World.logWrite] using hvalue)
  · intro reader e he
    exact (hw.shown reader e (by simpa [World.timeline,World.logWrite] using he)).mono
      (World.extends_logWrite (n:=.users) (by simp) j op r x)

theorem Honest.write_tweets (hw : Honest started w) {tweetId : JString} {tweetMap : TweetMap}
    (hnew : w.store .tweets tweetId = []) {author : JString} (hposted : OfAuthor author tweetId tweetMap) :
    Honest started (w.logWrite j op r .tweets tweetId tweetMap) := by
  refine ⟨?_,?_,fun id m hm => ?_,?_⟩
  · intro u x hx
    exact hw.counter u x (by simpa [World.logWrite] using hx)
  · intro u x hx
    exact hw.followers u x (by simpa [World.logWrite] using hx)
  · by_cases hid : id = tweetId
    · subst hid
      obtain rfl : tweetMap = m := by simpa [World.logWrite,Store.value] using hm
      exact ⟨author,hposted⟩
    · exact hw.posted id m (by simpa [World.logWrite,Store.value,hid] using hm)
  · intro reader e he
    exact (hw.shown reader e (by simpa [World.timeline,World.logWrite] using he)).mono
      (World.extends_logWrite (n:=.tweets) (fun _ => hnew) j op r tweetMap)

theorem Honest.write_timeline (hw : Honest started w) {user : JString} {list : List JString}
    (hlist : ∀ e ∈ list, Shown started w user e) :
    Honest started (w.logWrite j op r .friendsTimeline user list) := by
  have hext : w.Extends (w.logWrite j op r .friendsTimeline user list) :=
    World.extends_logWrite (n:=.friendsTimeline) (by simp) j op r list
  refine ⟨?_,?_,?_,fun reader e he => Shown.mono hext ?_⟩
  · intro u x hx
    exact hw.counter u x (by simpa [World.logWrite] using hx)
  · intro u x hx
    exact hw.followers u x (by simpa [World.logWrite] using hx)
  · intro tweetId tweetMap hvalue
    exact hw.posted tweetId tweetMap (by simpa [World.logWrite] using hvalue)
  · by_cases hr : reader = user
    · subst hr
      rw [timeline_write_self] at he
      exact hlist e he
    · rw [timeline_write_ne _ _ _ _ hr] at he
      exact hw.shown reader e he

end Write

/-- Every job keeps to what timelines may show, whatever the others do in between. -/
def signing (started : JString → JString → Prop) : Logic machine where
  inv := Honest started
  rely _ := World.Extends
  guar _ := World.Extends
  cond := NoOverflow
  pre j w := match j with
    | .updateTimeline tweetId tweetMap reader => ∃ author, OfAuthor author tweetId tweetMap ∧
        (w.store .tweets).value tweetId = some tweetMap ∧ MayShow started reader author
    | .execute (.tweet author tweetId tweetMap) => OfAuthor author tweetId tweetMap
    | .execute (.startFollowing follower author) => started follower author
    | _ => True
  post _ _ _ := True
  apart _ _ := True
  rely_refl _ := World.Extends.refl
  rely_trans _ _ _ _ := World.Extends.trans
  rely_of_guar _ _ _ _ _ h := h
  apart_symm _ _ _ := trivial

section Walk

variable {j : Job} {w : World} {α β : Type}

theorem signing_logs (j : Job) : Logs (signing started) j := by
  intro op r w hi _
  exact ⟨Honest.log hi,w.extends_log j op r,by simp⟩

theorem signing_throw {e : Exn} : (signing started).wp j (.throw e : Client α) Anyhow w := fun _ _ _ => trivial

theorem signing_ret {a : α} : (signing started).wp j (.ret a) Anyhow w := fun _ _ _ => trivial

theorem signing_since {p : Client α} {Q : Except Exn α → World → Prop} (h : (signing started).wp j p Q w) :
    (signing started).wp j p (fun r w' => w.Extends w' ∧ Q r w') w :=
  (signing started).wp_since (T:=World.Extends) (fun _ _ _ => World.Extends.trans) (fun _ _ h => h)
    (fun _ _ h => h) h

theorem signing_then {p : Client α} {f : α → Client β} (hp : (signing started).wp j p Anyhow w)
    (hf : ∀ a w', w.Extends w' → (signing started).wp j (f a) Anyhow w') :
    (signing started).wp j (p >>= f) Anyhow w := by
  refine Logic.wp_bind (Logic.wp_mono (signing_since hp) fun r w' _ h => ?_)
  cases r with
  | ok a => exact hf a w' h.1
  | error e => exact signing_throw

theorem signing_attempts {p : Client α} {again : Exn → Bool} {n : ℕ}
    (hp : ∀ w', w.Extends w' → (signing started).wp j p Anyhow w') :
    (signing started).wp j (p.retry again n) Anyhow w := by
  refine Logic.wp_retry (fun _ w' => w.Extends w') (fun _ _ _ => trivial)
    (fun _ _ _ hr h => h.trans hr) (fun n w₁ h₁ => ?_) (World.Extends.refl w)
  refine Logic.wp_mono (signing_since (hp w₁ h₁)) fun r w₂ _ h => ?_
  cases r with
  | ok a => trivial
  | error e =>
    change if again e then w.Extends w₂ else True
    split
    · exact h₁.trans h.1
    · trivial

theorem signing_startUpdate (edges : Edges) (p : JString × JString)
    (hstarted : started p.1 p.2) :
    (signing started).wp j (startUpdate edges (edges.owner p) (edges.member p)) Anyhow w := by
  refine wp_get (signing_logs j) (fun w₁ hi₁ _ _ => ?_) fun _ _ _ _ => signing_throw
  cases hget : (w₁.store .users).get (edges.owner p) with
  | none => exact signing_ret
  | some x =>
    refine wp_iterator (signing_logs j) fun w₂ l _ hr₂ hl => ?_
    refine wp_putIfNotObsolete (signing_logs j) (fun w₃ hi₃ hr₃ _ hv => ⟨⟨?_,
      World.extends_logWrite (n:=.users) (by simp) _ _ _ _,by simp⟩,signing_ret⟩)
      (fun _ _ _ _ _ => signing_ret) fun _ _ _ _ => signing_throw
    have hvalue := value_of_get hget (hr₂.of_log.trans hr₃.of_log).grows hv
    refine Honest.write_users hi₃ (by simpa using hi₃.counter _ _ hvalue) fun name hname => ?_
    cases edges with
    | following => exact hi₃.followers _ _ hvalue name hname
    | followers =>
      by_cases hempty : name = []
      · exact Or.inl hempty
      · obtain ⟨s,hs,hsplit⟩ := (mem_parts_toString hempty).mp hname
        rcases List.mem_insert_iff.mp (hl.mem_iff.mp hs) with rfl | hs
        · exact Or.inr ⟨_,hstarted,Or.inr hsplit⟩
        · rw [split_of_mem_asSet hs,List.mem_singleton] at hsplit
          subst hsplit
          exact hi₃.followers _ _ hvalue name hs

theorem signing_stopUpdate (edges : Edges) (key member : JString) :
    (signing started).wp j (stopUpdate edges key member) Anyhow w := by
  refine wp_get (signing_logs j) (fun w₁ _ _ _ => ?_) fun _ _ _ _ => signing_throw
  cases hget : (w₁.store .users).get key with
  | none => exact signing_throw
  | some x =>
    refine wp_iterator (signing_logs j) fun w₂ l _ hr₂ hl => wp_of_bind_pure ?_
    refine wp_put (signing_logs j) (fun w₃ hi₃ hr₃ _ hv => ⟨⟨?_,
      World.extends_logWrite (n:=.users) (by simp) _ _ _ _,by simp⟩,signing_ret⟩)
      (fun _ _ _ _ _ => signing_throw) fun _ _ _ _ => signing_throw
    have hvalue := value_of_get hget (hr₂.of_log.trans hr₃.of_log).grows hv
    refine Honest.write_users hi₃ (by simpa using hi₃.counter _ _ hvalue) fun name hname => ?_
    cases edges with
    | following => exact hi₃.followers _ _ hvalue name hname
    | followers =>
      by_cases hempty : name = []
      · exact Or.inl hempty
      · obtain ⟨s,hs,hsplit⟩ := (mem_parts_toString hempty).mp hname
        have hold := List.mem_of_mem_erase (hl.mem_iff.mp hs)
        rw [split_of_mem_asSet hold,List.mem_singleton] at hsplit
        subst hsplit
        exact hi₃.followers _ _ hvalue name hold

theorem signing_updateTimeline {author tweetId reader : JString} {tweetMap : TweetMap}
    (hposted : OfAuthor author tweetId tweetMap) (hstored : (w.store .tweets).value tweetId = some tweetMap)
    (hmay : MayShow started reader author) :
    (signing started).wp j (updateTimeline tweetId tweetMap reader) Anyhow w := by
  refine wp_get (signing_logs j) (fun w₁ _ hr₁ _ => ?_) fun _ _ _ _ => signing_throw
  change (signing started).wp j (liftExcept (insertTweet tweetId tweetMap (w₁.getTimeline reader).value) >>= fun list =>
    put .friendsTimeline reader ⟨list,(w₁.getTimeline reader).version⟩) Anyhow _
  cases hlist : insertTweet tweetId tweetMap (w₁.getTimeline reader).value with
  | error e => exact signing_throw
  | ok list =>
    refine wp_of_bind_pure (wp_put (signing_logs j) (fun w₂ hi₂ hr₂ _ hv => ⟨⟨?_,
      World.extends_logWrite (n:=.friendsTimeline) (by simp) _ _ _ _,by simp⟩,signing_ret⟩)
      (fun _ _ _ _ _ => signing_throw) fun _ _ _ _ => signing_throw)
    rw [← timeline_of_get hr₂.of_log.grows hv] at hlist
    refine Honest.write_timeline hi₂ fun e he => ?_
    rcases List.mem_cons.mp ((insertTweet_perm hlist).mem_iff.mp he) with rfl | he
    · exact ⟨author,tweetId,tweetMap,(hr₁.trans hr₂.of_log).tweet hstored,hposted,rfl,hmay⟩
    · exact hi₂.shown reader e he

theorem signing_submitAll {author tweetId : JString} {tweetMap : TweetMap}
    (hposted : OfAuthor author tweetId tweetMap) {followers : List JString}
    (hstored : (w.store .tweets).value tweetId = some tweetMap)
    (hmay : ∀ f ∈ followers, MayShow started f author) :
    (signing started).wp j (submitAll tweetId tweetMap followers) Anyhow w := by
  induction followers generalizing w with
  | nil => exact signing_ret
  | cons follower followers ih =>
    refine wp_submit (signing_logs j) (fun w' hi hr _ => ?_) fun _ _ _ _ => signing_throw
    have hstored' := (hr.trans (w'.extends_log j (.submit (.updateTimeline tweetId tweetMap follower)) (.ok ()))).tweet hstored
    refine ⟨⟨Honest.log hi,w'.extends_log _ _ _,?_⟩,ih hstored' fun f hf => hmay f (List.mem_cons_of_mem _ hf)⟩
    rintro u ⟨⟩
    exact ⟨⟨author,hposted,hstored',hmay follower List.mem_cons_self⟩,trivial,fun _ _ => trivial⟩

theorem signing_tweetCommand {author tweetId : JString} {tweetMap : TweetMap}
    (hposted : OfAuthor author tweetId tweetMap) :
    (signing started).wp j (tweetCommand author tweetId tweetMap) Anyhow w := by
  refine wp_put (signing_logs j) (fun w₁ hi₁ _ _ hv => ?_) (fun _ _ _ _ _ => signing_throw)
    fun _ _ _ _ => signing_throw
  have hnew : w₁.store .tweets tweetId = [] := List.length_eq_zero_iff.mp hv.symm
  refine ⟨⟨Honest.write_tweets hi₁ hnew hposted,World.extends_logWrite (fun _ => hnew) _ _ _ _,by simp⟩,?_⟩
  have hstored : ((w₁.logWrite j (.put .tweets tweetId ⟨tweetMap,0⟩) (.ok ()) .tweets tweetId tweetMap).store
      .tweets).value tweetId = some tweetMap := by simp [World.logWrite,Store.value]
  refine wp_getValue (signing_logs j) (fun w₂ hi₂ hr₂ _ => ?_) fun _ _ _ _ => signing_throw
  cases hvalue : (w₂.store .users).value author with
  | none => exact signing_ret
  | some user =>
    refine wp_iterator (signing_logs j) fun w₃ l _ hr₃ hl => ?_
    have hstored₃ := (hr₂.trans hr₃.of_log).tweet hstored
    have hmay (f : JString) (hf : f ∈ l) : MayShow started f author :=
      Or.inr (hi₂.followers author user hvalue f (hl.mem_iff.mp hf))
    refine signing_then (signing_submitAll hposted ((w₃.extends_log _ _ _).tweet hstored₃) hmay) fun _ w₄ h₄ => ?_
    exact signing_updateTimeline hposted (h₄.of_log.tweet hstored₃) (Or.inl rfl)

def Found (w : World) (author : JString) (t : Tweet) : Prop :=
  ∃ (n : ℕ) (tweetMap : TweetMap), t.id = some (tweetKey author n) ∧
    (w.store .tweets).value (tweetKey author n) = some tweetMap ∧ parseLong tweetMap.date = some t.date

theorem Found.mono {w w' : World} (h : w.Extends w') {author : JString} {t : Tweet} (ht : Found w author t) :
    Found w' author t := by
  obtain ⟨n,tweetMap,hid,hvalue,hdate⟩ := ht
  exact ⟨n,tweetMap,hid,h.tweet hvalue,hdate⟩

theorem Found.shown (hw : Honest started w) {reader author : JString} {t : Tweet} (ht : Found w author t)
    (hmay : MayShow started reader author) : Shown started w reader t.entry := by
  obtain ⟨n,tweetMap,hid,hvalue,hdate⟩ := ht
  obtain ⟨author',text,id,n',date,hkey,hrange,rfl⟩ := hw.posted _ _ hvalue
  obtain ⟨rfl,_⟩ := tweetKey_injective hkey
  have heq : t.date = date := eq_of_parse_decimal hdate
  exact ⟨author,_,_,hvalue,⟨text,id,n,date,rfl,hrange,rfl⟩,by simp [Tweet.entry,entry,hid,heq],hmay⟩

/-- The numbers that the loop looks up go down from the counter to 1. -/
theorem signing_getTweetsLoop {author : JString} {lastTweet : ℕ} (hlast : lastTweet < 2^31) (limit : ℤ)
    (rounds : ℕ) {i : ℤ} {k n : ℕ} (hi : i = k) (hkn : k + n = lastTweet) {tweets : List Tweet}
    (ht : ∀ t ∈ tweets, Found w author t) :
    (signing started).wp j (getTweetsLoop author lastTweet limit rounds i tweets)
      (fun r w' => ∀ list, r = .ok list → ∀ t ∈ list, Found w' author t) w := by
  have hret {w : World} {tweets : List Tweet} (ht : ∀ t ∈ tweets, Found w author t) :
      (signing started).wp j (.ret tweets)
        (fun r w' => ∀ list, r = .ok list → ∀ t ∈ list, Found w' author t) w := by
    refine Logic.wp_ret fun w' _ hr list h t hmem => ?_
    cases h
    exact (ht t hmem).mono hr
  subst hi
  induction rounds generalizing k n w tweets with
  | zero => exact hret ht
  | succ rounds ih =>
    unfold getTweetsLoop
    split
    · cases n with
      | zero =>
        have hidx : wrap 32 ((lastTweet : ℤ) - k) = 0 := by
          rw [← hkn]
          simp [wrap]
        simp only [hidx,if_true]
        exact hret ht
      | succ n =>
        have hidx : wrap 32 ((lastTweet : ℤ) - k) = ((n+1 : ℕ) : ℤ) := idx_eq hkn hlast
        have hnext : wrap 32 ((k : ℤ) + 1) = ((k+1 : ℕ) : ℤ) := next_eq hkn hlast
        have hne : ((n+1 : ℕ) : ℤ) ≠ 0 := by omega
        simp only [hidx,hnext]
        rw [if_neg hne]
        refine wp_getValue (signing_logs j) (fun w₁ _ hr₁ _ => ?_)
          fun _ _ _ _ => Logic.wp_throw fun _ _ _ _ h => by simp at h
        have hlog := w₁.extends_log j (.get .tweets (tweetKey author (n+1 : ℕ)))
          (.ok ((w₁.store .tweets).get (tweetKey author (n+1 : ℕ))))
        have ht₁ (t : Tweet) (hmem : t ∈ tweets) := (ht t hmem).mono (hr₁.trans hlog)
        cases hvalue : (w₁.store .tweets).value (tweetKey author (n+1 : ℕ)) with
        | none => exact ih (k:=k+1) (n:=n) (by omega) ht₁
        | some tweetMap =>
          cases hdate : parseLong tweetMap.date with
          | none =>
            simp only [toTweet,hdate]
            exact Logic.wp_throw fun _ _ _ _ h => by simp at h
          | some date =>
            simp only [toTweet,hdate]
            refine ih (k:=k+1) (n:=n) (by omega) fun t hmem => ?_
            rcases List.mem_append.mp hmem with hmem | hmem
            · exact ht₁ t hmem
            · obtain rfl := List.mem_singleton.mp hmem
              exact ⟨n+1,tweetMap,rfl,hlog.tweet hvalue,hdate⟩
    · exact hret ht

theorem signing_getRecentTweets (author : JString) :
    (signing started).wp j (getRecentTweets author)
      (fun r w' => ∀ list, r = .ok list → ∀ t ∈ list, Found w' author t) w := by
  refine wp_getValue (signing_logs j) (fun w₁ hi₁ _ _ => ?_)
    fun _ _ _ _ => Logic.wp_throw fun _ _ _ _ h => by simp at h
  cases hvalue : (w₁.store .users).value author with
  | none => exact Logic.wp_throw fun _ _ _ _ h => by simp at h
  | some user =>
    obtain ⟨lastTweet,hcounter,hlast⟩ := hi₁.counter author user hvalue
    have hparse : parseInt user.lastTweet = some (lastTweet : ℤ) := by
      rw [hcounter]
      exact @parse_decimal 32 _ ⟨by omega,by omega⟩
    change (signing started).wp j (orThrow .numberFormat (parseInt user.lastTweet) >>= _) _ _
    rw [hparse,orThrow_some]
    generalize 2^32 = rounds
    exact signing_getTweetsLoop (by omega) _ rounds Int.natCast_zero.symm (Nat.zero_add lastTweet) (by simp)

theorem signing_startTimeline {follower author : JString} (hstarted : started follower author) :
    (signing started).wp j (startTimeline follower author) Anyhow w := by
  refine wp_get (signing_logs j) (fun w₁ _ _ _ => ?_) fun _ _ _ _ => signing_throw
  dsimp only
  refine Logic.wp_andThen (Logic.wp_mono (signing_since (signing_getRecentTweets author)) fun r w₂ _ h => ?_)
  obtain ⟨h₂,hfound⟩ := h
  rcases r with e | tweets
  · cases e <;> first | exact signing_ret | exact signing_throw
  · change (signing started).wp j (liftExcept (startBackfill tweets (w₁.getTimeline follower).value 0) >>= fun list =>
      putIfNotObsolete .friendsTimeline follower ⟨list,(w₁.getTimeline follower).version⟩ >>= fun _ => .ret ())
      Anyhow _
    cases hlist : startBackfill tweets (w₁.getTimeline follower).value 0 with
    | error e => exact signing_throw
    | ok list =>
      refine wp_putIfNotObsolete (signing_logs j) (fun w₃ hi₃ hr₃ _ hv => ⟨⟨?_,
        World.extends_logWrite (n:=.friendsTimeline) (by simp) _ _ _ _,by simp⟩,signing_ret⟩)
        (fun _ _ _ _ _ => signing_ret) fun _ _ _ _ => signing_throw
      rw [← timeline_of_get (h₂.of_log.trans hr₃).grows hv] at hlist
      refine Honest.write_timeline hi₃ ?_
      refine startBackfill_keeps (P:=fun l => ∀ e ∈ l, Shown started w₃ follower e) (fun t ht l l' hl _ hperm e he => ?_)
        (Nat.zero_le _) (Nat.zero_le _) (hi₃.shown follower) hlist
      rcases List.mem_cons.mp (hperm.mem_iff.mp he) with rfl | he
      · exact ((hfound tweets rfl t ht).mono hr₃).shown hi₃ (Or.inr (Or.inr ⟨follower,hstarted,Or.inl rfl⟩))
      · exact hl e he

theorem signing_stopTimeline (userId toStopUser : JString) :
    (signing started).wp j (stopTimeline userId toStopUser) Anyhow w := by
  refine wp_get (signing_logs j) (fun w₁ _ _ _ => ?_) fun _ _ _ _ => signing_throw
  cases hget : (w₁.store .friendsTimeline).get userId with
  | none => exact signing_ret
  | some x =>
    change (signing started).wp j (liftExcept (stopFilter toStopUser x.value) >>= _) Anyhow _
    cases hlist : stopFilter toStopUser x.value with
    | error e => exact signing_throw
    | ok list =>
      refine wp_of_bind_pure (wp_put (signing_logs j) (fun w₂ hi₂ hr₂ _ hv => ⟨⟨?_,
        World.extends_logWrite (n:=.friendsTimeline) (by simp) _ _ _ _,by simp⟩,signing_ret⟩)
        (fun _ _ _ _ _ => signing_throw) fun _ _ _ _ => signing_throw)
      refine Honest.write_timeline hi₂ fun e he => hi₂.shown userId e ?_
      rw [World.timeline,value_of_get hget hr₂.of_log.grows hv]
      exact (stopFilter_sublist hlist).subset he

theorem signing_execute (c : Command) (hpre : (signing started).pre (.execute c) w) :
    (signing started).wp j c.execute Anyhow w := by
  refine Logic.wp_map (signing_attempts fun w₁ _ => ?_)
  cases c with
  | tweet author tweetId tweetMap => exact signing_tweetCommand hpre
  | startFollowing follower author =>
    refine signing_then (signing_startUpdate .following (follower,author) hpre) fun _ w₂ _ => ?_
    refine signing_then (signing_startUpdate .followers (follower,author) hpre) fun _ w₃ _ => ?_
    exact signing_startTimeline hpre
  | stopFollowing userId toStopUser =>
    refine signing_then (signing_stopUpdate .followers toStopUser userId) fun _ w₂ _ => ?_
    refine signing_then (signing_stopUpdate .following userId toStopUser) fun _ w₃ _ => ?_
    exact signing_stopTimeline userId toStopUser

theorem signing_newUser (user : User) : (signing started).wp j (newUser user) Anyhow w := by
  refine wp_now (signing_logs j) fun w₁ date _ _ _ => ?_
  refine signing_then (signing_attempts fun w₂ _ => wp_of_bind_pure ?_) fun success w₂ _ => ?_
  · refine wp_putIfNotObsolete (signing_logs j) (fun w₃ hi₃ _ _ _ => ⟨⟨?_,
      World.extends_logWrite (n:=.users) (by simp) _ _ _ _,by simp⟩,signing_ret⟩)
      (fun _ _ _ _ _ => signing_ret) fun _ _ _ _ => signing_throw
    exact Honest.write_users hi₃ ⟨0,rfl,by norm_num⟩ (by simp [asSet])
  · cases success with
    | none => exact signing_throw
    | some success => exact signing_ret

theorem signing_tweetUpdate {author : JString} (text id : Option JString) {tweetMap : TweetMap}
    (hposted : ∀ n : ℕ, OfAuthor author (tweetKey author n) tweetMap) :
    (signing started).wp (.tweet author text id) (tweetUpdate author tweetMap) Anyhow w := by
  refine wp_get (signing_logs _) (fun w₁ hi₁ _ _ => ?_) fun _ _ _ _ => signing_throw
  cases hget : (w₁.store .users).get author with
  | none => exact signing_throw
  | some x =>
    obtain ⟨n,hcounter,hn⟩ := hi₁.counter author x.value (Store.value_of_get_eq hget)
    have hparse : parseInt x.value.lastTweet = some (n : ℤ) := by
      rw [hcounter]
      exact @parse_decimal 32 _ ⟨by omega,by omega⟩
    have hwrap : wrap 32 ((n : ℤ) + 1) = ((n+1 : ℕ) : ℤ) := by
      rw [@wrap_eq_self 31 _ ⟨by omega,by omega⟩]
      push_cast
      rfl
    change (signing started).wp _ (orThrow .numberFormat (parseInt x.value.lastTweet) >>= _) Anyhow _
    rw [hparse]
    change (signing started).wp _ (put .users author ⟨{ x.value with
      lastTweet := some (decimal (wrap 32 ((n : ℤ) + 1))) },x.version⟩ >>= _) Anyhow _
    rw [hwrap]
    refine wp_put (signing_logs _) (fun w₂ hi₂ hr₂ hc₂ hv => ⟨⟨?_,
      World.extends_logWrite (n:=.users) (by simp) _ _ _ _,by simp⟩,?_⟩)
      (fun _ _ _ _ _ => signing_throw) fun _ _ _ _ => signing_throw
    · have hvalue := value_of_get hget hr₂.of_log.grows hv
      refine Honest.write_users hi₂ ⟨n+1,rfl,?_⟩ (hi₂.followers author x.value hvalue)
      have hne : ((n+1 : ℕ) : ℤ) ≠ 2^31 - 1 := fun heq => hc₂ (congrArg (fun n => some (decimal n)) heq)
      omega
    · refine wp_storeRemotely (signing_logs _) fun w₃ success _ _ => ?_
      cases success with
      | false => exact signing_throw
      | true => exact signing_then (signing_execute _ (hposted (n+1))) fun _ _ _ => signing_ret

theorem signing_tweet (author : JString) (text id : Option JString) :
    (signing started).wp (.tweet author text id) (tweet author text id) Anyhow w := by
  refine wp_now (signing_logs _) fun w₁ date _ _ hdate => ?_
  refine wp_get (signing_logs _) (fun w₂ _ _ _ => ?_) fun _ _ _ _ => signing_throw
  cases (w₂.store .users).get author with
  | none => exact signing_throw
  | some x =>
    refine signing_then signing_ret fun _ w₃ _ => ?_
    refine signing_then (signing_attempts fun w₄ _ => signing_tweetUpdate text id
      fun n => ⟨text,id,n,date,rfl,hdate,rfl⟩) fun success w₄ _ => ?_
    cases success with
    | none => exact signing_throw
    | some tweetId => exact signing_ret

theorem signing_body (j : Job) (w : World) (hpre : (signing started).pre j w) :
    (signing started).wp j j.body Anyhow w := by
  cases j with
  | newUser user => exact signing_then (signing_newUser user) fun _ _ _ => signing_ret
  | tweet author text id =>
    change (signing started).wp _ (some <$> tweet author text id) Anyhow w
    rw [map_eq_pure_bind]
    exact signing_then (signing_tweet author text id) fun _ _ _ => signing_ret
  | execute c => exact signing_then (signing_execute c hpre) fun _ _ _ => signing_ret
  | updateTimeline tweetId tweetMap reader =>
    obtain ⟨author,hposted,hstored,hmay⟩ := hpre
    exact signing_then (signing_updateTimeline hposted hstored hmay) fun _ _ _ => signing_ret

end Walk

variable {s s' : State}

/-- What holds in all runs in which the follows that are executed are among `started`. -/
structure Signing (started : JString → JString → Prop) (s : State) : Prop where
  issuing : Issuing s
  signing : (signing started).Good s

def Starts (started : JString → JString → Prop) (e : Event) (_ : State) : Prop :=
  ∀ follower author, e = .start (.execute (.startFollowing follower author)) → started follower author

theorem signing_admits (hs : Signing started s) {e : Event} (hc : Publishes e s) (hstarts : Starts started e s) :
    (signing started).Admits e s := by
  cases e with
  | start job =>
    refine ⟨?_,fun _ _ => trivial⟩
    cases job with
    | execute c =>
      cases c with
      | tweet author tweetId tweetMap =>
        obtain ⟨text,id,hposted,_⟩ := hs.issuing.postedBy hc.1
        exact ⟨text,id,hposted⟩
      | startFollowing follower author => exact hstarts follower author rfl
      | stopFollowing userId toStopUser => trivial
    | updateTimeline tweetId tweetMap reader => exact hc.1.elim
    | _ => trivial
  | thread i choice =>
    intro job op k ht
    have hcalls := hc.2
    simp only [Calls,ht] at hcalls
    exact hcalls

theorem signing_step (hs : Signing started s) {e : Event} (hc : Publishes e s) (hstarts : Starts started e s)
    (h : machine.step e s = some s') : Signing started s' :=
  ⟨issuing_step hs.issuing hc h,
    Logic.good_step (fun j w _ hpre => signing_body j w hpre) hs.signing (signing_admits hs hc hstarts) h⟩

theorem signing_of_reaches {es : List Event}
    (h : Runs.Reaches machine.step (fun e s => Publishes e s ∧ Starts started e s) State.empty es s) :
    Signing started s := by
  refine h.invariant ⟨issuing_empty,?_⟩ fun _ _ _ hs hc hstep => signing_step hs hc.1 hc.2 hstep
  refine ⟨⟨?_,?_,?_,?_⟩,by simp [State.empty],by simp [State.empty]⟩ <;>
    simp [State.empty,Store.value,World.timeline]

def startedIn (es : List Event) (follower author : JString) : Prop :=
  Event.start (.execute (.startFollowing follower author)) ∈ es

theorem signing_of_publishes {es : List Event} (h : Runs.Reaches machine.step Publishes State.empty es s) :
    Signing (startedIn es) s := by
  refine signing_of_reaches (h.mem_events.mono ?_)
  rintro e s ⟨hc,he⟩
  refine ⟨hc,?_⟩
  rintro follower author rfl
  exact he

theorem Signing.authors {started : JString → JString → Prop} (hs : Signing started s) {reader e : JString}
    (he : e ∈ s.world.timeline reader) : ∃ author text id tweetId tweetMap,
      (s.world.store .tweets).value tweetId = some tweetMap ∧ e = entry tweetId tweetMap ∧
      PostedBy author text id tweetId tweetMap ∧ Job.tweet author text id ∈ s.threads.map Prod.fst ∧
      MayShow started reader author := by
  obtain ⟨author,tweetId,tweetMap,hvalue,⟨_,_,hposted⟩,hentry,hmay⟩ := hs.signing.inv.shown reader e he
  obtain ⟨author',text,id,hposted',hjob⟩ := hs.issuing.stored hvalue
  obtain rfl := hposted.unique hposted'
  exact ⟨author,text,id,tweetId,tweetMap,hvalue,hentry,hposted',hjob,hmay⟩

/-- Every entry of a timeline is that of a stored tweet, with the text that its author has
called `tweet` with; the author is the reader or one whom a follow in this run names for him. -/
theorem timeline_authors (es : List Event) (s : State)
    (h : Runs.Reaches machine.step Publishes State.empty es s) (reader : JString) (hreader : reader ≠ [])
    (e : JString) (he : e ∈ s.world.timeline reader) :
    ∃ author text id tweetId tweetMap, (s.world.store .tweets).value tweetId = some tweetMap ∧
      e = entry tweetId tweetMap ∧ PostedBy author text id tweetId tweetMap ∧
      Event.start (.tweet author text id) ∈ es ∧ (reader = author ∨ FollowsAs (startedIn es) reader author) := by
  obtain ⟨author,text,id,tweetId,tweetMap,hvalue,hentry,hposted,hjob,hmay⟩ := (signing_of_publishes h).authors he
  have hstart := tweet_started (h.mono fun _ _ hc => hc.1) hjob
  exact ⟨author,text,id,tweetId,tweetMap,hvalue,hentry,hposted,hstart,hmay.imp_right (Or.resolve_left · hreader)⟩

theorem timeline_authors_two_users : ∃ s : State, Runs.Reaches machine.step Publishes State.empty tweetAndFollow s ∧
    s.world.timeline ['b'] = [['a','-','1',':','5']] ∧
    ∃ author text id tweetId tweetMap, (s.world.store .tweets).value tweetId = some tweetMap ∧
      ['a','-','1',':','5'] = entry tweetId tweetMap ∧ PostedBy author text id tweetId tweetMap ∧
      Event.start (.tweet author text id) ∈ tweetAndFollow ∧
      (['b'] = author ∨ FollowsAs (startedIn tweetAndFollow) ['b'] author) := by
  have hrun : ((Runs.runIf machine.step Publishes tweetAndFollow State.empty).map fun s =>
      s.world.timeline ['b']) = some [['a','-','1',':','5']] := by decide +kernel
  obtain ⟨s,hs,hp⟩ := Option.map_eq_some_iff.mp hrun
  have h := Runs.reaches_of_runIf .start hs
  refine ⟨s,h,hp,timeline_authors tweetAndFollow s h ['b'] (by simp) _ ?_⟩
  simp [hp]

end TweetService
end Bigbird
