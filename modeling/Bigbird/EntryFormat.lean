import Bigbird.Accounts
import Bigbird.FollowCommands
import Bigbird.FollowedAuthors
import Bigbird.FriendsTimeline

/-! The format of the entries of a timeline, which two commands write and which is taken apart
again wherever a timeline is changed or shown. -/
namespace Bigbird
namespace TweetService

open JavaText VersionedStore Programs

section Format

def Decodes (tweetId : JString) (date : ℤ) (e : JString) : Prop :=
  (split ':' e).head? = some tweetId ∧ timelineDate e = .ok date

instance (tweetId : JString) (date : ℤ) (e : JString) : Decidable (Decodes tweetId date e) := by
  unfold Decodes
  infer_instance

theorem colon_not_mem_decimal (n : ℤ) : ':' ∉ decimal n := not_mem_decimal (by decide) (by decide) n

theorem colon_not_mem_tweetKey {user : JString} {n : ℤ} : ':' ∉ tweetKey user n ↔ ':' ∉ user := by
  simp [tweetKey,colon_not_mem_decimal n]

variable {tweetId user : JString} {d n : ℤ}

theorem decodes_iff (hd : -2^63 ≤ d ∧ d < 2^63) :
    Decodes tweetId d (tweetId ++ ':'::decimal d) ↔ ':' ∉ tweetId := by
  constructor
  · rintro ⟨hhead,_⟩
    exact not_mem_of_mem_split (List.mem_of_head? hhead)
  · intro hid
    have hsplit := split_append_cons hid (colon_not_mem_decimal d) (decimal_ne_nil d)
    have hparse : parse 64 (decimal d) = some d := parse_decimal hd
    refine ⟨by rw [hsplit]; rfl,?_⟩
    simp only [timelineDate,hsplit,hparse]

theorem entry_eq {tweetMap : TweetMap} (h : tweetMap.date = some (decimal d)) (tweetId : JString) :
    entry tweetId tweetMap = tweetId ++ ':'::decimal d := by
  rw [entry,h]
  rfl

theorem Tweet.entry_eq {t : Tweet} (h : t.id = some tweetId) : t.entry = tweetId ++ ':'::decimal t.date := by
  rw [Tweet.entry,h]
  rfl

def Readable (timeline : List JString) : Prop := ∀ e ∈ timeline, ∃ tweetId date, Decodes tweetId date e

theorem Decodes.dated {e : JString} (h : Decodes tweetId d e) : (timelineDate e).toOption.isSome := by
  rw [h.2]
  rfl

theorem Decodes.split {e : JString} (h : Decodes tweetId d e) : ∃ id rest, split ':' e = id::rest := by
  cases hsplit : JavaText.split ':' e with
  | nil => simp [Decodes,hsplit] at h
  | cons id rest => exact ⟨id,rest,rfl⟩

variable {timeline : List JString}

theorem Readable.insertTweet (h : Readable timeline) {tweetMap : TweetMap} (hdated : tweetMap.Dated)
    (tweetId : JString) : ∃ list, insertTweet tweetId tweetMap timeline = .ok list := by
  refine insertTweet_ok hdated (fun e he => ?_) tweetId
  obtain ⟨_,_,hdecodes⟩ := h e (List.mem_of_head? he)
  exact hdecodes.dated

theorem Readable.startBackfill (h : Readable timeline) {tweets : List Tweet}
    (htweets : ∀ t ∈ tweets, ∃ tweetId date, Decodes tweetId date t.entry) (i : ℕ) :
    ∃ list, startBackfill tweets timeline i = .ok list := by
  refine startBackfill_ok (fun e he => ?_) (fun t ht => ?_) i
  · obtain ⟨_,_,hdecodes⟩ := h e he
    exact hdecodes.dated
  · obtain ⟨_,_,hdecodes⟩ := htweets t ht
    exact hdecodes.dated

theorem Readable.stopFilter (h : Readable timeline) (toStopUser : JString) :
    ∃ list, stopFilter toStopUser timeline = .ok list := by
  obtain ⟨list,hlist,_⟩ := stopFilter_ok toStopUser fun e he => by
    obtain ⟨_,_,hdecodes⟩ := h e he
    exact hdecodes.split
  exact ⟨list,hlist⟩

theorem Readable.retrieve (h : Readable timeline) {w : World} (hdated : w.AllDated) {e : JString} (he : e ∈ timeline) :
    ∃ tweet, w.read (retrieve e) = .ok tweet := by
  obtain ⟨id,_,hhead,_⟩ := h e he
  rw [TweetService.retrieve,hhead,orThrow_some,read_getValue]
  cases hvalue : (w.store .tweets).value id with
  | none => exact ⟨none,rfl⟩
  | some tweetMap =>
    obtain ⟨date,hdate⟩ := Option.isSome_iff_exists.mp (hdated id tweetMap hvalue)
    refine ⟨some ⟨date,tweetMap.text,tweetMap.user,some id⟩,?_⟩
    change w.read (some <$> toTweet tweetMap id) = _
    rw [toTweet,hdate]
    rfl

end Format

section Register

structure WebUser where
  username : JString
  password : Option JString
  name : Option JString
  deriving DecidableEq

/-- The response that `register` builds for an empty field, and that it does not return. -/
def checkEmpty (field : Option JString) : Option ℕ := if field.getD [] = [] then some 400 else none

/-- `register` of a request; the responses to its checks are dropped. -/
def WebUser.register : Option WebUser → Client ℕ
  | none => .throw .nullPointer
  | some req => do
    let _ ← pure (checkEmpty (some req.username))
    let _ ← pure (checkEmpty req.password)
    let _ ← pure (checkEmpty req.name)
    Prog.andThen (newUser ⟨req.username,req.password,req.name⟩) fun r => liftExcept (TweetService.register r)

variable {order : List JString → List JString} {w : World}

theorem call_putIfNotObsolete_returns (order : List JString → List JString) (t : Job → World → World) (job : Job)
    (w : World) (n : StoreName) (key : JString) (x : Versioned (Val n)) :
    ∃ stored w', call order t job (.putIfNotObsolete n key x) w = (.ok stored,w') := by
  by_cases h : x.version = (w.store n key).length
  · exact ⟨true,_,call_putIfNotObsolete order t job w h⟩
  · refine ⟨false,w.log job (.putIfNotObsolete n key x) (.ok false),?_⟩
    simp [call,Op.choice,exec,Op.answer,Op.task,h,World.log]

theorem register_accepts (order : List JString → List JString) (job : Job) (w : World) (req : WebUser) :
    (runAlone order job (WebUser.register (some req)) w).1 = .ok 200 := by
  let answer := call order (runTask order) job
  have hnew : ∃ w', (newUser ⟨req.username,req.password,req.name⟩).eval answer w = (.ok (),w') := by
    let userMap : UserMap := {
      username := some req.username, password := req.password, name := req.name
      created := some (decimal 0), lastTweet := some (decimal 0) }
    let w₁ := w.log job .now (.ok 0)
    obtain ⟨stored,w₂,hput⟩ := call_putIfNotObsolete_returns order (runTask order) job w₁ .users req.username
      ⟨userMap,0⟩
    refine ⟨w₂,?_⟩
    rw [newUser,Prog.eval_bind,Prog.eval_op]
    change (applyUpdate (putIfNotObsolete .users req.username ⟨userMap,0⟩) >>= fun success => _).eval _ w₁ = _
    have heval : (putIfNotObsolete .users req.username ⟨userMap,0⟩).eval answer w₁ = (.ok stored,w₂) := by
      rw [putIfNotObsolete,Prog.eval_op]
      exact hput
    rw [Prog.eval_bind,applyUpdate,Prog.eval_retry_ok heval 2]
    rfl
  obtain ⟨w',hnew⟩ := hnew
  change ((Prog.andThen (newUser ⟨req.username,req.password,req.name⟩) _).eval answer w).1 = _
  rw [Prog.eval_andThen,hnew]
  rfl

end Register

section Decoding

/-- The entries of a user's tweets are read back, by each reader and with both writers, exactly
if the name is free of the separator; and what is read back lets nothing fail. -/
theorem entry_decodes_iff (user : JString) (n : ℕ) (date : ℤ) (hdate : -2^63 ≤ date ∧ date < 2^63) (tweetMap : TweetMap)
    (hmap : tweetMap.date = some (decimal date)) (tweet : Tweet) (hid : tweet.id = some (tweetKey user n))
    (htweet : tweet.date = date) :
    (Decodes (tweetKey user n) date (entry (tweetKey user n) tweetMap) ↔ ':' ∉ user) ∧
    (Decodes (tweetKey user n) date tweet.entry ↔ ':' ∉ user) ∧
    (∀ order job w password name, (runAlone order job (WebUser.register (some ⟨user,password,name⟩)) w).1 = .ok 200) ∧
    ∀ timeline, Readable timeline →
      (∀ tweetId' tweetMap', tweetMap'.Dated → ∃ list, insertTweet tweetId' tweetMap' timeline = .ok list) ∧
      (∀ tweets i, (∀ t ∈ tweets, ∃ tweetId' date', Decodes tweetId' date' t.entry) →
        ∃ list, startBackfill tweets timeline i = .ok list) ∧
      (∀ toStopUser, ∃ list, stopFilter toStopUser timeline = .ok list) ∧
      ∀ w : World, w.AllDated → ∀ e ∈ timeline, ∃ retrieved, w.read (retrieve e) = .ok retrieved := by
  subst htweet
  have hiff : Decodes (tweetKey user n) tweet.date (tweetKey user n ++ ':'::decimal tweet.date) ↔ ':' ∉ user :=
    (decodes_iff hdate).trans colon_not_mem_tweetKey
  refine ⟨by rwa [entry_eq hmap],by rwa [Tweet.entry_eq hid],?_,fun timeline h => ?_⟩
  · exact fun order job w password name => register_accepts order job w ⟨user,password,name⟩
  · exact ⟨fun tweetId' tweetMap' hdated => h.insertTweet hdated tweetId',
      fun tweets i htweets => h.startBackfill htweets i,fun toStopUser => h.stopFilter toStopUser,
      fun w hdated e he => h.retrieve hdated he⟩

theorem entry_decodes_a1 :
    Decodes ['a','-','1'] 5 ['a','-','1',':','5'] ∧ ':' ∉ ['a'] :=
  have h := entry_decodes_iff ['a'] 1 5 (by decide) ⟨some ['5'],none,none,none⟩ rfl ⟨5,none,none,some ['a','-','1']⟩
    rfl rfl
  ⟨h.1.mpr (by decide),by decide⟩

/-- The first tweet of `a:b` makes the next insertion fail. -/
theorem entry_of_colon_name :
    (runAlone id (.newUser ⟨['a',':','b'],some ['p'],some ['n']⟩) (WebUser.register (some ⟨['a',':','b'],some ['p'],some ['n']⟩))
      ⟨fun _ _ => [],[]⟩).1 = .ok 200 ∧
    insertTweet (tweetKey ['a',':','b'] 1) ⟨some (decimal 5),none,none,none⟩ [] = .ok [['a',':','b','-','1',':','5']] ∧
    ¬ Decodes (tweetKey ['a',':','b'] 1) 5 ['a',':','b','-','1',':','5'] ∧
    insertTweet ['c','-','1'] ⟨some (decimal 6),none,none,none⟩ [['a',':','b','-','1',':','5']] =
      .error .numberFormat := by
  refine ⟨register_accepts _ _ _ _,by decide,by decide,by decide⟩

end Decoding

section Unfollow

structure Post where
  author : JString
  number : ℤ
  date : ℤ
  deriving DecidableEq

def Post.entry (p : Post) : JString := tweetKey p.author p.number ++ ':'::decimal p.date

/-- The prefix test of a `StopFollowingCommand`. -/
def Post.Removed (toStopUser : JString) (p : Post) : Prop := (toStopUser ++ ['-']) <+: tweetKey p.author p.number

instance (toStopUser : JString) (p : Post) : Decidable (p.Removed toStopUser) := by
  unfold Post.Removed
  infer_instance

theorem stopFilter_posts (toStopUser : JString) {posts : List Post} (hnames : ∀ p ∈ posts, ':' ∉ p.author) :
    stopFilter toStopUser (posts.map Post.entry) =
      .ok ((posts.filter fun p => ¬ p.Removed toStopUser).map Post.entry) := by
  induction posts with
  | nil => rfl
  | cons p posts ih =>
    obtain ⟨hp,hposts⟩ := List.forall_mem_cons.mp hnames
    have hsplit : split ':' p.entry = [tweetKey p.author p.number,decimal p.date] :=
      split_append_cons (colon_not_mem_tweetKey.mpr hp) (colon_not_mem_decimal p.date) (decimal_ne_nil p.date)
    rw [List.map_cons,stopFilter,hsplit]
    dsimp only
    rw [ih hposts,List.filter_cons]
    dsimp only
    by_cases hremoved : p.Removed toStopUser
    · rw [if_pos (show (toStopUser ++ ['-']) <+: tweetKey p.author p.number from hremoved)]
      simp [hremoved]
    · rw [if_neg (show ¬ (toStopUser ++ ['-']) <+: tweetKey p.author p.number from hremoved)]
      simp [hremoved]

theorem decimal_eq_dash {n : ℤ} {a b : JString} (h : decimal n = a ++ '-'::b) : n < 0 ∧ a = [] := by
  rw [decimal] at h
  split at h
  · rename_i hn
    refine ⟨hn,?_⟩
    cases a with
    | nil => rfl
    | cons c a =>
      have hmem : '-' ∈ Nat.toDigits 10 n.natAbs := by rw [(List.cons.inj h).2]; simp
      exact absurd hmem (dash_not_mem_toDigits _)
  · have hmem : '-' ∈ Nat.toDigits 10 n.natAbs := by rw [h]; simp
    exact absurd hmem (dash_not_mem_toDigits _)

/-- Which tweets fall under the prefix test: those of the user, those of a user whose name goes on
with a dash, and those with a negative number if the name is the author's with a dash. -/
theorem removed_iff {toStopUser : JString} {p : Post} : p.Removed toStopUser ↔
    p.author = toStopUser ∨ (toStopUser ++ ['-']) <+: p.author ∨ p.number < 0 ∧ toStopUser = p.author ++ ['-'] := by
  rw [Post.Removed,tweetKey]
  constructor
  · rintro ⟨t,ht⟩
    rcases List.append_eq_append_iff.mp ht with ⟨c,hauthor,_⟩ | ⟨c,hv,hd⟩
    · exact Or.inr (Or.inl ⟨c,hauthor.symm⟩)
    · cases c with
      | nil => exact Or.inr (Or.inl ⟨[],by simpa using hv⟩)
      | cons c cs =>
        obtain ⟨rfl,hnumber⟩ := List.cons.inj hd
        rcases List.eq_nil_or_concat' cs with rfl | ⟨cs,c,rfl⟩
        · exact Or.inl (List.append_cancel_right hv).symm
        · have hv' : toStopUser ++ ['-'] = (p.author ++ '-'::cs) ++ [c] := by simpa using hv
          obtain ⟨hname,hc⟩ := List.append_inj' hv' rfl
          obtain rfl : '-' = c := by simpa using hc
          obtain ⟨hn,rfl⟩ := decimal_eq_dash (hnumber.trans (List.append_assoc _ _ _))
          exact Or.inr (Or.inr ⟨hn,hname⟩)
  · rintro (rfl | hstarts | ⟨hn,rfl⟩)
    · exact ⟨decimal p.number,by simp⟩
    · exact hstarts.trans (List.prefix_append _ _)
    · refine ⟨Nat.toDigits 10 p.number.natAbs,?_⟩
      rw [decimal,if_pos hn]
      simp

/-- An unfollow removes exactly the author's entries if no other name in the timeline goes on from
the author's with a dash. -/
theorem unfollow_author_iff (order : List JString → List JString) (horder : ∀ l, (order l).Perm l) (w : World)
    (u v : JString) (hu : ((w.store .users).value u).isSome) (hv : ((w.store .users).value v).isSome)
    (posts : List Post) (hnames : ∀ p ∈ posts, ':' ∉ p.author) (htimeline : w.timeline u = posts.map Post.entry) :
    (execution order w (.stopFollowing u v)).timeline u = (posts.filter fun p => p.author ≠ v).map Post.entry ↔
      ∀ p ∈ posts, p.author ≠ v → ¬ (v ++ ['-']) <+: p.author ∧ ¬ (p.number < 0 ∧ v = p.author ++ ['-']) := by
  have hfilter : stopFilter v (w.timeline u) = .ok ((posts.filter fun p => ¬ p.Removed v).map Post.entry) := by
    rw [htimeline,stopFilter_posts v hnames]
  have hkept : (posts.filter fun p => ¬ p.Removed v) =
      (posts.filter fun p => p.author ≠ v).filter fun p => ¬ p.Removed v := by
    rw [List.filter_filter]
    refine List.filter_congr fun p _ => ?_
    have hauthor : p.author = v → p.Removed v := fun h => removed_iff.mpr (Or.inl h)
    by_cases hremoved : p.Removed v
    · simp [hremoved]
    · simp [hremoved,mt hauthor hremoved]
  rw [timeline_stopFollowing horder hu hv hfilter,hkept]
  constructor
  · intro h p hp hne
    have hlength := congrArg List.length h
    rw [List.length_map,List.length_map,List.length_filter_eq_length_iff] at hlength
    have hnot := hlength p (List.mem_filter.mpr ⟨hp,by simpa using hne⟩)
    rw [decide_eq_true_eq,removed_iff] at hnot
    exact ⟨fun hstarts => hnot (Or.inr (Or.inl hstarts)),fun hn => hnot (Or.inr (Or.inr hn))⟩
  · intro h
    congr 1
    refine List.filter_eq_self.mpr fun p hp => ?_
    obtain ⟨hmem,hne⟩ := List.mem_filter.mp hp
    obtain ⟨hstarts,hnegative⟩ := h p hmem (by simpa using hne)
    rw [decide_eq_true_eq,removed_iff]
    rintro (hauthor | h | h)
    · exact absurd hauthor (by simpa using hne)
    · exact hstarts h
    · exact hnegative h

def dashPosts : List Post := [⟨['b'],1,6⟩,⟨['b','-','c'],1,5⟩]

def dashUsers : World where
  store
    | .users => fun user => if user = ['a'] ∨ user = ['b'] ∨ user = ['b','-','c'] then [{}] else []
    | .tweets => fun _ => []
    | .friendsTimeline => Function.update (fun _ => []) ['a'] [dashPosts.map Post.entry]
  history := []

theorem dashUsers_timeline : dashUsers.timeline ['a'] = dashPosts.map Post.entry := rfl

theorem unfollow_author_dashUsers :
    ((execution id dashUsers (.stopFollowing ['a'] ['b','-','c'])).timeline ['a'] =
      (dashPosts.filter fun p => p.author ≠ ['b','-','c']).map Post.entry) ∧ ∀ p ∈ dashPosts, ':' ∉ p.author :=
  ⟨(unfollow_author_iff id (fun _ => List.Perm.refl _) dashUsers ['a'] ['b','-','c'] rfl rfl dashPosts (by decide)
    dashUsers_timeline).mpr (by decide),by decide⟩

/-- Whoever stops following `b` no longer sees the tweets of `b-c`. -/
theorem unfollow_removes_other : (∀ p ∈ dashPosts, ':' ∉ p.author ∧ Proper p.author) ∧
    (execution id dashUsers (.stopFollowing ['a'] ['b'])).timeline ['a'] ≠
      (dashPosts.filter fun p => p.author ≠ ['b']).map Post.entry := by
  have hlist : stopFilter ['b'] (dashUsers.timeline ['a']) = .ok [] := by decide
  refine ⟨by decide,?_⟩
  rw [@timeline_stopFollowing id dashUsers ['a'] ['b'] (fun _ => List.Perm.refl _) [] rfl rfl hlist]
  decide

end Unfollow

end TweetService
end Bigbird
