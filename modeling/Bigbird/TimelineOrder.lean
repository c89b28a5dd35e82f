import Bigbird.CursorMerge
import Bigbird.EntryFormat

/-! The order of the entries of a timeline: what a new tweet and the merge of a follow make of
it. Entries are compared by the dates that they were written with. -/
namespace Bigbird
namespace TweetService

open JavaText CursorMerge

section Insert

variable {date : JString → ℤ} {timeline : List JString} {tweetId : JString} {tweetMap : TweetMap} {d : ℤ}

/-- Each comparison is with the first entry, so that they all have one outcome. -/
theorem insertTweetLoop_cons {timelineId e : JString} {k : ℤ} (he : timelineDate e = .ok k) (n i : ℕ) :
    insertTweetLoop timelineId d (e::timeline) (n+1) i =
      .ok (if k < d then (e::timeline).insertIdx i timelineId else e::timeline ++ [timelineId]) := by
  induction n generalizing i with
  | zero =>
    simp only [insertTweetLoop,he]
    split <;> rfl
  | succ n ih =>
    rw [insertTweetLoop,he]
    dsimp only
    split
    · rfl
    · rename_i hk
      rw [ih,if_neg hk]

theorem insertTweet_cons {e : JString} {k : ℤ} (he : timelineDate e = .ok k) (hd : parseLong tweetMap.date = some d) :
    insertTweet tweetId tweetMap (e::timeline) =
      .ok (if k < d then entry tweetId tweetMap::e::timeline else e::timeline ++ [entry tweetId tweetMap]) := by
  obtain ⟨dateStr,hdateStr,hparse⟩ := Option.bind_eq_some_iff.mp hd
  have hentry : entry tweetId tweetMap = tweetId ++ ':'::dateStr := by rw [entry,hdateStr]; rfl
  rw [insertTweet,hdateStr]
  dsimp only
  rw [hparse]
  dsimp only
  rw [List.length_cons,insertTweetLoop_cons he,hentry]
  rfl

theorem insertTweet_nil (hd : parseLong tweetMap.date = some d) :
    insertTweet tweetId tweetMap [] = .ok [entry tweetId tweetMap] := by
  obtain ⟨dateStr,hdateStr,hparse⟩ := Option.bind_eq_some_iff.mp hd
  have hentry : entry tweetId tweetMap = tweetId ++ ':'::dateStr := by rw [entry,hdateStr]; rfl
  rw [insertTweet,hdateStr,hentry]
  dsimp only
  rw [hparse]
  rfl

/-- A tweet is inserted at its place exactly if it is newer than all entries or than none. -/
theorem insertTweet_ordered_iff (hdated : ∀ e ∈ timeline, timelineDate e = .ok (date e))
    (hsorted : Descending date timeline) (hd : parseLong tweetMap.date = some d)
    (hnew : date (entry tweetId tweetMap) = d) :
    (∃ newer older, timeline = newer ++ older ∧
      insertTweet tweetId tweetMap timeline = .ok (newer ++ entry tweetId tweetMap::older) ∧
      Descending date (newer ++ entry tweetId tweetMap::older)) ↔
      (∀ e ∈ timeline, date e < d) ∨ ∀ e ∈ timeline, d ≤ date e := by
  cases timeline with
  | nil =>
    refine ⟨fun _ => Or.inl (by simp),fun _ => ⟨[],[],rfl,insertTweet_nil hd,List.pairwise_singleton _ _⟩⟩
  | cons e timeline =>
    have hhead := (descending_cons.mp hsorted).1
    rw [insertTweet_cons (hdated e List.mem_cons_self) hd]
    by_cases hlt : date e < d
    · rw [if_pos hlt]
      have hall : ∀ e' ∈ e::timeline, date e' < d :=
        List.forall_mem_cons.mpr ⟨hlt,fun e' he' => (hhead e' he').trans_lt hlt⟩
      refine ⟨fun _ => Or.inl hall,fun _ => ⟨[],e::timeline,rfl,rfl,?_⟩⟩
      refine descending_cons.mpr ⟨fun e' he' => ?_,hsorted⟩
      rw [hnew]
      exact (hall e' he').le
    · rw [if_neg hlt]
      constructor
      · rintro ⟨newer,older,hsplit,hlist,hdesc⟩
        rw [← Except.ok.inj hlist] at hdesc
        obtain ⟨_,_,hacross⟩ := descending_append.mp hdesc
        refine Or.inr fun e' he' => ?_
        rw [← hnew]
        exact hacross e' he' _ (by simp)
      · rintro (hall | hall)
        · exact absurd (hall e List.mem_cons_self) hlt
        · refine ⟨e::timeline,[],by simp,rfl,descending_append.mpr ⟨hsorted,List.pairwise_singleton _ _,?_⟩⟩
          intro e' he' b hb
          obtain rfl := List.mem_singleton.mp hb
          rw [hnew]
          exact hall e' he'

/-- The dates that well-formed entries were written with. -/
def writtenDate (e : JString) : ℤ := (timelineDate e).toOption.getD 0

theorem insertTweet_ordered_oldest :
    ∃ newer older, [['a','-','3',':','9'],['a','-','2',':','6'],['a','-','1',':','2']] = newer ++ older ∧
      insertTweet ['b','-','1'] ⟨some ['2'],none,none,none⟩
        [['a','-','3',':','9'],['a','-','2',':','6'],['a','-','1',':','2']] =
          .ok (newer ++ ['b','-','1',':','2']::older) ∧ Descending writtenDate (newer ++ ['b','-','1',':','2']::older) := by
  have hsorted : Descending writtenDate [['a','-','3',':','9'],['a','-','2',':','6'],['a','-','1',':','2']] := by
    unfold Descending
    decide
  exact (@insertTweet_ordered_iff writtenDate _ ['b','-','1'] ⟨some ['2'],none,none,none⟩ 2 (by decide) hsorted
    (by decide) (by decide)).mpr (by decide)

/-- Behind a newest tweet that is newer, a tweet goes to the end. -/
theorem insertTweet_between : Descending writtenDate [['a','-','2',':','2','0'],['a','-','1',':','1','0']] ∧
    insertTweet ['b','-','1'] ⟨some ['1','5'],none,none,none⟩ [['a','-','2',':','2','0'],['a','-','1',':','1','0']] =
      .ok [['a','-','2',':','2','0'],['a','-','1',':','1','0'],['b','-','1',':','1','5']] ∧
    ¬ Descending writtenDate [['a','-','2',':','2','0'],['a','-','1',':','1','0'],['b','-','1',':','1','5']] := by
  refine ⟨?_,by decide,?_⟩
  · unfold Descending
    decide
  · unfold Descending
    decide

end Insert

section Backfill

def newTweets : List Tweet → List JString → List Tweet
  | [], _ => []
  | tweet::tweets, timeline =>
    if tweet.entry ∈ timeline then newTweets tweets timeline
    else tweet::newTweets tweets (tweet.entry::timeline)

/-- The entries that a follow adds, with the dates that it compares. -/
def additions (tweets : List Tweet) (timeline : List JString) : List (JString × ℤ) :=
  (newTweets tweets timeline).map fun tweet => (tweet.entry,tweet.date)

theorem newTweets_congr {timeline timeline' : List JString} (h : ∀ e, e ∈ timeline ↔ e ∈ timeline')
    (tweets : List Tweet) : newTweets tweets timeline = newTweets tweets timeline' := by
  induction tweets generalizing timeline timeline' with
  | nil => rfl
  | cons tweet tweets ih =>
    have hcons : ∀ e, e ∈ tweet.entry::timeline ↔ e ∈ tweet.entry::timeline' :=
      fun e => by rw [List.mem_cons,List.mem_cons,h]
    simp only [newTweets,h,ih h,ih hcons]

theorem insertIdx_length_append (a r : List JString) (e : JString) :
    (a ++ r).insertIdx a.length e = a ++ e::r := by
  induction a with
  | nil => rfl
  | cons b a ih => rw [List.cons_append,List.length_cons,List.insertIdx_succ_cons,ih,List.cons_append]

variable {timelineId : JString} {d : ℤ} {a p q : List JString}

theorem startScan_passed (hp : ∀ e ∈ p, Passed timelineDate d e) (hmax : a.length + p.length ≤ maxTweetsInTimeline)
    (n : ℕ) : startScan timelineId d (a ++ (p ++ q)) (n + p.length) a.length =
      startScan timelineId d (a ++ (p ++ q)) n (a.length + p.length) := by
  induction p generalizing a with
  | nil => rfl
  | cons e p ih =>
    obtain ⟨⟨k,hk,hle⟩,hp⟩ := List.forall_mem_cons.mp hp
    rw [List.length_cons] at hmax
    have hget : (a ++ (e::p ++ q))[a.length]? = some e := by simp
    have hshift : a ++ (e::p ++ q) = (a ++ [e]) ++ (p ++ q) := by simp
    have hnext := ih (a:=a ++ [e]) hp (by rw [List.length_append,List.length_singleton]; omega)
    rw [List.length_append,List.length_singleton,← hshift] at hnext
    rw [List.length_cons,← Nat.add_assoc,startScan,hget]
    dsimp only
    rw [if_pos (by omega),hk]
    dsimp only
    rw [if_neg (by omega),hnext,Nat.add_assoc,Nat.add_comm 1]

theorem startScan_end (hp : ∀ e ∈ p, Passed timelineDate d e) (hmax : a.length + p.length ≤ maxTweetsInTimeline)
    (n : ℕ) : startScan timelineId d (a ++ p) (n + p.length) a.length = .ok (a ++ p,(a ++ p).length) := by
  have hscan := @startScan_passed timelineId d a p [] hp hmax n
  rw [List.append_nil] at hscan
  rw [hscan,List.length_append]
  cases n with
  | zero => rfl
  | succ n =>
    rw [startScan,List.getElem?_eq_none (by simp)]

theorem startScan_insert {b : JString} {k : ℤ} (hp : ∀ e ∈ p, Passed timelineDate d e)
    (hmax : a.length + p.length < maxTweetsInTimeline) (hb : timelineDate b = .ok k) (hk : d < k) (n : ℕ) :
    startScan timelineId d (a ++ (p ++ b::q)) (n + 1 + p.length) a.length =
      .ok ((a ++ p ++ [timelineId]) ++ b::q,(a ++ p ++ [timelineId]).length) := by
  have hget : (a ++ (p ++ b::q))[a.length + p.length]? = some b := by
    rw [← List.append_assoc,List.getElem?_append_right (by simp)]
    simp
  have hinsert : (a ++ (p ++ b::q)).insertIdx (a.length + p.length) timelineId =
      (a ++ p ++ [timelineId]) ++ b::q := by
    rw [← List.append_assoc,← List.length_append,insertIdx_length_append,List.append_assoc _ [timelineId]]
    rfl
  rw [startScan_passed hp (by omega),startScan,hget]
  dsimp only
  rw [if_pos hmax,hb]
  dsimp only
  rw [if_pos hk,hinsert,List.length_append,List.length_append,List.length_singleton]

theorem startScan_unreadable {b : JString} {x : Exn} (hp : ∀ e ∈ p, Passed timelineDate d e)
    (hmax : a.length + p.length < maxTweetsInTimeline) (hb : timelineDate b = .error x) (n : ℕ) :
    startScan timelineId d (a ++ (p ++ b::q)) (n + 1 + p.length) a.length = .error x := by
  have hget : (a ++ (p ++ b::q))[a.length + p.length]? = some b := by
    rw [← List.append_assoc,List.getElem?_append_right (by simp)]
    simp
  rw [startScan_passed hp (by omega),startScan,hget]
  dsimp only
  rw [if_pos hmax,hb]

theorem startBackfill_append {tweet : Tweet} {tweets : List Tweet} {l : List JString} (hmem : tweet.entry ∉ a ++ l)
    (hall : ∀ e ∈ l, Passed timelineDate tweet.date e) (hmax : (a ++ l).length < maxTweetsInTimeline) :
    startBackfill (tweet::tweets) (a ++ l) a.length =
      startBackfill tweets ((a ++ l) ++ [tweet.entry]) (a ++ l).length := by
  have hscan := @startScan_end tweet.entry tweet.date a l hall (by rw [← List.length_append]; omega) a.length
  rw [← List.length_append] at hscan
  rw [startBackfill_missing hmem hscan,if_neg (by omega),if_pos rfl]

theorem startBackfill_insert {tweet : Tweet} {tweets : List Tweet} {b : JString} {k : ℤ}
    (hmem : tweet.entry ∉ a ++ (p ++ b::q)) (hp : ∀ e ∈ p, Passed timelineDate tweet.date e)
    (hb : timelineDate b = .ok k) (hk : tweet.date < k) (hmax : (a ++ (p ++ b::q)).length < maxTweetsInTimeline) :
    startBackfill (tweet::tweets) (a ++ (p ++ b::q)) a.length =
      startBackfill tweets ((a ++ p ++ [tweet.entry]) ++ b::q) (a ++ p ++ [tweet.entry]).length := by
  have hlength : (a ++ (p ++ b::q)).length = a.length + q.length + 1 + p.length := by
    simp only [List.length_append,List.length_cons]
    omega
  have hscan := @startScan_insert tweet.entry tweet.date a p q b k hp (by omega) hb hk (a.length + q.length)
  rw [← hlength] at hscan
  have hcap : (a ++ p ++ [tweet.entry]).length ≠ maxTweetsInTimeline := by
    simp only [List.length_append,List.length_singleton]
    omega
  rw [startBackfill_missing hmem hscan,if_neg hcap,if_neg (by simp)]

theorem startBackfill_unreadable {tweet : Tweet} {tweets : List Tweet} {b : JString} {x : Exn}
    (hmem : tweet.entry ∉ a ++ (p ++ b::q)) (hp : ∀ e ∈ p, Passed timelineDate tweet.date e)
    (hb : timelineDate b = .error x) (hmax : (a ++ (p ++ b::q)).length < maxTweetsInTimeline) :
    startBackfill (tweet::tweets) (a ++ (p ++ b::q)) a.length = .error x := by
  have hlength : (a ++ (p ++ b::q)).length = a.length + q.length + 1 + p.length := by
    simp only [List.length_append,List.length_cons]
    omega
  have hscan := @startScan_unreadable tweet.entry tweet.date a p q b x hp (by omega) hb (a.length + q.length)
  exact startBackfill_error_of_scan hmem (hlength ▸ hscan)

/-- The loop of a follow merges the entries from its cursor on, as long as there is room. -/
theorem startBackfill_iff_merges {tweets : List Tweet} {a l list : List JString}
    (hroom : (a ++ l).length + (newTweets tweets (a ++ l)).length ≤ maxTweetsInTimeline) :
    startBackfill tweets (a ++ l) a.length = .ok list ↔
      ∃ r, Merges timelineDate (additions tweets (a ++ l)) l r ∧ list = a ++ r := by
  induction tweets generalizing a l with
  | nil =>
    constructor
    · intro h
      cases h
      exact ⟨l,.done,rfl⟩
    · rintro ⟨r,hr,rfl⟩
      cases hr
      rfl
  | cons tweet tweets ih =>
    by_cases hmem : tweet.entry ∈ a ++ l
    · have hnew : newTweets (tweet::tweets) (a ++ l) = newTweets tweets (a ++ l) := by rw [newTweets,if_pos hmem]
      rw [hnew] at hroom
      rw [startBackfill_known hmem,additions,hnew]
      exact ih hroom
    · have hnew : newTweets (tweet::tweets) (a ++ l) = tweet::newTweets tweets (tweet.entry::(a ++ l)) := by
        rw [newTweets,if_neg hmem]
      have hadd : additions (tweet::tweets) (a ++ l) =
          (tweet.entry,tweet.date)::additions tweets (tweet.entry::(a ++ l)) := by
        rw [additions,hnew]
        rfl
      rw [hnew,List.length_cons] at hroom
      rw [hadd]
      -- After the round the cursor is behind `a'`, and the entry is in `a' ++ l'`.
      have hnext {a' l' : List JString} (hperm : (a' ++ l').Perm (tweet.entry::(a ++ l))) :
          startBackfill tweets (a' ++ l') a'.length = .ok list ↔
            ∃ r, Merges timelineDate (additions tweets (tweet.entry::(a ++ l))) l' r ∧ list = a' ++ r := by
        have hcongr := newTweets_congr (fun e => hperm.mem_iff) tweets
        have hsame : additions tweets (a' ++ l') = additions tweets (tweet.entry::(a ++ l)) := by
          rw [additions,additions,hcongr]
        rw [← hsame]
        refine ih ?_
        rw [hcongr,hperm.length_eq,List.length_cons]
        omega
      rcases passed_cases timelineDate tweet.date l with hall | ⟨p,b,q,rfl,hp,⟨k,hb,hk⟩ | ⟨x,hb⟩⟩
      · rw [startBackfill_append hmem hall (by omega),hnext (List.perm_append_singleton _ _)]
        simp only [merges_append_iff hall]
        constructor
        · rintro ⟨r,hr,rfl⟩
          exact ⟨l ++ r,⟨r,hr,rfl⟩,by rw [List.append_assoc]⟩
        · rintro ⟨_,⟨r,hr,rfl⟩,rfl⟩
          exact ⟨r,hr,by rw [List.append_assoc]⟩
      · have hperm : ((a ++ p ++ [tweet.entry]) ++ b::q).Perm (tweet.entry::(a ++ (p ++ b::q))) := by
          rw [← List.append_assoc a]
          simpa using @List.perm_middle _ tweet.entry (a ++ p) (b::q)
        rw [startBackfill_insert hmem hp hb hk (by omega),hnext hperm]
        simp only [merges_insert_iff hp hb hk]
        constructor
        · rintro ⟨r,hr,rfl⟩
          exact ⟨p ++ tweet.entry::r,⟨r,hr,rfl⟩,by simp⟩
        · rintro ⟨_,⟨r,hr,rfl⟩,rfl⟩
          exact ⟨r,hr,by simp⟩
      · rw [startBackfill_unreadable hmem hp hb (by omega)]
        refine iff_of_false (by simp) ?_
        rintro ⟨r,hr,_⟩
        exact not_merges_of_error hp hb hr

theorem newTweets_sublist (tweets : List Tweet) (timeline : List JString) :
    (newTweets tweets timeline).Sublist tweets := by
  induction tweets generalizing timeline with
  | nil => exact List.Sublist.refl _
  | cons tweet tweets ih =>
    rw [newTweets]
    split
    · exact (ih timeline).cons _
    · exact (ih _).cons_cons _

theorem startBackfill_of_mem {tweets : List Tweet} {timeline : List JString} (h : ∀ t ∈ tweets, t.entry ∈ timeline)
    (i : ℕ) : startBackfill tweets timeline i = .ok timeline := by
  induction tweets with
  | nil => rfl
  | cons tweet tweets ih =>
    obtain ⟨hmem,hrest⟩ := List.forall_mem_cons.mp h
    rw [startBackfill_known hmem]
    exact ih hrest

variable {date : JString → ℤ} {timeline : List JString} {tweets : List Tweet}

theorem startBackfill_zero_iff {list : List JString}
    (hroom : timeline.length + (newTweets tweets timeline).length ≤ maxTweetsInTimeline) :
    startBackfill tweets timeline 0 = .ok list ↔ Merges timelineDate (additions tweets timeline) timeline list := by
  have hmerges := @startBackfill_iff_merges tweets [] timeline list hroom
  simpa only [List.nil_append,List.length_nil,exists_eq_right'] using hmerges

theorem additions_fst : (additions tweets timeline).map Prod.fst = (newTweets tweets timeline).map Tweet.entry := by
  rw [additions,List.map_map]
  rfl

/-- A follow keeps a timeline in its order exactly if the new tweets are aligned with it: if they
can be read, all of them have the one date that the timeline has. -/
theorem startBackfill_ordered_iff (hdated : ∀ e ∈ timeline, timelineDate e = .ok (date e))
    (hsorted : Descending date timeline) (hnew : ∀ t ∈ newTweets tweets timeline, date t.entry = t.date)
    (htweets : tweets.Pairwise fun t t' => t'.date ≤ t.date)
    (hroom : timeline.length + (newTweets tweets timeline).length ≤ maxTweetsInTimeline) :
    ((∃ list, startBackfill tweets timeline 0 = .ok list ∧
      list.Perm (timeline ++ (newTweets tweets timeline).map Tweet.entry) ∧ Descending date list) ↔
        Aligned timelineDate date timeline (additions tweets timeline)) ∧
    ((∀ t ∈ tweets, timelineDate t.entry = .ok t.date) →
      (Aligned timelineDate date timeline (additions tweets timeline) ↔ ∀ t ∈ newTweets tweets timeline,
        (∀ e ∈ timeline, date e = t.date) ∧ ∀ t' ∈ newTweets tweets timeline, t'.date = t.date)) ∧
    ∀ (order : List JString → List JString) (w : World) (u v : JString), (∀ l, (order l).Perm l) →
      w.timeline u = timeline → w.read (getRecentTweets v) = .ok tweets →
      (execution order w (.startFollowing u v)).timeline u = (startBackfill tweets timeline 0).toOption.getD timeline := by
  have hkey : ∀ x ∈ additions tweets timeline, date x.1 = x.2 := by
    intro x hx
    obtain ⟨t,ht,rfl⟩ := List.mem_map.mp hx
    exact hnew t ht
  have hxs : (additions tweets timeline).Pairwise fun x y => y.2 ≤ x.2 :=
    List.pairwise_map.mpr (htweets.sublist (newTweets_sublist tweets timeline))
  refine ⟨?_,fun hread => ?_,?_⟩
  · rw [← descending_iff_aligned hdated hsorted hkey hxs]
    constructor
    · rintro ⟨list,hlist,_,hdesc⟩
      exact ⟨list,(startBackfill_zero_iff hroom).mp hlist,hdesc⟩
    · rintro ⟨list,hmerges,hdesc⟩
      exact ⟨list,(startBackfill_zero_iff hroom).mpr hmerges,additions_fst ▸ hmerges.perm,hdesc⟩
  · have hreads : ∀ x ∈ additions tweets timeline, timelineDate x.1 = .ok x.2 := by
      intro x hx
      obtain ⟨t,ht,rfl⟩ := List.mem_map.mp hx
      exact hread t ((newTweets_sublist tweets timeline).subset ht)
    rw [aligned_iff hreads hxs]
    simp only [additions,List.forall_mem_map]
  · rintro order w u v horder rfl hread
    exact timeline_startFollowing horder hread

theorem startBackfill_ordered_tie :
    ∃ list, startBackfill [⟨5,none,none,some ['b','-','2']⟩,⟨5,none,none,some ['b','-','1']⟩]
        [['a','-','2',':','5'],['a','-','1',':','5']] 0 = .ok list ∧
      list.Perm [['a','-','2',':','5'],['a','-','1',':','5'],['b','-','2',':','5'],['b','-','1',':','5']] ∧
      Descending writtenDate list := by
  have hsorted : Descending writtenDate [['a','-','2',':','5'],['a','-','1',':','5']] := by
    unfold Descending
    decide
  have htweets : [(⟨5,none,none,some ['b','-','2']⟩ : Tweet),⟨5,none,none,some ['b','-','1']⟩].Pairwise
      fun t t' => t'.date ≤ t.date := by decide
  have h := @startBackfill_ordered_iff writtenDate _ _ (by decide) hsorted (by decide) htweets (by decide)
  exact h.1.mpr ((h.2.1 (by decide)).mpr (by decide))

/-- An older tweet of the followed user goes to the front. -/
theorem startBackfill_older_first : Descending writtenDate [['a','-','1',':','2','0']] ∧
    startBackfill [⟨10,none,none,some ['b','-','1']⟩] [['a','-','1',':','2','0']] 0 =
      .ok [['b','-','1',':','1','0'],['a','-','1',':','2','0']] ∧
    ¬ Descending writtenDate [['b','-','1',':','1','0'],['a','-','1',':','2','0']] := by
  refine ⟨List.pairwise_singleton _ _,by decide,?_⟩
  unfold Descending
  decide

theorem nodup_entries (hids : (tweets.map fun t => t.id.getD []).Nodup) : (tweets.map Tweet.entry).Nodup := by
  refine List.pairwise_map.mpr ((List.pairwise_map.mp hids).imp fun {t t'} hne heq => hne ?_)
  exact (append_cons_inj (colon_not_mem_decimal t.date) (colon_not_mem_decimal t'.date) heq).1

theorem newTweets_eq_filter (hentries : (tweets.map Tweet.entry).Nodup) (timeline : List JString) :
    newTweets tweets timeline = tweets.filter fun t => t.entry ∉ timeline := by
  induction tweets generalizing timeline with
  | nil => rfl
  | cons tweet tweets ih =>
    obtain ⟨hnot,hrest⟩ := List.nodup_cons.mp hentries
    rw [newTweets,List.filter_cons]
    by_cases hmem : tweet.entry ∈ timeline
    · rw [if_pos hmem,if_neg (by simpa using hmem),ih hrest]
    · rw [if_neg hmem,if_pos (by simpa using hmem),ih hrest]
      congr 1
      refine List.filter_congr fun t ht => ?_
      have hne : t.entry ≠ tweet.entry := fun h => hnot (h ▸ List.mem_map_of_mem ht)
      simp [hne]

/-- A follow adds what is missing, once and for all, exactly if it need not compare with an entry
of its own that cannot be read. -/
theorem startBackfill_lossless_iff (hdated : ∀ e ∈ timeline, timelineDate e = .ok (date e))
    (hids : (tweets.map fun t => t.id.getD []).Nodup)
    (hroom : timeline.length + ((tweets.map Tweet.entry).filter (· ∉ timeline)).length ≤ maxTweetsInTimeline) :
    ((∃ list, startBackfill tweets timeline 0 = .ok list ∧
      list.Perm (timeline ++ (tweets.map Tweet.entry).filter (· ∉ timeline)) ∧ timeline.Sublist list ∧
      startBackfill tweets list 0 = .ok list) ↔ Mergeable timelineDate date timeline (additions tweets timeline)) ∧
    ((∀ t ∈ tweets, ':' ∉ t.id.getD [] ∧ -2^63 ≤ t.date ∧ t.date < 2^63) →
      Mergeable timelineDate date timeline (additions tweets timeline)) ∧
    ((∀ t ∈ tweets, ∃ e, timelineDate t.entry = .error e) →
      (Mergeable timelineDate date timeline (additions tweets timeline) ↔
        Placed date timeline (additions tweets timeline))) ∧
    ∀ (order : List JString → List JString) (w : World) (u v : JString), (∀ l, (order l).Perm l) →
      w.timeline u = timeline → w.read (getRecentTweets v) = .ok tweets →
      (execution order w (.startFollowing u v)).timeline u = (startBackfill tweets timeline 0).toOption.getD timeline := by
  have hfilter : (newTweets tweets timeline).map Tweet.entry = (tweets.map Tweet.entry).filter (· ∉ timeline) := by
    rw [newTweets_eq_filter (nodup_entries hids),List.filter_map]
    rfl
  have hmem {P : JString → Prop} (h : ∀ t ∈ tweets, P t.entry) : ∀ x ∈ additions tweets timeline, P x.1 := by
    intro x hx
    obtain ⟨t,ht,rfl⟩ := List.mem_map.mp hx
    exact h t ((newTweets_sublist tweets timeline).subset ht)
  rw [← hfilter,List.length_map] at hroom
  refine ⟨?_,fun hnames => ?_,fun hunread => ?_,?_⟩
  · rw [← merges_iff_mergeable hdated,← hfilter]
    constructor
    · rintro ⟨list,hlist,_⟩
      exact ⟨list,(startBackfill_zero_iff hroom).mp hlist⟩
    · rintro ⟨list,hmerges⟩
      have hperm := additions_fst ▸ hmerges.perm
      refine ⟨list,(startBackfill_zero_iff hroom).mpr hmerges,hperm,hmerges.sublist,startBackfill_of_mem (fun t ht => ?_) 0⟩
      rw [hperm.mem_iff,List.mem_append,hfilter,List.mem_filter]
      by_cases h : t.entry ∈ timeline
      · exact Or.inl h
      · exact Or.inr ⟨List.mem_map_of_mem ht,by simpa using h⟩
  · have hread : ∀ t ∈ tweets, ∃ k, timelineDate t.entry = .ok k := by
      intro t ht
      obtain ⟨hcolon,hdate⟩ := hnames t ht
      exact ⟨t.date,((decodes_iff hdate).mpr hcolon).2⟩
    exact mergeable_of_read (@hmem (fun e => ∃ k, timelineDate e = .ok k) hread)
  · exact mergeable_iff_placed (@hmem (fun e => ∃ x, timelineDate e = .error x) hunread)
  · rintro order w u v horder rfl hread
    exact timeline_startFollowing horder hread

theorem startBackfill_lossless_two :
    ∃ list, startBackfill [⟨7,none,none,some ['b','-','2']⟩,⟨6,none,none,some ['b','-','1']⟩] [['a','-','1',':','5']] 0 =
        .ok list ∧
      list.Perm [['a','-','1',':','5'],['b','-','2',':','7'],['b','-','1',':','6']] ∧
      [['a','-','1',':','5']].Sublist list ∧
      startBackfill [⟨7,none,none,some ['b','-','2']⟩,⟨6,none,none,some ['b','-','1']⟩] list 0 = .ok list :=
  have h := @startBackfill_lossless_iff writtenDate [['a','-','1',':','5']]
    [⟨7,none,none,some ['b','-','2']⟩,⟨6,none,none,some ['b','-','1']⟩] (by decide) (by decide) (by decide)
  h.1.mpr (h.2.1 (by decide))

/-- The second tweet of `a:b` is compared with the entry of the first one, and the follow ends
without any of them. -/
theorem startBackfill_colon_name :
    startBackfill [⟨2,none,none,some ['a',':','b','-','2']⟩,⟨1,none,none,some ['a',':','b','-','1']⟩] [] 0 =
      .error .numberFormat := by
  decide

end Backfill

end TweetService
end Bigbird
