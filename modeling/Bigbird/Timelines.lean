import Bigbird.ServiceCalls

/-! The lists that timelines hold, and what the commands make of them. -/
namespace Bigbird
namespace TweetService

open JavaText VersionedStore Programs

def entry (tweetId : JString) (tweetMap : TweetMap) : JString :=
  tweetId ++ ':'::tweetMap.date.getD []

def World.timeline (w : World) (user : JString) : List JString :=
  ((w.store .friendsTimeline).value user).getD []

/-- A new tweet can be compared with the first entry. -/
def HeadDated (timeline : List JString) : Prop :=
  ∀ e ∈ timeline.head?, (timelineDate e).toOption.isSome

instance (timeline : List JString) : Decidable (HeadDated timeline) := by
  unfold HeadDated
  infer_instance

def TweetMap.Dated (tweetMap : TweetMap) : Prop := (parseLong tweetMap.date).isSome

instance (tweetMap : TweetMap) : Decidable tweetMap.Dated := by
  unfold TweetMap.Dated
  infer_instance

theorem insertTweetLoop_perm {timelineId : JString} {date : ℤ} {timeline list : List JString}
    {n i : ℕ} (hi : i + n = timeline.length)
    (h : insertTweetLoop timelineId date timeline n i = .ok list) :
    list.Perm (timelineId::timeline) := by
  induction n generalizing i with
  | zero =>
    cases h
    exact List.perm_append_singleton _ _
  | succ n ih =>
    cases timeline with
    | nil => simp at hi
    | cons id timeline =>
      simp only [insertTweetLoop] at h
      cases hd : timelineDate id with
      | error e => simp [hd] at h
      | ok d =>
        simp only [hd] at h
        by_cases hlt : d < date
        · rw [if_pos hlt] at h
          cases h
          exact List.perm_insertIdx _ _ (by omega)
        · rw [if_neg hlt] at h
          exact ih (by omega) h

theorem insertTweet_perm {tweetId : JString} {tweetMap : TweetMap} {timeline list : List JString}
    (h : insertTweet tweetId tweetMap timeline = .ok list) :
    list.Perm (entry tweetId tweetMap::timeline) := by
  unfold insertTweet at h
  cases hdate : tweetMap.date with
  | none => simp [hdate] at h
  | some dateStr =>
    simp only [hdate] at h
    cases hparse : parse 64 dateStr with
    | none => simp [hparse] at h
    | some date =>
      simp only [hparse] at h
      have hperm := insertTweetLoop_perm (by omega) h
      simpa [entry,hdate] using hperm

theorem insertTweetLoop_ok (timelineId : JString) (date : ℤ) {timeline : List JString}
    (hhead : HeadDated timeline) {n : ℕ} (hn : n ≤ timeline.length) (i : ℕ) :
    ∃ list, insertTweetLoop timelineId date timeline n i = .ok list := by
  induction n generalizing i with
  | zero => exact ⟨_,rfl⟩
  | succ n ih =>
    cases timeline with
    | nil => simp at hn
    | cons id timeline =>
      obtain ⟨d,hd⟩ := Option.isSome_iff_exists.mp (hhead id rfl)
      cases hdate : timelineDate id with
      | error e => simp [hdate,Except.toOption] at hd
      | ok d =>
        simp only [insertTweetLoop,hdate]
        by_cases hlt : d < date
        · exact ⟨_,by rw [if_pos hlt]⟩
        · rw [if_neg hlt]
          exact ih (by omega) (i+1)

theorem insertTweet_ok {tweetMap : TweetMap} (hdated : tweetMap.Dated) {timeline : List JString}
    (hhead : HeadDated timeline) (tweetId : JString) :
    ∃ list, insertTweet tweetId tweetMap timeline = .ok list := by
  obtain ⟨date,hdate⟩ := Option.isSome_iff_exists.mp hdated
  obtain ⟨dateStr,hdateStr,hparse⟩ := Option.bind_eq_some_iff.mp hdate
  obtain ⟨list,hlist⟩ := insertTweetLoop_ok (tweetId ++ ':'::dateStr) date hhead (Nat.le_refl _) 0
  exact ⟨list,by simp [insertTweet,hdateStr,hparse,hlist]⟩

theorem insertTweetLoop_head {timelineId : JString} {date : ℤ} {timeline list : List JString}
    {n i : ℕ} (h : insertTweetLoop timelineId date timeline n i = .ok list) :
    list.head? = some timelineId ∨ list.head? = timeline.head? := by
  induction n generalizing i with
  | zero =>
    cases h
    cases timeline with
    | nil => exact Or.inl rfl
    | cons id timeline => exact Or.inr rfl
  | succ n ih =>
    cases timeline with
    | nil => simp [insertTweetLoop] at h
    | cons id timeline =>
      simp only [insertTweetLoop] at h
      split at h
      · simp at h
      · split at h
        · cases h
          cases i with
          | zero => exact Or.inl rfl
          | succ i => exact Or.inr (by rw [List.insertIdx_succ_cons]; rfl)
        · exact ih h

theorem insertTweet_headDated {tweetId : JString} {tweetMap : TweetMap} {timeline list : List JString}
    (hentry : HeadDated [entry tweetId tweetMap]) (hhead : HeadDated timeline)
    (h : insertTweet tweetId tweetMap timeline = .ok list) : HeadDated list := by
  unfold insertTweet at h
  cases hdate : tweetMap.date with
  | none => simp [hdate] at h
  | some dateStr =>
    simp only [hdate] at h
    cases hparse : parse 64 dateStr with
    | none => simp [hparse] at h
    | some date =>
      simp only [hparse] at h
      intro e he
      rcases insertTweetLoop_head h with hl | hl
      · refine hentry e ?_
        rw [hl] at he
        simpa [entry,hdate] using he
      · exact hhead e (hl ▸ he)

/-- What a follow adds to a timeline for a recent tweet. -/
def Tweet.entry (tweet : Tweet) : JString := tweet.id.getD [] ++ ':'::decimal tweet.date

theorem startScan_cases {timelineId : JString} {date : ℤ} {timeline timeline' : List JString}
    {n i i' : ℕ} (hn : timeline.length ≤ i + n) (hi : i ≤ timeline.length) (hmax : i ≤ maxTweetsInTimeline)
    (h : startScan timelineId date timeline n i = .ok (timeline',i')) :
    (timeline' = timeline ∧ i' ≤ timeline.length ∧ i' ≤ maxTweetsInTimeline ∧
      (i' = timeline.length ∨ i' = maxTweetsInTimeline)) ∨
    ∃ k, k < timeline.length ∧ k < maxTweetsInTimeline ∧ timeline' = timeline.insertIdx k timelineId ∧
      i' = k+1 := by
  induction n generalizing i with
  | zero =>
    cases h
    exact Or.inl ⟨rfl,hi,hmax,Or.inl (by omega)⟩
  | succ n ih =>
    simp only [startScan] at h
    cases hid : timeline[i]? with
    | none =>
      rw [hid] at h
      cases h
      exact Or.inl ⟨rfl,hi,hmax,Or.inl (by have := List.getElem?_eq_none_iff.mp hid; omega)⟩
    | some id =>
      have hlt := (List.getElem?_eq_some_iff.mp hid).1
      simp only [hid] at h
      by_cases hi' : i < maxTweetsInTimeline
      · rw [if_pos hi'] at h
        cases hd : timelineDate id with
        | error e => simp [hd] at h
        | ok d =>
          simp only [hd] at h
          split at h
          · cases h
            exact Or.inr ⟨i,hlt,hi',rfl,rfl⟩
          · exact ih (by omega) (by omega) (by omega) h
      · rw [if_neg hi'] at h
        cases h
        exact Or.inl ⟨rfl,hi,hmax,Or.inr (by omega)⟩

theorem startBackfill_known {tweet : Tweet} {tweets : List Tweet} {timeline : List JString}
    (hmem : tweet.entry ∈ timeline) (i : ℕ) :
    startBackfill (tweet::tweets) timeline i = startBackfill tweets timeline i := by
  have hentry : tweet.id.getD [] ++ ':'::decimal tweet.date = tweet.entry := rfl
  simp only [startBackfill,hentry]
  rw [if_pos hmem]

theorem startBackfill_missing {tweet : Tweet} {tweets : List Tweet} {timeline timeline' : List JString} {i i' : ℕ}
    (hmem : tweet.entry ∉ timeline)
    (hscan : startScan tweet.entry tweet.date timeline timeline.length i = .ok (timeline',i')) :
    startBackfill (tweet::tweets) timeline i =
      if i' = maxTweetsInTimeline then .ok (if i' = timeline'.length then timeline' ++ [tweet.entry] else timeline')
      else startBackfill tweets (if i' = timeline'.length then timeline' ++ [tweet.entry] else timeline') i' := by
  have hentry : tweet.id.getD [] ++ ':'::decimal tweet.date = tweet.entry := rfl
  have hend : (if i' = timeline'.length then timeline'.insertIdx i' tweet.entry else timeline') =
      if i' = timeline'.length then timeline' ++ [tweet.entry] else timeline' := by
    split
    · rename_i hi'
      rw [hi',List.insertIdx_length_self]
    · rfl
  simp only [startBackfill,hentry]
  rw [if_neg hmem,hscan]
  dsimp only
  rw [hend]

theorem startBackfill_error_of_scan {tweet : Tweet} {tweets : List Tweet} {timeline : List JString} {i : ℕ} {e : Exn}
    (hmem : tweet.entry ∉ timeline)
    (hscan : startScan tweet.entry tweet.date timeline timeline.length i = .error e) :
    startBackfill (tweet::tweets) timeline i = .error e := by
  have hentry : tweet.id.getD [] ++ ':'::decimal tweet.date = tweet.entry := rfl
  simp only [startBackfill,hentry]
  rw [if_neg hmem,hscan]

/-- One round of the merge: the entry is there already, or the list is longer than the range
and stays, or the entry is added, and it is the last one if the list has filled the range. -/
theorem startBackfill_cons {tweet : Tweet} {tweets : List Tweet} {timeline list : List JString} {i : ℕ}
    (hi : i ≤ timeline.length) (hmax : i ≤ maxTweetsInTimeline)
    (h : startBackfill (tweet::tweets) timeline i = .ok list) :
    (tweet.entry ∈ timeline ∧ startBackfill tweets timeline i = .ok list) ∨
    tweet.entry ∉ timeline ∧ ((maxTweetsInTimeline < timeline.length ∧ list = timeline) ∨
      ∃ timeline' i', timeline'.Perm (tweet.entry::timeline) ∧ i' ≤ timeline'.length ∧
        i' ≤ maxTweetsInTimeline ∧ ((maxTweetsInTimeline ≤ timeline.length ∧ list = timeline') ∨
          startBackfill tweets timeline' i' = .ok list)) := by
  by_cases hmem : tweet.entry ∈ timeline
  · rw [startBackfill_known hmem] at h
    exact Or.inl ⟨hmem,h⟩
  · refine Or.inr ⟨hmem,?_⟩
    cases hscan : startScan tweet.entry tweet.date timeline timeline.length i with
    | error e =>
      rw [startBackfill_error_of_scan hmem hscan] at h
      cases h
    | ok p =>
      obtain ⟨timeline',i'⟩ := p
      rw [startBackfill_missing hmem hscan] at h
      rcases startScan_cases (by omega) hi hmax hscan with ⟨rfl,hle,hmax',hend⟩ | ⟨k,hk,hkmax,rfl,rfl⟩
      · by_cases hlength : i' = timeline'.length
        · subst hlength
          rw [if_pos rfl] at h
          refine Or.inr ⟨timeline' ++ [tweet.entry],timeline'.length,List.perm_append_singleton _ _,by simp,hmax',?_⟩
          split at h
          · cases h
            exact Or.inl ⟨by omega,rfl⟩
          · exact Or.inr h
        · have hmaxi : i' = maxTweetsInTimeline := hend.resolve_left hlength
          rw [if_neg hlength,if_pos hmaxi] at h
          cases h
          exact Or.inl ⟨by omega,rfl⟩
      · have hlength : (timeline.insertIdx k tweet.entry).length = timeline.length + 1 :=
          List.length_insertIdx_of_le_length (by omega) _
        have hne : k+1 ≠ (timeline.insertIdx k tweet.entry).length := by omega
        rw [if_neg hne] at h
        refine Or.inr ⟨timeline.insertIdx k tweet.entry,k+1,List.perm_insertIdx _ _ (by omega),by omega,by omega,?_⟩
        split at h
        · cases h
          exact Or.inl ⟨by omega,rfl⟩
        · exact Or.inr h

theorem startBackfill_keeps {P : List JString → Prop} {tweets : List Tweet} {timeline list : List JString}
    {i : ℕ} (hadd : ∀ t ∈ tweets, ∀ l l', P l → t.entry ∉ l → l'.Perm (t.entry::l) → P l')
    (hi : i ≤ timeline.length) (hmax : i ≤ maxTweetsInTimeline) (hP : P timeline)
    (h : startBackfill tweets timeline i = .ok list) : P list := by
  induction tweets generalizing timeline i with
  | nil =>
    cases h
    exact hP
  | cons tweet tweets ih =>
    have hrest : ∀ t ∈ tweets, ∀ l l', P l → t.entry ∉ l → l'.Perm (t.entry::l) → P l' :=
      fun t ht => hadd t (List.mem_cons_of_mem _ ht)
    rcases startBackfill_cons hi hmax h with ⟨_,h⟩ | ⟨hmem,⟨_,rfl⟩ | ⟨timeline',i',hperm,hi',hmax',h⟩⟩
    · exact ih hrest hi hmax hP h
    · exact hP
    · have hP' := hadd tweet List.mem_cons_self timeline timeline' hP hmem hperm
      rcases h with ⟨_,rfl⟩ | h
      · exact hP'
      · exact ih hrest hi' hmax' hP' h

theorem startScan_ok {timelineId : JString} {date : ℤ} {timeline : List JString}
    (hdated : ∀ e ∈ timeline, (timelineDate e).toOption.isSome) (n i : ℕ) :
    ∃ timeline' i', startScan timelineId date timeline n i = .ok (timeline',i') ∧
      ∀ e ∈ timeline', e = timelineId ∨ e ∈ timeline := by
  induction n generalizing i with
  | zero => exact ⟨_,_,rfl,fun e he => Or.inr he⟩
  | succ n ih =>
    simp only [startScan]
    cases hid : timeline[i]? with
    | none => exact ⟨_,_,rfl,fun e he => Or.inr he⟩
    | some id =>
      by_cases hi : i < maxTweetsInTimeline
      · simp only [if_pos hi]
        have hsome := hdated id (List.mem_of_getElem? hid)
        cases hd : timelineDate id with
        | error e => simp [hd,Except.toOption] at hsome
        | ok d =>
          dsimp only
          split
          · exact ⟨_,_,rfl,fun e he => List.eq_or_mem_of_mem_insertIdx he⟩
          · exact ih (i+1)
      · simp only [if_neg hi]
        exact ⟨_,_,rfl,fun e he => Or.inr he⟩

theorem startBackfill_ok {tweets : List Tweet} {timeline : List JString}
    (hdated : ∀ e ∈ timeline, (timelineDate e).toOption.isSome)
    (htweets : ∀ t ∈ tweets, (timelineDate t.entry).toOption.isSome) (i : ℕ) :
    ∃ list, startBackfill tweets timeline i = .ok list := by
  induction tweets generalizing timeline i with
  | nil => exact ⟨_,rfl⟩
  | cons tweet tweets ih =>
    have hrest : ∀ t ∈ tweets, (timelineDate t.entry).toOption.isSome :=
      fun t ht => htweets t (List.mem_cons_of_mem _ ht)
    have hentry : tweet.id.getD [] ++ ':'::decimal tweet.date = tweet.entry := rfl
    simp only [startBackfill,hentry]
    by_cases hmem : tweet.entry ∈ timeline
    · simp only [if_pos hmem]
      exact ih hdated hrest i
    · simp only [if_neg hmem]
      obtain ⟨timeline',i',hscan,hmem'⟩ := @startScan_ok tweet.entry tweet.date timeline hdated timeline.length i
      have hdated' : ∀ e ∈ if i' = timeline'.length then timeline'.insertIdx i' tweet.entry else timeline',
          (timelineDate e).toOption.isSome := by
        intro e he
        have hcases : e = tweet.entry ∨ e ∈ timeline := by
          split at he
          · rcases List.eq_or_mem_of_mem_insertIdx he with rfl | he
            · exact Or.inl rfl
            · exact hmem' e he
          · exact hmem' e he
        rcases hcases with rfl | he
        · exact htweets tweet List.mem_cons_self
        · exact hdated e he
      simp only [hscan]
      split
      · exact ⟨_,rfl⟩
      · exact ih hdated' hrest i'

def newEntries (tweets : List Tweet) (timeline : List JString) : Finset JString :=
  (tweets.map Tweet.entry).toFinset \ timeline.toFinset

theorem card_newEntries_cons {tweet : Tweet} (tweets : List Tweet) {timeline timeline' : List JString}
    (hmem : tweet.entry ∉ timeline) (hperm : timeline'.Perm (tweet.entry::timeline)) :
    (newEntries (tweet::tweets) timeline).card = (newEntries tweets timeline').card + 1 := by
  have hset : timeline'.toFinset = insert tweet.entry timeline.toFinset := by
    ext e
    simp [hperm.mem_iff]
  rw [newEntries,newEntries,hset,List.map_cons,List.toFinset_cons,
    Finset.insert_sdiff_of_notMem _ (by simpa using hmem),← Finset.card_insert_of_notMem (a:=tweet.entry) (by simp)]
  congr 1
  ext e
  by_cases he : e = tweet.entry <;> simp [he]

theorem length_le_startBackfill {tweets : List Tweet} {timeline list : List JString} {i : ℕ}
    (hi : i ≤ timeline.length) (hmax : i ≤ maxTweetsInTimeline)
    (h : startBackfill tweets timeline i = .ok list) : timeline.length ≤ list.length := by
  refine startBackfill_keeps (P:=fun l => timeline.length ≤ l.length) ?_ hi hmax (Nat.le_refl _) h
  intro t _ l l' hl _ hperm
  rw [hperm.length_eq,List.length_cons]
  omega

/-- A merge stays within the bound exactly if there is room for all entries that are
missing. -/
theorem startBackfill_length_iff {tweets : List Tweet} {timeline list : List JString} {i : ℕ}
    (hi : i ≤ timeline.length) (hlength : timeline.length ≤ maxTweetsInTimeline)
    (h : startBackfill tweets timeline i = .ok list) : list.length ≤ maxTweetsInTimeline ↔
      timeline.length + (newEntries tweets timeline).card ≤ maxTweetsInTimeline := by
  induction tweets generalizing timeline i with
  | nil =>
    cases h
    simp [newEntries]
  | cons tweet tweets ih =>
    rcases startBackfill_cons hi (by omega) h with ⟨hmem,h⟩ | ⟨hmem,⟨hlt,_⟩ | ⟨timeline',i',hperm,hi',hmax',h⟩⟩
    · rw [ih hi hlength h]
      have hnew : newEntries (tweet::tweets) timeline = newEntries tweets timeline := by
        rw [newEntries,List.map_cons,List.toFinset_cons,Finset.insert_sdiff_of_mem _ (by simpa using hmem)]
        rfl
      rw [hnew]
    · omega
    · have hcard := card_newEntries_cons tweets hmem hperm
      have hlength' : timeline'.length = timeline.length + 1 := hperm.length_eq
      by_cases hfull : timeline.length = maxTweetsInTimeline
      · have hle : timeline'.length ≤ list.length := by
          rcases h with ⟨_,rfl⟩ | h
          · exact Nat.le_refl _
          · exact length_le_startBackfill hi' hmax' h
        omega
      · rw [ih hi' (by omega) (h.resolve_left fun h => hfull (by omega))]
        omega

theorem stopFilter_sublist {toStopUser : JString} {timeline list : List JString}
    (h : stopFilter toStopUser timeline = .ok list) : list.Sublist timeline := by
  induction timeline generalizing list with
  | nil =>
    cases h
    exact List.Sublist.refl _
  | cons entry timeline ih =>
    simp only [stopFilter] at h
    split at h
    · simp at h
    · split at h
      · simp at h
      · rename_i hrest
        cases h
        split
        · exact (ih hrest).cons _
        · exact (ih hrest).cons_cons _

theorem timeline_write_self (w : World) (j : Job) (op : Op) (r : Except Exn op.Res)
    (user : JString) (list : List JString) :
    (w.logWrite j op r .friendsTimeline user list).timeline user = list := by
  simp [World.timeline,World.logWrite,Store.value]

theorem timeline_write_ne (w : World) (j : Job) (op : Op) (r : Except Exn op.Res)
    {user user' : JString} (h : user' ≠ user) (list : List JString) :
    (w.logWrite j op r .friendsTimeline user list).timeline user' = w.timeline user' := by
  simp [World.timeline,World.logWrite,Store.value,h]

/-- The timeline that a client reads, with the empty one for an absent key. -/
def World.getTimeline (w : World) (user : JString) : Versioned (List JString) :=
  ((w.store .friendsTimeline).get user).getD ⟨[],0⟩

theorem timeline_of_get {w w' : World} {user : JString} (h : w.Grows w')
    (hversion : (w.getTimeline user).version = (w'.store .friendsTimeline user).length) :
    w'.timeline user = (w.getTimeline user).value := by
  unfold World.getTimeline at hversion ⊢
  cases hx : (w.store .friendsTimeline).get user with
  | none =>
    rw [hx] at hversion
    simp [World.timeline,Store.value,List.length_eq_zero_iff.mp hversion.symm]
  | some x =>
    rw [hx] at hversion
    simp [World.timeline,value_of_get hx h hversion]

theorem getTimeline_value (w : World) (user : JString) :
    (w.getTimeline user).value = w.timeline user := by
  refine (timeline_of_get (World.Grows.refl w) ?_).symm
  cases hx : w.store .friendsTimeline user <;> simp [World.getTimeline,Store.get,hx]

theorem getTimeline_version (w : World) (user : JString) :
    (w.getTimeline user).version = (w.store .friendsTimeline user).length := by
  cases hx : w.store .friendsTimeline user <;> simp [World.getTimeline,Store.get,hx]

end TweetService
end Bigbird
