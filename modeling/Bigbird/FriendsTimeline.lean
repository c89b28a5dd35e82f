import Bigbird.Listing
import Bigbird.Timelines

/-! `getFriendsTimeline`: retrievers, which the executor runs in any order, add the tweets of a
page to one list, and a latch counts them down. -/
namespace Bigbird
namespace TweetService

open JavaText VersionedStore Programs Listing

def retrieve (idAndTime : JString) : Client (Option Tweet) := do
  let id ← orThrow .indexOutOfBounds (split ':' idAndTime).head?
  match ← getValue .tweets id with
  | some tweetMap => some <$> toTweet tweetMap id
  | none => return none

def retriever (timeline : List JString) (timelineIndex : ℤ) : Client (Option Tweet) := do
  let idAndTime ← orThrow .indexOutOfBounds
    (if timelineIndex < 0 then none else timeline[timelineIndex.toNat]?)
  retrieve idAndTime

/-- Tweets that compare as equal stay in their order. -/
def newestFirst (tweetList : List Tweet) : List Tweet :=
  tweetList.mergeSort fun o₁ o₂ => decide (o₂.date ≤ o₁.date)

/-- A call of `getFriendsTimeline`, and the stores while it lasts. -/
structure Request where
  world : World
  userId : JString
  start : ℤ
  count : ℤ

def Request.timeline (q : Request) : List JString := q.world.timeline q.userId

def Request.tweetsToRetrieve (q : Request) : ℤ := min q.count q.timeline.length

/-- How far a retriever has come; one that has failed does not count down. -/
inductive Retriever
  | scheduled (timelineIndex : ℤ)
  | retrieved (tweet : Option Tweet)
  | added
  | finished
  | failed
  deriving DecidableEq

/-- A call under way: the variable of its loop, the latch, the retrievers in the order in
which they were scheduled, and, once it has returned, its result and whether the time was up. -/
structure Retrieval where
  i : ℤ
  latch : ℕ
  retrievers : List Retriever
  tweetList : List Tweet
  timedOut : Bool
  result : Option (Except Exn (List Tweet))
  deriving DecidableEq

/-- A `CountDownLatch` of a negative number is an exception. -/
def Request.begin (q : Request) : Retrieval where
  i := q.start
  latch := q.tweetsToRetrieve.toNat
  retrievers := []
  tweetList := []
  timedOut := false
  result := if q.tweetsToRetrieve < 0 then some (.error .runtime) else none

inductive Act
  | execute (accepted : Bool)
  | retriever (k : ℕ) (responds : Bool)
  | await
  | timeout
  deriving DecidableEq

def Request.advance (q : Request) (s : Retrieval) (k : ℕ) (responds : Bool) :
    Retriever → Option Retrieval
  | .scheduled timelineIndex => some { s with
      retrievers := s.retrievers.set k (match q.world.read (retriever q.timeline timelineIndex) with
        | .ok tweet => if responds then .retrieved tweet else .failed
        | .error _ => .failed) }
  | .retrieved tweet => some { s with
      tweetList := s.tweetList ++ tweet.toList, retrievers := s.retrievers.set k .added }
  | .added => some { s with latch := s.latch - 1, retrievers := s.retrievers.set k .finished }
  | .finished => none
  | .failed => none

def Request.step (q : Request) : Act → Retrieval → Option Retrieval
  | .execute accepted, s =>
    if s.result = none ∧ s.i < q.tweetsToRetrieve then
      if accepted then some { s with i := s.i + 1, retrievers := s.retrievers ++ [.scheduled s.i] }
      else some { s with result := some (.error .runtime) }
    else none
  | .retriever k responds, s => s.retrievers[k]?.bind (q.advance s k responds)
  | .await, s =>
    if s.result = none ∧ q.tweetsToRetrieve ≤ s.i ∧ s.latch = 0 then
      some { s with result := some (.ok (newestFirst s.tweetList)) }
    else none
  | .timeout, s =>
    if s.result = none ∧ q.tweetsToRetrieve ≤ s.i ∧ s.latch ≠ 0 then
      some { s with timedOut := true, result := some (.ok (newestFirst s.tweetList)) }
    else none

def Request.Done (q : Request) (s : Retrieval) : Prop :=
  q.tweetsToRetrieve ≤ s.i ∧ ∀ x ∈ s.retrievers, x = .finished

instance (q : Request) (s : Retrieval) : Decidable (q.Done s) := by
  unfold Request.Done
  infer_instance

/-- The executor takes the retrievers, the store responds, and the time is not up before they
are all done. -/
def Request.Patient (q : Request) : Act → Retrieval → Prop
  | .execute accepted, _ => accepted = true
  | .retriever _ responds, _ => responds = true
  | .await, _ => True
  | .timeout, s => q.Done s

instance (q : Request) (a : Act) (s : Retrieval) : Decidable (q.Patient a s) := by
  unfold Request.Patient
  induction a using Act.casesOn <;> infer_instance

def Request.Reaches (q : Request) : List Act → Retrieval → Prop :=
  Runs.Reaches q.step q.Patient q.begin

def World.tweetOf (w : World) (idAndTime : JString) : Option Tweet :=
  (w.read (retrieve idAndTime)).toOption.join

def Request.tweet (q : Request) (k : ℕ) : Option Tweet := q.timeline[k]?.bind q.world.tweetOf

theorem read_bind_ok {w : World} {α β : Type} {o : Option α} {a : α} (h : o = some a) (e : Exn)
    (f : α → Client β) : w.read (orThrow e o >>= f) = w.read (f a) := by
  subst h
  rfl

section Progress

variable {q : Request} {start n : ℕ}

/-- `adds` is the order in which retrievers have added what they found. -/
structure Going (q : Request) (start n : ℕ) (adds : List ℕ) (s : Retrieval) : Prop where
  i : s.i = start + s.retrievers.length
  le : s.retrievers.length ≤ n - start
  nodup : adds.Nodup
  mem : ∀ k, k ∈ adds ↔ s.retrievers[k]? = some .added ∨ s.retrievers[k]? = some .finished
  index : ∀ k (timelineIndex : ℤ), s.retrievers[k]? = some (.scheduled timelineIndex) →
    timelineIndex = (start + k : ℕ)
  retrieved : ∀ k tweet, s.retrievers[k]? = some (.retrieved tweet) → tweet = q.tweet (start+k)
  tweets : s.tweetList = adds.filterMap fun k => q.tweet (start+k)
  latch : s.latch + s.retrievers.countP (· = .finished) = n
  waiting : s.result = none → s.timedOut = false
  result : ∀ r, s.result = some r → q.Done s ∧ r = .ok (newestFirst s.tweetList) ∧
    (s.timedOut = true ↔ s.latch ≠ 0)

theorem read_retriever {k : ℕ} {tweet : Option Tweet}
    (h : q.world.read (retriever q.timeline k) = .ok tweet) : tweet = q.tweet k := by
  unfold retriever at h
  rw [if_neg (by omega),Int.toNat_natCast] at h
  unfold Request.tweet
  cases hentry : q.timeline[k]? with
  | none =>
    rw [hentry] at h
    exact absurd (show Except.error Exn.indexOutOfBounds = .ok tweet from h) (by simp)
  | some idAndTime =>
    rw [read_bind_ok hentry] at h
    simp [World.tweetOf,h,Except.toOption]

theorem going_begin (hstart : q.start = start) (hn : q.tweetsToRetrieve = n) :
    Going q start n [] q.begin where
  i := by simp [Request.begin,hstart]
  le := by simp [Request.begin]
  nodup := List.nodup_nil
  mem := by simp [Request.begin]
  index := by simp [Request.begin]
  retrieved := by simp [Request.begin]
  tweets := rfl
  latch := by simp [Request.begin,hn]
  waiting _ := rfl
  result := by simp [Request.begin,hn]

theorem Going.execute {adds : List ℕ} {s : Retrieval} (h : Going q start n adds s) (hnone : s.result = none)
    (hi : s.i < n) : Going q start n adds
      { s with i := s.i + 1, retrievers := s.retrievers ++ [.scheduled s.i] } where
  i := by
    have := h.i
    simp only [List.length_append,List.length_singleton]
    omega
  le := by
    have := h.i
    simp only [List.length_append,List.length_singleton]
    omega
  nodup := h.nodup
  mem k := by
    rw [h.mem]
    rcases Nat.lt_trichotomy k s.retrievers.length with hk | rfl | hk
    · simp [List.getElem?_append_left hk]
    · simp
    · simp [List.getElem?_eq_none (Nat.le_of_lt hk),List.getElem?_eq_none (l:=s.retrievers ++ _)
        (by simpa using hk : (s.retrievers ++ [Retriever.scheduled s.i]).length ≤ k)]
  index k timelineIndex hk := by
    rw [List.getElem?_append] at hk
    split at hk
    · exact h.index k timelineIndex hk
    · have hi := h.i
      have hone := List.getElem?_eq_some_iff.mp hk
      obtain ⟨hlt,heq⟩ := hone
      simp only [List.length_singleton] at hlt
      simp only [List.getElem_singleton,Retriever.scheduled.injEq] at heq
      omega
  retrieved k tweet hk := by
    rw [List.getElem?_append] at hk
    split at hk
    · exact h.retrieved k tweet hk
    · obtain ⟨hlt,heq⟩ := List.getElem?_eq_some_iff.mp hk
      simp at heq
  tweets := h.tweets
  latch := by simpa using h.latch
  waiting := h.waiting
  result := by simp [hnone]

theorem Going.pending {adds : List ℕ} {s : Retrieval} (h : Going q start n adds s) {k : ℕ} {x : Retriever}
    (hx : s.retrievers[k]? = some x) (hne : x ≠ .finished) : s.result = none := by
  cases hr : s.result with
  | none => rfl
  | some r => exact absurd ((h.result r hr).1.2 x (List.mem_of_getElem? hx)) hne

theorem getElem?_set_of {l : List Retriever} {k : ℕ} {x : Retriever} (hx : l[k]? = some x) (y : Retriever) (j : ℕ) :
    (l.set k y)[j]? = if k = j then some y else l[j]? := by
  rw [List.getElem?_set,if_pos (List.getElem?_eq_some_iff.mp hx).1]

theorem Going.set {adds adds' : List ℕ} {s : Retrieval} (h : Going q start n adds s) {k : ℕ} {x y : Retriever}
    (hx : s.retrievers[k]? = some x) (hne : x ≠ .finished) (hnodup : adds'.Nodup)
    (hmem : ∀ j, j ∈ adds' ↔ if k = j then y = .added ∨ y = .finished else j ∈ adds)
    (hindex : ∀ timelineIndex, y ≠ .scheduled timelineIndex)
    (hretrieved : ∀ tweet, y = .retrieved tweet → tweet = q.tweet (start+k)) {latch : ℕ}
    (hlatch : latch + (if y = .finished then 1 else 0) = s.latch) :
    Going q start n adds' { s with
      latch := latch, tweetList := adds'.filterMap fun k => q.tweet (start+k),
      retrievers := s.retrievers.set k y } where
  i := by simpa using h.i
  le := by simpa using h.le
  nodup := hnodup
  mem j := by
    rw [hmem,getElem?_set_of hx]
    split
    · simp
    · exact h.mem j
  index j index hj := by
    rw [getElem?_set_of hx] at hj
    split at hj
    · exact absurd (Option.some.inj hj) (hindex index)
    · exact h.index j index hj
  retrieved j tweet hj := by
    rw [getElem?_set_of hx] at hj
    split at hj
    · rename_i hkj
      rw [← hkj]
      exact hretrieved tweet (Option.some.inj hj)
    · exact h.retrieved j tweet hj
  tweets := rfl
  latch := by
    have hold := h.latch
    obtain ⟨hlt,hk⟩ := List.getElem?_eq_some_iff.mp hx
    simp only [List.countP_set hlt,hk,hne,decide_false,decide_eq_true_eq,Bool.false_eq_true,if_false,Nat.sub_zero]
    omega
  waiting := h.waiting
  result r hr := absurd ((h.pending hx hne).symm.trans hr) (by simp)

theorem Going.found {adds : List ℕ} {s : Retrieval} (h : Going q start n adds s) {k : ℕ} {timelineIndex : ℤ}
    (hx : s.retrievers[k]? = some (.scheduled timelineIndex)) {y : Retriever}
    (hy : y = .failed ∨ y = .retrieved (q.tweet (start+k))) :
    Going q start n adds { s with retrievers := s.retrievers.set k y } := by
  have hk : k ∉ adds := by
    rw [h.mem,hx]
    simp
  have hset := @Going.set q start n adds adds s h k _ y hx (by simp) h.nodup (fun j => ?_) (by rcases hy with rfl | rfl <;> simp)
    (by rcases hy with rfl | rfl <;> simp) s.latch (by rcases hy with rfl | rfl <;> simp)
  · rwa [← h.tweets] at hset
  · split
    · rename_i hkj
      rw [← hkj]
      rcases hy with rfl | rfl <;> simp [hk]
    · rfl

theorem Going.add {adds : List ℕ} {s : Retrieval} (h : Going q start n adds s) {k : ℕ} {tweet : Option Tweet}
    (hx : s.retrievers[k]? = some (.retrieved tweet)) :
    Going q start n (adds ++ [k])
      { s with tweetList := s.tweetList ++ tweet.toList, retrievers := s.retrievers.set k .added } := by
  have hk : k ∉ adds := by
    rw [h.mem,hx]
    simp
  have htweets : s.tweetList ++ tweet.toList = (adds ++ [k]).filterMap fun k => q.tweet (start+k) := by
    rw [h.tweets,List.filterMap_append,h.retrieved k tweet hx]
    cases htweet : q.tweet (start+k) <;> simp [htweet]
  rw [htweets]
  refine h.set hx (by simp) ?_ (fun j => ?_) (by simp) (by simp) (by simp)
  · refine List.nodup_append.mpr ⟨h.nodup,List.nodup_singleton k,fun a ha b hb hab => ?_⟩
    rw [hab,List.mem_singleton.mp hb] at ha
    exact hk ha
  · by_cases hkj : k = j
    · simp [hkj]
    · simp [hkj,Ne.symm hkj]

theorem Going.countDown {adds : List ℕ} {s : Retrieval} (h : Going q start n adds s) {k : ℕ}
    (hx : s.retrievers[k]? = some .added) :
    Going q start n adds { s with latch := s.latch - 1, retrievers := s.retrievers.set k .finished } := by
  have hk : k ∈ adds := (h.mem k).mpr (Or.inl hx)
  have hpos : 0 < s.latch := by
    have hlatch := h.latch
    have hle := h.le
    have hcount : s.retrievers.countP (· = .finished) ≠ s.retrievers.length := fun hall => by
      have hfinished := List.countP_eq_length.mp hall _ (List.mem_of_getElem? hx)
      simp at hfinished
    have hcountle := List.countP_le_length (p:=fun x => decide (x = Retriever.finished)) (l:=s.retrievers)
    omega
  have hset := @Going.set q start n adds adds s h k _ .finished hx (by simp) h.nodup (fun j => ?_) (by simp)
    (by simp) (s.latch - 1) (by simp; omega)
  · rwa [← h.tweets] at hset
  · split
    · rename_i hkj
      simp [← hkj,hk]
    · rfl

/-- A call that returns when the latch is at 0 has all its retrievers finished. -/
theorem Going.done_of_latch {adds : List ℕ} {s : Retrieval} (h : Going q start n adds s)
    (hn : q.tweetsToRetrieve = n) (hlatch : s.latch = 0) : q.Done s := by
  have hi := h.i
  have hle := h.le
  have hsum := h.latch
  have hcountle := List.countP_le_length (p:=fun x => decide (x = Retriever.finished)) (l:=s.retrievers)
  refine ⟨by omega,fun x hx => ?_⟩
  have hall := List.countP_eq_length.mp (show s.retrievers.countP (· = .finished) = _ by omega) x hx
  simpa using hall

theorem Going.returned {adds : List ℕ} {s : Retrieval} (h : Going q start n adds s) (hdone : q.Done s)
    {timedOut : Bool} (htime : timedOut = true ↔ s.latch ≠ 0) :
    Going q start n adds { s with timedOut := timedOut, result := some (.ok (newestFirst s.tweetList)) } where
  i := h.i
  le := h.le
  nodup := h.nodup
  mem := h.mem
  index := h.index
  retrieved := h.retrieved
  tweets := h.tweets
  latch := h.latch
  waiting := by simp
  result _ hr := ⟨hdone,(Option.some.inj hr).symm,htime⟩

theorem Going.advance {adds : List ℕ} {s s' : Retrieval} (h : Going q start n adds s) {k : ℕ} {x : Retriever}
    (hx : s.retrievers[k]? = some x) (hstep : q.advance s k true x = some s') :
    ∃ adds', Going q start n adds' s' := by
  cases x with
  | scheduled timelineIndex =>
    obtain rfl := Option.some.inj hstep
    refine ⟨adds,h.found hx ?_⟩
    obtain rfl := h.index k timelineIndex hx
    cases hread : q.world.read (retriever q.timeline (start+k : ℕ)) with
    | error e => exact Or.inl rfl
    | ok tweet =>
      obtain rfl := read_retriever hread
      exact Or.inr rfl
  | retrieved tweet =>
    obtain rfl := Option.some.inj hstep
    exact ⟨_,h.add hx⟩
  | added =>
    obtain rfl := Option.some.inj hstep
    exact ⟨_,h.countDown hx⟩
  | finished => simp [Request.advance] at hstep
  | failed => simp [Request.advance] at hstep

theorem going_step (hn : q.tweetsToRetrieve = n) {a : Act} {s s' : Retrieval}
    (hs : ∃ adds, Going q start n adds s) (hpatient : q.Patient a s) (hstep : q.step a s = some s') :
    ∃ adds, Going q start n adds s' := by
  obtain ⟨adds,h⟩ := hs
  cases a with
  | execute accepted =>
    obtain rfl : accepted = true := hpatient
    simp only [Request.step] at hstep
    split at hstep
    · rename_i hguard
      obtain rfl := Option.some.inj hstep
      exact ⟨adds,h.execute hguard.1 (hn ▸ hguard.2)⟩
    · simp at hstep
  | retriever k responds =>
    obtain rfl : responds = true := hpatient
    obtain ⟨x,hx,hadvance⟩ := Option.bind_eq_some_iff.mp hstep
    exact h.advance hx hadvance
  | await =>
    simp only [Request.step] at hstep
    split at hstep
    · rename_i hguard
      obtain rfl := Option.some.inj hstep
      refine ⟨adds,h.returned (h.done_of_latch hn hguard.2.2) ?_⟩
      simp [h.waiting hguard.1,hguard.2.2]
    · simp at hstep
  | timeout =>
    simp only [Request.step] at hstep
    split at hstep
    · rename_i hguard
      obtain rfl := Option.some.inj hstep
      exact ⟨adds,h.returned hpatient (by simp [hguard.2.2])⟩
    · simp at hstep

theorem going (hstart : q.start = start) (hn : q.tweetsToRetrieve = n) {as : List Act} {s : Retrieval}
    (h : q.Reaches as s) : ∃ adds, Going q start n adds s :=
  h.invariant ⟨[],going_begin hstart hn⟩ fun _ _ _ hs hc hstep => going_step hn hs hc hstep

theorem Going.perm {adds : List ℕ} {s : Retrieval} (h : Going q start n adds s) (hn : q.tweetsToRetrieve = n)
    (hdone : q.Done s) : adds.Perm (List.range (n - start)) := by
  have hi := h.i
  have hle := h.le
  have hlength : s.retrievers.length = n - start := by
    have := hdone.1
    omega
  refine (List.perm_ext_iff_of_nodup h.nodup List.nodup_range).mpr fun k => ?_
  rw [h.mem,List.mem_range,← hlength]
  constructor
  · rintro (hk | hk) <;> exact (List.getElem?_eq_some_iff.mp hk).1
  · intro hk
    rw [List.getElem?_eq_getElem hk,hdone.2 _ (List.getElem_mem hk)]
    exact Or.inr rfl

theorem tweets_page {m : ℕ} : (List.range m).filterMap (fun k => q.tweet (start+k)) =
    (page q.timeline start m).filterMap q.world.tweetOf :=
  filterMap_range_page q.world.tweetOf q.timeline start m

/-- What a call returns: the tweets of its retrievers in some order, sorted. -/
theorem result_of_reaches (hstart : q.start = start) (hn : q.tweetsToRetrieve = n) {as : List Act}
    {s : Retrieval} (h : q.Reaches as s) {r : Except Exn (List Tweet)} (hr : s.result = some r) :
    ∃ tweets, tweets.Perm ((page q.timeline start (n - start)).filterMap q.world.tweetOf) ∧
      r = .ok (newestFirst tweets) ∧ q.Done s := by
  obtain ⟨adds,hgoing⟩ := going hstart hn h
  obtain ⟨hdone,hr,_⟩ := hgoing.result r hr
  refine ⟨s.tweetList,?_,hr,hdone⟩
  rw [hgoing.tweets,← tweets_page]
  exact (hgoing.perm hn hdone).filterMap _

end Progress

theorem newest_trans (a b c : Tweet) (hab : decide (b.date ≤ a.date) = true) (hbc : decide (c.date ≤ b.date) = true) :
    decide (c.date ≤ a.date) = true := by
  rw [decide_eq_true_eq] at *
  omega

theorem newest_total (a b : Tweet) : (decide (b.date ≤ a.date) || decide (a.date ≤ b.date)) = true := by
  rw [Bool.or_eq_true,decide_eq_true_eq,decide_eq_true_eq]
  omega

theorem newestFirst_perm (tweets : List Tweet) : (newestFirst tweets).Perm tweets := List.mergeSort_perm _ _

theorem newestFirst_pairwise (tweets : List Tweet) :
    (newestFirst tweets).Pairwise fun a b => b.date ≤ a.date := by
  have hsorted := List.pairwise_mergeSort newest_trans newest_total tweets
  exact hsorted.imp fun h => by simpa using h

theorem newestFirst_eq {tweets list : List Tweet} (hperm : list.Perm tweets)
    (hsorted : tweets.Pairwise fun a b => b.date < a.date) : newestFirst list = tweets := by
  refine List.Perm.eq_of_pairwise (fun a b ha hb hab hba => ?_) (newestFirst_pairwise list)
    (hsorted.imp fun h => h.le) ((newestFirst_perm list).trans hperm)
  have hdate : a.date = b.date := by omega
  have hnodup : (tweets.map Tweet.date).Nodup := List.pairwise_map.mpr (hsorted.imp fun h => h.ne')
  have hmem : a ∈ tweets := ((newestFirst_perm list).trans hperm).mem_iff.mp ha
  exact List.inj_on_of_nodup_map hnodup hmem hb hdate

/-- All entries have a tweet with the date of the entry, and they stand newest first with
different dates. -/
structure Ordered (w : World) (timeline : List JString) : Prop where
  tweets : ∀ e ∈ timeline, ∃ t, w.read (retrieve e) = .ok (some t) ∧ timelineDate e = .ok t.date
  newest : timeline.Pairwise fun e e' => ∀ d d', timelineDate e = .ok d → timelineDate e' = .ok d' → d' < d

theorem Ordered.pairwise {w : World} {timeline : List JString} (h : Ordered w timeline) :
    (timeline.filterMap w.tweetOf).Pairwise fun a b => b.date < a.date := by
  refine List.pairwise_filterMap.mpr (h.newest.imp_of_mem fun {e e'} he he' hdates t ht t' ht' => ?_)
  have hdate {e : JString} {t : Tweet} (he : e ∈ timeline) (ht : w.tweetOf e = some t) :
      timelineDate e = .ok t.date := by
    obtain ⟨t',hread,hdate⟩ := h.tweets e he
    rw [World.tweetOf,hread] at ht
    obtain rfl := Option.some.inj ht
    exact hdate
  exact hdates _ _ (hdate he ht) (hdate he' ht')

theorem Ordered.sublist {w : World} {timeline timeline' : List JString} (h : Ordered w timeline)
    (hsub : timeline'.Sublist timeline) : Ordered w timeline' :=
  ⟨fun e he => h.tweets e (hsub.subset he),h.newest.sublist hsub⟩

theorem Ordered.length {w : World} {timeline : List JString} (h : Ordered w timeline) :
    (timeline.filterMap w.tweetOf).length = timeline.length := by
  induction timeline with
  | nil => rfl
  | cons e timeline ih =>
    obtain ⟨t,hread,_⟩ := h.tweets e List.mem_cons_self
    have ht : w.tweetOf e = some t := by rw [World.tweetOf,hread]; rfl
    rw [List.filterMap_cons_some ht,List.length_cons,List.length_cons,ih (h.sublist (List.sublist_cons_self _ _))]

theorem page_sublist (timeline : List JString) (start count : ℕ) :
    (page timeline start count).Sublist timeline :=
  (List.take_sublist _ _).trans (List.drop_sublist _ _)

def Request.page (q : Request) : List Tweet :=
  (Listing.page q.timeline q.start.toNat q.count.toNat).filterMap q.world.tweetOf

/-- As many retrievers as the latch counts down are scheduled, they bring it to 0, and the
call returns the page without waiting for the time to be up. -/
structure Request.Served (q : Request) : Prop where
  scheduled : ∀ as s, q.Reaches as s → q.tweetsToRetrieve ≤ s.i → (s.retrievers.length : ℤ) = q.tweetsToRetrieve
  released : ∀ as s, q.Reaches as s → q.Done s → s.latch = 0
  returned : ∀ as s r, q.Reaches as s → s.result = some r → s.timedOut = false ∧ r = .ok q.page

section Schedule

variable {q : Request} {start n m : ℕ}

/-- The first `m` retrievers are scheduled, and those in `order` have finished one after the
other. -/
def Request.after (q : Request) (m : ℕ) (order : List ℕ) : Retrieval where
  i := q.start + m
  latch := q.tweetsToRetrieve.toNat - order.length
  retrievers := (List.range m).map fun k => if k ∈ order then .finished else .scheduled (q.start + k)
  tweetList := order.filterMap fun k => q.tweet (q.start.toNat + k)
  timedOut := false
  result := none

theorem reaches_scheduled (hn : q.tweetsToRetrieve = n) (hm : q.start + m ≤ n) :
    ∃ as, q.Reaches as (q.after m []) := by
  induction m with
  | zero =>
    have hbegin : q.begin = q.after 0 [] := by simp [Request.begin,Request.after,hn]
    exact ⟨[],hbegin ▸ .start⟩
  | succ m ih =>
    obtain ⟨as,h⟩ := ih (by omega)
    refine ⟨_,.next (.execute true) h (show q.Patient (.execute true) _ from rfl) ?_⟩
    have hguard : (q.after m []).result = none ∧ (q.after m []).i < q.tweetsToRetrieve :=
      ⟨rfl,by rw [hn]; exact (show q.start + m < n by omega)⟩
    rw [Request.step,if_pos hguard,if_pos rfl]
    simp [Request.after,List.range_succ,Int.add_assoc]

theorem after_finish (order : List ℕ) (k : ℕ) :
    (q.after m order).retrievers.set k .finished = (q.after m (order ++ [k])).retrievers := by
  refine List.ext_getElem? fun j => ?_
  by_cases hj : j < m
  · by_cases hkj : k = j
    · simp [Request.after,hj,hkj]
    · simp [Request.after,hj,hkj,Ne.symm hkj]
  · by_cases hkj : k = j
    · simp [Request.after,hj,hkj]
    · simp [Request.after,hj]

theorem reaches_finish (hstart : q.start = start) {as : List Act} {order : List ℕ} {k : ℕ}
    (h : q.Reaches as (q.after m order)) (hk : k < m) (hnew : k ∉ order)
    {tweet : Option Tweet} (hread : q.world.read (retriever q.timeline (start + k : ℕ)) = .ok tweet) :
    ∃ as', q.Reaches as' (q.after m (order ++ [k])) := by
  have hx : (q.after m order).retrievers[k]? = some (.scheduled (start + k : ℕ)) := by
    simp [Request.after,hk,hnew,hstart]
  have hlt : k < (q.after m order).retrievers.length := by simpa [Request.after] using hk
  have hset (y : Retriever) : ((q.after m order).retrievers.set k y)[k]? = some y := List.getElem?_set_self hlt
  have hpatient (s : Retrieval) : q.Patient (.retriever k true) s := rfl
  have hretrieve : q.step (.retriever k true) (q.after m order) =
      some { q.after m order with retrievers := (q.after m order).retrievers.set k (.retrieved tweet) } := by
    rw [Request.step,hx,Option.bind_some,Request.advance,hread]
    rfl
  have hadd : q.step (.retriever k true)
        { q.after m order with retrievers := (q.after m order).retrievers.set k (.retrieved tweet) } =
      some { q.after m order with
        tweetList := (q.after m order).tweetList ++ tweet.toList
        retrievers := (q.after m order).retrievers.set k .added } := by
    simp [Request.step,hset,Request.advance]
  have htweets : (q.after m order).tweetList ++ tweet.toList = (q.after m (order ++ [k])).tweetList := by
    have htweet := read_retriever hread
    simp only [Request.after,hstart,Int.toNat_natCast,List.filterMap_append]
    cases tweet <;> simp [← htweet]
  have hdown : q.step (.retriever k true) { q.after m order with
        tweetList := (q.after m order).tweetList ++ tweet.toList
        retrievers := (q.after m order).retrievers.set k .added } = some (q.after m (order ++ [k])) := by
    simp only [Request.step,hset,Option.bind_some,Request.advance,List.set_set,after_finish,htweets]
    simp [Request.after,Nat.sub_sub]
  exact ⟨_,.next _ (.next _ (.next _ h (hpatient _) hretrieve) (hpatient _) hadd) (hpatient _) hdown⟩

theorem reaches_finished (hstart : q.start = start) (hn : q.tweetsToRetrieve = n) (hm : start + m ≤ n)
    (hread : ∀ k, k < m → ∃ tweet, q.world.read (retriever q.timeline (start + k : ℕ)) = .ok tweet)
    {order : List ℕ} (hnodup : order.Nodup) (hlt : ∀ k ∈ order, k < m) :
    ∃ as, q.Reaches as (q.after m order) := by
  induction order using List.reverseRecOn with
  | nil => exact reaches_scheduled hn (by omega)
  | append_singleton order k ih =>
    rw [List.nodup_append] at hnodup
    obtain ⟨as,h⟩ := ih hnodup.1 fun j hj => hlt j (List.mem_append_left _ hj)
    have hk : k < m := hlt k (by simp)
    obtain ⟨tweet,htweet⟩ := hread k hk
    exact reaches_finish hstart h hk (fun hmem => hnodup.2.2 k hmem k (by simp) rfl) htweet

end Schedule

section Pages

variable {q : Request} {start count : ℕ}

theorem tweetsToRetrieve_eq (hcount : q.count = count) :
    q.tweetsToRetrieve = (min count q.timeline.length : ℕ) := by
  rw [Request.tweetsToRetrieve,hcount]
  omega

theorem latch_of_done {n : ℕ} {adds : List ℕ} {s : Retrieval} (h : Going q start n adds s)
    (hn : q.tweetsToRetrieve = n) (hall : n - start = n) (hdone : q.Done s) : s.latch = 0 := by
  have hsum := h.latch
  have hi := h.i
  have hover := hdone.1
  have hcount : s.retrievers.countP (· = .finished) = s.retrievers.length :=
    List.countP_eq_length.mpr fun x hx => by simpa using hdone.2 x hx
  omega

theorem served_of (hstart : q.start = start) (hcount : q.count = count) (hordered : Ordered q.world q.timeline)
    (h : start = 0 ∨ min count q.timeline.length = 0) : q.Served := by
  have hn := tweetsToRetrieve_eq hcount
  generalize hlength : min count q.timeline.length = n at h hn
  have hall : n - start = n := by omega
  have hpage : page q.timeline start (n - start) = page q.timeline start count := by
    rw [hall,page,page,List.take_eq_take_iff,List.length_drop]
    omega
  refine ⟨fun as s hs hover => ?_,fun as s hs hdone => ?_,fun as s r hs hr => ?_⟩
  · obtain ⟨adds,hgoing⟩ := going hstart hn hs
    have hi := hgoing.i
    have hle := hgoing.le
    omega
  · obtain ⟨adds,hgoing⟩ := going hstart hn hs
    exact latch_of_done hgoing hn hall hdone
  · obtain ⟨adds,hgoing⟩ := going hstart hn hs
    obtain ⟨hdone,_,htime⟩ := hgoing.result r hr
    obtain ⟨tweets,hperm,rfl,_⟩ := result_of_reaches hstart hn hs hr
    refine ⟨by simpa [latch_of_done hgoing hn hall hdone] using htime,?_⟩
    rw [hpage] at hperm
    rw [newestFirst_eq hperm (hordered.sublist (page_sublist _ _ _)).pairwise,Request.page,hstart,hcount]
    rfl

/-- A page after the first one has retrievers that do not bring the latch to 0. -/
theorem served_iff (hstart : q.start = start) (hcount : q.count = count) (hordered : Ordered q.world q.timeline) :
    q.Served ↔ start = 0 ∨ count = 0 ∨ q.timeline = [] := by
  constructor
  · intro h
    by_contra hnot
    have hn := tweetsToRetrieve_eq hcount
    have hpos : 0 < q.timeline.length := List.length_pos_iff.mpr fun hnil => hnot (by simp [hnil])
    by_cases hle : start ≤ min count q.timeline.length
    · obtain ⟨as,hs⟩ := @reaches_scheduled q _ (min count q.timeline.length - start) hn (by omega)
      have hlength := h.scheduled as _ hs (by rw [hn]; simp only [Request.after]; omega)
      simp only [Request.after,List.length_map,List.length_range] at hlength
      omega
    · have hlength := h.scheduled [] _ .start (by rw [hn]; simp only [Request.begin]; omega)
      simp only [Request.begin,List.length_nil] at hlength
      omega
  · intro h
    refine served_of hstart hcount hordered ?_
    rcases h with h | h | h
    · exact Or.inl h
    · exact Or.inr (by omega)
    · exact Or.inr (by simp [h])

theorem read_retriever_of {k : ℕ} {e : JString} (he : q.timeline[k]? = some e) :
    q.world.read (retriever q.timeline k) = q.world.read (retrieve e) := by
  unfold retriever
  rw [if_neg (by omega),Int.toNat_natCast,read_bind_ok he]

theorem exists_returned (hstart : q.start = start) (hcount : q.count = count)
    (hle : start ≤ min count q.timeline.length)
    (hread : ∀ e ∈ page q.timeline start (min count q.timeline.length - start), ∃ t, q.world.read (retrieve e) = .ok t)
    {tweets : List Tweet}
    (hperm : tweets.Perm ((page q.timeline start (min count q.timeline.length - start)).filterMap q.world.tweetOf)) :
    ∃ as s, q.Reaches as s ∧ s.result = some (.ok (newestFirst tweets)) := by
  have hn := tweetsToRetrieve_eq hcount
  generalize hlength : min count q.timeline.length = n at hle hread hperm hn
  rw [← tweets_page] at hperm
  obtain ⟨order,horder,rfl⟩ := exists_perm_filterMap _ hperm
  have hreads : ∀ k, k < n - start → ∃ tweet, q.world.read (retriever q.timeline (start + k : ℕ)) = .ok tweet := by
    intro k hk
    have he : q.timeline[start+k]? = some q.timeline[start+k] := List.getElem?_eq_getElem (by omega)
    rw [read_retriever_of he]
    refine hread _ (List.mem_of_getElem? (i:=k) ?_)
    rw [getElem?_page q.timeline hk,he]
  obtain ⟨as,h⟩ := @reaches_finished q start n (n - start) hstart hn (by omega) hreads order
    (horder.nodup_iff.mpr List.nodup_range) fun k hk => List.mem_range.mp (horder.mem_iff.mp hk)
  have hover : q.tweetsToRetrieve ≤ (q.after (n - start) order).i := by
    rw [hn]
    simp only [Request.after,hstart]
    omega
  have hdone : q.Done (q.after (n - start) order) := by
    refine ⟨hover,fun x hx => ?_⟩
    obtain ⟨k,hk,rfl⟩ := List.mem_map.mp hx
    rw [if_pos (horder.mem_iff.mpr hk)]
  have htweets : (q.after (n - start) order).tweetList = order.filterMap fun k => q.tweet (start+k) := by
    simp only [Request.after,hstart,Int.toNat_natCast]
  by_cases hlatch : (q.after (n - start) order).latch = 0
  · have hstep : q.step .await (q.after (n - start) order) = some { q.after (n - start) order with
        result := some (.ok (newestFirst (q.after (n - start) order).tweetList)) } := by
      rw [Request.step,if_pos ⟨rfl,hover,hlatch⟩]
    exact ⟨_,_,.next .await h (show q.Patient .await _ from trivial) hstep,by rw [htweets]⟩
  · have hstep : q.step .timeout (q.after (n - start) order) = some { q.after (n - start) order with
        timedOut := true, result := some (.ok (newestFirst (q.after (n - start) order).tweetList)) } := by
      rw [Request.step,if_pos ⟨rfl,hover,hlatch⟩]
    exact ⟨_,_,.next .timeout h (show q.Patient .timeout _ from hdone) hstep,by rw [htweets]⟩

end Pages

/-- The client of `refreshTweets` and `getMoreTweets` after `k` requests, with the tweets that
it has received; `tweetIndex` is their number. -/
inductive Scrolls (w : World) (userId : JString) (count : ℕ) : ℕ → List Tweet → Prop
  | refresh : Scrolls w userId count 0 []
  | more {k : ℕ} {shown data : List Tweet} {as : List Act} {s : Retrieval} : Scrolls w userId count k shown →
      (Request.mk w userId shown.length count).Reaches as s → s.result = some (.ok data) →
      Scrolls w userId count (k+1) (shown ++ data)

section Client

variable {w : World} {userId : JString} {count : ℕ}

theorem scrolls_shown (hordered : Ordered w (w.timeline userId)) {k : ℕ} {shown : List Tweet}
    (h : Scrolls w userId count (k+1) shown) : shown = ((w.timeline userId).take count).filterMap w.tweetOf := by
  induction k generalizing shown with
  | zero =>
    obtain _ | ⟨hstart,hreach,hr⟩ := h
    cases hstart
    have hserved := (@served_of ⟨w,userId,([] : List Tweet).length,count⟩ 0 count rfl rfl hordered (Or.inl rfl)).returned
    obtain ⟨_,hdata⟩ := hserved _ _ _ hreach hr
    rw [List.nil_append,Except.ok.inj hdata]
    rfl
  | succ k ih =>
    obtain _ | ⟨hk,hreach,hr⟩ := h
    obtain rfl := ih hk
    have hlength := (hordered.sublist (List.take_sublist count (w.timeline userId))).length
    obtain ⟨tweets,hperm,hdata,_⟩ := result_of_reaches rfl (tweetsToRetrieve_eq rfl) hreach hr
    have hnone : min count (w.timeline userId).length - (((w.timeline userId).take count).filterMap w.tweetOf).length = 0 := by
      rw [hlength,List.length_take]
      omega
    have hnil : tweets = [] := by
      refine List.perm_nil.mp (hperm.trans ?_)
      change (List.filterMap _ (page _ _ (min count (w.timeline userId).length - _))).Perm []
      rw [hnone]
      simp [page]
    rw [Except.ok.inj hdata,hnil,newestFirst,List.mergeSort_nil,List.append_nil]

/-- The client comes to see the whole timeline exactly if it fits into the first page. -/
theorem scrolls_all_iff (hordered : Ordered w (w.timeline userId)) :
    (∃ k shown, Scrolls w userId count k shown ∧ shown = (w.timeline userId).filterMap w.tweetOf) ↔
      (w.timeline userId).length ≤ count := by
  constructor
  · rintro ⟨k,shown,hscrolls,hall⟩
    cases k with
    | zero =>
      cases hscrolls
      have hlength := hordered.length
      rw [← hall] at hlength
      simp only [List.length_nil] at hlength
      omega
    | succ k =>
      have hshown := scrolls_shown hordered hscrolls
      have hlength := hordered.length
      rw [← hall,hshown,(hordered.sublist (List.take_sublist _ _)).length,List.length_take] at hlength
      omega
  · intro hle
    obtain ⟨as,s,hreach,hr⟩ := @exists_returned ⟨w,userId,([] : List Tweet).length,count⟩ 0 count rfl rfl (by simp)
      (fun e he => by
        obtain ⟨t,ht,_⟩ := hordered.tweets e ((page_sublist _ _ _).subset he)
        exact ⟨_,ht⟩) _ (List.Perm.refl _)
    have hscrolls : Scrolls w userId count 1 _ := .more .refresh hreach hr
    refine ⟨1,_,hscrolls,?_⟩
    rw [scrolls_shown hordered hscrolls,List.take_of_length_le hle]

end Client

/-- A call is served exactly if it starts at 0 or there is nothing to retrieve, and the client
sees all of a timeline exactly if one page holds it. -/
theorem friendsTimeline_pages {w : World} {userId : JString} (hordered : Ordered w (w.timeline userId)) :
    (∀ start count : ℕ, (Request.mk w userId start count).Served ↔
      start = 0 ∨ count = 0 ∨ w.timeline userId = []) ∧
    ∀ count, (∃ k shown, Scrolls w userId count k shown ∧ shown = (w.timeline userId).filterMap w.tweetOf) ↔
      (w.timeline userId).length ≤ count :=
  ⟨fun _ _ => served_iff rfl rfl hordered,fun _ => scrolls_all_iff hordered⟩

/-- `a` has tweeted at 5 and, if `b` has not done so at the same time, again at 7; `c` follows
both. -/
def twoEntries (date author : JString) : World where
  store
    | .users => fun _ => []
    | .tweets => fun id =>
      if id = tweetKey ['a'] 1 then [{ date := some ['5'], user := some ['a'] }]
      else if id = tweetKey author 2 then [{ date := some date, user := some author }]
      else []
    | .friendsTimeline => fun user =>
      if user = ['c'] then [[tweetKey author 2 ++ ':'::date,tweetKey ['a'] 1 ++ [':','5']]] else []
  history := []

theorem twoEntries_ordered : Ordered (twoEntries ['7'] ['a']) ((twoEntries ['7'] ['a']).timeline ['c']) := by
  have htimeline : (twoEntries ['7'] ['a']).timeline ['c'] =
    [tweetKey ['a'] 2 ++ [':','7'],tweetKey ['a'] 1 ++ [':','5']] := rfl
  rw [htimeline]
  refine ⟨fun e he => ?_,List.pairwise_pair.mpr fun d d' hd hd' => ?_⟩
  · simp only [List.mem_cons,List.not_mem_nil,or_false] at he
    rcases he with rfl | rfl
    · exact ⟨⟨7,none,some ['a'],some (tweetKey ['a'] 2)⟩,by decide,by decide⟩
    · exact ⟨⟨5,none,some ['a'],some (tweetKey ['a'] 1)⟩,by decide,by decide⟩
  · have hnew : timelineDate (tweetKey ['a'] 2 ++ [':','7']) = .ok 7 := by decide
    have hold : timelineDate (tweetKey ['a'] 1 ++ [':','5']) = .ok 5 := by decide
    obtain rfl := Except.ok.inj (hnew.symm.trans hd)
    obtain rfl := Except.ok.inj (hold.symm.trans hd')
    decide

theorem friendsTimeline_pages_twoEntries :
    (∀ start count : ℕ, (Request.mk (twoEntries ['7'] ['a']) ['c'] start count).Served ↔
      start = 0 ∨ count = 0 ∨ (twoEntries ['7'] ['a']).timeline ['c'] = []) ∧
    ∀ count, (∃ k shown, Scrolls (twoEntries ['7'] ['a']) ['c'] count k shown ∧
      shown = ((twoEntries ['7'] ['a']).timeline ['c']).filterMap (twoEntries ['7'] ['a']).tweetOf) ↔
      ((twoEntries ['7'] ['a']).timeline ['c']).length ≤ count :=
  friendsTimeline_pages twoEntries_ordered

/-- The second page of one entry: no retriever, and a latch that nothing brings to 0. -/
theorem second_page_waits : Ordered (twoEntries ['7'] ['a']) ((twoEntries ['7'] ['a']).timeline ['c']) ∧
    ¬ (Request.mk (twoEntries ['7'] ['a']) ['c'] (1 : ℕ) (1 : ℕ)).Served := by
  refine ⟨twoEntries_ordered,fun h => ?_⟩
  rcases (served_iff rfl rfl twoEntries_ordered).mp h with h | h | h
  · simp at h
  · simp at h
  · exact absurd h (by decide)

/-- The result is the tweets of the page that there are, newest first; it is the same for all
orders in which the retrievers finish exactly if no two of these tweets have the same date. -/
theorem completion_order {q : Request} {count : ℕ} (hstart : q.start = 0) (hcount : q.count = count) :
    (∀ as s r, q.Reaches as s → s.result = some r → ∃ list, r = .ok list ∧ list.Perm q.page ∧
      list.Pairwise fun a b => b.date ≤ a.date) ∧
    ((∀ e ∈ q.timeline.take count, ∃ t, q.world.read (retrieve e) = .ok t) →
      ((∀ as s r as' s' r', q.Reaches as s → s.result = some r → q.Reaches as' s' → s'.result = some r' → r = r') ↔
        ∀ a ∈ q.page, ∀ b ∈ q.page, a.date = b.date → a = b)) := by
  have hn := tweetsToRetrieve_eq hcount
  have htake : page q.timeline 0 (min count q.timeline.length - 0) = q.timeline.take count := by
    rw [page,List.drop_zero,Nat.sub_zero,← List.take_eq_take_min]
  have hpage : q.page = (q.timeline.take count).filterMap q.world.tweetOf := by
    rw [Request.page,hstart,hcount]
    rfl
  have hresult {as : List Act} {s : Retrieval} {r : Except Exn (List Tweet)} (hs : q.Reaches as s)
      (hr : s.result = some r) : ∃ tweets, tweets.Perm q.page ∧ r = .ok (newestFirst tweets) := by
    obtain ⟨tweets,hperm,hr,_⟩ := @result_of_reaches q 0 _ hstart hn as s hs r hr
    exact ⟨tweets,by rwa [htake,← hpage] at hperm,hr⟩
  refine ⟨fun as s r hs hr => ?_,fun hread => ?_⟩
  · obtain ⟨tweets,hperm,rfl⟩ := hresult hs hr
    exact ⟨_,rfl,(newestFirst_perm tweets).trans hperm,newestFirst_pairwise tweets⟩
  · have hties : (∀ a ∈ q.page, ∀ b ∈ q.page, a.date = b.date → a = b) ↔
        ∀ a ∈ q.page, ∀ b ∈ q.page, decide (b.date ≤ a.date) = true → decide (a.date ≤ b.date) = true → a = b := by
      refine forall₂_congr fun a _ => forall₂_congr fun b _ => ?_
      rw [decide_eq_true_eq,decide_eq_true_eq]
      exact ⟨fun h hba hab => h (by omega),fun h hdate => h (by omega) (by omega)⟩
    rw [hties,← mergeSort_order_iff newest_trans newest_total]
    constructor
    · intro h l l' hl hl'
      obtain ⟨as,s,hs,hr⟩ := @exists_returned q 0 count hstart hcount (Nat.zero_le _)
        (by rw [htake]; exact hread) l (by rw [htake,← hpage]; exact hl)
      obtain ⟨as',s',hs',hr'⟩ := @exists_returned q 0 count hstart hcount (Nat.zero_le _)
        (by rw [htake]; exact hread) l' (by rw [htake,← hpage]; exact hl')
      exact Except.ok.inj (h as s _ as' s' _ hs hr hs' hr')
    · intro h as s r as' s' r' hs hr hs' hr'
      obtain ⟨tweets,hperm,rfl⟩ := hresult hs hr
      obtain ⟨tweets',hperm',rfl⟩ := hresult hs' hr'
      exact congrArg Except.ok (h tweets tweets' hperm hperm')

theorem completion_order_twoEntries :
    (∀ as s r, (Request.mk (twoEntries ['7'] ['a']) ['c'] 0 5).Reaches as s → s.result = some r →
      ∃ list, r = .ok list ∧ list.Perm (Request.mk (twoEntries ['7'] ['a']) ['c'] 0 5).page ∧
        list.Pairwise fun a b => b.date ≤ a.date) ∧
    ((∀ e ∈ (Request.mk (twoEntries ['7'] ['a']) ['c'] 0 5).timeline.take 5,
        ∃ t, (twoEntries ['7'] ['a']).read (retrieve e) = .ok t) →
      ((∀ as s r as' s' r', (Request.mk (twoEntries ['7'] ['a']) ['c'] 0 5).Reaches as s → s.result = some r →
          (Request.mk (twoEntries ['7'] ['a']) ['c'] 0 5).Reaches as' s' → s'.result = some r' → r = r') ↔
        ∀ a ∈ (Request.mk (twoEntries ['7'] ['a']) ['c'] 0 5).page,
          ∀ b ∈ (Request.mk (twoEntries ['7'] ['a']) ['c'] 0 5).page, a.date = b.date → a = b)) :=
  @completion_order ⟨twoEntries ['7'] ['a'],['c'],0,5⟩ 5 rfl rfl

/-- Two tweets of the same time are returned in the order in which their retrievers finish. -/
theorem same_time_two_orders : ∃ as s as' s' list list',
    (Request.mk (twoEntries ['5'] ['b']) ['c'] 0 2).Reaches as s ∧ s.result = some (.ok list) ∧
    (Request.mk (twoEntries ['5'] ['b']) ['c'] 0 2).Reaches as' s' ∧ s'.result = some (.ok list') ∧
    list ≠ list' := by
  have hread : ∀ e ∈ page ((twoEntries ['5'] ['b']).timeline ['c']) 0 2,
      ∃ t, (twoEntries ['5'] ['b']).read (retrieve e) = .ok t := fun e he => by
    have hpage : page ((twoEntries ['5'] ['b']).timeline ['c']) 0 2 =
      [tweetKey ['b'] 2 ++ [':','5'],tweetKey ['a'] 1 ++ [':','5']] := rfl
    rw [hpage] at he
    simp only [List.mem_cons,List.not_mem_nil,or_false] at he
    rcases he with rfl | rfl
    · exact ⟨some ⟨5,none,some ['b'],some (tweetKey ['b'] 2)⟩,by decide⟩
    · exact ⟨some ⟨5,none,some ['a'],some (tweetKey ['a'] 1)⟩,by decide⟩
  have htweets : (page ((twoEntries ['5'] ['b']).timeline ['c']) 0 2).filterMap (twoEntries ['5'] ['b']).tweetOf =
    [⟨5,none,some ['b'],some (tweetKey ['b'] 2)⟩,⟨5,none,some ['a'],some (tweetKey ['a'] 1)⟩] := by decide
  obtain ⟨as,s,hs,hr⟩ := @exists_returned ⟨twoEntries ['5'] ['b'],['c'],0,2⟩ 0 2 rfl rfl (by decide) hread
    [⟨5,none,some ['b'],some (tweetKey ['b'] 2)⟩,⟨5,none,some ['a'],some (tweetKey ['a'] 1)⟩]
    (List.Perm.of_eq htweets.symm)
  obtain ⟨as',s',hs',hr'⟩ := @exists_returned ⟨twoEntries ['5'] ['b'],['c'],0,2⟩ 0 2 rfl rfl (by decide) hread
    [⟨5,none,some ['a'],some (tweetKey ['a'] 1)⟩,⟨5,none,some ['b'],some (tweetKey ['b'] 2)⟩]
    ((List.Perm.swap _ _ _).trans (List.Perm.of_eq htweets.symm))
  rw [newestFirst,List.mergeSort_of_pairwise (by simp)] at hr hr'
  exact ⟨as,s,as',s',_,_,hs,hr,hs',hr',by decide⟩

end TweetService
end Bigbird
