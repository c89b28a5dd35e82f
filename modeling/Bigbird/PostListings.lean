import Bigbird.IssuedTweets
import Bigbird.TweetPages

/-! What the list of a user's tweets shows in the runs of the services: what he has posted,
in the order in which his calls came, and nothing else. -/
namespace Bigbird
namespace TweetService

open JavaText VersionedStore Programs

/-- The first tweet has the greater number. -/
def Newer (userId : JString) (t t' : Tweet) : Prop :=
  ∃ m n : ℕ, n < m ∧ t.id = some (tweetKey userId m) ∧ t'.id = some (tweetKey userId n)

theorem Newer.asymm {userId : JString} {t t' : Tweet} (h : Newer userId t t') : ¬ Newer userId t' t := by
  obtain ⟨m,n,hlt,hm,hn⟩ := h
  rintro ⟨m',n',hlt',hm',hn'⟩
  have h₁ := (tweetKey_injective (Option.some.inj (hm.symm.trans hn'))).2
  have h₂ := (tweetKey_injective (Option.some.inj (hn.symm.trans hm'))).2
  omega

theorem World.pairwise_posts (w : World) (userId : JString) (n : ℕ) : (w.posts userId n).Pairwise (Newer userId) := by
  induction n with
  | zero => exact List.Pairwise.nil
  | succ n ih =>
    rw [World.posts]
    cases hpost : w.post userId (n+1) with
    | none => exact ih
    | some t =>
      refine List.pairwise_cons.mpr ⟨fun t' ht' => ?_,ih⟩
      obtain ⟨m,_,hmn,_,hid⟩ := World.id_of_mem_posts ht'
      have hmem : t ∈ w.posts userId (n+1) := by simp [World.posts,hpost]
      obtain ⟨tweetMap,_,hmap⟩ := Option.bind_eq_some_iff.mp hpost
      obtain ⟨date,_,rfl⟩ := Option.map_eq_some_iff.mp hmap
      exact ⟨n+1,m,by omega,rfl,hid⟩

theorem World.mem_posts {w : World} {userId : JString} {n m : ℕ} {t : Tweet} (h₁ : 1 ≤ m) (hn : m ≤ n)
    (ht : w.post userId m = some t) : t ∈ w.posts userId n := by
  induction n with
  | zero => omega
  | succ n ih =>
    rw [World.posts,List.mem_append,Option.mem_toList]
    by_cases hm : m = n+1
    · exact Or.inl (hm ▸ ht)
    · exact Or.inr (ih (by omega))

section Take

variable {α : Type} {R : α → α → Prop}

theorem sublist_take {l : List α} (hl : l.Pairwise R) (hasymm : ∀ a b, R a b → ¬ R b a) {a b : α} {k : ℕ}
    (hab : R a b) (ha : a ∈ l) (hb : b ∈ l.take k) : [a,b].Sublist (l.take k) := by
  have hrest : a ∈ l.take k := by
    have hmem : a ∈ l.take k ++ l.drop k := by rwa [List.take_append_drop]
    refine (List.mem_append.mp hmem).resolve_right fun hdrop => ?_
    have hpairwise : (l.take k ++ l.drop k).Pairwise R := by rwa [List.take_append_drop]
    exact hasymm b a ((List.pairwise_append.mp hpairwise).2.2 b hb a hdrop) hab
  obtain ⟨l₁,l₂,heq⟩ := List.append_of_mem hrest
  have hpairwise := hl.sublist (List.take_sublist k l)
  rw [heq] at hb hpairwise ⊢
  obtain ⟨_,_,hbefore⟩ := List.pairwise_append.mp hpairwise
  rcases List.mem_append.mp hb with hb | hb
  · exact absurd (hbefore b hb a List.mem_cons_self) (hasymm a b hab)
  · rcases List.mem_cons.mp hb with rfl | hb
    · exact absurd hab (hasymm b b hab)
    · exact (List.nil_sublist l₁).append ((List.singleton_sublist.mpr hb).cons_cons a)

end Take

variable {s s' : State}

theorem Issuing.datedBy (hs : Issuing s) (userId : JString) (lastTweet : ℕ) : s.world.DatedBy userId lastTweet := by
  intro n _ _ tweetMap hvalue
  obtain ⟨author,text,id,⟨_,date,_,hdate,rfl⟩,_⟩ := hs.stored hvalue
  exact Option.isSome_iff_exists.mpr ⟨date,parse_decimal hdate⟩

/-- The first tweets of a user are listed by their numbers. -/
theorem Issuing.listing (hs : Issuing s) {userId : JString} (huser : s.world.store .users userId ≠ []) {count : ℕ}
    (hcount : count < 2^31) : s.world.read (getTweets userId 0 count) =
      .ok ((s.world.posts userId (tweetCount s.world.history userId)).take count) := by
  obtain ⟨x,xs,hx⟩ := List.exists_cons_of_ne_nil huser
  have hvalue : (s.world.store .users).value userId = some x := Store.value_eq_some.mpr ⟨xs,hx⟩
  have hcounter := parseInt_counter hs.publishing.numbered.inv hvalue
  have hread := read_getTweets_posts hvalue hcounter (hs.datedBy userId _) (Nat.zero_le _) count
  rw [wrap_limit (by norm_num) hcount,if_pos (by omega),Nat.zero_add,Int.toNat_natCast] at hread
  exact hread

theorem Issuing.of_post (hs : Issuing s) {userId : JString} {n : ℕ} {t : Tweet}
    (h : s.world.post userId n = some t) :
    t.user = some userId ∧ ∃ id, Job.tweet userId t.text id ∈ s.threads.map Prod.fst := by
  obtain ⟨tweetMap,hvalue,hmap⟩ := Option.bind_eq_some_iff.mp h
  obtain ⟨date,_,rfl⟩ := Option.map_eq_some_iff.mp hmap
  obtain ⟨author,text,id,⟨m,_,hkey,_,rfl⟩,hjob⟩ := hs.stored hvalue
  obtain ⟨rfl,_⟩ := tweetKey_injective hkey
  exact ⟨rfl,id,hjob⟩

theorem Issuing.post_of_returned (hs : Issuing s) {userId : JString} {text id : Option JString} {t : Tweet}
    (h : Returned s.world userId text id t) : ∃ n : ℕ, 1 ≤ n ∧ n ≤ tweetCount s.world.history userId ∧
      t.id = some (tweetKey userId n) ∧ s.world.post userId n = some t := by
  obtain ⟨tweetId,date,rfl,hdate,hissued,hstored⟩ := h
  obtain ⟨n,rfl⟩ := hs.paired _ _ _ (Or.inr hissued)
  have hw := hs.publishing.numbered.inv
  obtain ⟨p,hp,hid⟩ := List.mem_map.mp (hw.tweets _ hstored)
  obtain ⟨m,h₁,h₂,hm⟩ := hw.consecutive.exists hp
  simp only [hm] at hid
  obtain ⟨hu,rfl⟩ := tweetKey_injective (u:=p.1) hid
  rw [hu] at h₂
  refine ⟨m,h₁,h₂,rfl,?_⟩
  obtain ⟨x,xs,hx⟩ := List.exists_cons_of_ne_nil hstored
  have hvalue : (s.world.store .tweets).value (tweetKey userId m) = some x := Store.value_eq_some.mpr ⟨xs,hx⟩
  obtain ⟨userId',hissued'⟩ := hs.publishing.stored _ x hvalue
  obtain rfl := hs.publishing.unique hissued hissued'
  have hparse : parseLong (some (decimal date)) = some date := @parse_decimal 64 date hdate
  simp [World.post,hvalue,hparse]

theorem Issuing.returned (hs : Issuing s) {userId : JString} {text id : Option JString} {p : Client (Option Tweet)}
    {t : Tweet} (hthread : (Job.tweet userId text id,p) ∈ s.threads) (hreturned : p.outcome = some (.ok (some t))) :
    Returned s.world userId text id t := hs.publishing.changing.post hthread hreturned userId text id t rfl rfl

/-- The list of a registered user: tweets that he was asked for, each with his text, by
descending numbers; one that a call has returned is missing only where the list ends. -/
theorem listed_posts (es : List Event) (s : State) (h : Runs.Reaches machine.step Publishes State.empty es s)
    (userId : JString) (huser : s.world.store .users userId ≠ []) (count : ℕ) (hcount : count < 2^31) :
    ∃ list, s.world.read (getTweets userId 0 count) = .ok list ∧ list.length ≤ count ∧
      list.Pairwise (Newer userId) ∧
      (∀ t ∈ list, t.user = some userId ∧ ∃ id, Event.start (.tweet userId t.text id) ∈ es) ∧
      ∀ text id p t, (Job.tweet userId text id,p) ∈ s.threads → p.outcome = some (.ok (some t)) →
        t ∈ list ∨ list.length = count ∧ ∀ t' ∈ list, Newer userId t' t := by
  have hs := issuing_of_reaches h
  refine ⟨_,hs.listing huser hcount,by simp,?_,fun t ht => ?_,fun text id p t hthread hreturned => ?_⟩
  · exact (World.pairwise_posts _ _ _).sublist (List.take_sublist _ _)
  · obtain ⟨n,_,_,hpost,_⟩ := World.id_of_mem_posts (List.mem_of_mem_take ht)
    obtain ⟨huserId,id,hjob⟩ := hs.of_post hpost
    exact ⟨huserId,id,tweet_started (h.mono fun _ _ hc => hc.1) hjob⟩
  · obtain ⟨n,h₁,hn,_,hpost⟩ := hs.post_of_returned (hs.returned hthread hreturned)
    have hmem := World.mem_posts h₁ hn hpost
    rw [← List.take_append_drop count (s.world.posts userId (tweetCount s.world.history userId))] at hmem
    refine (List.mem_append.mp hmem).imp_right fun hdrop => ⟨?_,fun t' ht' => ?_⟩
    · have hlength := List.length_pos_of_mem hdrop
      rw [List.length_drop] at hlength
      rw [List.length_take]
      omega
    · have hpairwise := s.world.pairwise_posts userId (tweetCount s.world.history userId)
      rw [← List.take_append_drop count (s.world.posts userId (tweetCount s.world.history userId))] at hpairwise
      exact (List.pairwise_append.mp hpairwise).2.2 t' ht' t hdrop

theorem listed_posts_one_user : ∃ s : State, Runs.Reaches machine.step Publishes State.empty registerAndTweet s ∧
    ∃ list, s.world.read (getTweets ['a'] 0 (20 : ℕ)) = .ok list ∧ list.length ≤ 20 ∧ list.Pairwise (Newer ['a']) ∧
      (∀ t ∈ list, t.user = some ['a'] ∧ ∃ id, Event.start (.tweet ['a'] t.text id) ∈ registerAndTweet) ∧
      ∀ text id p t, (Job.tweet ['a'] text id,p) ∈ s.threads → p.outcome = some (.ok (some t)) →
        t ∈ list ∨ list.length = 20 ∧ ∀ t' ∈ list, Newer ['a'] t' t := by
  have hrun : ((Runs.runIf machine.step Publishes registerAndTweet State.empty).map fun s =>
      (s.world.store .users ['a']).length) = some 2 := by decide +kernel
  obtain ⟨s,hs,hp⟩ := Option.map_eq_some_iff.mp hrun
  have h := Runs.reaches_of_runIf .start hs
  exact ⟨s,h,listed_posts registerAndTweet s h ['a'] (List.ne_nil_of_length_pos (by omega)) 20 (by norm_num)⟩

section Later

/-- Threads that watch the counters: every call finds them in order, and all is allowed. -/
def watching : Logic machine where
  inv _ := True
  rely _ := World.Grows
  guar _ := World.Grows
  cond _ _ _ := Numbered
  pre _ _ := True
  post _ _ _ := True
  apart _ _ := True
  rely_refl _ := World.Grows.refl
  rely_trans _ _ _ _ := World.Grows.trans
  rely_of_guar _ _ _ _ _ h := h
  apart_symm _ _ _ := trivial

variable {j : Job} {w : World} {α : Type}

theorem watching_anyhow (p : Client α) : watching.wp j p Anyhow w := by
  induction p generalizing w with
  | ret a => exact fun _ _ _ => trivial
  | throw e => exact fun _ _ _ => trivial
  | call op k ih =>
    intro w' _ _ choice r w'' new _ hexec
    exact ⟨trivial,exec_grows hexec,fun _ _ => ⟨trivial,trivial,fun _ _ => trivial⟩,ih r⟩

theorem watching_logs (j : Job) : Logs watching j := fun op r w _ _ => ⟨trivial,w.grows_log j op r,by simp⟩

theorem watching_since {p : Client α} {Q : Except Exn α → World → Prop} (h : watching.wp j p Q w) :
    watching.wp j p (fun r w' => w.Grows w' ∧ Q r w') w :=
  watching.wp_since (T:=World.Grows) (fun _ _ _ => World.Grows.trans) (fun _ _ h => h) (fun _ _ h => h) h

theorem tweetCount_mono {h h' : History} (hs : h <:+ h') (userId : JString) :
    tweetCount h userId ≤ tweetCount h' userId :=
  ((hs.filterMap counterWrite).map _).sublist.count_le userId

/-- The id stands for a number that had not been given when `c` numbers had. -/
def Beyond (userId : JString) (c : ℕ) (tweetId : JString) : Prop :=
  ∃ n : ℕ, c < n ∧ tweetId = tweetKey userId n

theorem beyond_tweetUpdate (userId : JString) (tweetMap : TweetMap) :
    watching.wp j (tweetUpdate userId tweetMap)
      (fun r _ => ∀ tweetId, r = .ok tweetId → Beyond userId (tweetCount w.history userId) tweetId) w := by
  have hthrow {e : Exn} {w' : World} : watching.wp j (.throw e : Client JString)
      (fun r _ => ∀ tweetId, r = .ok tweetId → Beyond userId (tweetCount w.history userId) tweetId) w' :=
    Logic.wp_throw fun _ _ _ _ h => by simp at h
  refine wp_get (watching_logs j) (fun w₁ _ hr₁ hw₁ => ?_) fun _ _ _ _ => hthrow
  cases hget : (w₁.store .users).get userId with
  | none => exact hthrow
  | some x =>
    have hparse := parseInt_counter hw₁ (Store.value_of_get_eq hget)
    have hbelow := hw₁.below userId
    change watching.wp _ (orThrow .numberFormat (parseInt x.value.lastTweet) >>= _) _ _
    rw [hparse]
    refine wp_put (watching_logs j) (fun w₂ _ _ _ _ => ⟨⟨trivial,World.grows_logWrite _ _ _ _ _ _ _,by simp⟩,?_⟩)
      (fun _ _ _ _ _ => hthrow) fun _ _ _ _ => hthrow
    refine wp_storeRemotely (watching_logs j) fun w₃ success _ _ => ?_
    cases success with
    | false => exact hthrow
    | true =>
      refine Logic.wp_bind (Logic.wp_mono (watching_anyhow _) fun r w₄ _ _ => ?_)
      cases r with
      | error e => exact hthrow
      | ok a =>
        refine Logic.wp_ret fun _ _ _ tweetId h => ?_
        cases h
        refine ⟨tweetCount w₁.history userId + 1,Nat.lt_succ_of_le (tweetCount_mono hr₁.history userId),?_⟩
        rw [@wrap_eq_self 31 _ ⟨by omega,by omega⟩]
        push_cast
        rfl

theorem beyond_tweet (userId : JString) (text id : Option JString) {c : ℕ} (hc : c ≤ tweetCount w.history userId) :
    watching.wp j (tweet userId text id)
      (fun r _ => ∀ t, r = .ok t → ∃ tweetId, t.id = some tweetId ∧ Beyond userId c tweetId) w := by
  have hthrow {e : Exn} {w' : World} : watching.wp j (.throw e : Client Tweet)
      (fun r _ => ∀ t, r = .ok t → ∃ tweetId, t.id = some tweetId ∧ Beyond userId c tweetId) w' :=
    Logic.wp_throw fun _ _ _ _ h => by simp at h
  refine wp_now (watching_logs j) fun w₁ date _ hr₁ _ => ?_
  refine wp_get (watching_logs j) (fun w₂ _ hr₂ _ => ?_) fun _ _ _ _ => hthrow
  cases (w₂.store .users).get userId with
  | none => exact hthrow
  | some x =>
    let tweetMap : TweetMap := ⟨some (decimal date),text,some userId,id⟩
    change watching.wp j (applyUpdate (tweetUpdate userId tweetMap) >>= fun success =>
      orThrow .backend success >>= fun tweetId =>
        .ret (⟨date,text,some userId,some tweetId⟩ : Tweet)) _ _
    have hgrows : w.Grows (w₂.log j (.get .users userId) (.ok (some x))) :=
      hr₁.trans (hr₂.of_log.trans (w₂.grows_log j (.get .users userId) (.ok (some x))))
    refine Logic.wp_bind (Logic.wp_mono (watching.wp_retry
      (Q:=fun r _ => ∀ tweetId, r = .ok (some tweetId) → Beyond userId c tweetId) (fun _ w' => w.Grows w')
      (by rintro w' - - tweetId ⟨⟩) (fun _ _ _ hr h => h.trans hr) (fun n w₃ h₃ => ?_) hgrows) fun r w₃ _ h => ?_)
    · refine Logic.wp_mono (watching_since (beyond_tweetUpdate userId tweetMap)) fun r w₄ _ h => ?_
      cases r with
      | ok tweetId =>
        rintro _ ⟨⟩
        obtain ⟨m,hm,hid⟩ := h.2 tweetId rfl
        exact ⟨m,Nat.lt_of_le_of_lt (hc.trans (tweetCount_mono h₃.history userId)) hm,hid⟩
      | error e =>
        dsimp only
        split
        · exact h₃.trans h.1
        · simp
    · rcases r with e | success
      · exact hthrow
      · cases success with
        | none => exact hthrow
        | some tweetId =>
          refine Logic.wp_ret fun w₄ _ _ t ht => ?_
          cases ht
          exact ⟨tweetId,rfl,h tweetId rfl⟩

def ReturnsBeyond (userId : JString) (c : ℕ) (r : Except Exn (Option Tweet)) (_ : World) : Prop :=
  ∀ t, r = .ok (some t) → ∃ tweetId, t.id = some tweetId ∧ Beyond userId c tweetId

theorem beyond_body (userId : JString) (text id : Option JString) {c : ℕ} (hc : c ≤ tweetCount w.history userId) :
    watching.wp j (Job.tweet userId text id).body (ReturnsBeyond userId c) w := by
  change watching.wp j (some <$> tweet userId text id) _ w
  rw [map_eq_pure_bind]
  refine Logic.wp_bind (Logic.wp_mono (beyond_tweet userId text id hc) fun r w' _ h => ?_)
  cases r with
  | ok t =>
    refine Logic.wp_ret fun _ _ _ t' ht' => ?_
    cases ht'
    exact h t rfl
  | error e => exact Logic.wp_throw fun _ _ _ _ h => by simp at h

/-- The threads that have started since `s` are on the way to numbers that `s` does not have. -/
structure Follows (s s' : State) : Prop where
  issuing : Issuing s'
  good : watching.Good s'
  extended : s.world.Extends s'.world
  later : ∀ i ≥ s.threads.length, ∀ userId text id p, s'.threads[i]? = some (Job.tweet userId text id,p) →
    watching.wp (.tweet userId text id) p (ReturnsBeyond userId (tweetCount s.world.history userId)) s'.world

theorem watching_admits (hs : Issuing s) (e : Event) : watching.Admits e s := by
  cases e with
  | start job => exact ⟨trivial,fun _ _ => trivial⟩
  | thread i choice => exact fun _ _ _ _ => hs.publishing.numbered.inv

theorem Follows.step {s₀ : State} (hs : Follows s₀ s) {e : Event} (hc : Publishes e s)
    (h : machine.step e s = some s') : Follows s₀ s' := by
  have hadmits := watching_admits hs.issuing e
  have hextends := hs.extended.trans (extends_of_step hs.issuing.publishing.changing h)
  refine ⟨issuing_step hs.issuing hc h,
    watching.good_step (fun j w _ _ => watching_anyhow _) hs.good hadmits h,hextends,?_⟩
  intro i hi userId text id p hp
  cases hold : s.threads[i]? with
  | none =>
    obtain rfl : p = (Job.tweet userId text id).body := Machine.body_of_new h hold hp
    exact beyond_body userId text id (tweetCount_mono hextends.grows.history userId)
  | some t =>
    obtain ⟨j,q⟩ := t
    by_cases hj : j = .tweet userId text id
    · subst hj
      obtain ⟨p',hp',hwp⟩ := watching.wp_step hs.good hadmits h hold (hs.later i hi userId text id q hold)
      obtain rfl : p' = p := by simpa using hp'.symm.trans hp
      exact hwp
    · obtain ⟨p',hp',_⟩ := watching.wp_step hs.good hadmits h hold (watching_anyhow q)
      exact absurd (congrArg Prod.fst (Option.some.inj (hp'.symm.trans hp))) hj

theorem Issuing.follows (hs : Issuing s) : Follows s s := by
  refine ⟨hs,⟨trivial,fun t _ => watching_anyhow t.2,?_⟩,World.Extends.refl _,fun i hi userId text id p hp => ?_⟩
  · exact List.pairwise_of_forall fun _ _ => trivial
  · rw [List.getElem?_eq_none hi] at hp
    cases hp

end Later

/-- A call that starts after another one of the same user has returned gets the greater
number, so that its tweet stands before the other wherever that one is listed. -/
theorem later_tweet_first (es es' : List Event) (s s' : State)
    (h : Runs.Reaches machine.step Publishes State.empty es s)
    (h' : Runs.Reaches machine.step Publishes s es' s') (userId : JString) (text id : Option JString)
    (p : Client (Option Tweet)) (t : Tweet) (hthread : (Job.tweet userId text id,p) ∈ s.threads)
    (hreturned : p.outcome = some (.ok (some t))) (i : ℕ) (hi : s.threads.length ≤ i) (text' id' : Option JString)
    (p' : Client (Option Tweet)) (t' : Tweet) (hthread' : s'.threads[i]? = some (Job.tweet userId text' id',p'))
    (hreturned' : p'.outcome = some (.ok (some t'))) (count : ℕ) (hcount : count < 2^31) :
    ∃ list, s'.world.read (getTweets userId 0 count) = .ok list ∧ (t ∈ list → [t',t].Sublist list) := by
  have hs := issuing_of_reaches h
  have hfollows : Follows s s' := h'.invariant hs.follows fun _ _ _ hi hc hstep => hi.step hc hstep
  have hs' := hfollows.issuing
  obtain ⟨n,h₁,hn,hid,hpost⟩ := hs.post_of_returned (hs.returned hthread hreturned)
  obtain ⟨n',h₁',hn',hid',hpost'⟩ := hs'.post_of_returned (hs'.returned (List.mem_of_getElem? hthread') hreturned')
  have hnewer : n < n' := by
    have hwp := hfollows.later i hi userId text' id' p' hthread'
    have hreturns : ReturnsBeyond userId (tweetCount s.world.history userId) (.ok (some t')) s'.world := by
      cases p' with
      | ret a =>
        obtain rfl : a = some t' := by simpa [Prog.outcome] using hreturned'
        exact hwp s'.world trivial (World.Grows.refl _)
      | throw e => simp [Prog.outcome] at hreturned'
      | call op k => simp [Prog.outcome] at hreturned'
    obtain ⟨tweetId,htweetId,m,hm,rfl⟩ := hreturns t' rfl
    have heq := (tweetKey_injective (Option.some.inj (htweetId.symm.trans hid'))).2
    omega
  have huser : s'.world.store .users userId ≠ [] := by
    intro hnil
    have hcount : tweetCount s'.world.history userId = 0 := hs'.publishing.numbered.inv.count_new hnil
    omega
  refine ⟨_,hs'.listing huser hcount,fun ht => ?_⟩
  have hmem := World.mem_posts h₁' hn' hpost'
  exact sublist_take (s'.world.pairwise_posts userId _) (fun _ _ => Newer.asymm) ⟨n',n,hnewer,hid',hid⟩ hmem ht

def tweetAgain : List Event :=
  [.start (.tweet ['a'] (some ['y','o']) none),.thread 2 (.time 4),.thread 2 .go,.thread 2 .go,.thread 2 .go,
    .thread 2 (.stored true),.thread 2 .go,.thread 2 .go,.thread 2 (.order []),.thread 2 .go,.thread 2 .go]

theorem later_tweet_first_one_user : ∃ s s' : State,
    Runs.Reaches machine.step Publishes State.empty registerAndTweet s ∧
    Runs.Reaches machine.step Publishes s tweetAgain s' ∧
    ∃ list, s'.world.read (getTweets ['a'] 0 (20 : ℕ)) = .ok list ∧
    ((⟨5,some ['h','i'],some ['a'],some ['a','-','1']⟩ : Tweet) ∈ list →
      [(⟨4,some ['y','o'],some ['a'],some ['a','-','2']⟩ : Tweet),
        ⟨5,some ['h','i'],some ['a'],some ['a','-','1']⟩].Sublist list) := by
  have hfirst : ((Runs.runIf machine.step Publishes registerAndTweet State.empty).map fun s =>
      s.threads.map fun t => (t.1,t.2.outcome)) =
      some [(.newUser ⟨['a'],none,none⟩,some (.ok none)),(.tweet ['a'] (some ['h','i']) none,
        some (.ok (some ⟨5,some ['h','i'],some ['a'],some ['a','-','1']⟩)))] := by decide +kernel
  have hsecond : ((Runs.runIf machine.step Publishes registerAndTweet State.empty).bind fun s =>
      (Runs.runIf machine.step Publishes tweetAgain s).bind fun s' =>
        s'.threads[2]?.map fun t => (t.1,t.2.outcome)) =
      some (.tweet ['a'] (some ['y','o']) none,
        some (.ok (some ⟨4,some ['y','o'],some ['a'],some ['a','-','2']⟩))) := by decide +kernel
  obtain ⟨s,hs,h₁⟩ := Option.map_eq_some_iff.mp hfirst
  rw [hs,Option.bind_some] at hsecond
  obtain ⟨s',hs',h₂⟩ := Option.bind_eq_some_iff.mp hsecond
  have hmem : (Job.tweet ['a'] (some ['h','i']) none,
      some (.ok (some ⟨5,some ['h','i'],some ['a'],some ['a','-','1']⟩))) ∈
      s.threads.map fun t => (t.1,t.2.outcome) := by simp [h₁]
  have hlength : s.threads.length ≤ 2 := by simpa using (congrArg List.length h₁).le
  obtain ⟨⟨j,p⟩,ht,heq⟩ := List.mem_map.mp hmem
  obtain ⟨rfl,hp⟩ := Prod.mk.inj heq
  obtain ⟨⟨j',p'⟩,ht',heq'⟩ := Option.map_eq_some_iff.mp h₂
  obtain ⟨rfl,hp'⟩ := Prod.mk.inj heq'
  have h := Runs.reaches_of_runIf .start hs
  have h' := Runs.reaches_of_runIf .start hs'
  exact ⟨s,s',h,h',later_tweet_first _ _ s s' h h' _ _ _ p _ ht hp 2 hlength _ _ p' _ ht' hp' 20 (by norm_num)⟩

end TweetService
end Bigbird
