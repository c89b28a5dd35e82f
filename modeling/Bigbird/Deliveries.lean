import Bigbird.Timelines

/-! The fan-out of tweets: what the timelines hold when several `TweetCommand`s and the
tasks they submit have ended, in whatever order their calls are made. -/
namespace Bigbird
namespace TweetService

open JavaText VersionedStore Programs

def Job.isCommand : Job → Bool
  | .execute _ => true
  | _ => false

/-- A call that no other client gets in the way of: the stores respond, the tweet is not
stored yet, and the timeline of a registered user starts with a well-formed entry and has
not been written since it was read. -/
def Undisturbed (_ : Job) (op : Op) (choice : Choice) (w : World) : Prop :=
  choice ≠ .fails ∧ match op with
  | .put .tweets tweetId x => x.version = (w.store .tweets tweetId).length
  | .put .friendsTimeline user x => w.store .users user ≠ [] →
      x.version = (w.store .friendsTimeline user).length
  | .get .friendsTimeline user => w.store .users user ≠ [] → HeadDated (w.timeline user)
  | _ => True

instance (j : Job) (op : Op) (choice : Choice) (w : World) :
    Decidable (Undisturbed j op choice w) := by
  unfold Undisturbed
  refine @instDecidableAnd _ _ ?_ ?_
  · infer_instance
  · induction op using Op.casesOn with
    | get n | put n => induction n using StoreName.casesOn <;> infer_instance
    | _ => infer_instance

/-- What a job needs to start: a registered author, a tweet with a date, and no earlier run. -/
def Ready (registered : JString → Prop) (j : Job) (w : World) : Prop :=
  match j with
  | .execute (.tweet userId _ tweetMap) =>
    registered userId ∧ tweetMap.Dated ∧ ∀ e, (j,e) ∉ w.history
  | .updateTimeline _ tweetMap _ => tweetMap.Dated
  | _ => False

/-- Timelines lose no entry, and the jobs in `P` make no call. -/
structure Stays (P : Job → Prop) (w w' : World) : Prop where
  grows : w.Grows w'
  timeline : ∀ user, ∀ e ∈ w.timeline user, e ∈ w'.timeline user
  silent : ∀ j, P j → ∀ e, (j,e) ∈ w'.history → (j,e) ∈ w.history

theorem Stays.refl (P : Job → Prop) (w : World) : Stays P w w :=
  ⟨World.Grows.refl w,fun _ _ h => h,fun _ _ _ h => h⟩

theorem Stays.trans {P : Job → Prop} {w w' w'' : World} (h : Stays P w w') (h' : Stays P w' w'') :
    Stays P w w'' :=
  ⟨h.grows.trans h'.grows,fun user e he => h'.timeline user e (h.timeline user e he),
    fun j hj e he => h.silent j hj e (h'.silent j hj e he)⟩

theorem Stays.mono {P P' : Job → Prop} {w w' : World} (h : Stays P w w') (hP : ∀ j, P' j → P j) :
    Stays P' w w' := ⟨h.grows,h.timeline,fun j hj => h.silent j (hP j hj)⟩

/-- The author's entry is in his timeline and a task was submitted for every follower that
was read; the task leaves the entry in the timeline of a registered follower. -/
def Delivers (registered : JString → Prop) (j : Job) (w : World) : Prop :=
  match j with
  | .execute (.tweet userId tweetId tweetMap) => entry tweetId tweetMap ∈ w.timeline userId ∧
      ∀ x, (j,⟨.get .users userId,.ok (some x)⟩) ∈ w.history →
        ∀ f ∈ asSet x.value.followers,
          (j,⟨.submit (.updateTimeline tweetId tweetMap f),.ok ()⟩) ∈ w.history
  | .updateTimeline tweetId tweetMap user =>
    registered user → entry tweetId tweetMap ∈ w.timeline user
  | _ => True

def deliveries (registered : JString → Prop) : Logic machine where
  inv w := ∀ u, registered u → w.store .users u ≠ []
  rely j := Stays fun i => i = j ∧ i.isCommand = true
  guar j := Stays fun i => i ≠ j ∧ i.isCommand = true
  cond := Undisturbed
  pre := Ready registered
  post j _ w := Delivers registered j w
  apart i j := i.isCommand = true → j.isCommand = true → i ≠ j
  rely_refl _ := Stays.refl _
  rely_trans _ _ _ _ := Stays.trans
  rely_of_guar i j w w' hij h := h.mono (by
    rintro k ⟨rfl,hk⟩
    refine ⟨?_,hk⟩
    rintro rfl
    exact hij hk hk rfl)
  apart_symm i j h hj hi := Ne.symm (h hi hj)

theorem stays_log (w : World) (j : Job) (op : Op) (r : Except Exn op.Res) :
    Stays (fun i => i ≠ j ∧ i.isCommand = true) w (w.log j op r) := by
  refine ⟨w.grows_log j op r,fun _ _ h => h,fun i hi e he => ?_⟩
  rcases List.mem_cons.mp he with heq | he
  · exact absurd (congrArg Prod.fst heq) hi.1
  · exact he

theorem deliveries_logs (registered : JString → Prop) (j : Job) : Logs (deliveries registered) j :=
  fun op r w hi _ => ⟨hi,stays_log w j op r,by simp⟩

theorem stays_logWrite {w : World} {n : StoreName} {key : JString} {v : Val n} (j : Job) (op : Op)
    (r : Except Exn op.Res)
    (h : ∀ user, ∀ e ∈ w.timeline user, e ∈ (w.logWrite j op r n key v).timeline user) :
    Stays (fun i => i ≠ j ∧ i.isCommand = true) w (w.logWrite j op r n key v) := by
  refine ⟨w.grows_logWrite j op r n key v,h,fun i hi e he => ?_⟩
  rcases List.mem_cons.mp he with heq | he
  · exact absurd (congrArg Prod.fst heq) hi.1
  · exact he

variable {registered : JString → Prop}

theorem wp_deliver (j : Job) {tweetId : JString} {tweetMap : TweetMap} (hdated : tweetMap.Dated)
    (user : JString) (w : World) :
    (deliveries registered).wp j (updateTimeline tweetId tweetMap user) (fun r w =>
      registered user → r = .ok () ∧ entry tweetId tweetMap ∈ w.timeline user) w := by
  refine wp_get (deliveries_logs _ j) (fun w₁ hi₁ _ hc₁ => ?_)
    fun _ _ _ hc => absurd rfl hc.1
  change (deliveries registered).wp j
    (liftExcept (insertTweet tweetId tweetMap (w₁.getTimeline user).value) >>= _) _ _
  cases hinsert : insertTweet tweetId tweetMap (w₁.getTimeline user).value with
  | error e =>
    refine fun w₂ _ _ hreg => ?_
    rw [getTimeline_value] at hinsert
    obtain ⟨list,hlist⟩ := insertTweet_ok hdated (hc₁.2 (hi₁ user hreg)) tweetId
    simp [hinsert] at hlist
  | ok list =>
    have hperm := insertTweet_perm hinsert
    refine wp_of_bind_pure (wp_put (deliveries_logs _ j) (fun w₂ hi₂ hr₂ _ hv => ⟨⟨?_,?_,?_⟩,?_⟩)
      (fun w₂ hi₂ _ hc₂ hv => ?_) fun _ _ _ hc => absurd rfl hc.1)
    · exact fun u hu => ((w₂.grows_logWrite _ _ _ _ _ _).store .users).ne_nil (hi₂ u hu)
    · refine stays_logWrite j _ _ fun u e he => ?_
      by_cases hu : u = user
      · subst hu
        rw [timeline_of_get hr₂.grows.of_log hv] at he
        rw [timeline_write_self]
        exact hperm.mem_iff.mpr (List.mem_cons_of_mem _ he)
      · rwa [timeline_write_ne _ _ _ _ hu]
    · simp
    · refine fun w₃ _ hr₃ _ => ⟨rfl,hr₃.timeline user _ ?_⟩
      rw [timeline_write_self]
      exact hperm.mem_iff.mpr List.mem_cons_self
    · exact fun _ _ _ hreg => absurd (hc₂.2 (hi₂ user hreg)) hv

theorem wp_submitTasks (j : Job) {tweetId : JString} {tweetMap : TweetMap} (hdated : tweetMap.Dated)
    (followers : List JString) (w : World) :
    (deliveries registered).wp j (submitAll tweetId tweetMap followers) (fun r w => r = .ok () ∧
      ∀ f ∈ followers, (j,⟨.submit (.updateTimeline tweetId tweetMap f),.ok ()⟩) ∈ w.history) w := by
  induction followers generalizing w with
  | nil => exact fun _ _ _ => ⟨rfl,by simp⟩
  | cons follower followers ih =>
    refine wp_submit (deliveries_logs _ j) (fun w₁ hi₁ _ _ => ⟨⟨hi₁,stays_log _ _ _ _,?_⟩,?_⟩)
      fun _ _ _ hc => absurd rfl hc.1
    · rintro u ⟨⟩
      exact ⟨hdated,by simp [deliveries,Job.isCommand],by simp [deliveries,Job.isCommand]⟩
    · refine (deliveries registered).wp_mono ((deliveries registered).wp_since (T:=World.Grows)
        (fun _ _ _ => World.Grows.trans) (fun _ _ h => Stays.grows h) (fun _ _ h => Stays.grows h)
        (ih _)) fun r w₂ _ h => ?_
      obtain ⟨hgrows,hr,hall⟩ := h
      refine ⟨hr,fun f hf => ?_⟩
      rcases List.mem_cons.mp hf with rfl | hf
      · exact hgrows.history.subset List.mem_cons_self
      · exact hall f hf

def OnlyRead (j : Job) (userId : JString) (x : Versioned UserMap) (w : World) : Prop :=
  ∀ y, (j,⟨.get .users userId,.ok (some y)⟩) ∈ w.history → y = x

theorem onlyRead_exec {j : Job} {userId : JString} {x : Versioned UserMap} {op : Op}
    (hop : op ≠ .get .users userId) {w w' : World} {choice : Choice} {r : Except Exn op.Res}
    {new : Option Job} (h : exec j op choice w = some (r,w',new)) (hw : OnlyRead j userId x w) :
    OnlyRead j userId x w' := by
  intro y hy
  rw [exec_history h] at hy
  rcases List.mem_cons.mp hy with heq | hy
  · exact absurd (congrArg (fun e => e.2.1) heq).symm hop
  · exact hw y hy

/-- The part of a `TweetCommand` after it has read the author. -/
def fanOut (userId tweetId : JString) (tweetMap : TweetMap) (user : UserMap) : Client Unit := do
  let followers ← iterator (asSet user.followers)
  submitAll tweetId tweetMap followers
  updateTimeline tweetId tweetMap userId

theorem all_fanOut (userId tweetId : JString) (tweetMap : TweetMap) (user : UserMap) :
    (fanOut userId tweetId tweetMap user).All (· ≠ .get .users userId) := by
  refine (Prog.All.op (by simp)).bind fun followers => ?_
  refine Prog.All.bind ?_ fun _ => ?_
  · induction followers with
    | nil => trivial
    | cons f followers ih => exact (Prog.All.op (by simp)).bind fun _ => ih
  · exact (Prog.All.op (by simp)).bind fun _ => (all_liftExcept _).bind fun _ => Prog.All.op (by simp)

theorem wp_fanOut (j : Job) {userId tweetId : JString} {tweetMap : TweetMap} (user : UserMap)
    (hdated : tweetMap.Dated) (hreg : registered userId) (w : World) :
    (deliveries registered).wp j (fanOut userId tweetId tweetMap user) (fun r w => r = .ok () ∧
      entry tweetId tweetMap ∈ w.timeline userId ∧ ∀ f ∈ asSet user.followers,
        (j,⟨.submit (.updateTimeline tweetId tweetMap f),.ok ()⟩) ∈ w.history) w := by
  refine wp_iterator (deliveries_logs _ j) fun w₁ l _ _ hl => ?_
  refine Logic.wp_bind ((deliveries registered).wp_mono (wp_submitTasks j hdated l _)
    fun r w₂ _ h => ?_)
  obtain ⟨rfl,hsubmitted⟩ := h
  refine (deliveries registered).wp_mono ((deliveries registered).wp_since (T:=World.Grows)
    (fun _ _ _ => World.Grows.trans) (fun _ _ h => Stays.grows h) (fun _ _ h => Stays.grows h)
    (wp_deliver j hdated userId w₂)) fun r w₃ _ h => ?_
  obtain ⟨hgrows,h⟩ := h
  obtain ⟨hr,hentry⟩ := h hreg
  exact ⟨hr,hentry,fun f hf => hgrows.history.subset (hsubmitted f (hl.mem_iff.mpr hf))⟩

/-- A `TweetCommand` that nobody gets in the way of makes one attempt and delivers. -/
theorem wp_tweetAttempt {userId tweetId : JString} {tweetMap : TweetMap} (w : World)
    (hready : Ready registered (.execute (.tweet userId tweetId tweetMap)) w) :
    (deliveries registered).wp (.execute (.tweet userId tweetId tweetMap))
      (tweetCommand userId tweetId tweetMap) (fun r w => r = .ok () ∧
        Delivers registered (.execute (.tweet userId tweetId tweetMap)) w) w := by
  obtain ⟨hreg,hdated,hnew⟩ := hready
  have hlogs := deliveries_logs registered (.execute (.tweet userId tweetId tweetMap))
  refine wp_put hlogs (fun w₁ hi₁ hr₁ _ _ => ⟨⟨?_,?_,by simp⟩,?_⟩)
    (fun w₁ _ _ hc hv => absurd hc.2 hv) fun _ _ _ hc => absurd rfl hc.1
  · exact fun u hu => ((w₁.grows_logWrite _ _ _ _ _ _).store .users).ne_nil (hi₁ u hu)
  · refine stays_logWrite _ _ _ fun u e he => ?_
    simpa [World.timeline,World.logWrite] using he
  · refine wp_getValue hlogs (fun w₂ hi₂ hr₂ _ => ?_) fun _ _ _ hc => absurd rfl hc.1
    obtain ⟨user,users,huser⟩ := List.exists_cons_of_ne_nil (hi₂ userId hreg)
    have hvalue : (w₂.store .users).value userId = some user :=
      Store.value_eq_some.mpr ⟨users,huser⟩
    have hget : (w₂.store .users).get userId = some ⟨user,users.length+1⟩ :=
      Store.get_eq_some.mpr ⟨users,huser,rfl⟩
    rw [hvalue,hget]
    refine (deliveries registered).wp_mono ((deliveries registered).wp_frame
      (A:=OnlyRead _ userId ⟨user,users.length+1⟩) (wp_fanOut _ user hdated hreg _)
      (all_fanOut userId tweetId tweetMap user) (fun w w' hr hA y hy => hA y (hr.silent _ ⟨rfl,rfl⟩ _ hy))
      (fun op hop w choice r w' new => onlyRead_exec hop) ?_) fun r w₃ _ h => ?_
    · intro y hy
      rcases List.mem_cons.mp hy with heq | hy
      · injection heq with _ heq
        injection heq with _ heq
        exact Option.some.inj (Except.ok.inj heq)
      · rcases List.mem_cons.mp (hr₂.silent _ ⟨rfl,rfl⟩ _ hy) with heq | hy
        · simp at heq
        · exact absurd (hr₁.silent _ ⟨rfl,rfl⟩ _ hy) (hnew _)
    · obtain ⟨⟨hr,hentry,hsubmitted⟩,honly⟩ := h
      refine ⟨hr,hentry,fun y hy => ?_⟩
      rw [honly y hy]
      exact hsubmitted

theorem wp_deliveries (j : Job) (w : World) (hready : Ready registered j w) :
    (deliveries registered).wp j j.body (fun _ w => Delivers registered j w) w := by
  cases j with
  | newUser => exact hready.elim
  | tweet => exact hready.elim
  | execute c =>
    cases c with
    | tweet userId tweetId tweetMap =>
      refine Logic.wp_map (Logic.wp_map (Logic.wp_retry_ok ?_))
      refine (deliveries registered).wp_mono (wp_tweetAttempt w hready) fun r w' _ h => ?_
      exact ⟨⟨(),h.1⟩,h.2⟩
    | startFollowing => exact hready.elim
    | stopFollowing => exact hready.elim
  | updateTimeline tweetId tweetMap user =>
    refine Logic.wp_map ((deliveries registered).wp_mono (wp_deliver _ hready user w)
      fun r w' _ h hreg => (h hreg).2)

def Submitted (s : State) : Prop :=
  ∀ j task, (j,⟨.submit task,.ok ()⟩) ∈ s.world.history → task ∈ s.threads.map Prod.fst

theorem submitted_step {e : Event} {s s' : State} (hs : Submitted s)
    (h : machine.step e s = some s') : Submitted s' := by
  intro j task hmem
  cases e with
  | start job =>
    have hworld : s'.world = s.world := by
      obtain rfl := Option.some.inj h
      rfl
    exact Machine.mem_jobs_step h (hs j task (hworld ▸ hmem))
  | thread i choice =>
    have hold := fun hmem => Machine.mem_jobs_step h (hs j task hmem)
    obtain ⟨job,op,k,r,w,new,ht,hexec,rfl⟩ := Machine.thread_step h
    simp only [exec_history hexec] at hmem
    rcases List.mem_cons.mp hmem with heq | hmem
    · injection heq with _ heq
      injection heq with hop hr
      subst hop
      obtain rfl := eq_of_heq hr
      obtain rfl := (exec_cases hexec).1
      rw [List.map_append]
      exact List.mem_append_right _ List.mem_cons_self
    · exact hold hmem

def concurrentTweets (store : (n : StoreName) → Store JString (Val n))
    (commands : List (JString × JString × TweetMap)) : State :=
  ⟨⟨store,[]⟩,commands.map fun c =>
    (.execute (.tweet c.1 c.2.1 c.2.2),(Job.execute (.tweet c.1 c.2.1 c.2.2)).body)⟩

def userReads (j : Job) (userId : JString) (h : History) : List (Versioned UserMap) :=
  h.filterMap fun
    | (j',⟨.get .users u,.ok (some x)⟩) => if j' = j ∧ u = userId then some x else none
    | _ => none

theorem mem_of_mem_userReads {j : Job} {userId : JString} {h : History} {x : Versioned UserMap}
    (hx : x ∈ userReads j userId h) : (j,⟨.get .users userId,.ok (some x)⟩) ∈ h := by
  obtain ⟨e,he,hex⟩ := List.mem_filterMap.mp hx
  split at hex
  · split at hex
    · rename_i hju
      obtain ⟨rfl,rfl⟩ := hju
      obtain rfl := Option.some.inj hex
      exact he
    · simp at hex
  · simp at hex

/-- Each tweet is in the timelines of its author and of every registered user that was in
the set of followers when the command read it. -/
def AllDelivered (store : (n : StoreName) → Store JString (Val n))
    (commands : List (JString × JString × TweetMap)) (w : World) : Prop :=
  ∀ c ∈ commands, entry c.2.1 c.2.2 ∈ w.timeline c.1 ∧
    ∀ x ∈ userReads (.execute (.tweet c.1 c.2.1 c.2.2)) c.1 w.history,
      ∀ f ∈ asSet x.value.followers, store .users f ≠ [] → entry c.2.1 c.2.2 ∈ w.timeline f

/-- No tweet is lost in a run whose calls are all undisturbed. -/
theorem all_delivered (store : (n : StoreName) → Store JString (Val n))
    (commands : List (JString × JString × TweetMap)) (hauthors : (commands.map Prod.fst).Nodup)
    (hregistered : ∀ c ∈ commands, store .users c.1 ≠ []) (hdated : ∀ c ∈ commands, c.2.2.Dated)
    (es : List Event) (s : State)
    (h : Runs.Reaches machine.step (ClosedCalls Undisturbed) (concurrentTweets store commands) es s)
    (hended : Ended s) : AllDelivered store commands s.world := by
  have hgood : (deliveries fun u => store .users u ≠ []).Good s := by
    refine Logic.good_of_reaches (fun j w _ => wp_deliveries j w) (fun e s hc _ => hc.admits) ?_ h
    refine ⟨fun u hu => hu,fun t ht => ?_,?_⟩
    · obtain ⟨c,hc,rfl⟩ := List.mem_map.mp ht
      exact wp_deliveries _ _ ⟨hregistered c hc,hdated c hc,by simp [concurrentTweets]⟩
    · rw [concurrentTweets,List.map_map,List.pairwise_map]
      refine (List.pairwise_map.mp hauthors).imp fun hne _ _ heq => hne ?_
      injection heq with hcommand
      injection hcommand
  have hsubmitted : Submitted s := by
    refine h.invariant ?_ fun e s s' hs _ hstep => submitted_step hs hstep
    simp [Submitted,concurrentTweets]
  have hpost : ∀ j ∈ s.threads.map Prod.fst, Delivers (fun u => store .users u ≠ []) j s.world := by
    intro j hj
    obtain ⟨t,ht,rfl⟩ := List.mem_map.mp hj
    obtain ⟨r,hr⟩ := Option.isSome_iff_exists.mp (hended t ht)
    exact hgood.post ht hr
  intro c hc
  have hthread : .execute (.tweet c.1 c.2.1 c.2.2) ∈ s.threads.map Prod.fst := by
    refine h.invariant ?_ fun e s s' hs _ hstep => Machine.mem_jobs_step hstep hs
    rw [concurrentTweets,List.map_map]
    exact List.mem_map_of_mem hc
  obtain ⟨hentry,hfollowers⟩ := hpost _ hthread
  refine ⟨hentry,fun x hx f hf hreg => ?_⟩
  exact hpost _ (hsubmitted _ _ (hfollowers x (mem_of_mem_userReads hx) f hf)) hreg

def followedByC : (n : StoreName) → Store JString (Val n)
  | .users => fun u =>
    if u = ['c'] then [{}] else if u = ['a'] ∨ u = ['b'] then [{ followers := some ['c'] }] else []
  | .tweets => fun _ => []
  | .friendsTimeline => fun _ => []

def tweetsOfAB : List (JString × JString × TweetMap) :=
  [(['a'],['a','-','1'],{ date := some ['1'] }),(['b'],['b','-','1'],{ date := some ['2'] })]

/-- Both commands run to their ends and leave a task each for the timeline of `c`. -/
def commandsOfAB : List Event :=
  [.thread 0 .go,.thread 0 .go,.thread 0 (.order [['c']]),.thread 0 .go,.thread 0 .go,.thread 0 .go,
    .thread 1 .go,.thread 1 .go,.thread 1 (.order [['c']]),.thread 1 .go,.thread 1 .go,.thread 1 .go]

/-- Both tasks read the timeline of `c` before either writes it. -/
theorem delivery_lost :
    ¬ ∀ (es : List Event) (s : State),
      Runs.Reaches machine.step (ClosedCalls Responds) (concurrentTweets followedByC tweetsOfAB) es s →
      Ended s → AllDelivered followedByC tweetsOfAB s.world := by
  intro hall
  have hrun : ((Runs.runIf machine.step (ClosedCalls Responds)
      (commandsOfAB++[.thread 2 .go,.thread 3 .go,.thread 2 .go,.thread 3 .go])
      (concurrentTweets followedByC tweetsOfAB)).map fun s =>
        (decide (Ended s),s.world.timeline ['c'],
          userReads (.execute (.tweet ['b'] ['b','-','1'] { date := some ['2'] })) ['b'] s.world.history)) =
      some (true,[['a','-','1',':','1']],[⟨{ followers := some ['c'] },1⟩]) := by
    decide +kernel
  obtain ⟨s,hs,hp⟩ := Option.map_eq_some_iff.mp hrun
  simp only [Prod.mk.injEq,decide_eq_true_eq] at hp
  have hb := hall _ s (Runs.reaches_of_runIf .start hs) hp.1
    (['b'],['b','-','1'],{ date := some ['2'] }) (by simp [tweetsOfAB])
  have hc := hb.2 _ (hp.2.2 ▸ List.mem_singleton_self _) ['c'] (by decide) (by simp [followedByC])
  rw [hp.2.1] at hc
  exact absurd hc (by decide)

/-- The task of the second tweet runs after that of the first one. -/
theorem delivered_one_by_one :
    ∃ es, ∃ s : State, Runs.Reaches machine.step (ClosedCalls Undisturbed) (concurrentTweets followedByC tweetsOfAB)
      es s ∧ AllDelivered followedByC tweetsOfAB s.world ∧
      s.world.timeline ['c'] = [['b','-','1',':','2'],['a','-','1',':','1']] := by
  have hrun : ((Runs.runIf machine.step (ClosedCalls Undisturbed)
      (commandsOfAB++[.thread 2 .go,.thread 2 .go,.thread 3 .go,.thread 3 .go])
      (concurrentTweets followedByC tweetsOfAB)).map fun s =>
        (decide (Ended s),s.world.timeline ['c'])) =
      some (true,[['b','-','1',':','2'],['a','-','1',':','1']]) := by decide +kernel
  obtain ⟨s,hs,hp⟩ := Option.map_eq_some_iff.mp hrun
  simp only [Prod.mk.injEq,decide_eq_true_eq] at hp
  have h := Runs.reaches_of_runIf .start hs
  exact ⟨_,s,h,all_delivered followedByC tweetsOfAB (by decide) (by simp [tweetsOfAB,followedByC])
    (by decide) _ s h hp.1,hp.2⟩

end TweetService
end Bigbird
