import Bigbird.Issues

/-! Operations that are executed one at a time, each to its end, and the graph of followers
that they leave. -/
namespace Bigbird
namespace TweetService

open JavaText VersionedStore Programs

abbrev Stores := (n : StoreName) → Store JString (Val n)

/-- A `tweet`, or the command of a follow or an unfollow between known names. -/
def Job.Serves (known : JString → Prop) : Job → Prop
  | .tweet _ _ _ => True
  | .execute (.startFollowing userId toStartUser) => known userId ∧ known toStartUser
  | .execute (.stopFollowing userId toStopUser) => known userId ∧ known toStopUser
  | _ => False

/-- Jobs that run one after the other, with the stores that they leave. -/
inductive Serial (known : JString → Prop) (cond : Event → State → Prop) (store : Stores) :
    List Job → Stores → Prop
  | start : Serial known cond store [] store
  | next {js : List Job} {mid : Stores} {j : Job} {es : List Event} {s : State} :
      Serial known cond store js mid → j.Serves known →
      Runs.Reaches machine.step cond ⟨⟨mid,[]⟩,[(j,j.body)]⟩ es s → Ended s →
      Serial known cond store (js ++ [j]) s.world.store

theorem Job.Serves.mono {known known' : JString → Prop} (hk : ∀ user, known user → known' user) {j : Job}
    (h : j.Serves known) : j.Serves known' := by
  cases j with
  | tweet => trivial
  | execute c => cases c <;> first | exact h.elim | exact ⟨hk _ h.1,hk _ h.2⟩
  | _ => exact h.elim

theorem Serial.mono {known known' : JString → Prop} {cond cond' : Event → State → Prop} {store store' : Stores}
    {js : List Job} (h : Serial known cond store js store') (hk : ∀ user, known user → known' user)
    (hc : ∀ e s, cond e s → cond' e s) : Serial known' cond' store js store' := by
  induction h with
  | start => exact .start
  | next _ hserves hrun hended ih => exact .next ih (hserves.mono hk) (hrun.mono hc) hended

section Alone

def alone (Q : Except Exn (Option Tweet) → World → Prop) : Logic machine where
  inv _ := True
  rely _ := Eq
  guar _ _ _ := True
  cond := Responds
  pre _ _ := False
  post _ := Q
  apart _ _ := False
  rely_refl _ _ := rfl
  rely_trans _ _ _ _ := Eq.trans
  rely_of_guar _ _ _ _ h _ := h.elim
  apart_symm _ _ := id

variable {Q' : Except Exn (Option Tweet) → World → Prop} {j : Job} {w : World} {α β : Type}
  {Q : Except Exn α → World → Prop}

theorem alone_logs : Logs (alone Q') j := fun _ _ _ _ _ => ⟨trivial,trivial,by simp⟩

theorem alone_ret {a : α} (h : Q (.ok a) w) : (alone Q').wp j (.ret a) Q w := by
  rintro _ - rfl
  exact h

theorem alone_throw {e : Exn} (h : Q (.error e) w) : (alone Q').wp j (.throw e) Q w := by
  rintro _ - rfl
  exact h

theorem alone_get {n : StoreName} {key : JString} {f : Option (Versioned (Val n)) → Client α}
    (h : (alone Q').wp j (f ((w.store n).get key)) Q (w.log j (.get n key) (.ok ((w.store n).get key)))) :
    (alone Q').wp j (get n key >>= f) Q w := by
  refine wp_get alone_logs ?_ fun _ _ _ hc => absurd rfl hc
  rintro _ - rfl -
  exact h

theorem alone_getValue {n : StoreName} {key : JString} {f : Option (Val n) → Client α}
    (h : (alone Q').wp j (f ((w.store n).value key)) Q (w.log j (.get n key) (.ok ((w.store n).get key)))) :
    (alone Q').wp j (getValue n key >>= f) Q w := by
  refine wp_getValue alone_logs ?_ fun _ _ _ hc => absurd rfl hc
  rintro _ - rfl -
  exact h

theorem alone_iterator {set : List JString} {f : List JString → Client α}
    (h : ∀ l, l.Perm set → (alone Q').wp j (f l) Q (w.log j (.iterator set) (.ok l))) :
    (alone Q').wp j (iterator set >>= f) Q w := by
  refine wp_iterator alone_logs ?_
  rintro _ l - rfl hl
  exact h l hl

theorem alone_put {n : StoreName} {key : JString} {x : Versioned (Val n)} {f : Unit → Client α}
    (hv : x.version = (w.store n key).length)
    (h : (alone Q').wp j (f ()) Q (w.logWrite j (.put n key x) (.ok ()) n key x.value)) :
    (alone Q').wp j (put n key x >>= f) Q w := by
  refine wp_put alone_logs ?_ ?_ fun _ _ _ hc => absurd rfl hc
  · rintro _ - rfl - -
    exact ⟨⟨trivial,trivial,by simp⟩,h⟩
  · rintro _ - rfl - hne
    exact absurd hv hne

theorem alone_putIfNotObsolete {n : StoreName} {key : JString} {x : Versioned (Val n)}
    {f : Bool → Client α} (hv : x.version = (w.store n key).length)
    (h : (alone Q').wp j (f true) Q (w.logWrite j (.putIfNotObsolete n key x) (.ok true) n key x.value)) :
    (alone Q').wp j (putIfNotObsolete n key x >>= f) Q w := by
  refine wp_putIfNotObsolete alone_logs ?_ ?_ fun _ _ _ hc => absurd rfl hc
  · rintro _ - rfl - -
    exact ⟨⟨trivial,trivial,by simp⟩,h⟩
  · rintro _ - rfl - hne
    exact absurd hv hne

theorem alone_now {f : ℤ → Client α}
    (h : ∀ date, -2^63 ≤ date ∧ date < 2^63 → (alone Q').wp j (f date) Q (w.log j .now (.ok date))) :
    (alone Q').wp j (Prog.op Op.now >>= f) Q w := by
  refine wp_now alone_logs ?_
  rintro _ date - rfl hdate
  exact h date hdate

theorem alone_storeRemotely {command : Command} {f : Bool → Client α}
    (h : ∀ success, (alone Q').wp j (f success) Q (w.log j (.storeRemotely command) (.ok success))) :
    (alone Q').wp j (Prog.op (Op.storeRemotely command) >>= f) Q w := by
  refine wp_storeRemotely alone_logs ?_
  rintro _ success - rfl
  exact h success

theorem alone_putNew {n : StoreName} {key : JString} {v : Val n} {f : Unit → Client α}
    (h : w.store n key = [] → (alone Q').wp j (f ()) Q (w.logWrite j (.put n key ⟨v,0⟩) (.ok ()) n key v))
    (hobsolete : Q (.error .obsoleteVersion) (w.log j (.put n key ⟨v,0⟩) (.error .obsoleteVersion))) :
    (alone Q').wp j (put n key ⟨v,0⟩ >>= f) Q w := by
  refine wp_put alone_logs ?_ ?_ fun _ _ _ hc => absurd rfl hc
  · rintro _ - rfl - hv
    exact ⟨⟨trivial,trivial,by simp⟩,h (List.length_eq_zero_iff.mp hv.symm)⟩
  · rintro _ - rfl - -
    exact alone_throw hobsolete

/-- What each attempt keeps, and a transitive relation over each attempt, hold of all of them;
no exception that leads to another attempt is left. -/
theorem alone_retry {again : Exn → Bool} {p : Client α} {P : World → Prop} {R : World → World → Prop}
    (htrans : ∀ w w' w'', R w w' → R w' w'' → R w w'')
    (hp : ∀ w, P w → (alone Q').wp j p (fun _ w' => P w' ∧ R w w') w) (n : ℕ) {w : World} (hP : P w) :
    (alone Q').wp j (p.retry again (n+1))
      (fun r w' => (∀ e, r = .error e → again e = false) ∧ P w' ∧ R w w') w := by
  refine Logic.wp_retry (fun k w' => P w' ∧ (k < n+1 ∧ R w w' ∨ k = n+1 ∧ w = w')) (fun w' _ h => ?_) ?_
    (fun k w' h => ?_) ⟨hP,Or.inr ⟨rfl,rfl⟩⟩
  · exact ⟨by simp,h.1,h.2.elim And.right fun h => absurd h.1 (by omega)⟩
  · rintro w' _ - rfl h
    exact h
  · refine (alone Q').wp_mono (hp w' h.1) fun r w'' _ hR => ?_
    have hR' : R w w'' := by
      rcases h.2 with ⟨_,h⟩ | ⟨_,rfl⟩
      · exact htrans _ _ _ h hR.2
      · exact hR.2
    cases r with
    | ok a => exact ⟨by simp,hR.1,hR'⟩
    | error e =>
      dsimp only
      split
      · exact ⟨hR.1,Or.inl ⟨by omega,hR'⟩⟩
      · rename_i hagain
        exact ⟨by simpa using hagain,hR.1,hR'⟩

theorem alone_command {c : Command} {P : World → Prop} {R : World → World → Prop}
    (htrans : ∀ w w' w'', R w w' → R w' w'' → R w w'')
    (hp : ∀ w, P w → (alone Q').wp (.execute c) c.body (fun _ w' => P w' ∧ R w w') w) {w : World} (hP : P w) :
    (alone Q').wp (.execute c) (Job.execute c).body (fun _ w' => P w' ∧ R w w') w :=
  Logic.wp_map (Logic.wp_map ((alone Q').wp_mono (alone_retry htrans hp 2 hP) fun _ _ _ h => h.2))

theorem alone_ended {cond : Event → State → Prop} (hcond : ∀ e s, cond e s → ClosedCalls Responds e s)
    {Q : Except Exn (Option Tweet) → World → Prop} {store : Stores} {es : List Event} {s : State}
    (hwp : (alone Q).wp j j.body Q ⟨store,[]⟩)
    (h : Runs.Reaches machine.step cond ⟨⟨store,[]⟩,[(j,j.body)]⟩ es s) (hended : Ended s) :
    ∃ r, Q r s.world := by
  have hgood : (alone Q).Good s := by
    refine Logic.good_of_reaches (fun _ _ _ h => False.elim h) (fun e s hc _ => (hcond e s hc).admits) ?_ h
    refine ⟨trivial,fun t ht => ?_,List.pairwise_singleton _ _⟩
    obtain rfl := List.mem_singleton.mp ht
    exact hwp
  have hthread : j ∈ s.threads.map Prod.fst :=
    h.invariant (by simp) fun e s s' hs _ hstep => Machine.mem_jobs_step hstep hs
  obtain ⟨t,ht,_⟩ := List.mem_map.mp hthread
  obtain ⟨r,hr⟩ := Option.isSome_iff_exists.mp (hended t ht)
  exact ⟨r,hgood.post ht hr⟩

end Alone

def World.counter (w : World) (user : JString) : Option (Option JString) :=
  ((w.store .users).value user).map UserMap.lastTweet

theorem registered_iff (w : World) (user : JString) :
    w.store .users user ≠ [] ↔ (w.counter user).isSome := by
  cases h : w.store .users user <;> simp [World.counter,Store.value,h]

def World.Knows (w : World) (p : JString × JString) : Prop := ∀ e : Edges, w.store .users (e.owner p) ≠ []

theorem World.Knows.congr {w w' : World} (h : ∀ user, w'.counter user = w.counter user)
    {p : JString × JString} : w'.Knows p ↔ w.Knows p :=
  forall_congr' fun e => by rw [registered_iff,registered_iff,h]

/-- One of the two edges of a pair was set or removed. -/
structure Edited (c : FollowChange) (e : Edges) (w w' : World) : Prop where
  counter : ∀ user, w'.counter user = w.counter user
  store : ∀ n, n ≠ .users → w'.store n = w.store n
  follows : ∀ e' q, e'.member q ≠ [] → w.store .users (e'.owner q) ≠ [] →
    (w'.follows e' q ↔ if e' = e ∧ q = c.pair then c.start = true else w.follows e' q)

/-- The command has been executed on the users of its pair. -/
structure Followed (c : FollowChange) (w w' : World) : Prop where
  counter : ∀ user, w'.counter user = w.counter user
  tweets : w'.store .tweets = w.store .tweets
  follows : ∀ e q, e.member q ≠ [] → w.Knows q →
    (w'.follows e q ↔ if q = c.pair then c.start = true else w.follows e q)

theorem Followed.trans {c : FollowChange} {w w' w'' : World} (h : Followed c w w') (h' : Followed c w' w'') :
    Followed c w w'' := by
  refine ⟨fun user => (h'.counter user).trans (h.counter user),h'.tweets.trans h.tweets,fun e q hq hk => ?_⟩
  rw [h'.follows e q hq ((World.Knows.congr h.counter).mpr hk)]
  split
  · exact Iff.rfl
  · rename_i hne
    rw [h.follows e q hq hk,if_neg hne]

theorem Edited.followed {c : FollowChange} {e e' : Edges} (he : e ≠ e') {w w' w'' : World}
    (h : Edited c e w w') (h' : Edited c e' w' w'') : Followed c w w'' := by
  refine ⟨fun user => (h'.counter user).trans (h.counter user),
    (h'.store _ (by simp)).trans (h.store _ (by simp)),fun i q hq hk => ?_⟩
  have hk' := (World.Knows.congr h.counter).mpr hk
  rw [h'.follows i q hq (hk' i),h.follows i q hq (hk i)]
  by_cases hpair : q = c.pair
  · have hi : i = e ∨ i = e' := by cases i <;> cases e <;> cases e' <;> simp at he ⊢
    rcases hi with rfl | rfl
    · simp [hpair,he]
    · simp [hpair]
  · simp [hpair]

/-- The second edge is not reached when there is no user to remove the first one from. -/
theorem Edited.followed_of_not_knows {c : FollowChange} {e : Edges} {w w' : World} (h : Edited c e w w')
    (hk : ¬ w.Knows c.pair) : Followed c w w' := by
  refine ⟨h.counter,h.store _ (by simp),fun i q hq hkq => ?_⟩
  have hne : q ≠ c.pair := by
    rintro rfl
    exact hk hkq
  rw [h.follows i q hq (hkq i),if_neg (by simp [hne]),if_neg hne]

section Commands

variable {Q' : Except Exn (Option Tweet) → World → Prop} {j : Job} {w : World}
  {Q : Except Exn Unit → World → Prop} {p : JString × JString}

theorem edited_of_none {c : FollowChange} {e : Edges} (hnone : (w.store .users).get (e.owner c.pair) = none)
    {w' : World} (hw : w'.store = w.store) : Edited c e w w' := by
  refine ⟨fun user => by rw [World.counter,World.counter,hw],fun _ _ => by rw [hw],fun e' q _ hq => ?_⟩
  have hne : ¬ (e' = e ∧ q = c.pair) := by
    rintro ⟨rfl,rfl⟩
    obtain ⟨v,vs,hv⟩ := List.exists_cons_of_ne_nil hq
    simp [Store.get,hv] at hnone
  rw [if_neg hne,World.follows,World.follows,World.names,World.names,hw]

theorem edited_logWrite {c : FollowChange} {e : Edges} {x : Versioned UserMap}
    (hget : (w.store .users).get (e.owner c.pair) = some x) {set : List JString} (hcomma : ∀ s ∈ set, ',' ∉ s)
    (hset : ∀ s, s ∈ set ↔ if s = e.member c.pair then c.start = true else s ∈ asSet (x.value.edges e))
    {w' : World} (hw : w'.store = w.store) (op : Op) (r : Except Exn op.Res) :
    Edited c e w (w'.logWrite j op r .users (e.owner c.pair) (x.value.setEdges e (toString set))) := by
  obtain ⟨vs,hvs,_⟩ := Store.get_eq_some.mp hget
  have hvalue : (w'.store .users).value (e.owner c.pair) = some x.value :=
    Store.value_eq_some.mpr ⟨vs,hw ▸ hvs⟩
  refine ⟨fun user => ?_,fun n hn => ?_,fun e' q hq _ => ?_⟩
  · by_cases huser : user = e.owner c.pair
    · subst huser
      rw [World.counter,World.counter,← hw,hvalue]
      simp [World.logWrite,Store.value]
    · simp [World.counter,World.logWrite,Store.value,huser,hw]
  · simp [World.logWrite,hn,hw]
  · have hfollows : w'.follows e' q ↔ w.follows e' q := by
      rw [World.follows,World.follows,World.names,World.names,hw]
    rw [follows_logWrite hvalue hcomma _ _ _ _ _ hq]
    by_cases h : e' = e ∧ e'.owner q = e.owner c.pair
    · obtain ⟨rfl,howner⟩ := h
      have hiff : e'.member q = e'.member c.pair ↔ q = c.pair :=
        ⟨fun hmember => Edges.eq_of_ends howner hmember,fun hq => by rw [hq]⟩
      have hnames : w.follows e' q ↔ e'.member q ∈ asSet (x.value.edges e') := by
        rw [← hfollows]
        simp [World.follows,World.names,howner,hvalue]
      simp [howner,hset,hiff,hnames]
    · have hne : ¬ (e' = e ∧ q = c.pair) := by
        rintro ⟨rfl,rfl⟩
        exact h ⟨rfl,rfl⟩
      rw [if_neg h,if_neg hne,hfollows]

theorem alone_startUpdate {e : Edges} (hp : Proper (e.member p))
    (h : ∀ w', Edited ⟨true,p⟩ e w w' → Q (.ok ()) w') :
    (alone Q').wp j (startUpdate e (e.owner p) (e.member p)) Q w := by
  refine alone_get ?_
  cases hget : (w.store .users).get (e.owner p) with
  | none => exact alone_ret (h _ (edited_of_none hget rfl))
  | some x =>
    refine alone_iterator fun l hl => ?_
    obtain ⟨vs,hvs,hv⟩ := Store.get_eq_some.mp hget
    have hmem (s : JString) : s ∈ l ↔ s = e.member p ∨ s ∈ asSet (x.value.edges e) := by
      rw [hl.mem_iff,List.mem_insert_iff]
    refine alone_putIfNotObsolete (hv.trans (congrArg List.length hvs).symm) (alone_ret (h _ ?_))
    refine edited_logWrite (c:=⟨true,p⟩) hget (fun s hs => ?_) (fun s => ?_) ?_ _ _
    · rcases (hmem s).mp hs with rfl | hs
      · exact hp.2
      · exact not_mem_of_mem_asSet hs
    · rw [hmem]
      by_cases hs : s = e.member p <;> simp [hs]
    · rfl

theorem alone_stopUpdate {e : Edges}
    (h : ∀ w', Edited ⟨false,p⟩ e w w' → Q (.ok ()) w')
    (hnone : ∀ w', w.store .users (e.owner p) = [] → Edited ⟨false,p⟩ e w w' → Q (.error .nullPointer) w') :
    (alone Q').wp j (stopUpdate e (e.owner p) (e.member p)) Q w := by
  refine alone_get ?_
  cases hget : (w.store .users).get (e.owner p) with
  | none =>
    refine alone_throw (hnone _ ?_ (edited_of_none hget rfl))
    cases hnil : w.store .users (e.owner p) with
    | nil => rfl
    | cons v vs => simp [Store.get,hnil] at hget
  | some x =>
    refine alone_iterator fun l hl => ?_
    obtain ⟨vs,hvs,hv⟩ := Store.get_eq_some.mp hget
    have hmem (s : JString) : s ∈ l ↔ s ≠ e.member p ∧ s ∈ asSet (x.value.edges e) := by
      rw [hl.mem_iff,(nodup_asSet _).mem_erase_iff]
    refine wp_of_bind_pure (alone_put (hv.trans (congrArg List.length hvs).symm) (alone_ret (h _ ?_)))
    refine edited_logWrite (c:=⟨false,p⟩) hget (fun s hs => ?_) (fun s => ?_) ?_ _ _
    · exact not_mem_of_mem_asSet ((hmem s).mp hs).2
    · rw [hmem]
      by_cases hs : s = e.member p <;> simp [hs]
    · rfl

theorem alone_startFollowing {userId toStartUser : JString} (hu : Proper userId) (hv : Proper toStartUser)
    (h : ∀ w', Followed ⟨true,(userId,toStartUser)⟩ w w' → w'.store .friendsTimeline = w.store .friendsTimeline →
      (alone Q').wp j (startTimeline userId toStartUser) Q w') :
    (alone Q').wp j (startFollowingCommand userId toStartUser) Q w := by
  refine Logic.wp_bind (alone_startUpdate (e:=.following) (p:=(userId,toStartUser)) hv fun w₁ h₁ => ?_)
  refine Logic.wp_bind (alone_startUpdate (e:=.followers) (p:=(userId,toStartUser)) hu fun w₂ h₂ => ?_)
  exact h w₂ (h₁.followed (by simp) h₂) ((h₂.store _ (by simp)).trans (h₁.store _ (by simp)))

/-- A `StopFollowingCommand` has removed both edges when it comes to the timeline, or one of
its users is not registered. -/
theorem alone_stopFollowing {userId toStopUser : JString}
    (h : ∀ w', Followed ⟨false,(userId,toStopUser)⟩ w w' → w'.store .friendsTimeline = w.store .friendsTimeline →
      (alone Q').wp j (stopTimeline userId toStopUser) Q w')
    (hnone : ∀ w', ¬ w.Knows (userId,toStopUser) → Followed ⟨false,(userId,toStopUser)⟩ w w' →
      Q (.error .nullPointer) w') :
    (alone Q').wp j (stopFollowingCommand userId toStopUser) Q w := by
  refine Logic.wp_bind (alone_stopUpdate (e:=.followers) (p:=(userId,toStopUser)) (fun w₁ h₁ => ?_)
    fun w₁ hno h₁ => ?_)
  · refine Logic.wp_bind (alone_stopUpdate (e:=.following) (p:=(userId,toStopUser)) (fun w₂ h₂ => ?_)
      fun w₂ hno h₂ => ?_)
    · exact h w₂ (h₁.followed (by simp) h₂) ((h₂.store _ (by simp)).trans (h₁.store _ (by simp)))
    · refine alone_throw (hnone w₂ (fun hk => ?_) (h₁.followed (by simp) h₂))
      exact (World.Knows.congr h₁.counter).mpr hk .following hno
  · exact alone_throw (hnone w₁ (fun hk => hk .followers hno) (h₁.followed_of_not_knows fun hk => hk .followers hno))

theorem Followed.timelineOnly {c : FollowChange} {w₀ w : World} (h : Followed c w₀ w) {op : Op}
    (hop : TimelineOnly op) {choice : Choice} {r : Except Exn op.Res} {w' : World} {new : Option Job}
    (hexec : exec j op choice w = some (r,w',new)) : Followed c w₀ w' := by
  rcases (exec_cases hexec).2 with ⟨_,rfl⟩ | ⟨n,key,x,hwritten,_,rfl⟩
  · exact ⟨h.counter,h.tweets,h.follows⟩
  · obtain rfl := hop.written hwritten
    refine ⟨fun user => ?_,?_,fun e q hq hk => ?_⟩
    · rw [← h.counter user]
      simp [World.counter,World.logWrite]
    · rw [← h.tweets]
      simp [World.logWrite]
    · rw [follows_logTimeline]
      exact h.follows e q hq hk

theorem alone_timelineOnly {α : Type} {c : FollowChange} {w₀ : World} {p : Client α} (hp : p.All TimelineOnly)
    (h : Followed c w₀ w) : (alone Q').wp j p (fun _ => Followed c w₀) w := by
  refine Logic.wp_all hp ?_ (fun op hop w' _ hw' choice r w'' new _ hexec => ⟨⟨trivial,trivial,?_⟩,
    hw'.timelineOnly hop hexec⟩) h
  · rintro _ _ - rfl h
    exact h
  · rw [(exec_cases hexec).1,hop.task]
    simp

theorem alone_follow (c : FollowChange) (hc : Proper c.pair.1 ∧ Proper c.pair.2) (w : World) :
    (alone Q').wp c.job c.job.body (fun _ w' => True ∧ Followed c w w') w := by
  obtain ⟨start,userId,other⟩ := c
  cases start with
  | true =>
    refine alone_command (P:=fun _ => True) (R:=Followed ⟨true,(userId,other)⟩) (fun _ _ _ => Followed.trans)
      (fun w _ => ?_) trivial
    refine alone_startFollowing hc.1 hc.2 fun w' h _ => ?_
    exact (alone Q').wp_mono (alone_timelineOnly ((all_startTimeline _ _).mono fun _ => TimelineCall.only) h)
      fun _ _ _ h => ⟨trivial,h⟩
  | false =>
    refine alone_command (P:=fun _ => True) (R:=Followed ⟨false,(userId,other)⟩) (fun _ _ _ => Followed.trans)
      (fun w _ => ?_) trivial
    refine alone_stopFollowing (fun w' h _ => ?_) fun _ _ h => ⟨trivial,h⟩
    exact (alone Q').wp_mono (alone_timelineOnly ((all_stopTimeline _ _).mono fun _ => TimelineCall.only) h)
      fun _ _ _ h => ⟨trivial,h⟩

end Commands

/-- The jobs of a `tweet`: the call itself and the tasks of its fan-out. -/
def Job.Delivers (userId : JString) : Job → Prop
  | .tweet userId' _ _ => userId' = userId
  | .updateTimeline _ _ _ => True
  | _ => False

def World.SameSets (w w' : World) : Prop :=
  ∀ user, ((w'.store .users).value user).map UserMap.edges = ((w.store .users).value user).map UserMap.edges

theorem World.SameSets.follows {w w' : World} (h : w.SameSets w') (e : Edges) (p : JString × JString) :
    w'.follows e p ↔ w.follows e p := by
  have hnames (w : World) : w.names e (e.owner p) =
      (((w.store .users).value (e.owner p)).map UserMap.edges).elim [] fun edges => asSet (edges e) := by
    rw [World.names,Option.elim_map]
    rfl
  rw [World.follows,World.follows,hnames,hnames,h]

theorem World.SameSets.registered {w w' : World} (h : w.SameSets w') (user : JString) :
    w'.store .users user ≠ [] ↔ w.store .users user ≠ [] := by
  have hsome := congrArg Option.isSome (h user)
  rw [registered_iff,registered_iff]
  simp only [World.counter,Option.isSome_map] at hsome ⊢
  rw [hsome]

/-- The only job that is running is a `tweet`, with its tasks. -/
structure Delivering (userId : JString) (w₀ : World) (s : State) : Prop where
  changing : changing.Good s
  disciplined : Disciplined s
  jobs : ∀ t ∈ s.threads, t.1.Delivers userId
  users : w₀.SameSets s.world

theorem delivering_start {userId : JString} {text id : Option JString} (store : Stores) :
    Delivering userId ⟨store,[]⟩
      ⟨⟨store,[]⟩,[(.tweet userId text id,(Job.tweet userId text id).body)]⟩ := by
  refine ⟨⟨trivial,fun t ht => ?_,List.pairwise_singleton _ _⟩,⟨fun t ht => ?_,?_,?_⟩,fun t ht => ?_,fun _ => rfl⟩
  · obtain rfl := List.mem_singleton.mp ht
    exact changing_body _ _ fun _ _ _ h => by simp at h
  · obtain rfl := List.mem_singleton.mp ht
    exact ⟨none,orderly_body _⟩
  · rintro _ _ _ ⟨_,_,_,h⟩
    simp at h
  · rintro _ _ _ _ h
    simp at h
  · obtain rfl := List.mem_singleton.mp ht
    rfl

theorem delivers_new (userId : JString) {s : State} (hs : Disciplined s) {i : ℕ} {job : Job} {op : Op}
    {k : Except Exn op.Res → Client (Option Tweet)} (ht : s.threads[i]? = some (job,.call op k))
    {choice : Choice} {r : Except Exn op.Res} {w : World} {new : Option Job}
    (hexec : exec job op choice s.world = some (r,w,new)) : ∀ u ∈ new, u.Delivers userId := by
  obtain ⟨o,ho⟩ := hs.threads _ (List.mem_of_getElem? ht)
  rintro u hu
  rw [(exec_cases hexec).1] at hu
  cases op with
  | submit task =>
    cases r with
    | ok a =>
      obtain rfl := Option.some.inj hu
      obtain ⟨tweetId,tweetMap,user,rfl⟩ := ho.tasks.1 task rfl
      trivial
    | error e => simp [Op.task] at hu
  | _ => simp [Op.task] at hu

theorem delivering_step {userId : JString} {w₀ : World} {s s' : State} (hs : Delivering userId w₀ s) {e : Event}
    (hc : ClosedCalls Responds e s) (h : machine.step e s = some s') : Delivering userId w₀ s' := by
  cases e with
  | start job => exact hc.elim
  | thread i choice =>
    have hreplays : Replays (.thread i choice) s := trivial
    refine ⟨changing_step hs.changing hreplays.arrives h,disciplined_step hs.disciplined hreplays h,?_,?_⟩
    · obtain ⟨job,op,k,r,w,new,ht,hexec,rfl⟩ := Machine.thread_step h
      have hjob := hs.jobs _ (List.mem_of_getElem? ht)
      intro t htmem
      rcases mem_set_append htmem with ⟨n,_,hn⟩ | rfl | hnew
      · exact hs.jobs t (List.mem_of_getElem? hn)
      · exact hjob
      · obtain ⟨u,hu,rfl⟩ := List.mem_map.mp hnew
        exact delivers_new userId hs.disciplined ht hexec u (by simpa using hu)
    · obtain ⟨job,op,k,r,ht,⟨_,hw⟩ | ⟨n,key,x,_,hchange,hw⟩⟩ := change_of_thread hs.changing h
      · rw [hw]
        exact hs.users
      · have hjob := hs.jobs _ (List.mem_of_getElem? ht)
        rw [hw]
        intro user
        rw [← hs.users user]
        by_cases hn : StoreName.users = n
        · subst hn
          generalize x.value = v at hchange ⊢
          by_cases huser : user = key
          · subst huser
            cases hchange with
            | register => exact hjob.elim
            | count hvalue _ =>
              rw [hvalue]
              simp [World.logWrite,Store.value]
              rfl
            | edges hpair _ => cases job <;> first | exact hjob.elim | simp [Job.pair] at hpair
          · simp [World.logWrite,Store.value,huser]
        · simp [World.logWrite,hn]

theorem tweet_sameSets {userId : JString} {text id : Option JString} {store : Stores} {es : List Event}
    {s : State} (h : Runs.Reaches machine.step (ClosedCalls Responds)
      ⟨⟨store,[]⟩,[(.tweet userId text id,(Job.tweet userId text id).body)]⟩ es s) :
    (World.mk store []).SameSets s.world :=
  (h.invariant (delivering_start store) fun _ _ _ hs hc hstep => delivering_step hs hc hstep).users

/-- Names that are not empty and contain no comma and no colon. -/
def Named (name : JString) : Prop := Proper name ∧ ':' ∉ name

instance (name : JString) : Decidable (Named name) := by
  unfold Named
  infer_instance

/-- The users that are there have just registered, under such names. -/
def FreshUsers (store : Stores) : Prop :=
  ∀ name, store .users name ≠ [] → Named name ∧
    ∃ user created, user.username = name ∧ store .users name = [newUserMap user created]

def LastStarts (js : List Job) (p : JString × JString) : Prop :=
  (js.filter fun j => j.pair = some p).getLast? = some (.execute (.startFollowing p.1 p.2))

theorem lastStarts_append (js : List Job) (j : Job) (p : JString × JString) :
    LastStarts (js ++ [j]) p ↔
      if j.pair = some p then j = .execute (.startFollowing p.1 p.2) else LastStarts js p := by
  unfold LastStarts
  rw [List.filter_append]
  by_cases h : j.pair = some p <;> simp [h]

/-- What holds of the users between two operations of a serial run. -/
structure Mirrored (store : Stores) (js : List Job) (store' : Stores) : Prop where
  registered : ∀ user, store' .users user ≠ [] ↔ store .users user ≠ []
  edges : ∀ e p, (World.mk store' []).Knows p → ((World.mk store' []).follows e p ↔ LastStarts js p)

theorem mirrored_start {store : Stores} (hfresh : FreshUsers store) : Mirrored store [] store := by
  refine ⟨fun _ => Iff.rfl,fun e p hk => iff_of_false ?_ (by simp [LastStarts])⟩
  obtain ⟨_,user,created,_,hmap⟩ := hfresh (e.owner p) (hk e)
  have hnames : (World.mk store []).names e (e.owner p) = [] := by
    have hvalue : ((World.mk store []).store .users).value (e.owner p) = some (newUserMap user created) :=
      Store.value_eq_some.mpr ⟨[],hmap⟩
    rw [World.names,hvalue]
    cases e <;> rfl
  simp [World.follows,hnames]

theorem Mirrored.tweet {store mid : Stores} {js : List Job}
    (hi : Mirrored store js mid) {w : World} (h : (World.mk mid []).SameSets w) {userId : JString}
    {text id : Option JString} : Mirrored store (js ++ [.tweet userId text id]) w.store := by
  refine ⟨fun user => (h.registered user).trans (hi.registered user),fun e p hk => ?_⟩
  rw [lastStarts_append,if_neg (by simp [Job.pair])]
  exact (h.follows e p).trans (hi.edges e p fun e => (h.registered _).mp (hk e))

theorem Mirrored.follow {store mid : Stores} {js : List Job} (hfresh : FreshUsers store)
    (hi : Mirrored store js mid) {c : FollowChange} {w : World} (h : Followed c ⟨mid,[]⟩ w) :
    Mirrored store (js ++ [c.job]) w.store := by
  have hregistered (user : JString) : w.store .users user ≠ [] ↔ mid .users user ≠ [] := by
    rw [registered_iff w,h.counter user,← registered_iff]
  refine ⟨fun user => (hregistered user).trans (hi.registered user),fun e p hk => ?_⟩
  have hk' : (World.mk mid []).Knows p := fun e => (hregistered _).mp (hk e)
  have hmember : e.member p ≠ [] := by
    have hnamed (e' : Edges) : e'.owner p ≠ [] :=
      (hfresh _ ((hi.registered _).mp (hk' e'))).1.1.1
    cases e with
    | following => exact hnamed .followers
    | followers => exact hnamed .following
  rw [lastStarts_append,c.pair_job]
  refine (h.follows e p hmember hk').trans ?_
  by_cases hp : p = c.pair
  · subst hp
    rw [if_pos rfl,if_pos rfl]
    unfold FollowChange.job
    cases c.start <;> simp
  · rw [if_neg hp,if_neg fun h => hp (Option.some.inj h).symm]
    exact hi.edges e p hk'

theorem Job.Serves.cases {known : JString → Prop} {j : Job} (h : j.Serves known) :
    (∃ userId text id, j = .tweet userId text id) ∨
      ∃ c : FollowChange, j = c.job ∧ known c.pair.1 ∧ known c.pair.2 := by
  cases j with
  | tweet userId text id => exact Or.inl ⟨userId,text,id,rfl⟩
  | execute c =>
    cases c with
    | startFollowing userId other => exact Or.inr ⟨⟨true,(userId,other)⟩,rfl,h⟩
    | stopFollowing userId other => exact Or.inr ⟨⟨false,(userId,other)⟩,rfl,h⟩
    | tweet => exact h.elim
  | _ => exact h.elim

/-- The edges of both kinds stand for the last commands. -/
theorem mirrored {store store' : Stores} (hfresh : FreshUsers store) {js : List Job}
    (h : Serial Named (ClosedCalls Responds) store js store') : Mirrored store js store' := by
  induction h with
  | start => exact mirrored_start hfresh
  | next _ hserves hrun hended ih =>
    rcases hserves.cases with ⟨userId,text,id,rfl⟩ | ⟨c,rfl,hc⟩
    · exact ih.tweet (tweet_sameSets hrun)
    · obtain ⟨_,_,hfollowed⟩ := alone_ended (fun _ _ h => h) (alone_follow c ⟨hc.1.1,hc.2.1⟩ _) hrun hended
      exact ih.follow hfresh hfollowed

theorem read_getEdges {w : World} {user : JString} (h : w.store .users user ≠ []) (e : Edges) :
    w.read (getEdges e user) = .ok (w.names e user) := by
  obtain ⟨v,vs,hv⟩ := List.exists_cons_of_ne_nil h
  have hget : (w.store .users).get user = some ⟨v,vs.length+1⟩ := by simp [Store.get,hv]
  have hnames : w.names e user = asSet (v.edges e) := by simp [World.names,Store.value,hv]
  rw [hnames]
  change ((orThrow .userNotFound (((w.store .users).get user).map (·.value)) >>= fun x =>
    pure (asSet (x.edges e))).eval _ w).1 = _
  rw [hget]
  rfl

/-- After operations that were executed one at a time, followers and following agree, and
they are what the last commands have made them. -/
theorem follow_graph (store store' : Stores) (hfresh : FreshUsers store) (js : List Job)
    (h : Serial Named (ClosedCalls Responds) store js store') (x y : JString)
    (hx : store .users x ≠ []) (hy : store .users y ≠ []) :
    ∃ followers following, (World.mk store' []).read (getFollowers y) = .ok followers ∧
      (World.mk store' []).read (getFollowing x) = .ok following ∧
      (x ∈ followers ↔ y ∈ following) ∧ (y ∈ following ↔ LastStarts js (x,y)) := by
  have hi := mirrored hfresh h
  have hx' := (hi.registered x).mpr hx
  have hy' := (hi.registered y).mpr hy
  have hk : (World.mk store' []).Knows (x,y) := fun e => by
    cases e with
    | following => exact hx'
    | followers => exact hy'
  have hfollowing := hi.edges .following (x,y) hk
  have hfollowers := hi.edges .followers (x,y) hk
  exact ⟨_,_,read_getEdges hy' .followers,read_getEdges hx' .following,
    hfollowers.trans hfollowing.symm,hfollowing⟩

instance (known : JString → Prop) [DecidablePred known] (j : Job) : Decidable (j.Serves known) := by
  unfold Job.Serves
  induction j using Job.casesOn with
  | execute command => induction command using Command.casesOn <;> infer_instance
  | _ => infer_instance

/-- Run each of the jobs by its events, as long as it gets to its end. -/
def runSerial (known : JString → Prop) [DecidablePred known] (cond : Event → State → Prop)
    [∀ e s, Decidable (cond e s)] : List (Job × List Event) → Stores → Option Stores
  | [], store => some store
  | (j,es)::ops, store =>
    if j.Serves known then
      (Runs.runIf machine.step cond es ⟨⟨store,[]⟩,[(j,j.body)]⟩).bind fun s =>
        if Ended s then runSerial known cond ops s.world.store else none
    else none

theorem serial_of_runSerial {known : JString → Prop} [DecidablePred known] {cond : Event → State → Prop}
    [∀ e s, Decidable (cond e s)] {store mid store' : Stores} {js : List Job} {ops : List (Job × List Event)}
    (h : Serial known cond store js mid) (hr : runSerial known cond ops mid = some store') :
    Serial known cond store (js ++ ops.map Prod.fst) store' := by
  induction ops generalizing js mid with
  | nil => simpa [runSerial] using (Option.some.inj hr) ▸ h
  | cons op ops ih =>
    obtain ⟨j,es⟩ := op
    simp only [runSerial] at hr
    split at hr
    · rename_i hserves
      obtain ⟨s,hs,hs'⟩ := Option.bind_eq_some_iff.mp hr
      split at hs'
      · rename_i hended
        simpa using ih (.next h hserves (Runs.reaches_of_runIf .start hs) hended) hs'
      · simp at hs'
    · simp at hr

def twoFresh : Stores
  | .users => fun u => if u = ['a'] ∨ u = ['b'] then [newUserMap ⟨u,none,none⟩ 0] else []
  | .tweets => fun _ => []
  | .friendsTimeline => fun _ => []

/-- `a` follows `b`, who tweets, and unfollows him again; then `b` follows himself, when his
followers are read as the set with the empty name. -/
def followAndUnfollowAgain : List (Job × List Event) :=
  [(.execute (.startFollowing ['a'] ['b']),[.thread 0 .go,.thread 0 (.order [['b']]),.thread 0 .go,
      .thread 0 .go,.thread 0 (.order [['a']]),.thread 0 .go,.thread 0 .go,.thread 0 .go,.thread 0 .go]),
    (.tweet ['b'] none none,[.thread 0 (.time 5),.thread 0 .go,.thread 0 .go,.thread 0 .go,
      .thread 0 (.stored true),.thread 0 .go,.thread 0 .go,.thread 0 (.order [['a']]),.thread 0 .go,
      .thread 1 .go,.thread 0 .go,.thread 0 .go,.thread 1 .go]),
    (.execute (.stopFollowing ['a'] ['b']),[.thread 0 .go,.thread 0 (.order []),.thread 0 .go,
      .thread 0 .go,.thread 0 (.order []),.thread 0 .go,.thread 0 .go,.thread 0 .go]),
    (.execute (.startFollowing ['b'] ['b']),[.thread 0 .go,.thread 0 (.order [['b']]),.thread 0 .go,
      .thread 0 .go,.thread 0 (.order [['b'],[]]),.thread 0 .go,.thread 0 .go,.thread 0 .go,.thread 0 .go,
      .thread 0 .go])]

theorem twoFresh_users : FreshUsers twoFresh := by
  intro name hname
  by_cases h : name = ['a'] ∨ name = ['b']
  · refine ⟨by rcases h with rfl | rfl <;> decide,⟨name,none,none⟩,0,rfl,if_pos h⟩
  · exact absurd (if_neg h) hname

theorem follow_graph_two_users : ∃ store' : Stores, ∃ followers following,
    (World.mk store' []).read (getFollowers ['b']) = .ok followers ∧
    (World.mk store' []).read (getFollowing ['b']) = .ok following ∧ ['b'] ∈ followers ∧ ['b'] ∈ following := by
  have hrun : (runSerial Named (ClosedCalls Responds) followAndUnfollowAgain twoFresh).isSome = true := by
    decide +kernel
  obtain ⟨store',hstore'⟩ := Option.isSome_iff_exists.mp hrun
  obtain ⟨followers,following,hfollowers,hfollowing,hiff,hlast⟩ := follow_graph twoFresh store' twoFresh_users _
    (serial_of_runSerial .start hstore') ['b'] ['b'] (by decide) (by decide)
  have hb : ['b'] ∈ following := hlast.mpr rfl
  exact ⟨store',followers,following,hfollowers,hfollowing,hiff.mpr hb,hb⟩

end TweetService
end Bigbird
