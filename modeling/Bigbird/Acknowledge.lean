import Bigbird.Attempts
import Bigbird.FollowEdges

/-! The `Runnable` in which the queue executes a command: when it goes on to
`finishCommand`, which deletes the stored record. -/
namespace Bigbird
namespace TweetService

open JavaText VersionedStore Programs

/-- The `Runnable` of `addCommand`; `finishCommand` accesses none of the stores here. -/
def runnable (c : Command) (finishCommand : Client Unit) : Client Unit := do
  c.execute
  finishCommand

/-- The calls of a command, with the world in which each was made. -/
abbrev CallTrace := Trace World Op Choice

abbrev Attempt := CallTrace × Except Exn Unit

/-- From `w` on, whatever other clients write between its calls, `c.execute` makes these
attempts and ends with `r` in `w'`. -/
def Executes (c : Command) (w : World) (attempts : List Attempt) (r : Except Exn Unit) (w' : World) : Prop :=
  ∃ success, Attempts (exec (.execute c)) World.Grows (· = .obsoleteVersion) c.body 3 w attempts success w' ∧
    r = success.map fun _ => ()

theorem execute_ends_iff {c : Command} {w w' : World} {tr : CallTrace} {r : Except Exn Unit} :
    c.execute.Ends (exec (.execute c)) World.Grows w tr r w' ↔
      ∃ attempts, Executes c w attempts r w' ∧ tr = (attempts.map Prod.fst).flatten := by
  constructor
  · intro h
    obtain ⟨tr₁,r₁,w₁,tr₂,rfl,h₁,h₂⟩ := Prog.Ends.of_andThen h
    obtain ⟨attempts,hattempts,rfl⟩ := ends_retry_iff.mp h₁
    cases r₁ with
    | ok success =>
      cases h₂
      exact ⟨attempts,⟨_,hattempts,rfl⟩,by simp⟩
    | error e =>
      cases h₂
      exact ⟨attempts,⟨_,hattempts,rfl⟩,by simp⟩
  · rintro ⟨attempts,⟨success,hattempts,rfl⟩,rfl⟩
    have hretry := ends_retry_iff.mpr ⟨attempts,hattempts,rfl⟩
    cases success with
    | ok success => exact List.append_nil (attempts.map Prod.fst).flatten ▸ hretry.bind_ok .ret
    | error e => exact hretry.bind_error _

/-- The `Runnable` gets to `finishCommand` exactly if `execute` returns. -/
theorem runnable_ends_iff {c : Command} {finishCommand : Client Unit} {w w' : World} {tr : CallTrace}
    {r : Except Exn Unit} : (runnable c finishCommand).Ends (exec (.execute c)) World.Grows w tr r w' ↔
      (∃ attempts w₁ tr', Executes c w attempts (.ok ()) w₁ ∧
        finishCommand.Ends (exec (.execute c)) World.Grows w₁ tr' r w' ∧
        tr = (attempts.map Prod.fst).flatten ++ tr') ∨
      ∃ attempts e, Executes c w attempts (.error e) w' ∧ r = .error e ∧
        tr = (attempts.map Prod.fst).flatten := by
  constructor
  · intro h
    obtain ⟨tr₁,r₁,w₁,tr₂,rfl,h₁,h₂⟩ := Prog.Ends.of_andThen h
    obtain ⟨attempts,hexecutes,rfl⟩ := execute_ends_iff.mp h₁
    cases r₁ with
    | ok a => exact Or.inl ⟨attempts,w₁,tr₂,hexecutes,h₂,rfl⟩
    | error e =>
      cases h₂
      exact Or.inr ⟨attempts,e,hexecutes,rfl,by simp⟩
  · rintro (⟨attempts,w₁,tr',hexecutes,hfinish,rfl⟩ | ⟨attempts,e,hexecutes,rfl,rfl⟩)
    · exact (execute_ends_iff.mpr ⟨attempts,hexecutes,rfl⟩).bind_ok hfinish
    · exact (execute_ends_iff.mpr ⟨attempts,hexecutes,rfl⟩).bind_error _

/-- A put that meets a version that another client has replaced since it was read. -/
def conflict : World × Op × Choice → Bool
  | (w,.put n key x,.go) => x.version ≠ (w.store n key).length
  | _ => false

theorem conflict_iff {job : Job} (op : Op) (choice : Choice) (w : World) (r : Except Exn op.Res) (w' : World)
    (new : Option Job) (h : exec job op choice w = some (r,w',new)) :
    conflict (w,op,choice) = true ↔ r = .error .obsoleteVersion := by
  obtain ⟨⟨r',store⟩,ha,hb⟩ := Option.map_eq_some_iff.mp h
  simp only [Prod.mk.injEq] at hb
  obtain ⟨rfl,_,_⟩ := hb
  cases op with
  | put n key x =>
    cases choice <;> simp only [Op.answer,Option.some.injEq,reduceCtorEq] at ha
    · split at ha
      · rename_i hv
        cases ha
        simp [conflict,hv]
      · rename_i hv
        cases ha
        simp [conflict,hv]
    · cases ha
      simp [conflict]
  | putIfNotObsolete n key x =>
    cases choice <;> simp only [Op.answer,Option.some.injEq,reduceCtorEq] at ha
    · split at ha <;> cases ha <;> simp [conflict]
    · cases ha
      simp [conflict]
  | iterator | now =>
    cases choice <;> simp only [Op.answer,reduceCtorEq,Option.ite_none_right_eq_some] at ha
    cases ha.2
    simp [conflict]
  | _ =>
    cases choice <;> simp only [Op.answer,Option.some.injEq,reduceCtorEq] at ha <;> cases ha <;>
      simp [conflict]

section Passes

theorem passes_orThrow {α : Type} {e : Exn} (he : e ≠ .obsoleteVersion) (o : Option α) :
    (orThrow e o).Passes .obsoleteVersion := by
  cases o with
  | none => exact he
  | some a => trivial

theorem passes_liftExcept {α : Type} {r : Except Exn α} (h : ∀ e, r = .error e → e ≠ .obsoleteVersion) :
    (liftExcept r).Passes .obsoleteVersion := by
  cases r with
  | ok a => trivial
  | error e => exact h e rfl

theorem passes_getValue (n : StoreName) (key : JString) : (getValue n key).Passes .obsoleteVersion :=
  Prog.Passes.op.bind fun _ => Prog.Passes.pure

def Malformed (e : Exn) : Prop := e = .numberFormat ∨ e = .indexOutOfBounds

theorem Malformed.ne_obsolete {e : Exn} (h : Malformed e) : e ≠ .obsoleteVersion := by
  rcases h with rfl | rfl <;> simp

theorem timelineDate_error {id : JString} {e : Exn} (h : timelineDate id = .error e) :
    Malformed e := by
  unfold timelineDate at h
  split at h
  · split at h <;> cases h
    exact Or.inl rfl
  · cases h
    exact Or.inr rfl

theorem insertTweetLoop_error {timelineId : JString} {date : ℤ} {timeline : List JString} {n i : ℕ} {e : Exn}
    (h : insertTweetLoop timelineId date timeline n i = .error e) : Malformed e := by
  induction n generalizing i with
  | zero => simp [insertTweetLoop] at h
  | succ n ih =>
    cases timeline with
    | nil =>
      cases h
      exact Or.inr rfl
    | cons id timeline =>
      simp only [insertTweetLoop] at h
      split at h
      · rename_i hdate
        cases h
        exact timelineDate_error hdate
      · split at h
        · simp at h
        · exact ih h

theorem insertTweet_error {tweetId : JString} {tweetMap : TweetMap} {timeline : List JString} {e : Exn}
    (h : insertTweet tweetId tweetMap timeline = .error e) : Malformed e := by
  unfold insertTweet at h
  split at h
  · cases h
    exact Or.inl rfl
  · split at h
    · cases h
      exact Or.inl rfl
    · exact insertTweetLoop_error h

theorem startScan_error {timelineId : JString} {date : ℤ} {timeline : List JString} {n i : ℕ} {e : Exn}
    (h : startScan timelineId date timeline n i = .error e) : Malformed e := by
  induction n generalizing i with
  | zero => simp [startScan] at h
  | succ n ih =>
    simp only [startScan] at h
    split at h
    · simp at h
    · split at h
      · split at h
        · rename_i hdate
          cases h
          exact timelineDate_error hdate
        · split at h
          · simp at h
          · exact ih h
      · simp at h

theorem startBackfill_error {recentTweets : List Tweet} {timeline : List JString} {i : ℕ} {e : Exn}
    (h : startBackfill recentTweets timeline i = .error e) : Malformed e := by
  induction recentTweets generalizing timeline i with
  | nil => simp [startBackfill] at h
  | cons tweet recentTweets ih =>
    simp only [startBackfill] at h
    split at h
    · exact ih h
    · split at h
      · rename_i hscan
        cases h
        exact startScan_error hscan
      · split at h
        · simp at h
        · exact ih h

theorem passes_getTweetsLoop (userId : JString) (lastTweet limit : ℤ) (rounds : ℕ) (i : ℤ)
    (tweetList : List Tweet) :
    (getTweetsLoop userId lastTweet limit rounds i tweetList).Passes .obsoleteVersion := by
  induction rounds generalizing i tweetList with
  | zero => trivial
  | succ rounds ih =>
    unfold getTweetsLoop
    split
    · dsimp only
      split
      · trivial
      · refine (passes_getValue _ _).bind fun x => ?_
        cases x with
        | none => exact ih _ _
        | some tweetMap =>
          exact ((passes_orThrow (by simp) _).bind fun _ => Prog.Passes.pure).bind fun _ => ih _ _
    · trivial

theorem passes_getRecentTweets (userId : JString) : (getRecentTweets userId).Passes .obsoleteVersion := by
  refine (passes_getValue _ _).bind fun x => ?_
  cases x with
  | none => exact fun h => by cases h
  | some user => exact (passes_orThrow (by simp) _).bind fun _ => passes_getTweetsLoop _ _ _ _ _ _

theorem passes_tweetCommand (userId tweetId : JString) (tweetMap : TweetMap) :
    (tweetCommand userId tweetId tweetMap).Passes .obsoleteVersion := by
  refine Prog.Passes.op.bind fun _ => (passes_getValue _ _).bind fun x => ?_
  cases x with
  | none => trivial
  | some user =>
    refine Prog.Passes.op.bind fun followers => Prog.Passes.bind ?_ fun _ => ?_
    · induction followers with
      | nil => trivial
      | cons follower followers ih => exact Prog.Passes.op.bind fun _ => ih
    · exact Prog.Passes.op.bind fun _ => (passes_liftExcept fun _ h => (insertTweet_error h).ne_obsolete).bind fun _ => Prog.Passes.op

theorem passes_startFollowingCommand (userId toStartUser : JString) :
    (startFollowingCommand userId toStartUser).Passes .obsoleteVersion := by
  have hupdate : ∀ e key member, (startUpdate e key member).Passes .obsoleteVersion := by
    intro e key member
    refine Prog.Passes.op.bind fun x => ?_
    cases x with
    | none => trivial
    | some x => exact Prog.Passes.op.bind fun _ => Prog.Passes.op.bind fun _ => Prog.Passes.pure
  refine (hupdate _ _ _).bind fun _ => (hupdate _ _ _).bind fun _ => Prog.Passes.op.bind fun x => ?_
  refine (passes_getRecentTweets toStartUser).andThen rfl fun r hr => ?_
  cases r with
  | ok recentTweets =>
    exact (passes_liftExcept fun _ h => (startBackfill_error h).ne_obsolete).bind fun _ =>
      Prog.Passes.op.bind fun _ => Prog.Passes.pure
  | error e =>
    cases e with
    | obsoleteVersion => exact absurd rfl hr
    | userNotFound => trivial
    | _ => exact fun h => by cases h

theorem passes_stopFollowingCommand (userId toStopUser : JString) :
    (stopFollowingCommand userId toStopUser).Passes .obsoleteVersion := by
  have hupdate : ∀ e key member, (stopUpdate e key member).Passes .obsoleteVersion := fun e key member =>
    Prog.Passes.op.bind fun _ => (passes_orThrow (by simp) _).bind fun _ =>
      Prog.Passes.op.bind fun _ => Prog.Passes.op
  refine (hupdate _ _ _).bind fun _ => (hupdate _ _ _).bind fun _ => Prog.Passes.op.bind fun x => ?_
  cases x with
  | none => trivial
  | some x =>
    refine (passes_liftExcept fun e h => ?_).bind fun _ => Prog.Passes.op
    simp [stopFilter_error h]

theorem passes_body (c : Command) : c.body.Passes .obsoleteVersion := by
  cases c with
  | tweet userId tweetId tweetMap => exact passes_tweetCommand userId tweetId tweetMap
  | startFollowing userId toStartUser => exact passes_startFollowingCommand userId toStartUser
  | stopFollowing userId toStopUser => exact passes_stopFollowingCommand userId toStopUser

end Passes

def conflicts (attempts : List Attempt) : ℕ := (attempts.map Prod.fst).flatten.countP conflict

/-- `execute` returns only after a successful attempt exactly if its puts have met fewer
than three conflicts. -/
theorem acknowledged_iff (c : Command) (w : World) (attempts : List Attempt) (r : Except Exn Unit) (w' : World)
    (h : Executes c w attempts r w') :
    (r = .ok () → ∃ attempt ∈ attempts, ∃ a, attempt.2 = .ok a) ↔ conflicts attempts < 3 := by
  obtain ⟨success,hattempts,rfl⟩ := h
  have hagain : ∀ e : Exn, decide (e = .obsoleteVersion) = true ↔ e = .obsoleteVersion := by simp
  have hcount := hattempts.countP_flatten hagain (passes_body c) conflict_iff
  rw [conflicts,hcount,← hattempts.failed_iff]
  cases success <;> simp [Except.map]

/-- Another client can always write the user between the get and the put. -/
theorem refused_attempt (userId : JString) {toStopUser : JString} {user : UserMap} {w : World}
    (huser : (w.store .users).value toStopUser = some user) :
    ∃ tr w', (stopFollowingCommand userId toStopUser).Ends (exec (.execute (.stopFollowing userId toStopUser)))
      World.Grows w tr (.error .obsoleteVersion) w' ∧ (w'.store .users).value toStopUser = some user := by
  obtain ⟨users,husers⟩ := Store.value_eq_some.mp huser
  let job := Job.execute (.stopFollowing userId toStopUser)
  let set := (asSet user.followers).erase userId
  let x : Versioned UserMap := ⟨user.setEdges .followers (toString set),users.length+1⟩
  let w₁ := w.log job (.get .users toStopUser) (.ok ((w.store .users).get toStopUser))
  let w₂ := w₁.log job (.iterator set) (.ok set)
  let w₃ : World := ⟨w₂.write .users toStopUser user,w₂.history⟩
  have hgrows : w₂.Grows w₃ := ⟨fun n => w₂.grows_write .users n toStopUser user,List.suffix_rfl⟩
  have hget : (get .users toStopUser).Ends (exec job) World.Grows w _ _ w₁ :=
    Prog.Ends.op (World.Grows.refl w) (show exec job (.get .users toStopUser) .go w = some (_,w₁,none) from rfl)
  have hiterator : (iterator set).Ends (exec job) World.Grows w₁ _ (.ok set) w₂ :=
    Prog.Ends.op (World.Grows.refl w₁) (exec_iterator job w₁ (List.Perm.refl set))
  have hversion : x.version ≠ (w₃.store .users toStopUser).length := by
    simp [x,w₃,w₂,w₁,World.log,husers]
  have hput : (put .users toStopUser x).Ends (exec job) World.Grows w₂ _ (.error .obsoleteVersion)
      (w₃.log job (.put .users toStopUser x) (.error .obsoleteVersion)) :=
    Prog.Ends.op hgrows (exec_put_obsolete job hversion)
  have hx : (w.store .users).get toStopUser = some ⟨user,users.length+1⟩ :=
    Store.get_eq_some.mpr ⟨users,husers,rfl⟩
  rw [hx] at hget
  have hupdate : (stopUpdate .followers toStopUser userId).Ends (exec job) World.Grows w _ _ _ :=
    hget.bind_ok (hiterator.bind_ok hput)
  refine ⟨_,_,hupdate.bind_error _,?_⟩
  simp [w₃,World.log,Store.value]

/-- Each of the three attempts is overtaken by another client. -/
theorem acknowledged_without_effect :
    ¬ ∀ (w : World) (attempts : List Attempt) (r : Except Exn Unit) (w' : World),
      Executes (.stopFollowing ['a'] ['c']) w attempts r w' →
      (r = .ok () → ∃ attempt ∈ attempts, ∃ a, attempt.2 = .ok a) := by
  intro hall
  obtain ⟨tr₁,w₁,h₁,huser₁⟩ := refused_attempt ['a'] (show (World.store ⟨bFollowsC,[]⟩ .users).value ['c'] = _ from rfl)
  obtain ⟨tr₂,w₂,h₂,huser₂⟩ := refused_attempt ['a'] huser₁
  obtain ⟨tr₃,w₃,h₃,_⟩ := refused_attempt ['a'] huser₂
  have hexecutes : Executes (.stopFollowing ['a'] ['c']) ⟨bFollowsC,[]⟩
      [(tr₁,.error .obsoleteVersion),(tr₂,.error .obsoleteVersion),(tr₃,.error .obsoleteVersion)] (.ok ()) w₃ :=
    ⟨.ok none,.again h₁ rfl (.again h₂ rfl (.again h₃ rfl .none)),rfl⟩
  obtain ⟨attempt,hmem,a,ha⟩ := hall _ _ _ _ hexecutes rfl
  simp at hmem
  obtain rfl | rfl | rfl := hmem <;> cases ha

/-- What thread `i` has returned after these events. -/
def returned (i : ℕ) (es : List Event) (s₀ : State) : Option (Job × Option Tweet) :=
  (Runs.run machine.step es s₀).bind fun s => s.threads[i]?.bind fun t =>
    t.2.outcome.bind fun r => r.toOption.map fun a => (t.1,a)

/-- The calls of a thread that has returned, with all others as the other clients. -/
theorem ends_of_returned {i : ℕ} {es : List Event} {s₀ : State} (hs₀ : s₀.threads = []) {job : Job} {a : Option Tweet}
    (h : returned i es s₀ = some (job,a)) :
    ∃ w w', job.body.Ends (exec job) World.Grows w (machine.calls i es s₀) (.ok a) w' := by
  obtain ⟨s,hs,h⟩ := Option.bind_eq_some_iff.mp h
  obtain ⟨⟨job',p⟩,ht,h⟩ := Option.bind_eq_some_iff.mp h
  obtain ⟨r,hr,h⟩ := Option.bind_eq_some_iff.mp h
  obtain ⟨a',ha,h⟩ := Option.map_eq_some_iff.mp h
  cases h
  cases r with
  | error e => cases ha
  | ok a' =>
    cases ha
    have hreaches : Runs.Reaches machine.step Runs.anyStep s₀ es s := Runs.reaches_of_run .start hs
    obtain ⟨_,w,w',_,hends⟩ := Machine.ends_of_outcome (C:=fun _ _ _ _ => True) World.Grows.refl
      (fun _ _ _ => World.Grows.trans) (fun _ _ _ => step_grows) (fun e s _ => calls_true e s) hreaches hs₀ ht hr
    exact ⟨w,w',hends⟩

/-- `b` stops to follow `c`, whose map is written twice by his tweets in between. -/
def stopBetweenTweets : List Event :=
  [.start (.execute (.stopFollowing ['b'] ['c'])),.start (.tweet ['c'] none none),.start (.tweet ['c'] none none),
    .thread 1 (.time 1),.thread 1 .go,.thread 1 .go,.thread 0 .go,.thread 0 (.order []),.thread 1 .go,.thread 0 .go,
    .thread 2 (.time 2),.thread 2 .go,.thread 2 .go,.thread 0 .go,.thread 0 (.order []),.thread 2 .go,.thread 0 .go,
    .thread 0 .go,.thread 0 (.order []),.thread 0 .go,.thread 0 .go,.thread 0 (.order []),.thread 0 .go,.thread 0 .go]

/-- The third attempt is successful. -/
theorem acknowledged_after_conflicts :
    ∃ w attempts w', Executes (.stopFollowing ['b'] ['c']) w attempts (.ok ()) w' ∧
      (attempts.map Prod.fst).flatten = machine.calls 0 stopBetweenTweets ⟨⟨bFollowsC,[]⟩,[]⟩ ∧
      conflicts attempts = 2 ∧ ∃ attempt ∈ attempts, ∃ a, attempt.2 = .ok a := by
  have hreturned : returned 0 stopBetweenTweets ⟨⟨bFollowsC,[]⟩,[]⟩ =
      some (.execute (.stopFollowing ['b'] ['c']),none) := by decide +kernel
  have hconflicts : (machine.calls 0 stopBetweenTweets ⟨⟨bFollowsC,[]⟩,[]⟩).countP conflict = 2 := by decide +kernel
  obtain ⟨w,w',hends⟩ := ends_of_returned rfl hreturned
  obtain ⟨tr₁,r₁,w₁,tr₂,htr,h₁,h₂⟩ := Prog.Ends.of_andThen hends
  cases r₁ with
  | error e => cases h₂
  | ok a =>
    cases h₂
    obtain ⟨attempts,hattempts,rfl⟩ := execute_ends_iff.mp h₁
    rw [List.append_nil] at htr
    have htwo : conflicts attempts = 2 := by rw [conflicts,← htr,hconflicts]
    exact ⟨w,attempts,w',hattempts,htr.symm,htwo,
      (acknowledged_iff _ w attempts _ w' hattempts).mpr (by rw [htwo]; decide) rfl⟩

end TweetService
end Bigbird
