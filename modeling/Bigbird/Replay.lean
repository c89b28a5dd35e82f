import Bigbird.Deliveries

/-! Recovery of a tweet: a `TweetCommand` whose process dies after some of its writes, and
which is then executed again. -/
namespace Bigbird
namespace TweetService

open JavaText VersionedStore Programs

section Alone

/-- The answers that a program gets when no other client is active; `order` is the order in
which sets are iterated. -/
def Op.choice (order : List JString → List JString) : Op → Choice
  | .storeRemotely _ => .stored true
  | .now => .time 0
  | .iterator set => .order (order set)
  | _ => .go

/-- A call of a program that runs alone; a task that it submits is run at once. -/
def call (order : List JString → List JString) (runTask : Job → World → World) (job : Job) (op : Op)
    (w : World) : Except Exn op.Res × World :=
  match exec job op (op.choice order) w with
  | some (r,w',new) => (r,new.elim w' fun task => runTask task w')
  | none => (.error .store,w)

/-- Tasks of a `TweetCommand` submit no tasks themselves. -/
def runTask (order : List JString → List JString) (task : Job) (w : World) : World :=
  (task.body.eval (call order (fun _ w => w) task) w).2

def runAlone {α : Type} (order : List JString → List JString) (job : Job) (p : Client α) (w : World) :
    Except Exn α × World := p.eval (call order (runTask order) job) w

end Alone

abbrev Write := (n : StoreName) × JString × Val n

def World.writes (w : World) : List Write :=
  (w.history.filterMap fun c => (c.2.1.written c.2.2).map fun x => ⟨x.1,x.2.1,x.2.2.value⟩).reverse

def World.apply (w : World) (x : Write) : World := ⟨w.write x.1 x.2.1 x.2.2,w.history⟩

def World.applyAll (w : World) (ws : List Write) : World := ws.foldl World.apply w

/-- The command is executed on these stores from its start to its end. -/
def execution (order : List JString → List JString) (w : World) (c : Command) : World :=
  (runAlone order (.execute c) c.execute ⟨w.store,[]⟩).2

/-- What is left of an execution that is cut off after `k` writes. -/
def cutOff (order : List JString → List JString) (w : World) (c : Command) (k : ℕ) : World :=
  w.applyAll ((execution order w c).writes.take k)

/-- The same tweets, and in each timeline the same entries. -/
def SameOutcome (w w' : World) : Prop :=
  (∀ id, (w.store .tweets).value id = (w'.store .tweets).value id) ∧
  ∀ user, (w.timeline user).Perm (w'.timeline user)

/-- How often a `TweetCommand` writes when its tweet is new. -/
def writeCount (w : World) (userId : JString) : ℕ :=
  match (w.store .users).value userId with
  | none => 1
  | some user => (asSet user.followers).length + 2

section Writes

/-- From `w` to `w'` exactly the writes `ws` were made. -/
structure Wrote (w w' : World) (ws : List Write) : Prop where
  store : w'.store = (w.applyAll ws).store
  writes : w'.writes = w.writes ++ ws

theorem applyAll_store {w w' : World} (h : w.store = w'.store) (ws : List Write) :
    (w.applyAll ws).store = (w'.applyAll ws).store := by
  induction ws generalizing w w' with
  | nil => exact h
  | cons x ws ih => exact ih (by simp only [World.apply,World.write,h])

theorem Wrote.trans {w w' w'' : World} {ws ws' : List Write} (h : Wrote w w' ws) (h' : Wrote w' w'' ws') :
    Wrote w w'' (ws++ws') := by
  refine ⟨?_,by rw [h'.writes,h.writes,List.append_assoc]⟩
  rw [h'.store,applyAll_store h.store,World.applyAll,World.applyAll,World.applyAll,List.foldl_append]

theorem Wrote.of_start {w w' : World} {ws : List Write} (h : Wrote ⟨w.store,[]⟩ w' ws) :
    w'.store = (w.applyAll ws).store ∧ w'.writes = ws := by
  have hstart : (World.mk w.store []).store = w.store := rfl
  exact ⟨h.store.trans (applyAll_store hstart ws),by simpa [World.writes] using h.writes⟩

theorem Wrote.log {w : World} (job : Job) {op : Op} {r : Except Exn op.Res} (h : op.written r = none) :
    Wrote w (w.log job op r) [] :=
  ⟨rfl,by simp [World.writes,World.log,h]⟩

theorem Wrote.logWrite {w : World} (job : Job) {op : Op} {r : Except Exn op.Res} {n : StoreName}
    {key : JString} {x : Versioned (Val n)} (h : op.written r = some ⟨n,key,x⟩) :
    Wrote w (w.logWrite job op r n key x.value) [⟨n,key,x.value⟩] :=
  ⟨rfl,by simp [World.writes,World.logWrite,h]⟩

theorem timeline_apply (w : World) (user : JString) (list : List JString) :
    (w.apply ⟨.friendsTimeline,user,list⟩).timeline = Function.update w.timeline user list := by
  funext u
  by_cases h : u = user
  · subst h
    simp [World.timeline,World.apply,Store.value]
  · simp [World.timeline,World.apply,Store.value,h]

theorem Wrote.timeline {w w' : World} {ws : List Write} (h : Wrote w w' ws) :
    w'.timeline = (w.applyAll ws).timeline := by
  funext u
  rw [World.timeline,World.timeline,h.store]

/-- Writes that add the entry `e` to the timelines of `users`, one after the other; `t` is
what the timelines hold before. -/
inductive Inserts (e : JString) : (JString → List JString) → List JString → List Write → Prop
  | nil {t : JString → List JString} : Inserts e t [] []
  | cons {t : JString → List JString} {users : List JString} {ws : List Write} {user : JString}
      {list : List JString} : list.Perm (e::t user) → Inserts e (Function.update t user list) users ws →
      Inserts e t (user::users) (⟨.friendsTimeline,user,list⟩::ws)

theorem Inserts.length_eq {e : JString} {t : JString → List JString} {users : List JString}
    {ws : List Write} (h : Inserts e t users ws) : ws.length = users.length := by
  induction h with
  | nil => rfl
  | cons _ _ ih => rw [List.length_cons,List.length_cons,ih]

/-- After the first `k` writes a timeline has the entry as often as its user was reached. -/
theorem Inserts.timeline {e : JString} {t : JString → List JString} {users : List JString}
    {ws : List Write} (h : Inserts e t users ws) {w : World} (hw : w.timeline = t) (k : ℕ) (u : JString) :
    ((w.applyAll (ws.take k)).timeline u).Perm (List.replicate ((users.take k).count u) e ++ t u) := by
  induction h generalizing w k with
  | nil => simp [World.applyAll,hw]
  | @cons t users ws user list hperm _ ih =>
    cases k with
    | zero => simp [World.applyAll,hw]
    | succ k =>
      have hrest := ih (w:=w.apply ⟨.friendsTimeline,user,list⟩) (by rw [timeline_apply,hw]) k
      rw [List.take_succ_cons,List.take_succ_cons,World.applyAll,List.foldl_cons]
      refine hrest.trans ?_
      by_cases hu : user = u
      · subst hu
        rw [Function.update_self,List.count_cons_self,List.replicate_succ]
        exact (hperm.append_left _).trans List.perm_middle
      · rw [Function.update_of_ne (Ne.symm hu),List.count_cons_of_ne hu]

theorem Inserts.store {e : JString} {t : JString → List JString} {users : List JString}
    {ws : List Write} (h : Inserts e t users ws) {n : StoreName} (hn : n ≠ .friendsTimeline) (w : World)
    (k : ℕ) : (w.applyAll (ws.take k)).store n = w.store n := by
  induction h generalizing w k with
  | nil => simp [World.applyAll]
  | @cons t users ws user list _ _ ih =>
    cases k with
    | zero => rfl
    | succ k =>
      rw [List.take_succ_cons,World.applyAll,List.foldl_cons]
      refine (ih _ k).trans ?_
      simp [World.apply,hn]

end Writes

section Calls

variable (order : List JString → List JString) (t : Job → World → World) (job : Job) (w : World)

theorem call_get (n : StoreName) (key : JString) :
    call order t job (.get n key) w =
      (.ok ((w.store n).get key),w.log job (.get n key) (.ok ((w.store n).get key))) := rfl

theorem call_put {n : StoreName} {key : JString} {x : Versioned (Val n)}
    (h : x.version = (w.store n key).length) :
    call order t job (.put n key x) w = (.ok (),w.logWrite job (.put n key x) (.ok ()) n key x.value) := by
  simp [call,Op.choice,exec_put job h]

theorem call_put_obsolete {n : StoreName} {key : JString} {x : Versioned (Val n)}
    (h : x.version ≠ (w.store n key).length) :
    call order t job (.put n key x) w =
      (.error .obsoleteVersion,w.log job (.put n key x) (.error .obsoleteVersion)) := by
  simp [call,Op.choice,exec_put_obsolete job h]

theorem call_iterator {set : List JString} (h : (order set).Perm set) :
    call order t job (.iterator set) w =
      (.ok (order set),w.log job (.iterator set) (.ok (order set))) := by
  simp [call,Op.choice,exec_iterator job w h]

theorem call_submit (task : Job) :
    call order t job (.submit task) w = (.ok (),t task (w.log job (.submit task) (.ok ()))) := rfl

end Calls

section Executions

variable {order : List JString → List JString} {userId tweetId : JString} {tweetMap : TweetMap}

theorem eval_get (t : Job → World → World) (job : Job) (w : World) {α : Type} (n : StoreName)
    (key : JString) (f : Option (Versioned (Val n)) → Client α) :
    (get n key >>= f).eval (call order t job) w = (f ((w.store n).get key)).eval (call order t job)
      (w.log job (.get n key) (.ok ((w.store n).get key))) := by
  rw [Prog.eval_bind,get,Prog.eval_op,call_get]
  rfl

theorem eval_updateTimeline (order : List JString → List JString) (t : Job → World → World) (job : Job) {w : World} {user : JString}
    (hdated : tweetMap.Dated) (hentry : HeadDated [entry tweetId tweetMap])
    (hhead : HeadDated (w.timeline user)) :
    ∃ w' list, (updateTimeline tweetId tweetMap user).eval (call order t job) w = (.ok (),w') ∧
      list.Perm (entry tweetId tweetMap::w.timeline user) ∧ HeadDated list ∧
      Wrote w w' [⟨.friendsTimeline,user,list⟩] := by
  obtain ⟨list,hlist⟩ := insertTweet_ok hdated hhead tweetId
  rw [← getTimeline_value] at hlist
  have hperm := insertTweet_perm hlist
  have hlistHead := insertTweet_headDated hentry (by rwa [getTimeline_value]) hlist
  rw [getTimeline_value] at hperm
  let w₁ := w.log job (.get .friendsTimeline user) (.ok ((w.store .friendsTimeline).get user))
  let x : Versioned (Val .friendsTimeline) := ⟨list,(w.getTimeline user).version⟩
  have hlog : Wrote w w₁ [] := Wrote.log job rfl
  have hput : Wrote w₁ (w₁.logWrite job (.put .friendsTimeline user x) (.ok ()) .friendsTimeline user x.value)
      [⟨.friendsTimeline,user,x.value⟩] := Wrote.logWrite job rfl
  refine ⟨_,list,?_,hperm,hlistHead,hlog.trans hput⟩
  rw [updateTimeline,eval_get]
  change Prog.eval _ (liftExcept (insertTweet tweetId tweetMap (w.getTimeline user).value) >>= _) _ = _
  rw [hlist]
  change (Prog.op _).eval _ _ = _
  rw [Prog.eval_op]
  exact call_put order t job w₁ (getTimeline_version w user)

theorem eval_runTask (order : List JString → List JString) {w : World} {user : JString} (hdated : tweetMap.Dated)
    (hentry : HeadDated [entry tweetId tweetMap]) (hhead : HeadDated (w.timeline user)) :
    ∃ list, list.Perm (entry tweetId tweetMap::w.timeline user) ∧ HeadDated list ∧
      Wrote w (runTask order (.updateTimeline tweetId tweetMap user) w) [⟨.friendsTimeline,user,list⟩] := by
  obtain ⟨w',list,heval,hperm,hhead',hwrote⟩ :=
    eval_updateTimeline order (fun _ w => w) (.updateTimeline tweetId tweetMap user) hdated hentry hhead
  refine ⟨list,hperm,hhead',?_⟩
  have hrun : runTask order (.updateTimeline tweetId tweetMap user) w = w' := by
    rw [runTask,Job.body,Prog.eval_bind,heval]
    rfl
  rwa [hrun]

theorem eval_updates (order : List JString → List JString) (userId : JString) (job : Job) (hdated : tweetMap.Dated) (hentry : HeadDated [entry tweetId tweetMap])
    (followers : List JString) {w : World} (hhead : ∀ u, HeadDated (w.timeline u)) :
    ∃ w' ws, (submitAll tweetId tweetMap followers >>= fun _ => updateTimeline tweetId tweetMap userId).eval
        (call order (runTask order) job) w = (.ok (),w') ∧
      Wrote w w' ws ∧ Inserts (entry tweetId tweetMap) w.timeline (followers ++ [userId]) ws := by
  induction followers generalizing w with
  | nil =>
    obtain ⟨w',list,heval,hperm,_,hwrote⟩ :=
      eval_updateTimeline order (runTask order) job hdated hentry (hhead userId)
    exact ⟨w',_,heval,hwrote,.cons hperm .nil⟩
  | cons follower followers ih =>
    have hlog : Wrote w (w.log job (.submit (.updateTimeline tweetId tweetMap follower)) (.ok ())) [] :=
      Wrote.log job rfl
    obtain ⟨list,hperm,hlist,htask⟩ := eval_runTask order hdated hentry (hhead follower)
      (w:=w.log job (.submit (.updateTimeline tweetId tweetMap follower)) (.ok ()))
    have hfirst := hlog.trans htask
    have htimeline : (runTask order (.updateTimeline tweetId tweetMap follower)
        (w.log job (.submit (.updateTimeline tweetId tweetMap follower)) (.ok ()))).timeline =
        Function.update w.timeline follower list := by
      rw [hfirst.timeline]
      exact timeline_apply w follower list
    have hhead' : ∀ u, HeadDated (Function.update w.timeline follower list u) := by
      intro u
      by_cases hu : u = follower
      · subst hu
        rwa [Function.update_self]
      · rw [Function.update_of_ne hu]
        exact hhead u
    obtain ⟨w',ws,heval,hrest,hinserts⟩ := ih fun u => htimeline ▸ hhead' u
    refine ⟨w',_,?_,hfirst.trans hrest,.cons hperm (htimeline ▸ hinserts)⟩
    rw [submitAll,bind_assoc,Prog.eval_bind,Prog.eval_op,call_submit]
    exact heval

def targets (order : List JString → List JString) (w : World) (userId : JString) : List JString :=
  match (w.store .users).value userId with
  | none => []
  | some user => order (asSet user.followers) ++ [userId]

theorem eval_tweetCommand (horder : ∀ l, (order l).Perm l) (job : Job) (hdated : tweetMap.Dated)
    (hentry : HeadDated [entry tweetId tweetMap]) {w : World} (hhead : ∀ u, HeadDated (w.timeline u))
    (hnew : w.store .tweets tweetId = []) :
    ∃ w' ws, (tweetCommand userId tweetId tweetMap).eval (call order (runTask order) job) w = (.ok (),w') ∧
      Wrote w w' (⟨.tweets,tweetId,tweetMap⟩::ws) ∧
      Inserts (entry tweetId tweetMap) w.timeline (targets order w userId) ws := by
  let x : Versioned (Val .tweets) := ⟨tweetMap,0⟩
  let w₁ := w.logWrite job (.put .tweets tweetId x) (.ok ()) .tweets tweetId x.value
  let w₂ := w₁.log job (.get .users userId) (.ok ((w₁.store .users).get userId))
  have hput : Wrote w w₁ [⟨.tweets,tweetId,x.value⟩] := Wrote.logWrite job rfl
  have hget : Wrote w₁ w₂ [] := Wrote.log job rfl
  have htimeline : w₂.timeline = w.timeline := by
    funext u
    simp [w₁,w₂,World.timeline,World.log,World.logWrite]
  have husers : (w₁.store .users).value userId = (w.store .users).value userId := by
    simp [w₁,World.logWrite]
  have heval : (tweetCommand userId tweetId tweetMap).eval (call order (runTask order) job) w =
      (match (w₁.store .users).value userId with
        | none => .ret ()
        | some user => fanOut userId tweetId tweetMap user : Client Unit).eval
          (call order (runTask order) job) w₂ := by
    rw [tweetCommand,Prog.eval_bind,put,Prog.eval_op,call_put order _ job w (by simp [hnew])]
    change (getValue .users userId >>= _).eval _ w₁ = _
    rw [getValue,bind_assoc,eval_get,pure_bind,Store.map_get]
    rfl
  unfold targets
  rw [heval,← husers]
  cases huser : (w₁.store .users).value userId with
  | none => exact ⟨w₂,[],rfl,hput.trans hget,.nil⟩
  | some user =>
    let set := asSet user.followers
    have hiterator : Wrote w₂ (w₂.log job (.iterator set) (.ok (order set))) [] := Wrote.log job rfl
    obtain ⟨w',ws,hws,hwrote,hinserts⟩ := eval_updates order userId job hdated hentry
      (order set) (w:=w₂.log job (.iterator set) (.ok (order set))) (fun u => by
        change HeadDated (w₂.timeline u)
        rw [htimeline]
        exact hhead u)
    refine ⟨w',ws,?_,((hput.trans hget).trans hiterator).trans hwrote,?_⟩
    · change (fanOut userId tweetId tweetMap user).eval _ _ = _
      rw [fanOut,Prog.eval_bind,iterator,Prog.eval_op,call_iterator order _ job w₂ (horder set)]
      exact hws
    · rw [← htimeline]
      exact hinserts

theorem execution_eq (order : List JString → List JString) (w : World) (c : Command) :
    execution order w c =
      ((applyUpdate c.body).eval (call order (runTask order) (.execute c)) ⟨w.store,[]⟩).2 := by
  rw [execution,runAlone,Command.execute,Prog.eval_bind]
  cases ((applyUpdate c.body).eval (call order (runTask order) (.execute c)) ⟨w.store,[]⟩).1 <;> rfl

theorem execution_of_stored (order : List JString → List JString) (userId : JString) (tweetMap : TweetMap) {w : World}
    (hstored : w.store .tweets tweetId ≠ []) :
    (execution order w (.tweet userId tweetId tweetMap)).store = w.store ∧
      (execution order w (.tweet userId tweetId tweetMap)).writes = [] := by
  have hattempt : ∀ w', Wrote ⟨w.store,[]⟩ w' [] → ∃ e w'', (tweetCommand userId tweetId tweetMap).eval
      (call order (runTask order) (.execute (.tweet userId tweetId tweetMap))) w' = (.error e,w'') ∧
        decide (e = .obsoleteVersion) = true ∧ Wrote ⟨w.store,[]⟩ w'' [] := by
    intro w' hw'
    have hversion : 0 ≠ (w'.store .tweets tweetId).length := by
      rw [hw'.store]
      exact fun h => hstored (List.length_eq_zero_iff.mp h.symm)
    have hlog : Wrote w' (w'.log (.execute (.tweet userId tweetId tweetMap)) (.put .tweets tweetId ⟨tweetMap,0⟩)
        (.error .obsoleteVersion)) [] := Wrote.log _ rfl
    refine ⟨.obsoleteVersion,_,?_,rfl,hw'.trans hlog⟩
    rw [tweetCommand,Prog.eval_bind,put,Prog.eval_op,call_put_obsolete order _ _ w' hversion]
    rfl
  have hstart : Wrote ⟨w.store,[]⟩ ⟨w.store,[]⟩ [] := ⟨rfl,rfl⟩
  obtain ⟨w',heval,hwrote⟩ := Prog.eval_retry_again hattempt hstart 3
  rw [execution_eq,applyUpdate,Command.body,heval]
  exact hwrote.of_start

theorem execution_of_new (userId : JString) (horder : ∀ l, (order l).Perm l) (hdated : tweetMap.Dated)
    (hentry : HeadDated [entry tweetId tweetMap]) {w : World} (hhead : ∀ u, HeadDated (w.timeline u))
    (hnew : w.store .tweets tweetId = []) :
    ∃ ws, (execution order w (.tweet userId tweetId tweetMap)).store =
        (w.applyAll (⟨.tweets,tweetId,tweetMap⟩::ws)).store ∧
      (execution order w (.tweet userId tweetId tweetMap)).writes = ⟨.tweets,tweetId,tweetMap⟩::ws ∧
      Inserts (entry tweetId tweetMap) w.timeline (targets order w userId) ws := by
  obtain ⟨w',ws,heval,hwrote,hinserts⟩ := eval_tweetCommand horder
    (.execute (.tweet userId tweetId tweetMap)) hdated hentry (w:=⟨w.store,[]⟩) hhead hnew
  obtain ⟨hstore,hwrites⟩ := hwrote.of_start
  rw [execution_eq,applyUpdate,Command.body,Prog.eval_retry_ok heval 2]
  exact ⟨ws,hstore,hwrites,hinserts⟩

theorem prefix_timeline {e : JString} {w : World} {users : List JString} {ws : List Write}
    (h : Inserts e w.timeline users ws) (tweetId : JString) (tweetMap : TweetMap) (k : ℕ) (u : JString) :
    ((w.applyAll (⟨.tweets,tweetId,tweetMap⟩::ws.take k)).timeline u).Perm
      (List.replicate ((users.take k).count u) e ++ w.timeline u) :=
  h.timeline (w:=w.apply ⟨.tweets,tweetId,tweetMap⟩) (by
    funext u
    simp [World.timeline,World.apply]) k u

theorem prefix_tweets {e : JString} {t : JString → List JString} {w : World} {users : List JString}
    {ws : List Write} (h : Inserts e t users ws) (tweetId : JString) (tweetMap : TweetMap) (k : ℕ) :
    (w.applyAll (⟨.tweets,tweetId,tweetMap⟩::ws.take k)).store .tweets =
      (w.store .tweets).write tweetId tweetMap := by
  rw [World.applyAll,List.foldl_cons]
  refine (h.store (by simp) _ k).trans ?_
  simp [World.apply]

theorem length_targets (order : List JString → List JString) (horder : ∀ l, (order l).Perm l) (w : World)
    (userId : JString) : writeCount w userId = (targets order w userId).length + 1 := by
  unfold writeCount targets
  cases (w.store .users).value userId with
  | none => rfl
  | some user => simp [(horder _).length_eq]

theorem targets_perm {order order' : List JString → List JString} (horder : ∀ l, (order l).Perm l)
    (horder' : ∀ l, (order' l).Perm l) (w : World) (userId : JString) :
    (targets order w userId).Perm (targets order' w userId) := by
  unfold targets
  cases (w.store .users).value userId with
  | none => exact List.Perm.refl _
  | some user => exact ((horder _).trans (horder' _).symm).append_right _

theorem SameOutcome.congr {w₁ w₂ w₁' w₂' : World} (h₁ : w₁'.store = w₁.store) (h₂ : w₂'.store = w₂.store) :
    SameOutcome w₁' w₂' ↔ SameOutcome w₁ w₂ := by
  simp only [SameOutcome,World.timeline,h₁,h₂]

theorem perm_replicate_append {a b : ℕ} {e : JString} {l : List JString} :
    (List.replicate a e ++ l).Perm (List.replicate b e ++ l) ↔ a = b := by
  rw [List.perm_append_right_iff]
  constructor
  · intro h
    simpa using h.length_eq
  · rintro rfl
    exact List.Perm.refl _

theorem sameOutcome_prefix {e : JString} {w : World} {users users' : List JString} {ws ws' : List Write}
    (h : Inserts e w.timeline users ws) (h' : Inserts e w.timeline users' ws') (hperm : users.Perm users')
    (tweetId : JString) (tweetMap : TweetMap) (k : ℕ) :
    SameOutcome (w.applyAll (⟨.tweets,tweetId,tweetMap⟩::ws.take k))
      (w.applyAll (⟨.tweets,tweetId,tweetMap⟩::ws')) ↔ users.length ≤ k := by
  have hfull : ∀ u, ((w.applyAll (⟨.tweets,tweetId,tweetMap⟩::ws')).timeline u).Perm
      (List.replicate (users'.count u) e ++ w.timeline u) := by
    intro u
    have htimeline := prefix_timeline h' tweetId tweetMap ws'.length u
    rwa [List.take_length,h'.length_eq,List.take_length] at htimeline
  have htweets := prefix_tweets (w:=w) h' tweetId tweetMap ws'.length
  rw [List.take_length] at htweets
  constructor
  · intro hsame
    have hcount : ∀ u, (users.take k).count u = users.count u := by
      intro u
      rw [hperm.count_eq u]
      exact perm_replicate_append.mp
        ((prefix_timeline h tweetId tweetMap k u).symm.trans ((hsame.2 u).trans (hfull u)))
    have hlength := (List.perm_iff_count.mpr hcount).length_eq
    rw [List.length_take] at hlength
    omega
  · intro hk
    refine ⟨fun id => by rw [prefix_tweets h,htweets],fun u => ?_⟩
    refine (prefix_timeline h tweetId tweetMap k u).trans (List.Perm.trans ?_ (hfull u).symm)
    rw [List.take_of_length_le hk]
    exact perm_replicate_append.mpr (hperm.count_eq u)

end Executions

section Schedule

/-- Some events take thread `i` to the end of its program and the world to `w`; threads that
they start end, too. -/
def EndsIn (s : State) (i : ℕ) (job : Job) (w : World) : Prop :=
  ∃ es q new, Runs.run machine.step es s = some ⟨w,s.threads.set i (job,q) ++ new⟩ ∧
    q.outcome.isSome ∧ ∀ t ∈ new, t.2.outcome.isSome

theorem exec_choice {order : List JString → List JString} (horder : ∀ l, (order l).Perm l) (job : Job)
    (op : Op) (w : World) : ∃ r w' new, exec job op (op.choice order) w = some (r,w',new) := by
  cases op with
  | iterator set =>
    exact ⟨_,_,_,exec_iterator job w (horder set)⟩
  | _ => exact ⟨_,_,_,rfl⟩

theorem eq_submit_of_task {op : Op} {r : Except Exn op.Res} {task : Job} (h : op.task r = some task) :
    op = .submit task := by
  cases op with
  | submit task' =>
    cases r with
    | ok a => exact congrArg Op.submit (Option.some.inj h)
    | error e => simp [Op.task] at h
  | _ => simp [Op.task] at h

/-- The same by events that meet a condition. -/
def EndsWithin (cond : Event → State → Prop) (s : State) (i : ℕ) (job : Job) (w : World) : Prop :=
  ∃ es q new, Runs.Reaches machine.step cond s es ⟨w,s.threads.set i (job,q) ++ new⟩ ∧
    q.outcome.isSome ∧ ∀ t ∈ new, t.2.outcome.isSome

theorem endsIn_iff {s : State} {i : ℕ} {job : Job} {w : World} :
    EndsIn s i job w ↔ EndsWithin Runs.anyStep s i job w := by
  constructor
  · rintro ⟨es,q,new,hrun,hq,hnew⟩
    exact ⟨es,q,new,Runs.reaches_of_run .start hrun,hq,hnew⟩
  · rintro ⟨es,q,new,hreaches,hq,hnew⟩
    exact ⟨es,q,new,hreaches.run_eq,hq,hnew⟩

/-- A program that runs alone is a program whose thread makes the next call, or whose last
task does, each time. -/
theorem endsWithin_runAlone {cond : Event → State → Prop}
    (hcond : ∀ i choice s, choice ≠ .fails → cond (.thread i choice) s)
    {order : List JString → List JString} (horder : ∀ l, (order l).Perm l)
    {t : Job → World → World} {job : Job} {p : Client (Option Tweet)} {i : ℕ}
    (hp : p.All fun op => ∀ task, op = .submit task → ∀ (s : State) n, s.threads[n]? = some (task,task.body) →
      EndsWithin cond s n task (t task s.world))
    {s : State} (hi : s.threads[i]? = some (job,p)) :
    EndsWithin cond s i job (p.eval (call order t job) s.world).2 := by
  obtain ⟨hil,hget⟩ := List.getElem?_eq_some_iff.mp hi
  induction p generalizing s with
  | ret a =>
    refine ⟨[],.ret a,[],?_,rfl,by simp⟩
    rw [← hget,List.set_getElem_self,List.append_nil]
    exact .start
  | throw e =>
    refine ⟨[],.throw e,[],?_,rfl,by simp⟩
    rw [← hget,List.set_getElem_self,List.append_nil]
    exact .start
  | call op k ih =>
    obtain ⟨r,w,new,hexec⟩ := exec_choice horder job op s.world
    have hstep : machine.step (.thread i (op.choice order)) s =
        some ⟨w,s.threads.set i (job,k r) ++ new.toList.map fun job => (job,job.body)⟩ := by
      simp only [Machine.step,hi]
      exact congrArg (Option.map _) hexec
    have hcall : call order t job op s.world = (r,new.elim w fun task => t task w) := by
      simp [call,hexec]
    have hfirst := Runs.Reaches.next _ .start (hcond i (op.choice order) s (by cases op <;> simp [Op.choice])) hstep
    rw [Prog.eval,hcall]
    cases new with
    | none =>
      have hi' : (s.threads.set i (job,k r))[i]? = some (job,k r) := by simp [hil]
      obtain ⟨es,q,new,hrun,hq,hnew⟩ := ih r (hp.2 r) (s:=⟨w,s.threads.set i (job,k r)⟩) hi'
        (by simpa using hil) (by simp)
      rw [Option.toList_none,List.map_nil,List.append_nil] at hfirst
      rw [List.set_set] at hrun
      exact ⟨_,q,new,hfirst.trans hrun,hq,hnew⟩
    | some task =>
      have hop := eq_submit_of_task (exec_cases hexec).1.symm
      let s₁ : State := ⟨w,s.threads.set i (job,k r) ++ [(task,task.body)]⟩
      have htask : s₁.threads[s.threads.length]? = some (task,task.body) := by simp [s₁]
      obtain ⟨es,q,new,hrun,hq,hnew⟩ := hp.1 task hop s₁ s.threads.length htask
      have hset : s₁.threads.set s.threads.length (task,q) ++ new =
          s.threads.set i (job,k r) ++ ((task,q)::new) := by
        simp [s₁]
      rw [hset] at hrun
      let s₂ : State := ⟨t task w,s.threads.set i (job,k r) ++ ((task,q)::new)⟩
      have hi' : s₂.threads[i]? = some (job,k r) := by
        rw [List.getElem?_append_left (by simpa using hil)]
        simp [hil]
      obtain ⟨es',q',new',hrun',hq',hnew'⟩ := ih r (hp.2 r) (s:=s₂) hi'
        (List.getElem?_eq_some_iff.mp hi').1 (List.getElem?_eq_some_iff.mp hi').2
      have hset' : s₂.threads.set i (job,q') ++ new' =
          s.threads.set i (job,q') ++ ((task,q)::new ++ new') := by
        simp [s₂,hil]
      rw [hset'] at hrun'
      refine ⟨_,q',(task,q)::new ++ new',(hfirst.trans hrun).trans hrun',hq',fun u hu => ?_⟩
      rcases List.mem_append.mp hu with hu | hu
      · rcases List.mem_cons.mp hu with rfl | hu
        · exact hq
        · exact hnew u hu
      · exact hnew' u hu

theorem endsIn_runAlone {order : List JString → List JString} (horder : ∀ l, (order l).Perm l)
    {t : Job → World → World} {job : Job} {p : Client (Option Tweet)} {i : ℕ}
    (hp : p.All fun op => ∀ task, op = .submit task → ∀ (s : State) n, s.threads[n]? = some (task,task.body) →
      EndsIn s n task (t task s.world))
    {s : State} (hi : s.threads[i]? = some (job,p)) :
    EndsIn s i job (p.eval (call order t job) s.world).2 := by
  refine endsIn_iff.mpr (endsWithin_runAlone (fun _ _ _ _ => trivial) horder (hp.mono ?_) hi)
  exact fun op hop task h s n hn => endsIn_iff.mp (hop task h s n hn)

theorem tasks_tweetCommand (userId tweetId : JString) (tweetMap : TweetMap) :
    (tweetCommand userId tweetId tweetMap).All fun op =>
      ∀ task, op = .submit task → ∃ user, task = .updateTimeline tweetId tweetMap user := by
  refine all_tweetCommand userId tweetId tweetMap (by simp) (by simp) ?_ ?_
  · rintro user _ ⟨⟩
    exact ⟨user,rfl⟩
  · rintro _ hop task rfl
    exact hop.elim

/-- The execution of a `TweetCommand` is one of its runs. -/
theorem execution_reached {order : List JString → List JString} (horder : ∀ l, (order l).Perm l)
    (store : (n : StoreName) → Store JString (Val n)) (userId tweetId : JString) (tweetMap : TweetMap) :
    ∃ es s, Runs.Reaches machine.step Runs.anyStep
      (concurrentTweets store [(userId,tweetId,tweetMap)]) es s ∧ Ended s ∧
      s.world = execution order ⟨store,[]⟩ (.tweet userId tweetId tweetMap) := by
  have htask : ∀ task, (∃ user, task = .updateTimeline tweetId tweetMap user) → ∀ (s : State) n,
      s.threads[n]? = some (task,task.body) → EndsIn s n task (runTask order task s.world) := by
    rintro _ ⟨user,rfl⟩ s n hn
    refine endsIn_runAlone horder (Prog.All.bind ((all_updateTimeline tweetId tweetMap user).mono ?_)
      fun _ => Prog.All.pure) hn
    rintro _ hop task rfl
    exact hop.elim
  have hall : ((Job.execute (.tweet userId tweetId tweetMap)).body).All fun op => ∀ task, op = .submit task →
      ∀ (s : State) n, s.threads[n]? = some (task,task.body) → EndsIn s n task (runTask order task s.world) := by
    refine Prog.All.mono (Prog.All.bind (Prog.All.bind ((tasks_tweetCommand userId tweetId tweetMap).retry 3)
      fun _ => Prog.All.pure) fun _ => Prog.All.pure) fun op hop task h => ?_
    exact htask task (hop task h)
  obtain ⟨es,q,new,hrun,hq,hnew⟩ := endsIn_runAlone horder hall (i:=0)
    (s:=concurrentTweets store [(userId,tweetId,tweetMap)]) rfl
  refine ⟨es,_,Runs.reaches_of_run .start hrun,fun u hu => ?_,?_⟩
  · rcases List.mem_cons.mp hu with rfl | hu
    · exact hq
    · exact hnew u hu
  · change (Prog.eval (call order (runTask order) _) (Command.execute _ >>= _) ⟨store,[]⟩).2 = _
    rw [Prog.eval_bind]
    change (Prog.eval _ _ (execution order ⟨store,[]⟩ (.tweet userId tweetId tweetMap))).2 = _
    cases (Prog.eval (call order (runTask order) _) (Command.execute _) ⟨store,[]⟩).1 <;> rfl

end Schedule

/-- A `TweetCommand` that is executed again after `k` of its writes leaves what one execution
would have left if, and only if, its tweet was stored before, or it had not written at all,
or it had made all its writes. -/
theorem replay_iff {order order' order'' : List JString → List JString} (horder : ∀ l, (order l).Perm l)
    (horder' : ∀ l, (order' l).Perm l) (horder'' : ∀ l, (order'' l).Perm l) (w : World)
    (userId : JString) {tweetId : JString} {tweetMap : TweetMap} (hdated : tweetMap.Dated)
    (hentry : HeadDated [entry tweetId tweetMap]) (hhead : ∀ u, HeadDated (w.timeline u)) (k : ℕ) :
    SameOutcome
        (execution order' (cutOff order w (.tweet userId tweetId tweetMap) k) (.tweet userId tweetId tweetMap))
        (execution order'' w (.tweet userId tweetId tweetMap)) ↔
      w.store .tweets tweetId ≠ [] ∨ k = 0 ∨ writeCount w userId ≤ k := by
  by_cases hnew : w.store .tweets tweetId = []
  · obtain ⟨ws,_,hwrites,hinserts⟩ := execution_of_new userId horder hdated hentry hhead hnew
    obtain ⟨ws'',hfinal,_,hinserts''⟩ := execution_of_new userId horder'' hdated hentry hhead hnew
    have hcut : cutOff order w (.tweet userId tweetId tweetMap) k =
        w.applyAll ((⟨.tweets,tweetId,tweetMap⟩::ws).take k) := by rw [cutOff,hwrites]
    rw [length_targets order horder]
    cases k with
    | zero =>
      obtain ⟨ws',hagain,_,hinserts'⟩ := execution_of_new userId horder' hdated hentry hhead hnew
      have hsame := sameOutcome_prefix hinserts' hinserts'' (targets_perm horder' horder'' w userId)
        tweetId tweetMap ws'.length
      rw [List.take_length,hinserts'.length_eq] at hsame
      rw [hcut,List.take_zero,World.applyAll,List.foldl_nil,SameOutcome.congr hagain hfinal,hsame]
      simp
    | succ k =>
      have hstored : (cutOff order w (.tweet userId tweetId tweetMap) (k+1)).store .tweets tweetId ≠ [] := by
        rw [hcut,List.take_succ_cons,prefix_tweets hinserts]
        simp
      have hagain := (execution_of_stored order' userId tweetMap hstored).1
      rw [SameOutcome.congr hagain hfinal,hcut,List.take_succ_cons,
        sameOutcome_prefix hinserts hinserts'' (targets_perm horder horder'' w userId)]
      simp [hnew]
  · have hwrites := (execution_of_stored order userId tweetMap hnew).2
    have hcut : cutOff order w (.tweet userId tweetId tweetMap) k = w := by
      rw [cutOff,hwrites]
      simp [World.applyAll]
    have hagain := (execution_of_stored order' userId tweetMap hnew).1
    have hfinal := (execution_of_stored order'' userId tweetMap hnew).1
    rw [hcut,SameOutcome.congr hagain hfinal]
    simp [SameOutcome,hnew]

def aFollowedByC : World :=
  ⟨fun
    | .users => fun u => if u = ['a'] then [{ followers := some ['c'] }] else []
    | .tweets => fun _ => []
    | .friendsTimeline => fun _ => [],[]⟩

/-- The process dies after the tweet is stored; the timelines never get it. -/
theorem replay_loses_entries :
    ¬ SameOutcome (execution id (cutOff id aFollowedByC (.tweet ['a'] ['a','-','1'] { date := some ['1'] }) 1)
        (.tweet ['a'] ['a','-','1'] { date := some ['1'] }))
      (execution id aFollowedByC (.tweet ['a'] ['a','-','1'] { date := some ['1'] })) := by
  intro hsame
  have hagain : (execution id (cutOff id aFollowedByC (.tweet ['a'] ['a','-','1'] { date := some ['1'] }) 1)
      (.tweet ['a'] ['a','-','1'] { date := some ['1'] })).timeline ['c'] = [] := by decide +kernel
  have honce : (execution id aFollowedByC (.tweet ['a'] ['a','-','1'] { date := some ['1'] })).timeline ['c'] =
      [['a','-','1',':','1']] := by decide +kernel
  have hperm := hsame.2 ['c']
  rw [hagain,honce] at hperm
  exact absurd hperm.length_eq (by decide)

/-- The process dies after the last of the three writes. -/
theorem replay_after_last_write :
    SameOutcome (execution id (cutOff id aFollowedByC (.tweet ['a'] ['a','-','1'] { date := some ['1'] }) 3)
        (.tweet ['a'] ['a','-','1'] { date := some ['1'] }))
      (execution id aFollowedByC (.tweet ['a'] ['a','-','1'] { date := some ['1'] })) := by
  have hempty : ∀ u, HeadDated (aFollowedByC.timeline u) := fun u e he => by cases he
  have horder : ∀ l : List JString, (id l).Perm l := fun l => List.Perm.refl l
  exact (replay_iff horder horder horder aFollowedByC ['a'] (by decide) (by decide) hempty 3).mpr
    (by decide +kernel)

end TweetService
end Bigbird
