import Bigbird.Acknowledge
import Bigbird.Replay
import Bigbird.TweetPages

/-! A `StartFollowingCommand` and a `StopFollowingCommand` that run alone: what they store, and
what becomes of them when a user is missing. -/
namespace Bigbird
namespace TweetService

open JavaText VersionedStore Programs

section Users

def UserMap.addName (order : List JString → List JString) (edges : Edges) (name : JString) (user : UserMap) :
    UserMap := user.setEdges edges (toString (order ((asSet (user.edges edges)).insert name)))

def UserMap.removeName (order : List JString → List JString) (edges : Edges) (name : JString) (user : UserMap) :
    UserMap := user.setEdges edges (toString (order ((asSet (user.edges edges)).erase name)))

/-- The stores after a user's map was put again; a missing user stays missing. -/
def World.updateUser (w : World) (key : JString) (f : UserMap → UserMap) : World :=
  match (w.store .users).value key with
  | none => w
  | some user => w.apply ⟨.users,key,f user⟩

variable {w : World} {key : JString} {f : UserMap → UserMap}

theorem updateUser_missing (h : (w.store .users).value key = none) (f : UserMap → UserMap) :
    w.updateUser key f = w := by
  rw [World.updateUser,h]

theorem updateUser_registered {user : UserMap} (h : (w.store .users).value key = some user) (f : UserMap → UserMap) :
    w.updateUser key f = w.apply ⟨.users,key,f user⟩ := by
  rw [World.updateUser,h]

theorem updateUser_store (key : JString) (f : UserMap → UserMap) {n : StoreName} (hn : n ≠ .users) :
    (w.updateUser key f).store n = w.store n := by
  cases huser : (w.store .users).value key with
  | none => rw [updateUser_missing huser]
  | some user =>
    rw [updateUser_registered huser]
    simp [World.apply,hn]

theorem updateUser_value (key : JString) (f : UserMap → UserMap) (k : JString) :
    ((w.updateUser key f).store .users).value k =
      if k = key then ((w.store .users).value key).map f else (w.store .users).value k := by
  cases huser : (w.store .users).value key with
  | none =>
    rw [updateUser_missing huser]
    split
    · rename_i hk
      rw [hk,huser]
      rfl
    · rfl
  | some user =>
    rw [updateUser_registered huser]
    by_cases hk : k = key
    · simp [World.apply,Store.value,hk]
    · simp [World.apply,Store.value,hk]

theorem updateUser_congr {w' : World} (h : w'.store = w.store) (key : JString) (f : UserMap → UserMap) :
    (w'.updateUser key f).store = (w.updateUser key f).store := by
  cases huser : (w.store .users).value key with
  | none =>
    rw [updateUser_missing huser,updateUser_missing (by rw [h,huser]),h]
  | some user =>
    rw [updateUser_registered huser,updateUser_registered (by rw [h,huser])]
    simp only [World.apply,World.write,h]

theorem updateUser_grows {user : UserMap} (h : (w.store .users).value key = some user) (f : UserMap → UserMap) :
    ((w.updateUser key f).store .users key).length = (w.store .users key).length + 1 := by
  rw [updateUser_registered h]
  simp [World.apply]

end Users

section Evaluation

variable {order : List JString → List JString} {w : World} {α : Type}

theorem get_missing {n : StoreName} {key : JString} (h : (w.store n).value key = none) :
    (w.store n).get key = none := by
  rw [Store.get,← Store.value,h]
  rfl

theorem get_stored {n : StoreName} {key : JString} {v : Val n} (h : (w.store n).value key = some v) :
    (w.store n).get key = some ⟨v,(w.store n key).length⟩ := by
  rw [Store.get,← Store.value,h]
  rfl

theorem call_putIfNotObsolete (order : List JString → List JString) (t : Job → World → World) (job : Job)
    (w : World) {n : StoreName} {key : JString} {x : Versioned (Val n)} (h : x.version = (w.store n key).length) :
    call order t job (.putIfNotObsolete n key x) w =
      (.ok true,w.logWrite job (.putIfNotObsolete n key x) (.ok true) n key x.value) := by
  simp [call,Op.choice,exec,Op.answer,Op.task,h,World.logWrite]

theorem eval_startUpdate (horder : ∀ l, (order l).Perm l) (t : Job → World → World) (job : Job) (w : World)
    (edges : Edges) (key member : JString) : ∃ w', (startUpdate edges key member).eval (call order t job) w =
      (.ok (),w') ∧ w'.store = (w.updateUser key (UserMap.addName order edges member)).store := by
  rw [startUpdate,eval_get]
  cases huser : (w.store .users).value key with
  | none =>
    rw [get_missing huser,updateUser_missing huser]
    exact ⟨_,rfl,rfl⟩
  | some user =>
    rw [get_stored huser,updateUser_registered huser]
    let set := (asSet (user.edges edges)).insert member
    let x : Versioned UserMap := ⟨user.addName order edges member,(w.store .users key).length⟩
    let w₁ := w.log job (.get .users key) (.ok (some ⟨user,(w.store .users key).length⟩))
    let w₂ := w₁.log job (.iterator set) (.ok (order set))
    change ∃ w', (iterator set >>= fun _ => _).eval _ w₁ = _ ∧ _
    rw [Prog.eval_bind,iterator,Prog.eval_op,call_iterator order t job w₁ (horder set)]
    change ∃ w', (putIfNotObsolete .users key x >>= fun _ => .ret ()).eval _ w₂ = _ ∧ _
    rw [Prog.eval_bind,putIfNotObsolete,Prog.eval_op,call_putIfNotObsolete order t job w₂ rfl]
    exact ⟨_,rfl,rfl⟩

theorem eval_stopUpdate (horder : ∀ l, (order l).Perm l) (t : Job → World → World) (job : Job) {user : UserMap}
    {key : JString} (huser : (w.store .users).value key = some user) (edges : Edges) (member : JString) :
    ∃ w', (stopUpdate edges key member).eval (call order t job) w = (.ok (),w') ∧
      w'.store = (w.updateUser key (UserMap.removeName order edges member)).store := by
  rw [stopUpdate,eval_get,get_stored huser,updateUser_registered huser]
  let set := (asSet (user.edges edges)).erase member
  let x : Versioned UserMap := ⟨user.removeName order edges member,(w.store .users key).length⟩
  let w₁ := w.log job (.get .users key) (.ok (some ⟨user,(w.store .users key).length⟩))
  let w₂ := w₁.log job (.iterator set) (.ok (order set))
  change ∃ w', (iterator set >>= fun _ => _).eval _ w₁ = _ ∧ _
  rw [Prog.eval_bind,iterator,Prog.eval_op,call_iterator order t job w₁ (horder set)]
  change ∃ w', (put .users key x).eval _ w₂ = _ ∧ _
  rw [put,Prog.eval_op,call_put order t job w₂ rfl]
  exact ⟨_,rfl,rfl⟩

theorem eval_stopUpdate_missing (t : Job → World → World) (job : Job) {key : JString}
    (huser : (w.store .users).value key = none) (edges : Edges) (member : JString) :
    ∃ w', (stopUpdate edges key member).eval (call order t job) w = (.error .nullPointer,w') ∧
      w'.store = w.store := by
  rw [stopUpdate,eval_get,get_missing huser]
  exact ⟨_,rfl,rfl⟩

def Reads : Op → Prop
  | .get _ _ => True
  | _ => False

/-- The call reads a value and a version that both worlds have. -/
def Agrees (w w' : World) : Op → Prop
  | .get n key => (w'.store n).get key = (w.store n).get key
  | _ => False

theorem read_congr {w w' : World} {p : Client α} (hp : p.All (Agrees w w')) : w'.read p = w.read p := by
  induction p with
  | ret a => rfl
  | throw e => rfl
  | call op k ih =>
    cases op with
    | get n key =>
      have hget : (w'.store n).get key = (w.store n).get key := hp.1
      have hk := ih (.ok ((w.store n).get key)) (hp.2 _)
      change w'.read (k (.ok ((w'.store n).get key))) = w.read (k (.ok ((w.store n).get key)))
      rw [hget]
      exact hk
    | _ => exact hp.1.elim

theorem Reads.agrees {w w' : World} (h : w'.store = w.store) {op : Op} (hop : Reads op) : Agrees w w' op := by
  cases op with
  | get n key => exact congrArg (fun store => (store n).get key) h
  | _ => exact hop.elim

theorem eval_reads (order : List JString → List JString) (t : Job → World → World) (job : Job) {p : Client α}
    (hp : p.All Reads) (w : World) :
    ∃ w', p.eval (call order t job) w = (w.read p,w') ∧ w'.store = w.store := by
  induction p generalizing w with
  | ret a => exact ⟨w,rfl,rfl⟩
  | throw e => exact ⟨w,rfl,rfl⟩
  | call op k ih =>
    cases op with
    | get n key =>
      let r : Except Exn (Option (Versioned (Val n))) := .ok ((w.store n).get key)
      obtain ⟨w',heval,hstore⟩ := ih r (hp.2 r) (w.log job (.get n key) r)
      have hread : (w.log job (.get n key) r).read (k r) = w.read (k r) :=
        read_congr ((hp.2 r).mono fun _ hop => hop.agrees rfl)
      rw [hread] at heval
      exact ⟨w',heval,hstore⟩
    | _ => exact hp.1.elim

theorem read_getRecentTweets {w' : World} {userId : JString} (htweets : w'.store .tweets = w.store .tweets)
    (huser : ((w'.store .users).value userId).map UserMap.lastTweet =
      ((w.store .users).value userId).map UserMap.lastTweet) :
    w'.read (getRecentTweets userId) = w.read (getRecentTweets userId) := by
  rw [getRecentTweets,getTweets,read_getValue,read_getValue]
  cases h : (w.store .users).value userId with
  | none =>
    rw [h] at huser
    rw [Option.map_eq_none_iff.mp huser]
    rfl
  | some user =>
    rw [h] at huser
    obtain ⟨user',h',hlast⟩ := Option.map_eq_some_iff.mp huser
    rw [h']
    change w'.read (orThrow .numberFormat (parseInt user'.lastTweet) >>= _) =
      w.read (orThrow .numberFormat (parseInt user.lastTweet) >>= _)
    rw [hlast]
    refine read_congr ((all_orThrow _ _).bind fun lastTweet => all_getTweetsLoop (fun key => ?_) _ _ _ _ _ _)
    exact congrArg (fun tweets : Store JString TweetMap => tweets.get key) htweets

theorem eval_startTimeline_read {userId toStartUser : JString} {recentTweets : List Tweet}
    (t : Job → World → World) (job : Job) (hread : w.read (getRecentTweets toStartUser) = .ok recentTweets) :
    ∃ w', w'.store = w.store ∧ (startTimeline userId toStartUser).eval (call order t job) w =
      (liftExcept (startBackfill recentTweets (w.timeline userId) 0) >>= fun list =>
        putIfNotObsolete .friendsTimeline userId ⟨list,(w.getTimeline userId).version⟩ >>= fun _ => .ret ()).eval
          (call order t job) w' := by
  let w₁ := w.log job (.get .friendsTimeline userId) (.ok ((w.store .friendsTimeline).get userId))
  have hreads : (getRecentTweets toStartUser).All Reads := all_getRecentTweets (fun _ _ => trivial) toStartUser
  obtain ⟨w₂,heval,hstore⟩ := eval_reads order t job hreads w₁
  have hsame : w₁.read (getRecentTweets toStartUser) = w.read (getRecentTweets toStartUser) :=
    read_congr (hreads.mono fun _ hop => hop.agrees rfl)
  rw [hsame,hread] at heval
  refine ⟨w₂,hstore,?_⟩
  rw [startTimeline,eval_get]
  change (Prog.andThen (getRecentTweets toStartUser) _).eval _ w₁ = _
  rw [Prog.eval_andThen,heval,← getTimeline_value]
  rfl

theorem eval_startTimeline {userId toStartUser : JString} {recentTweets : List Tweet} {list : List JString}
    (t : Job → World → World) (job : Job) (hread : w.read (getRecentTweets toStartUser) = .ok recentTweets)
    (hlist : startBackfill recentTweets (w.timeline userId) 0 = .ok list) :
    ∃ w', (startTimeline userId toStartUser).eval (call order t job) w = (.ok (),w') ∧
      w'.store = (w.apply ⟨.friendsTimeline,userId,list⟩).store := by
  obtain ⟨w₂,hstore,heval⟩ := @eval_startTimeline_read order w userId toStartUser _ t job hread
  let x : Versioned (Val .friendsTimeline) := ⟨list,(w.getTimeline userId).version⟩
  have hversion : x.version = (w₂.store .friendsTimeline userId).length := by
    rw [hstore]
    exact getTimeline_version w userId
  rw [heval,hlist]
  change ∃ w', (putIfNotObsolete .friendsTimeline userId x >>= fun _ => .ret ()).eval _ w₂ = _ ∧ _
  rw [Prog.eval_bind,putIfNotObsolete,Prog.eval_op,call_putIfNotObsolete order t job w₂ hversion]
  refine ⟨_,rfl,?_⟩
  simp only [World.logWrite,World.write,hstore]
  rfl

theorem eval_startTimeline_unreadable {userId toStartUser : JString} {recentTweets : List Tweet} {e : Exn}
    (t : Job → World → World) (job : Job) (hread : w.read (getRecentTweets toStartUser) = .ok recentTweets)
    (hlist : startBackfill recentTweets (w.timeline userId) 0 = .error e) :
    ∃ w', (startTimeline userId toStartUser).eval (call order t job) w = (.error e,w') ∧ w'.store = w.store := by
  obtain ⟨w₂,hstore,heval⟩ := @eval_startTimeline_read order w userId toStartUser _ t job hread
  rw [heval,hlist]
  exact ⟨w₂,rfl,hstore⟩

theorem eval_startTimeline_missing {userId toStartUser : JString} (t : Job → World → World) (job : Job)
    (hmissing : (w.store .users).value toStartUser = none) :
    ∃ w', (startTimeline userId toStartUser).eval (call order t job) w = (.ok (),w') ∧ w'.store = w.store := by
  let w₁ := w.log job (.get .friendsTimeline userId) (.ok ((w.store .friendsTimeline).get userId))
  obtain ⟨w₂,heval,hstore⟩ := eval_reads order t job (all_getRecentTweets (fun _ _ => trivial) toStartUser) w₁
  have hread : w₁.read (getRecentTweets toStartUser) = .error .userNotFound := by
    rw [getRecentTweets,getTweets,read_getValue]
    rw [show (w₁.store .users).value toStartUser = none from hmissing]
    rfl
  rw [hread] at heval
  rw [startTimeline,eval_get]
  change ∃ w', (Prog.andThen (getRecentTweets toStartUser) _).eval _ w₁ = _ ∧ _
  rw [Prog.eval_andThen,heval]
  exact ⟨w₂,rfl,hstore⟩

theorem eval_stopTimeline {userId toStopUser : JString} {list : List JString} (t : Job → World → World) (job : Job)
    (hlist : stopFilter toStopUser (w.timeline userId) = .ok list) :
    ∃ w', (stopTimeline userId toStopUser).eval (call order t job) w = (.ok (),w') ∧
      w'.store .users = w.store .users ∧ w'.timeline userId = list := by
  rw [stopTimeline,eval_get]
  cases htimeline : (w.store .friendsTimeline).value userId with
  | none =>
    rw [get_missing htimeline]
    refine ⟨_,rfl,rfl,?_⟩
    rw [World.timeline,htimeline] at hlist
    cases hlist
    rw [World.timeline]
    change ((w.store .friendsTimeline).value userId).getD [] = []
    rw [htimeline]
    rfl
  | some timeline =>
    rw [World.timeline,htimeline] at hlist
    rw [get_stored htimeline]
    let w₁ := w.log job (.get .friendsTimeline userId)
      (.ok (some ⟨timeline,(w.store .friendsTimeline userId).length⟩))
    let x : Versioned (Val .friendsTimeline) := ⟨list,(w.store .friendsTimeline userId).length⟩
    change ∃ w', Prog.eval _ (liftExcept (stopFilter toStopUser timeline) >>= _) w₁ = _ ∧ _
    rw [show stopFilter toStopUser timeline = .ok list from hlist]
    change ∃ w', (put .friendsTimeline userId x).eval _ w₁ = _ ∧ _
    rw [put,Prog.eval_op,call_put order t job w₁ rfl]
    refine ⟨_,rfl,?_,timeline_write_self _ _ _ _ _ _⟩
    simp [World.logWrite,w₁,World.log]

end Evaluation

section Commands

variable {order : List JString → List JString} {w w' : World} {c : Command} {u v : JString}

theorem runAlone_execute_ok (h : c.body.eval (call order (runTask order) (.execute c)) w = (.ok (),w')) :
    runAlone order (.execute c) c.execute w = (.ok (),w') := by
  rw [runAlone,Command.execute,Prog.eval_bind,applyUpdate,Prog.eval_retry_ok h 2]
  rfl

theorem runAlone_execute_error {e : Exn} (h : c.body.eval (call order (runTask order) (.execute c)) w = (.error e,w'))
    (he : e ≠ .obsoleteVersion) : runAlone order (.execute c) c.execute w = (.error e,w') := by
  rw [runAlone,Command.execute,Prog.eval_bind,applyUpdate,Prog.eval_retry_error h (by simpa using he) 2]
  rfl

def World.startUpdates (order : List JString → List JString) (u v : JString) (w : World) : World :=
  (w.updateUser u (UserMap.addName order .following v)).updateUser v (UserMap.addName order .followers u)

theorem eval_startFollowingCommand (horder : ∀ l, (order l).Perm l) (t : Job → World → World) (job : Job) (w : World)
    (u v : JString) : ∃ w', w'.store = (w.startUpdates order u v).store ∧
      (startFollowingCommand u v).eval (call order t job) w = (startTimeline u v).eval (call order t job) w' := by
  obtain ⟨w₁,heval,hstore⟩ := eval_startUpdate horder t job w .following u v
  obtain ⟨w₂,heval',hstore'⟩ := eval_startUpdate horder t job w₁ .followers v u
  refine ⟨w₂,hstore'.trans (updateUser_congr hstore _ _),?_⟩
  rw [startFollowingCommand,Prog.eval_bind,heval]
  change (startUpdate .followers v u >>= fun _ => startTimeline u v).eval _ w₁ = _
  rw [Prog.eval_bind,heval']
  rfl

theorem startUpdates_store {n : StoreName} (hn : n ≠ .users) : (w.startUpdates order u v).store n = w.store n := by
  rw [World.startUpdates,updateUser_store _ _ hn,updateUser_store _ _ hn]

theorem lastTweet_startUpdates (user : JString) :
    (((w.startUpdates order u v).store .users).value user).map UserMap.lastTweet =
      ((w.store .users).value user).map UserMap.lastTweet := by
  have hlast (edges : Edges) (name : JString) : UserMap.lastTweet ∘ UserMap.addName order edges name = UserMap.lastTweet := by
    funext user
    cases edges <;> rfl
  have hupdate (w : World) (edges : Edges) (key name : JString) :
      (((w.updateUser key (UserMap.addName order edges name)).store .users).value user).map UserMap.lastTweet =
        ((w.store .users).value user).map UserMap.lastTweet := by
    rw [updateUser_value]
    split
    · rename_i huser
      rw [Option.map_map,hlast,huser]
    · rfl
  rw [World.startUpdates,hupdate,hupdate]

theorem timeline_startFollowing (horder : ∀ l, (order l).Perm l) {recentTweets : List Tweet}
    (hread : w.read (getRecentTweets v) = .ok recentTweets) :
    (execution order w (.startFollowing u v)).timeline u =
      (startBackfill recentTweets (w.timeline u) 0).toOption.getD (w.timeline u) := by
  obtain ⟨w₁,hstore,heval⟩ := eval_startFollowingCommand horder (runTask order) (.execute (.startFollowing u v))
    ⟨w.store,[]⟩ u v
  have hstart : (World.startUpdates order u v ⟨w.store,[]⟩).store = (w.startUpdates order u v).store := by
    rw [World.startUpdates,World.startUpdates]
    exact updateUser_congr (@updateUser_congr w ⟨w.store,[]⟩ rfl _ _) _ _
  rw [hstart] at hstore
  have htimeline : w₁.timeline u = w.timeline u := by
    rw [World.timeline,hstore,startUpdates_store (by simp)]
    rfl
  have hread₁ : w₁.read (getRecentTweets v) = .ok recentTweets := by
    rw [← hread]
    refine read_getRecentTweets ?_ ?_
    · rw [hstore,startUpdates_store (by simp)]
    · rw [hstore,lastTweet_startUpdates]
  cases hlist : startBackfill recentTweets (w.timeline u) 0 with
  | ok list =>
    rw [← htimeline] at hlist
    obtain ⟨w₂,heval₂,hstore₂⟩ := eval_startTimeline (runTask order) (.execute (.startFollowing u v)) hread₁ hlist
    rw [execution,runAlone_execute_ok (heval.trans heval₂),World.timeline,hstore₂]
    exact congrFun (timeline_apply w₁ u list) u |>.trans (Function.update_self ..)
  | error e =>
    rw [← htimeline] at hlist
    obtain ⟨w₂,heval₂,hstore₂⟩ :=
      eval_startTimeline_unreadable (runTask order) (.execute (.startFollowing u v)) hread₁ hlist
    rw [execution,runAlone_execute_error (heval.trans heval₂) (startBackfill_error hlist).ne_obsolete,World.timeline,hstore₂]
    exact htimeline

theorem eval_stopFollowers (horder : ∀ l, (order l).Perm l) (t : Job → World → World) (job : Job) {user : UserMap}
    (hv : (w.store .users).value v = some user) (u : JString) :
    ∃ w', w'.store = (w.updateUser v (UserMap.removeName order .followers u)).store ∧
      (stopFollowingCommand u v).eval (call order t job) w =
        (stopUpdate .following u v >>= fun _ => stopTimeline u v).eval (call order t job) w' := by
  obtain ⟨w₁,heval,hstore⟩ := eval_stopUpdate horder t job hv .followers u
  refine ⟨w₁,hstore,?_⟩
  rw [stopFollowingCommand,Prog.eval_bind,heval]
  rfl

theorem timeline_stopFollowing (horder : ∀ l, (order l).Perm l) {list : List JString}
    (hu : ((w.store .users).value u).isSome) (hv : ((w.store .users).value v).isSome)
    (hlist : stopFilter v (w.timeline u) = .ok list) :
    (execution order w (.stopFollowing u v)).timeline u = list := by
  obtain ⟨toStopUser,htoStop⟩ := Option.isSome_iff_exists.mp hv
  let job := Job.execute (.stopFollowing u v)
  let start : World := ⟨w.store,[]⟩
  obtain ⟨w₁,hstore₁,heval₁⟩ := @eval_stopFollowers order start v horder (runTask order) job toStopUser htoStop u
  obtain ⟨user,huser⟩ : ∃ user, (w₁.store .users).value u = some user := by
    refine Option.isSome_iff_exists.mp ?_
    rw [hstore₁,updateUser_value]
    split
    · rwa [Option.isSome_map]
    · exact hu
  obtain ⟨w₂,heval₂,hstore₂⟩ := eval_stopUpdate horder (runTask order) job huser .following v
  have htimeline : w₂.timeline u = w.timeline u := by
    rw [World.timeline,hstore₂,updateUser_store _ _ (by simp),hstore₁,updateUser_store _ _ (by simp)]
    rfl
  rw [← htimeline] at hlist
  obtain ⟨w₃,heval₃,_,htimeline₃⟩ := @eval_stopTimeline order w₂ u v list (runTask order) job hlist
  have hbody : (Command.stopFollowing u v).body.eval (call order (runTask order) job) start = (.ok (),w₃) := by
    rw [Command.body,heval₁,Prog.eval_bind,heval₂]
    exact heval₃
  rw [execution,runAlone_execute_ok hbody,htimeline₃]

end Commands

section Missing

variable {order : List JString → List JString} {w : World} {u v : JString}

theorem grows_updateUser (w : World) (key : JString) (f : UserMap → UserMap) : w.Grows (w.updateUser key f) := by
  cases huser : (w.store .users).value key with
  | none =>
    rw [updateUser_missing huser]
    exact World.Grows.refl w
  | some user =>
    rw [updateUser_registered huser]
    exact ⟨fun n => w.grows_write .users n key (f user),List.suffix_rfl⟩

theorem eval_grows {α : Type} {t : Job → World → World} (ht : ∀ task w, World.Grows w (t task w)) (job : Job)
    (p : Client α) (w : World) : w.Grows (p.eval (call order t job) w).2 := by
  have hcall (op : Op) (w : World) : w.Grows (call order t job op w).2 := by
    unfold call
    split
    · rename_i r w' new hexec
      have hgrows := exec_grows hexec
      cases new with
      | none => exact hgrows
      | some task => exact hgrows.trans (ht task w')
    · exact World.Grows.refl w
  induction p generalizing w with
  | ret a => exact World.Grows.refl w
  | throw e => exact World.Grows.refl w
  | call op k ih => exact (hcall op w).trans (ih _ _)

theorem runTask_grows (order : List JString → List JString) (task : Job) (w : World) :
    w.Grows (runTask order task w) :=
  eval_grows (fun _ w => World.Grows.refl w) task task.body w

/-- What the first attempt has stored is not taken back by another one. -/
theorem grows_runAlone (order : List JString → List JString) (c : Command) (w : World) :
    (c.body.eval (call order (runTask order) (.execute c)) w).2.Grows (runAlone order (.execute c) c.execute w).2 := by
  rw [runAlone,Command.execute,Prog.eval_bind,applyUpdate,Prog.retry,Prog.eval_andThen]
  exact (eval_grows (runTask_grows order) _ _ _).trans (eval_grows (runTask_grows order) _ _ _)

/-- The command comes to its end without an exception, and the users are as before. -/
def ChangesNothing (order : List JString → List JString) (w : World) (c : Command) : Prop :=
  (runAlone order (.execute c) c.execute w).1 = .ok () ∧
    (runAlone order (.execute c) c.execute w).2.store .users = w.store .users

theorem startFollowing_unregistered (horder : ∀ l, (order l).Perm l) (hu : (w.store .users).value u = none)
    (hv : (w.store .users).value v = none) : ChangesNothing order w (.startFollowing u v) := by
  obtain ⟨w₁,hstore,heval⟩ := eval_startFollowingCommand horder (runTask order) (.execute (.startFollowing u v)) w u v
  rw [World.startUpdates,updateUser_missing hu,updateUser_missing hv] at hstore
  obtain ⟨w₂,heval₂,hstore₂⟩ := @eval_startTimeline_missing order w₁ u v (runTask order)
    (.execute (.startFollowing u v)) (by rw [hstore,hv])
  rw [ChangesNothing,runAlone_execute_ok (heval.trans heval₂)]
  exact ⟨rfl,by rw [hstore₂,hstore]⟩

theorem startUpdates_grows {key : JString} {user : UserMap} (hkey : key = u ∨ key = v)
    (huser : (w.store .users).value key = some user) :
    (w.store .users key).length < ((w.startUpdates order u v).store .users key).length := by
  obtain ⟨w',hw'⟩ : ∃ w', w' = w.updateUser u (UserMap.addName order .following v) := ⟨_,rfl⟩
  have hgrows : w.Grows w' := hw' ▸ grows_updateUser _ _ _
  have hgrows' : w'.Grows (w'.updateUser v (UserMap.addName order .followers u)) := grows_updateUser _ _ _
  have hle := (hgrows.store .users key).length_le
  have hle' := (hgrows'.store .users key).length_le
  rw [World.startUpdates,← hw']
  rcases hkey with hkey | hkey
  · have hlength := updateUser_grows huser (UserMap.addName order .following v)
    rw [hkey,← hw',← hkey] at hlength
    omega
  · obtain ⟨user',huser'⟩ : ∃ user', (w'.store .users).value key = some user' := by
      refine Option.isSome_iff_exists.mp ?_
      rw [hw',updateUser_value]
      split
      · rename_i heq
        rw [Option.isSome_map,← heq,huser]
        rfl
      · rw [huser]
        rfl
    have hlength := updateUser_grows huser' (UserMap.addName order .followers u)
    rw [hkey] at hlength hle ⊢
    omega

theorem startFollowing_changes (horder : ∀ l, (order l).Perm l) {key : JString} {user : UserMap}
    (hkey : key = u ∨ key = v) (huser : (w.store .users).value key = some user) :
    (runAlone order (.execute (.startFollowing u v)) (Command.startFollowing u v).execute w).2.store .users ≠
      w.store .users := by
  obtain ⟨w₁,hstore,heval⟩ := eval_startFollowingCommand horder (runTask order) (.execute (.startFollowing u v)) w u v
  have hlater : w₁.Grows (runAlone order (.execute (.startFollowing u v)) (Command.startFollowing u v).execute w).2 := by
    refine World.Grows.trans ?_ (grows_runAlone order (.startFollowing u v) w)
    rw [Command.body,heval]
    exact eval_grows (runTask_grows order) _ _ _
  have hfirst := @startUpdates_grows order w u v key user hkey huser
  have hle := (hlater.store .users key).length_le
  rw [hstore] at hle
  intro h
  rw [h] at hle
  omega

theorem stopFollowing_missing (horder : ∀ l, (order l).Perm l)
    (hmissing : (w.store .users).value u = none ∨ (w.store .users).value v = none) :
    ∃ w', runAlone order (.execute (.stopFollowing u v)) (Command.stopFollowing u v).execute w =
        (.error .nullPointer,w') ∧
      w'.store = (w.updateUser v (UserMap.removeName order .followers u)).store := by
  let job := Job.execute (.stopFollowing u v)
  cases hv : (w.store .users).value v with
  | none =>
    obtain ⟨w₁,heval,hstore⟩ := @eval_stopUpdate_missing order w (runTask order) job v hv .followers u
    have hbody : (Command.stopFollowing u v).body.eval (call order (runTask order) job) w =
        (.error .nullPointer,w₁) := by
      rw [Command.body,stopFollowingCommand,Prog.eval_bind,heval]
      rfl
    exact ⟨w₁,runAlone_execute_error hbody (by simp),by rw [hstore,updateUser_missing hv]⟩
  | some user =>
    have hu : (w.store .users).value u = none := hmissing.resolve_right (by simp [hv])
    obtain ⟨w₁,hstore₁,heval₁⟩ := @eval_stopFollowers order w v horder (runTask order) job user hv u
    have hu₁ : (w₁.store .users).value u = none := by
      rw [hstore₁,updateUser_value,if_neg,hu]
      rintro rfl
      simp [hu] at hv
    obtain ⟨w₂,heval₂,hstore₂⟩ := @eval_stopUpdate_missing order w₁ (runTask order) job u hu₁ .following v
    have hbody : (Command.stopFollowing u v).body.eval (call order (runTask order) job) w =
        (.error .nullPointer,w₂) := by
      rw [Command.body,heval₁,Prog.eval_bind,heval₂]
      rfl
    exact ⟨w₂,runAlone_execute_error hbody (by simp),hstore₂.trans hstore₁⟩

theorem startFollowing_nothing_iff (horder : ∀ l, (order l).Perm l) :
    ChangesNothing order w (.startFollowing u v) ↔
      (w.store .users).value u = none ∧ (w.store .users).value v = none := by
  refine ⟨fun h => ?_,fun h => startFollowing_unregistered horder h.1 h.2⟩
  have hnone {key : JString} (hkey : key = u ∨ key = v) : (w.store .users).value key = none := by
    cases huser : (w.store .users).value key with
    | none => rfl
    | some user => exact absurd h.2 (startFollowing_changes horder hkey huser)
  exact ⟨hnone (Or.inl rfl),hnone (Or.inr rfl)⟩

theorem stopFollowing_missing_iff (horder : ∀ l, (order l).Perm l)
    (hmissing : (w.store .users).value u = none ∨ (w.store .users).value v = none) :
    (runAlone order (.execute (.stopFollowing u v)) (Command.stopFollowing u v).execute w).2.store .users =
      w.store .users ↔ (w.store .users).value v = none := by
  obtain ⟨w',hrun,hstore⟩ := stopFollowing_missing horder hmissing
  rw [hrun]
  dsimp only
  rw [hstore]
  cases hv : (w.store .users).value v with
  | none => simp [updateUser_missing hv]
  | some user =>
    refine ⟨fun h => ?_,fun h => by cases h⟩
    have hlength := updateUser_grows hv (UserMap.removeName order .followers u)
    rw [h] at hlength
    omega

/-- A user who is not registered is followed, and stays so. -/
theorem follows_missing (horder : ∀ l, (order l).Perm l) {user : UserMap} (hu : (w.store .users).value u = some user)
    (hv : (w.store .users).value v = none) (hproper : Proper v) :
    ∃ w' names, runAlone order (.execute (.startFollowing u v)) (Command.startFollowing u v).execute w = (.ok (),w') ∧
      w'.read (getFollowing u) = .ok names ∧ v ∈ names ∧ (w'.store .users).value v = none := by
  have hne : v ≠ u := by
    rintro rfl
    simp [hu] at hv
  have hv₁ : ((w.updateUser u (UserMap.addName order .following v)).store .users).value v = none := by
    rw [updateUser_value,if_neg hne,hv]
  obtain ⟨w₁,hstore,heval⟩ := eval_startFollowingCommand horder (runTask order) (.execute (.startFollowing u v)) w u v
  rw [World.startUpdates,updateUser_missing hv₁] at hstore
  obtain ⟨w₂,heval₂,hstore₂⟩ := @eval_startTimeline_missing order w₁ u v (runTask order)
    (.execute (.startFollowing u v)) (by rw [hstore,hv₁])
  have hu₂ : (w₂.store .users).value u = some (user.addName order .following v) := by
    rw [hstore₂,hstore,updateUser_value,if_pos rfl,hu]
    rfl
  have hset : ∀ s ∈ order ((asSet user.following).insert v), ',' ∉ s := by
    intro s hs
    rcases List.mem_insert_iff.mp ((horder _).mem_iff.mp hs) with rfl | hs
    · exact hproper.2
    · exact not_mem_of_mem_asSet hs
  refine ⟨w₂,asSet (user.addName order .following v).following,runAlone_execute_ok (heval.trans heval₂),?_,?_,?_⟩
  · rw [getFollowing,getEdges,read_getValue,hu₂]
    rfl
  · exact (mem_asSet_toString hproper.1 hset).mpr ((horder _).mem_iff.mpr List.mem_insert_self)
  · rw [hstore₂,hstore,hv₁]

/-- Of the commands that name a missing user only a `StartFollowingCommand` between two of them
changes nothing and ends well. -/
theorem missing_user_iff (order : List JString → List JString) (horder : ∀ l, (order l).Perm l) (w : World)
    (u v : JString) (hmissing : (w.store .users).value u = none ∨ (w.store .users).value v = none) :
    ¬ (ChangesNothing order w (.startFollowing u v) ∧ ChangesNothing order w (.stopFollowing u v)) ∧
    (ChangesNothing order w (.startFollowing u v) ↔
      (w.store .users).value u = none ∧ (w.store .users).value v = none) ∧
    (runAlone order (.execute (.stopFollowing u v)) (Command.stopFollowing u v).execute w).1 = .error .nullPointer ∧
    ((runAlone order (.execute (.stopFollowing u v)) (Command.stopFollowing u v).execute w).2.store .users =
      w.store .users ↔ (w.store .users).value v = none) ∧
    (∀ user, (w.store .users).value u = some user → Proper v → ∃ w' names,
      runAlone order (.execute (.startFollowing u v)) (Command.startFollowing u v).execute w = (.ok (),w') ∧
      w'.read (getFollowing u) = .ok names ∧ v ∈ names ∧
      (runAlone order (.execute (.stopFollowing u v)) (Command.stopFollowing u v).execute w').1 =
        .error .nullPointer) := by
  obtain ⟨w',hrun,_⟩ := stopFollowing_missing horder hmissing
  refine ⟨?_,startFollowing_nothing_iff horder,by rw [hrun],stopFollowing_missing_iff horder hmissing,?_⟩
  · rintro ⟨_,hstop⟩
    rw [ChangesNothing,hrun] at hstop
    exact absurd hstop.1 (by simp)
  · intro user hu hproper
    have hv : (w.store .users).value v = none := hmissing.resolve_left (by simp [hu])
    obtain ⟨w₁,names,hstart,hread,hmem,hv₁⟩ := follows_missing horder hu hv hproper
    obtain ⟨w₂,hrun₂,_⟩ := @stopFollowing_missing order w₁ u v horder (Or.inr hv₁)
    exact ⟨w₁,names,hstart,hread,hmem,by rw [hrun₂]⟩

def onlyUserA : World where
  store
    | .users => Function.update (fun _ => []) ['a'] [{ lastTweet := some ['0'] }]
    | .tweets => fun _ => []
    | .friendsTimeline => fun _ => []
  history := []

theorem missing_user_iff_onlyUserA :
    ¬ (ChangesNothing id onlyUserA (.startFollowing ['a'] ['b']) ∧
      ChangesNothing id onlyUserA (.stopFollowing ['a'] ['b'])) ∧
    (onlyUserA.store .users).value ['b'] = none :=
  ⟨(missing_user_iff id (fun _ => List.Perm.refl _) onlyUserA ['a'] ['b'] (Or.inr rfl)).1,rfl⟩

/-- The registered user follows the missing one, and cannot unfollow it. -/
theorem missing_user_followed : (onlyUserA.store .users).value ['b'] = none ∧
    ¬ ChangesNothing id onlyUserA (.startFollowing ['a'] ['b']) ∧
    ¬ ChangesNothing id onlyUserA (.stopFollowing ['a'] ['b']) := by
  refine ⟨rfl,fun h => ?_,fun h => ?_⟩
  · exact absurd (congrFun h.2 ['a']) (by decide)
  · exact absurd h.1 (by decide)

end Missing

end TweetService
end Bigbird
