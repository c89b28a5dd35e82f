import Bigbird.TweetService

/-! What one call of a service program does, and the rules by which assertions about the
programs are taken through their calls. -/
namespace Bigbird
namespace TweetService

open JavaText VersionedStore Programs

/-- Stores and history only grow. -/
structure World.Grows (w w' : World) : Prop where
  store : ∀ n, (w.store n).Grows (w'.store n)
  history : w.history <:+ w'.history

theorem World.Grows.refl (w : World) : w.Grows w := ⟨fun _ => Store.Grows.refl _,List.suffix_rfl⟩

theorem World.Grows.trans {w w' w'' : World} (h : w.Grows w') (h' : w'.Grows w'') : w.Grows w'' :=
  ⟨fun n => (h.store n).trans (h'.store n),h.history.trans h'.history⟩

@[simp] theorem World.write_self (w : World) (n : StoreName) (key : JString) (v : Val n) :
    w.write n key v n = (w.store n).write key v := by
  simp [World.write]

@[simp] theorem World.write_of_ne (w : World) {n n' : StoreName} (key : JString) (v : Val n)
    (h : n' ≠ n) : w.write n key v n' = w.store n' := by
  simp [World.write,h]

theorem World.grows_write (w : World) (n n' : StoreName) (key : JString) (v : Val n) :
    (w.store n').Grows (w.write n key v n') := by
  by_cases h : n' = n
  · subst h
    rw [World.write_self]
    exact Store.grows_write _ _ _
  · rw [World.write_of_ne w key v h]
    exact Store.Grows.refl _

def World.log (w : World) (job : Job) (op : Op) (r : Except Exn op.Res) : World :=
  ⟨w.store,(job,⟨op,r⟩)::w.history⟩

def World.logWrite (w : World) (job : Job) (op : Op) (r : Except Exn op.Res) (n : StoreName)
    (key : JString) (v : Val n) : World :=
  ⟨w.write n key v,(job,⟨op,r⟩)::w.history⟩

theorem World.grows_log (w : World) (job : Job) (op : Op) (r : Except Exn op.Res) :
    w.Grows (w.log job op r) := ⟨fun _ => Store.Grows.refl _,List.suffix_cons _ _⟩

theorem World.Grows.of_log {w w' : World} {job : Job} {op : Op} {r : Except Exn op.Res}
    (h : (w.log job op r).Grows w') : w.Grows w' := (w.grows_log job op r).trans h

theorem World.grows_logWrite (w : World) (job : Job) (op : Op) (r : Except Exn op.Res)
    (n : StoreName) (key : JString) (v : Val n) : w.Grows (w.logWrite job op r n key v) :=
  ⟨fun n' => w.grows_write n n' key v,List.suffix_cons _ _⟩

def Op.written : (op : Op) → Except Exn op.Res → Option ((n : StoreName) × JString × Versioned (Val n))
  | .put n key x, .ok _ => some ⟨n,key,x⟩
  | .putIfNotObsolete n key x, .ok true => some ⟨n,key,x⟩
  | _, _ => none

/-- A call is logged, and it stores a value exactly if its version was the current one. -/
theorem exec_cases {job : Job} {op : Op} {choice : Choice} {w w' : World}
    {r : Except Exn op.Res} {new : Option Job} (h : exec job op choice w = some (r,w',new)) :
    new = op.task r ∧ (op.written r = none ∧ w' = w.log job op r ∨
      ∃ n key x, op.written r = some ⟨n,key,x⟩ ∧ x.version = (w.store n key).length ∧
        w' = w.logWrite job op r n key x.value) := by
  obtain ⟨⟨r',store⟩,ha,hb⟩ := Option.map_eq_some_iff.mp h
  simp only [Prod.mk.injEq] at hb
  obtain ⟨rfl,rfl,rfl⟩ := hb
  refine ⟨rfl,?_⟩
  cases op with
  | put n key x =>
    cases choice <;> simp only [Op.answer,Option.some.injEq,reduceCtorEq] at ha
    · split at ha <;> cases ha
      · rename_i hv
        exact Or.inr ⟨n,key,x,rfl,hv,rfl⟩
      · exact Or.inl ⟨rfl,rfl⟩
    · cases ha
      exact Or.inl ⟨rfl,rfl⟩
  | putIfNotObsolete n key x =>
    cases choice <;> simp only [Op.answer,Option.some.injEq,reduceCtorEq] at ha
    · split at ha <;> cases ha
      · rename_i hv
        exact Or.inr ⟨n,key,x,rfl,hv,rfl⟩
      · exact Or.inl ⟨rfl,rfl⟩
    · cases ha
      exact Or.inl ⟨rfl,rfl⟩
  | iterator | now =>
    cases choice <;> simp only [Op.answer,reduceCtorEq,Option.ite_none_right_eq_some] at ha
    cases ha.2
    exact Or.inl ⟨rfl,rfl⟩
  | _ =>
    cases choice <;> simp only [Op.answer,Option.some.injEq,reduceCtorEq] at ha <;> cases ha <;>
      exact Or.inl ⟨rfl,rfl⟩

theorem exec_history {job : Job} {op : Op} {choice : Choice} {w w' : World} {r : Except Exn op.Res}
    {new : Option Job} (h : exec job op choice w = some (r,w',new)) :
    w'.history = (job,⟨op,r⟩)::w.history := by
  rcases (exec_cases h).2 with ⟨_,rfl⟩ | ⟨_,_,_,_,_,rfl⟩ <;> rfl

theorem exec_iterator (job : Job) (w : World) {set l : List JString} (h : l.Perm set) :
    exec job (.iterator set) (.order l) w = some (.ok l,w.log job (.iterator set) (.ok l),none) := by
  simp [exec,Op.answer,Op.task,h,World.log]

theorem exec_put (job : Job) {w : World} {n : StoreName} {key : JString} {x : Versioned (Val n)}
    (h : x.version = (w.store n key).length) :
    exec job (.put n key x) .go w = some (.ok (),w.logWrite job (.put n key x) (.ok ()) n key x.value,none) := by
  simp [exec,Op.answer,Op.task,h,World.logWrite]

theorem exec_put_obsolete (job : Job) {w : World} {n : StoreName} {key : JString} {x : Versioned (Val n)}
    (h : x.version ≠ (w.store n key).length) :
    exec job (.put n key x) .go w =
      some (.error .obsoleteVersion,w.log job (.put n key x) (.error .obsoleteVersion),none) := by
  simp [exec,Op.answer,Op.task,h,World.log]

theorem exec_grows {job : Job} {op : Op} {choice : Choice} {w w' : World}
    {r : Except Exn op.Res} {new : Option Job} (h : exec job op choice w = some (r,w',new)) :
    w.Grows w' := by
  rcases (exec_cases h).2 with ⟨_,rfl⟩ | ⟨n,key,x,_,_,rfl⟩
  · exact w.grows_log job op r
  · exact w.grows_logWrite job op r n key x.value

theorem step_grows {e : Event} {s s' : State} (h : machine.step e s = some s') :
    s.world.Grows s'.world := by
  cases e with
  | start j =>
    obtain rfl := Option.some.inj h
    exact World.Grows.refl _
  | thread i choice =>
    obtain ⟨job,op,k,r,w,new,_,hexec,rfl⟩ := Machine.thread_step h
    exact exec_grows hexec

/-- A version that is still current belongs to the value that was read. -/
theorem value_of_get {w w' : World} {n : StoreName} {key : JString} {x : Versioned (Val n)}
    (hget : (w.store n).get key = some x) (h : w.Grows w')
    (hversion : x.version = (w'.store n key).length) : (w'.store n).value key = some x.value := by
  obtain ⟨vs,hvs,hx⟩ := Store.get_eq_some.mp hget
  have hlength : (w.store n key).length = (w'.store n key).length := by
    rw [← hversion,hx,hvs]
    rfl
  exact Store.value_eq_some.mpr ⟨vs,((h.store n).eq_of_length hlength).trans hvs⟩

/-- What a program that only reads ends with when nothing else happens. -/
def World.read {α : Type} (w : World) (p : Client α) : Except Exn α :=
  (p.eval (fun op w => match op.answer w .go with
    | some (r,_) => (r,w)
    | none => (.error .store,w)) w).1

def World.answer (op : Op) (w : World) : Except Exn op.Res × World :=
  match op.answer w .go with
  | some (r,_) => (r,w)
  | none => (.error .store,w)

def Op.tweetKey : Op → Option JString
  | .get .tweets key => some key
  | _ => none

def World.lookups {α : Type} (w : World) (p : Client α) : List JString :=
  (p.calls World.answer w).filterMap Op.tweetKey

/-- Every thread has come to the end of its program. -/
def Ended (s : State) : Prop := ∀ t ∈ s.threads, t.2.outcome.isSome

instance (s : State) : Decidable (Ended s) := by
  unfold Ended
  infer_instance

/-- The stores respond and the executor takes every task. -/
def Responds (_ : Job) (_ : Op) (choice : Choice) (_ : World) : Prop := choice ≠ .fails

instance (j : Job) (op : Op) (choice : Choice) (w : World) : Decidable (Responds j op choice w) := by
  unfold Responds
  infer_instance

section Rules

variable {L : Logic machine} {j : Job} {α : Type} {Q : Except Exn α → World → Prop} {w : World}

/-- Calls that store nothing and submit no task are always within the guarantee. -/
def Logs (L : Logic machine) (j : Job) : Prop :=
  ∀ op r w, L.inv w → op.written r = none → L.Call j w (w.log j op r) none

theorem wp_get {n : StoreName} {key : JString} {f : Option (Versioned (Val n)) → Client α}
    (hlog : Logs L j)
    (hok : ∀ w', L.inv w' → L.rely j w w' → L.cond j (.get n key) .go w' →
      L.wp j (f ((w'.store n).get key)) Q (w'.log j (.get n key) (.ok ((w'.store n).get key))))
    (hfails : ∀ w', L.inv w' → L.rely j w w' → L.cond j (.get n key) .fails w' →
      L.wp j (.throw .store) Q (w'.log j (.get n key) (.error .store))) :
    L.wp j (get n key >>= f) Q w := by
  refine L.wp_op fun w' hi hr choice r w'' new hc h => ?_
  cases choice with
  | go =>
    cases h
    exact ⟨hlog _ _ w' hi rfl,hok w' hi hr hc⟩
  | fails =>
    cases h
    exact ⟨hlog _ _ w' hi rfl,hfails w' hi hr hc⟩
  | _ => simp [machine,exec,Op.answer] at h

theorem wp_getValue {n : StoreName} {key : JString} {f : Option (Val n) → Client α} (hlog : Logs L j)
    (hok : ∀ w', L.inv w' → L.rely j w w' → L.cond j (.get n key) .go w' →
      L.wp j (f ((w'.store n).value key)) Q (w'.log j (.get n key) (.ok ((w'.store n).get key))))
    (hfails : ∀ w', L.inv w' → L.rely j w w' → L.cond j (.get n key) .fails w' →
      L.wp j (.throw .store) Q (w'.log j (.get n key) (.error .store))) :
    L.wp j (getValue n key >>= f) Q w := by
  rw [getValue,bind_assoc]
  refine wp_get hlog (fun w' hi hr hc => ?_) hfails
  rw [pure_bind,Store.map_get]
  exact hok w' hi hr hc

theorem wp_iterator {set : List JString} {f : List JString → Client α} (hlog : Logs L j)
    (hok : ∀ w' l, L.inv w' → L.rely j w w' → l.Perm set →
      L.wp j (f l) Q (w'.log j (.iterator set) (.ok l))) :
    L.wp j (iterator set >>= f) Q w := by
  refine L.wp_op fun w' hi hr choice r w'' new hc h => ?_
  cases choice with
  | order l =>
    simp only [machine,exec,Op.answer] at h
    split at h
    · rename_i hl
      cases h
      exact ⟨hlog _ _ w' hi rfl,hok w' l hi hr hl⟩
    · simp at h
  | _ => simp [machine,exec,Op.answer] at h

theorem wp_now {f : ℤ → Client α} (hlog : Logs L j)
    (hok : ∀ w' date, L.inv w' → L.rely j w w' → -2^63 ≤ date ∧ date < 2^63 →
      L.wp j (f date) Q (w'.log j .now (.ok date))) :
    L.wp j (Prog.op Op.now >>= f) Q w := by
  refine L.wp_op fun w' hi hr choice r w'' new hc h => ?_
  cases choice with
  | time date =>
    simp only [machine,exec,Op.answer] at h
    split at h
    · rename_i hdate
      cases h
      exact ⟨hlog _ _ w' hi rfl,hok w' date hi hr hdate⟩
    · simp at h
  | _ => simp [machine,exec,Op.answer] at h

theorem wp_storeRemotely {command : Command} {f : Bool → Client α} (hlog : Logs L j)
    (hok : ∀ w' success, L.inv w' → L.rely j w w' →
      L.wp j (f success) Q (w'.log j (.storeRemotely command) (.ok success))) :
    L.wp j (Prog.op (Op.storeRemotely command) >>= f) Q w := by
  refine L.wp_op fun w' hi hr choice r w'' new hc h => ?_
  cases choice with
  | stored success =>
    cases h
    exact ⟨hlog _ _ w' hi rfl,hok w' success hi hr⟩
  | _ => simp [machine,exec,Op.answer] at h

theorem wp_submit {task : Job} {f : Unit → Client α} (hlog : Logs L j)
    (hok : ∀ w', L.inv w' → L.rely j w w' → L.cond j (.submit task) .go w' →
      L.Call j w' (w'.log j (.submit task) (.ok ())) (some task) ∧
      L.wp j (f ()) Q (w'.log j (.submit task) (.ok ())))
    (hfails : ∀ w', L.inv w' → L.rely j w w' → L.cond j (.submit task) .fails w' →
      L.wp j (.throw .store) Q (w'.log j (.submit task) (.error .store))) :
    L.wp j (Prog.op (Op.submit task) >>= f) Q w := by
  refine L.wp_op fun w' hi hr choice r w'' new hc h => ?_
  cases choice with
  | go =>
    cases h
    exact hok w' hi hr hc
  | fails =>
    cases h
    exact ⟨hlog _ _ w' hi rfl,hfails w' hi hr hc⟩
  | _ => simp [machine,exec,Op.answer] at h

theorem wp_put {n : StoreName} {key : JString} {x : Versioned (Val n)} {f : Unit → Client α}
    (hlog : Logs L j)
    (hok : ∀ w', L.inv w' → L.rely j w w' → L.cond j (.put n key x) .go w' →
      x.version = (w'.store n key).length →
      L.Call j w' (w'.logWrite j (.put n key x) (.ok ()) n key x.value) none ∧
      L.wp j (f ()) Q (w'.logWrite j (.put n key x) (.ok ()) n key x.value))
    (hobsolete : ∀ w', L.inv w' → L.rely j w w' → L.cond j (.put n key x) .go w' →
      x.version ≠ (w'.store n key).length →
      L.wp j (.throw .obsoleteVersion) Q (w'.log j (.put n key x) (.error .obsoleteVersion)))
    (hfails : ∀ w', L.inv w' → L.rely j w w' → L.cond j (.put n key x) .fails w' →
      L.wp j (.throw .store) Q (w'.log j (.put n key x) (.error .store))) :
    L.wp j (put n key x >>= f) Q w := by
  refine L.wp_op fun w' hi hr choice r w'' new hc h => ?_
  cases choice with
  | go =>
    simp only [machine,exec,Op.answer] at h
    split at h <;> cases h
    · rename_i hv
      exact hok w' hi hr hc hv
    · rename_i hv
      exact ⟨hlog _ _ w' hi rfl,hobsolete w' hi hr hc hv⟩
  | fails =>
    cases h
    exact ⟨hlog _ _ w' hi rfl,hfails w' hi hr hc⟩
  | _ => simp [machine,exec,Op.answer] at h

theorem wp_putIfNotObsolete {n : StoreName} {key : JString} {x : Versioned (Val n)}
    {f : Bool → Client α} (hlog : Logs L j)
    (hok : ∀ w', L.inv w' → L.rely j w w' → L.cond j (.putIfNotObsolete n key x) .go w' →
      x.version = (w'.store n key).length →
      L.Call j w' (w'.logWrite j (.putIfNotObsolete n key x) (.ok true) n key x.value) none ∧
      L.wp j (f true) Q (w'.logWrite j (.putIfNotObsolete n key x) (.ok true) n key x.value))
    (hobsolete : ∀ w', L.inv w' → L.rely j w w' → L.cond j (.putIfNotObsolete n key x) .go w' →
      x.version ≠ (w'.store n key).length →
      L.wp j (f false) Q (w'.log j (.putIfNotObsolete n key x) (.ok false)))
    (hfails : ∀ w', L.inv w' → L.rely j w w' → L.cond j (.putIfNotObsolete n key x) .fails w' →
      L.wp j (.throw .store) Q (w'.log j (.putIfNotObsolete n key x) (.error .store))) :
    L.wp j (putIfNotObsolete n key x >>= f) Q w := by
  refine L.wp_op fun w' hi hr choice r w'' new hc h => ?_
  cases choice with
  | go =>
    simp only [machine,exec,Op.answer] at h
    split at h <;> cases h
    · rename_i hv
      exact hok w' hi hr hc hv
    · rename_i hv
      exact ⟨hlog _ _ w' hi rfl,hobsolete w' hi hr hc hv⟩
  | fails =>
    cases h
    exact ⟨hlog _ _ w' hi rfl,hfails w' hi hr hc⟩
  | _ => simp [machine,exec,Op.answer] at h

/-- The call stores nothing but timelines and submits no task. -/
def TimelineOnly : Op → Prop
  | .put n _ _ => n = .friendsTimeline
  | .putIfNotObsolete n _ _ => n = .friendsTimeline
  | .submit _ => False
  | _ => True

/-- The call reads, or it stores a timeline. -/
def TimelineCall : Op → Prop
  | .get _ _ => True
  | .put n _ _ => n = .friendsTimeline
  | .putIfNotObsolete n _ _ => n = .friendsTimeline
  | _ => False

theorem wp_of_bind_pure {p : Client α} (h : L.wp j (p >>= pure) Q w) : L.wp j p Q w := by
  rwa [bind_pure] at h

end Rules

section TimelineOnly

theorem TimelineOnly.task {op : Op} (h : TimelineOnly op) (r : Except Exn op.Res) :
    op.task r = none := by
  cases op with
  | submit task => exact h.elim
  | _ => rfl

theorem TimelineOnly.written {op : Op} (h : TimelineOnly op) {r : Except Exn op.Res}
    {n : StoreName} {key : JString} {x : Versioned (Val n)} (hw : op.written r = some ⟨n,key,x⟩) :
    n = .friendsTimeline := by
  cases op with
  | put n' key' x' =>
    cases r with
    | ok _ =>
      cases hw
      exact h
    | error _ => simp [Op.written] at hw
  | putIfNotObsolete n' key' x' =>
    cases r with
    | ok success =>
      cases success with
      | true =>
        cases hw
        exact h
      | false => simp [Op.written] at hw
    | error _ => simp [Op.written] at hw
  | _ => simp [Op.written] at hw

theorem TimelineCall.only {op : Op} (h : TimelineCall op) : TimelineOnly op := by
  cases op <;> first | exact h | trivial

variable {P : Op → Prop} {α : Type}

theorem all_orThrow (e : Exn) (o : Option α) : (orThrow e o).All P := by
  cases o <;> trivial

theorem all_liftExcept (r : Except Exn α) : (liftExcept r).All P := by
  cases r <;> trivial

theorem all_getValue {n : StoreName} {key : JString} (h : P (.get n key)) :
    (getValue n key).All P :=
  (Prog.All.op h).bind fun _ => Prog.All.pure

theorem all_getTweetsLoop (hP : ∀ key, P (.get .tweets key)) (userId : JString) (lastTweet limit : ℤ)
    (rounds : ℕ) (i : ℤ) (tweetList : List Tweet) :
    (getTweetsLoop userId lastTweet limit rounds i tweetList).All P := by
  induction rounds generalizing i tweetList with
  | zero => trivial
  | succ rounds ih =>
    unfold getTweetsLoop
    split
    · dsimp only
      split
      · trivial
      · refine (all_getValue (hP _)).bind fun x => ?_
        cases x with
        | none => exact ih _ _
        | some tweetMap =>
          exact ((all_orThrow _ _).bind fun _ => Prog.All.pure).bind fun tweet => ih _ _
    · trivial

theorem all_getRecentTweets (hP : ∀ n key, P (.get n key)) (userId : JString) : (getRecentTweets userId).All P := by
  refine (all_getValue (hP _ _)).bind fun x => ?_
  cases x with
  | none => trivial
  | some user => exact (all_orThrow _ _).bind fun _ => all_getTweetsLoop (hP _) _ _ _ _ _ _

theorem all_updateTimeline (tweetId : JString) (tweetMap : TweetMap) (user : JString) :
    (updateTimeline tweetId tweetMap user).All TimelineCall :=
  (Prog.All.op (show TimelineCall (.get _ _) from trivial)).bind fun _ =>
    (all_liftExcept _).bind fun _ => Prog.All.op rfl

theorem all_startTimeline (userId toStartUser : JString) :
    (startTimeline userId toStartUser).All TimelineCall := by
  refine (Prog.All.op (show TimelineCall (.get _ _) from trivial)).bind fun x => ?_
  refine (all_getRecentTweets (P:=TimelineCall) (fun _ _ => trivial) toStartUser).andThen fun r => ?_
  rcases r with e | recentTweets
  · cases e <;> trivial
  · exact (all_liftExcept _).bind fun _ =>
      (Prog.All.op (show TimelineCall (.putIfNotObsolete _ _ _) from rfl)).bind fun _ => Prog.All.pure

theorem all_stopTimeline (userId toStopUser : JString) :
    (stopTimeline userId toStopUser).All TimelineCall := by
  refine (Prog.All.op (show TimelineCall (.get _ _) from trivial)).bind fun x => ?_
  cases x with
  | none => trivial
  | some x => exact (all_liftExcept _).bind fun _ => Prog.All.op rfl

theorem all_tweetCommand (userId tweetId : JString) (tweetMap : TweetMap)
    (hput : P (.put .tweets tweetId ⟨tweetMap,0⟩)) (hiterator : ∀ set, P (.iterator set))
    (hsubmit : ∀ user, P (.submit (.updateTimeline tweetId tweetMap user)))
    (htimeline : ∀ op, TimelineCall op → P op) : (tweetCommand userId tweetId tweetMap).All P := by
  refine (Prog.All.op hput).bind fun _ => (all_getValue (htimeline _ trivial)).bind fun x => ?_
  cases x with
  | none => trivial
  | some user =>
    refine (Prog.All.op (hiterator _)).bind fun followers => Prog.All.bind ?_ fun _ =>
      (all_updateTimeline _ _ _).mono htimeline
    induction followers with
    | nil => trivial
    | cons follower followers ih => exact (Prog.All.op (hsubmit follower)).bind fun _ => ih

end TimelineOnly

end TweetService
end Bigbird
