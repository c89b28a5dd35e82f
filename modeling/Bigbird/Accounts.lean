import Bigbird.Changes

/-! Accounts: who claims a name when several calls of `newUser` ask for it. -/
namespace Bigbird
namespace TweetService

open JavaText VersionedStore Programs

/-- What `newUser` stores, but for the counter. -/
def UserMap.account (x : UserMap) : Option JString × Option JString × Option JString × Option JString :=
  (x.username,x.password,x.name,x.created)

@[simp] theorem UserMap.account_setEdges (x : UserMap) (e : Edges) (s : JString) :
    (x.setEdges e s).account = x.account := by
  cases e <;> rfl

/-- `register`: the status for the end of a call of `newUser`; any other exception is
passed on. -/
def register {α : Type} : Except Exn α → Except Exn ℕ
  | .ok _ => .ok 200
  | .error .alreadyExists => .ok 409
  | .error e => .error e

/-- A call of `newUser` for this name that has returned normally. -/
def returnedFor (username : JString) : Job × Client (Option Tweet) → Bool
  | (.newUser user,.ret _) => user.username = username
  | _ => false

/-- Of the calls for a name that was free, one has returned normally as soon as it is taken,
of the calls for other names none; the first map that is stored under it is that of the
winner, and its account stays; and all others are answered with 409. -/
structure ClaimedOnce (store : (n : StoreName) → Store JString (Val n)) (s : State) : Prop where
  once : ∀ username, s.threads.countP (returnedFor username) =
    if store .users username = [] ∧ s.world.store .users username ≠ [] then 1 else 0
  winner : ∀ user a, (Job.newUser user,Prog.ret a) ∈ s.threads → ∃ created,
    (s.world.store .users user.username).getLast? = some (newUserMap user created) ∧
    ∀ x ∈ s.world.store .users user.username, x.account = (newUserMap user created).account
  others : ∀ user e, (Job.newUser user,Prog.throw e) ∈ s.threads →
    register (.error e : Except Exn (Option Tweet)) = .ok 409

def AnswersNewUser (j : Job) (_ : Op) (choice : Choice) (_ : World) : Prop :=
  match j with
  | .newUser _ => choice ≠ .fails
  | _ => True

instance (j : Job) (op : Op) (choice : Choice) (w : World) : Decidable (AnswersNewUser j op choice w) := by
  unfold AnswersNewUser
  split <;> infer_instance

def Answers (e : Event) (s : State) : Prop := Arrives e s ∧ Calls AnswersNewUser e s

instance (e : Event) (s : State) : Decidable (Answers e s) := by
  unfold Answers
  infer_instance

def FindsAbsent (j : Job) (op : Op) (_ : Choice) (w : World) : Prop :=
  match j, op with
  | .newUser _, .putIfNotObsolete .users key _ => w.store .users key = []
  | _, _ => True

instance (j : Job) (op : Op) (choice : Choice) (w : World) : Decidable (FindsAbsent j op choice w) := by
  unfold FindsAbsent
  split <;> infer_instance

def newUserAt (user : User) (created : ℤ) : Client Unit := do
  let success ← applyUpdate (putIfNotObsolete .users user.username ⟨newUserMap user created,0⟩)
  if success.isNone then .throw .alreadyExists

def Registering (user : User) (p : Client (Option Tweet)) : Prop :=
  p = Job.body (.newUser user) ∨ (∃ created, p = newUserAt user created >>= fun _ => pure none) ∨ p = .ret none

theorem newUser_call {user : User} {op : Op} {k : Except Exn op.Res → Client (Option Tweet)}
    (hp : Registering user (.call op k)) {choice : Choice} {w w' : World} {r : Except Exn op.Res}
    {new : Option Job} (hanswers : choice ≠ .fails)
    (hexec : exec (.newUser user) op choice w = some (r,w',new)) : new = none ∧
    ((∃ created, op = .now ∧ w' = w.log (.newUser user) op r ∧ 
      k r = newUserAt user created >>= fun _ => pure none) ∨
      ∃ created, op = .putIfNotObsolete .users user.username ⟨newUserMap user created,0⟩ ∧ k r = .ret none ∧
        (w.store .users user.username ≠ [] ∧ w' = w.log (.newUser user) op r ∨
          w.store .users user.username = [] ∧
            w' = w.logWrite (.newUser user) op r .users user.username (newUserMap user created))) := by
  rcases hp with hp | ⟨created,hp⟩ | hp
  · cases hp
    cases choice with
    | time date =>
      simp only [exec,Op.answer] at hexec
      split at hexec
      · cases hexec
        exact ⟨rfl,Or.inl ⟨date,rfl,rfl,rfl⟩⟩
      · simp at hexec
    | _ => simp [exec,Op.answer] at hexec
  · cases hp
    cases choice with
    | go =>
      simp only [exec,Op.answer] at hexec
      split at hexec <;> cases hexec
      · rename_i hv
        exact ⟨rfl,Or.inr ⟨created,rfl,rfl,Or.inr ⟨List.length_eq_zero_iff.mp hv.symm,rfl⟩⟩⟩
      · rename_i hv
        refine ⟨rfl,Or.inr ⟨created,rfl,rfl,Or.inl ⟨fun hnil => hv ?_,rfl⟩⟩⟩
        simp [hnil]
    | fails => exact absurd rfl hanswers
    | _ => simp [exec,Op.answer] at hexec
  · simp at hp

theorem returnedFor_body (username : JString) (job : Job) : returnedFor username (job,job.body) = false := by
  cases job <;> rfl

theorem countP_returnedFor_set {ts : List (Job × Client (Option Tweet))} {i : ℕ} {job : Job} {op : Op}
    {k : Except Exn op.Res → Client (Option Tweet)} (ht : ts[i]? = some (job,.call op k))
    (p : Client (Option Tweet)) (username : JString) (new : Option Job) :
    (ts.set i (job,p) ++ new.toList.map fun job => (job,job.body)).countP (returnedFor username) =
      ts.countP (returnedFor username) + if returnedFor username (job,p) then 1 else 0 := by
  obtain ⟨hi,hti⟩ := List.getElem?_eq_some_iff.mp ht
  have hcall : returnedFor username (job,.call op k) = false := by cases job <;> rfl
  have hnew : (new.toList.map fun job => (job,job.body)).countP (returnedFor username) = 0 := by
    cases new with
    | none => rfl
    | some u => simp [returnedFor_body]
  rw [List.countP_append,hnew,List.countP_set hi,hti,hcall]
  simp

def Job.isNewUser : Job → Bool
  | .newUser _ => true
  | _ => false

def Event.isNewUser (e : Event) (s : State) : Prop :=
  match e with
  | .thread i _ => ∃ t, s.threads[i]? = some t ∧ t.1.isNewUser = true
  | _ => False

/-- The users that are there keep their accounts; `newUser` leaves their maps as they are,
and their counters are left to `tweet`. -/
def KeepsAccounts (e : Event) (s s' : State) : Prop :=
  ∀ username, s.world.store .users username ≠ [] →
    s'.world.store .users username = s.world.store .users username ∨ ∃ x xs x', s.world.store .users username = x::xs ∧
      s'.world.store .users username = x'::x::xs ∧ x'.account = x.account ∧ ¬ Event.isNewUser e s ∧ (x'.lastTweet ≠ x.lastTweet → Event.isTweet e s)

structure Registered (store : (n : StoreName) → Store JString (Val n)) (s : State) : Prop where
  good : changing.Good s
  threads : ∀ user p, (Job.newUser user,p) ∈ s.threads → Registering user p
  grows : ∀ n, (store n).Grows (s.world.store n)

variable {store : (n : StoreName) → Store JString (Val n)} {s s' : State}

theorem Change.account {w : World} {j : Job} (hj : j.isNewUser = false) {key : JString} {v : UserMap}
    (h : Change w j .users key v) : ∃ x xs, w.store .users key = x::xs ∧ v.account = x.account ∧
      (v.lastTweet ≠ x.lastTweet → j.isTweet = true) := by
  cases h with
  | register => simp [Job.isNewUser] at hj
  | count hvalue _ =>
    obtain ⟨xs,hxs⟩ := Store.value_eq_some.mp hvalue
    exact ⟨_,xs,hxs,rfl,fun _ => rfl⟩
  | edges _ hvalue =>
    obtain ⟨xs,hxs⟩ := Store.value_eq_some.mp hvalue
    exact ⟨_,xs,hxs,by simp,fun h => absurd (by simp) h⟩

theorem mem_of_ended {ts : List (Job × Client (Option Tweet))} {i : ℕ} {t u : Job × Client (Option Tweet)}
    {new : Option Job} (hmem : u ∈ ts.set i t ++ new.toList.map fun job => (job,job.body))
    (hjob : u.1.isNewUser = true) (hended : u.2.outcome.isSome) : u ∈ ts ∨ u = t := by
  rcases mem_set_append hmem with ⟨n,_,hn⟩ | rfl | hnew
  · exact Or.inl (List.mem_of_getElem? hn)
  · exact Or.inr rfl
  · obtain ⟨job,_,rfl⟩ := List.mem_map.mp hnew
    cases job with
    | newUser user => simp [Job.body,newUser,Prog.outcome,bind,Prog.andThen,Prog.op] at hended
    | _ => simp [Job.isNewUser] at hjob

/-- What a step does to the calls of `newUser`: none of them ends, or one has made its write
and returns, be the key absent or not. -/
inductive Registers (e : Event) (s s' : State) : Prop
  | quiet (accounts : KeepsAccounts e s s') (found : Calls FindsAbsent e s)
      (absent : ∀ username, s.world.store .users username = [] → s'.world.store .users username = [])
      (ended : ∀ t ∈ s'.threads, t.1.isNewUser = true → t.2.outcome.isSome → t ∈ s.threads)
      (count : ∀ username, s'.threads.countP (returnedFor username) =
        s.threads.countP (returnedFor username))
  | returns (user : User) (created : ℤ)
      (found : Calls FindsAbsent e s ↔ s.world.store .users user.username = [])
      (stores : s.world.store .users user.username ≠ [] ∧ s'.world.store = s.world.store ∨
        s.world.store .users user.username = [] ∧
          s'.world.store .users = (s.world.store .users).write user.username (newUserMap user created))
      (ended : ∀ t ∈ s'.threads, t.1.isNewUser = true → t.2.outcome.isSome →
        t ∈ s.threads ∨ t = (.newUser user,.ret none))
      (returned : (.newUser user,.ret none) ∈ s'.threads)
      (count : ∀ username, s'.threads.countP (returnedFor username) =
        s.threads.countP (returnedFor username) + if user.username = username then 1 else 0)

theorem registers_newUser (hs : Registered store s) {i : ℕ} {choice : Choice}
    (hanswers : choice ≠ .fails) (h : machine.step (.thread i choice) s = some s') {user : User}
    {p : Client (Option Tweet)} (hp : s.threads[i]? = some (.newUser user,p)) :
    Registers (.thread i choice) s s' := by
  obtain ⟨job,op,k,r,w,new,ht,hexec,rfl⟩ := Machine.thread_step h
  obtain ⟨rfl,-⟩ := Prod.mk.inj (Option.some.inj (hp.symm.trans ht))
  have hcount := countP_returnedFor_set ht (k r)
  obtain ⟨rfl,hcall⟩ := newUser_call (hs.threads user _ (List.mem_of_getElem? ht)) hanswers hexec
  rcases hcall with ⟨created,rfl,rfl,hk⟩ | ⟨created,rfl,hk,hwrite⟩
  · have hnext : (k r).outcome = none := by
      rw [hk]
      rfl
    refine .quiet (fun _ _ => Or.inl rfl) (by simp [Calls,ht,FindsAbsent]) (fun _ h => h)
      (fun t htmem hj hended => ?_) fun username => (hcount username none).trans ?_
    · refine (mem_of_ended htmem hj hended).resolve_right ?_
      rintro rfl
      simp [hnext] at hended
    · rw [hk]
      rfl
  · refine .returns user created (by simp [Calls,ht,FindsAbsent]) ?_
      (fun t htmem hj hended => hk ▸ mem_of_ended htmem hj hended) ?_
      fun username => (hcount username none).trans ?_
    · rcases hwrite with ⟨hpresent,rfl⟩ | ⟨habsent,rfl⟩
      · exact Or.inl ⟨hpresent,rfl⟩
      · exact Or.inr ⟨habsent,World.write_self s.world .users _ _⟩
    · rw [← hk]
      exact List.mem_append_left _ (List.mem_set (List.getElem?_eq_some_iff.mp ht).1 _)
    · rw [hk]
      simp [returnedFor]

theorem users_of_change {w w' : World} {job : Job} {op : Op} {r : Except Exn op.Res}
    (hjob : job.isNewUser = false)
    (h : op.written r = none ∧ w' = w.log job op r ∨ ∃ n key x, op.written r = some ⟨n,key,x⟩ ∧
      Change w job n key x.value ∧ w' = w.logWrite job op r n key x.value) (username : JString) :
    w'.store .users username = w.store .users username ∨
      ∃ x xs x', w.store .users username = x::xs ∧ w'.store .users username = x'::x::xs ∧
        x'.account = x.account ∧ (x'.lastTweet ≠ x.lastTweet → job.isTweet = true) := by
  rcases h with ⟨_,rfl⟩ | ⟨n,key,x,_,hc,rfl⟩
  · exact Or.inl rfl
  · by_cases hn : StoreName.users = n
    · subst hn
      obtain ⟨x₀,xs,hxs,haccount,hlast⟩ := hc.account hjob
      by_cases hkey : username = key
      · subst hkey
        exact Or.inr ⟨x₀,xs,x.value,hxs,by simp [World.logWrite,hxs],haccount,hlast⟩
      · exact Or.inl (by simp [World.logWrite,hkey])
    · exact Or.inl (by simp [World.logWrite,hn])

theorem registers_other (hs : Registered store s) {i : ℕ} {choice : Choice}
    (h : machine.step (.thread i choice) s = some s') {job : Job} {p : Client (Option Tweet)}
    (hp : s.threads[i]? = some (job,p)) (hjob : job.isNewUser = false) :
    Registers (.thread i choice) s s' := by
  obtain ⟨job',op',k',r',ht',hchange⟩ := change_of_thread hs.good h
  obtain ⟨job,op,k,r,w,new,ht,_,rfl⟩ := Machine.thread_step h
  obtain ⟨rfl,-⟩ := Prod.mk.inj (Option.some.inj (hp.symm.trans ht))
  obtain ⟨rfl,-⟩ := Prod.mk.inj (Option.some.inj (ht.symm.trans ht'))
  have hnot : ¬ Event.isNewUser (.thread i choice) s := by
    rintro ⟨t,htt,hj⟩
    obtain rfl := Option.some.inj (ht.symm.trans htt)
    simp [hjob] at hj
  have hreturned (username : JString) : returnedFor username (job,k r) = false := by
    cases job <;> first | rfl | simp [Job.isNewUser] at hjob
  refine .quiet (fun username _ => ?_) ?_ (fun username habsent => ?_) (fun t htmem hj hended => ?_)
    fun username => (countP_returnedFor_set ht (k r) username new).trans ?_
  · refine (users_of_change hjob hchange username).imp_right ?_
    rintro ⟨x,xs,x',hx,hx',haccount,hlast⟩
    exact ⟨x,xs,x',hx,hx',haccount,hnot,fun hne => ⟨_,ht,hlast hne⟩⟩
  · simp only [Calls,ht]
    cases job <;> trivial
  · rcases users_of_change hjob hchange username with heq | ⟨x,xs,x',hx,_⟩
    · exact heq.trans habsent
    · simp [habsent] at hx
  · refine (mem_of_ended htmem hj hended).resolve_right ?_
    rintro rfl
    simp [hjob] at hj
  · rw [hreturned username]
    rfl

theorem registers_of_step (hs : Registered store s) {e : Event} (hc : Answers e s)
    (h : machine.step e s = some s') : Registers e s s' := by
  cases e with
  | start job =>
    obtain rfl := Option.some.inj h
    refine .quiet (fun _ _ => Or.inl rfl) trivial (fun _ h => h) (fun t ht hjob hended => ?_) fun username => ?_
    · rcases List.mem_append.mp ht with ht | ht
      · exact ht
      · obtain rfl := List.mem_singleton.mp ht
        cases job with
        | newUser user => simp [machine,Job.body,newUser,Prog.outcome,bind,Prog.andThen,Prog.op] at hended
        | _ => simp [Job.isNewUser] at hjob
    · have hbody := returnedFor_body username job
      simp [machine,hbody]
  | thread i choice =>
    obtain ⟨job,op,k,_,_,_,ht,_,_⟩ := Machine.thread_step h
    have hanswers : AnswersNewUser job op choice s.world := by
      simpa only [Answers,Arrives,Calls,ht,true_and] using hc
    cases job with
    | newUser user => exact registers_newUser hs hanswers h ht
    | _ => exact registers_other hs h ht rfl

theorem registering_step {e : Event} (hs : ∀ user p, (Job.newUser user,p) ∈ s.threads → Registering user p)
    (hc : Answers e s) (h : machine.step e s = some s') :
    ∀ user p, (Job.newUser user,p) ∈ s'.threads → Registering user p := by
  intro user p hmem
  cases e with
  | start job =>
    obtain rfl := Option.some.inj h
    rcases List.mem_append.mp hmem with hmem | hmem
    · exact hs user p hmem
    · obtain ⟨rfl,rfl⟩ := Prod.mk.inj (List.mem_singleton.mp hmem)
      exact Or.inl rfl
  | thread i choice =>
    obtain ⟨job,op,k,r,w,new,ht,hexec,rfl⟩ := Machine.thread_step h
    rcases mem_set_append hmem with ⟨n,_,hn⟩ | hown | hnew
    · exact hs user p (List.mem_of_getElem? hn)
    · obtain ⟨rfl,rfl⟩ := Prod.mk.inj hown
      have hanswers : AnswersNewUser (.newUser user) op choice s.world := by
        simpa only [Answers,Arrives,Calls,ht,true_and] using hc
      obtain ⟨-,⟨created,-,-,hk⟩ | ⟨created,-,hk,-⟩⟩ :=
        newUser_call (hs user _ (List.mem_of_getElem? ht)) hanswers hexec
      · exact Or.inr (Or.inl ⟨created,hk⟩)
      · exact Or.inr (Or.inr hk)
    · obtain ⟨u,-,hu⟩ := List.mem_map.mp hnew
      obtain ⟨rfl,rfl⟩ := Prod.mk.inj hu
      exact Or.inl rfl

theorem registered_of_reaches {es : List Event}
    (h : Runs.Reaches machine.step Answers (State.initial store) es s) : Registered store s := by
  refine ⟨changing_good (h.mono fun _ _ hc => hc.1),h.invariant (by simp [State.initial])
    fun _ _ _ hs hc hstep => registering_step hs hc hstep,?_⟩
  refine h.invariant (I:=fun s => ∀ n, (store n).Grows (s.world.store n)) (fun n => Store.Grows.refl _) ?_
  exact fun _ _ _ hs _ hstep n => (hs n).trans ((step_grows hstep).store n)

theorem keepsAccounts_of_registers {e : Event} (h : Registers e s s') : KeepsAccounts e s s' := by
  cases h with
  | quiet accounts => exact accounts
  | returns user created _ stores =>
    intro username hpresent
    rcases stores with ⟨_,hw⟩ | ⟨habsent,hw⟩
    · exact Or.inl (by rw [hw])
    · rw [hw]
      refine Or.inl (Store.write_of_ne _ _ ?_)
      rintro rfl
      exact hpresent habsent

theorem ClaimedOnce.of_quiet (hs : ClaimedOnce store s) {e : Event} (accounts : KeepsAccounts e s s')
    (absent : ∀ username, s.world.store .users username = [] → s'.world.store .users username = [])
    (ended : ∀ t ∈ s'.threads, t.1.isNewUser = true → t.2.outcome.isSome → t ∈ s.threads)
    (count : ∀ username, s'.threads.countP (returnedFor username) =
      s.threads.countP (returnedFor username)) : ClaimedOnce store s' := by
  refine ⟨fun username => ?_,fun user a hmem => ?_,fun user e hmem => hs.others user e (ended _ hmem rfl rfl)⟩
  · have hiff : s'.world.store .users username = [] ↔ s.world.store .users username = [] := by
      refine ⟨fun hnil => by_contra fun hpresent => ?_,absent username⟩
      rcases accounts username hpresent with heq | ⟨x,xs,x',_,hx',_⟩
      · exact hpresent (heq.symm.trans hnil)
      · simp [hnil] at hx'
    simp only [count,hs.once,ne_eq,hiff]
  · obtain ⟨created,hlast,hall⟩ := hs.winner user a (ended _ hmem rfl rfl)
    have hpresent : s.world.store .users user.username ≠ [] := by
      intro hnil
      simp [hnil] at hlast
    refine ⟨created,?_⟩
    rcases accounts user.username hpresent with heq | ⟨x,xs,x',hx,hx',haccount,_⟩
    · rw [heq]
      exact ⟨hlast,hall⟩
    · rw [hx']
      rw [hx] at hlast hall
      refine ⟨by rwa [List.getLast?_cons_cons],fun y hy => ?_⟩
      rcases List.mem_cons.mp hy with rfl | hy
      · exact haccount.trans (hall x List.mem_cons_self)
      · exact hall y hy

theorem ClaimedOnce.claim (hs : ClaimedOnce store s) {user : User} {created : ℤ}
    (hinitial : store .users user.username = []) (habsent : s.world.store .users user.username = [])
    (hstore : s'.world.store .users = (s.world.store .users).write user.username (newUserMap user created))
    (ended : ∀ t ∈ s'.threads, t.1.isNewUser = true → t.2.outcome.isSome →
      t ∈ s.threads ∨ t = (.newUser user,.ret none))
    (count : ∀ username, s'.threads.countP (returnedFor username) =
      s.threads.countP (returnedFor username) + if user.username = username then 1 else 0) :
    ClaimedOnce store s' := by
  refine ⟨fun username => ?_,fun user' a hmem => ?_,fun user' e hmem => ?_⟩
  · rw [count,hs.once,hstore]
    by_cases hname : user.username = username
    · subst hname
      simp [hinitial,habsent]
    · simp [hname,Ne.symm hname]
  · rcases ended _ hmem rfl rfl with hmem | heq
    · obtain ⟨created',hlast,hall⟩ := hs.winner user' a hmem
      have hne : user'.username ≠ user.username := by
        intro heq
        simp [heq,habsent] at hlast
      refine ⟨created',?_⟩
      rw [hstore,Store.write_of_ne _ _ hne]
      exact ⟨hlast,hall⟩
    · obtain rfl := Job.newUser.inj (Prod.mk.inj heq).1
      refine ⟨created,?_⟩
      rw [hstore,Store.write_self,habsent]
      simp
  · refine hs.others user' e ((ended _ hmem rfl rfl).resolve_right fun heq => ?_)
    simp at heq

/-- A step keeps the claims exactly if no `newUser` finds its key present. -/
theorem claimedOnce_step (hs : Registered store s) (hi : ClaimedOnce store s) {e : Event}
    (hc : Answers e s) (h : machine.step e s = some s') :
    ClaimedOnce store s' ↔ Calls FindsAbsent e s := by
  cases registers_of_step hs hc h with
  | quiet accounts found absent ended count => exact iff_of_true (hi.of_quiet accounts absent ended count) found
  | returns user created found stores ended returned count =>
    rw [found]
    rcases stores with ⟨hpresent,hstore⟩ | ⟨habsent,hstore⟩
    · refine iff_of_false (fun hi' => ?_) hpresent
      have honce := hi'.once user.username
      rw [count,hi.once,hstore,if_pos rfl] at honce
      omega
    · refine iff_of_true (hi.claim ?_ habsent hstore ended count) habsent
      exact List.suffix_nil.mp (habsent ▸ hs.grows .users user.username)

/-- The names are claimed once, in all states of a run, exactly in the runs in which every
`newUser` finds its name free. In every run, accounts that are there stay. -/
theorem claimed_once_iff_free (store : (n : StoreName) → Store JString (Val n)) (es : List Event)
    (s : State) (h : Runs.Reaches machine.step Answers (State.initial store) es s) :
    ((∀ fs t, fs <+: es → Runs.Reaches machine.step Answers (State.initial store) fs t →
        ClaimedOnce store t) ↔
      Runs.Reaches machine.step (fun e s => Answers e s ∧ Calls FindsAbsent e s) (State.initial store) es s) ∧
    ∀ e s', Answers e s → machine.step e s = some s' → KeepsAccounts e s s' := by
  have hinitial : ClaimedOnce store (State.initial store) := by
    refine ⟨fun username => ?_,by simp [State.initial],by simp [State.initial]⟩
    simp [State.initial]
  refine ⟨?_,fun e s' hc hs => keepsAccounts_of_registers (registers_of_step (registered_of_reaches h) hc hs)⟩
  refine Runs.invariant_iff_conditions_within
    (J:=fun s => ∃ es, Runs.Reaches machine.step Answers (State.initial store) es s) ⟨[],.start⟩ hinitial ?_ ?_ h
  · rintro e s s' ⟨es,hes⟩ hc hs
    exact ⟨es++[e],.next e hes hc hs⟩
  · rintro e s s' ⟨es,hes⟩ hi hc hs
    exact claimedOnce_step (registered_of_reaches hes) hi hc hs

/-- Two calls of `newUser` for one name. -/
def registerTwice : List Event :=
  [.start (.newUser ⟨['a'],some ['p'],none⟩),.start (.newUser ⟨['a'],some ['q'],none⟩),
    .thread 0 (.time 1),.thread 1 (.time 2),.thread 0 .go,.thread 1 .go]

/-- Both return normally. -/
theorem claimed_twice : ¬ ∀ store es s,
    Runs.Reaches machine.step Answers (State.initial store) es s → ClaimedOnce store s := by
  intro hall
  have hrun : ((Runs.runIf machine.step Answers registerTwice State.empty).map fun s =>
      s.threads.countP (returnedFor ['a'])) = some 2 := by decide +kernel
  obtain ⟨s,hs,hp⟩ := Option.map_eq_some_iff.mp hrun
  have honce := (hall _ _ s (Runs.reaches_of_runIf .start hs)).once ['a']
  rw [hp] at honce
  split at honce <;> simp at honce

/-- The first of them claims the name. -/
theorem claimed_by_first : ∃ s : State, Runs.Reaches machine.step Answers State.empty (registerTwice.take 5) s ∧
    (∀ fs t, fs <+: registerTwice.take 5 → Runs.Reaches machine.step Answers State.empty fs t →
      ClaimedOnce (fun _ _ => []) t) ∧ s.threads.countP (returnedFor ['a']) = 1 := by
  have hrun : ((Runs.runIf machine.step (fun e s => Answers e s ∧ Calls FindsAbsent e s)
      (registerTwice.take 5) State.empty).map fun s => s.threads.countP (returnedFor ['a'])) = some 1 := by
    decide +kernel
  obtain ⟨s,hs,hp⟩ := Option.map_eq_some_iff.mp hrun
  have hfree := Runs.reaches_of_runIf .start hs
  have hreaches : Runs.Reaches machine.step Answers State.empty (registerTwice.take 5) s := hfree.mono fun _ _ hc => hc.1
  exact ⟨s,hreaches,(claimed_once_iff_free _ _ s hreaches).1.mpr hfree,hp⟩

end TweetService
end Bigbird
