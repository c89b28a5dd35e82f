import Bigbird.Accounts
import Bigbird.Authorship

/-! The web application: who may post and follow. A user logs in with the password of the account,
and what the services are asked to do comes from users who are logged in. -/
namespace Bigbird
namespace TweetService

open JavaText VersionedStore Programs

section Users

/-- `getUser`; the date of the account is looked at, and nobody asks for it. -/
def getUser (username : JString) : Client (Option User) := do
  match ← getValue .users username with
  | none => return none
  | some value =>
    let _ ← orThrow .numberFormat (parseLong value.created)
    return some ⟨username,value.password,value.name⟩

structure UserDetailsWrapper where
  user : User

def UserDetailsWrapper.getUsername (details : UserDetailsWrapper) : JString := details.user.username

def UserDetailsWrapper.getPassword (details : UserDetailsWrapper) : Option JString := details.user.password

/-- No details are a `UsernameNotFoundException`. -/
def loadUserByUsername (username : JString) : Client (Option UserDetailsWrapper) := do
  let user ← getUser username
  return user.map UserDetailsWrapper.mk

/-- The store has an account of this user under its name, and has had none of another one. -/
def HasAccount (w : World) (user : User) : Prop :=
  w.store .users user.username ≠ [] ∧ ∃ created, (-2^63 ≤ created ∧ created < 2^63) ∧
    ∀ x ∈ w.store .users user.username, x.account = (newUserMap user created).account

/-- What a `newUser` writes is the map of its user, with a date that is a Java `long`. -/
def WritesUser (j : Job) (op : Op) : Prop := ∀ user r key x, j = .newUser user → op.written r = some ⟨.users,key,x⟩ →
  key = user.username ∧ x.version = 0 ∧ ∃ created, (-2^63 ≤ created ∧ created < 2^63) ∧ x.value = newUserMap user created

theorem writesUser_of_written {j : Job} {op : Op} (h : ∀ r, op.written r = none) : WritesUser j op := by
  intro user r key x _ hwritten
  rw [h r] at hwritten
  cases hwritten

theorem writesUser_body (j : Job) : j.body.AllWith Op.Answers (WritesUser j) := by
  cases j with
  | newUser user =>
    refine Prog.AllWith.bind (Prog.AllWith.op_bind ?_ fun created hcreated => ?_) fun _ => Prog.AllWith.pure
    · exact writesUser_of_written fun r => by cases r <;> rfl
    · refine Prog.AllWith.bind (Prog.AllWith.retry ?_ 3) fun success => ?_
      · refine (Prog.All.op ?_).allWith
        intro user' r key x hj hwritten
        cases hj
        cases r with
        | error e => simp [Op.written] at hwritten
        | ok success =>
          cases success with
          | false => simp [Op.written] at hwritten
          | true =>
            cases hwritten
            exact ⟨rfl,rfl,created,hcreated,rfl⟩
      · cases success <;> trivial
  | _ => exact Prog.allWith_of_forall (fun op user r key x hj => by cases hj) _

/-- The programs write users as they are registered. -/
structure Enrolling (s : State) : Prop where
  changing : changing.Good s
  programs : ∀ t ∈ s.threads, t.2.AllWith Op.Answers (WritesUser t.1)

variable {s s' : State}

theorem enrolling_step (hs : Enrolling s) {e : Event} (hc : Arrives e s) (h : machine.step e s = some s') : Enrolling s' := by
  refine ⟨changing_step hs.changing hc h,fun t ht => ?_⟩
  cases e with
  | start job =>
    obtain rfl := Option.some.inj h
    rcases List.mem_append.mp ht with ht | ht
    · exact hs.programs t ht
    · obtain rfl := List.mem_singleton.mp ht
      exact writesUser_body job
  | thread i choice =>
    obtain ⟨job,op,k,r,w,new,hthread,hexec,rfl⟩ := Machine.thread_step h
    rcases mem_set_append ht with ⟨n,_,hn⟩ | rfl | hnew
    · exact hs.programs t (List.mem_of_getElem? hn)
    · exact (hs.programs _ (List.mem_of_getElem? hthread)).2 r (exec_answers hexec)
    · obtain ⟨job',_,rfl⟩ := List.mem_map.mp hnew
      exact writesUser_body job'

/-- What a step does to the users under a name: it leaves them alone, or writes a map with the same
account, or registers the first of them. -/
theorem users_of_step (hs : Enrolling s) {e : Event} (h : machine.step e s = some s') (username : JString) :
    s'.world.store .users username = s.world.store .users username ∨
    (∃ x xs x', s.world.store .users username = x::xs ∧ s'.world.store .users username = x'::x::xs ∧
      x'.account = x.account) ∨
    s.world.store .users username = [] ∧ ∃ user created, user.username = username ∧
      (-2^63 ≤ created ∧ created < 2^63) ∧ Job.newUser user ∈ s.threads.map Prod.fst ∧
      s'.world.store .users username = [newUserMap user created] := by
  cases e with
  | start job =>
    obtain rfl := Option.some.inj h
    exact Or.inl rfl
  | thread i choice =>
    obtain ⟨job,op,k,r,w,new,hthread,hexec,rfl⟩ := Machine.thread_step h
    have hmem := List.mem_of_getElem? hthread
    cases hjob : job.isNewUser with
    | false =>
      have hchange := change_of_exec hs.changing hthread hexec
      refine (users_of_change hjob hchange username).imp_right fun hx => Or.inl ?_
      obtain ⟨x,xs,x',hx,hx',haccount,_⟩ := hx
      exact ⟨x,xs,x',hx,hx',haccount⟩
    | true =>
      cases job with
      | newUser user =>
        rcases (exec_cases hexec).2 with ⟨_,rfl⟩ | ⟨n,key,x,hwritten,hversion,rfl⟩
        · exact Or.inl rfl
        · by_cases hn : StoreName.users = n
          · subst hn
            obtain ⟨rfl,hzero,created,hcreated,hvalue⟩ := (hs.programs _ hmem).1 user r key x rfl hwritten
            by_cases hkey : username = user.username
            · subst hkey
              have habsent : s.world.store .users user.username = [] := by
                rw [hzero] at hversion
                exact List.length_eq_zero_iff.mp hversion.symm
              refine Or.inr (Or.inr ⟨habsent,user,created,rfl,hcreated,List.mem_map_of_mem hmem,?_⟩)
              simp [World.logWrite,habsent,hvalue]
            · exact Or.inl (by simp [World.logWrite,hkey])
          · exact Or.inl (by simp [World.logWrite,hn])
      | _ => simp [Job.isNewUser] at hjob

theorem HasAccount.step {user : User} (hw : HasAccount s.world user) (hs : Enrolling s) {e : Event}
    (h : machine.step e s = some s') : HasAccount s'.world user := by
  obtain ⟨hne,created,hcreated,hall⟩ := hw
  rcases users_of_step hs h user.username with heq | ⟨x,xs,x',hx,hx',haccount⟩ | ⟨habsent,_⟩
  · exact ⟨by rwa [heq],created,hcreated,by rwa [heq]⟩
  · rw [hx] at hall
    refine ⟨by simp [hx'],created,hcreated,?_⟩
    rw [hx']
    exact List.forall_mem_cons.mpr ⟨haccount.trans (hall x List.mem_cons_self),hall⟩
  · exact absurd habsent hne

theorem hasAccount_of_step (hs : Enrolling s) {e : Event} (h : machine.step e s = some s') {username : JString}
    (habsent : s.world.store .users username = []) (hne : s'.world.store .users username ≠ []) :
    ∃ user, user.username = username ∧ HasAccount s'.world user ∧ Job.newUser user ∈ s.threads.map Prod.fst := by
  rcases users_of_step hs h username with heq | ⟨x,xs,x',hx,_⟩ | ⟨_,user,created,rfl,hcreated,hjob,hstore⟩
  · exact absurd (heq.trans habsent) hne
  · simp [habsent] at hx
  · refine ⟨user,rfl,⟨hne,created,hcreated,?_⟩,hjob⟩
    rw [hstore]
    exact List.forall_mem_singleton.mpr rfl

variable {w : World} {user : User}

theorem HasAccount.read (h : HasAccount w user) :
    w.read (loadUserByUsername user.username) = .ok (some ⟨user⟩) := by
  obtain ⟨hne,created,hcreated,hall⟩ := h
  obtain ⟨x,xs,hx⟩ := List.exists_cons_of_ne_nil hne
  have haccount : x.account = (newUserMap user created).account := hall x (by simp [hx])
  simp only [UserMap.account,newUserMap,Prod.mk.injEq] at haccount
  obtain ⟨_,hpassword,hname,hdate⟩ := haccount
  have hvalue : (w.store .users).value user.username = some x := by simp [Store.value,hx]
  have hparse : parseLong x.created = some created := by
    rw [hdate]
    exact @parse_decimal 64 created hcreated
  rw [loadUserByUsername,getUser,bind_assoc,read_getValue,hvalue]
  dsimp only
  rw [hparse,hpassword,hname]
  rfl

theorem read_loadUserByUsername_absent {username : JString} (h : w.store .users username = []) :
    w.read (loadUserByUsername username) = .ok none := by
  rw [loadUserByUsername,getUser,bind_assoc,read_getValue]
  simp only [Store.value,h]
  rfl

end Users

section Visits

inductive FollowCommand
  | startFollowing (userId toStartUser : JString)
  | stopFollowing (userId toStopUser : JString)
  deriving DecidableEq

def FollowCommand.command : FollowCommand → Command
  | .startFollowing userId toStartUser => .startFollowing userId toStartUser
  | .stopFollowing userId toStopUser => .stopFollowing userId toStopUser

/-- What visitors do, what the executor of the queue starts, and the next call of a thread. -/
inductive Visit
  | initializeUsers
  | register (user : User)
  | login (username password : JString)
  | logout (principal : JString)
  | tweet (principal : JString) (text : Option JString)
  | follow (command : FollowCommand)
  | execute (command : Command)
  | thread (i : ℕ) (choice : Choice)
  deriving DecidableEq

/-- The user a request is made for, who has to be logged in. -/
def FollowCommand.principal : FollowCommand → JString
  | .startFollowing userId _ => userId
  | .stopFollowing userId _ => userId

def Visit.principal : Visit → Option JString
  | .tweet principal _ => some principal
  | .follow command => some command.principal
  | _ => none

/-- The services with the users who are logged in and the commands that `addAsync` has stored. -/
structure WebApplication where
  services : State
  principals : List JString
  queue : List FollowCommand

def adminUser : User := ⟨"admin".toList,some "password".toList,some "Administrator".toList⟩

def Command.userId : Command → JString
  | .tweet userId _ _ => userId
  | .startFollowing userId _ => userId
  | .stopFollowing userId _ => userId

/-- The queue has stored the command; that of a `tweet` is found in the history. -/
def WebApplication.Stored (a : WebApplication) (command : Command) : Prop :=
  command ∈ a.queue.map FollowCommand.command ∨ (command.userId,command) ∈ a.services.world.history.filterMap issue

instance (a : WebApplication) (command : Command) : Decidable (a.Stored command) :=
  decidable_of_iff (command ∈ a.queue.map FollowCommand.command ∨
    ∃ p ∈ a.services.world.history.filterMap issue, p = (command.userId,command)) (by simp [WebApplication.Stored])

def WebApplication.serve (a : WebApplication) (e : Event) : Option WebApplication :=
  (machine.step e a.services).map fun s => { a with services := s }

/-- `authenticates` is what the authentication provider says of a user and the password that is
presented. A command may be executed any number of times, as the queue is read again when it is initialized. -/
def WebApplication.step (authenticates : UserDetailsWrapper → JString → Bool) : Visit → WebApplication → Option WebApplication
  | .initializeUsers, a => match a.services.world.read (getValue .users adminUser.username) with
    | .ok none => a.serve (.start (.newUser adminUser))
    | _ => some a
  | .register user, a => a.serve (.start (.newUser user))
  | .login username password, a => match a.services.world.read (loadUserByUsername username) with
    | .ok (some details) =>
      if authenticates details password then some { a with principals := details.getUsername::a.principals } else none
    | _ => none
  | .logout principal, a => some { a with principals := a.principals.erase principal }
  | .tweet principal text, a =>
    if principal ∈ a.principals then a.serve (.start (.tweet principal text none)) else none
  | .follow command, a =>
    if command.principal ∈ a.principals then some { a with queue := command::a.queue } else none
  | .execute command, a => if a.Stored command then a.serve (.start (.execute command)) else none
  | .thread i choice, a => a.serve (.thread i choice)

def WebApplication.empty : WebApplication := ⟨State.empty,[],[]⟩

/-- No counter overflows. -/
def Counts : Visit → WebApplication → Prop
  | .thread i choice, a => Calls NoOverflow (.thread i choice) a.services
  | _, _ => True

instance (v : Visit) (a : WebApplication) : Decidable (Counts v a) := by
  unfold Counts
  split <;> infer_instance

def Causes : Visit → Event → Prop
  | .initializeUsers, e => e = .start (.newUser adminUser)
  | .register user, e => e = .start (.newUser user)
  | .tweet principal text, e => e = .start (.tweet principal text none)
  | .execute command, e => e = .start (.execute command)
  | .thread i choice, e => e = .thread i choice
  | _, _ => False

variable {authenticates : UserDetailsWrapper → JString → Bool} {a a' : WebApplication} {v : Visit}

inductive Moves (authenticates : UserDetailsWrapper → JString → Bool) : Visit → WebApplication → WebApplication → Prop
  | stays {v : Visit} {a : WebApplication} : v.principal = none → Moves authenticates v a a
  | serves {v : Visit} {a : WebApplication} {e : Event} {s : State} : Causes v e → Replays e a.services →
      (∀ principal ∈ v.principal, principal ∈ a.principals) → machine.step e a.services = some s →
      Moves authenticates v a { a with services := s }
  | login {username password : JString} {a : WebApplication} {details : UserDetailsWrapper} :
      a.services.world.read (loadUserByUsername username) = .ok (some details) → authenticates details password = true →
      Moves authenticates (.login username password) a { a with principals := details.getUsername::a.principals }
  | logout {principal : JString} {a : WebApplication} :
      Moves authenticates (.logout principal) a { a with principals := a.principals.erase principal }
  | follow {command : FollowCommand} {a : WebApplication} : command.principal ∈ a.principals →
      Moves authenticates (.follow command) a { a with queue := command::a.queue }

theorem moves_of_step (h : a.step authenticates v = some a') : Moves authenticates v a a' := by
  have hserve {e : Event} (hcauses : Causes v e) (hreplays : Replays e a.services)
      (hprincipal : ∀ principal ∈ v.principal, principal ∈ a.principals) (h : a.serve e = some a') :
      Moves authenticates v a a' := by
    obtain ⟨s,hs,rfl⟩ := Option.map_eq_some_iff.mp h
    exact .serves hcauses hreplays hprincipal hs
  cases v with
  | initializeUsers =>
    simp only [WebApplication.step] at h
    split at h
    · exact hserve rfl trivial (by simp [Visit.principal]) h
    · cases h
      exact .stays rfl
  | register user => exact hserve rfl trivial (by simp [Visit.principal]) h
  | login username password =>
    simp only [WebApplication.step] at h
    split at h
    · rename_i details hread
      split at h
      · rename_i hauthenticates
        cases h
        exact .login hread hauthenticates
      · cases h
    · cases h
  | logout principal =>
    cases h
    exact .logout
  | tweet principal text =>
    simp only [WebApplication.step] at h
    split at h
    · rename_i hprincipal
      exact hserve rfl trivial (fun _ hp => by cases hp; exact hprincipal) h
    · cases h
  | follow command =>
    simp only [WebApplication.step] at h
    split at h
    · rename_i hprincipal
      cases h
      exact .follow hprincipal
    · cases h
  | execute command =>
    simp only [WebApplication.step] at h
    split at h
    · rename_i hstored
      refine hserve rfl ?_ (by simp [Visit.principal]) h
      cases command with
      | tweet userId tweetId tweetMap =>
        rcases hstored with hqueue | hissued
        · obtain ⟨c,_,hc⟩ := List.mem_map.mp hqueue
          cases c <;> cases hc
        · exact mem_issues.mp hissued
      | _ => trivial
    · cases h
  | thread i choice => exact hserve rfl trivial (by simp [Visit.principal]) h

theorem services_of_step (h : a.step authenticates v = some a') :
    a'.services = a.services ∨ ∃ e, Causes v e ∧ Replays e a.services ∧ machine.step e a.services = some a'.services := by
  cases moves_of_step h with
  | serves hcauses hreplays _ hs => exact Or.inr ⟨_,hcauses,hreplays,hs⟩
  | _ => exact Or.inl rfl

theorem noOverflow_of_causes {e : Event} (hcauses : Causes v e) (hc : Counts v a) : Calls NoOverflow e a.services := by
  cases v with
  | thread i choice =>
    cases hcauses
    exact hc
  | login username password => cases hcauses
  | logout principal => cases hcauses
  | follow command => cases hcauses
  | _ =>
    cases hcauses
    trivial

/-- On the services a run of the application is one of theirs, and all that arrives there has been
asked for by a visit. -/
theorem services_of_reaches {vs : List Visit}
    (h : Runs.Reaches (WebApplication.step authenticates) Counts .empty vs a) :
    ∃ es, Runs.Reaches machine.step Publishes State.empty es a.services ∧ ∀ e ∈ es, ∃ v ∈ vs, Causes v e :=
  Runs.Reaches.simulates h fun _ _ _ hc hstep => (services_of_step hstep).imp_right fun ⟨e,hcauses,hreplays,hs⟩ =>
    ⟨e,hcauses,⟨hreplays,noOverflow_of_causes hcauses hc⟩,hs⟩

end Visits

section LoggedIn

variable {authenticates : UserDetailsWrapper → JString → Bool} {a a' : WebApplication} {v : Visit} {vs ws : List Visit}

def Visit.Registers (v : Visit) (user : User) : Prop := v = .register user ∨ v = .initializeUsers ∧ user = adminUser

/-- A user of this name has registered, and has logged in since with the password of the account. -/
def LoggedIn (vs : List Visit) (a : WebApplication) (username : JString) : Prop :=
  ∃ user password, user.username = username ∧ user.password = some password ∧ HasAccount a.services.world user ∧
    (∃ v ∈ vs, v.Registers user) ∧ .login username password ∈ vs

/-- What holds after the visits `vs`. -/
structure Serving (vs : List Visit) (a : WebApplication) : Prop where
  disciplined : Disciplined a.services
  voiced : Voiced a.services
  enrolling : Enrolling a.services
  jobs : ∀ user, Job.newUser user ∈ a.services.threads.map Prod.fst → ∃ v ∈ vs, v.Registers user
  accounts : ∀ username, a.services.world.store .users username ≠ [] →
    ∃ user, user.username = username ∧ HasAccount a.services.world user ∧ ∃ v ∈ vs, v.Registers user
  principals : ∀ username ∈ a.principals, LoggedIn vs a username
  queue : ∀ c ∈ a.queue, .follow c ∈ vs

theorem LoggedIn.mono {username : JString} (h : LoggedIn vs a username) (hsub : vs ⊆ ws)
    (hkeeps : ∀ user, HasAccount a.services.world user → HasAccount a'.services.world user) : LoggedIn ws a' username := by
  obtain ⟨user,password,huser,hpassword,haccount,⟨v,hv,hregisters⟩,hlogin⟩ := h
  exact ⟨user,password,huser,hpassword,hkeeps user haccount,⟨v,hsub hv,hregisters⟩,hsub hlogin⟩

theorem registers_of_causes {user : User} (h : Causes v (.start (.newUser user))) : v.Registers user := by
  cases v with
  | initializeUsers =>
    cases h
    exact Or.inr ⟨rfl,rfl⟩
  | register user' =>
    cases h
    exact Or.inl rfl
  | _ => cases h

theorem serving_services (hs : Serving vs a) (h : a.step authenticates v = some a') :
    Enrolling a'.services ∧ (∀ user, HasAccount a.services.world user → HasAccount a'.services.world user) ∧
      (∀ user, Job.newUser user ∈ a'.services.threads.map Prod.fst → ∃ u ∈ vs++[v], u.Registers user) ∧
      ∀ username, a'.services.world.store .users username ≠ [] →
        ∃ user, user.username = username ∧ HasAccount a'.services.world user ∧ ∃ u ∈ vs++[v], u.Registers user := by
  have hbefore {user : User} (h : ∃ u ∈ vs, u.Registers user) : ∃ u ∈ vs++[v], u.Registers user :=
    h.imp fun _ hu => ⟨List.mem_append_left _ hu.1,hu.2⟩
  rcases services_of_step h with heq | ⟨e,hcauses,hreplays,hstep⟩
  · rw [heq]
    refine ⟨hs.enrolling,fun _ h => h,fun user hjob => hbefore (hs.jobs user hjob),fun username hne => ?_⟩
    obtain ⟨user,huser,haccount,hregisters⟩ := hs.accounts username hne
    exact ⟨user,huser,haccount,hbefore hregisters⟩
  · have hkeeps (user : User) (h : HasAccount a.services.world user) : HasAccount a'.services.world user :=
      h.step hs.enrolling hstep
    refine ⟨enrolling_step hs.enrolling hreplays.arrives hstep,hkeeps,fun user hjob => ?_,fun username hne => ?_⟩
    · rcases job_of_step hs.disciplined hstep hjob with hjob | rfl | ⟨_,_,_,hjob⟩
      · exact hbefore (hs.jobs user hjob)
      · exact ⟨v,List.mem_append_right _ (List.mem_singleton.mpr rfl),registers_of_causes hcauses⟩
      · cases hjob
    · by_cases habsent : a.services.world.store .users username = []
      · obtain ⟨user,huser,haccount,hjob⟩ := hasAccount_of_step hs.enrolling hstep habsent hne
        exact ⟨user,huser,haccount,hbefore (hs.jobs user hjob)⟩
      · obtain ⟨user,huser,haccount,hregisters⟩ := hs.accounts username habsent
        exact ⟨user,huser,hkeeps user haccount,hbefore hregisters⟩

theorem serving_step (hprovider : ∀ details password, authenticates details password = true →
    details.getPassword = some password) (hs : Serving vs a) (h : a.step authenticates v = some a') :
    Serving (vs++[v]) a' := by
  obtain ⟨henrolling,hkeeps,hjobs,haccounts⟩ := serving_services hs h
  have hservices : Disciplined a'.services ∧ Voiced a'.services := by
    rcases services_of_step h with heq | ⟨e,_,hreplays,hstep⟩
    · rw [heq]
      exact ⟨hs.disciplined,hs.voiced⟩
    · exact ⟨disciplined_step hs.disciplined hreplays hstep,voiced_step hs.voiced hstep⟩
  have hsub : vs ⊆ vs++[v] := List.subset_append_left _ _
  have hlast : v ∈ vs++[v] := List.mem_append_right _ (List.mem_singleton.mpr rfl)
  refine ⟨hservices.1,hservices.2,henrolling,hjobs,haccounts,fun username hmem => ?_,fun c hmem => ?_⟩
  · have hbefore (hmem : username ∈ a.principals) : LoggedIn (vs++[v]) a' username :=
      (hs.principals username hmem).mono hsub hkeeps
    cases moves_of_step h with
    | @login name password _ details hread hauthenticates =>
      rcases List.mem_cons.mp hmem with rfl | hmem
      · have hne : a.services.world.store .users name ≠ [] := by
          intro habsent
          rw [read_loadUserByUsername_absent habsent] at hread
          cases hread
        obtain ⟨user,rfl,haccount,u,hu,hregisters⟩ := hs.accounts name hne
        rw [haccount.read] at hread
        cases hread
        exact ⟨user,password,rfl,hprovider _ _ hauthenticates,haccount,⟨u,hsub hu,hregisters⟩,hlast⟩
      · exact hbefore hmem
    | logout => exact hbefore (List.mem_of_mem_erase hmem)
    | _ => exact hbefore hmem
  · have hbefore (hmem : c ∈ a.queue) : Visit.follow c ∈ vs++[v] := hsub (hs.queue c hmem)
    cases moves_of_step h with
    | follow _ =>
      rcases List.mem_cons.mp hmem with rfl | hmem
      · exact hlast
      · exact hbefore hmem
    | _ => exact hbefore hmem

theorem serving_of_reaches (hprovider : ∀ details password, authenticates details password = true →
    details.getPassword = some password) (h : Runs.Reaches (WebApplication.step authenticates) Runs.anyStep .empty vs a) :
    Serving vs a := by
  induction h with
  | start =>
    refine ⟨issuing_empty.publishing.disciplined,issuing_empty.voiced,⟨issuing_empty.publishing.changing,?_⟩,?_,?_,?_,?_⟩ <;>
      simp [WebApplication.empty,State.empty]
  | next v _ _ hs ih => exact serving_step hprovider ih hs

/-- What was asked for stays asked for, and accounts stay. -/
theorem Serving.reaches (hprovider : ∀ details password, authenticates details password = true →
    details.getPassword = some password) (hs : Serving vs a)
    (h : Runs.Reaches (WebApplication.step authenticates) Runs.anyStep a ws a') :
    Serving (vs++ws) a' ∧ ∀ user, HasAccount a.services.world user → HasAccount a'.services.world user := by
  induction h with
  | start => exact ⟨by simpa using hs,fun _ h => h⟩
  | next v _ _ hstep ih =>
    rw [← List.append_assoc]
    exact ⟨serving_step hprovider ih.1 hstep,fun user h => (serving_services ih.1 hstep).2.1 user (ih.2 user h)⟩

/-- The visit is one of these, and whoever it is made for had logged in before. -/
def Requested (vs : List Visit) (a : WebApplication) (v : Visit) : Prop :=
  ∃ us ws, vs = us ++ v::ws ∧ ∀ principal ∈ v.principal, LoggedIn us a principal

theorem requested_of_mem (hprovider : ∀ details password, authenticates details password = true →
    details.getPassword = some password) (h : Runs.Reaches (WebApplication.step authenticates) Runs.anyStep .empty vs a)
    (hv : v ∈ vs) : Requested vs a v := by
  obtain ⟨us,ws,b,b',rfl,hus,_,hstep,hws⟩ := h.exists_step hv
  refine ⟨us,ws,rfl,fun principal hprincipal => ?_⟩
  have hs := serving_of_reaches hprovider hus
  have hkeeps (user : User) (haccount : HasAccount b.services.world user) : HasAccount a.services.world user :=
    ((serving_step hprovider hs hstep).reaches hprovider hws).2 user ((serving_services hs hstep).2.1 user haccount)
  have hmem : principal ∈ b.principals := by
    cases moves_of_step hstep with
    | stays hnone =>
      rw [hnone] at hprincipal
      cases hprincipal
    | serves _ _ hall _ => exact hall principal hprincipal
    | login _ _ => cases hprincipal
    | logout => cases hprincipal
    | follow hmem =>
      cases hprincipal
      exact hmem
  exact (hs.principals principal hmem).mono (List.Subset.refl _) hkeeps

theorem follow_of_execute (hprovider : ∀ details password, authenticates details password = true →
    details.getPassword = some password) (h : Runs.Reaches (WebApplication.step authenticates) Runs.anyStep .empty vs a)
    {c : FollowCommand} (hv : .execute c.command ∈ vs) : .follow c ∈ vs := by
  obtain ⟨us,ws,b,b',rfl,hus,_,hstep,_⟩ := h.exists_step hv
  have hs := serving_of_reaches hprovider hus
  simp only [WebApplication.step] at hstep
  split at hstep
  · rename_i hstored
    rcases hstored with hqueue | hissued
    · obtain ⟨c',hmem,hc'⟩ := List.mem_map.mp hqueue
      obtain rfl : c' = c := by
        cases c <;> cases c' <;> cases hc' <;> rfl
      exact List.mem_append_left _ (hs.queue c' hmem)
    · -- a `tweet` hands over nothing but its own command
      obtain ⟨call,hmem,hcall⟩ := List.mem_filterMap.mp hissued
      unfold issue at hcall
      split at hcall
      · rename_i c' _
        obtain rfl := (Prod.mk.inj (Option.some.inj hcall)).2
        obtain ⟨_,_,_,_,_,_,_,hc'⟩ := hs.voiced.calls _ hmem
        cases c <;> cases hc'
      · cases hcall
  · cases hstep

/-- Every entry of a timeline is that of a tweet that its author has asked for after logging in with
the password of the account, and the reader is the author, or has logged in and asked to follow him. -/
theorem entries_requested (authenticates : UserDetailsWrapper → JString → Bool)
    (hprovider : ∀ details password, authenticates details password = true → details.getPassword = some password)
    (vs : List Visit) (a : WebApplication)
    (h : Runs.Reaches (WebApplication.step authenticates) Counts .empty vs a) (reader : JString) (hreader : reader ≠ [])
    (e : JString) (he : e ∈ a.services.world.timeline reader) :
    ∃ author text tweetId tweetMap, (a.services.world.store .tweets).value tweetId = some tweetMap ∧
      e = entry tweetId tweetMap ∧ PostedBy author text none tweetId tweetMap ∧
      Requested vs a (.tweet author text) ∧ (reader = author ∨ ∃ follower, (reader = follower ∨ reader ∈ split ',' follower) ∧
        Requested vs a (.follow (.startFollowing follower author))) := by
  obtain ⟨es,hes,hcauses⟩ := services_of_reaches h
  obtain ⟨author,text,id,tweetId,tweetMap,hvalue,hentry,hposted,hjob,hmay⟩ := (signing_of_publishes hes).authors he
  have hstart := tweet_started (hes.mono fun _ _ hc => hc.1) hjob
  obtain ⟨v,hv,hcause⟩ := hcauses _ hstart
  have htweet : v = .tweet author text ∧ id = none := by
    cases v with
    | tweet principal text' =>
      cases hcause
      exact ⟨rfl,rfl⟩
    | _ => cases hcause
  obtain ⟨rfl,rfl⟩ := htweet
  refine ⟨author,text,tweetId,tweetMap,hvalue,hentry,hposted,requested_of_mem hprovider h.weaken hv,?_⟩
  rcases hmay with rfl | hempty | ⟨follower,hstarted,hfollower⟩
  · exact Or.inl rfl
  · exact absurd hempty hreader
  · obtain ⟨u,hu,hcause⟩ := hcauses _ hstarted
    have hexecute : u = .execute (.startFollowing follower author) := by
      cases u <;> cases hcause
      rfl
    subst hexecute
    have hfollow : Visit.follow (.startFollowing follower author) ∈ vs :=
      follow_of_execute hprovider h.weaken (c:=.startFollowing follower author) hu
    exact Or.inr ⟨follower,hfollower,requested_of_mem hprovider h.weaken hfollow⟩

def plaintext (details : UserDetailsWrapper) (password : JString) : Bool := details.getPassword = some password

theorem password_of_plaintext {details : UserDetailsWrapper} {password : JString} :
    plaintext details password = true ↔ details.getPassword = some password := decide_eq_true_iff

/-- Two users register and log in, one of them tweets, and the other one follows. -/
def visits : List Visit :=
  [.register ⟨['a'],some ['p'],none⟩,.thread 0 (.time 1),.thread 0 .go,
    .register ⟨['b'],some ['q'],none⟩,.thread 1 (.time 2),.thread 1 .go,.login ['a'] ['p'],.login ['b'] ['q'],
    .tweet ['a'] none,.thread 2 (.time 5),.thread 2 .go,.thread 2 .go,.thread 2 .go,
    .thread 2 (.stored true),.thread 2 .go,.thread 2 .go,.thread 2 (.order []),.thread 2 .go,.thread 2 .go,
    .follow (.startFollowing ['b'] ['a']),.execute (.startFollowing ['b'] ['a']),.thread 3 .go,
    .thread 3 (.order [['a']]),.thread 3 .go,.thread 3 .go,.thread 3 (.order [['b']]),.thread 3 .go,
    .thread 3 .go,.thread 3 .go,.thread 3 .go,.thread 3 .go]

theorem entries_requested_two_users : ∃ a : WebApplication,
    Runs.Reaches (WebApplication.step plaintext) Counts .empty visits a ∧ a.services.world.timeline ['b'] = [['a','-','1',':','5']] ∧
    ∃ author text tweetId tweetMap, (a.services.world.store .tweets).value tweetId = some tweetMap ∧
      ['a','-','1',':','5'] = entry tweetId tweetMap ∧ PostedBy author text none tweetId tweetMap ∧
      Requested visits a (.tweet author text) ∧ (['b'] = author ∨ ∃ follower, (['b'] = follower ∨ ['b'] ∈ split ',' follower) ∧
        Requested visits a (.follow (.startFollowing follower author))) := by
  have hrun : ((Runs.runIf (WebApplication.step plaintext) Counts visits .empty).map fun a =>
      a.services.world.timeline ['b']) = some [['a','-','1',':','5']] := by decide +kernel
  obtain ⟨a,ha,hp⟩ := Option.map_eq_some_iff.mp hrun
  have h := Runs.reaches_of_runIf .start ha
  refine ⟨a,h,hp,entries_requested plaintext (fun _ _ => password_of_plaintext.mp) visits a h ['b'] (by simp) _ ?_⟩
  simp [hp]

end LoggedIn

end TweetService
end Bigbird
