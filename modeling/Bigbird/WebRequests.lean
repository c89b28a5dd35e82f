import Bigbird.EntryFormat
import Bigbird.TweetOutcomes

/-! The requests to register and to tweet, and what is stored of them if they are not valid. -/
namespace Bigbird
namespace TweetService

open JavaText VersionedStore Programs

section Requests

/-- A `WebUser` as it is read from a body, which need not have all the fields. -/
structure RegisterRequest where
  username : Option JString
  password : Option JString
  name : Option JString
  deriving DecidableEq

structure TweetRequest where
  tweet : Option JString
  deriving DecidableEq

inductive Entity
  | text (s : JString)
  | tweet (t : Tweet)
  deriving DecidableEq

structure Response where
  status : ℕ
  entity : Option Entity := none
  deriving DecidableEq

/-- `StringUtils.isEmpty`. -/
def isEmpty (field : Option JString) : Bool := field.getD [] = []

def badRequest (text : String) : Response := ⟨400,some (.text text.toList)⟩

/-- A check of `register`; its response is built, and it is not returned. -/
def checkField (field : Option JString) (text : String) : Option Response :=
  if isEmpty field then some (badRequest text) else none

/-- `newUser` of the fields of a request. `putNull` is what the store's client does with a missing
key. -/
def RegisterRequest.newUser (putNull : Versioned UserMap → Client Bool) (req : RegisterRequest) : Client Unit :=
  match req.username with
  | some username => TweetService.newUser ⟨username,req.password,req.name⟩
  | none => do
    let created ← Prog.op Op.now
    let userMap : UserMap := {
      password := req.password, name := req.name
      created := some (decimal created), lastTweet := some (decimal 0) }
    let success ← applyUpdate (putNull ⟨userMap,0⟩)
    if success.isNone then .throw .alreadyExists

def registerResponse : Except Exn Unit → Client Response
  | .ok _ => .ret ⟨200,none⟩
  | .error .alreadyExists => .ret ⟨409,none⟩
  | .error e => .throw e

def tweetResponse : Except Exn Tweet → Client Response
  | .ok tweet => .ret ⟨200,some (.tweet tweet)⟩
  | .error .userNotFound => .ret ⟨401,none⟩
  | .error .backend => .ret ⟨500,none⟩
  | .error e => .throw e

/-- `register`; the first field that is asked for lets a missing body fail. -/
def WebTweetService.register (putNull : Versioned UserMap → Client Bool) (req : Option RegisterRequest) :
    Client Response := do
  let _ ← pure (if req.isNone then some (badRequest "request cannot be empty.") else none)
  let req ← orThrow .nullPointer req
  let _ ← pure (checkField req.username "Username cannot be empty.")
  let _ ← pure (checkField req.password "Password cannot be empty.")
  let _ ← pure (checkField req.name "Name cannot be empty.")
  Prog.andThen (req.newUser putNull) registerResponse

def WebTweetService.tweet (currentUser : JString) (req : Option TweetRequest) : Client Response := do
  let _ ← pure (if (req.bind (·.tweet)).isNone then some (badRequest "Tweet text cannot be empty.") else none)
  let req ← orThrow .nullPointer req
  Prog.andThen (TweetService.tweet currentUser req.tweet none) tweetResponse

/-- With a name in the request its status is that of `WebUser.register`. -/
theorem register_status (putNull : Versioned UserMap → Client Bool) (req : WebUser) :
    Response.status <$> WebTweetService.register putNull (some ⟨some req.username,req.password,req.name⟩) =
      WebUser.register (some req) := by
  change Prog.andThen (Prog.andThen (newUser ⟨req.username,req.password,req.name⟩) registerResponse) _ =
    Prog.andThen (newUser ⟨req.username,req.password,req.name⟩) _
  rw [Prog.andThen_assoc]
  congr 1
  funext r
  rcases r with e | ⟨⟩
  · cases e <;> rfl
  · rfl

end Requests

section Served

inductive WebRequest
  | register (req : Option RegisterRequest)
  | tweet (currentUser : JString) (req : Option TweetRequest)
  deriving DecidableEq

def WebRequest.serve (putNull : Versioned UserMap → Client Bool) : WebRequest → Client Response
  | .register req => WebTweetService.register putNull req
  | .tweet currentUser req => WebTweetService.tweet currentUser req

def WebRequest.Valid : WebRequest → Prop
  | .register none => False
  | .register (some req) => isEmpty req.username = false ∧ isEmpty req.password = false ∧ isEmpty req.name = false
  | .tweet _ none => False
  | .tweet _ (some req) => req.tweet.isSome

instance (r : WebRequest) : Decidable r.Valid := by
  unfold WebRequest.Valid
  split <;> infer_instance

def World.Queued (w : World) (tweetId : JString) (tweetMap : TweetMap) : Prop :=
  ∃ job userId, (job,⟨Op.storeRemotely (.tweet userId tweetId tweetMap),.ok true⟩) ∈ w.history

/-- What happens beside the requests: accounts are neither created nor changed, nothing is tweeted,
and what is stored under the ids of tweets are tweets that were queued. -/
structure Background (w w' : World) : Prop where
  grows : w.Grows w'
  accounts : ∀ key, ∀ x ∈ w'.store .users key, ∃ y ∈ w.store .users key, y.account = x.account
  queued : ∀ tweetId tweetMap, w'.Queued tweetId tweetMap → w.Queued tweetId tweetMap
  tweets : ∀ key, ∀ x ∈ w'.store .tweets key, x ∈ w.store .tweets key ∨ w.Queued key x

theorem Background.refl (w : World) : Background w w :=
  ⟨World.Grows.refl w,fun _ x hx => ⟨x,hx,rfl⟩,fun _ _ h => h,fun _ _ hx => Or.inl hx⟩

/-- Requests that are served one after the other, each with its response and its calls. -/
inductive Serves (putNull : Versioned UserMap → Client Bool) :
    World → List (WebRequest × Except Exn Response × CallTrace) → World → Prop
  | done {w w' : World} : Background w w' → Serves putNull w [] w'
  | request {req : WebRequest} {job : Job} {w w₁ w' : World} {r : Except Exn Response} {tr : CallTrace}
      {rest : List (WebRequest × Except Exn Response × CallTrace)} :
      (req.serve putNull).Ends (exec job) Background w tr r w₁ → Serves putNull w₁ rest w' →
      Serves putNull w ((req,r,tr)::rest) w'

/-- The response is 400, and no call has stored anything. -/
def Rejected (r : Except Exn Response) (tr : CallTrace) : Prop :=
  (∃ entity, r = .ok ⟨400,entity⟩) ∧ ∀ c ∈ tr, c.2.1.applies c.2.2 c.1 = none

def UserMap.Filled (x : UserMap) : Prop :=
  isEmpty x.username = false ∧ isEmpty x.password = false ∧ isEmpty x.name = false

instance (x : UserMap) : Decidable x.Filled := by
  unfold UserMap.Filled
  infer_instance

/-- The accounts that were created since `w₀` have all their fields, and the tweets that were
posted have a text, those that are still queued too. -/
structure FilledSince (w₀ w : World) : Prop where
  accounts : ∀ key, w₀.store .users key = [] → ∀ x ∈ w.store .users key, x.Filled
  queued : ∀ tweetId tweetMap, w.Queued tweetId tweetMap → w₀.Queued tweetId tweetMap ∨ tweetMap.text.isSome
  tweets : ∀ key, ∀ x ∈ w.store .tweets key, x ∈ w₀.store .tweets key ∨ w₀.Queued key x ∨ x.text.isSome

end Served

section Others

variable {w w' w'' : World} {job : Job}

theorem mem_write {w : World} {n n' : StoreName} {key key' : JString} {v : Val n} {x : Val n'}
    (hx : x ∈ (w.write n key v) n' key') : x ∈ w.store n' key' ∨ ∃ heq : n = n', key' = key ∧ x = heq ▸ v := by
  by_cases hn : n = n'
  · subst hn
    by_cases hkey : key' = key
    · subst hkey
      rw [World.write,Function.update_self,Store.write_self] at hx
      rcases List.mem_cons.mp hx with rfl | hx
      · exact Or.inr ⟨rfl,rfl,rfl⟩
      · exact Or.inl hx
    · rw [World.write,Function.update_self,Store.write_of_ne _ _ hkey] at hx
      exact Or.inl hx
  · rw [World.write,Function.update_of_ne (Ne.symm hn)] at hx
    exact Or.inl hx

theorem Background.trans (h : Background w w') (h' : Background w' w'') : Background w w'' := by
  refine ⟨h.grows.trans h'.grows,fun key x hx => ?_,fun _ _ hq => h.queued _ _ (h'.queued _ _ hq),fun key x hx => ?_⟩
  · obtain ⟨y,hy,hxy⟩ := h'.accounts key x hx
    obtain ⟨z,hz,hyz⟩ := h.accounts key y hy
    exact ⟨z,hz,hyz.trans hxy⟩
  · rcases h'.tweets key x hx with hx | hqueued
    · exact h.tweets key x hx
    · exact Or.inr (h.queued key x hqueued)

theorem World.Grows.queued (h : w.Grows w') {tweetId : JString} {tweetMap : TweetMap} (hq : w.Queued tweetId tweetMap) :
    w'.Queued tweetId tweetMap := by
  obtain ⟨job,userId,hmem⟩ := hq
  exact ⟨job,userId,h.history.subset hmem⟩

def Spreads (w : World) (key : JString) : (n : StoreName) → Val n → Prop
  | .users, x => ∃ y ∈ w.store .users key, y.account = x.account
  | .tweets, x => w.Queued key x
  | .friendsTimeline, _ => True

theorem background_exec {op : Op} {choice : Choice} {r : Except Exn op.Res} {new : Option Job}
    (hexec : exec job op choice w = some (r,w',new)) (hop : ∀ command, op ≠ .storeRemotely command)
    (hspreads : ∀ n key x, op.written r = some ⟨n,key,x⟩ → Spreads w key n x.value) : Background w w' := by
  have hqueued (tweetId : JString) (tweetMap : TweetMap) (hq : w'.Queued tweetId tweetMap) : w.Queued tweetId tweetMap := by
    obtain ⟨job',userId,hmem⟩ := hq
    rw [exec_history hexec] at hmem
    rcases List.mem_cons.mp hmem with heq | hmem
    · cases heq
      exact absurd rfl (hop _)
    · exact ⟨job',userId,hmem⟩
  rcases (exec_cases hexec).2 with ⟨_,rfl⟩ | ⟨n,key,x,hwritten,_,rfl⟩
  · exact ⟨exec_grows hexec,fun _ x hx => ⟨x,hx,rfl⟩,hqueued,fun _ _ hx => Or.inl hx⟩
  · have hx := hspreads n key x hwritten
    refine ⟨exec_grows hexec,fun key' y hy => ?_,hqueued,fun key' y hy => ?_⟩
    · rcases mem_write hy with hy | ⟨rfl,rfl,rfl⟩
      · exact ⟨y,hy,rfl⟩
      · exact hx
    · rcases mem_write hy with hy | ⟨rfl,rfl,rfl⟩
      · exact Or.inl hy
      · exact Or.inr hx

/-- A command that was queued before is background when the queue runs it. -/
theorem background_tweetCommand {userId tweetId : JString} {tweetMap : TweetMap} (hq : w.Queued tweetId tweetMap)
    {tr : CallTrace} {r : Except Exn Unit}
    (h : (tweetCommand userId tweetId tweetMap).Ends (exec job) Background w tr r w') : Background w w' := by
  let P (op : Op) : Prop := (∀ command, op ≠ .storeRemotely command) ∧ ∀ w' r n key x, Background w w' →
    op.written r = some ⟨n,key,x⟩ → Spreads w' key n x.value
  have hp : (tweetCommand userId tweetId tweetMap).All P := by
    refine all_tweetCommand userId tweetId tweetMap ⟨by simp,?_⟩ (fun set => ⟨by simp,by simp [Op.written]⟩)
      (fun user => ⟨by simp,by simp [Op.written]⟩) fun op hop => ⟨?_,?_⟩
    · intro w' r n key x henv hwritten
      cases r with
      | error e => simp [Op.written] at hwritten
      | ok a =>
        cases hwritten
        exact henv.grows.queued hq
    · rintro command rfl
      exact hop
    · intro w' r n key x _ hwritten
      obtain rfl := hop.only.written hwritten
      trivial
  refine hp.keeps (fun w₁ w₂ henv hw => hw.trans henv) (fun op choice w₁ r w₂ new hop hexec hw => ?_) _ _ _ _ h
    (Background.refl w)
  exact hw.trans (background_exec hexec hop.1 fun n key x hwritten => hop.2 w₁ r n key x hw hwritten)

end Others

section Filled

variable {w₀ w w' : World} {job : Job} {putNull : Versioned UserMap → Client Bool}

theorem UserMap.Filled.of_account {x y : UserMap} (h : x.Filled) (haccount : x.account = y.account) : y.Filled := by
  simp only [UserMap.account,Prod.mk.injEq] at haccount
  obtain ⟨husername,hpassword,hname,_⟩ := haccount
  rw [UserMap.Filled,← husername,← hpassword,← hname]
  exact h

theorem filledSince_refl (w : World) : FilledSince w w :=
  ⟨fun key hnil x hx => by simp [hnil] at hx,fun _ _ h => Or.inl h,fun _ _ hx => Or.inl hx⟩

theorem FilledSince.background (h : FilledSince w₀ w) (henv : Background w w') : FilledSince w₀ w' := by
  refine ⟨fun key hnil x hx => ?_,fun tweetId tweetMap hqueued => ?_,fun key x hx => ?_⟩
  · obtain ⟨y,hy,haccount⟩ := henv.accounts key x hx
    exact (h.accounts key hnil y hy).of_account haccount
  · exact h.queued tweetId tweetMap (henv.queued tweetId tweetMap hqueued)
  · rcases henv.tweets key x hx with hx | hqueued
    · exact h.tweets key x hx
    · exact Or.inr (h.queued key x hqueued)

def Fills (w : World) (key : JString) : (n : StoreName) → Val n → Prop
  | .users, x => x.Filled ∨ ∃ y ∈ w.store .users key, y.account = x.account
  | .tweets, x => x.text.isSome
  | .friendsTimeline, _ => True

def QueuesText : Op → Prop
  | .storeRemotely (.tweet _ _ tweetMap) => tweetMap.text.isSome
  | _ => True

theorem queued_logs {store : (n : StoreName) → Store JString (Val n)} {op : Op} {r : Except Exn op.Res}
    {tweetId : JString} {tweetMap : TweetMap} (hop : QueuesText op)
    (h : World.Queued ⟨store,(job,⟨op,r⟩)::w.history⟩ tweetId tweetMap) :
    w.Queued tweetId tweetMap ∨ tweetMap.text.isSome := by
  obtain ⟨job',userId,hmem⟩ := h
  rcases List.mem_cons.mp hmem with heq | hmem
  · cases heq
    exact Or.inr hop
  · exact Or.inl ⟨job',userId,hmem⟩

theorem FilledSince.log (h : FilledSince w₀ w) {op : Op} (hop : QueuesText op) (r : Except Exn op.Res) :
    FilledSince w₀ (w.log job op r) := by
  refine ⟨h.accounts,fun tweetId tweetMap hqueued => ?_,h.tweets⟩
  rcases queued_logs hop hqueued with hqueued | htext
  · exact h.queued tweetId tweetMap hqueued
  · exact Or.inr htext

theorem FilledSince.logWrite (h : FilledSince w₀ w) {op : Op} (hop : QueuesText op) (r : Except Exn op.Res)
    {n : StoreName} {key : JString} {v : Val n} (hv : Fills w key n v) :
    FilledSince w₀ (w.logWrite job op r n key v) := by
  have hlog : FilledSince w₀ (w.log job op r) := h.log hop r
  refine ⟨fun key' hnil x hx => ?_,hlog.queued,fun key' x hx => ?_⟩
  · rcases mem_write hx with hx | ⟨rfl,rfl,rfl⟩
    · exact h.accounts key' hnil x hx
    · rcases hv with hfilled | ⟨y,hy,haccount⟩
      · exact hfilled
      · exact (h.accounts key' hnil y hy).of_account haccount
  · rcases mem_write hx with hx | ⟨rfl,rfl,rfl⟩
    · exact h.tweets key' x hx
    · exact Or.inr (Or.inr hv)

theorem FilledSince.exec (h : FilledSince w₀ w) {op : Op} {choice : Choice} {r : Except Exn op.Res} {new : Option Job}
    (hexec : exec job op choice w = some (r,w',new)) (hop : QueuesText op)
    (hfills : ∀ n key x, op.written r = some ⟨n,key,x⟩ → x.version = (w.store n key).length → Fills w key n x.value) :
    FilledSince w₀ w' := by
  rcases (exec_cases hexec).2 with ⟨_,rfl⟩ | ⟨n,key,x,hwritten,hversion,rfl⟩
  · exact h.log hop r
  · exact h.logWrite hop r (hfills n key x hwritten hversion)

def FillCall : Op → Prop
  | .put n key x => ∀ w, Fills w key n x.value
  | .putIfNotObsolete n key x => ∀ w, Fills w key n x.value
  | op => QueuesText op

theorem FillCall.queuesText {op : Op} (h : FillCall op) : QueuesText op := by
  cases op <;> trivial

theorem FillCall.fills {op : Op} (h : FillCall op) {r : Except Exn op.Res} {n : StoreName} {key : JString}
    {x : Versioned (Val n)} (hwritten : op.written r = some ⟨n,key,x⟩) (w : World) : Fills w key n x.value := by
  unfold Op.written at hwritten
  split at hwritten
  · cases hwritten
    exact h w
  · cases hwritten
    exact h w
  · cases hwritten

theorem keeps_of_all {α : Type} {p : Client α} (hp : p.All FillCall) :
    p.Keeps (exec job) Background (FilledSince w₀) := by
  refine hp.keeps (fun w w' henv hw => hw.background henv) fun op choice w r w' new hop hexec hw => ?_
  exact hw.exec hexec hop.queuesText fun n key x hwritten _ => hop.fills hwritten w

theorem TimelineCall.fillCall (op : Op) (h : TimelineCall op) : FillCall op := by
  cases op <;> simp only [TimelineCall] at h <;> first | trivial | (subst h; exact fun _ => trivial)

theorem keeps_newUser {user : User} (hfilled : isEmpty (some user.username) = false ∧ isEmpty user.password = false ∧
    isEmpty user.name = false) : (newUser user).Keeps (exec job) Background (FilledSince w₀) := by
  refine keeps_of_all ((Prog.All.op (show FillCall .now from trivial)).bind fun created => ?_)
  refine Prog.All.bind (Prog.All.retry ?_ 3) fun success => ?_
  · exact Prog.All.op fun _ => Or.inl hfilled
  · cases success <;> trivial

theorem keeps_execute {userId tweetId : JString} {tweetMap : TweetMap} (htext : tweetMap.text.isSome) :
    (Command.tweet userId tweetId tweetMap).execute.Keeps (exec job) Background (FilledSince w₀) := by
  refine keeps_of_all (Prog.All.bind (Prog.All.retry ?_ 3) fun _ => Prog.All.pure)
  exact all_tweetCommand userId tweetId tweetMap (fun _ => htext) (fun _ => trivial) (fun _ => trivial)
    TimelineCall.fillCall

theorem keeps_tweetUpdate {userId : JString} {tweetMap : TweetMap} (htext : tweetMap.text.isSome) :
    (tweetUpdate userId tweetMap).Keeps (exec job) Background (FilledSince w₀) := by
  have hsubmit (tweetId : JString) : (addTweet userId tweetId tweetMap).Keeps (exec job) Background (FilledSince w₀) := by
    refine (keeps_of_all (Prog.All.op (show FillCall (.storeRemotely (.tweet userId tweetId tweetMap)) from htext))).bind fun stored => ?_
    cases stored with
    | false => exact .throw
    | true => exact (keeps_execute htext).bind fun _ => .ret
  intro w tr r w' h hw
  obtain ⟨w₁,choice,answer,w₂,new,tr₁,henv,hexec,rfl,hrest⟩ := Prog.Ends.of_op_bind h
  have hw₂ : FilledSince w₀ w₂ := (hw.background henv).exec hexec trivial fun _ _ _ hwritten => by simp [Op.written] at hwritten
  rcases exec_get_cases hexec with ⟨rfl,rfl⟩ | ⟨rfl,rfl⟩
  · cases hx : (w₁.store .users).get userId with
    | none =>
      rw [hx] at hrest
      cases hrest
      exact hw₂
    | some x =>
      rw [hx] at hrest
      change Prog.Ends _ _ (orThrow .numberFormat (parseInt x.value.lastTweet) >>= _) _ _ _ _ at hrest
      cases hn : parseInt x.value.lastTweet with
      | none =>
        rw [hn] at hrest
        cases hrest
        exact hw₂
      | some n =>
        let x' : Versioned UserMap := ⟨{ x.value with lastTweet := some (decimal (wrap 32 (n+1))) },x.version⟩
        rw [hn] at hrest
        change Prog.Ends _ _ (put .users userId x' >>= fun _ =>
          addTweet userId (tweetKey userId (wrap 32 (n+1))) tweetMap) _ _ _ _ at hrest
        obtain ⟨w₃,choice',answer',w₄,new',tr₂,henv',hexec',rfl,hrest'⟩ := Prog.Ends.of_op_bind hrest
        have hgrows : w₁.Grows w₃ := (exec_grows hexec).trans henv'.grows
        have hw₄ : FilledSince w₀ w₄ := by
          refine (hw₂.background henv').exec hexec' trivial fun n' key v hwritten hversion => ?_
          cases answer' with
          | error e => simp [Op.written] at hwritten
          | ok a =>
            cases hwritten
            have hvalue := value_of_get hx hgrows hversion
            obtain ⟨vs,hvs⟩ := Store.value_eq_some.mp hvalue
            exact Or.inr ⟨x.value,by rw [hvs]; exact List.mem_cons_self,rfl⟩
        cases answer' with
        | error e =>
          cases hrest'
          exact hw₄
        | ok a => exact hsubmit _ _ _ _ _ hrest' hw₄
  · cases hrest
    exact hw₂

theorem keeps_tweet {userId : JString} {text id : Option JString} (htext : text.isSome) :
    (tweet userId text id).Keeps (exec job) Background (FilledSince w₀) := by
  have hget : FillCall (.get .users userId) := trivial
  refine (keeps_of_all (Prog.All.op (show FillCall .now from trivial))).bind fun date => ?_
  refine (keeps_of_all (Prog.All.op hget)).bind fun x => ?_
  refine (keeps_of_all (all_orThrow .userNotFound x)).bind fun _ => ?_
  refine ((keeps_tweetUpdate (by exact htext)).retry 3).bind fun success => ?_
  exact (keeps_of_all (all_orThrow .backend success)).bind fun _ => .ret

theorem keeps_serve {req : WebRequest} (hvalid : req.Valid) :
    (req.serve putNull).Keeps (exec job) Background (FilledSince w₀) := by
  cases req with
  | register req =>
    cases req with
    | none => exact hvalid.elim
    | some req =>
      obtain ⟨username,password,name⟩ := req
      cases username with
      | none => simp [WebRequest.Valid,isEmpty] at hvalid
      | some username =>
        refine Prog.Keeps.andThen (p:=newUser ⟨username,password,name⟩) (keeps_newUser hvalid) fun r => ?_
        rcases r with e | ⟨⟩
        · cases e <;> first | exact .ret | exact .throw
        · exact .ret
  | tweet currentUser req =>
    cases req with
    | none => exact hvalid.elim
    | some req =>
      refine Prog.Keeps.andThen (p:=TweetService.tweet currentUser req.tweet none) (keeps_tweet hvalid) fun r => ?_
      rcases r with e | tweet
      · cases e <;> first | exact .ret | exact .throw
      · exact .ret

end Filled

section Responses

variable {job : Job} {putNull : Versioned UserMap → Client Bool}

theorem register_not_400 {r : Except Exn Unit} {w w' : World} {tr : CallTrace} {entity : Option Entity} :
    ¬ (registerResponse r).Ends (exec job) Background w tr (.ok ⟨400,entity⟩) w' := by
  intro h
  rcases r with e | ⟨⟩
  · cases e <;> cases h
  · cases h

theorem tweet_not_400 {r : Except Exn Tweet} {w w' : World} {tr : CallTrace} {entity : Option Entity} :
    ¬ (tweetResponse r).Ends (exec job) Background w tr (.ok ⟨400,entity⟩) w' := by
  intro h
  rcases r with e | tweet
  · cases e <;> cases h
  · cases h

/-- No request is answered with the response that the checks build. -/
theorem serve_not_400 {req : WebRequest} {w w' : World} {tr : CallTrace} {entity : Option Entity} :
    ¬ (req.serve putNull).Ends (exec job) Background w tr (.ok ⟨400,entity⟩) w' := by
  intro h
  cases req with
  | register req =>
    cases req with
    | none => cases h
    | some req =>
      obtain ⟨_,_,_,_,_,_,hresponse⟩ := Prog.Ends.of_andThen (f:=registerResponse) h
      exact register_not_400 hresponse
  | tweet currentUser req =>
    cases req with
    | none => cases h
    | some req =>
      obtain ⟨_,_,_,_,_,_,hresponse⟩ := Prog.Ends.of_andThen (f:=tweetResponse) h
      exact tweet_not_400 hresponse

end Responses

section Runs

variable {putNull : Versioned UserMap → Client Bool} {w₀ w w' : World}
  {served : List (WebRequest × Except Exn Response × CallTrace)}

theorem FilledSince.serves (hvalid : ∀ s ∈ served, s.1.Valid) (h : Serves putNull w served w')
    (hw : FilledSince w₀ w) : FilledSince w₀ w' := by
  induction h with
  | done henv => exact hw.background henv
  | request hends _ ih =>
    obtain ⟨hreq,hrest⟩ := List.forall_mem_cons.mp hvalid
    exact ih hrest (keeps_serve hreq _ _ _ _ hends hw)

theorem not_rejected (h : Serves putNull w served w') : ∀ s ∈ served, ¬ Rejected s.2.1 s.2.2 := by
  induction h with
  | done => simp
  | request hends _ ih =>
    refine List.forall_mem_cons.mpr ⟨?_,ih⟩
    rintro ⟨⟨entity,rfl⟩,_⟩
    exact serve_not_400 hends

/-- The invalid requests of a sequence are rejected, and all that the sequence stores has its
fields, exactly if none of them is invalid. -/
theorem served_filled_iff (h : Serves putNull w served w') :
    (∀ s ∈ served, ¬ s.1.Valid → Rejected s.2.1 s.2.2) ∧ FilledSince w w' ↔ ∀ s ∈ served, s.1.Valid := by
  constructor
  · rintro ⟨hrejected,_⟩ s hs
    by_contra hvalid
    exact not_rejected h s hs (hrejected s hs hvalid)
  · exact fun hvalid => ⟨fun s hs hinvalid => absurd (hvalid s hs) hinvalid,
      FilledSince.serves hvalid h (filledSince_refl w)⟩

/-- `a` registers, and then he tweets. -/
theorem served_filled_a : ∃ tr tr' w', FilledSince ⟨fun _ _ => [],[]⟩ w' ∧ Serves (fun _ => .throw .runtime)
    ⟨fun _ _ => [],[]⟩ [(.register (some ⟨some ['a'],some ['p'],some ['n']⟩),.ok ⟨200,none⟩,tr),
      (.tweet ['a'] (some ⟨some ['h','i']⟩),
        .ok ⟨200,some (.tweet ⟨5,some ['h','i'],some ['a'],some ['a','-','1']⟩)⟩,tr')] w' := by
  have hrun : (((WebRequest.register (some ⟨some ['a'],some ['p'],some ['n']⟩)).serve fun _ => .throw .runtime).alone
      (exec (.newUser ⟨['a'],some ['p'],some ['n']⟩)) [.time 0,.go] ⟨fun _ _ => [],[]⟩).bind (fun x =>
        (((WebRequest.tweet ['a'] (some ⟨some ['h','i']⟩)).serve fun _ => .throw .runtime).alone
          (exec (.tweet ['a'] (some ['h','i']) none))
          [.time 5,.go,.go,.go,.stored true,.go,.go,.order [],.go,.go] x.2.2).map fun y =>
            (x.2.1.toOption,y.2.1.toOption)) = some (some ⟨200,none⟩,
        some ⟨200,some (.tweet ⟨5,some ['h','i'],some ['a'],some ['a','-','1']⟩)⟩) := by decide +kernel
  obtain ⟨⟨tr,r,w⟩,h,hrun⟩ := Option.bind_eq_some_iff.mp hrun
  obtain ⟨⟨tr',r',w'⟩,h',hrun⟩ := Option.map_eq_some_iff.mp hrun
  obtain ⟨hr,hr'⟩ := Prod.mk.inj hrun
  cases r with
  | error e => cases hr
  | ok a => cases r' with
    | error e => cases hr'
    | ok b =>
      cases hr
      cases hr'
      have hserves := Serves.request (Prog.ends_of_alone Background.refl h)
        (Serves.request (Prog.ends_of_alone Background.refl h') (.done (Background.refl w')))
      exact ⟨tr,tr',w',((served_filled_iff hserves).mpr (by simp [WebRequest.Valid,isEmpty])).2,hserves⟩

/-- `a` registers without a password and with an empty name. -/
theorem served_unfilled : ¬ ∀ putNull w served w', Serves putNull w served w' →
    (∀ s ∈ served, ¬ s.1.Valid → Rejected s.2.1 s.2.2) ∧ FilledSince w w' := by
  intro hall
  have hrun : (((WebRequest.register (some ⟨some ['a'],none,some []⟩)).serve fun _ => .throw .runtime).alone
      (exec (.newUser ⟨['a'],none,some []⟩)) [.time 0,.go] ⟨fun _ _ => [],[]⟩).map (fun x => x.2.2.store .users ['a']) =
        some [newUserMap ⟨['a'],none,some []⟩ 0] := by decide +kernel
  obtain ⟨⟨tr,r,w'⟩,h,hstored⟩ := Option.map_eq_some_iff.mp hrun
  obtain ⟨_,hfilled⟩ := hall _ _ _ _ (Serves.request (Prog.ends_of_alone Background.refl h) (.done (Background.refl w')))
  have hx : newUserMap ⟨['a'],none,some []⟩ 0 ∈ w'.store .users ['a'] := hstored ▸ List.mem_cons_self
  have hmap := hfilled.accounts ['a'] rfl _ hx
  simp [UserMap.Filled,newUserMap,isEmpty] at hmap

end Runs

end TweetService
end Bigbird
