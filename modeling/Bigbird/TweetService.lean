import Bigbird.JavaText
import Bigbird.Programs
import Bigbird.VersionedStore

/-! `VoldemortTweetService`, `VoldemortUserService` and the commands they queue, as programs
that access the stores `users`, `tweets` and `friendsTimeline` one call at a time. -/
namespace Bigbird
namespace TweetService

open JavaText VersionedStore Programs

/-- The map of a user; `none` is a key that the map does not have. -/
structure UserMap where
  username : Option JString := none
  password : Option JString := none
  name : Option JString := none
  created : Option JString := none
  lastTweet : Option JString := none
  following : Option JString := none
  followers : Option JString := none
  deriving DecidableEq

structure TweetMap where
  date : Option JString := none
  text : Option JString := none
  user : Option JString := none
  id : Option JString := none
  deriving DecidableEq

/-- `User`; the service fills in `created`. -/
structure User where
  username : JString
  password : Option JString
  name : Option JString
  deriving DecidableEq

structure Tweet where
  date : ℤ := 0
  text : Option JString := none
  user : Option JString := none
  id : Option JString := none
  deriving DecidableEq

inductive StoreName
  | users | tweets | friendsTimeline
  deriving DecidableEq

abbrev Val : StoreName → Type
  | .users => UserMap
  | .tweets => TweetMap
  | .friendsTimeline => List JString

inductive Command
  | tweet (userId tweetId : JString) (tweetMap : TweetMap)
  | startFollowing (userId toStartUser : JString)
  | stopFollowing (userId toStopUser : JString)
  deriving DecidableEq

/-- What threads run: calls of the two services, commands of the queue, and the tasks that a
`TweetCommand` hands to the executor. -/
inductive Job
  | newUser (user : User)
  | tweet (userId : JString) (text id : Option JString)
  | execute (command : Command)
  | updateTimeline (tweetId : JString) (tweetMap : TweetMap) (follower : JString)
  deriving DecidableEq

inductive Exn
  | obsoleteVersion | alreadyExists | userNotFound | notFound | backend | runtime | numberFormat
  | nullPointer | indexOutOfBounds | store
  deriving DecidableEq

/-- The accesses to a store; `storeRemotely`, which is true if the queue has stored the
command; the time; the order in which a `HashSet` is iterated; and `Executor.execute`. -/
inductive Op
  | get (n : StoreName) (key : JString)
  | put (n : StoreName) (key : JString) (x : Versioned (Val n))
  | putIfNotObsolete (n : StoreName) (key : JString) (x : Versioned (Val n))
  | storeRemotely (command : Command)
  | now
  | iterator (set : List JString)
  | submit (task : Job)

abbrev Op.Res : Op → Type
  | .get n _ => Option (Versioned (Val n))
  | .put _ _ _ => Unit
  | .putIfNotObsolete _ _ _ => Bool
  | .storeRemotely _ => Bool
  | .now => ℤ
  | .iterator _ => List JString
  | .submit _ => Unit

abbrev Client := Prog Op Op.Res Exn

/-- Every call that was answered, newest first, with the thread's job. -/
abbrev History := List (Job × (op : Op) × Except Exn op.Res)

structure World where
  store : (n : StoreName) → Store JString (Val n)
  history : History

/-- How a call is answered; `fails` is a store that does not respond or an executor that
rejects the task. -/
inductive Choice
  | go
  | fails
  | stored (success : Bool)
  | time (date : ℤ)
  | order (l : List JString)
  deriving DecidableEq

def World.write (w : World) (n : StoreName) (key : JString) (v : Val n) :
    (n : StoreName) → Store JString (Val n) :=
  Function.update w.store n ((w.store n).write key v)

def Op.answer (w : World) : (op : Op) → Choice →
    Option (Except Exn op.Res × ((n : StoreName) → Store JString (Val n)))
  | .get n key, .go => some (.ok ((w.store n).get key),w.store)
  | .put n key x, .go => some
    (if x.version = (w.store n key).length then (.ok (),w.write n key x.value)
      else (.error .obsoleteVersion,w.store))
  | .putIfNotObsolete n key x, .go => some
    (if x.version = (w.store n key).length then (.ok true,w.write n key x.value)
      else (.ok false,w.store))
  | .storeRemotely _, .stored success => some (.ok success,w.store)
  | .now, .time date => if -2^63 ≤ date ∧ date < 2^63 then some (.ok date,w.store) else none
  | .iterator set, .order l => if l.Perm set then some (.ok l,w.store) else none
  | .submit _, .go => some (.ok (),w.store)
  | .get _ _, .fails => some (.error .store,w.store)
  | .put _ _ _, .fails => some (.error .store,w.store)
  | .putIfNotObsolete _ _ _, .fails => some (.error .store,w.store)
  | .submit _, .fails => some (.error .store,w.store)
  | _, _ => none

def Op.task : Op → Except Exn α → Option Job
  | .submit task, .ok _ => some task
  | _, _ => none

def exec (job : Job) (op : Op) (choice : Choice) (w : World) :
    Option (Except Exn op.Res × World × Option Job) :=
  (op.answer w choice).map fun (r,store) => (r,⟨store,(job,⟨op,r⟩)::w.history⟩,op.task r)

def get (n : StoreName) (key : JString) : Client (Option (Versioned (Val n))) := Prog.op (Op.get n key)

def getValue (n : StoreName) (key : JString) : Client (Option (Val n)) := do
  let x ← get n key
  return x.map (·.value)

def put (n : StoreName) (key : JString) (x : Versioned (Val n)) : Client Unit := Prog.op (Op.put n key x)

def putIfNotObsolete (n : StoreName) (key : JString) (x : Versioned (Val n)) : Client Bool :=
  Prog.op (Op.putIfNotObsolete n key x)

def iterator (set : List JString) : Client (List JString) := Prog.op (Op.iterator set)

/-- Three attempts, as long as they end in an `ObsoleteVersionException`; `none` is the
result `false`. -/
def applyUpdate {α : Type} (action : Client α) : Client (Option α) :=
  action.retry (· = .obsoleteVersion) 3

def orThrow {α : Type} (e : Exn) : Option α → Client α
  | some a => .ret a
  | none => .throw e

def asSet : Option JString → List JString
  | none => []
  | some s => (split ',' s).dedup

/-- `toString` of a set, in the order of its iterator. -/
def toString (followers : List JString) : JString :=
  followers.foldl (fun sb s => (if 0 < sb.length then sb ++ [','] else sb) ++ s) []

def tweetKey (userId : JString) (n : ℤ) : JString := userId ++ '-'::decimal n

def parseInt (s : Option JString) : Option ℤ := s.bind (parse 32)

def parseLong (s : Option JString) : Option ℤ := s.bind (parse 64)

/-- The date in an entry of a timeline. -/
def timelineDate (entry : JString) : Except Exn ℤ :=
  match split ':' entry with
  | _::date::_ => match parse 64 date with
    | some d => .ok d
    | none => .error .numberFormat
  | _ => .error .indexOutOfBounds

def liftExcept {α : Type} : Except Exn α → Client α
  | .ok a => .ret a
  | .error e => .throw e

section TweetCommand

/-- The loop of `insertTweet`, which compares with the first entry each time; `n` entries
are left. -/
def insertTweetLoop (timelineId : JString) (date : ℤ) (timelineList : List JString) :
    ℕ → ℕ → Except Exn (List JString)
  | 0, _ => .ok (timelineList ++ [timelineId])
  | n+1, i => match timelineList with
    | [] => .error .indexOutOfBounds
    | id::_ => match timelineDate id with
      | .error e => .error e
      | .ok d =>
        if d < date then .ok (timelineList.insertIdx i timelineId)
        else insertTweetLoop timelineId date timelineList n (i+1)

def insertTweet (tweetId : JString) (tweetMap : TweetMap) (timeline : List JString) :
    Except Exn (List JString) :=
  match tweetMap.date with
  | none => .error .numberFormat
  | some dateStr => match parse 64 dateStr with
    | none => .error .numberFormat
    | some date => insertTweetLoop (tweetId ++ ':'::dateStr) date timeline timeline.length 0

def updateTimeline (tweetId : JString) (tweetMap : TweetMap) (user : JString) : Client Unit := do
  let x ← get .friendsTimeline user
  let timeline := x.getD ⟨[],0⟩
  let list ← liftExcept (insertTweet tweetId tweetMap timeline.value)
  put .friendsTimeline user ⟨list,timeline.version⟩

def submitAll (tweetId : JString) (tweetMap : TweetMap) : List JString → Client Unit
  | [] => .ret ()
  | follower::followers => do
    Prog.op (Op.submit (.updateTimeline tweetId tweetMap follower))
    submitAll tweetId tweetMap followers

/-- `TweetCommand.execute`. The wait for the tasks at its end accesses no store and is
over after `asyncTimeout` at the latest. -/
def tweetCommand (userId tweetId : JString) (tweetMap : TweetMap) : Client Unit := do
  put .tweets tweetId ⟨tweetMap,0⟩
  match ← getValue .users userId with
  | none => .ret ()
  | some user =>
    let followers ← iterator (asSet user.followers)
    submitAll tweetId tweetMap followers
    updateTimeline tweetId tweetMap userId

end TweetCommand

/-- The two keys of a user map that hold a set of names. -/
inductive Edges
  | following | followers
  deriving DecidableEq

def UserMap.edges (user : UserMap) : Edges → Option JString
  | .following => user.following
  | .followers => user.followers

def UserMap.setEdges (user : UserMap) (edges : Edges) (s : JString) : UserMap :=
  match edges with
  | .following => { user with following := some s }
  | .followers => { user with followers := some s }

def toTweet (tweetMap : TweetMap) (id : JString) : Client Tweet := do
  let date ← orThrow .numberFormat (parseLong tweetMap.date)
  return ⟨date,tweetMap.text,tweetMap.user,some id⟩

/-- The loop of `getTweets`; the numbers are Java `int`s, so 2^32 rounds reach `idx = 0`. -/
def getTweetsLoop (userId : JString) (lastTweet limit : ℤ) : ℕ → ℤ → List Tweet → Client (List Tweet)
  | 0, _, tweetList => .ret tweetList
  | rounds+1, i, tweetList =>
    if (tweetList.length : ℤ) < limit then
      let idx := wrap 32 (lastTweet - i)
      if idx = 0 then .ret tweetList
      else do
        match ← getValue .tweets (tweetKey userId idx) with
        | none => getTweetsLoop userId lastTweet limit rounds (wrap 32 (i+1)) tweetList
        | some tweetMap =>
          let tweet ← toTweet tweetMap (tweetKey userId idx)
          getTweetsLoop userId lastTweet limit rounds (wrap 32 (i+1)) (tweetList ++ [tweet])
    else .ret tweetList

def getTweets (userId : JString) (start count : ℤ) : Client (List Tweet) := do
  match ← getValue .users userId with
  | none => .throw .userNotFound
  | some user =>
    let lastTweet ← orThrow .numberFormat (parseInt user.lastTweet)
    getTweetsLoop userId lastTweet (wrap 32 (start+count)) (2^32) start []

def getRecentTweets (userId : JString) : Client (List Tweet) := getTweets userId 0 20

def getTweet (id : JString) : Client Tweet := do
  let x ← orThrow .notFound (← get .tweets id)
  toTweet x.value id

/-- `getFollowers` and `getFollowing`. -/
def getEdges (edges : Edges) (userId : JString) : Client (List JString) := do
  let user ← orThrow .userNotFound (← getValue .users userId)
  return asSet (user.edges edges)

def getFollowers : JString → Client (List JString) := getEdges .followers

def getFollowing : JString → Client (List JString) := getEdges .following

def maxTweetsInTimeline : ℕ := 250

section StartFollowingCommand

/-- `updateFollowing` and `updateFollowers`: put `member` into a set of the user `key`. -/
def startUpdate (edges : Edges) (key member : JString) : Client Unit := do
  match ← get .users key with
  | none => .ret ()
  | some x =>
    let set ← iterator ((asSet (x.value.edges edges)).insert member)
    let _ ← putIfNotObsolete .users key ⟨x.value.setEdges edges (toString set),x.version⟩

/-- The `while` loop for one recent tweet, with at most `n` rounds: the timeline and
`timelineIdx` after it. -/
def startScan (timelineId : JString) (date : ℤ) (timeline : List JString) :
    ℕ → ℕ → Except Exn (List JString × ℕ)
  | 0, i => .ok (timeline,i)
  | n+1, i => match timeline[i]? with
    | none => .ok (timeline,i)
    | some id =>
      if i < maxTweetsInTimeline then match timelineDate id with
        | .error e => .error e
        | .ok d =>
          if date < d then .ok (timeline.insertIdx i timelineId,i+1)
          else startScan timelineId date timeline n (i+1)
      else .ok (timeline,i)

/-- The loop over the recent tweets. -/
def startBackfill : List Tweet → List JString → ℕ → Except Exn (List JString)
  | [], timeline, _ => .ok timeline
  | tweet::recentTweets, timeline, i =>
    let timelineId := tweet.id.getD [] ++ ':'::decimal tweet.date
    if timelineId ∈ timeline then startBackfill recentTweets timeline i
    else match startScan timelineId tweet.date timeline timeline.length i with
      | .error e => .error e
      | .ok (timeline,i) =>
        let timeline := if i = timeline.length then timeline.insertIdx i timelineId else timeline
        if i = maxTweetsInTimeline then .ok timeline
        else startBackfill recentTweets timeline i

def startTimeline (userId toStartUser : JString) : Client Unit := do
  let x ← get .friendsTimeline userId
  let timeline := x.getD ⟨[],0⟩
  Prog.andThen (getRecentTweets toStartUser) fun
    | .error .userNotFound => .ret ()
    | .error e => .throw e
    | .ok recentTweets => do
      let list ← liftExcept (startBackfill recentTweets timeline.value 0)
      let _ ← putIfNotObsolete .friendsTimeline userId ⟨list,timeline.version⟩

def startFollowingCommand (userId toStartUser : JString) : Client Unit := do
  startUpdate .following userId toStartUser
  startUpdate .followers toStartUser userId
  startTimeline userId toStartUser

end StartFollowingCommand

section StopFollowingCommand

def stopUpdate (edges : Edges) (key member : JString) : Client Unit := do
  let x ← orThrow .nullPointer (← get .users key)
  let set ← iterator ((asSet (x.value.edges edges)).erase member)
  put .users key ⟨x.value.setEdges edges (toString set),x.version⟩

/-- Remove the entries whose id starts with `toStopUser-`. -/
def stopFilter (toStopUser : JString) : List JString → Except Exn (List JString)
  | [] => .ok []
  | entry::timeline => match split ':' entry with
    | [] => .error .indexOutOfBounds
    | id::_ => match stopFilter toStopUser timeline with
      | .error e => .error e
      | .ok rest => .ok (if (toStopUser ++ ['-']) <+: id then rest else entry::rest)

def stopTimeline (userId toStopUser : JString) : Client Unit := do
  match ← get .friendsTimeline userId with
  | none => .ret ()
  | some x =>
    let list ← liftExcept (stopFilter toStopUser x.value)
    put .friendsTimeline userId ⟨list,x.version⟩

def stopFollowingCommand (userId toStopUser : JString) : Client Unit := do
  stopUpdate .followers toStopUser userId
  stopUpdate .following userId toStopUser
  stopTimeline userId toStopUser

end StopFollowingCommand

def Command.body : Command → Client Unit
  | .tweet userId tweetId tweetMap => tweetCommand userId tweetId tweetMap
  | .startFollowing userId toStartUser => startFollowingCommand userId toStartUser
  | .stopFollowing userId toStopUser => stopFollowingCommand userId toStopUser

/-- `AbstractVoldemortCommand.execute`: the result of `applyUpdate` is not looked at. -/
def Command.execute (c : Command) : Client Unit := do
  let _ ← applyUpdate c.body

def newUser (user : User) : Client Unit := do
  let created ← Prog.op Op.now
  let userMap : UserMap := {
    username := some user.username, password := user.password, name := user.name
    created := some (decimal created), lastTweet := some (decimal 0) }
  let success ← applyUpdate (putIfNotObsolete .users user.username ⟨userMap,0⟩)
  if success.isNone then .throw .alreadyExists

/-- The update of `tweet`: the counter, then `commandQueue.add` in the same attempt. The
result is the id that the tweet is given. -/
def tweetUpdate (userId : JString) (tweetMap : TweetMap) : Client JString := do
  let x ← orThrow .nullPointer (← get .users userId)
  let lastTweet ← orThrow .numberFormat (parseInt x.value.lastTweet)
  let tweetIdx := wrap 32 (lastTweet + 1)
  put .users userId ⟨{ x.value with lastTweet := some (decimal tweetIdx) },x.version⟩
  let tweetId := tweetKey userId tweetIdx
  let command := Command.tweet userId tweetId tweetMap
  if ← Prog.op (Op.storeRemotely command) then
    command.execute
    return tweetId
  else .throw .runtime

/-- `tweet`, with the tweet as the caller finds it afterwards. It still has the id that the
caller gave it when `toMap` is called. -/
def tweet (userId : JString) (text id : Option JString) : Client Tweet := do
  let date ← Prog.op Op.now
  let tweetMap : TweetMap := ⟨some (decimal date),text,some userId,id⟩
  let _ ← orThrow .userNotFound (← get .users userId)
  let success ← applyUpdate (tweetUpdate userId tweetMap)
  let tweetId ← orThrow .backend success
  return ⟨date,text,some userId,some tweetId⟩

/-- The result is the tweet that `tweet` has filled in. -/
def Job.body : Job → Client (Option Tweet)
  | .newUser user => do
    TweetService.newUser user
    return none
  | .tweet userId text id => some <$> TweetService.tweet userId text id
  | .execute command => do
    command.execute
    return none
  | .updateTimeline tweetId tweetMap follower => do
    TweetService.updateTimeline tweetId tweetMap follower
    return none

def machine : Machine World Job Op Op.Res Exn Choice (Option Tweet) := ⟨exec,Job.body⟩

abbrev State := Programs.State World Job Op Op.Res Exn (Option Tweet)

abbrev Event := Programs.Event Job Choice

end TweetService
end Bigbird
