import Bigbird.FollowButton
import Bigbird.Json

/-! The page of the application: what it shows while the answers to its requests come in any order. -/
namespace Bigbird
namespace WebPage

open JsonText FollowButton Runs

/-- The elements of the page that are filled from answers. -/
inductive Panel
  | tweets
  | following
  | followers
  deriving DecidableEq

structure WebTweet where
  user : Text
  text : Text
  date : Text
  deriving DecidableEq

/-- The HTML of the link to a user. The name is put in as it is. -/
def link (user : Text) : Text :=
  units "<a href=\"#users/" ++ user ++ units "\" onclick=\"viewUser('" ++ user ++ units "')\"/>"

/-- An entry of a panel: what its link is made from, and the texts that are put into it. -/
inductive Div
  | tweet (link user text date : Text)
  | user (link user : Text)
  deriving DecidableEq

def tweetDiv (item : WebTweet) : Div := .tweet (link item.user) item.user (units ": " ++ item.text) item.date

def userDiv (user : Text) : Div := .user (link user) user

/-- A question for a list, of the user who is logged in or of a user who is viewed. -/
inductive Query
  | friendsTimeline (start : ℕ)
  | tweets (user : Text)
  | following (user : Option Text)
  | followers (user : Option Text)
  deriving DecidableEq

def Query.panel : Query → Panel
  | .friendsTimeline _ => .tweets
  | .tweets _ => .tweets
  | .following _ => .following
  | .followers _ => .followers

/-- The user for whose view the page asks; `none` is home. -/
def Query.view : Query → Option Text
  | .friendsTimeline _ => none
  | .tweets user => some user
  | .following user => user
  | .followers user => user

/-- The URL that the script puts together. The name is put in as it is. -/
def Query.url : Query → Text
  | .friendsTimeline start => units "./api/friendsTimeline?start=" ++ units (toString start) ++ units "&count=20"
  | .tweets user => units "./api/users/" ++ user ++ units "?start=0&count=20"
  | .following none => units "./api/following"
  | .following (some user) => units "./api/following?user=" ++ user
  | .followers none => units "./api/followers"
  | .followers (some user) => units "./api/followers?user=" ++ user

/-- The question for the panel that belongs to a view. -/
def Panel.question (view : Option Text) : Panel → Query
  | .tweets => view.elim (.friendsTimeline 0) .tweets
  | .following => .following view
  | .followers => .followers view

inductive Request
  | viewUser (user : Text)
  | tweet (tweetBox : Text)
  | stopFollowing (currentUser : Option Text)
  | startFollowing (currentUser : Option Text)
  deriving DecidableEq

inductive Answer
  | tweets (data : List WebTweet)
  | users (data : List Text)
  | done
  | error
  deriving DecidableEq

def Answer.items : Answer → List Div
  | .tweets data => data.map tweetDiv
  | .users data => data.map userDiv
  | _ => []

/-- The variables of the script and the elements of the page. `asked` has the questions in the order in
which the panels were emptied for them, with their answers; `requests` has the other requests that
have not been answered. -/
structure Page where
  tweetIndex : ℕ := 0
  clearUser : Bool := true
  followerIds : Option (List Text) := none
  followingIds : Option (List Text) := none
  currentUser : Option Text := none
  tweetHeader : Bool := true
  userHeader : Bool := true
  findUser : Text := units "Find user...."
  tweetBox : Text := []
  error : Option Text := none
  user : Text := []
  follow : Text := units "Follow"
  shown : Panel → List Div := fun _ => []
  asked : List (Query × Option Answer) := []
  requests : List Request := []

def empty (panel : Panel) (p : Page) : Page := { p with shown := Function.update p.shown panel [] }

def append (panel : Panel) (items : List Div) (p : Page) : Page :=
  { p with shown := Function.update p.shown panel (p.shown panel ++ items) }

def getJSON (q : Query) (p : Page) : Page := { p with asked := p.asked ++ [(q,none)] }

def ajax (request : Request) (p : Page) : Page := { p with requests := p.requests ++ [request] }

def getMoreTweets (p : Page) : Page := getJSON (.friendsTimeline p.tweetIndex) p

def refreshTweets (p : Page) : Page := getMoreTweets { empty .tweets p with tweetIndex := 0 }

def clearError (p : Page) : Page := { p with error := none }

def showError (text : Text) (p : Page) : Page := { p with error := some text }

def home (p : Page) : Page :=
  let p := clearError { p with tweetHeader := true, userHeader := false, findUser := units "Find user..." }
  let p := empty .followers (empty .following (refreshTweets p))
  getJSON (.followers none) (getJSON (.following none) p)

def addTweet (item : WebTweet) (p : Page) : Page := append .tweets [tweetDiv item] p

def addUser (user : Text) (element : Panel) (p : Page) : Page := append element [userDiv user] p

def addFollowing (item : Text) (p : Page) : Page := addUser item .following p

def addFollowers (item : Text) (p : Page) : Page := addUser item .followers p

def each {α : Type} (data : List α) (add : α → Page → Page) (p : Page) : Page :=
  data.foldl (fun p item => add item p) p

def tweet (p : Page) : Page := ajax (.tweet p.tweetBox) p

def viewUser (user : Text) (p : Page) : Page := ajax (.viewUser user) p

/-- Without an array in `followingIds` nothing is done after the call of `contains`, which throws. -/
def viewUserHandler (user : Text) (data : List WebTweet) (p : Page) : Page :=
  let p := { p with currentUser := some user, tweetHeader := false, userHeader := true, user := user }
  let p := empty Panel.followers (empty .following (empty .tweets p))
  let p := { p with findUser := units "Find user..." }
  let p := { p with asked := p.asked ++ [(Query.tweets user,some (Answer.tweets data))] }
  match p.followingIds with
  | none => p
  | some followingIds =>
    let p := { p with follow := if contains followingIds p.currentUser then units "Unfollow" else units "Follow" }
    let p := each data addTweet { p with clearUser := true }
    getJSON (.followers (some user)) (getJSON (.following (some user)) p)

def clearFindUser (p : Page) : Page := if p.clearUser then { p with findUser := [], clearUser := false } else p

def findUser (keyCode : ℕ) (p : Page) : Page := if keyCode = 13 then viewUser p.findUser p else p

def followOrUnfollow (p : Page) : Page :=
  let p := { p with follow := units "updating..." }
  match p.followingIds with
  | none => p
  | some followingIds =>
    if contains followingIds p.currentUser then ajax (.stopFollowing p.currentUser) p
    else ajax (.startFollowing p.currentUser) p

/-- The handlers of `getJSON`, which has none for errors. The data of the user who is logged in is kept. -/
def receive : Query → Answer → Page → Option Page
  | .friendsTimeline _, .tweets data, p =>
    let p := each data addTweet p
    some { p with tweetIndex := p.tweetIndex + data.length }
  | .following user, .users data, p =>
    let p := if user = none then { p with followingIds := some data } else p
    some (each data addFollowing p)
  | .followers user, .users data, p =>
    let p := if user = none then { p with followerIds := some data } else p
    some (each data addFollowers p)
  | _, .error, p => some p
  | _, _, _ => none

/-- The handlers of the other requests. The array that `concat` makes is not kept. -/
def respond : Request → Answer → Page → Option Page
  | .viewUser user, .tweets data, p => some (viewUserHandler user data p)
  | .viewUser user, .error, p => some (showError (units "Could not find user " ++ user ++ units "!") p)
  | .tweet _, .done, p => some { refreshTweets p with tweetBox := [] }
  | .tweet _, .error, p => some p
  | .stopFollowing _, .done, p => some { p with
      follow := units "Follow",
      followingIds := p.followingIds.map fun ids => splice ids (indexOf ids p.currentUser) 1 }
  | .stopFollowing _, .error, p => some { p with follow := units "Unfollow" }
  | .startFollowing _, .done, p => some { p with follow := units "Unfollow" }
  | .startFollowing _, .error, p => some { p with follow := units "Follow" }
  | _, _, _ => none

def Page.answered (p : Page) (i : ℕ) : Page := { p with requests := p.requests.eraseIdx i }

/-- What the user does, and the answers that arrive. -/
inductive Event
  | home
  | tweet
  | typeTweet (text : Text)
  | viewUser (user : Text)
  | typeUser (text : Text)
  | clearFindUser
  | findUser (keyCode : ℕ)
  | followOrUnfollow
  | listed (k : ℕ) (answer : Answer)
  | response (i : ℕ) (answer : Answer)

def step : Event → Page → Option Page
  | .home, p => some (home p)
  | .tweet, p => some (tweet p)
  | .typeTweet text, p => some { p with tweetBox := text }
  | .viewUser user, p => some (viewUser user p)
  | .typeUser text, p => some { p with findUser := text }
  | .clearFindUser, p => some (clearFindUser p)
  | .findUser keyCode, p => some (findUser keyCode p)
  | .followOrUnfollow, p => some (followOrUnfollow p)
  | .listed k answer, p => match p.asked[k]? with
    | some (q,none) => receive q answer { p with asked := p.asked.set k (q,some answer) }
    | _ => none
  | .response i answer, p => p.requests[i]?.bind fun request => respond request answer (p.answered i)

def ready : Page := home {}

def lastFor (panel : Panel) (asked : List (Query × Option Answer)) : Option (Query × Option Answer) :=
  (asked.filter fun a => a.1.panel = panel).getLast?

/-- Whose page it is, as the header says. -/
def Page.view (p : Page) : Option Text := if p.userHeader then some p.user else none

/-- When the panel was emptied the last time, the URL was the one for this view, and the panel shows
the answer to it, as soon as it is there, and nothing else. -/
def Page.Shows (p : Page) (panel : Panel) : Prop :=
  ∃ q answer, lastFor panel p.asked = some (q,answer) ∧ q.url = (panel.question p.view).url ∧
    p.shown panel = (answer.map Answer.items).getD []

def Coherent (p : Page) : Prop := ∀ panel, p.Shows panel

/-- An answer that is not empty comes before the panel is emptied for another question; users are
viewed only when it is known who is followed, and tweets are acknowledged at home. -/
def Orderly : Event → Page → Prop
  | .listed k answer, p => answer.items = [] ∨
    ∀ a ∈ p.asked[k]?, ∀ b ∈ p.asked.drop (k+1), b.1.panel ≠ a.1.panel
  | .response i answer, p => ∀ request ∈ p.requests[i]?, match request, answer with
    | .viewUser _, .tweets _ => p.followingIds ≠ none
    | .tweet _, .done => p.userHeader = false
    | _, _ => True
  | _, _ => True

instance (e : Event) (p : Page) : Decidable (Orderly e p) := by
  unfold Orderly
  split
  · infer_instance
  · refine @Option.decidableForallMem _ _ (fun request => ?_) _
    split <;> infer_instance
  · infer_instance

section Panels

variable {p p' : Page} {panel : Panel} {q : Query} {a : Option Answer} {items : List Div} {request : Request}

theorem lastFor_concat (panel : Panel) (asked : List (Query × Option Answer)) (q : Query) (a : Option Answer) :
    lastFor panel (asked ++ [(q,a)]) = if q.panel = panel then some (q,a) else lastFor panel asked := by
  unfold lastFor
  rw [List.filter_append,List.getLast?_append]
  by_cases h : q.panel = panel <;> simp [h]

theorem each_append {α : Type} (data : List α) (panel : Panel) (item : α → Div) (p : Page) :
    each data (fun x => append panel [item x]) p = append panel (data.map item) p := by
  induction data generalizing p with
  | nil => simp [each,append]
  | cons x data ih =>
    change each data _ (append panel [item x] p) = _
    rw [ih]
    simp [append]

@[simp] theorem each_addTweet (data : List WebTweet) (p : Page) :
    each data addTweet p = append .tweets (data.map tweetDiv) p := each_append data .tweets tweetDiv p

@[simp] theorem each_addFollowing (data : List Text) (p : Page) :
    each data addFollowing p = append .following (data.map userDiv) p := each_append data .following userDiv p

@[simp] theorem each_addFollowers (data : List Text) (p : Page) :
    each data addFollowers p = append .followers (data.map userDiv) p := each_append data .followers userDiv p

@[simp] theorem view_getJSON : (getJSON q p).view = p.view := rfl

theorem lastFor_getJSON (panel : Panel) (q : Query) (p : Page) : lastFor panel (getJSON q p).asked =
    if q.panel = panel then some (q,none) else lastFor panel p.asked := lastFor_concat panel p.asked q none

theorem Page.Shows.congr (h : p.Shows panel) (hasked : p'.asked = p.asked)
    (hshown : p'.shown panel = p.shown panel) (hview : p'.view = p.view) : p'.Shows panel := by
  unfold Page.Shows
  rw [hasked,hshown,hview]
  exact h

theorem panel_question (panel : Panel) (view : Option Text) : (panel.question view).panel = panel := by
  cases panel <;> cases view <;> rfl

theorem shows_getJSON (panel : Panel) {view : Option Text} (hshown : p.shown panel = []) (hview : p.view = view) :
    (getJSON (panel.question view) p).Shows panel :=
  ⟨_,none,by rw [lastFor_getJSON,if_pos (panel_question panel view)],by rw [view_getJSON,hview],hshown⟩

theorem view_of_tweets_url {view : Option Text}
    (h : (Panel.tweets.question none).url = (Panel.tweets.question view).url) : view = none := by
  cases view with
  | none => rfl
  | some user =>
    have htake := congrArg (List.take 7) h
    have huser : List.take 7 (units "./api/users/" ++ (user ++ units "?start=0&count=20")) =
        List.take 7 (units "./api/users/") := List.take_append_of_le_length (by decide)
    simp only [Panel.question,Option.elim,Query.url,List.append_assoc,huser] at htake
    exact absurd htake (by decide)

theorem view_of_following_url {view : Option Text}
    (h : (Panel.following.question none).url = (Panel.following.question view).url) : view = none := by
  cases view with
  | none => rfl
  | some user =>
    have hlength := congrArg List.length h
    simp [Panel.question,Query.url,units] at hlength

theorem Page.Shows.getJSON (h : p.Shows panel) (hne : q.panel ≠ panel) : (getJSON q p).Shows panel := by
  obtain ⟨q',a,hlast,hview,hshown⟩ := h
  exact ⟨q',a,by rw [lastFor_getJSON,if_neg hne,hlast],hview,hshown⟩

theorem Page.Shows.empty {panel' : Panel} (h : p.Shows panel) (hne : panel ≠ panel') :
    (WebPage.empty panel' p).Shows panel := h.congr rfl (Function.update_of_ne hne _ _) rfl

theorem coherent_home (p : Page) : Coherent (home p) := by
  have hlists (p : Page) (hview : p.view = none) (htweets : p.Shows .tweets) :
      Coherent (getJSON (.followers none) (getJSON (.following none) (empty .followers (empty .following p)))) := by
    intro panel
    cases panel with
    | tweets => refine (((htweets.empty ?_).empty ?_).getJSON ?_).getJSON ?_ <;> simp [Query.panel]
    | following => exact Page.Shows.getJSON (shows_getJSON .following rfl hview) (by simp [Query.panel])
    | followers => exact shows_getJSON .followers rfl hview
  exact hlists _ rfl (shows_getJSON .tweets rfl rfl)

theorem coherent_refreshTweets (hp : Coherent p) : Coherent (refreshTweets p) ↔ p.view = none := by
  constructor
  · intro h
    obtain ⟨q,a,hlast,hurl,_⟩ := h .tweets
    rw [refreshTweets,getMoreTweets,lastFor_getJSON,if_pos (by rfl)] at hlast
    cases hlast
    exact view_of_tweets_url hurl
  · intro hview panel
    by_cases htweets : panel = .tweets
    · subst htweets
      exact shows_getJSON (p:={ empty .tweets p with tweetIndex := 0 }) .tweets rfl hview
    · exact ((hp panel).empty htweets).getJSON (Ne.symm htweets)

/-- Nobody else's followed users have been asked for as long as it is not known who is followed. -/
def Unviewed (p : Page) : Prop :=
  p.followingIds = none → ∀ a ∈ p.asked, a.1.panel = .following → a.1.view = none

theorem following_of_view (hpanel : q.panel = .following) (hview : q.view = none) :
    q = Panel.following.question none := by
  cases q with
  | following user => exact congrArg Query.following hview
  | _ => cases hpanel

theorem coherent_viewUserHandler (hp : Unviewed p) (user : Text) (data : List WebTweet) :
    Coherent (viewUserHandler user data p) ↔ p.followingIds ≠ none := by
  cases hids : p.followingIds with
  | none =>
    refine iff_of_false (fun h => ?_) (by simp)
    obtain ⟨q,a,hlast,hurl,_⟩ := h .following
    simp only [viewUserHandler,empty,hids,lastFor_concat,Query.panel,reduceCtorEq,if_false] at hlast hurl
    have hmem := List.mem_filter.mp (List.mem_of_getLast? hlast)
    have hpanel : q.panel = .following := by simpa using hmem.2
    rw [following_of_view hpanel (hp hids _ hmem.1 hpanel)] at hurl
    cases view_of_following_url hurl
  | some followingIds =>
    refine iff_of_true (fun panel => ?_) (by simp)
    simp only [viewUserHandler,empty,hids,each_addTweet]
    cases panel with
    | tweets =>
      refine Page.Shows.getJSON (Page.Shows.getJSON ?_ (by simp [Query.panel])) (by simp [Query.panel])
      exact ⟨.tweets user,some (.tweets data),by simp [append,lastFor_concat,Query.panel],rfl,by simp [append,Answer.items]⟩
    | following => exact Page.Shows.getJSON (shows_getJSON .following rfl rfl) (by simp [Query.panel])
    | followers => exact shows_getJSON .followers rfl rfl

theorem receive_some {answer : Answer} (h : receive q answer p = some p') :
    p'.asked = p.asked ∧ p'.view = p.view ∧ (p'.followingIds = none → p.followingIds = none) ∧
      p'.shown = Function.update p.shown q.panel (p.shown q.panel ++ answer.items) := by
  unfold receive at h
  split at h
  · cases h
    exact ⟨by simp [append],by simp [Page.view,append],by simp [append],by simp [append,Query.panel,Answer.items]⟩
  · cases h
    split <;> exact ⟨by simp [append],by simp [Page.view,append],by simp [append],by simp [append,Query.panel,Answer.items]⟩
  · cases h
    split <;> exact ⟨by simp [append],by simp [Page.view,append],by simp [append],by simp [append,Query.panel,Answer.items]⟩
  · cases h
    exact ⟨rfl,rfl,id,by simp [Answer.items]⟩
  · cases h

theorem lastFor_eq_none {asked : List (Query × Option Answer)} :
    lastFor panel asked = none ↔ ∀ b ∈ asked, b.1.panel ≠ panel := by
  simp [lastFor]

theorem lastFor_append_cons (l l' : List (Query × Option Answer)) (q : Query) (a : Option Answer) :
    lastFor panel (l ++ (q,a)::l') =
      (lastFor panel l').or (if q.panel = panel then some (q,a) else lastFor panel l) := by
  unfold lastFor
  rw [List.filter_append,List.filter_cons,List.getLast?_append]
  by_cases h : q.panel = panel
  · simp [h,List.getLast?_cons]
  · simp [h]

/-- An answer is shown as it should be if the panel has not been emptied again, or if it is empty. -/
theorem coherent_listed {answer : Answer} {k : ℕ} (hp : Coherent p) (hk : p.asked[k]? = some (q,none))
    (h : receive q answer { p with asked := p.asked.set k (q,some answer) } = some p') :
    Coherent p' ↔ answer.items = [] ∨ ∀ b ∈ p.asked.drop (k+1), b.1.panel ≠ q.panel := by
  obtain ⟨hasked,hview,_,hshown⟩ := receive_some h
  obtain ⟨hlt,hget⟩ := List.getElem?_eq_some_iff.mp hk
  have hbefore : p.asked = p.asked.take k ++ (q,none)::p.asked.drop (k+1) := by
    rw [← hget,List.cons_getElem_drop_succ,List.take_append_drop]
  have hafter : p'.asked = p.asked.take k ++ (q,some answer)::p.asked.drop (k+1) := by
    rw [hasked,List.set_eq_take_append_cons_drop,if_pos hlt]
  have hother {panel : Panel} (hne : q.panel ≠ panel) : p'.Shows panel := by
    obtain ⟨q',a,hlast,hurl,hq⟩ := hp panel
    rw [hbefore,lastFor_append_cons,if_neg hne] at hlast
    refine ⟨q',a,by rw [hafter,lastFor_append_cons,if_neg hne,hlast],by rwa [hview],?_⟩
    rw [hshown,Function.update_of_ne hne.symm]
    exact hq
  obtain ⟨q',a,hlast,hurl,hq⟩ := hp q.panel
  rw [hbefore,lastFor_append_cons,if_pos rfl] at hlast
  have hself : p'.shown q.panel = p.shown q.panel ++ answer.items := by rw [hshown,Function.update_self]
  by_cases hlater : ∀ b ∈ p.asked.drop (k+1), b.1.panel ≠ q.panel
  · refine iff_of_true (fun panel => ?_) (Or.inr hlater)
    by_cases hne : q.panel = panel
    · subst hne
      rw [lastFor_eq_none.mpr hlater,Option.none_or] at hlast
      cases hlast
      refine ⟨q,some answer,?_,by rwa [hview],by rw [hself,hq]; rfl⟩
      rw [hafter,lastFor_append_cons,if_pos rfl,lastFor_eq_none.mpr hlater,Option.none_or]
    · exact hother hne
  · obtain ⟨b,hb⟩ := Option.ne_none_iff_exists'.mp (mt lastFor_eq_none.mp hlater)
    rw [hb,Option.some_or] at hlast
    cases hlast
    have hlast' : lastFor q.panel p'.asked = some (q',a) := by
      rw [hafter,lastFor_append_cons,hb,Option.some_or]
    constructor
    · intro hcoherent
      obtain ⟨q'',a'',hlast'',_,hq''⟩ := hcoherent q.panel
      rw [hlast'] at hlast''
      cases hlast''
      rw [hself,hq] at hq''
      exact Or.inl (List.append_right_eq_self.mp hq'')
    · rintro (hnil | hall)
      · intro panel
        by_cases hne : q.panel = panel
        · subst hne
          exact ⟨q',a,hlast',by rwa [hview],by rw [hself,hnil,List.append_nil,hq]⟩
        · exact hother hne
      · exact absurd hall hlater

theorem Unviewed.mono (hp : Unviewed p) (hids : p'.followingIds = none → p.followingIds = none)
    (hasked : ∀ a ∈ p'.asked, (∃ b ∈ p.asked, b.1 = a.1) ∨ (a.1.panel = .following → a.1.view = none)) :
    Unviewed p' := by
  intro hnone a ha hpanel
  rcases hasked a ha with ⟨b,hb,heq⟩ | hview
  · rw [← heq] at hpanel ⊢
    exact hp (hids hnone) b hb hpanel
  · exact hview hpanel

theorem Unviewed.congr (hp : Unviewed p) (hids : p'.followingIds = none → p.followingIds = none)
    (hasked : p'.asked = p.asked) : Unviewed p' :=
  hp.mono hids fun a ha => Or.inl ⟨a,hasked ▸ ha,rfl⟩

theorem unviewed_viewUserHandler (hp : Unviewed p) (user : Text) (data : List WebTweet) :
    Unviewed (viewUserHandler user data p) := by
  cases hids : p.followingIds with
  | none =>
    simp only [viewUserHandler,empty,hids]
    refine hp.mono (fun _ => hids) fun a ha => ?_
    rcases List.mem_append.mp ha with ha | ha
    · exact Or.inl ⟨a,ha,rfl⟩
    · obtain rfl := List.mem_singleton.mp ha
      exact Or.inr (by simp [Query.panel])
  | some followingIds =>
    intro hnone
    simp [viewUserHandler,empty,hids,getJSON,append] at hnone

/-- The step asks for nothing and shows nothing. -/
structure Silent (p p' : Page) : Prop where
  asked : p'.asked = p.asked
  shown : p'.shown = p.shown
  view : p'.view = p.view
  followingIds : p'.followingIds = none → p.followingIds = none

theorem Silent.coherent_iff (h : Silent p p') : Coherent p' ↔ Coherent p := by
  unfold Coherent Page.Shows
  rw [h.asked,h.shown,h.view]

theorem silent_ajax (request : Request) (p : Page) : Silent p (ajax request p) := ⟨rfl,rfl,rfl,id⟩

theorem silent_answered (p : Page) (i : ℕ) : Silent p (p.answered i) := ⟨rfl,rfl,rfl,id⟩

theorem silent_findUser (keyCode : ℕ) (p : Page) : Silent p (findUser keyCode p) := by
  unfold findUser
  split
  · exact silent_ajax _ p
  · exact ⟨rfl,rfl,rfl,id⟩

theorem silent_clearFindUser (p : Page) : Silent p (clearFindUser p) := by
  unfold clearFindUser
  split <;> exact ⟨rfl,rfl,rfl,id⟩

theorem silent_followOrUnfollow (p : Page) : Silent p (followOrUnfollow p) := by
  unfold followOrUnfollow
  dsimp only
  split
  · exact ⟨rfl,rfl,rfl,id⟩
  · split <;> exact ⟨rfl,rfl,rfl,id⟩

end Panels

section Coherent

variable {p p' : Page} {e : Event}

/-- What the answer to another request does: a view, the tweets shown anew, or a text here and there. -/
theorem respond_cases {i : ℕ} {answer : Answer} (h : step (.response i answer) p = some p') :
    (∃ user data, answer = .tweets data ∧ p.requests[i]? = some (.viewUser user) ∧
      p' = viewUserHandler user data (p.answered i)) ∨
    (∃ text, answer = .done ∧ p.requests[i]? = some (.tweet text) ∧
      p' = { refreshTweets (p.answered i) with tweetBox := [] }) ∨
    Silent p p' ∧ Orderly (.response i answer) p := by
  obtain ⟨request,hrequest,h⟩ := Option.bind_eq_some_iff.mp h
  unfold Orderly respond at *
  simp only [hrequest,Option.mem_def,Option.some.injEq,forall_eq']
  split at h
  · cases h
    exact Or.inl ⟨_,_,rfl,rfl,rfl⟩
  · cases h
    exact Or.inr (Or.inr ⟨⟨rfl,rfl,rfl,id⟩,trivial⟩)
  · cases h
    exact Or.inr (Or.inl ⟨_,rfl,rfl,rfl⟩)
  · cases h
    exact Or.inr (Or.inr ⟨⟨rfl,rfl,rfl,id⟩,trivial⟩)
  · cases h
    exact Or.inr (Or.inr ⟨⟨rfl,rfl,rfl,by simp [Page.answered]⟩,trivial⟩)
  all_goals
    cases h
    try exact Or.inr (Or.inr ⟨⟨rfl,rfl,rfl,id⟩,trivial⟩)

theorem step_cases (h : step e p = some p') :
    Silent p p' ∧ Orderly e p ∨ e = .home ∧ p' = home p ∨
    (∃ k answer q, e = .listed k answer ∧ p.asked[k]? = some (q,none) ∧
      receive q answer { p with asked := p.asked.set k (q,some answer) } = some p') ∨
    ∃ i answer, e = .response i answer := by
  cases e with
  | home => exact Or.inr (Or.inl ⟨rfl,(Option.some.inj h).symm⟩)
  | listed k answer =>
    simp only [step] at h
    split at h
    · rename_i q hq
      exact Or.inr (Or.inr (Or.inl ⟨k,answer,q,rfl,hq,h⟩))
    · cases h
  | response i answer => exact Or.inr (Or.inr (Or.inr ⟨i,answer,rfl⟩))
  | tweet => cases h; exact Or.inl ⟨silent_ajax _ p,trivial⟩
  | viewUser user => cases h; exact Or.inl ⟨silent_ajax _ p,trivial⟩
  | clearFindUser => cases h; exact Or.inl ⟨silent_clearFindUser p,trivial⟩
  | findUser keyCode => cases h; exact Or.inl ⟨silent_findUser keyCode p,trivial⟩
  | followOrUnfollow => cases h; exact Or.inl ⟨silent_followOrUnfollow p,trivial⟩
  | _ => cases h; exact Or.inl ⟨⟨rfl,rfl,rfl,id⟩,trivial⟩

theorem unviewed_step (hp : Unviewed p) (h : step e p = some p') : Unviewed p' := by
  rcases step_cases h with ⟨hs,_⟩ | ⟨_,rfl⟩ | ⟨k,answer,q,_,hk,hreceive⟩ | ⟨i,answer,rfl⟩
  · exact hp.congr hs.followingIds hs.asked
  · refine hp.mono id fun a ha => ?_
    change a ∈ p.asked ++ [_] ++ [_] ++ [_] at ha
    simp only [List.append_assoc,List.mem_append,List.mem_singleton] at ha
    rcases ha with ha | rfl | rfl | rfl
    · exact Or.inl ⟨a,ha,rfl⟩
    all_goals exact Or.inr fun _ => rfl
  · obtain ⟨hasked,_,hids,_⟩ := receive_some hreceive
    refine hp.mono hids fun a ha => Or.inl ?_
    rw [hasked] at ha
    rcases List.mem_or_eq_of_mem_set ha with ha | rfl
    · exact ⟨a,ha,rfl⟩
    · exact ⟨_,List.mem_of_getElem? hk,rfl⟩
  · rcases respond_cases h with ⟨user,data,_,_,rfl⟩ | ⟨text,_,_,rfl⟩ | ⟨hs,_⟩
    · have hp' : Unviewed (p.answered i) := hp.congr id rfl
      exact unviewed_viewUserHandler hp' user data
    · refine hp.mono id fun a ha => ?_
      rcases List.mem_append.mp ha with ha | ha
      · exact Or.inl ⟨a,ha,rfl⟩
      · obtain rfl := List.mem_singleton.mp ha
        exact Or.inr (by simp [Query.panel])
    · exact hp.congr hs.followingIds hs.asked

/-- The page stays as it should be by exactly the orderly steps. -/
theorem coherent_step (hu : Unviewed p) (hp : Coherent p) (h : step e p = some p') : Coherent p' ↔ Orderly e p := by
  rcases step_cases h with ⟨hs,ho⟩ | ⟨rfl,rfl⟩ | ⟨k,answer,q,rfl,hk,hreceive⟩ | ⟨i,answer,rfl⟩
  · exact iff_of_true (hs.coherent_iff.mpr hp) ho
  · exact iff_of_true (coherent_home p) trivial
  · rw [coherent_listed hp hk hreceive]
    simp [Orderly,hk]
  · rcases respond_cases h with ⟨user,data,rfl,hrequest,rfl⟩ | ⟨text,rfl,hrequest,rfl⟩ | ⟨hs,ho⟩
    · have hu' : Unviewed (p.answered i) := hu.congr id rfl
      rw [coherent_viewUserHandler hu']
      simp [Orderly,hrequest,Page.answered]
    · have htext : Silent (refreshTweets (p.answered i)) { refreshTweets (p.answered i) with tweetBox := [] } :=
        ⟨rfl,rfl,rfl,id⟩
      rw [htext.coherent_iff,coherent_refreshTweets ((silent_answered p i).coherent_iff.mpr hp)]
      cases hheader : p.userHeader <;> simp [Orderly,hrequest,Page.answered,Page.view,hheader]
    · exact iff_of_true (hs.coherent_iff.mpr hp) ho

/-- The page shows in all of its states the answers to what was asked for last, for the view that its
header announces, exactly if no answer comes too late, no user is viewed too early, and no tweet is
acknowledged while a user is viewed. -/
theorem coherent_iff_orderly {es : List Event} (h : Reaches step anyStep ready es p) :
    (∀ fs t, fs <+: es → Reaches step anyStep ready fs t → Coherent t) ↔ Reaches step Orderly ready es p :=
  invariant_iff_conditions (J:=Unviewed) (unviewed_step (p:={}) (e:=.home) (by simp [Unviewed]) rfl) (coherent_home _)
    (fun _ _ _ hu hs => unviewed_step hu hs) (fun _ _ _ hu hp hs => coherent_step hu hp hs) h

/-- Home, a view while the followers asked for at home are still missing, and their empty answer, late. -/
def viewAndAnswers : List Event :=
  [.listed 1 (.users [units "b"]),.listed 0 (.tweets []),.viewUser (units "b"),.typeTweet (units "hello"),
    .response 0 (.tweets [⟨units "b",units "hi",[]⟩]),.listed 2 (.users []),.listed 5 (.users [units "a"]),.home]

theorem coherent_view : ∃ p, Reaches step anyStep ready viewAndAnswers p ∧ Coherent p := by
  have hrun : (runIf step Orderly viewAndAnswers ready).isSome = true := by decide
  obtain ⟨p,hp⟩ := Option.isSome_iff_exists.mp hrun
  have horderly : Reaches step Orderly ready viewAndAnswers p := reaches_of_runIf .start hp
  have h : Reaches step anyStep ready viewAndAnswers p := horderly.mono fun _ _ _ => trivial
  exact ⟨p,h,(coherent_iff_orderly h).mpr horderly _ p (List.prefix_refl _) h⟩

end Coherent

section Button

def Request.button : Request → Option (FollowButton.Request Text)
  | .stopFollowing currentUser => some ⟨false,currentUser⟩
  | .startFollowing currentUser => some ⟨true,currentUser⟩
  | _ => none

def Page.buttons (p : Page) : List (FollowButton.Request Text) := p.requests.filterMap Request.button

/-- The answer is not the list of those whom the user who is logged in follows. -/
def KeepsList : Event → Page → Prop
  | .listed k (.users _), p => ∀ a ∈ p.asked[k]?, a.1 ≠ .following none
  | _, _ => True

instance (e : Event) (p : Page) : Decidable (KeepsList e p) := by
  unfold KeepsList
  split <;> infer_instance

variable {p p' : Page} {e : Event} {i : ℕ} {request : Request}

theorem split_requests (h : p.requests[i]? = some request) :
    p.requests = p.requests.take i ++ request::p.requests.drop (i+1) ∧
      (p.answered i).requests = p.requests.take i ++ p.requests.drop (i+1) := by
  obtain ⟨hlt,hget⟩ := List.getElem?_eq_some_iff.mp h
  refine ⟨?_,List.eraseIdx_eq_take_drop_succ _ _⟩
  rw [← hget,List.cons_getElem_drop_succ,List.take_append_drop]

theorem buttons_answered_other (h : p.requests[i]? = some request) (hnone : request.button = none) :
    (p.answered i).buttons = p.buttons := by
  obtain ⟨hbefore,hafter⟩ := split_requests h
  rw [Page.buttons,Page.buttons,hafter]
  conv_rhs => rw [hbefore]
  simp [hnone]

theorem buttons_answered (h : p.requests[i]? = some request) {b : FollowButton.Request Text}
    (hb : request.button = some b) : let n := ((p.requests.take i).filterMap Request.button).length
    p.buttons[n]? = some b ∧ (p.answered i).buttons = p.buttons.eraseIdx n := by
  obtain ⟨hbefore,hafter⟩ := split_requests h
  have hbuttons : p.buttons = (p.requests.take i).filterMap Request.button ++
      b::(p.requests.drop (i+1)).filterMap Request.button := by
    rw [Page.buttons]
    conv_lhs => rw [hbefore]
    simp [hb]
  refine ⟨by simp [hbuttons],?_⟩
  rw [hbuttons,Page.buttons,hafter,List.eraseIdx_append_of_length_le (Nat.le_refl _)]
  simp

/-- What the step does to the button: a view, a click, or the answer to one of its requests. -/
def pressed : Event → Page → Option (FollowButton.Event Text)
  | .followOrUnfollow, _ => some .click
  | .response i answer, p => p.requests[i]?.bind fun request => match request, answer with
    | .viewUser user, .tweets _ => some (.viewed user)
    | _, _ => request.button.map fun _ =>
      .response ((p.requests.take i).filterMap Request.button).length (answer = .done)
  | _, _ => none

def presses : List Event → Page → List (FollowButton.Event Text)
  | [], _ => []
  | e::es, p => (pressed e p).toList ++ (step e p).elim [] (presses es)

theorem presses_concat {es : List Event} (h : run step es p = some p') (e : Event) :
    presses (es ++ [e]) p = presses es p ++ (pressed e p').toList := by
  induction es generalizing p with
  | nil =>
    cases h
    cases hs : step e p' <;> simp [presses,hs]
  | cons f es ih =>
    obtain ⟨u,hu,hrun⟩ := Option.bind_eq_some_iff.mp h
    simp [presses,hu,ih hrun]

/-- The part of the page that the model of the button has. -/
structure Behaves (p : Page) (s : FollowButton.State Text) : Prop where
  followingIds : p.followingIds = some s.followingIds
  currentUser : p.currentUser = s.currentUser
  requests : p.buttons = s.requests

variable {s : FollowButton.State Text}

theorem Behaves.congr (hb : Behaves p s) (hids : p'.followingIds = p.followingIds)
    (hcurrent : p'.currentUser = p.currentUser) (hrequests : p'.buttons = p.buttons) : Behaves p' s :=
  ⟨hids.trans hb.followingIds,hcurrent.trans hb.currentUser,hrequests.trans hb.requests⟩

theorem Behaves.ajax (hb : Behaves p s) (hnone : request.button = none) : Behaves (ajax request p) s :=
  hb.congr rfl rfl (by simp [Page.buttons,WebPage.ajax,hnone])

theorem Behaves.click (hb : Behaves p s) : Behaves (followOrUnfollow p) (FollowButton.followOrUnfollow s) := by
  have hids := hb.followingIds
  unfold followOrUnfollow FollowButton.followOrUnfollow
  simp only [hids,hb.currentUser]
  split
  · exact ⟨rfl,rfl,by simp [Page.buttons,WebPage.ajax,Request.button,← hb.requests]⟩
  · exact ⟨rfl,rfl,by simp [Page.buttons,WebPage.ajax,Request.button,← hb.requests]⟩

theorem Behaves.view (hb : Behaves p s) (user : Text) (data : List WebTweet) :
    Behaves (viewUserHandler user data p) { s with currentUser := some user } := by
  have hids := hb.followingIds
  simp only [viewUserHandler,empty,hids,each_addTweet]
  exact ⟨rfl,rfl,hb.requests⟩

theorem Behaves.answer (hb : Behaves p s) {b : FollowButton.Request Text} (hrequest : p.requests[i]? = some request)
    (hbutton : request.button = some b) (success : Bool) {p' : Page}
    (h : Behaves p' (if success then FollowButton.respond b { s with requests := (p.answered i).buttons }
      else { s with requests := (p.answered i).buttons })) :
    ∃ s', run FollowButton.step [.response ((p.requests.take i).filterMap Request.button).length success] s = some s' ∧
      Behaves p' s' := by
  obtain ⟨hget,hrest⟩ := buttons_answered hrequest hbutton
  rw [hb.requests] at hget hrest
  rw [hrest] at h
  exact ⟨_,by simp [run,FollowButton.step,hget],h⟩

theorem Behaves.respond {answer : Answer} (hb : Behaves p s) (h : step (.response i answer) p = some p') :
    ∃ s', run FollowButton.step (pressed (.response i answer) p).toList s = some s' ∧ Behaves p' s' := by
  obtain ⟨request,hrequest,h⟩ := Option.bind_eq_some_iff.mp h
  have hother (hnone : request.button = none) : Behaves (p.answered i) s :=
    hb.congr rfl rfl (buttons_answered_other hrequest hnone)
  have hids := hb.followingIds
  simp only [pressed,hrequest,Option.bind_some]
  unfold WebPage.respond at h
  split at h
  · cases h
    exact ⟨_,rfl,(hother rfl).view _ _⟩
  · cases h
    exact ⟨_,rfl,(hother rfl).congr rfl rfl rfl⟩
  · cases h
    exact ⟨_,rfl,(hother rfl).congr rfl rfl rfl⟩
  · cases h
    exact ⟨_,rfl,hother rfl⟩
  · cases h
    refine hb.answer hrequest rfl true ⟨?_,hb.currentUser,rfl⟩
    simp [Page.answered,hids,FollowButton.respond,FollowButton.stopped,hb.currentUser]
  · cases h
    exact hb.answer hrequest rfl false ⟨hids,hb.currentUser,rfl⟩
  · cases h
    exact hb.answer hrequest rfl true ⟨hids,hb.currentUser,rfl⟩
  · cases h
    exact hb.answer hrequest rfl false ⟨hids,hb.currentUser,rfl⟩
  · cases h

theorem Behaves.receive {q : Query} {answer : Answer} (hb : Behaves p s)
    (hk : ∀ data, answer = .users data → q ≠ .following none) (h : receive q answer p = some p') : Behaves p' s := by
  unfold WebPage.receive at h
  split at h
  · cases h
    rw [each_addTweet]
    exact hb.congr rfl rfl rfl
  · rename_i user data
    cases h
    rw [if_neg fun huser => hk data rfl (by rw [huser]),each_addFollowing]
    exact hb.congr rfl rfl rfl
  · cases h
    rw [each_addFollowers]
    split <;> exact hb.congr rfl rfl rfl
  · cases h
    exact hb
  · cases h

theorem Behaves.step (hb : Behaves p s) (hk : KeepsList e p) (h : step e p = some p') :
    ∃ s', run FollowButton.step (pressed e p).toList s = some s' ∧ Behaves p' s' := by
  cases e with
  | followOrUnfollow =>
    cases h
    exact ⟨_,rfl,hb.click⟩
  | response i answer => exact hb.respond h
  | listed k answer =>
    simp only [WebPage.step] at h
    split at h
    · rename_i q hq
      have hb' : Behaves { p with asked := p.asked.set k (q,some answer) } s := hb.congr rfl rfl rfl
      refine ⟨s,rfl,hb'.receive (fun data hdata => ?_) h⟩
      subst hdata
      exact hk _ hq
    · cases h
  | findUser keyCode =>
    cases h
    refine ⟨s,rfl,?_⟩
    unfold findUser
    split
    · exact hb.ajax rfl
    · exact hb
  | clearFindUser =>
    cases h
    refine ⟨s,rfl,?_⟩
    unfold clearFindUser
    split
    · exact hb.congr rfl rfl rfl
    · exact hb
  | tweet => cases h; exact ⟨s,rfl,hb.ajax rfl⟩
  | viewUser user => cases h; exact ⟨s,rfl,hb.ajax rfl⟩
  | _ => cases h; exact ⟨s,rfl,hb.congr rfl rfl rfl⟩

/-- As long as the list of those whom the user follows is not loaded again, the page does with it
what the model of the button does. -/
theorem behaves_run {es : List Event} (hb : Behaves p s) (h : Reaches WebPage.step KeepsList p es p') :
    ∃ s', run FollowButton.step (presses es p) s = some s' ∧ Behaves p' s' := by
  induction h with
  | start => exact ⟨s,rfl,hb⟩
  | @next es u u' e h hk hs ih =>
    obtain ⟨t,ht,hbt⟩ := ih
    obtain ⟨t',ht',hbt'⟩ := hbt.step hk hs
    refine ⟨t',?_,hbt'⟩
    rw [presses_concat h.run_eq,run_append,ht]
    exact ht'

def loaded : Page := { ready with followingIds := some [units "a",units "b"] }

/-- `a` is viewed and unfollowed, and `b` is viewed before the answer arrives. -/
def unfollowWhileViewing : List Event :=
  [.viewUser (units "a"),.response 0 (.tweets []),.followOrUnfollow,.viewUser (units "b"),.response 1 (.tweets []),
    .listed 1 .error,.response 0 .done]

theorem behaves_unfollow : ∃ p s', Reaches step KeepsList loaded unfollowWhileViewing p ∧
    run FollowButton.step (presses unfollowWhileViewing loaded) ⟨[units "a",units "b"],none,[],[]⟩ = some s' ∧
      Behaves p s' := by
  have hrun : (runIf step KeepsList unfollowWhileViewing loaded).isSome = true := by decide
  obtain ⟨p,hp⟩ := Option.isSome_iff_exists.mp hrun
  have h : Reaches step KeepsList loaded unfollowWhileViewing p := reaches_of_runIf .start hp
  obtain ⟨s',hs'⟩ := behaves_run (s:=⟨[units "a",units "b"],none,[],[]⟩) ⟨rfl,rfl,rfl⟩ h
  exact ⟨p,s',h,hs'⟩

end Button

end WebPage
end Bigbird
