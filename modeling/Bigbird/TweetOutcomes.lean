import Bigbird.Acknowledge
import Bigbird.TimelineEntries

/-! How a call of `tweet` can end, and what it has stored by then, whatever other clients do and
whichever of its calls fails. -/
namespace Bigbird
namespace TweetService

open JavaText VersionedStore Programs

/-- The counter of the author before and after a call that stores his map. -/
def raises : World × Op × Choice → Option (Option ℤ × Option ℤ)
  | (w,op,choice) => match op.applies choice w with
    | some ⟨.users,key,x⟩ =>
      some (((w.store .users).value key).bind fun y => parseInt y.lastTweet,parseInt x.value.lastTweet)
    | _ => none

def posts : World × Op × Choice → Option (JString × TweetMap)
  | (w,op,choice) => match op.applies choice w with
    | some ⟨.tweets,key,x⟩ => some (key,x.value)
    | _ => none

/-- The call either has raised the author's counter by one and stored the tweet under the new id, or
it ends in one of its two exceptions and has stored nothing of the kind. -/
def AllOrNothing (userId : JString) (text id : Option JString) (tr : CallTrace) : Except Exn Tweet → Prop
  | .ok tweet => ∃ n, tr.filterMap raises = [(some n,some (n+1))] ∧
    tr.filterMap posts = [(tweetKey userId (n+1),⟨some (decimal tweet.date),text,some userId,id⟩)] ∧
    tweet.id = some (tweetKey userId (n+1))
  | .error e => (e = .backend ∨ e = .userNotFound) ∧ tr.filterMap raises = [] ∧ tr.filterMap posts = []

/-- A call that does not respond, or that finds what `tweet` cannot go on with. -/
def Fatal : World × Op × Choice → Prop
  | (_,_,.fails) => True
  | (_,_,.stored success) => success = false
  | (w,.get .users key,.go) => ∃ x, (w.store .users).value key = some x ∧ parseInt x.lastTweet = none
  | (w,.get .friendsTimeline user,.go) => ¬ HeadDated (w.timeline user)
  | _ => False

/-- Exceptions that `tweet` is not declared to throw, and that it does not catch. -/
def Undeclared (e : Exn) : Prop := e ≠ .obsoleteVersion ∧ e ≠ .backend ∧ e ≠ .userNotFound

def putsTweet : World × Op × Choice → Bool
  | (_,.put .tweets _ _,.go) => true
  | _ => false

def FindsTweet : World × Op × Choice → Prop
  | (w,.put .tweets key _,_) => w.store .tweets key ≠ []
  | _ => False

/-- All calls respond and the queue stores the command; the author's counter is a number below the
greatest `int` and his timeline starts with an entry that can be read; and the new id is free. -/
structure Unhindered (tr : CallTrace) : Prop where
  responds : ¬ LastCall Fatal tr
  below : ∀ x ∈ tr.filterMap raises, x.1 ≠ some (2^31-1)
  absent : ∀ c ∈ tr.find? putsTweet, ¬ FindsTweet c

section Calls

variable {job : Job} {w w' : World} {choice : Choice} {new : Option Job}

theorem exec_get_cases {n : StoreName} {key : JString} {r : Except Exn (Option (Versioned (Val n)))}
    (h : exec job (.get n key) choice w = some (r,w',new)) :
    choice = .go ∧ r = .ok ((w.store n).get key) ∨ choice = .fails ∧ r = .error .store := by
  cases choice <;> simp only [exec,Op.answer,Option.map_some,Option.map_none,Option.some.injEq,reduceCtorEq] at h
  · exact Or.inl ⟨rfl,(Prod.mk.inj h).1.symm⟩
  · exact Or.inr ⟨rfl,(Prod.mk.inj h).1.symm⟩

theorem exec_put_cases {n : StoreName} {key : JString} {x : Versioned (Val n)} {r : Except Exn Unit}
    (h : exec job (.put n key x) choice w = some (r,w',new)) :
    (choice = .go ∧ x.version = (w.store n key).length ∧ r = .ok ()) ∨
    (choice = .go ∧ x.version ≠ (w.store n key).length ∧ r = .error .obsoleteVersion) ∨
    (choice = .fails ∧ r = .error .store) := by
  cases choice <;> simp only [exec,Op.answer,Option.map_some,Option.map_none,Option.some.injEq,reduceCtorEq] at h
  · by_cases hv : x.version = (w.store n key).length
    · rw [if_pos hv] at h
      exact Or.inl ⟨rfl,hv,(Prod.mk.inj h).1.symm⟩
    · rw [if_neg hv] at h
      exact Or.inr (Or.inl ⟨rfl,hv,(Prod.mk.inj h).1.symm⟩)
  · exact Or.inr (Or.inr ⟨rfl,(Prod.mk.inj h).1.symm⟩)

end Calls

section Blames

variable {α : Type} (job : Job)

abbrev BlamesFatal (job : Job) (p : Client α) : Prop :=
  p.Blames (exec job) World.Grows Fatal Undeclared (· = .obsoleteVersion)

theorem blames_put {n : StoreName} {key : JString} {x : Versioned (Val n)} : BlamesFatal job (put n key x) := by
  refine Prog.Blames.op fun choice w r w' new h => ?_
  rcases exec_put_cases h with ⟨rfl,_,rfl⟩ | ⟨rfl,_,rfl⟩ | ⟨rfl,rfl⟩
  · exact ⟨False.elim,by simp⟩
  · exact ⟨False.elim,by simp⟩
  · exact ⟨fun _ => ⟨_,rfl,by simp [Undeclared]⟩,fun hf => absurd trivial hf⟩

theorem blames_submit (task : Job) : BlamesFatal job (Prog.op (Op.submit task)) := by
  refine Prog.Blames.op fun choice w r w' new h => ?_
  cases choice <;> simp only [exec,Op.answer,Option.map_some,Option.map_none,Option.some.injEq,reduceCtorEq] at h
  · rw [← (Prod.mk.inj h).1]
    exact ⟨False.elim,by simp⟩
  · rw [← (Prod.mk.inj h).1]
    exact ⟨fun _ => ⟨_,rfl,by simp [Undeclared]⟩,fun hf => absurd trivial hf⟩

theorem blames_iterator (set : List JString) : BlamesFatal job (iterator set) := by
  refine Prog.Blames.op fun choice w r w' new h => ?_
  cases choice <;> simp only [exec,Op.answer,Option.map_none,reduceCtorEq] at h
  split at h
  · cases h
    exact ⟨False.elim,by simp⟩
  · simp at h

theorem Malformed.undeclared {e : Exn} (h : Malformed e) : Undeclared e := by
  rcases h with rfl | rfl <;> simp [Undeclared]

theorem blames_updateTimeline {tweetId : JString} {tweetMap : TweetMap} (hdated : tweetMap.Dated) (user : JString) :
    BlamesFatal job (updateTimeline tweetId tweetMap user) := by
  intro w tr r w' h
  obtain ⟨w₁,choice,answer,w₂,new,tr',_,hexec,rfl,hrest⟩ := Prog.Ends.of_op_bind h
  rcases exec_get_cases hexec with ⟨rfl,rfl⟩ | ⟨rfl,rfl⟩
  · change Prog.Ends _ _ (liftExcept (insertTweet tweetId tweetMap (w₁.getTimeline user).value) >>= fun list =>
      put .friendsTimeline user ⟨list,(w₁.getTimeline user).version⟩) _ _ _ _ at hrest
    rw [getTimeline_value] at hrest
    cases hlist : insertTweet tweetId tweetMap (w₁.timeline user) with
    | error e =>
      rw [hlist] at hrest
      cases hrest
      rw [lastCall_singleton]
      refine ⟨fun _ => ⟨e,rfl,(insertTweet_error hlist).undeclared⟩,fun hhead => absurd (fun hdated' => ?_) hhead⟩
      obtain ⟨list,hok⟩ := insertTweet_ok hdated hdated' tweetId
      rw [hlist] at hok
      cases hok
    | ok list =>
      rw [hlist] at hrest
      have hput := blames_put job _ _ _ _ hrest
      have hne : tr' ≠ [] := by
        rintro rfl
        cases hrest
      rwa [lastCall_cons hne]
  · cases hrest
    rw [lastCall_singleton]
    exact ⟨fun _ => ⟨_,rfl,by simp [Undeclared]⟩,fun hf => absurd trivial hf⟩

theorem blames_submitAll (tweetId : JString) (tweetMap : TweetMap) (followers : List JString) :
    BlamesFatal job (submitAll tweetId tweetMap followers) := by
  induction followers with
  | nil => exact .ret
  | cons follower followers ih => exact (blames_submit job _).bind fun _ => ih

theorem blames_fanOut {tweetId : JString} {tweetMap : TweetMap} (hdated : tweetMap.Dated) (userId : JString)
    (user : UserMap) : BlamesFatal job (fanOut userId tweetId tweetMap user) :=
  (blames_iterator job _).bind fun followers => (blames_submitAll job tweetId tweetMap followers).bind fun _ =>
    blames_updateTimeline job hdated userId

/-- What is left of a `TweetCommand` when it has stored the tweet. -/
def deliver (userId tweetId : JString) (tweetMap : TweetMap) : Client Unit := do
  match ← getValue .users userId with
  | none => .ret ()
  | some user => fanOut userId tweetId tweetMap user

theorem blames_deliver {tweetId : JString} {tweetMap : TweetMap} (hdated : tweetMap.Dated) (userId : JString) :
    BlamesFatal job (deliver userId tweetId tweetMap) := by
  intro w tr r w' h
  rw [deliver,getValue,bind_assoc] at h
  obtain ⟨w₁,choice,answer,w₂,new,tr',_,hexec,rfl,hrest⟩ := Prog.Ends.of_op_bind h
  rcases exec_get_cases hexec with ⟨rfl,rfl⟩ | ⟨rfl,rfl⟩
  · change Prog.Ends _ _ (pure (((w₁.store .users).get userId).map (·.value)) >>= _) _ _ _ _ at hrest
    rw [pure_bind,Store.map_get] at hrest
    cases huser : (w₁.store .users).value userId with
    | none =>
      rw [huser] at hrest
      cases hrest
      rw [lastCall_singleton]
      refine ⟨?_,by simp⟩
      rintro ⟨x,hx,_⟩
      rw [huser] at hx
      cases hx
    | some user =>
      rw [huser] at hrest
      have hfanOut := blames_fanOut job hdated userId user _ _ _ _ hrest
      have hne : tr' ≠ [] := by
        rintro rfl
        cases hrest
      rwa [lastCall_cons hne]
  · cases hrest
    rw [lastCall_singleton]
    exact ⟨fun _ => ⟨_,rfl,by simp [Undeclared]⟩,fun hf => absurd trivial hf⟩

theorem blames_tweetCommand {tweetId : JString} {tweetMap : TweetMap} (hdated : tweetMap.Dated) (userId : JString) :
    BlamesFatal job (tweetCommand userId tweetId tweetMap) :=
  (blames_put job).bind fun _ => blames_deliver job hdated userId

end Blames

section Stored

variable {job : Job} {α : Type} {w w' : World} {tr : CallTrace} {userId tweetId : JString} {tweetMap : TweetMap}

theorem ends_grows {p : Client α} {r : Except Exn α} (h : p.Ends (exec job) World.Grows w tr r w') : w.Grows w' :=
  Prog.Ends.keeps World.Grows.refl (fun _ _ _ => World.Grows.trans) (fun _ _ h => h)
    (fun op choice w r w' new (h : exec job op choice w = some (r,w',new)) => exec_grows h) h

def Quiet : Op → Prop
  | .put n _ _ => n = .friendsTimeline
  | .putIfNotObsolete n _ _ => n = .friendsTimeline
  | _ => True

theorem Quiet.none {w : World} {op : Op} {choice : Choice} (h : Quiet op) :
    raises (w,op,choice) = none ∧ posts (w,op,choice) = none ∧ putsTweet (w,op,choice) = false := by
  cases op with
  | put n key x | putIfNotObsolete n key x =>
    obtain rfl : n = .friendsTimeline := h
    cases choice with
    | go => by_cases hv : x.version = (w.store .friendsTimeline key).length <;> simp [raises,posts,putsTweet,Op.applies,hv]
    | _ => simp [raises,posts,putsTweet,Op.applies]
  | _ => simp [raises,posts,putsTweet,Op.applies]

/-- What the calls of a trace have stored, and the first that puts a tweet. -/
structure Stored (tr : CallTrace) (raised : List (Option ℤ × Option ℤ)) (posted : List (JString × TweetMap))
    (first : Option (World × Op × Choice)) : Prop where
  raised : tr.filterMap raises = raised
  posted : tr.filterMap posts = posted
  first : tr.find? putsTweet = first

theorem stored_nil : Stored [] [] [] none := ⟨rfl,rfl,rfl⟩

theorem Stored.of_quiet (h : ∀ c ∈ tr, Quiet c.2.1) : Stored tr [] [] none := by
  induction tr with
  | nil => exact stored_nil
  | cons c tr ih =>
    obtain ⟨hc,htr⟩ := List.forall_mem_cons.mp h
    obtain ⟨hraises,hposts,hputs⟩ := @Quiet.none c.1 c.2.1 c.2.2 hc
    have hrest := ih htr
    refine ⟨?_,?_,?_⟩
    · rw [List.filterMap_cons_none hraises,hrest.raised]
    · rw [List.filterMap_cons_none hposts,hrest.posted]
    · rw [List.find?_cons_of_neg (by simpa using hputs),hrest.first]

theorem Stored.append {tr' : CallTrace} {raised raised' : List (Option ℤ × Option ℤ)}
    {posted posted' : List (JString × TweetMap)} {first first' : Option (World × Op × Choice)}
    (h : Stored tr raised posted first) (h' : Stored tr' raised' posted' first') :
    Stored (tr++tr') (raised++raised') (posted++posted') (first.or first') := by
  refine ⟨?_,?_,?_⟩
  · rw [List.filterMap_append,h.raised,h'.raised]
  · rw [List.filterMap_append,h.posted,h'.posted]
  · rw [List.find?_append,h.first,h'.first]

theorem quiet_deliver (userId tweetId : JString) (tweetMap : TweetMap) :
    (deliver userId tweetId tweetMap).All Quiet := by
  refine (all_getValue (show Quiet (.get _ _) from trivial)).bind fun x => ?_
  cases x with
  | none => trivial
  | some user =>
    refine (Prog.All.op (show Quiet (.iterator _) from trivial)).bind fun followers => Prog.All.bind ?_ fun _ => ?_
    · induction followers with
      | nil => trivial
      | cons follower followers ih => exact (Prog.All.op (show Quiet (.submit _) from trivial)).bind fun _ => ih
    · exact (Prog.All.op (show Quiet (.get _ _) from trivial)).bind fun _ => (all_liftExcept _).bind fun _ =>
        Prog.All.op rfl

theorem stored_deliver {r : Except Exn Unit}
    (h : (deliver userId tweetId tweetMap).Ends (exec job) World.Grows w tr r w') : Stored tr [] [] none :=
  .of_quiet ((quiet_deliver userId tweetId tweetMap).trace h)

theorem stored_put (hw : w.store .tweets tweetId = []) : Stored [(w,.put .tweets tweetId ⟨tweetMap,0⟩,.go)] []
    [(tweetId,tweetMap)] (some (w,.put .tweets tweetId ⟨tweetMap,0⟩,.go)) := by
  constructor <;> simp [raises,posts,putsTweet,Op.applies,hw]

theorem stored_put_conflict (hw : w.store .tweets tweetId ≠ []) : Stored [(w,.put .tweets tweetId ⟨tweetMap,0⟩,.go)] []
    [] (some (w,.put .tweets tweetId ⟨tweetMap,0⟩,.go)) := by
  have hversion : ¬ 0 = (w.store .tweets tweetId).length := fun h => hw (List.length_eq_zero_iff.mp h.symm)
  constructor <;> simp [raises,posts,putsTweet,Op.applies,hversion]

theorem stored_put_fails (w : World) (n : StoreName) (key : JString) (x : Versioned (Val n)) :
    Stored [(w,.put n key x,.fails)] [] [] none := by
  constructor <;> simp [raises,posts,putsTweet,Op.applies]

/-- One attempt of a `TweetCommand` stores the tweet and delivers it, or it finds a tweet under the
id, or the store does not respond. -/
theorem stored_tweetCommand {r : Except Exn Unit}
    (h : (tweetCommand userId tweetId tweetMap).Ends (exec job) World.Grows w tr r w') :
    (∃ c, Stored tr [] [(tweetId,tweetMap)] (some c) ∧ ¬ FindsTweet c ∧ w.store .tweets tweetId = [] ∧
      w'.store .tweets tweetId ≠ []) ∨
    (∃ c, Stored tr [] [] (some c) ∧ FindsTweet c ∧ w'.store .tweets tweetId ≠ [] ∧ r = .error .obsoleteVersion) ∨
    Stored tr [] [] none ∧ r = .error .store := by
  obtain ⟨w₁,choice,answer,w₂,new,tr',hgrows,hexec,rfl,hrest⟩ := Prog.Ends.of_op_bind h
  have hlater : w₁.Grows w' := (exec_grows hexec).trans (ends_grows hrest)
  rcases exec_put_cases hexec with ⟨rfl,hversion,rfl⟩ | ⟨rfl,hversion,rfl⟩ | ⟨rfl,rfl⟩
  · have hw₁ : w₁.store .tweets tweetId = [] := List.length_eq_zero_iff.mp hversion.symm
    have hw : w.store .tweets tweetId = [] := by
      by_contra hne
      exact (hgrows.store .tweets).ne_nil hne hw₁
    rw [exec_put job hversion] at hexec
    cases hexec
    have hput : Stored [_] [] [(tweetId,tweetMap)] (some _) := stored_put hw₁
    refine Or.inl ⟨_,hput.append (stored_deliver hrest),fun hfinds => hfinds hw₁,hw,?_⟩
    refine ((ends_grows hrest).store .tweets).ne_nil ?_
    simp [World.logWrite]
  · cases hrest
    have hw₁ : w₁.store .tweets tweetId ≠ [] := fun hnil => hversion (by rw [hnil]; rfl)
    exact Or.inr (Or.inl ⟨_,stored_put_conflict hw₁,hw₁,(hlater.store .tweets).ne_nil hw₁,rfl⟩)
  · cases hrest
    exact Or.inr (Or.inr ⟨stored_put_fails _ _ _ _,rfl⟩)

theorem stored_retry_conflict {n : ℕ} {r : Except Exn (Option Unit)} (hstored : w.store .tweets tweetId ≠ [])
    (h : ((tweetCommand userId tweetId tweetMap).retry (· = .obsoleteVersion) n).Ends (exec job) World.Grows w tr r w') :
    ∃ first, Stored tr [] [] first ∧ ∀ c ∈ first, FindsTweet c := by
  induction n generalizing w tr with
  | zero =>
    cases h
    exact ⟨none,stored_nil,by simp⟩
  | succ n ih =>
    obtain ⟨tr₁,r₁,w₁,tr₂,rfl,h₁,h₂⟩ := Prog.Ends.of_andThen h
    rcases stored_tweetCommand h₁ with ⟨_,_,_,hfree,_⟩ | ⟨c,hc,hfinds,hw₁,rfl⟩ | ⟨hnone,rfl⟩
    · exact absurd hfree hstored
    · obtain ⟨first,hfirst,_⟩ := ih hw₁ h₂
      exact ⟨some c,hc.append hfirst,by simpa using hfinds⟩
    · cases h₂
      exact ⟨none,by simpa using hnone,by simp⟩

theorem stored_retry {n : ℕ} {r : Except Exn (Option Unit)}
    (h : ((tweetCommand userId tweetId tweetMap).retry (· = .obsoleteVersion) (n+1)).Ends (exec job) World.Grows w tr r w') :
    (∃ c, Stored tr [] [(tweetId,tweetMap)] (some c) ∧ ¬ FindsTweet c) ∨
    (∃ c, Stored tr [] [] (some c) ∧ FindsTweet c) ∨ ∃ e, r = .error e := by
  obtain ⟨tr₁,r₁,w₁,tr₂,rfl,h₁,h₂⟩ := Prog.Ends.of_andThen h
  rcases stored_tweetCommand h₁ with ⟨c,hc,hfinds,_,hw₁⟩ | ⟨c,hc,hfinds,hw₁,rfl⟩ | ⟨_,rfl⟩
  · cases r₁ with
    | ok a =>
      cases h₂
      exact Or.inl ⟨c,by simpa using hc,hfinds⟩
    | error e =>
      by_cases he : e = .obsoleteVersion
      · subst he
        obtain ⟨first,hfirst,_⟩ := stored_retry_conflict hw₁ h₂
        exact Or.inl ⟨c,hc.append hfirst,hfinds⟩
      · change Prog.Ends _ _ (if decide (e = .obsoleteVersion) then _ else .throw e) _ _ _ _ at h₂
        rw [if_neg (by simpa using he)] at h₂
        cases h₂
        exact Or.inr (Or.inr ⟨e,rfl⟩)
  · obtain ⟨first,hfirst,_⟩ := stored_retry_conflict hw₁ h₂
    exact Or.inr (Or.inl ⟨c,hc.append hfirst,hfinds⟩)
  · cases h₂
    exact Or.inr (Or.inr ⟨_,rfl⟩)

end Stored

section Outcomes

variable {job : Job} {w w' : World} {tr : CallTrace} {userId tweetId : JString} {tweetMap : TweetMap}

/-- Up to here the counter was raised as in `raised`, and the tweet is stored under a free id, or
one is there already. -/
def PostedAs (raised : List (Option ℤ × Option ℤ)) (tweetId : JString) (tweetMap : TweetMap) (tr : CallTrace) : Prop :=
  ¬ LastCall Fatal tr ∧ ∃ c, (Stored tr raised [(tweetId,tweetMap)] (some c) ∧ ¬ FindsTweet c) ∨
    (Stored tr raised [] (some c) ∧ FindsTweet c)

def Failed {α : Type} (tr : CallTrace) (r : Except Exn α) : Prop :=
  LastCall Fatal tr ∧ ∃ e, r = .error e ∧ Undeclared e

theorem Stored.ne_nil {raised : List (Option ℤ × Option ℤ)} {posted : List (JString × TweetMap)}
    {c : World × Op × Choice} (h : Stored tr raised posted (some c)) : tr ≠ [] := by
  rintro rfl
  cases h.first

theorem PostedAs.append {tr' : CallTrace} {raised raised' : List (Option ℤ × Option ℤ)} (h : Stored tr raised [] none)
    (h' : PostedAs raised' tweetId tweetMap tr') : PostedAs (raised++raised') tweetId tweetMap (tr++tr') := by
  obtain ⟨hlast,c,⟨hc,hfinds⟩ | ⟨hc,hfinds⟩⟩ := h'
  · exact ⟨by rwa [lastCall_append _ hc.ne_nil],c,Or.inl ⟨h.append hc,hfinds⟩⟩
  · exact ⟨by rwa [lastCall_append _ hc.ne_nil],c,Or.inr ⟨h.append hc,hfinds⟩⟩

theorem Failed.append {α β : Type} {tr' : CallTrace} {r : Except Exn α} {r' : Except Exn β} (tr : CallTrace)
    (h : Failed tr' r) (hr : ∀ e, r = .error e → r' = .error e) : Failed (tr++tr') r' := by
  obtain ⟨hlast,e,he,hbad⟩ := h
  have hne : tr' ≠ [] := by
    rintro rfl
    exact lastCall_nil hlast
  exact ⟨(lastCall_append tr hne).mpr hlast,e,hr e he,hbad⟩

theorem ends_execute (hdated : tweetMap.Dated) {r : Except Exn Unit}
    (h : (Command.tweet userId tweetId tweetMap).execute.Ends (exec job) World.Grows w tr r w') :
    Failed tr r ∨ r = .ok () ∧ PostedAs [] tweetId tweetMap tr := by
  obtain ⟨tr₁,r₁,w₁,tr₂,rfl,h₁,h₂⟩ := Prog.Ends.of_andThen h
  change ((tweetCommand userId tweetId tweetMap).retry (fun e => decide (e = .obsoleteVersion)) 3).Ends _ _ _ _ _ _ at h₁
  have hretry := (@blames_tweetCommand job tweetId tweetMap hdated userId).retry
    (fun e he => decide_eq_false he.1) (fun e he => decide_eq_true he) 3
  have hblames := hretry _ _ _ _ h₁
  cases r₁ with
  | error e =>
    cases h₂
    rw [List.append_nil]
    by_cases hlast : LastCall Fatal tr₁
    · exact Or.inl ⟨hlast,by simpa using hblames.1 hlast⟩
    · exact (hblames.2 hlast e rfl).elim
  | ok success =>
    cases h₂
    rw [List.append_nil]
    have hlast : ¬ LastCall Fatal tr₁ := fun hlast => by
      obtain ⟨e,he,_⟩ := hblames.1 hlast
      cases he
    rcases stored_retry h₁ with ⟨c,hc,hfinds⟩ | ⟨c,hc,hfinds⟩ | ⟨e,he⟩
    · exact Or.inr ⟨rfl,hlast,c,Or.inl ⟨hc,hfinds⟩⟩
    · exact Or.inr ⟨rfl,hlast,c,Or.inr ⟨hc,hfinds⟩⟩
    · cases he

/-- `commandQueue.add` in the update of a tweet. -/
def addTweet (userId tweetId : JString) (tweetMap : TweetMap) : Client JString := do
  if ← Prog.op (Op.storeRemotely (.tweet userId tweetId tweetMap)) then
    (Command.tweet userId tweetId tweetMap).execute
    return tweetId
  else .throw .runtime

theorem quiet_call {op : Op} (h : Quiet op) (w : World) (choice : Choice) : Stored [(w,op,choice)] [] [] none :=
  .of_quiet (by simpa using h)

theorem ends_addTweet (hdated : tweetMap.Dated) {r : Except Exn JString}
    (h : (addTweet userId tweetId tweetMap).Ends (exec job) World.Grows w tr r w') :
    Failed tr r ∨ r = .ok tweetId ∧ PostedAs [] tweetId tweetMap tr := by
  obtain ⟨w₁,choice,answer,w₂,new,tr',_,hexec,rfl,hrest⟩ := Prog.Ends.of_op_bind h
  cases choice <;> simp only [exec,Op.answer,Option.map_some,Option.map_none,Option.some.injEq,reduceCtorEq] at hexec
  rename_i success
  obtain ⟨rfl,_⟩ := Prod.mk.inj hexec
  cases success with
  | false =>
    cases hrest
    exact Or.inl ⟨lastCall_singleton.mpr rfl,_,rfl,by simp [Undeclared]⟩
  | true =>
    obtain ⟨tr₁,r₁,w₃,tr₂,rfl,h₁,h₂⟩ := Prog.Ends.of_andThen hrest
    have hcall := quiet_call (show Quiet (.storeRemotely (.tweet userId tweetId tweetMap)) from trivial) w₁ (.stored true)
    rcases ends_execute hdated h₁ with hfailed | ⟨rfl,hposted⟩
    · have hfailed' := hfailed
      obtain ⟨_,e,rfl,_⟩ := hfailed'
      cases h₂
      rw [List.append_nil]
      exact Or.inl (hfailed.append [_] fun e' he' => by cases he'; rfl)
    · cases h₂
      rw [List.append_nil]
      exact Or.inr ⟨rfl,PostedAs.append hcall hposted⟩

def Overtaken (tr : CallTrace) : Prop := ¬ LastCall Fatal tr ∧ Stored tr [] [] none

theorem Overtaken.append {tr' : CallTrace} (h : Overtaken tr) (h' : Overtaken tr') : Overtaken (tr++tr') := by
  refine ⟨?_,h.2.append h'.2⟩
  by_cases hnil : tr' = []
  · subst hnil
    rw [List.append_nil]
    exact h.1
  · rw [lastCall_append _ hnil]
    exact h'.1

/-- The author's counter was `n`, and the tweet got the next number. -/
def NumberedNext (userId : JString) (tweetMap : TweetMap) (n : ℤ) (tr : CallTrace) : Prop :=
  (-2^31 ≤ n ∧ n < 2^31) ∧
    PostedAs [(some n,some (wrap 32 (n+1)))] (tweetKey userId (wrap 32 (n+1))) tweetMap tr

theorem Overtaken.next {tr' : CallTrace} {n : ℤ} (h : Overtaken tr) (h' : NumberedNext userId tweetMap n tr') :
    NumberedNext userId tweetMap n (tr++tr') := ⟨h'.1,h'.2.append h.2⟩

theorem stored_raise {x : UserMap} {version : ℕ} {n : ℤ} (hversion : version = (w.store .users userId).length)
    (hvalue : (w.store .users).value userId = some x) (hn : parseInt x.lastTweet = some n) (m : ℤ) :
    Stored [(w,.put .users userId ⟨{ x with lastTweet := some (decimal (wrap 32 m)) },version⟩,.go)]
      [(some n,some (wrap 32 m))] [] none := by
  have hparse : parseInt (some (decimal (wrap 32 m))) = some (wrap 32 m) := parse_decimal (wrap_range 31 m)
  constructor <;> simp [raises,posts,putsTweet,Op.applies,hversion,hvalue,hn,hparse]

theorem stored_raise_conflict {x : Versioned UserMap} (hversion : x.version ≠ (w.store .users userId).length) :
    Stored [(w,.put .users userId x,.go)] [] [] none := by
  constructor <;> simp [raises,posts,putsTweet,Op.applies,hversion]

/-- One attempt of the update: it fails, or it is overtaken, or the tweet gets its number. -/
theorem ends_tweetUpdate (hdated : tweetMap.Dated) (hreg : w.store .users userId ≠ []) {r : Except Exn JString}
    (h : (tweetUpdate userId tweetMap).Ends (exec job) World.Grows w tr r w') :
    Failed tr r ∨ r = .error .obsoleteVersion ∧ Overtaken tr ∨
      ∃ n, r = .ok (tweetKey userId (wrap 32 (n+1))) ∧ NumberedNext userId tweetMap n tr := by
  obtain ⟨w₁,choice,answer,w₂,new,tr₁,hgrows,hexec,rfl,hrest⟩ := Prog.Ends.of_op_bind h
  have hget := quiet_call (show Quiet (.get .users userId) from trivial) w₁ choice
  have hw₂ : w₁.Grows w₂ := exec_grows hexec
  rcases exec_get_cases hexec with ⟨rfl,rfl⟩ | ⟨rfl,rfl⟩
  · obtain ⟨x,hx⟩ : ∃ x, (w₁.store .users).get userId = some x := by
      cases hw₁ : w₁.store .users userId with
      | nil => exact absurd hw₁ ((hgrows.store .users).ne_nil hreg)
      | cons y ys => exact ⟨⟨y,ys.length+1⟩,by simp [Store.get,hw₁]⟩
    rw [hx] at hrest
    change Prog.Ends _ _ (orThrow .numberFormat (parseInt x.value.lastTweet) >>= _) _ _ _ _ at hrest
    cases hn : parseInt x.value.lastTweet with
    | none =>
      rw [hn] at hrest
      cases hrest
      refine Or.inl ⟨lastCall_singleton.mpr ⟨x.value,?_,hn⟩,_,rfl,by simp [Undeclared]⟩
      rw [← Store.map_get,hx]
      rfl
    | some n =>
      have hrange := parse_range (Option.bind_eq_some_iff.mp hn).choose_spec.2
      let x' : Versioned UserMap := ⟨{ x.value with lastTweet := some (decimal (wrap 32 (n+1))) },x.version⟩
      rw [hn] at hrest
      change Prog.Ends _ _ (put .users userId x' >>= fun _ =>
        addTweet userId (tweetKey userId (wrap 32 (n+1))) tweetMap) _ _ _ _ at hrest
      obtain ⟨w₃,choice',answer',w₄,new',tr₂,hgrows',hexec',rfl,hrest'⟩ := Prog.Ends.of_op_bind hrest
      rcases exec_put_cases hexec' with ⟨rfl,hversion,rfl⟩ | ⟨rfl,hversion,rfl⟩ | ⟨rfl,rfl⟩
      · have hvalue : (w₃.store .users).value userId = some x.value :=
          value_of_get hx (hw₂.trans hgrows') hversion
        have hraise := hget.append (stored_raise hversion hvalue hn (n+1))
        rcases ends_addTweet hdated hrest' with hfailed | ⟨rfl,hposted⟩
        · exact Or.inl (hfailed.append [_,_] fun e he => he)
        · exact Or.inr (Or.inr ⟨n,rfl,hrange,PostedAs.append hraise hposted⟩)
      · cases hrest'
        refine Or.inr (Or.inl ⟨rfl,?_,hget.append (stored_raise_conflict hversion)⟩)
        rw [lastCall_cons (by simp),lastCall_singleton]
        exact False.elim
      · cases hrest'
        refine Or.inl ⟨?_,_,rfl,by simp [Undeclared]⟩
        rw [lastCall_cons (by simp),lastCall_singleton]
        trivial
  · cases hrest
    exact Or.inl ⟨lastCall_singleton.mpr trivial,_,rfl,by simp [Undeclared]⟩

theorem ends_tweetUpdates (hdated : tweetMap.Dated) {n : ℕ} (hreg : w.store .users userId ≠ [])
    {r : Except Exn (Option JString)}
    (h : ((tweetUpdate userId tweetMap).retry (· = .obsoleteVersion) n).Ends (exec job) World.Grows w tr r w') :
    Failed tr r ∨ r = .ok none ∧ Overtaken tr ∨
      ∃ m, r = .ok (some (tweetKey userId (wrap 32 (m+1)))) ∧ NumberedNext userId tweetMap m tr := by
  induction n generalizing w tr with
  | zero =>
    cases h
    exact Or.inr (Or.inl ⟨rfl,lastCall_nil,stored_nil⟩)
  | succ n ih =>
    obtain ⟨tr₁,r₁,w₁,tr₂,rfl,h₁,h₂⟩ := Prog.Ends.of_andThen h
    have hreg₁ : w₁.store .users userId ≠ [] := ((ends_grows h₁).store .users).ne_nil hreg
    rcases ends_tweetUpdate hdated hreg h₁ with ⟨hlast,e,rfl,hbad⟩ | ⟨rfl,hover⟩ | ⟨m,rfl,hnext⟩
    · change Prog.Ends _ _ (if decide (e = .obsoleteVersion) then _ else .throw e) _ _ _ _ at h₂
      rw [if_neg (by simpa using hbad.1)] at h₂
      cases h₂
      rw [List.append_nil]
      exact Or.inl ⟨hlast,e,rfl,hbad⟩
    · rcases ih hreg₁ h₂ with hfailed | ⟨rfl,hover'⟩ | ⟨m,rfl,hnext⟩
      · exact Or.inl (hfailed.append tr₁ fun e he => he)
      · exact Or.inr (Or.inl ⟨rfl,hover.append hover'⟩)
      · exact Or.inr (Or.inr ⟨m,rfl,hover.next hnext⟩)
    · cases h₂
      rw [List.append_nil]
      exact Or.inr (Or.inr ⟨m,rfl,hnext⟩)

theorem tweetUpdates_ne_nil {n : ℕ} {r : Except Exn (Option JString)}
    (h : ((tweetUpdate userId tweetMap).retry (· = .obsoleteVersion) (n+1)).Ends (exec job) World.Grows w tr r w') :
    tr ≠ [] := by
  obtain ⟨tr₁,r₁,w₁,tr₂,rfl,h₁,_⟩ := Prog.Ends.of_andThen h
  obtain ⟨_,_,_,_,_,_,_,_,rfl,_⟩ := Prog.Ends.of_op_bind h₁
  simp

variable {text id : Option JString}

theorem allOrNothing_of_failed {r : Except Exn Tweet} (h : Failed tr r) :
    AllOrNothing userId text id tr r ↔ Unhindered tr := by
  obtain ⟨hlast,e,rfl,_,hbackend,hunknown⟩ := h
  refine ⟨?_,fun hu => absurd hlast hu.responds⟩
  rintro ⟨he | he,_⟩
  · exact absurd he hbackend
  · exact absurd he hunknown

theorem allOrNothing_of_overtaken {e : Exn} (he : e = .backend ∨ e = .userNotFound) (h : Overtaken tr) :
    AllOrNothing userId text id tr (.error e) ↔ Unhindered tr := by
  obtain ⟨hlast,hstored⟩ := h
  refine iff_of_true ⟨he,hstored.raised,hstored.posted⟩ ⟨hlast,?_,?_⟩
  · rw [hstored.raised]
    simp
  · rw [hstored.first]
    simp

theorem wrap_add_one_iff {n : ℤ} (h : -2^31 ≤ n ∧ n < 2^31) : wrap 32 (n+1) = n+1 ↔ n ≠ 2^31-1 := by
  constructor
  · rintro hwrap rfl
    have hlt : wrap 32 (2^31-1+1) < 2^31 := (wrap_range 31 (2^31-1+1)).2
    omega
  · intro hne
    exact wrap_eq_self ⟨by omega,by omega⟩

theorem allOrNothing_of_numbered {date n : ℤ}
    (h : NumberedNext userId ⟨some (decimal date),text,some userId,id⟩ n tr) :
    AllOrNothing userId text id tr (.ok ⟨date,text,some userId,some (tweetKey userId (wrap 32 (n+1)))⟩) ↔
      Unhindered tr := by
  obtain ⟨hrange,hlast,c,hc⟩ := h
  have hraised : tr.filterMap raises = [(some n,some (wrap 32 (n+1)))] := hc.elim (·.1.raised) (·.1.raised)
  have hfirst : tr.find? putsTweet = some c := hc.elim (·.1.first) (·.1.first)
  constructor
  · rintro ⟨m,hm,hposted,_⟩
    rw [hraised] at hm
    simp only [List.cons.injEq,Prod.mk.injEq,Option.some.injEq,and_true] at hm
    obtain ⟨rfl,hwrap⟩ := hm
    refine ⟨hlast,?_,?_⟩
    · rw [hraised]
      simpa using (wrap_add_one_iff hrange).mp hwrap
    · rw [hfirst]
      rcases hc with ⟨_,hfinds⟩ | ⟨hstored,_⟩
      · simpa using hfinds
      · rw [hstored.posted] at hposted
        cases hposted
  · rintro ⟨_,hbelow,habsent⟩
    have hwrap : wrap 32 (n+1) = n+1 := by
      rw [hraised] at hbelow
      exact (wrap_add_one_iff hrange).mpr (by simpa using hbelow)
    rcases hc with ⟨hstored,_⟩ | ⟨_,hfinds⟩
    · exact ⟨n,by rw [hraised,hwrap],by rw [hstored.posted,hwrap],by rw [hwrap]⟩
    · exact absurd hfinds (habsent c hfirst)

/-- A call fails, or it is overtaken in all attempts or does not find the author, or the tweet gets
the next number. -/
theorem ends_tweet {r : Except Exn Tweet} (h : (tweet userId text id).Ends (exec job) World.Grows w tr r w') :
    Failed tr r ∨ (∃ e, r = .error e ∧ (e = .backend ∨ e = .userNotFound) ∧ Overtaken tr) ∨
      ∃ date n, r = .ok ⟨date,text,some userId,some (tweetKey userId (wrap 32 (n+1)))⟩ ∧
        NumberedNext userId ⟨some (decimal date),text,some userId,id⟩ n tr := by
  obtain ⟨w₁,choice,answer,w₂,new,tr₁,_,hexec,rfl,hrest⟩ := Prog.Ends.of_op_bind h
  have hnow := quiet_call (show Quiet .now from trivial) w₁ choice
  cases choice <;> simp only [exec,Op.answer,Option.map_none,reduceCtorEq] at hexec
  rename_i date
  by_cases hdate : -2^63 ≤ date ∧ date < 2^63
  · rw [if_pos hdate] at hexec
    cases hexec
    let tweetMap : TweetMap := ⟨some (decimal date),text,some userId,id⟩
    have hdated : tweetMap.Dated := Option.isSome_iff_exists.mpr ⟨date,parse_decimal hdate⟩
    obtain ⟨w₃,choice',answer',w₄,new',tr₂,_,hexec',rfl,hrest'⟩ := Prog.Ends.of_op_bind hrest
    have hstart := hnow.append (quiet_call (show Quiet (.get .users userId) from trivial) w₃ choice')
    rcases exec_get_cases hexec' with ⟨rfl,rfl⟩ | ⟨rfl,rfl⟩
    · cases hx : (w₃.store .users).get userId with
      | none =>
        rw [hx] at hrest'
        cases hrest'
        refine Or.inr (Or.inl ⟨_,rfl,Or.inr rfl,?_,hstart⟩)
        rw [lastCall_cons (by simp),lastCall_singleton]
        rintro ⟨x,hvalue,_⟩
        rw [← Store.map_get,hx] at hvalue
        cases hvalue
      | some x =>
        rw [hx] at hrest'
        change Prog.Ends _ _ (applyUpdate (tweetUpdate userId tweetMap) >>= _) _ _ _ _ at hrest'
        obtain ⟨tr₃,r₃,w₅,tr₄,rfl,h₃,h₄⟩ := Prog.Ends.of_andThen hrest'
        have hreg : w₄.store .users userId ≠ [] := by
          obtain ⟨xs,hxs,_⟩ := Store.get_eq_some.mp hx
          exact ((exec_grows hexec').store .users).ne_nil (by simp [hxs])
        rcases ends_tweetUpdates hdated hreg h₃ with hfailed | ⟨rfl,hover⟩ | ⟨n,rfl,hnext⟩
        · have hfailed' := hfailed
          obtain ⟨_,e,rfl,_⟩ := hfailed'
          cases h₄
          rw [List.append_nil]
          exact Or.inl (hfailed.append [_,_] fun e' he' => by cases he'; rfl)
        · cases h₄
          rw [List.append_nil]
          refine Or.inr (Or.inl ⟨_,rfl,Or.inl rfl,?_,hstart.append hover.2⟩)
          exact (lastCall_append [_,_] (tweetUpdates_ne_nil h₃)).not.mpr hover.1
        · cases h₄
          rw [List.append_nil]
          exact Or.inr (Or.inr ⟨date,n,rfl,hnext.1,PostedAs.append hstart hnext.2⟩)
    · cases hrest'
      refine Or.inl ⟨?_,_,rfl,by simp [Undeclared]⟩
      rw [lastCall_cons (by simp),lastCall_singleton]
      trivial
  · rw [if_neg hdate] at hexec
    cases hexec

/-- A call of `tweet` is all or nothing exactly if it is not hindered by anything but other clients
who write the author's map. -/
theorem tweet_all_or_nothing_iff {r : Except Exn Tweet}
    (h : (tweet userId text id).Ends (exec job) World.Grows w tr r w') :
    AllOrNothing userId text id tr r ↔ Unhindered tr := by
  rcases ends_tweet h with hfailed | ⟨e,rfl,he,hover⟩ | ⟨date,n,rfl,hnext⟩
  · exact allOrNothing_of_failed hfailed
  · exact allOrNothing_of_overtaken he hover
  · exact allOrNothing_of_numbered hnext

end Outcomes

section Examples

def newcomer : World where
  store
    | .users => Function.update (fun _ => []) ['a'] [{ lastTweet := some ['0'] }]
    | .tweets => fun _ => []
    | .friendsTimeline => fun _ => []
  history := []

/-- The queue cannot store the command: the counter stays raised without a tweet, and the exception
is not one that `tweet` declares. -/
theorem tweet_refused : ∃ tr w', (tweet ['a'] none none).Ends (exec (.tweet ['a'] none none)) World.Grows newcomer tr
    (.error .runtime) w' ∧ tr.filterMap raises = [(some 0,some 1)] ∧ tr.filterMap posts = [] ∧
    ¬ AllOrNothing ['a'] none none tr (.error .runtime) := by
  have hrun : ((tweet ['a'] none none).alone (exec (.tweet ['a'] none none)) [.time 0,.go,.go,.go,.stored false]
      newcomer).map (fun x => (match x.2.1 with | .error e => some e | .ok _ => none,
        decide (x.1.filterMap raises = [(some 0,some 1)] ∧ x.1.filterMap posts = []))) =
          some (some .runtime,true) := by decide +kernel
  obtain ⟨⟨tr,r,w'⟩,h,hrun⟩ := Option.map_eq_some_iff.mp hrun
  obtain ⟨hr,hstored⟩ := Prod.mk.inj hrun
  obtain ⟨hraises,hposts⟩ := of_decide_eq_true hstored
  cases r with
  | ok t => cases hr
  | error e =>
    cases hr
    refine ⟨tr,w',Prog.ends_of_alone World.Grows.refl h,hraises,hposts,?_⟩
    rintro ⟨he | he,_⟩ <;> cases he

instance (c : World × Op × Choice) : Decidable (Fatal c) := by
  obtain ⟨w,op,choice⟩ := c
  cases choice with
  | fails => exact isTrue trivial
  | stored success => exact inferInstanceAs (Decidable (success = false))
  | go =>
    induction op using Op.casesOn with
    | get n key =>
      cases n with
      | users => exact decidable_of_iff (∃ x ∈ (w.store .users).value key, parseInt x.lastTweet = none) (by simp [Fatal])
      | tweets => exact isFalse id
      | friendsTimeline => exact inferInstanceAs (Decidable (¬ HeadDated (w.timeline key)))
    | _ => exact isFalse id
  | _ => exact isFalse id

instance (c : World × Op × Choice) : Decidable (FindsTweet c) := by
  obtain ⟨w,op,choice⟩ := c
  induction op using Op.casesOn with
  | put n key x =>
    cases n with
    | tweets => exact inferInstanceAs (Decidable (w.store .tweets key ≠ []))
    | _ => exact isFalse id
  | _ => exact isFalse id

/-- `a` tweets twice at the same time, and the second call raises the counter before the first does. -/
def tweetsAtOnce : List Event :=
  [.start (.tweet ['a'] none none),.start (.tweet ['a'] none none),.thread 0 (.time 0),.thread 0 .go,.thread 0 .go,
    .thread 1 (.time 1),.thread 1 .go,.thread 1 .go,.thread 1 .go,.thread 0 .go,.thread 0 .go,.thread 0 .go,
    .thread 0 (.stored true),.thread 0 .go,.thread 0 .go,.thread 0 (.order []),.thread 0 .go,.thread 0 .go]

/-- Another client wins the first put of the map; the call is not hindered by that. -/
theorem tweet_all_or_nothing_overtaken : ∃ tr w w', AllOrNothing ['a'] none none tr
    (.ok ⟨0,none,some ['a'],some ['a','-','2']⟩) ∧ tr = machine.calls 0 tweetsAtOnce ⟨newcomer,[]⟩ ∧
    tr.countP conflict = 1 ∧ (tweet ['a'] none none).Ends (exec (.tweet ['a'] none none)) World.Grows w tr
      (.ok ⟨0,none,some ['a'],some ['a','-','2']⟩) w' := by
  have hreturned : returned 0 tweetsAtOnce ⟨newcomer,[]⟩ =
      some (.tweet ['a'] none none,some ⟨0,none,some ['a'],some ['a','-','2']⟩) := by decide +kernel
  obtain ⟨w,w',hends⟩ := ends_of_returned rfl hreturned
  change (some <$> tweet ['a'] none none).Ends _ _ _ _ _ _ at hends
  rw [map_eq_pure_bind] at hends
  obtain ⟨tr₁,r₁,w₁,tr₂,htr,h₁,h₂⟩ := Prog.Ends.of_andThen hends
  cases r₁ with
  | error e => cases h₂
  | ok t =>
    cases h₂
    rw [List.append_nil] at htr
    subst htr
    refine ⟨_,w,w',(tweet_all_or_nothing_iff h₁).mpr ⟨?_,?_,?_⟩,rfl,?_,h₁⟩
    · unfold LastCall
      decide +kernel
    · decide +kernel
    · decide +kernel
    · decide +kernel

end Examples

end TweetService
end Bigbird
