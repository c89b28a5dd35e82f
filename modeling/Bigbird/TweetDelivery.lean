import Bigbird.Deliveries
import Bigbird.TimelineHistory
import Bigbird.TweetOutcomes

/-! Where the tweets that were posted have to be when nothing is under way any more, whatever else
was done at the same time. -/
namespace Bigbird
namespace TweetService

open JavaText VersionedStore Programs

/-- The calls of a fan-out are `tweet`'s own and those of its tasks. -/
def Job.fansOut : Job → Prop
  | .tweet _ _ _ => True
  | .updateTimeline _ _ _ => True
  | _ => False

/-- Nobody gets in the way of the call: it is answered, and a tweet or a timeline is stored under
the version that was read, after entries of which the first one can be compared. -/
def GoesThrough (op : Op) (choice : Choice) (w : World) : Prop :=
  choice ≠ .fails ∧ match op with
  | .put .tweets tweetId x => x.version = (w.store .tweets tweetId).length
  | .put .friendsTimeline user x => x.version = (w.store .friendsTimeline user).length
  | .get .friendsTimeline user => HeadDated (w.timeline user)
  | _ => True

def FansOut (j : Job) (op : Op) (choice : Choice) (w : World) : Prop := j.fansOut → GoesThrough op choice w

def PutInto (h : History) (user e : JString) : Prop :=
  ∃ (j : Job) (x : Versioned (Val .friendsTimeline)),
    (j,⟨Op.put .friendsTimeline user x,.ok ()⟩) ∈ h ∧ e ∈ x.value

/-- With the author's record `x`: the entry is in a timeline of the author that was stored, and the
job has submitted a task for each of the followers in the record. -/
def FannedOut (h : History) (j : Job) (userId tweetId : JString) (tweetMap : TweetMap) (x : Versioned UserMap) : Prop :=
  PutInto h userId (entry tweetId tweetMap) ∧
    ∀ f ∈ asSet x.value.followers, (j,⟨.submit (.updateTimeline tweetId tweetMap f),.ok ()⟩) ∈ h

/-- Among these calls a tweet is stored under the id, and the next call reads `x` as the author's record. -/
def ReadsAfterPut (tr : CallTrace) (userId tweetId : JString) (x : Versioned UserMap) : Prop :=
  ∃ (tr₁ tr₂ : CallTrace) (w₁ w₂ : World) (y : Versioned TweetMap),
    tr = tr₁ ++ (w₁,.put .tweets tweetId y,.go)::(w₂,.get .users userId,.go)::tr₂ ∧
      (w₂.store .users).get userId = some x

theorem PutInto.mono {h h' : History} (hs : h <:+ h') {user e : JString} (hp : PutInto h user e) :
    PutInto h' user e := by
  obtain ⟨j,x,hmem,he⟩ := hp
  exact ⟨j,x,hs.subset hmem,he⟩

theorem ReadsAfterPut.append {tr : CallTrace} {userId tweetId : JString} {x : Versioned UserMap}
    (h : ReadsAfterPut tr userId tweetId x) (tr₁ tr₂ : CallTrace) : ReadsAfterPut (tr₁++tr++tr₂) userId tweetId x := by
  obtain ⟨tr₃,tr₄,w₁,w₂,y,rfl,hx⟩ := h
  exact ⟨tr₁++tr₃,tr₄++tr₂,w₁,w₂,y,by simp,hx⟩

def AllThrough (tr : CallTrace) : Prop := ∀ c ∈ tr, GoesThrough c.2.1 c.2.2 c.1

theorem AllThrough.append {tr tr' : CallTrace} (h : AllThrough (tr++tr')) : AllThrough tr ∧ AllThrough tr' :=
  List.forall_mem_append.mp h

theorem AllThrough.cons {c : World × Op × Choice} {tr : CallTrace} (h : AllThrough (c::tr)) :
    GoesThrough c.2.1 c.2.2 c.1 ∧ AllThrough tr := List.forall_mem_cons.mp h

section Ends

variable {job : Job} {w w' : World} {tr : CallTrace} {userId tweetId : JString} {tweetMap : TweetMap}

theorem ends_updateTimeline_through (hdated : tweetMap.Dated) {user : JString} {r : Except Exn Unit}
    (h : (updateTimeline tweetId tweetMap user).Ends (exec job) World.Grows w tr r w') (ht : AllThrough tr) :
    r = .ok () ∧ PutInto w'.history user (entry tweetId tweetMap) := by
  obtain ⟨w₁,choice,answer,w₂,new,tr',_,hexec,rfl,hrest⟩ := Prog.Ends.of_op_bind h
  obtain ⟨⟨hanswered,hhead⟩,ht'⟩ := ht.cons
  rcases exec_get_cases hexec with ⟨rfl,rfl⟩ | ⟨rfl,rfl⟩
  · change Prog.Ends _ _ (liftExcept (insertTweet tweetId tweetMap (w₁.getTimeline user).value) >>= fun list =>
      put .friendsTimeline user ⟨list,(w₁.getTimeline user).version⟩) _ _ _ _ at hrest
    obtain ⟨list,hlist⟩ := insertTweet_ok hdated hhead tweetId
    rw [getTimeline_value,hlist] at hrest
    obtain ⟨w₃,choice',new',_,hexec',rfl⟩ := Prog.Ends.of_op hrest
    obtain ⟨hanswered',hversion⟩ := ht'.cons.1
    rcases exec_put_cases hexec' with ⟨rfl,_,rfl⟩ | ⟨rfl,hconflict,rfl⟩ | ⟨rfl,rfl⟩
    · refine ⟨rfl,job,⟨list,(w₁.getTimeline user).version⟩,?_,(insertTweet_perm hlist).mem_iff.mpr List.mem_cons_self⟩
      rw [exec_history hexec']
      exact List.mem_cons_self
    · exact absurd hversion hconflict
    · exact absurd rfl hanswered'
  · exact absurd rfl hanswered

theorem ends_submitAll_through {followers : List JString} {r : Except Exn Unit}
    (h : (submitAll tweetId tweetMap followers).Ends (exec job) World.Grows w tr r w') (ht : AllThrough tr) :
    r = .ok () ∧ ∀ f ∈ followers, (job,⟨.submit (.updateTimeline tweetId tweetMap f),.ok ()⟩) ∈ w'.history := by
  induction followers generalizing w tr with
  | nil =>
    cases h
    exact ⟨rfl,by simp⟩
  | cons follower followers ih =>
    obtain ⟨w₁,choice,answer,w₂,new,tr',_,hexec,rfl,hrest⟩ := Prog.Ends.of_op_bind h
    obtain ⟨⟨hanswered,_⟩,ht'⟩ := ht.cons
    have hhistory := exec_history hexec
    cases choice <;> simp only [exec,Op.answer,Option.map_some,Option.map_none,Option.some.injEq,reduceCtorEq] at hexec
    · obtain ⟨rfl,_⟩ := Prod.mk.inj hexec
      obtain ⟨rfl,hall⟩ := ih hrest ht'
      refine ⟨rfl,fun f hf => ?_⟩
      rcases List.mem_cons.mp hf with rfl | hf
      · refine (ends_grows hrest).history.subset ?_
        rw [hhistory]
        exact List.mem_cons_self
      · exact hall f hf
    · exact absurd rfl hanswered

/-- The first attempt of a `TweetCommand` is the last one. -/
theorem ends_tweetCommand_through (hdated : tweetMap.Dated) (hreg : w.store .users userId ≠ []) {r : Except Exn Unit}
    (h : (tweetCommand userId tweetId tweetMap).Ends (exec job) World.Grows w tr r w') (ht : AllThrough tr) :
    r = .ok () ∧ ∃ x, ReadsAfterPut tr userId tweetId x ∧ FannedOut w'.history job userId tweetId tweetMap x := by
  obtain ⟨w₁,choice,answer,w₂,new,tr₁,hgrows,hexec,rfl,hrest⟩ := Prog.Ends.of_op_bind h
  obtain ⟨⟨hanswered,hversion⟩,ht₁⟩ := ht.cons
  rcases exec_put_cases hexec with ⟨rfl,_,rfl⟩ | ⟨rfl,hconflict,rfl⟩ | ⟨rfl,rfl⟩
  · change (deliver userId tweetId tweetMap).Ends _ _ _ _ _ _ at hrest
    rw [deliver,getValue,bind_assoc] at hrest
    obtain ⟨w₃,choice',answer',w₄,new',tr₂,hgrows',hexec',rfl,hrest'⟩ := Prog.Ends.of_op_bind hrest
    obtain ⟨⟨hanswered',_⟩,ht₂⟩ := ht₁.cons
    rcases exec_get_cases hexec' with ⟨rfl,rfl⟩ | ⟨rfl,rfl⟩
    · have hreg₃ : w₃.store .users userId ≠ [] :=
        ((hgrows.trans ((exec_grows hexec).trans hgrows')).store .users).ne_nil hreg
      obtain ⟨v,vs,hv⟩ := List.exists_cons_of_ne_nil hreg₃
      have hx : (w₃.store .users).get userId = some ⟨v,vs.length+1⟩ := Store.get_eq_some.mpr ⟨vs,hv,rfl⟩
      rw [hx] at hrest'
      change (fanOut userId tweetId tweetMap v).Ends _ _ _ _ _ _ at hrest'
      obtain ⟨w₅,choice'',answer'',w₆,new'',tr₃,_,hexec'',rfl,hrest''⟩ := Prog.Ends.of_op_bind hrest'
      have ht₃ := ht₂.cons.2
      cases choice'' <;> simp only [exec,Op.answer,Option.map_none,reduceCtorEq] at hexec''
      split at hexec''
      · rename_i l hperm
        cases hexec''
        obtain ⟨tr₄,r₄,w₇,tr₅,rfl,h₄,h₅⟩ := Prog.Ends.of_andThen hrest''
        obtain ⟨rfl,hsubmitted⟩ := ends_submitAll_through h₄ ht₃.append.1
        obtain ⟨rfl,hput⟩ := ends_updateTimeline_through hdated h₅ ht₃.append.2
        refine ⟨rfl,_,⟨[],_,w₁,w₃,_,rfl,hx⟩,hput,fun f hf => ?_⟩
        exact (ends_grows h₅).history.subset (hsubmitted f (hperm.mem_iff.mpr hf))
      · cases hexec''
    · exact absurd rfl hanswered'
  · exact absurd hversion hconflict
  · exact absurd rfl hanswered

theorem ends_addTweet_through (hdated : tweetMap.Dated) (hreg : w.store .users userId ≠ []) {tweetId' : JString}
    (h : (addTweet userId tweetId tweetMap).Ends (exec job) World.Grows w tr (.ok tweetId') w') (ht : AllThrough tr) :
    tweetId' = tweetId ∧ ∃ x, ReadsAfterPut tr userId tweetId x ∧ FannedOut w'.history job userId tweetId tweetMap x := by
  obtain ⟨w₁,choice,answer,w₂,new,tr₁,hgrows,hexec,rfl,hrest⟩ := Prog.Ends.of_op_bind h
  have hreg₂ : w₂.store .users userId ≠ [] := ((hgrows.trans (exec_grows hexec)).store .users).ne_nil hreg
  cases choice <;> simp only [exec,Op.answer,Option.map_some,Option.map_none,Option.some.injEq,reduceCtorEq] at hexec
  rename_i success
  obtain ⟨rfl,_⟩ := Prod.mk.inj hexec
  cases success with
  | false => cases hrest
  | true =>
    obtain ⟨tr₂,r₂,w₃,tr₃,rfl,h₂,h₃⟩ := Prog.Ends.of_andThen hrest
    obtain ⟨tr₄,r₄,w₄,tr₅,rfl,h₄,h₅⟩ := Prog.Ends.of_andThen h₂
    have ht₄ := ht.cons.2.append.1.append.1
    obtain ⟨a,rfl,hbody⟩ := Prog.Ends.only_attempt h₄ fun tr' r' w' hprefix hends => by
      obtain ⟨tr'',rfl⟩ := hprefix
      exact ⟨(),(ends_tweetCommand_through hdated hreg₂ hends ht₄.append.1).1⟩
    cases h₅
    cases h₃
    obtain ⟨_,x,hreads,hfanned⟩ := ends_tweetCommand_through hdated hreg₂ hbody ht₄
    exact ⟨rfl,x,by simpa using hreads.append [_] [],hfanned⟩

theorem ends_tweetUpdate_through (hdated : tweetMap.Dated)
    (h : (tweetUpdate userId tweetMap).Ends (exec job) World.Grows w tr (.ok tweetId) w') (ht : AllThrough tr) :
    ∃ x, ReadsAfterPut tr userId tweetId x ∧ FannedOut w'.history job userId tweetId tweetMap x := by
  obtain ⟨w₁,choice,answer,w₂,new,tr₁,_,hexec,rfl,hrest⟩ := Prog.Ends.of_op_bind h
  rcases exec_get_cases hexec with ⟨rfl,rfl⟩ | ⟨rfl,rfl⟩
  · cases hx : (w₁.store .users).get userId with
    | none =>
      rw [hx] at hrest
      cases hrest
    | some x =>
      rw [hx] at hrest
      change Prog.Ends _ _ (orThrow .numberFormat (parseInt x.value.lastTweet) >>= _) _ _ _ _ at hrest
      cases hn : parseInt x.value.lastTweet with
      | none =>
        rw [hn] at hrest
        cases hrest
      | some n =>
        rw [hn] at hrest
        change Prog.Ends _ _ (put .users userId _ >>= fun _ =>
          addTweet userId (tweetKey userId (wrap 32 (n+1))) tweetMap) _ _ _ _ at hrest
        obtain ⟨w₃,choice',answer',w₄,new',tr₂,_,hexec',rfl,hrest'⟩ := Prog.Ends.of_op_bind hrest
        rcases exec_put_cases hexec' with ⟨rfl,hversion,rfl⟩ | ⟨rfl,_,rfl⟩ | ⟨rfl,rfl⟩
        · rw [exec_put job hversion] at hexec'
          cases hexec'
          obtain ⟨rfl,y,hreads,hfanned⟩ :=
            ends_addTweet_through hdated (by simp [World.logWrite]) hrest' ht.cons.2.cons.2
          exact ⟨y,by simpa using hreads.append [_,_] [],hfanned⟩
        · cases hrest'
        · cases hrest'
  · cases hrest

theorem ends_tweet_through {text id : Option JString} {t : Tweet}
    (h : (tweet userId text id).Ends (exec job) World.Grows w tr (.ok t) w') (ht : AllThrough tr) :
    ∃ tweetId tweetMap x, tweetMap.Dated ∧ t.id = some tweetId ∧ t.entry = entry tweetId tweetMap ∧
      ReadsAfterPut tr userId tweetId x ∧ FannedOut w'.history job userId tweetId tweetMap x := by
  obtain ⟨w₁,choice,answer,w₂,new,tr₁,_,hexec,rfl,hrest⟩ := Prog.Ends.of_op_bind h
  cases choice <;> simp only [exec,Op.answer,Option.map_none,reduceCtorEq] at hexec
  rename_i date
  by_cases hdate : -2^63 ≤ date ∧ date < 2^63
  · rw [if_pos hdate] at hexec
    cases hexec
    let tweetMap : TweetMap := ⟨some (decimal date),text,some userId,id⟩
    have hdated : tweetMap.Dated := Option.isSome_iff_exists.mpr ⟨date,parse_decimal hdate⟩
    obtain ⟨w₃,choice',answer',w₄,new',tr₂,_,hexec',rfl,hrest'⟩ := Prog.Ends.of_op_bind hrest
    rcases exec_get_cases hexec' with ⟨rfl,rfl⟩ | ⟨rfl,rfl⟩
    · cases hx : (w₃.store .users).get userId with
      | none =>
        rw [hx] at hrest'
        cases hrest'
      | some x =>
        rw [hx] at hrest'
        change Prog.Ends _ _ (applyUpdate (tweetUpdate userId tweetMap) >>= _) _ _ _ _ at hrest'
        obtain ⟨tr₃,r₃,w₅,tr₄,rfl,h₃,h₄⟩ := Prog.Ends.of_andThen hrest'
        rcases r₃ with e | tweetId
        · cases h₄
        · cases tweetId with
          | none => cases h₄
          | some tweetId =>
            cases h₄
            obtain ⟨tr₅,tr₆,w₆,rfl,hlast⟩ := Prog.Ends.last_attempt h₃
            obtain ⟨y,hreads,hfanned⟩ := ends_tweetUpdate_through hdated hlast ht.cons.2.cons.2.append.1.append.2
            refine ⟨tweetId,tweetMap,y,hdated,rfl,rfl,?_,hfanned⟩
            simpa using hreads.append (_::_::tr₅) []
    · cases hrest'
  · rw [if_neg hdate] at hexec
    cases hexec

theorem ends_tweetJob_through {text id : Option JString} {t : Tweet}
    (h : (Job.tweet userId text id).body.Ends (exec job) World.Grows w tr (.ok (some t)) w') (ht : AllThrough tr) :
    ∃ tweetId tweetMap x, tweetMap.Dated ∧ t.id = some tweetId ∧ t.entry = entry tweetId tweetMap ∧
      ReadsAfterPut tr userId tweetId x ∧ FannedOut w'.history job userId tweetId tweetMap x := by
  change (some <$> tweet userId text id).Ends _ _ _ _ _ _ at h
  rw [map_eq_pure_bind] at h
  obtain ⟨tr₁,r₁,w₁,tr₂,rfl,h₁,h₂⟩ := Prog.Ends.of_andThen h
  cases r₁ with
  | error e => cases h₂
  | ok t' =>
    cases h₂
    rw [List.append_nil] at ht ⊢
    exact ends_tweet_through h₁ ht

theorem ends_task_through (hdated : tweetMap.Dated) {follower : JString} {r : Except Exn (Option Tweet)}
    (h : (Job.updateTimeline tweetId tweetMap follower).body.Ends (exec job) World.Grows w tr r w')
    (ht : AllThrough tr) : PutInto w'.history follower (entry tweetId tweetMap) := by
  obtain ⟨tr₁,r₁,w₁,tr₂,rfl,h₁,h₂⟩ := Prog.Ends.of_andThen h
  obtain ⟨rfl,hput⟩ := ends_updateTimeline_through hdated h₁ ht.append.1
  cases h₂
  exact hput

end Ends

section Runs

variable {s s' : State} {e : Event}

/-- What was stored in a timeline is still there, or the reader has stopped to follow its author. -/
def Remaining (s : State) : Prop :=
  ∀ user entry, PutInto s.world.history user entry →
    entry ∈ s.world.timeline user ∨ ∃ other ∈ unfollowed s user, Matches other entry

theorem remaining_step (hs : changing.Good s) (hr : Remaining s) (h : machine.step e s = some s') : Remaining s' := by
  have hold {user entry : JString} (hput : PutInto s.world.history user entry) :
      entry ∈ s'.world.timeline user ∨ ∃ other ∈ unfollowed s' user, Matches other entry := by
    by_cases hmatches : ∃ other ∈ unfollowed s user, Matches other entry
    · obtain ⟨other,hother,hmatch⟩ := hmatches
      exact Or.inr ⟨other,unfollowed_step h hother,hmatch⟩
    · have hmem := (hr user entry hput).resolve_right hmatches
      refine Or.inl ((kept_step hs h).subset (List.mem_filter.mpr ⟨hmem,?_⟩))
      simpa using hmatches
  cases e with
  | start job =>
    obtain rfl := Option.some.inj h
    exact fun user entry hput => hold hput
  | thread i choice =>
    obtain ⟨job,op,k,r,w,new,ht,hexec,rfl⟩ := Machine.thread_step h
    rintro user entry ⟨j,x,hmem,he⟩
    simp only [exec_history hexec] at hmem
    rcases List.mem_cons.mp hmem with heq | hmem
    · cases heq
      rcases (exec_cases hexec).2 with ⟨hnone,_⟩ | ⟨n,key,x',hwritten,_,rfl⟩
      · cases hnone
      · cases hwritten
        refine Or.inl ?_
        rw [timeline_write_self]
        exact he
    · exact hold ⟨j,x,hmem,he⟩

/-- The calls of a fan-out that has ended, in a run in which nobody gets in the way of them. -/
theorem fansOut_ends {store : (n : StoreName) → Store JString (Val n)} {es : List Event}
    (h : Runs.Reaches machine.step (fun e s => Arrives e s ∧ Calls FansOut e s) (State.initial store) es s) {i : ℕ}
    {j : Job} {p : Client (Option Tweet)} {r : Except Exn (Option Tweet)} (ht : s.threads[i]? = some (j,p))
    (hr : p.outcome = some r) (hj : j.fansOut) : AllThrough (machine.calls i es (State.initial store)) ∧
      ∃ w w', w'.Grows s.world ∧ j.body.Ends (exec j) World.Grows w (machine.calls i es (State.initial store)) r w' := by
  obtain ⟨hmeets,w,w',hgrows,hends⟩ := Machine.ends_of_outcome (C:=FansOut) World.Grows.refl
    (fun _ _ _ => World.Grows.trans) (fun _ _ _ => step_grows) (fun _ _ hc => hc.2) h rfl ht hr
  exact ⟨fun c hc => hmeets c hc hj,w,w',hgrows,hends⟩

/-- When everything that was started has ended, the tweets that were posted are in the timelines of
their authors and of the followers in the authors' records that were read once the tweets were
stored, unless these readers have stopped to follow the author. -/
theorem tweets_delivered (store : (n : StoreName) → Store JString (Val n)) (es : List Event) (s : State)
    (h : Runs.Reaches machine.step (fun e s => Arrives e s ∧ Calls FansOut e s) (State.initial store) es s)
    (hended : Ended s) (i : ℕ) (author : JString) (text id : Option JString) (p : Client (Option Tweet)) (t : Tweet)
    (hthread : s.threads[i]? = some (.tweet author text id,p)) (hreturned : p.outcome = some (.ok (some t))) :
    ∃ tweetId x, t.id = some tweetId ∧
      ReadsAfterPut (machine.calls i es (State.initial store)) author tweetId x ∧
      ∀ reader ∈ author::asSet x.value.followers,
        t.entry ∈ s.world.timeline reader ∨ ∃ other ∈ unfollowed s reader, Matches other t.entry := by
  have hinv := h.invariant (I:=fun s => changing.Good s ∧ Submitted s ∧ Remaining s)
    ⟨changing_good .start,by simp [Submitted,State.initial],
      fun user entry ⟨j,x,hmem,_⟩ => by simp [State.initial] at hmem⟩
    fun e s s' ⟨hchanging,hsubmitted,hremaining⟩ hc hstep => ⟨changing_step hchanging hc.1 hstep,
      submitted_step hsubmitted hstep,remaining_step hchanging hremaining hstep⟩
  obtain ⟨_,hsubmitted,hremaining⟩ := hinv
  obtain ⟨hthrough,w,w',hgrows,hends⟩ := fansOut_ends h hthread hreturned trivial
  obtain ⟨tweetId,tweetMap,x,hdated,hid,hentry,hreads,hput,htasks⟩ := ends_tweetJob_through hends hthrough
  refine ⟨tweetId,x,hid,hreads,fun reader hreader => hremaining reader t.entry ?_⟩
  rw [hentry]
  rcases List.mem_cons.mp hreader with rfl | hfollower
  · exact hput.mono hgrows.history
  · obtain ⟨⟨task,q⟩,htaskThread,rfl⟩ :=
      List.mem_map.mp (hsubmitted _ _ (hgrows.history.subset (htasks reader hfollower)))
    obtain ⟨k,hk⟩ := List.mem_iff_getElem?.mp htaskThread
    obtain ⟨r,hr⟩ := Option.isSome_iff_exists.mp (hended _ htaskThread)
    obtain ⟨hthrough',v,v',hgrows',hends'⟩ := fansOut_ends h hk hr trivial
    exact (ends_task_through hdated hends' hthrough').mono hgrows'.history

instance (j : Job) (op : Op) (choice : Choice) (w : World) : Decidable (FansOut j op choice w) := by
  unfold FansOut GoesThrough
  refine @instDecidableForall _ _ (by unfold Job.fansOut; split <;> infer_instance) ?_
  refine @instDecidableAnd _ _ ?_ ?_
  · infer_instance
  · induction op using Op.casesOn with
    | get n | put n => induction n using StoreName.casesOn <;> infer_instance
    | _ => infer_instance

/-- `a` tweets again, and `b`, who gets the tweet, stops to follow him while `a` writes his own timeline. -/
def tweetAndStop : List Event :=
  [.start (.tweet ['a'] (some ['h','i']) none),.thread 4 (.time 6),.thread 4 .go,.thread 4 .go,.thread 4 .go,
    .thread 4 (.stored true),.thread 4 .go,.thread 4 .go,.thread 4 (.order [['b']]),.thread 4 .go,
    .thread 5 .go,.thread 5 .go,.start (.execute (.stopFollowing ['b'] ['a'])),.thread 6 .go,.thread 4 .go,
    .thread 6 (.order []),.thread 6 .go,.thread 4 .go,.thread 6 .go,.thread 6 (.order []),.thread 6 .go,
    .thread 6 .go,.thread 6 .go]

theorem tweets_delivered_two_users : ∃ s : State, ∃ x, Runs.Reaches machine.step
    (fun e s => Arrives e s ∧ Calls FansOut e s) State.empty (tweetAndFollow ++ tweetAndStop) s ∧
      ReadsAfterPut (machine.calls 4 (tweetAndFollow ++ tweetAndStop) State.empty) ['a'] ['a','-','2'] x ∧
      ∀ reader ∈ ['a']::asSet x.value.followers, ['a','-','2',':','6'] ∈ s.world.timeline reader ∨
        ∃ other ∈ unfollowed s reader, Matches other ['a','-','2',':','6'] := by
  have hrun : ((Runs.runIf machine.step (fun e s => Arrives e s ∧ Calls FansOut e s) (tweetAndFollow ++ tweetAndStop)
      State.empty).map fun s => (decide (Ended s),s.threads[4]?.map fun t => (t.1,t.2.outcome.bind Except.toOption))) =
      some (true,some (.tweet ['a'] (some ['h','i']) none,
        some (some ⟨6,some ['h','i'],some ['a'],some ['a','-','2']⟩))) := by decide +kernel
  obtain ⟨s,hs,hp⟩ := Option.map_eq_some_iff.mp hrun
  obtain ⟨hended,hthreads⟩ := Prod.mk.inj hp
  obtain ⟨⟨job,p⟩,hget,hp⟩ := Option.map_eq_some_iff.mp hthreads
  obtain ⟨rfl,houtcome⟩ := Prod.mk.inj hp
  obtain ⟨r,houtcome,hr⟩ := Option.bind_eq_some_iff.mp houtcome
  have hreaches := Runs.reaches_of_runIf .start hs
  cases r with
  | error e => cases hr
  | ok t =>
    obtain rfl : t = some _ := Option.some.inj hr
    obtain ⟨tweetId,x,hid,hreads,hall⟩ := tweets_delivered (fun _ _ => []) (tweetAndFollow ++ tweetAndStop) s hreaches
      (of_decide_eq_true hended) 4 ['a'] _ _ p _ hget houtcome
    obtain rfl := Option.some.inj hid
    exact ⟨s,x,hreaches,hreads,hall⟩

end Runs

end TweetService
end Bigbird
