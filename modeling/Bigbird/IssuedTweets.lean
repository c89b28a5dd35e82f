import Bigbird.Published

/-! Where a command that is handed to the queue comes from: a request to tweet, whose author,
text and number it carries. -/
namespace Bigbird
namespace TweetService

open JavaText VersionedStore Programs

/-- The time is a Java `long`. -/
def Op.Answers : (op : Op) → Except Exn op.Res → Prop
  | .now, .ok date => -2^63 ≤ date ∧ date < 2^63
  | _, _ => True

theorem exec_answers {job : Job} {op : Op} {choice : Choice} {w w' : World} {r : Except Exn op.Res}
    {new : Option Job} (h : exec job op choice w = some (r,w',new)) : op.Answers r := by
  cases op with
  | now =>
    cases choice with
    | time date =>
      simp only [exec,Op.answer] at h
      split at h
      · rename_i hdate
        cases h
        exact hdate
      · simp at h
    | _ => simp [exec,Op.answer] at h
  | _ => trivial

/-- What a job hands to the queue is the tweet that it was asked to post. -/
def Voices (j : Job) : Op → Prop
  | .storeRemotely c => ∃ author text id tweetId date, j = .tweet author text id ∧ (-2^63 ≤ date ∧ date < 2^63) ∧
      c = .tweet author tweetId ⟨some (decimal date),text,some author,id⟩
  | _ => True

section Programs

variable {j : Job} {α : Type}

theorem Plain.voices {op : Op} (h : Plain j op) : Voices j op := by
  cases op with
  | storeRemotely c => exact h.2.elim
  | _ => trivial

theorem voices_of_plain {p : Client α} (hp : p.All (Plain j)) : p.AllWith Op.Answers (Voices j) :=
  (hp.mono fun _ => Plain.voices).allWith

theorem Orderly.voices {o : Option Command} {p : Client α} (hj : j.isTweet = false) (h : Orderly j o p) :
    p.AllWith Op.Answers (Voices j) := by
  induction h with
  | ret a => trivial
  | throw e => trivial
  | call hop _ ih => exact ⟨hop.voices,fun r _ => ih r⟩
  | raise hj' =>
    subst hj'
    simp [Job.isTweet] at hj
  | issue hj' =>
    subst hj'
    simp [Job.isTweet] at hj

theorem voices_tweetUpdate {author : JString} {text id : Option JString} {date : ℤ}
    (hdate : -2^63 ≤ date ∧ date < 2^63) :
    (tweetUpdate author ⟨some (decimal date),text,some author,id⟩).AllWith Op.Answers
      (Voices (.tweet author text id)) := by
  refine Prog.AllWith.op_bind trivial fun x _ => ?_
  refine (all_orThrow _ x).allWith.bind fun x => ?_
  refine (all_orThrow _ _).allWith.bind fun lastTweet => ?_
  refine Prog.AllWith.op_bind trivial fun _ _ => ?_
  refine Prog.AllWith.op_bind ⟨author,text,id,_,date,rfl,hdate,rfl⟩ fun success _ => ?_
  cases success with
  | false => trivial
  | true =>
    have hexecute := voices_of_plain (j:=.tweet author text id)
      (plain_tweetCommand author (tweetKey author (wrap 32 (lastTweet+1))) ⟨some (decimal date),text,some author,id⟩)
    exact ((hexecute.retry 3).bind fun _ => Prog.AllWith.pure).bind fun _ => Prog.AllWith.pure

theorem voices_tweet (author : JString) (text id : Option JString) :
    (tweet author text id).AllWith Op.Answers (Voices (.tweet author text id)) := by
  refine Prog.AllWith.op_bind trivial fun date hdate => ?_
  refine Prog.AllWith.op_bind trivial fun x _ => ?_
  refine (all_orThrow _ x).allWith.bind fun x => ?_
  refine ((voices_tweetUpdate hdate).retry 3).bind fun success => ?_
  exact (all_orThrow _ success).allWith.bind fun tweetId => Prog.AllWith.pure

theorem voices_body (j : Job) : j.body.AllWith Op.Answers (Voices j) := by
  cases j with
  | tweet author text id =>
    change Prog.AllWith _ _ (some <$> tweet author text id)
    rw [map_eq_pure_bind]
    exact (voices_tweet author text id).bind fun _ => Prog.AllWith.pure
  | _ => exact (orderly_body _).voices rfl

end Programs

/-- The programs and the calls that were made issue nothing but what was asked for, and the
calls were made by threads. -/
structure Voiced (s : State) : Prop where
  programs : ∀ t ∈ s.threads, t.2.AllWith Op.Answers (Voices t.1)
  calls : ∀ c ∈ s.world.history, Voices c.1 c.2.1
  jobs : ∀ c ∈ s.world.history, c.1 ∈ s.threads.map Prod.fst

variable {s s' : State}

theorem voiced_step (hs : Voiced s) {e : Event} (h : machine.step e s = some s') : Voiced s' := by
  have hjob {job : Job} (hjob : job ∈ s.threads.map Prod.fst) : job ∈ s'.threads.map Prod.fst :=
    Machine.mem_jobs_step h hjob
  cases e with
  | start job =>
    obtain rfl := Option.some.inj h
    refine ⟨fun t ht => ?_,hs.calls,fun c hc => hjob (hs.jobs c hc)⟩
    rcases List.mem_append.mp ht with ht | ht
    · exact hs.programs t ht
    · obtain rfl := List.mem_singleton.mp ht
      exact voices_body job
  | thread i choice =>
    obtain ⟨job,op,k,r,w,new,hthread,hexec,rfl⟩ := Machine.thread_step h
    have hmem := List.mem_of_getElem? hthread
    have hprogram := hs.programs _ hmem
    refine ⟨fun t ht => ?_,fun c hc => ?_,fun c hc => hjob ?_⟩
    · rcases mem_set_append ht with ⟨n,_,hn⟩ | rfl | hnew
      · exact hs.programs t (List.mem_of_getElem? hn)
      · exact hprogram.2 r (exec_answers hexec)
      · obtain ⟨job',_,rfl⟩ := List.mem_map.mp hnew
        exact voices_body job'
    · rw [exec_history hexec] at hc
      rcases List.mem_cons.mp hc with rfl | hc
      · exact hprogram.1
      · exact hs.calls c hc
    · rw [exec_history hexec] at hc
      rcases List.mem_cons.mp hc with rfl | hc
      · exact List.mem_map_of_mem hmem
      · exact hs.jobs c hc

theorem job_of_step (hs : Disciplined s) {e : Event} (h : machine.step e s = some s') {job : Job}
    (hmem : job ∈ s'.threads.map Prod.fst) : job ∈ s.threads.map Prod.fst ∨ e = .start job ∨
      ∃ tweetId tweetMap user, job = .updateTimeline tweetId tweetMap user := by
  cases e with
  | start job' =>
    obtain rfl := Option.some.inj h
    rw [List.map_append] at hmem
    rcases List.mem_append.mp hmem with hmem | hmem
    · exact Or.inl hmem
    · obtain rfl : job = job' := by simpa using hmem
      exact Or.inr (Or.inl rfl)
  | thread i choice =>
    obtain ⟨job',op,k,r,w,new,hthread,hexec,rfl⟩ := Machine.thread_step h
    rw [List.map_append,map_fst_set hthread] at hmem
    rcases List.mem_append.mp hmem with hmem | hmem
    · exact Or.inl hmem
    · have hnew : new = some job := by simpa using hmem
      obtain ⟨o,ho⟩ := hs.threads _ (List.mem_of_getElem? hthread)
      have htask : op.task r = some job := (exec_cases hexec).1.symm.trans hnew
      cases op with
      | submit task =>
        obtain ⟨tweetId,tweetMap,user,htweet⟩ := ho.tasks.1 task rfl
        cases r with
        | ok _ =>
          cases htask
          exact Or.inr (Or.inr ⟨tweetId,tweetMap,user,htweet⟩)
        | error _ => simp [Op.task] at htask
      | _ => simp [Op.task] at htask

theorem tweet_started {es : List Event} (h : Runs.Reaches machine.step Replays State.empty es s) {author : JString}
    {text id : Option JString} (hjob : Job.tweet author text id ∈ s.threads.map Prod.fst) :
    Event.start (.tweet author text id) ∈ es := by
  have hinv := h.mem_events.invariant (I:=fun s => Disciplined s ∧
      (Job.tweet author text id ∈ s.threads.map Prod.fst → Event.start (.tweet author text id) ∈ es))
    ⟨disciplined_of_reaches .start,by simp [State.empty]⟩ ?_
  · exact hinv.2 hjob
  rintro e s s' ⟨hd,hi⟩ ⟨hc,he⟩ hstep
  refine ⟨disciplined_step hd hc hstep,fun hmem => ?_⟩
  rcases job_of_step hd hstep hmem with hmem | rfl | ⟨_,_,_,hjob⟩
  · exact hi hmem
  · exact he
  · cases hjob

def Pending (t : Job × Client (Option Tweet)) (author tweetId : JString) (tweetMap : TweetMap) : Prop :=
  ∃ k, t.2 = .call (.storeRemotely (.tweet author tweetId tweetMap)) k

theorem Orderly.not_pending {t : Job × Client (Option Tweet)} (h : Orderly t.1 none t.2)
    {author tweetId : JString} {tweetMap : TweetMap} : ¬ Pending t author tweetId tweetMap := by
  rintro ⟨k,hk⟩
  have hnone := pendingId_eq_none h
  rw [hk] at hnone
  simp [pendingId] at hnone

/-- The id of a command stands for a number of the user who issues it. -/
def Paired (s : State) : Prop := ∀ author tweetId tweetMap,
  ((∃ t ∈ s.threads, Pending t author tweetId tweetMap) ∨ Issued s.world.history author tweetId tweetMap) →
    ∃ n : ℕ, tweetId = tweetKey author n

theorem paired_step (hs : Publishing s) (hp : Paired s) {e : Event} (hc : Publishes e s)
    (h : machine.step e s = some s') : Paired s' := by
  have hs' := publishing_step hs hc h
  have hnew (job : Job) {author tweetId : JString} {tweetMap : TweetMap} :
      ¬ Pending (job,job.body) author tweetId tweetMap := (orderly_body job).not_pending
  rintro author tweetId tweetMap (⟨t,ht,hpending⟩ | hissued)
  · cases e with
    | start job =>
      obtain rfl := Option.some.inj h
      rcases List.mem_append.mp ht with ht | ht
      · exact hp author tweetId tweetMap (Or.inl ⟨t,ht,hpending⟩)
      · obtain rfl := List.mem_singleton.mp ht
        exact (hnew job hpending).elim
    | thread i choice =>
      obtain ⟨job,op,k,r,w,new,hthread,hexec,rfl⟩ := Machine.thread_step h
      rcases mem_set_append ht with ⟨n,_,hn⟩ | rfl | htnew
      · exact hp author tweetId tweetMap (Or.inl ⟨t,List.mem_of_getElem? hn,hpending⟩)
      · obtain ⟨o,ho⟩ := hs.disciplined.threads _ (List.mem_of_getElem? hthread)
        cases ho with
        | call _ hk => exact ((hk r).not_pending hpending).elim
        | @raise userId text id n _ x _ hj hx herror hok =>
          subst hj
          cases r with
          | error e => exact ((herror e).not_pending hpending).elim
          | ok a =>
            -- the counter has been raised, so that the number is one of those that were given
            have hmem : (userId,decimal n) ∈ counterWrites w.history := by
              rw [exec_history hexec]
              simp [counterWrites,counterWrite,hx]
            obtain ⟨m,_,_,hm⟩ := hs'.numbered.inv.consecutive.exists hmem
            obtain ⟨k',hk'⟩ := hpending
            simp only at hk'
            rw [hk'] at hok
            cases hok
            exact ⟨m,congrArg (fun d => author ++ '-'::d) hm⟩
        | issue _ _ hk => exact ((hk r).not_pending hpending).elim
      · obtain ⟨job',_,rfl⟩ := List.mem_map.mp htnew
        exact (hnew job' hpending).elim
  · cases e with
    | start job =>
      obtain rfl := Option.some.inj h
      exact hp author tweetId tweetMap (Or.inr hissued)
    | thread i choice =>
      obtain ⟨job,op,k,r,w,new,hthread,hexec,rfl⟩ := Machine.thread_step h
      obtain ⟨text,id,success,hmem⟩ := hissued
      change _ ∈ w.history at hmem
      rw [exec_history hexec] at hmem
      rcases List.mem_cons.mp hmem with heq | hmem
      · cases heq
        exact hp author tweetId tweetMap (Or.inl ⟨_,List.mem_of_getElem? hthread,k,rfl⟩)
      · exact hp author tweetId tweetMap (Or.inr ⟨text,id,success,hmem⟩)

/-- A tweet as `tweet` fills it in for the text and the id of a caller. -/
def PostedBy (author : JString) (text id : Option JString) (tweetId : JString) (tweetMap : TweetMap) : Prop :=
  ∃ (n : ℕ) (date : ℤ), tweetId = tweetKey author n ∧ (-2^63 ≤ date ∧ date < 2^63) ∧
    tweetMap = ⟨some (decimal date),text,some author,id⟩

/-- The id of a tweet names its author. -/
theorem PostedBy.unique {author author' tweetId : JString} {text text' id id' : Option JString}
    {tweetMap tweetMap' : TweetMap} (h : PostedBy author text id tweetId tweetMap)
    (h' : PostedBy author' text' id' tweetId tweetMap') : author = author' := by
  obtain ⟨n,_,rfl,_⟩ := h
  obtain ⟨n',_,hid,_⟩ := h'
  exact (tweetKey_injective hid).1

/-- What holds in all runs without an overflow of what is issued. -/
structure Issuing (s : State) : Prop where
  publishing : Publishing s
  voiced : Voiced s
  paired : Paired s

theorem issuing_step (hs : Issuing s) {e : Event} (hc : Publishes e s) (h : machine.step e s = some s') :
    Issuing s' :=
  ⟨publishing_step hs.publishing hc h,voiced_step hs.voiced h,paired_step hs.publishing hs.paired hc h⟩

theorem issuing_empty : Issuing State.empty := by
  refine ⟨publishing_of_reaches .start,⟨by simp [State.empty],by simp [State.empty],by simp [State.empty]⟩,?_⟩
  rintro author tweetId tweetMap (⟨t,ht,_⟩ | ⟨_,_,_,hmem⟩)
  · simp [State.empty] at ht
  · simp [State.empty] at hmem

theorem issuing_of_reaches {es : List Event} (h : Runs.Reaches machine.step Publishes State.empty es s) :
    Issuing s :=
  h.invariant issuing_empty fun _ _ _ hs hc hstep => issuing_step hs hc hstep

theorem Issuing.postedBy (hs : Issuing s) {author tweetId : JString} {tweetMap : TweetMap}
    (h : Issued s.world.history author tweetId tweetMap) :
    ∃ text id, PostedBy author text id tweetId tweetMap ∧ Job.tweet author text id ∈ s.threads.map Prod.fst := by
  obtain ⟨n,hn⟩ := hs.paired author tweetId tweetMap (Or.inr h)
  obtain ⟨text,id,success,hmem⟩ := h
  obtain ⟨author',text',id',tweetId',date,hj,hdate,hc⟩ := hs.voiced.calls _ hmem
  cases hj
  cases hc
  exact ⟨text,id,⟨n,date,hn,hdate,rfl⟩,hs.voiced.jobs _ hmem⟩

theorem Issuing.stored (hs : Issuing s) {tweetId : JString} {tweetMap : TweetMap}
    (h : (s.world.store .tweets).value tweetId = some tweetMap) : ∃ author text id,
      PostedBy author text id tweetId tweetMap ∧ Job.tweet author text id ∈ s.threads.map Prod.fst := by
  obtain ⟨author,hissued⟩ := hs.publishing.stored tweetId tweetMap h
  exact ⟨author,hs.postedBy hissued⟩

end TweetService
end Bigbird
