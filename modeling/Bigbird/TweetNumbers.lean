import Bigbird.ServiceCalls

/-! The numbers that `tweet` gives to the tweets of a user, over all interleavings with
registrations, follows and unfollows. -/
namespace Bigbird
namespace TweetService

open JavaText VersionedStore Programs

/-- A successful write of the counter, with the number that was written. -/
def counterWrite : Job × (op : Op) × Except Exn op.Res → Option (JString × JString)
  | (.tweet _ _ _,⟨.put .users userId x,.ok _⟩) => some (userId,x.value.lastTweet.getD [])
  | _ => none

def counterWrites (h : History) : List (JString × JString) := h.filterMap counterWrite

def tweetIds (h : History) : List JString := (counterWrites h).map fun p => p.1 ++ '-'::p.2

def tweetCount (h : History) (userId : JString) : ℕ := ((counterWrites h).map Prod.fst).count userId

/-- Each write counts the earlier ones for the same user. -/
def Consecutive : List (JString × JString) → Prop
  | [] => True
  | p::l => p.2 = decimal ((l.map Prod.fst).count p.1 + 1 : ℕ) ∧ Consecutive l

theorem Consecutive.exists {l : List (JString × JString)} (h : Consecutive l) {p : JString × JString}
    (hp : p ∈ l) : ∃ n : ℕ, 1 ≤ n ∧ n ≤ (l.map Prod.fst).count p.1 ∧ p.2 = decimal n := by
  induction l with
  | nil => simp at hp
  | cons q l ih =>
    rcases List.mem_cons.mp hp with rfl | hp
    · exact ⟨_,by omega,by simp,h.1⟩
    · obtain ⟨n,h₁,h₂,hn⟩ := ih h.2 hp
      refine ⟨n,h₁,Nat.le_trans h₂ ?_,hn⟩
      rw [List.map_cons,List.count_cons]
      omega

/-- An id determines the user and the number, whatever the names look like. -/
theorem tweetKey_injective {u v : JString} {m n : ℕ} (h : tweetKey u m = tweetKey v n) :
    u = v ∧ m = n := by
  obtain ⟨huv,hmn⟩ := append_cons_inj (dash_not_mem_decimal m) (dash_not_mem_decimal n) h
  exact ⟨huv,decimal_injective hmn⟩

theorem Consecutive.nodup {l : List (JString × JString)} (h : Consecutive l) :
    (l.map fun p => p.1 ++ '-'::p.2).Nodup := by
  induction l with
  | nil => exact List.nodup_nil
  | cons p l ih =>
    refine List.nodup_cons.mpr ⟨fun hmem => ?_,ih h.2⟩
    obtain ⟨q,hq,heq⟩ := List.mem_map.mp hmem
    obtain ⟨n,_,hle,hn⟩ := h.2.exists hq
    simp only [hn,h.1] at heq
    obtain ⟨huser,hnumber⟩ := tweetKey_injective heq
    rw [huser] at hle
    omega

structure Numbered (w : World) : Prop where
  consecutive : Consecutive (counterWrites w.history)
  below : ∀ u, (tweetCount w.history u : ℤ) < 2^31 - 1
  registered : ∀ p ∈ counterWrites w.history, w.store .users p.1 ≠ []
  counter : ∀ u x, (w.store .users).value u = some x →
    x.lastTweet = some (decimal (tweetCount w.history u))
  tweets : ∀ id, w.store .tweets id ≠ [] → id ∈ tweetIds w.history

/-- No counter is raised to 2^31-1. -/
def NoOverflow (j : Job) (op : Op) (_ : Choice) (_ : World) : Prop :=
  match j, op with
  | .tweet _ _ _, .put .users _ x => x.value.lastTweet ≠ some (decimal (2^31 - 1))
  | _, _ => True

instance (j : Job) (op : Op) (choice : Choice) (w : World) : Decidable (NoOverflow j op choice w) := by
  unfold NoOverflow
  induction j using Job.casesOn with
  | tweet =>
    induction op using Op.casesOn with
    | put n => induction n using StoreName.casesOn <;> infer_instance
    | _ => infer_instance
  | _ => infer_instance

/-- A command that is replayed has an id that was given to it before. -/
def Given (j : Job) (h : History) : Prop :=
  match j with
  | .execute (.tweet _ tweetId _) => tweetId ∈ tweetIds h
  | _ => True

theorem counterWrite_eq_none {j : Job} {op : Op} {r : Except Exn op.Res} (h : op.written r = none) :
    counterWrite (j,⟨op,r⟩) = none := by
  cases op with
  | put n key x =>
    cases r with
    | ok _ => simp [Op.written] at h
    | error _ => cases j <;> cases n <;> rfl
  | _ => cases j <;> rfl

theorem counterWrites_log {w : World} {j : Job} {op : Op} {r : Except Exn op.Res}
    (h : op.written r = none) : counterWrites (w.log j op r).history = counterWrites w.history := by
  simp [World.log,counterWrites,counterWrite_eq_none h]

theorem tweetIds_subset {h h' : History} (hs : h <:+ h') {id : JString} (hid : id ∈ tweetIds h) :
    id ∈ tweetIds h' :=
  ((hs.filterMap counterWrite).map _).subset hid

theorem Numbered.of_counterWrites {w w' : World} (hw : Numbered w)
    (h : counterWrites w'.history = counterWrites w.history)
    (hregistered : ∀ u, w.store .users u ≠ [] → w'.store .users u ≠ [])
    (hcounter : ∀ u x, (w'.store .users).value u = some x →
      x.lastTweet = some (decimal (tweetCount w.history u)))
    (htweets : ∀ id, w'.store .tweets id ≠ [] → id ∈ tweetIds w.history) : Numbered w' := by
  have hcount : tweetCount w'.history = tweetCount w.history := by
    funext u
    simp only [tweetCount,h]
  have hids : tweetIds w'.history = tweetIds w.history := by simp only [tweetIds,h]
  exact ⟨h ▸ hw.consecutive,hcount ▸ hw.below,
    fun p hp => hregistered p.1 (hw.registered p (h ▸ hp)),hcount ▸ hcounter,hids ▸ htweets⟩

theorem Numbered.log {w : World} (hw : Numbered w) {j : Job} {op : Op} {r : Except Exn op.Res}
    (h : op.written r = none) : Numbered (w.log j op r) :=
  hw.of_counterWrites (counterWrites_log h) (fun _ => id) hw.counter hw.tweets

section Write

variable {w : World} {j : Job} {op : Op} {r : Except Exn op.Res}

theorem counterWrites_logWrite (h : counterWrite (j,⟨op,r⟩) = none) (n : StoreName) (key : JString)
    (v : Val n) : counterWrites (w.logWrite j op r n key v).history = counterWrites w.history := by
  simp [World.logWrite,counterWrites,h]

theorem Numbered.write_friendsTimeline (hw : Numbered w) (h : counterWrite (j,⟨op,r⟩) = none)
    (key : JString) (v : List JString) : Numbered (w.logWrite j op r .friendsTimeline key v) := by
  refine hw.of_counterWrites (counterWrites_logWrite h _ _ _) ?_ ?_ ?_
  · intro u hu
    simpa [World.logWrite] using hu
  · intro u x hx
    exact hw.counter u x (by simpa [World.logWrite] using hx)
  · intro id hid
    exact hw.tweets id (by simpa [World.logWrite] using hid)

theorem Numbered.write_tweets (hw : Numbered w) (h : counterWrite (j,⟨op,r⟩) = none)
    {key : JString} (hkey : key ∈ tweetIds w.history) (v : TweetMap) :
    Numbered (w.logWrite j op r .tweets key v) := by
  refine hw.of_counterWrites (counterWrites_logWrite h _ _ _) ?_ ?_ ?_
  · intro u hu
    simpa [World.logWrite] using hu
  · intro u x hx
    exact hw.counter u x (by simpa [World.logWrite] using hx)
  · intro id hid
    by_cases hidkey : id = key
    · exact hidkey ▸ hkey
    · exact hw.tweets id (by simpa [World.logWrite,hidkey] using hid)

theorem Numbered.write_users (hw : Numbered w) (h : counterWrite (j,⟨op,r⟩) = none)
    {key : JString} {v : UserMap} (hv : v.lastTweet = some (decimal (tweetCount w.history key))) :
    Numbered (w.logWrite j op r .users key v) := by
  refine hw.of_counterWrites (counterWrites_logWrite h _ _ _) ?_ ?_ ?_
  · exact fun u => (w.grows_logWrite j op r .users key v).store .users |>.ne_nil
  · intro u x hx
    by_cases hukey : u = key
    · subst hukey
      obtain rfl : v = x := by simpa [World.logWrite,Store.value] using hx
      exact hv
    · exact hw.counter u x (by simpa [World.logWrite,Store.value,hukey] using hx)
  · intro id hid
    exact hw.tweets id (by simpa [World.logWrite] using hid)

theorem Numbered.count_new (hw : Numbered w) {key : JString} (h : w.store .users key = []) :
    tweetCount w.history key = 0 := by
  refine List.count_eq_zero_of_not_mem fun hmem => ?_
  obtain ⟨p,hp,rfl⟩ := List.mem_map.mp hmem
  exact hw.registered p hp h

theorem Numbered.write_counter (hw : Numbered w) {key : JString} {v : UserMap}
    (h : counterWrite (j,⟨op,r⟩) = some (key,decimal (tweetCount w.history key + 1 : ℕ)))
    (hv : v.lastTweet = some (decimal (tweetCount w.history key + 1 : ℕ)))
    (hbelow : (tweetCount w.history key : ℤ) + 1 < 2^31 - 1) :
    Numbered (w.logWrite j op r .users key v) := by
  have hwrites : counterWrites (w.logWrite j op r .users key v).history =
      (key,decimal (tweetCount w.history key + 1 : ℕ))::counterWrites w.history := by
    simp [World.logWrite,counterWrites,h]
  have hself : tweetCount (w.logWrite j op r .users key v).history key =
      tweetCount w.history key + 1 := by simp [tweetCount,hwrites]
  have hother : ∀ u, u ≠ key →
      tweetCount (w.logWrite j op r .users key v).history u = tweetCount w.history u := by
    intro u hu
    simp [tweetCount,hwrites,Ne.symm hu]
  refine ⟨?_,fun u => ?_,fun p hp => ?_,fun u x hx => ?_,fun id hid => ?_⟩
  · rw [hwrites]
    exact ⟨rfl,hw.consecutive⟩
  · by_cases hu : u = key
    · subst hu
      rw [hself]
      push_cast
      exact hbelow
    · rw [hother u hu]
      exact hw.below u
  · rw [hwrites] at hp
    rcases List.mem_cons.mp hp with rfl | hp
    · simp [World.logWrite]
    · exact ((w.grows_logWrite j op r .users key v).store .users).ne_nil (hw.registered p hp)
  · by_cases hu : u = key
    · subst hu
      obtain rfl : v = x := by simpa [World.logWrite,Store.value] using hx
      rw [hself]
      exact hv
    · rw [hother u hu]
      exact hw.counter u x (by simpa [World.logWrite,Store.value,hu] using hx)
  · exact tweetIds_subset (w.grows_logWrite j op r .users key v).history
      (hw.tweets id (by simpa [World.logWrite] using hid))

end Write

/-- Every job keeps the numbers in order, whatever the others do in between. -/
def numbered : Logic machine where
  inv := Numbered
  rely _ := World.Grows
  guar _ := World.Grows
  cond := NoOverflow
  pre j w := Given j w.history
  post _ _ _ := True
  apart _ _ := True
  rely_refl _ := World.Grows.refl
  rely_trans _ _ _ _ := World.Grows.trans
  rely_of_guar _ _ _ _ _ h := h
  apart_symm _ _ _ := trivial

theorem numbered_logs (j : Job) : Logs numbered j := by
  intro op r w hi h
  exact ⟨hi.log h,w.grows_log j op r,by simp⟩

def Anyhow {α : Type} : Except Exn α → World → Prop := fun _ _ => True

theorem wp_anyhow_throw {α : Type} {j : Job} {e : Exn} {w : World} :
    numbered.wp j (.throw e : Client α) Anyhow w := fun _ _ _ => trivial

theorem wp_anyhow_ret {α : Type} {j : Job} {a : α} {w : World} :
    numbered.wp j (.ret a) Anyhow w := fun _ _ _ => trivial

theorem wp_startUpdate (j : Job) (edges : Edges) (key member : JString) (w : World) :
    numbered.wp j (startUpdate edges key member) Anyhow w := by
  refine wp_get (numbered_logs j) (fun w₁ hi₁ _ _ => ?_) fun _ _ _ _ => wp_anyhow_throw
  cases hget : (w₁.store .users).get key with
  | none => exact wp_anyhow_ret
  | some x =>
    refine wp_iterator (numbered_logs j) fun w₂ l _ hr₂ _ => ?_
    refine wp_putIfNotObsolete (numbered_logs j) (fun w₃ hi₃ hr₃ _ hv => ⟨?_,wp_anyhow_ret⟩)
      (fun _ _ _ _ _ => wp_anyhow_ret) fun _ _ _ _ => wp_anyhow_throw
    have hvalue := value_of_get hget (hr₂.of_log.trans hr₃.of_log) hv
    refine ⟨hi₃.write_users (by cases j <;> rfl) ?_,World.grows_logWrite _ _ _ _ _ _ _,by simp⟩
    rw [← hi₃.counter key x.value hvalue]
    cases edges <;> rfl

/-- A job other than `tweet` writes no counter. -/
def Job.isTweet : Job → Bool
  | .tweet _ _ _ => true
  | _ => false

theorem counterWrite_of_not_isTweet {j : Job} (h : j.isTweet = false)
    (e : (op : Op) × Except Exn op.Res) : counterWrite (j,e) = none := by
  cases j <;> first | rfl | simp [Job.isTweet] at h

theorem wp_stopUpdate {j : Job} (hj : j.isTweet = false) (edges : Edges) (key member : JString)
    (w : World) : numbered.wp j (stopUpdate edges key member) Anyhow w := by
  refine wp_get (numbered_logs j) (fun w₁ hi₁ _ _ => ?_) fun _ _ _ _ => wp_anyhow_throw
  cases hget : (w₁.store .users).get key with
  | none => exact wp_anyhow_throw
  | some x =>
    refine wp_iterator (numbered_logs j) fun w₂ l _ hr₂ _ => wp_of_bind_pure ?_
    refine wp_put (numbered_logs j) (fun w₃ hi₃ hr₃ _ hv => ⟨?_,wp_anyhow_ret⟩)
      (fun _ _ _ _ _ => wp_anyhow_throw) fun _ _ _ _ => wp_anyhow_throw
    have hvalue := value_of_get hget (hr₂.of_log.trans hr₃.of_log) hv
    refine ⟨hi₃.write_users (counterWrite_of_not_isTweet hj _) ?_,World.grows_logWrite _ _ _ _ _ _ _,
      by simp⟩
    rw [← hi₃.counter key x.value hvalue]
    cases edges <;> rfl

theorem counterWrite_of_timelineOnly {op : Op} (h : TimelineOnly op) {j : Job}
    {r : Except Exn op.Res} : counterWrite (j,⟨op,r⟩) = none := by
  cases op with
  | put n key x =>
    obtain rfl : n = .friendsTimeline := h
    cases j <;> rfl
  | _ => cases j <;> rfl

theorem wp_timelineOnly {α : Type} {p : Client α} (hp : p.All TimelineOnly) (j : Job) (w : World) :
    numbered.wp j p Anyhow w := by
  refine numbered.wp_all (A:=fun _ => True) hp (fun _ _ _ _ _ => trivial)
    (fun op hop w hi _ choice r w' new _ hexec => ⟨?_,trivial⟩) trivial
  obtain ⟨rfl,⟨hnone,rfl⟩ | ⟨n,key,x,hw,hv,rfl⟩⟩ := exec_cases hexec
  · rw [hop.task]
    exact numbered_logs j op r w hi hnone
  · obtain rfl := hop.written hw
    exact ⟨hi.write_friendsTimeline (counterWrite_of_timelineOnly hop) key _,
      World.grows_logWrite _ _ _ _ _ _ _,by simp [hop.task]⟩

theorem wp_then {α β : Type} {p : Client α} {f : α → Client β} {j : Job} {w : World}
    (hp : numbered.wp j p Anyhow w) (hf : ∀ a w', w.Grows w' → numbered.wp j (f a) Anyhow w') :
    numbered.wp j (p >>= f) Anyhow w := by
  refine numbered.wp_bind (numbered.wp_mono (numbered.wp_since (T:=World.Grows)
    (fun _ _ _ => World.Grows.trans) (fun _ _ h => h) (fun _ _ h => h) hp) fun r w' _ h => ?_)
  cases r with
  | ok a => exact hf a w' h.1
  | error e => exact wp_anyhow_throw

theorem wp_attempts {α : Type} {p : Client α} {again : Exn → Bool} {n : ℕ} {j : Job} {w : World}
    (hp : ∀ w', w.Grows w' → numbered.wp j p Anyhow w') :
    numbered.wp j (p.retry again n) Anyhow w := by
  refine numbered.wp_retry (fun _ w' => w.Grows w') (fun _ _ _ => trivial)
    (fun _ _ _ hr h => h.trans hr) (fun n w₁ h₁ => ?_) (World.Grows.refl w)
  refine numbered.wp_mono (numbered.wp_since (T:=World.Grows)
    (fun _ _ _ => World.Grows.trans) (fun _ _ h => h) (fun _ _ h => h) (hp w₁ h₁)) fun r w₂ _ h => ?_
  cases r with
  | ok a => trivial
  | error e =>
    change if again e then w.Grows w₂ else True
    split
    · exact h₁.trans h.1
    · trivial

theorem wp_submitAll (j : Job) (tweetId : JString) (tweetMap : TweetMap) (followers : List JString)
    (w : World) : numbered.wp j (submitAll tweetId tweetMap followers) Anyhow w := by
  induction followers generalizing w with
  | nil => exact wp_anyhow_ret
  | cons follower followers ih =>
    refine wp_submit (numbered_logs j) (fun w' hi _ _ => ⟨⟨hi.log rfl,w'.grows_log _ _ _,?_⟩,ih _⟩)
      fun _ _ _ _ => wp_anyhow_throw
    rintro u ⟨⟩
    exact ⟨trivial,trivial,fun _ _ => trivial⟩

theorem wp_tweetCommand (j : Job) (userId tweetId : JString) (tweetMap : TweetMap) (w : World)
    (hid : tweetId ∈ tweetIds w.history) :
    numbered.wp j (tweetCommand userId tweetId tweetMap) Anyhow w := by
  refine wp_put (numbered_logs j) (fun w₁ hi₁ hr₁ _ _ => ⟨⟨?_,World.grows_logWrite _ _ _ _ _ _ _,
    by simp⟩,?_⟩) (fun _ _ _ _ _ => wp_anyhow_throw) fun _ _ _ _ => wp_anyhow_throw
  · exact hi₁.write_tweets (by cases j <;> rfl) (tweetIds_subset hr₁.history hid) _
  · refine wp_then (wp_timelineOnly (all_getValue trivial) j _) fun user w₂ _ => ?_
    cases user with
    | none => exact wp_anyhow_ret
    | some user =>
      refine wp_iterator (numbered_logs j) fun w₃ l _ _ _ => ?_
      exact wp_then (wp_submitAll j _ _ _ _) fun _ w₄ _ =>
        wp_timelineOnly ((all_updateTimeline _ _ _).mono fun _ => TimelineCall.only) j w₄

theorem wp_execute {j : Job} (c : Command) (w : World)
    (hj : j.isTweet = false ∨ ∃ u i m, c = .tweet u i m) (hgiven : Given (.execute c) w.history) :
    numbered.wp j c.execute Anyhow w := by
  refine wp_then (wp_attempts fun w₁ h₁ => ?_) fun _ _ _ => wp_anyhow_ret
  cases c with
  | tweet userId tweetId tweetMap =>
    exact wp_tweetCommand j _ _ _ w₁ (tweetIds_subset h₁.history hgiven)
  | startFollowing userId toStartUser =>
    exact wp_then (wp_startUpdate j _ _ _ w₁) fun _ w₂ _ =>
      wp_then (wp_startUpdate j _ _ _ w₂) fun _ w₃ _ =>
      wp_timelineOnly ((all_startTimeline _ _).mono fun _ => TimelineCall.only) j w₃
  | stopFollowing userId toStopUser =>
    have hj' : j.isTweet = false := hj.resolve_right (by simp)
    exact wp_then (wp_stopUpdate hj' _ _ _ w₁) fun _ w₂ _ =>
      wp_then (wp_stopUpdate hj' _ _ _ w₂) fun _ w₃ _ =>
      wp_timelineOnly ((all_stopTimeline _ _).mono fun _ => TimelineCall.only) j w₃

theorem wp_newUser (j : Job) (user : User) (w : World) :
    numbered.wp j (newUser user) Anyhow w := by
  refine wp_now (numbered_logs j) fun w₁ date _ _ _ => ?_
  refine wp_then (wp_attempts fun w₂ _ => wp_of_bind_pure ?_) fun success _ _ => ?_
  · refine wp_putIfNotObsolete (numbered_logs j) (fun w₃ hi₃ _ _ hv => ⟨⟨?_,
      World.grows_logWrite _ _ _ _ _ _ _,by simp⟩,wp_anyhow_ret⟩) (fun _ _ _ _ _ => wp_anyhow_ret)
      fun _ _ _ _ => wp_anyhow_throw
    have hnew : w₃.store .users user.username = [] := List.length_eq_zero_iff.mp hv.symm
    refine hi₃.write_users (by cases j <;> rfl) ?_
    rw [hi₃.count_new hnew]
    rfl
  · cases success with
    | none => exact wp_anyhow_throw
    | some success => exact wp_anyhow_ret

theorem parseInt_counter {w : World} (hw : Numbered w) {u : JString} {x : UserMap}
    (hx : (w.store .users).value u = some x) :
    parseInt x.lastTweet = some (tweetCount w.history u : ℤ) := by
  have hbelow := hw.below u
  rw [hw.counter u x hx]
  exact @parse_decimal 32 _ ⟨by omega,by omega⟩

theorem Store.value_of_get_eq {n : StoreName} {w : World} {key : JString} {x : Versioned (Val n)}
    (h : (w.store n).get key = some x) : (w.store n).value key = some x.value := by
  obtain ⟨vs,hvs,_⟩ := Store.get_eq_some.mp h
  exact Store.value_eq_some.mpr ⟨vs,hvs⟩

/-- The number that is written counts the earlier writes, as long as nobody else has written
since it was read. -/
theorem wp_tweetUpdate (userId : JString) (text id : Option JString) (tweetMap : TweetMap) (w : World) :
    numbered.wp (.tweet userId text id) (tweetUpdate userId tweetMap) Anyhow w := by
  refine wp_get (numbered_logs _) (fun w₁ hi₁ _ _ => ?_) fun _ _ _ _ => wp_anyhow_throw
  cases hget : (w₁.store .users).get userId with
  | none => exact wp_anyhow_throw
  | some x =>
    have hparse := parseInt_counter hi₁ (Store.value_of_get_eq hget)
    have hcount₁ := hi₁.counter userId x.value (Store.value_of_get_eq hget)
    have hbelow₁ := hi₁.below userId
    have hwrap : wrap 32 ((tweetCount w₁.history userId : ℤ) + 1) =
        ((tweetCount w₁.history userId + 1 : ℕ) : ℤ) := by
      rw [@wrap_eq_self 31 _ ⟨by omega,by omega⟩]
      push_cast
      rfl
    change numbered.wp _ (orThrow .numberFormat (parseInt x.value.lastTweet) >>= _) Anyhow _
    rw [hparse]
    change numbered.wp _ (put .users userId ⟨{ x.value with
      lastTweet := some (decimal (wrap 32 ((tweetCount w₁.history userId : ℤ) + 1))) },x.version⟩ >>= _)
      Anyhow _
    rw [hwrap]
    refine wp_put (numbered_logs _) (fun w₂ hi₂ hr₂ hc₂ hv => ?_)
      (fun _ _ _ _ _ => wp_anyhow_throw) fun _ _ _ _ => wp_anyhow_throw
    have hcount₂ := hi₂.counter userId x.value (value_of_get hget hr₂.of_log hv)
    have hsame : tweetCount w₁.history userId = tweetCount w₂.history userId :=
      decimal_injective (Option.some.inj (hcount₁.symm.trans hcount₂))
    have hbelow₂ := hi₂.below userId
    have hwrite : counterWrite (.tweet userId text id,⟨.put .users userId ⟨{ x.value with
        lastTweet := some (decimal (tweetCount w₁.history userId + 1 : ℕ)) },x.version⟩,.ok ()⟩) =
        some (userId,decimal (tweetCount w₂.history userId + 1 : ℕ)) := by
      rw [← hsame]
      rfl
    have hnumber : (tweetCount w₂.history userId : ℤ) + 1 < 2^31 - 1 := by
      have hne : ((tweetCount w₁.history userId + 1 : ℕ) : ℤ) ≠ 2^31 - 1 := by
        intro heq
        exact hc₂ (congrArg (fun n => some (decimal n)) heq)
      rw [hsame] at hne
      push_cast at hne
      omega
    refine ⟨⟨hi₂.write_counter hwrite (by rw [← hsame]) hnumber,World.grows_logWrite _ _ _ _ _ _ _,
      by simp⟩,?_⟩
    refine wp_storeRemotely (numbered_logs _) fun w₃ success _ hr₃ => ?_
    cases success with
    | false => exact wp_anyhow_throw
    | true =>
      refine wp_then (wp_execute _ _ (Or.inr ⟨_,_,_,rfl⟩) ?_) fun _ _ _ => wp_anyhow_ret
      refine tweetIds_subset (hr₃.history.trans (List.suffix_cons _ _)) ?_
      simp only [tweetIds,counterWrites,World.logWrite,List.filterMap_cons,hwrite,List.map_cons,hsame]
      exact List.mem_cons_self

theorem wp_tweet (userId : JString) (text id : Option JString) (w : World) :
    numbered.wp (.tweet userId text id) (tweet userId text id) Anyhow w := by
  refine wp_now (numbered_logs _) fun w₁ date _ _ _ => ?_
  refine wp_get (numbered_logs _) (fun w₂ _ _ _ => ?_) fun _ _ _ _ => wp_anyhow_throw
  cases (w₂.store .users).get userId with
  | none => exact wp_anyhow_throw
  | some x =>
    refine wp_then wp_anyhow_ret fun _ _ _ => ?_
    refine wp_then (wp_attempts fun w₃ _ => wp_tweetUpdate userId text id _ w₃) fun success _ _ => ?_
    cases success with
    | none => exact wp_anyhow_throw
    | some tweetId => exact wp_anyhow_ret

theorem wp_body (j : Job) (w : World) (hgiven : Given j w.history) :
    numbered.wp j j.body Anyhow w := by
  cases j with
  | newUser user => exact wp_then (wp_newUser _ user w) fun _ _ _ => wp_anyhow_ret
  | tweet userId text id =>
    change numbered.wp _ (some <$> tweet userId text id) Anyhow w
    rw [map_eq_pure_bind]
    exact wp_then (wp_tweet userId text id w) fun _ _ _ => wp_anyhow_ret
  | execute c => exact wp_then (wp_execute c w (Or.inl rfl) hgiven) fun _ _ _ => wp_anyhow_ret
  | updateTimeline tweetId tweetMap follower =>
    exact wp_then (wp_timelineOnly ((all_updateTimeline _ _ _).mono fun _ => TimelineCall.only) _ w) fun _ _ _ => wp_anyhow_ret

/-- A step of a run in which no counter is raised to 2^31-1. Any job may start, a replayed
`TweetCommand` with an id that it was given. -/
def Counted (e : Event) (s : State) : Prop :=
  match e with
  | .start j => Given j s.world.history
  | .thread _ _ => Calls NoOverflow e s

instance (j : Job) (h : History) : Decidable (Given j h) := by
  unfold Given
  induction j using Job.casesOn with
  | execute command => induction command using Command.casesOn <;> infer_instance
  | _ => infer_instance

instance (e : Event) (s : State) : Decidable (Counted e s) := by
  unfold Counted
  split <;> infer_instance

def State.empty : State := ⟨⟨fun _ _ => [],[]⟩,[]⟩

theorem empty_good : numbered.Good State.empty := by
  refine ⟨⟨trivial,fun u => ?_,by simp [State.empty,counterWrites],by simp [State.empty,Store.value],
    by simp [State.empty]⟩,by simp [State.empty],by simp [State.empty]⟩
  simp [State.empty,tweetCount,counterWrites]

theorem Counted.admits {e : Event} {s : State} (hc : Counted e s) : numbered.Admits e s := by
  cases e with
  | start j => exact ⟨hc,fun _ _ => trivial⟩
  | thread i choice =>
    intro job op k ht
    simp only [Counted,Calls,ht] at hc
    exact hc

theorem numbered_step {e : Event} {s s' : State} (hs : numbered.Good s) (hc : Counted e s)
    (h : machine.step e s = some s') : numbered.Good s' :=
  numbered.good_step (fun j w _ hgiven => wp_body j w hgiven) hs hc.admits h

theorem good_of_counted {es : List Event} {s : State}
    (h : Runs.Reaches machine.step Counted State.empty es s) : numbered.Good s :=
  h.invariant empty_good fun _ _ _ hs hc hstep => numbered_step hs hc hstep

def World.lastTweet (w : World) (u : JString) : Option ℤ :=
  ((w.store .users).value u).bind fun x => parseInt x.lastTweet

theorem Numbered.lastTweet {w : World} (hw : Numbered w) {u : JString}
    (hu : w.store .users u ≠ []) : w.lastTweet u = some (tweetCount w.history u : ℤ) := by
  obtain ⟨x,xs,hx⟩ := List.exists_cons_of_ne_nil hu
  have hvalue : (w.store .users).value u = some x := Store.value_eq_some.mpr ⟨xs,hx⟩
  rw [World.lastTweet,hvalue,Option.bind_some,parseInt_counter hw hvalue]

def Event.isTweet (e : Event) (s : State) : Prop :=
  match e with
  | .thread i _ => ∃ t, s.threads[i]? = some t ∧ t.1.isTweet = true
  | _ => False

theorem tweetCount_step {e : Event} {s s' : State} (h : machine.step e s = some s') (u : JString) :
    tweetCount s.world.history u ≤ tweetCount s'.world.history u ∧
      (tweetCount s'.world.history u ≠ tweetCount s.world.history u → Event.isTweet e s) := by
  cases e with
  | start j =>
    obtain rfl := Option.some.inj h
    exact ⟨Nat.le_refl _,fun hne => absurd rfl hne⟩
  | thread i choice =>
    obtain ⟨job,op,k,r,w,new,ht,hexec,rfl⟩ := Machine.thread_step h
    refine ⟨((((exec_grows hexec).history.filterMap counterWrite).map _).sublist.count_le u),
      fun hne => ?_⟩
    by_cases hj : job.isTweet = true
    · exact ⟨_,ht,hj⟩
    · refine absurd ?_ hne
      have hnone := counterWrite_of_not_isTweet (j:=job) (by simpa using hj)
      rcases (exec_cases hexec).2 with ⟨_,rfl⟩ | ⟨_,_,_,_,_,rfl⟩ <;>
        simp [tweetCount,counterWrites,World.log,World.logWrite,hnone]

/-- In every run: no id is given twice; the counter of a user is the number of its writes,
and no step but one of `tweet` changes it; and stored tweets have a number up to it. -/
theorem tweet_numbers (es : List Event) (s : State)
    (h : Runs.Reaches machine.step Counted State.empty es s) :
    (tweetIds s.world.history).Nodup ∧
    (∀ u, s.world.store .users u ≠ [] →
      s.world.lastTweet u = some (tweetCount s.world.history u : ℤ)) ∧
    (∀ e s', Counted e s → machine.step e s = some s' → ∀ u n, s.world.lastTweet u = some n →
      ∃ n', s'.world.lastTweet u = some n' ∧ n ≤ n' ∧ (n' ≠ n → Event.isTweet e s)) ∧
    ∀ (u : JString) (n : ℕ), s.world.store .tweets (tweetKey u n) ≠ [] →
      ∃ m, s.world.lastTweet u = some m ∧ 1 ≤ n ∧ (n : ℤ) ≤ m := by
  have hw := (good_of_counted h).inv
  refine ⟨hw.consecutive.nodup,fun u hu => hw.lastTweet hu,fun e s' hc hs u n hn => ?_,
    fun u n htweet => ?_⟩
  · have hw' := (good_of_counted (.next e h hc hs)).inv
    have hu : s.world.store .users u ≠ [] := by
      intro hnil
      simp [World.lastTweet,Store.value,hnil] at hn
    have hu' : s'.world.store .users u ≠ [] := ((step_grows hs).store .users).ne_nil hu
    obtain rfl := Option.some.inj ((hw.lastTweet hu).symm.trans hn)
    obtain ⟨hle,hne⟩ := tweetCount_step hs u
    refine ⟨_,hw'.lastTweet hu',?_,fun hneq => hne ?_⟩
    · exact_mod_cast hle
    · exact_mod_cast hneq
  · obtain ⟨p,hp,hid⟩ := List.mem_map.mp (hw.tweets _ htweet)
    obtain ⟨m,h₁,h₂,hm⟩ := hw.consecutive.exists hp
    simp only [hm] at hid
    obtain ⟨hu,rfl⟩ := tweetKey_injective (u:=p.1) (v:=u) hid
    refine ⟨_,hw.lastTweet (hu ▸ hw.registered p hp),h₁,?_⟩
    rw [hu] at h₂
    exact_mod_cast h₂

/-- Users `a` and `a-1` register, `a` tweets while a follow holds an old copy of the record,
and a tweet of `a-1` is numbered and then not stored by the queue. -/
def twoUsersTweet : List Event :=
  [.start (.newUser ⟨['a'],none,none⟩),.thread 0 (.time 1),.thread 0 .go,
    .start (.newUser ⟨['a','-','1'],none,none⟩),.thread 1 (.time 2),.thread 1 .go,
    .start (.execute (.startFollowing ['a'] ['a','-','1'])),.thread 2 .go,
    .start (.tweet ['a'] none none),.thread 3 (.time 3),.thread 3 .go,.thread 3 .go,.thread 3 .go,
    .thread 3 (.stored true),.thread 3 .go,.thread 3 .go,.thread 3 (.order []),.thread 3 .go,
    .thread 3 .go,.thread 2 (.order [['a','-','1']]),.thread 2 .go,
    .start (.tweet ['a','-','1'] none none),.thread 4 (.time 4),.thread 4 .go,.thread 4 .go,
    .thread 4 .go,.thread 4 (.stored false)]

theorem tweet_numbers_two_users :
    ∃ s : State, Runs.Reaches machine.step Counted State.empty twoUsersTweet s ∧
      tweetIds s.world.history = [['a','-','1','-','1'],['a','-','1']] ∧
      (tweetIds s.world.history).Nodup ∧ s.world.lastTweet ['a'] = some 1 := by
  have hrun : ((Runs.runIf machine.step Counted twoUsersTweet State.empty).map fun s =>
      (tweetIds s.world.history,(s.world.store .users ['a']).length,
        tweetCount s.world.history ['a'])) =
      some ([['a','-','1','-','1'],['a','-','1']],2,1) := by decide +kernel
  obtain ⟨s,hs,hp⟩ := Option.map_eq_some_iff.mp hrun
  simp only [Prod.mk.injEq] at hp
  have h := Runs.reaches_of_runIf .start hs
  obtain ⟨hnodup,hcounter,_⟩ := tweet_numbers twoUsersTweet s h
  refine ⟨s,h,hp.1,hnodup,?_⟩
  rw [hcounter _ (List.ne_nil_of_length_pos (by omega)),hp.2.2]
  rfl

end TweetService
end Bigbird
