import Bigbird.ServiceCalls

/-! Following and unfollowing: the edges that the sets of names in the user maps stand for,
and what is left of them when several commands rewrite the same users. -/
namespace Bigbird
namespace TweetService

open JavaText VersionedStore Programs

section Sets

theorem mem_splitOn_append {y : JString} (hy : y ≠ []) {s : JString} (hs : ',' ∉ s) (sb : JString) :
    y ∈ ((if 0 < sb.length then sb ++ [','] else sb) ++ s).splitOn ',' ↔ y ∈ sb.splitOn ',' ∨ y = s := by
  cases sb with
  | nil => simp [List.splitOn_eq_singleton hs,hy]
  | cons c sb =>
    rw [if_pos (by simp),List.append_assoc,List.singleton_append,List.splitOn_append_cons_self,
      List.splitOn_eq_singleton hs,List.mem_append,List.mem_singleton]

theorem mem_splitOn_toString {y : JString} (hy : y ≠ []) {set : List JString}
    (hset : ∀ s ∈ set, ',' ∉ s) (sb : JString) :
    y ∈ (set.foldl (fun sb s => (if 0 < sb.length then sb ++ [','] else sb) ++ s) sb).splitOn ',' ↔
      y ∈ sb.splitOn ',' ∨ y ∈ set := by
  induction set generalizing sb with
  | nil => simp
  | cons s set ih =>
    rw [List.foldl_cons,ih (fun s hs => hset s (List.mem_cons_of_mem _ hs)),
      mem_splitOn_append hy (hset s List.mem_cons_self),or_assoc,List.mem_cons]

/-- Apart from the empty name, the names that are written are read back. -/
theorem mem_asSet_toString {y : JString} (hy : y ≠ []) {set : List JString}
    (hset : ∀ s ∈ set, ',' ∉ s) : y ∈ asSet (some (toString set)) ↔ y ∈ set := by
  rw [asSet,List.mem_dedup,mem_split hy,toString,mem_splitOn_toString hy hset]
  simp [hy]

theorem not_mem_of_mem_asSet {s : Option JString} {y : JString} (h : y ∈ asSet s) : ',' ∉ y := by
  cases s with
  | none => simp [asSet] at h
  | some s => exact not_mem_of_mem_split (List.mem_dedup.mp h)

theorem nodup_asSet (s : Option JString) : (asSet s).Nodup := by
  cases s with
  | none => exact List.nodup_nil
  | some s => exact List.nodup_dedup _

@[simp] theorem UserMap.edges_setEdges (user : UserMap) (e : Edges) (s : JString) :
    (user.setEdges e s).edges e = some s := by
  cases e <;> rfl

@[simp] theorem UserMap.lastTweet_setEdges (x : UserMap) (e : Edges) (s : JString) :
    (x.setEdges e s).lastTweet = x.lastTweet := by
  cases e <;> rfl

theorem UserMap.edges_setEdges_of_ne (user : UserMap) {e e' : Edges} (h : e' ≠ e) (s : JString) :
    (user.setEdges e s).edges e' = user.edges e' := by
  cases e <;> cases e' <;> first | rfl | exact absurd rfl h

end Sets

/-- Whose map records the edge of a pair of a follower and a followed user. -/
def Edges.owner : Edges → JString × JString → JString
  | .following, p => p.1
  | .followers, p => p.2

def Edges.member : Edges → JString × JString → JString
  | .following, p => p.2
  | .followers, p => p.1

theorem Edges.eq_of_ends {e : Edges} {p p' : JString × JString} (howner : e.owner p = e.owner p')
    (hmember : e.member p = e.member p') : p = p' := by
  cases e with
  | following => exact Prod.ext howner hmember
  | followers => exact Prod.ext hmember howner

instance {P : Edges → Prop} [DecidablePred P] : Decidable (∀ e, P e) :=
  decidable_of_iff (P .following ∧ P .followers)
    ⟨fun h e => by cases e; exacts [h.1,h.2],fun h => ⟨h _,h _⟩⟩

def World.names (w : World) (e : Edges) (user : JString) : List JString :=
  ((w.store .users).value user).elim [] fun user => asSet (user.edges e)

/-- The edge is in the following, or the followers, that it belongs to. -/
def World.follows (w : World) (e : Edges) (p : JString × JString) : Prop :=
  e.member p ∈ w.names e (e.owner p)

instance (w : World) (e : Edges) (p : JString × JString) : Decidable (w.follows e p) := by
  unfold World.follows
  infer_instance

theorem follows_logWrite {w : World} {user : JString} {userMap : UserMap}
    (hvalue : (w.store .users).value user = some userMap) {set : List JString}
    (hset : ∀ s ∈ set, ',' ∉ s) (j : Job) (op : Op) (r : Except Exn op.Res) (e e' : Edges)
    {p : JString × JString} (hp : e'.member p ≠ []) :
    (w.logWrite j op r .users user (userMap.setEdges e (toString set))).follows e' p ↔
      if e' = e ∧ e'.owner p = user then e'.member p ∈ set else w.follows e' p := by
  by_cases howner : e'.owner p = user
  · by_cases he : e' = e
    · subst he
      simp [World.follows,World.names,World.logWrite,Store.value,howner,mem_asSet_toString hp hset]
    · have hnames : w.names e' user = asSet (userMap.edges e') := by simp [World.names,hvalue]
      simp [World.follows,World.logWrite,World.names,Store.value,howner,he,
        userMap.edges_setEdges_of_ne he] at hnames ⊢
      rw [← hnames]
  · simp [World.follows,World.names,World.logWrite,Store.value,howner]

def Job.pair : Job → Option (JString × JString)
  | .execute (.startFollowing userId toStartUser) => some (userId,toStartUser)
  | .execute (.stopFollowing userId toStopUser) => some (userId,toStopUser)
  | _ => none

def refusals (j : Job) (h : History) : ℕ :=
  h.countP fun
    | (j',⟨.put _ _ _,.error .obsoleteVersion⟩) => j' = j
    | _ => false

/-- The edges of the pairs in `P` stay as they are, and none of their puts is refused. -/
structure Keeps (P : JString × JString → Prop) (w w' : World) : Prop where
  grows : w.Grows w'
  follows : ∀ e p, e.member p ≠ [] → P p → (w'.follows e p ↔ w.follows e p)
  refusals : ∀ j p, j.pair = some p → P p → refusals j w'.history = refusals j w.history

theorem Keeps.refl (P : JString × JString → Prop) (w : World) : Keeps P w w :=
  ⟨World.Grows.refl w,fun _ _ _ _ => Iff.rfl,fun _ _ _ _ => rfl⟩

theorem Keeps.trans {P : JString × JString → Prop} {w w' w'' : World} (h : Keeps P w w')
    (h' : Keeps P w' w'') : Keeps P w w'' :=
  ⟨h.grows.trans h'.grows,fun e p hp hP => (h'.follows e p hp hP).trans (h.follows e p hp hP),
    fun j p hj hP => (h'.refusals j p hj hP).trans (h.refusals j p hj hP)⟩

theorem Keeps.mono {P P' : JString × JString → Prop} {w w' : World} (h : Keeps P w w')
    (hP : ∀ p, P' p → P p) : Keeps P' w w' :=
  ⟨h.grows,fun e p hp hp' => h.follows e p hp (hP p hp'),fun j p hj hp' => h.refusals j p hj (hP p hp')⟩

/-- A call that does no harm: the stores respond, a `StartFollowingCommand` puts back the
current copy of a user unless the edge is there already, and so does a
`StopFollowingCommand` in its last attempt unless both edges are gone already. -/
def Unharmed (j : Job) (op : Op) (choice : Choice) (w : World) : Prop :=
  choice ≠ .fails ∧ match j, op with
  | .execute (.startFollowing userId toStartUser), .putIfNotObsolete .users user x =>
    x.version = (w.store .users user).length ∨ ∀ e : Edges, e.owner (userId,toStartUser) = user →
      e.member (userId,toStartUser) ∈ asSet (x.value.edges e) → w.follows e (userId,toStartUser)
  | .execute (.stopFollowing userId toStopUser), .put .users user x =>
    refusals j w.history = 2 → x.version = (w.store .users user).length ∨
      ∀ e : Edges, ¬ w.follows e (userId,toStopUser)
  | _, _ => True

instance (j : Job) (op : Op) (choice : Choice) (w : World) : Decidable (Unharmed j op choice w) := by
  unfold Unharmed
  refine @instDecidableAnd _ _ ?_ ?_
  · infer_instance
  · induction j using Job.casesOn with
    | execute command =>
      induction command using Command.casesOn <;> induction op using Op.casesOn with
      | put n | putIfNotObsolete n => induction n using StoreName.casesOn <;> infer_instance
      | _ => infer_instance
    | _ => infer_instance

def Job.Effect (j : Job) (w : World) : Prop :=
  match j with
  | .execute (.startFollowing userId toStartUser) => ∀ e : Edges, w.follows e (userId,toStartUser)
  | .execute (.stopFollowing userId toStopUser) => ∀ e : Edges, ¬ w.follows e (userId,toStopUser)
  | _ => True

/-- The commands about the pairs in `named`, run on the world `w₀`. -/
def followings (w₀ : World) (named : JString × JString → Prop) : Logic machine where
  inv := Keeps (fun p => ¬ named p) w₀
  rely j := Keeps fun p => j.pair = some p
  guar j := Keeps fun p => j.pair ≠ some p
  cond := Unharmed
  pre _ _ := False
  post j _ := j.Effect
  apart i j := i.pair ≠ j.pair
  rely_refl _ := Keeps.refl _
  rely_trans _ _ _ _ := Keeps.trans
  rely_of_guar _ _ _ _ hij h := h.mono fun _ hp hp' => hij (hp'.trans hp.symm)
  apart_symm _ _ h := h.symm

theorem refusals_cons_of_ne {i j : Job} (h : i ≠ j) (op : Op) (r : Except Exn op.Res)
    (history : History) : refusals i ((j,⟨op,r⟩)::history) = refusals i history := by
  refine List.countP_cons_of_neg ?_
  split
  · rename_i heq
    obtain rfl := congrArg Prod.fst heq
    simp [Ne.symm h]
  · simp

@[simp] theorem refusals_cons_ok (i j : Job) (op : Op) (a : op.Res) (history : History) :
    refusals i ((j,⟨op,.ok a⟩)::history) = refusals i history := by
  refine List.countP_cons_of_neg ?_
  split
  · rename_i heq
    injection heq with _ heq
    injection heq with hop heq
    subst hop
    simp at heq
  · simp

@[simp] theorem refusals_cons_refused (j : Job) (n : StoreName) (key : JString) (x : Versioned (Val n))
    (history : History) :
    refusals j ((j,⟨.put n key x,.error .obsoleteVersion⟩)::history) = refusals j history + 1 :=
  List.countP_cons_of_pos (by simp)

theorem keeps_call {j : Job} {op : Op} {r : Except Exn op.Res} {w w' : World} (hgrows : w.Grows w')
    (hhistory : w'.history = (j,⟨op,r⟩)::w.history)
    (hfollows : ∀ e p, e.member p ≠ [] → j.pair ≠ some p → (w'.follows e p ↔ w.follows e p)) :
    Keeps (fun p => j.pair ≠ some p) w w' := by
  refine ⟨hgrows,hfollows,fun i p hi hp => ?_⟩
  rw [hhistory]
  refine refusals_cons_of_ne ?_ op r w.history
  rintro rfl
  exact hp hi

variable {w₀ : World} {named : JString × JString → Prop} {j : Job} {p : JString × JString}

/-- Names in a command: not empty, and no comma in them. -/
def Proper (name : JString) : Prop := name ≠ [] ∧ ',' ∉ name

instance (name : JString) : Decidable (Proper name) := by
  unfold Proper
  infer_instance

structure Follower (w₀ : World) (named : JString × JString → Prop) (p : JString × JString) : Prop where
  named : named p
  proper : ∀ e : Edges, Proper (e.member p)
  registered : ∀ e : Edges, w₀.store .users (e.owner p) ≠ []

theorem followings_call (hp : Follower w₀ named p) (hj : j.pair = some p) {w w' : World}
    (hi : (followings w₀ named).inv w) (h : Keeps (fun p => j.pair ≠ some p) w w') :
    (followings w₀ named).Call j w w' none := by
  refine ⟨hi.trans (h.mono fun q hq hjq => hq ?_),h,by simp⟩
  obtain rfl := Option.some.inj (hj.symm.trans hjq)
  exact hp.named

theorem followings_logs (hp : Follower w₀ named p) (hj : j.pair = some p) : Logs (followings w₀ named) j :=
  fun op r w hi _ => followings_call hp hj hi
    (keeps_call (w.grows_log j op r) rfl fun _ _ _ _ => Iff.rfl)

theorem keeps_setEdges {w : World} {e : Edges} {x : Versioned UserMap}
    (hvalue : (w.store .users).value (e.owner p) = some x.value) {set : List JString}
    (hset : ∀ s ∈ set, ',' ∉ s)
    (hothers : ∀ s, s ≠ e.member p → (s ∈ set ↔ s ∈ asSet (x.value.edges e))) (hj : j.pair = some p)
    (op : Op) (r : Except Exn op.Res) :
    Keeps (fun p => j.pair ≠ some p) w
      (w.logWrite j op r .users (e.owner p) (x.value.setEdges e (toString set))) := by
  refine keeps_call (w.grows_logWrite _ _ _ _ _ _) rfl fun e' q hq hjq => ?_
  rw [follows_logWrite hvalue hset _ _ _ _ _ hq]
  by_cases h : e' = e ∧ e'.owner q = e.owner p
  · obtain ⟨rfl,howner⟩ := h
    have hmember : e'.member q ≠ e'.member p := by
      intro hmember
      exact hjq (hj.trans (congrArg some (Edges.eq_of_ends howner hmember).symm))
    rw [if_pos ⟨rfl,howner⟩,hothers _ hmember]
    simp [World.follows,World.names,howner,hvalue]
  · rw [if_neg h]

theorem Follower.get {w : World} (hp : Follower w₀ named p) (hi : (followings w₀ named).inv w)
    (e : Edges) : ∃ x, (w.store .users).get (e.owner p) = some x := by
  obtain ⟨user,users,huser⟩ :=
    List.exists_cons_of_ne_nil ((hi.grows.store .users).ne_nil (hp.registered e))
  exact ⟨⟨user,users.length+1⟩,Store.get_eq_some.mpr ⟨users,huser,rfl⟩⟩

theorem follows_of_rely {w w' : World} (hp : Follower w₀ named p) (hj : j.pair = some p)
    (hr : (followings w₀ named).rely j w w') (e : Edges) : w'.follows e p ↔ w.follows e p :=
  hr.follows e p (hp.proper e).1 hj

/-- An update of a `StartFollowingCommand`; `D` are the edges that are there before it. -/
theorem wp_addEdge {userId toStartUser : JString} (e : Edges) {D : Edges → Prop}
    (hp : Follower w₀ named (userId,toStartUser)) {w : World}
    (hD : ∀ e', D e' → w.follows e' (userId,toStartUser)) :
    (followings w₀ named).wp (.execute (.startFollowing userId toStartUser))
      (startUpdate e (e.owner (userId,toStartUser)) (e.member (userId,toStartUser)))
      (fun r w => r = .ok () ∧ ∀ e', D e' ∨ e' = e → w.follows e' (userId,toStartUser)) w := by
  have hj : (Job.execute (.startFollowing userId toStartUser)).pair = some (userId,toStartUser) := rfl
  have hlogs := followings_logs hp hj
  refine wp_get hlogs (fun w₁ hi₁ hr₁ _ => ?_) fun _ _ _ hc => absurd rfl hc.1
  obtain ⟨x,hx⟩ := hp.get hi₁ e
  rw [hx]
  refine wp_iterator hlogs fun w₂ l _ hr₂ hl => ?_
  have hmem : e.member (userId,toStartUser) ∈ l := hl.mem_iff.mpr List.mem_insert_self
  have hset : ∀ s ∈ l, ',' ∉ s := by
    intro s hs
    rcases List.mem_insert_iff.mp (hl.mem_iff.mp hs) with rfl | hs
    · exact (hp.proper e).2
    · exact not_mem_of_mem_asSet hs
  have hbefore (e' : Edges) : w₂.follows e' (userId,toStartUser) ↔ w.follows e' (userId,toStartUser) :=
    (follows_of_rely hp hj hr₂ e').trans (follows_of_rely hp hj hr₁ e')
  refine wp_putIfNotObsolete hlogs (fun w₃ hi₃ hr₃ _ hv => ?_) (fun w₃ _ hr₃ hc₃ hv => ?_)
    fun _ _ _ hc => absurd rfl hc.1
  · have hgrows := hr₂.grows.of_log.trans hr₃.grows.of_log
    have hvalue := value_of_get hx hgrows hv
    refine ⟨followings_call hp hj hi₃ (keeps_setEdges hvalue hset (fun s hs => ?_) hj _ _),?_⟩
    · rw [hl.mem_iff,List.mem_insert_iff,or_iff_right hs]
    · refine Logic.wp_ret fun w₄ _ hr₄ => ⟨rfl,fun e' he' => ?_⟩
      rw [follows_of_rely hp hj hr₄,follows_logWrite hvalue hset _ _ _ _ _ (hp.proper e').1]
      by_cases h : e' = e
      · subst h
        simpa using hmem
      · rw [if_neg fun h' => h h'.1]
        exact (follows_of_rely hp hj hr₃ e').mpr ((hbefore e').mpr (hD e' (he'.resolve_right h)))
  · refine Logic.wp_ret fun w₄ _ hr₄ => ⟨rfl,fun e' he' => ?_⟩
    rw [follows_of_rely hp hj hr₄]
    rcases he' with he' | rfl
    · exact (follows_of_rely hp hj hr₃ e').mpr ((hbefore e').mpr (hD e' he'))
    · refine (hc₃.2.resolve_left hv) e' rfl ?_
      rw [UserMap.edges_setEdges]
      exact (mem_asSet_toString (hp.proper e').1 hset).mpr hmem

/-- How an attempt of a command that was refused `k` times before can end. -/
def Attempted (j : Job) (A : World → Prop) (k : ℕ) (r : Except Exn Unit) (w : World) : Prop :=
  match r with
  | .ok _ => A w ∧ refusals j w.history = k
  | .error e => if e = .obsoleteVersion then refusals j w.history = k+1 ∧ (k = 2 → j.Effect w)
    else j.Effect w

theorem refusals_of_rely {w w' : World} (hj : j.pair = some p)
    (hr : (followings w₀ named).rely j w w') : refusals j w'.history = refusals j w.history :=
  hr.refusals j p hj hj

theorem wp_removeEdge {userId toStopUser : JString} (e : Edges) {D : Edges → Prop} {k : ℕ}
    (hp : Follower w₀ named (userId,toStopUser)) {w : World}
    (hk : refusals (.execute (.stopFollowing userId toStopUser)) w.history = k)
    (hD : ∀ e', D e' → ¬ w.follows e' (userId,toStopUser)) :
    (followings w₀ named).wp (.execute (.stopFollowing userId toStopUser))
      (stopUpdate e (e.owner (userId,toStopUser)) (e.member (userId,toStopUser)))
      (Attempted (.execute (.stopFollowing userId toStopUser))
        (fun w => ∀ e', D e' ∨ e' = e → ¬ w.follows e' (userId,toStopUser)) k) w := by
  have hj : (Job.execute (.stopFollowing userId toStopUser)).pair = some (userId,toStopUser) := rfl
  have hlogs := followings_logs hp hj
  refine wp_get hlogs (fun w₁ hi₁ hr₁ _ => ?_) fun _ _ _ hc => absurd rfl hc.1
  obtain ⟨x,hx⟩ := hp.get hi₁ e
  rw [hx]
  refine wp_iterator hlogs fun w₂ l _ hr₂ hl => ?_
  have hgone : e.member (userId,toStopUser) ∉ l := fun h =>
    (nodup_asSet _).not_mem_erase (hl.mem_iff.mp h)
  have hset : ∀ s ∈ l, ',' ∉ s := fun s hs =>
    not_mem_of_mem_asSet (List.mem_of_mem_erase (hl.mem_iff.mp hs))
  have hbefore (e' : Edges) : w₂.follows e' (userId,toStopUser) ↔ w.follows e' (userId,toStopUser) :=
    (follows_of_rely hp hj hr₂ e').trans (follows_of_rely hp hj hr₁ e')
  have hk₂ : refusals (.execute (.stopFollowing userId toStopUser)) w₂.history = k := by
    rw [refusals_of_rely hj hr₂,World.log,refusals_cons_ok,refusals_of_rely hj hr₁,hk]
  refine wp_of_bind_pure (wp_put hlogs (fun w₃ hi₃ hr₃ _ hv => ?_) (fun w₃ _ hr₃ hc₃ hv => ?_)
    fun _ _ _ hc => absurd rfl hc.1)
  · have hvalue := value_of_get hx (hr₂.grows.of_log.trans hr₃.grows.of_log) hv
    refine ⟨followings_call hp hj hi₃ (keeps_setEdges hvalue hset (fun s hs => ?_) hj _ _),?_⟩
    · rw [hl.mem_iff,List.mem_erase_of_ne hs]
    · refine Logic.wp_ret fun w₄ _ hr₄ => ⟨fun e' he' => ?_,?_⟩
      · rw [follows_of_rely hp hj hr₄,follows_logWrite hvalue hset _ _ _ _ _ (hp.proper e').1]
        by_cases h : e' = e
        · subst h
          simpa using hgone
        · rw [if_neg fun h' => h h'.1]
          intro h'
          exact hD e' (he'.resolve_right h) ((hbefore e').mp ((follows_of_rely hp hj hr₃ e').mp h'))
      · rw [refusals_of_rely hj hr₄,World.logWrite,refusals_cons_ok,refusals_of_rely hj hr₃,World.log,
          refusals_cons_ok,hk₂]
  · have hk₃ : refusals (.execute (.stopFollowing userId toStopUser)) w₃.history = k := by
      rw [refusals_of_rely hj hr₃,World.log,refusals_cons_ok,hk₂]
    refine Logic.wp_throw fun w₄ _ hr₄ => ⟨?_,fun hk2 e' => ?_⟩
    · rw [refusals_of_rely hj hr₄,World.log,refusals_cons_refused,hk₃]
    · rw [follows_of_rely hp hj hr₄]
      exact (hc₃.2 (hk₃.trans hk2)).resolve_left hv e'

theorem follows_logTimeline (w : World) (j : Job) (op : Op) (r : Except Exn op.Res) (user : JString)
    (list : List JString) (e : Edges) (q : JString × JString) :
    (w.logWrite j op r .friendsTimeline user list).follows e q ↔ w.follows e q := by
  simp [World.follows,World.names,World.logWrite]

theorem followings_timelineOnly (hp : Follower w₀ named p) (hj : j.pair = some p) {op : Op}
    (hop : TimelineOnly op) {w w' : World} (hi : (followings w₀ named).inv w) {choice : Choice}
    {r : Except Exn op.Res} {new : Option Job} (h : exec j op choice w = some (r,w',new)) :
    (followings w₀ named).Call j w w' new ∧ ∀ e q, w'.follows e q ↔ w.follows e q := by
  obtain ⟨rfl,hw⟩ := exec_cases h
  have hfollows : ∀ e q, w'.follows e q ↔ w.follows e q := by
    intro e q
    rcases hw with ⟨_,rfl⟩ | ⟨n,key,x,hwritten,_,rfl⟩
    · rfl
    · obtain rfl := hop.written hwritten
      exact follows_logTimeline _ _ _ _ _ _ _ _
  rw [hop.task]
  exact ⟨followings_call hp hj hi
    (keeps_call (exec_grows h) (exec_history h) fun e q _ _ => hfollows e q),hfollows⟩

theorem effect_of_rely {w w' : World} (hp : Follower w₀ named p) (hj : j.pair = some p)
    (hr : (followings w₀ named).rely j w w') : j.Effect w' ↔ j.Effect w := by
  have hfollows := follows_of_rely hp hj hr
  unfold Job.Effect
  split
  · obtain rfl := Option.some.inj hj
    simp only [hfollows]
  · obtain rfl := Option.some.inj hj
    simp only [hfollows]
  · exact Iff.rfl

theorem wp_startAttempt {userId toStartUser : JString}
    (hp : Follower w₀ named (userId,toStartUser)) (w : World) :
    (followings w₀ named).wp (.execute (.startFollowing userId toStartUser))
      (startFollowingCommand userId toStartUser)
      (fun _ => (Job.execute (.startFollowing userId toStartUser)).Effect) w := by
  have hj : (Job.execute (.startFollowing userId toStartUser)).pair = some (userId,toStartUser) := rfl
  refine Logic.wp_bind ((followings w₀ named).wp_mono
    (wp_addEdge .following (D:=fun _ => False) hp (by simp)) fun r w₁ _ h => ?_)
  obtain ⟨rfl,hfollowing⟩ := h
  refine Logic.wp_bind ((followings w₀ named).wp_mono
    (wp_addEdge .followers hp hfollowing) fun r w₂ _ h => ?_)
  obtain ⟨rfl,hboth⟩ := h
  refine Logic.wp_all (all_startTimeline userId toStartUser)
    (fun w w' _ hr => (effect_of_rely hp hj hr).mpr) (fun op hop w hi hA choice r w' new _ h => ?_)
    fun e => hboth e (by cases e <;> simp)
  obtain ⟨hcall,hfollows⟩ := followings_timelineOnly hp hj hop.only hi h
  exact ⟨hcall,fun e => (hfollows e _).mpr (hA e)⟩

theorem stopFilter_error {toStopUser : JString} {timeline : List JString} {e : Exn}
    (h : stopFilter toStopUser timeline = .error e) : e = .indexOutOfBounds := by
  induction timeline with
  | nil => simp [stopFilter] at h
  | cons entry timeline ih =>
    simp only [stopFilter] at h
    split at h
    · cases h
      rfl
    · split at h
      · rename_i herror
        cases h
        exact ih herror
      · simp at h

theorem wp_stopTimeline {userId toStopUser : JString} {k : ℕ}
    (hp : Follower w₀ named (userId,toStopUser)) {w : World}
    (hk : refusals (.execute (.stopFollowing userId toStopUser)) w.history = k)
    (heffect : (Job.execute (.stopFollowing userId toStopUser)).Effect w) :
    (followings w₀ named).wp (.execute (.stopFollowing userId toStopUser))
      (stopTimeline userId toStopUser)
      (Attempted (.execute (.stopFollowing userId toStopUser))
        (Job.execute (.stopFollowing userId toStopUser)).Effect k) w := by
  have hj : (Job.execute (.stopFollowing userId toStopUser)).pair = some (userId,toStopUser) := rfl
  have hlogs := followings_logs hp hj
  refine wp_get hlogs (fun w₁ hi₁ hr₁ _ => ?_) fun _ _ _ hc => absurd rfl hc.1
  have hk₁ := (refusals_of_rely hj hr₁).trans hk
  have heffect₁ := (effect_of_rely hp hj hr₁).mpr heffect
  cases hx : (w₁.store .friendsTimeline).get userId with
  | none =>
    refine Logic.wp_ret fun w₂ _ hr₂ => ⟨(effect_of_rely hp hj hr₂).mpr heffect₁,?_⟩
    rw [refusals_of_rely hj hr₂,World.log,refusals_cons_ok,hk₁]
  | some x =>
    change (followings w₀ named).wp _ (liftExcept (stopFilter toStopUser x.value) >>= _) _ _
    cases hlist : stopFilter toStopUser x.value with
    | error e =>
      obtain rfl := stopFilter_error hlist
      exact Logic.wp_throw fun w₂ _ hr₂ => (effect_of_rely hp hj hr₂).mpr heffect₁
    | ok list =>
      refine wp_of_bind_pure (wp_put hlogs (fun w₂ hi₂ hr₂ _ hv => ?_) (fun w₂ _ hr₂ _ hv => ?_)
        fun _ _ _ hc => absurd rfl hc.1)
      · refine ⟨followings_call hp hj hi₂ (keeps_call (w₂.grows_logWrite _ _ _ _ _ _) rfl
          fun e q _ _ => follows_logTimeline _ _ _ _ _ _ e q),?_⟩
        refine Logic.wp_ret fun w₃ _ hr₃ => ⟨fun e h => ?_,?_⟩
        · exact (effect_of_rely hp hj hr₂).mpr heffect₁ e
            ((follows_logTimeline _ _ _ _ _ _ e _).mp ((follows_of_rely hp hj hr₃ e).mp h))
        · rw [refusals_of_rely hj hr₃,World.logWrite,refusals_cons_ok,refusals_of_rely hj hr₂,World.log,
            refusals_cons_ok,hk₁]
      · refine Logic.wp_throw fun w₃ _ hr₃ => ⟨?_,fun _ => ?_⟩
        · rw [refusals_of_rely hj hr₃,World.log,refusals_cons_refused,refusals_of_rely hj hr₂,World.log,
            refusals_cons_ok,hk₁]
        · exact (effect_of_rely hp hj hr₃).mpr ((effect_of_rely hp hj hr₂).mpr heffect₁)

theorem wp_stopAttempt {userId toStopUser : JString} {k : ℕ}
    (hp : Follower w₀ named (userId,toStopUser)) {w : World}
    (hk : refusals (.execute (.stopFollowing userId toStopUser)) w.history = k) :
    (followings w₀ named).wp (.execute (.stopFollowing userId toStopUser))
      (stopFollowingCommand userId toStopUser)
      (Attempted (.execute (.stopFollowing userId toStopUser))
        (Job.execute (.stopFollowing userId toStopUser)).Effect k) w := by
  have hj : (Job.execute (.stopFollowing userId toStopUser)).pair = some (userId,toStopUser) := rfl
  have hthrow {A : World → Prop} {e : Exn} {w : World}
      (h : Attempted (.execute (.stopFollowing userId toStopUser)) A k (.error e) w) :
      (followings w₀ named).wp (.execute (.stopFollowing userId toStopUser)) (.throw e)
        (Attempted (.execute (.stopFollowing userId toStopUser))
          (Job.execute (.stopFollowing userId toStopUser)).Effect k) w := by
    refine Logic.wp_throw fun w' _ hr => ?_
    simp only [Attempted,refusals_of_rely hj hr,effect_of_rely hp hj hr]
    exact h
  refine Logic.wp_bind ((followings w₀ named).wp_mono
    (wp_removeEdge .followers (D:=fun _ => False) hp hk (by simp)) fun r w₁ _ h => ?_)
  cases r with
  | error e => exact hthrow h
  | ok a =>
    refine Logic.wp_bind ((followings w₀ named).wp_mono
      (wp_removeEdge .following hp h.2 h.1) fun r w₂ _ h => ?_)
    cases r with
    | error e => exact hthrow h
    | ok a => exact wp_stopTimeline hp h.2 fun e => h.1 e (by cases e <;> simp)

/-- A command without a refusal behind it has its effect, however it ends. -/
theorem wp_followings {j : Job} (hp : Follower w₀ named p) (hj : j.pair = some p) {w : World}
    (hnew : refusals j w.history = 0) :
    (followings w₀ named).wp j j.body (fun _ => j.Effect) w := by
  cases j with
  | newUser => simp [Job.pair] at hj
  | tweet => simp [Job.pair] at hj
  | updateTimeline => simp [Job.pair] at hj
  | execute c =>
    refine Logic.wp_map (Logic.wp_map ?_)
    cases c with
    | tweet => simp [Job.pair] at hj
    | startFollowing userId toStartUser =>
      obtain rfl := Option.some.inj hj
      refine Logic.wp_retry (fun n w => n = 0 → (Job.execute (.startFollowing userId toStartUser)).Effect w)
        (fun w _ h => h rfl) (fun w w' _ hr h hn => (effect_of_rely hp hj hr).mpr (h hn))
        (fun n w _ => (followings w₀ named).wp_mono (wp_startAttempt hp w) fun r w _ h => ?_) (by simp)
      cases r with
      | ok a => exact h
      | error e =>
        dsimp only
        split
        · exact fun _ => h
        · exact h
    | stopFollowing userId toStopUser =>
      obtain rfl := Option.some.inj hj
      refine Logic.wp_retry (fun n w => refusals (.execute (.stopFollowing userId toStopUser)) w.history + n = 3 ∧
          (n = 0 → (Job.execute (.stopFollowing userId toStopUser)).Effect w))
        (fun w _ h => h.2 rfl)
        (fun w w' _ hr h => ⟨by rw [refusals_of_rely hj hr,h.1],fun hn => (effect_of_rely hp hj hr).mpr (h.2 hn)⟩)
        (fun n w h => (followings w₀ named).wp_mono (wp_stopAttempt hp rfl) fun r w' _ h' => ?_)
        ⟨by rw [hnew],by simp⟩
      cases r with
      | ok a => exact h'.1
      | error e =>
        dsimp only
        by_cases he : e = .obsoleteVersion
        · simp only [Attempted,he,if_true] at h'
          simp only [he,decide_true,if_true]
          exact ⟨by omega,fun hn => h'.2 (by omega)⟩
        · simp only [Attempted,he,if_false] at h'
          simpa [he] using h'

/-- A `StartFollowingCommand`, if `start` holds, or a `StopFollowingCommand`. -/
structure FollowChange where
  start : Bool
  pair : JString × JString
  deriving DecidableEq

def FollowChange.job (c : FollowChange) : Job :=
  .execute (if c.start then .startFollowing c.pair.1 c.pair.2 else .stopFollowing c.pair.1 c.pair.2)

theorem FollowChange.pair_job (c : FollowChange) : c.job.pair = some c.pair := by
  unfold FollowChange.job
  cases c.start <;> rfl

theorem FollowChange.effect_iff (c : FollowChange) (w : World) :
    c.job.Effect w ↔ ∀ e : Edges, w.follows e c.pair ↔ c.start = true := by
  unfold FollowChange.job
  cases c.start <;> simp [Job.Effect]

def concurrentFollows (store : (n : StoreName) → Store JString (Val n)) (commands : List FollowChange) :
    State :=
  ⟨⟨store,[]⟩,commands.map fun c => (c.job,c.job.body)⟩

/-- Both edges of each pair are what its command says, and all other edges, except those to
the empty name, are unchanged. -/
def EdgesRight (store : (n : StoreName) → Store JString (Val n)) (commands : List FollowChange)
    (w : World) : Prop :=
  (∀ c ∈ commands, ∀ e : Edges, w.follows e c.pair ↔ c.start = true) ∧
  ∀ (e : Edges) p, e.member p ≠ [] → p ∉ commands.map FollowChange.pair →
    (w.follows e p ↔ (World.mk store []).follows e p)

/-- No follow and no unfollow is lost in a run whose calls do no harm. -/
theorem edges_right (store : (n : StoreName) → Store JString (Val n)) (commands : List FollowChange)
    (hpairs : (commands.map FollowChange.pair).Nodup)
    (hregistered : ∀ c ∈ commands, ∀ e : Edges, store .users (e.owner c.pair) ≠ [])
    (hproper : ∀ c ∈ commands, ∀ e : Edges, Proper (e.member c.pair)) (es : List Event) (s : State)
    (h : Runs.Reaches machine.step (ClosedCalls Unharmed) (concurrentFollows store commands) es s)
    (hended : Ended s) : EdgesRight store commands s.world := by
  have hgood : (followings ⟨store,[]⟩ (· ∈ commands.map FollowChange.pair)).Good s := by
    refine Logic.good_of_reaches (fun _ _ _ h => False.elim h) (fun e s hc _ => hc.admits) ?_ h
    refine ⟨Keeps.refl _ _,fun t ht => ?_,?_⟩
    · obtain ⟨c,hc,rfl⟩ := List.mem_map.mp ht
      exact wp_followings ⟨List.mem_map_of_mem hc,hproper c hc,hregistered c hc⟩ c.pair_job rfl
    · rw [concurrentFollows,List.map_map,List.pairwise_map]
      refine (List.pairwise_map.mp hpairs).imp fun {c c'} hne heq => hne ?_
      exact Option.some.inj (c.pair_job.symm.trans (heq.trans c'.pair_job))
  refine ⟨fun c hc => ?_,fun e p hp hnamed => hgood.inv.follows e p hp hnamed⟩
  have hthread : c.job ∈ s.threads.map Prod.fst := by
    refine h.invariant ?_ fun e s s' hs _ hstep => Machine.mem_jobs_step hstep hs
    rw [concurrentFollows,List.map_map]
    exact List.mem_map_of_mem hc
  obtain ⟨t,ht,htc⟩ := List.mem_map.mp hthread
  obtain ⟨r,hr⟩ := Option.isSome_iff_exists.mp (hended t ht)
  exact (c.effect_iff s.world).mp (htc ▸ hgood.post ht hr)

def bFollowsC : (n : StoreName) → Store JString (Val n)
  | .users => fun u =>
    if u = ['a'] then [{ lastTweet := some ['0'] }]
    else if u = ['b'] then [{ lastTweet := some ['0'], following := some ['c'] }]
    else if u = ['c'] then [{ lastTweet := some ['0'], followers := some ['b'] }] else []
  | .tweets => fun _ => []
  | .friendsTimeline => fun _ => []

def followAndUnfollow : List FollowChange := [⟨true,(['a'],['c'])⟩,⟨false,(['b'],['c'])⟩]

/-- `b` is removed from the followers of `c` after the other command has read them. -/
theorem follow_lost :
    ¬ ∀ (es : List Event) (s : State),
      Runs.Reaches machine.step (ClosedCalls Responds) (concurrentFollows bFollowsC followAndUnfollow) es s →
      Ended s → EdgesRight bFollowsC followAndUnfollow s.world := by
  intro hall
  have hrun : ((Runs.runIf machine.step (ClosedCalls Responds)
      [.thread 0 .go,.thread 0 (.order [['c']]),.thread 0 .go,.thread 0 .go,
        .thread 0 (.order [['a'],['b']]),.thread 1 .go,.thread 1 (.order []),.thread 1 .go,
        .thread 0 .go,.thread 0 .go,.thread 0 .go,.thread 0 .go,
        .thread 1 .go,.thread 1 (.order []),.thread 1 .go,.thread 1 .go]
      (concurrentFollows bFollowsC followAndUnfollow)).map fun s =>
        (decide (Ended s),decide (s.world.follows .followers (['a'],['c'])))) = some (true,false) := by
    decide +kernel
  obtain ⟨s,hs,hp⟩ := Option.map_eq_some_iff.mp hrun
  simp only [Prod.mk.injEq,decide_eq_true_eq,decide_eq_false_iff_not] at hp
  have hright := hall _ s (Runs.reaches_of_runIf .start hs) hp.1
  exact hp.2 ((hright.1 ⟨true,(['a'],['c'])⟩ (by simp [followAndUnfollow]) .followers).mpr rfl)

/-- The unfollow reads `c` before the follow writes it, and succeeds in its second attempt. -/
theorem follow_then_unfollow :
    ∃ es, ∃ s : State, Runs.Reaches machine.step (ClosedCalls Unharmed) (concurrentFollows bFollowsC followAndUnfollow)
      es s ∧ EdgesRight bFollowsC followAndUnfollow s.world ∧ s.world.names .followers ['c'] = [['a']] := by
  have hrun : ((Runs.runIf machine.step (ClosedCalls Unharmed)
      [.thread 1 .go,.thread 1 (.order []),
        .thread 0 .go,.thread 0 (.order [['c']]),.thread 0 .go,.thread 0 .go,
        .thread 0 (.order [['a'],['b']]),.thread 0 .go,.thread 0 .go,.thread 0 .go,.thread 0 .go,
        .thread 1 .go,.thread 1 .go,.thread 1 (.order [['a']]),.thread 1 .go,
        .thread 1 .go,.thread 1 (.order []),.thread 1 .go,.thread 1 .go]
      (concurrentFollows bFollowsC followAndUnfollow)).map fun s =>
        (decide (Ended s),s.world.names .followers ['c'])) = some (true,[['a']]) := by decide +kernel
  obtain ⟨s,hs,hp⟩ := Option.map_eq_some_iff.mp hrun
  simp only [Prod.mk.injEq,decide_eq_true_eq] at hp
  have h := Runs.reaches_of_runIf .start hs
  exact ⟨_,s,h,edges_right bFollowsC followAndUnfollow (by decide) (by decide) (by decide) _ s h hp.1,hp.2⟩

end TweetService
end Bigbird
