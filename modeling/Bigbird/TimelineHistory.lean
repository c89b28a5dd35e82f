import Bigbird.TimelineEntries

/-! What happens to the entries of a timeline in the course of a run: they keep their order,
and none goes but by an unfollow of its author. -/
namespace Bigbird
namespace TweetService

open JavaText VersionedStore Programs

/-- The entry is one that an unfollow of the user takes out: its id starts with `user-`. -/
def Matches (user e : JString) : Prop :=
  ∃ id ∈ (split ':' e).head?, (user ++ ['-']) <+: id

instance (user e : JString) : Decidable (Matches user e) := by
  unfold Matches
  exact decidable_of_iff (((split ':' e).head?.any fun id => decide ((user ++ ['-']) <+: id)) = true)
    (by simp [Option.any_eq_true])

/-- An unfollow that gets to its end takes out what matches, and only that. -/
theorem stopFilter_eq_filter {toStopUser : JString} {timeline list : List JString}
    (h : stopFilter toStopUser timeline = .ok list) : list = timeline.filter (¬ Matches toStopUser ·) := by
  induction timeline generalizing list with
  | nil =>
    cases h
    rfl
  | cons e timeline ih =>
    simp only [stopFilter] at h
    split at h
    · simp at h
    · rename_i id rest hsplit
      have hmatches : Matches toStopUser e ↔ (toStopUser ++ ['-']) <+: id := by simp [Matches,hsplit]
      split at h
      · simp at h
      · rename_i kept hkept
        cases h
        rw [ih hkept]
        by_cases hprefix : (toStopUser ++ ['-']) <+: id
        · rw [if_pos hprefix,List.filter_cons_of_neg (by simpa using hmatches.mpr hprefix)]
        · rw [if_neg hprefix,List.filter_cons_of_pos (by simpa using fun h => hprefix (hmatches.mp h))]

theorem insertTweetLoop_sublist {timelineId : JString} {date : ℤ} {timeline list : List JString} {n i : ℕ}
    (h : insertTweetLoop timelineId date timeline n i = .ok list) : timeline.Sublist list := by
  induction n generalizing i with
  | zero =>
    cases h
    exact List.sublist_append_left _ _
  | succ n ih =>
    cases timeline with
    | nil => exact List.nil_sublist _
    | cons id timeline =>
      simp only [insertTweetLoop] at h
      split at h
      · simp at h
      · split at h
        · cases h
          exact List.sublist_insertIdx _ _ _
        · exact ih h

theorem insertTweet_sublist {tweetId : JString} {tweetMap : TweetMap} {timeline list : List JString}
    (h : insertTweet tweetId tweetMap timeline = .ok list) : timeline.Sublist list := by
  unfold insertTweet at h
  split at h
  · simp at h
  · split at h
    · simp at h
    · exact insertTweetLoop_sublist h

theorem startScan_sublist {timelineId : JString} {date : ℤ} {timeline timeline' : List JString} {n i i' : ℕ}
    (h : startScan timelineId date timeline n i = .ok (timeline',i')) : timeline.Sublist timeline' := by
  induction n generalizing i with
  | zero =>
    cases h
    exact List.Sublist.refl _
  | succ n ih =>
    simp only [startScan] at h
    split at h
    · cases h
      exact List.Sublist.refl _
    · split at h
      · split at h
        · simp at h
        · split at h
          · cases h
            exact List.sublist_insertIdx _ _ _
          · exact ih h
      · cases h
        exact List.Sublist.refl _

theorem startBackfill_sublist {tweets : List Tweet} {timeline list : List JString} {i : ℕ}
    (h : startBackfill tweets timeline i = .ok list) : timeline.Sublist list := by
  induction tweets generalizing timeline i with
  | nil =>
    cases h
    exact List.Sublist.refl _
  | cons tweet tweets ih =>
    by_cases hmem : tweet.entry ∈ timeline
    · rw [startBackfill_known hmem] at h
      exact ih h
    · cases hscan : startScan tweet.entry tweet.date timeline timeline.length i with
      | error e =>
        rw [startBackfill_error_of_scan hmem hscan] at h
        cases h
      | ok p =>
        obtain ⟨timeline',i'⟩ := p
        rw [startBackfill_missing hmem hscan] at h
        have hend : timeline.Sublist
            (if i' = timeline'.length then timeline' ++ [tweet.entry] else timeline') := by
          have hsub := startScan_sublist hscan
          split
          · exact hsub.trans (List.sublist_append_left _ _)
          · exact hsub
        split at h
        · cases h
          exact hend
        · exact hend.trans (ih h)

def Job.unfollows (reader : JString) : Job → Option JString
  | .execute (.stopFollowing userId toStopUser) => if userId = reader then some toStopUser else none
  | _ => none

/-- The users that the reader has stopped to follow, or is about to. -/
def unfollowed (s : State) (reader : JString) : List JString :=
  (s.threads.map Prod.fst).filterMap (Job.unfollows reader)

/-- The entries that no unfollow takes out. -/
def kept (s : State) (reader : JString) (timeline : List JString) : List JString :=
  timeline.filter fun e => ∀ user ∈ unfollowed s reader, ¬ Matches user e

variable {s s' : State} {reader : JString}

theorem unfollowed_step {e : Event} (h : machine.step e s = some s') {user : JString}
    (huser : user ∈ unfollowed s reader) : user ∈ unfollowed s' reader := by
  obtain ⟨job,hjob,heq⟩ := List.mem_filterMap.mp huser
  exact List.mem_filterMap.mpr ⟨job,Machine.mem_jobs_step h hjob,heq⟩

theorem kept_of_change {j : Job} {w : World} {list : List JString} (hjob : j ∈ s.threads.map Prod.fst)
    (h : Change w j .friendsTimeline reader list) : (kept s reader (w.timeline reader)).Sublist list := by
  have hall {l : List JString} (hl : (w.timeline reader).Sublist l) : (kept s reader (w.timeline reader)).Sublist l :=
    List.filter_sublist.trans hl
  cases h with
  | insert _ _ hinsert => exact hall (insertTweet_sublist hinsert)
  | backfill _ hbackfill => exact hall (startBackfill_sublist hbackfill)
  | @filter _ toStopUser _ hfilter =>
    rw [stopFilter_eq_filter hfilter]
    refine List.monotone_filter_right _ fun e he => ?_
    have hmem : toStopUser ∈ unfollowed s reader := List.mem_filterMap.mpr ⟨_,hjob,by simp [Job.unfollows]⟩
    simpa using (of_decide_eq_true he) toStopUser hmem

theorem kept_step (hs : changing.Good s) {e : Event} (h : machine.step e s = some s') :
    (kept s reader (s.world.timeline reader)).Sublist (s'.world.timeline reader) := by
  cases e with
  | start job =>
    obtain rfl := Option.some.inj h
    exact List.filter_sublist
  | thread i choice =>
    obtain ⟨job,op,k,r,ht,⟨_,hw⟩ | ⟨n,key,x,_,hchange,hw⟩⟩ := change_of_thread hs h
    · rw [hw]
      exact List.filter_sublist
    · rw [hw]
      by_cases hn : n = .friendsTimeline
      · subst hn
        by_cases hkey : reader = key
        · subst hkey
          rw [timeline_write_self]
          exact kept_of_change (List.mem_map_of_mem (f:=Prod.fst) (List.mem_of_getElem? ht)) hchange
        · rw [timeline_write_ne _ _ _ _ hkey]
          exact List.filter_sublist
      · have hsame : (s.world.logWrite job op r n key x.value).timeline reader = s.world.timeline reader := by
          simp [World.timeline,World.logWrite,Ne.symm hn]
        rw [hsame]
        exact List.filter_sublist

/-- Between two states of a run, whatever the interleaving: the entries that the reader has
not stopped to follow are all still there, in the order in which they stood. -/
theorem timeline_kept (store : (n : StoreName) → Store JString (Val n)) (es es' : List Event) (s s' : State)
    (h : Runs.Reaches machine.step Arrives (State.initial store) es s)
    (h' : Runs.Reaches machine.step Arrives s es' s') (reader : JString) :
    (kept s' reader (s.world.timeline reader)).Sublist (s'.world.timeline reader) := by
  have hinv := h'.invariant (I:=fun s' => changing.Good s' ∧
    (kept s' reader (s.world.timeline reader)).Sublist (s'.world.timeline reader)) ⟨changing_good h,List.filter_sublist⟩ ?_
  · exact hinv.2
  rintro e t t' ⟨hgood,hi⟩ hc hstep
  refine ⟨changing_step hgood hc hstep,?_⟩
  -- what is kept up to `t'` was kept up to `t`, and this step keeps it
  have hmore : kept t' reader (s.world.timeline reader) = kept t' reader (kept t reader (s.world.timeline reader)) := by
    simp only [kept,List.filter_filter]
    refine List.filter_congr fun e _ => ?_
    have himp : (∀ user ∈ unfollowed t' reader, ¬ Matches user e) → ∀ user ∈ unfollowed t reader, ¬ Matches user e :=
      fun hall user huser => hall user (unfollowed_step hstep huser)
    simpa using himp
  have hless : (kept t' reader (t.world.timeline reader)).Sublist (kept t reader (t.world.timeline reader)) := by
    refine List.monotone_filter_right _ fun e he => ?_
    have hall := of_decide_eq_true he
    exact decide_eq_true fun user huser => hall user (unfollowed_step hstep huser)
  rw [hmore]
  exact (hi.filter _).trans (hless.trans (kept_step hgood hstep))

def stopAgain : List Event :=
  [.start (.execute (.stopFollowing ['b'] ['a'])),.thread 4 .go,.thread 4 (.order []),.thread 4 .go,.thread 4 .go,
    .thread 4 (.order []),.thread 4 .go,.thread 4 .go,.thread 4 .go]

theorem timeline_kept_two_users : ∃ s s' : State, Runs.Reaches machine.step Arrives State.empty tweetAndFollow s ∧
    Runs.Reaches machine.step Arrives s stopAgain s' ∧ s.world.timeline ['b'] = [['a','-','1',':','5']] ∧
    s'.world.timeline ['b'] = [] ∧
    ∀ reader, (kept s' reader (s.world.timeline reader)).Sublist (s'.world.timeline reader) := by
  have hrun : ((Runs.runIf machine.step Arrives tweetAndFollow State.empty).bind fun s =>
      (Runs.runIf machine.step Arrives stopAgain s).map fun s' =>
        (s.world.timeline ['b'],s'.world.timeline ['b'])) = some ([['a','-','1',':','5']],[]) := by decide +kernel
  obtain ⟨s,hs,hrest⟩ := Option.bind_eq_some_iff.mp hrun
  obtain ⟨s',hs',hp⟩ := Option.map_eq_some_iff.mp hrest
  obtain ⟨h₁,h₂⟩ := Prod.mk.inj hp
  have h := Runs.reaches_of_runIf .start hs
  have h' := Runs.reaches_of_runIf .start hs'
  exact ⟨s,s',h,h',h₁,h₂,timeline_kept (fun _ _ => []) _ _ s s' h h'⟩

end TweetService
end Bigbird
