import Bigbird.Runs
import Mathlib.Data.Finset.Dedup
import Mathlib.Data.Finset.Basic

/-! The button that follows and unfollows the user who is viewed, and the list of followed
users that its requests change. -/
namespace Bigbird
namespace FollowButton

open Runs

section Arrays

variable {α : Type}

/-- `Array.splice` without new elements; a negative start counts from the end. -/
def splice (arr : List α) (start : ℤ) (deleteCount : ℕ) : List α :=
  let k := if start < 0 then (arr.length+start).toNat else min start.toNat arr.length
  arr.take k ++ arr.drop (k+deleteCount)

def concat (arr : List α) (x : α) : List α := arr ++ [x]

theorem splice_neg_one (arr : List α) : splice arr (-1) 1 = arr.dropLast := by
  rw [splice,if_pos (by decide),List.dropLast_eq_take]
  have hlast : ((arr.length : ℤ)+(-1)).toNat = arr.length-1 := by omega
  have hdrop : arr.drop (arr.length-1+1) = [] := List.drop_eq_nil_iff.mpr (by omega)
  rw [hlast,hdrop,List.append_nil]

variable [DecidableEq α]

/-- `Array.indexOf`; `none` is `undefined`, which is equal to no string. -/
def indexOf (arr : List α) (obj : Option α) : ℤ :=
  match obj with
  | none => -1
  | some x => if x ∈ arr then arr.idxOf x else -1

def contains : List α → Option α → Bool
  | [], _ => false
  | a::arr, obj => if obj = some a then true else contains arr obj

theorem contains_iff {arr : List α} {obj : Option α} : contains arr obj = true ↔ ∃ x ∈ arr, obj = some x := by
  induction arr with
  | nil => simp [contains]
  | cons a arr ih =>
    rw [contains]
    split
    · rename_i heq
      simp [heq]
    · rename_i hne
      simp [ih,hne]

theorem splice_indexOf {arr : List α} {x : α} (hx : x ∈ arr) : splice arr (indexOf arr (some x)) 1 = arr.erase x := by
  have hle : arr.idxOf x ≤ arr.length := (List.idxOf_lt_length_of_mem hx).le
  have hpos : ¬ ((arr.idxOf x : ℕ) : ℤ) < 0 := by omega
  rw [indexOf,if_pos hx,splice,if_neg hpos,Int.toNat_natCast,min_eq_left hle,List.erase_eq_eraseIdx_of_idxOf rfl,
    List.eraseIdx_eq_take_drop_succ]

theorem erase_getLast {arr : List α} (hnodup : arr.Nodup) {x : α} (hx : arr.getLast? = some x) :
    arr.dropLast = arr.erase x := by
  obtain ⟨init,rfl⟩ := List.getLast?_eq_some_iff.mp hx
  have hnot : x ∉ init := by
    rw [List.nodup_append] at hnodup
    exact fun hmem => hnodup.2.2 x hmem x (by simp) rfl
  rw [List.dropLast_concat,List.erase_append_right _ hnot]
  simp

end Arrays

section Page

variable {User : Type} [DecidableEq User]

/-- A request to start or to stop following; without a user it was sent before one was viewed. -/
structure Request (User : Type) where
  start : Bool
  user : Option User
  deriving DecidableEq

/-- The page, with the requests that have not been answered yet and, newest last, those that were
acknowledged. -/
structure State (User : Type) where
  followingIds : List User
  currentUser : Option User := none
  requests : List (Request User) := []
  acknowledged : List (Request User) := []
  deriving DecidableEq

/-- A response to `viewUser`, a click on the button, and a response to one of its requests. -/
inductive Event (User : Type)
  | viewed (user : User)
  | click
  | response (i : ℕ) (success : Bool)

def followOrUnfollow (s : State User) : State User :=
  let request : Request User :=
    if contains s.followingIds s.currentUser then ⟨false,s.currentUser⟩ else ⟨true,s.currentUser⟩
  { s with requests := s.requests ++ [request] }

def stopped (s : State User) : State User :=
  { s with followingIds := splice s.followingIds (indexOf s.followingIds s.currentUser) 1 }

/-- The array that `concat` makes is not kept. -/
def started (s : State User) : State User :=
  let _ := s.currentUser.map (concat s.followingIds)
  s

def respond (request : Request User) (s : State User) : State User :=
  let s := if request.start then started s else stopped s
  { s with acknowledged := s.acknowledged ++ [request] }

def step : Event User → State User → Option (State User)
  | .viewed user, s => some { s with currentUser := some user }
  | .click, s => some (followOrUnfollow s)
  | .response i success, s => s.requests[i]?.map fun request =>
    let s := { s with requests := s.requests.eraseIdx i }
    if success then respond request s else s

/-- The user in the body of a request; `undefined` is what becomes of a missing one. -/
def Request.named (undefined : User) (request : Request User) : User := request.user.getD undefined

def Request.change (undefined : User) (following : Finset User) (request : Request User) : Finset User :=
  if request.start then insert (request.named undefined) following else following.erase (request.named undefined)

def followed (undefined : User) (initial : List User) (acknowledged : List (Request User)) : Finset User :=
  acknowledged.foldl (Request.change undefined) initial.toFinset

def Tracks (undefined : User) (initial : List User) (s : State User) : Prop :=
  s.followingIds.toFinset = followed undefined initial s.acknowledged

instance (undefined : User) (initial : List User) (s : State User) : Decidable (Tracks undefined initial s) := by
  unfold Tracks
  infer_instance

/-- Who is taken from the list when a stop is acknowledged: the user who is viewed by then, and
otherwise the last. -/
def State.unfollowed (s : State User) : Option User :=
  if contains s.followingIds s.currentUser then s.currentUser else s.followingIds.getLast?

/-- The request is to stop following whom its response takes from the list, if anyone; or it is
to start following a user who happens to have the name of a missing one and is in the list. -/
def Confirms (undefined : User) (s : State User) (request : Request User) : Prop :=
  if request.start then request.user = none ∧ undefined ∈ s.followingIds
  else ∀ user ∈ s.unfollowed, user = request.named undefined

instance (undefined : User) (s : State User) (request : Request User) : Decidable (Confirms undefined s request) := by
  unfold Confirms
  infer_instance

def Confirmed (undefined : User) : Event User → State User → Prop
  | .response i true, s => ∀ request ∈ s.requests[i]?, Confirms undefined s request
  | _, _ => True

instance (undefined : User) (e : Event User) (s : State User) : Decidable (Confirmed undefined e s) := by
  unfold Confirmed
  split <;> infer_instance

end Page

section Runs

variable {User : Type} {undefined : User} {initial : List User} {s s' : State User}

/-- The list has no duplicates and never grows, so that no user who is to be followed gets into it. -/
structure Shrinking (s : State User) : Prop where
  nodup : s.followingIds.Nodup
  absent : ∀ request ∈ s.requests, request.start = true → ∀ user ∈ request.user, user ∉ s.followingIds

theorem Shrinking.eraseIdx (hs : Shrinking s) (i : ℕ) : Shrinking { s with requests := s.requests.eraseIdx i } :=
  ⟨hs.nodup,fun r hr => hs.absent r (List.mem_of_mem_eraseIdx hr)⟩

variable [DecidableEq User]

@[simp] theorem requests_respond (request : Request User) (s : State User) :
    (respond request s).requests = s.requests := by
  cases hstart : request.start <;> simp only [respond,hstart] <;> rfl

@[simp] theorem acknowledged_respond (request : Request User) (s : State User) :
    (respond request s).acknowledged = s.acknowledged ++ [request] := by
  cases hstart : request.start <;> simp only [respond,hstart] <;> rfl

theorem followingIds_respond_requests (request : Request User) (s : State User) (requests : List (Request User)) :
    (respond request { s with requests }).followingIds = (respond request s).followingIds := by
  cases hstart : request.start <;> simp only [respond,hstart] <;> rfl

theorem followingIds_stopped (hnodup : s.followingIds.Nodup) :
    (stopped s).followingIds = s.unfollowed.elim s.followingIds s.followingIds.erase := by
  rw [stopped,State.unfollowed]
  by_cases hcontains : contains s.followingIds s.currentUser = true
  · obtain ⟨x,hx,hcurrent⟩ := contains_iff.mp hcontains
    rw [if_pos hcontains,hcurrent]
    exact splice_indexOf hx
  · have hindex : indexOf s.followingIds s.currentUser = -1 := by
      cases hcurrent : s.currentUser with
      | none => rfl
      | some x => exact if_neg fun hx => hcontains (contains_iff.mpr ⟨x,hx,hcurrent⟩)
    rw [if_neg hcontains,hindex,splice_neg_one]
    cases hlast : s.followingIds.getLast? with
    | none =>
      rw [List.getLast?_eq_none_iff] at hlast
      simp [hlast]
    | some x => exact erase_getLast hnodup hlast

theorem followingIds_respond (hnodup : s.followingIds.Nodup) (request : Request User) :
    (respond request s).followingIds =
      if request.start then s.followingIds else s.unfollowed.elim s.followingIds s.followingIds.erase := by
  cases hstart : request.start with
  | true => simp [respond,hstart,started]
  | false =>
    simp only [respond,hstart]
    exact followingIds_stopped hnodup

theorem sublist_respond (hnodup : s.followingIds.Nodup) (request : Request User) :
    (respond request s).followingIds.Sublist s.followingIds := by
  rw [followingIds_respond hnodup]
  split
  · exact List.Sublist.refl _
  · cases s.unfollowed with
    | none => exact List.Sublist.refl _
    | some x => exact List.erase_sublist

theorem Shrinking.click (hs : Shrinking s) : Shrinking (followOrUnfollow s) := by
  refine ⟨hs.nodup,fun request hmem hstart user huser => ?_⟩
  rcases List.mem_append.mp hmem with hmem | hmem
  · exact hs.absent request hmem hstart user huser
  · rw [List.mem_singleton] at hmem
    split at hmem
    · simp [hmem] at hstart
    · rename_i hcontains
      rw [hmem] at huser
      exact fun hin => hcontains (contains_iff.mpr ⟨user,hin,huser⟩)

theorem Shrinking.respond (hs : Shrinking s) (request : Request User) : Shrinking (respond request s) := by
  have hsublist := sublist_respond hs.nodup request
  refine ⟨hsublist.nodup hs.nodup,fun r hr hstart user huser hmem => ?_⟩
  rw [requests_respond] at hr
  exact hs.absent r hr hstart user huser (hsublist.subset hmem)

theorem shrinking_step {e : Event User} (hs : Shrinking s) (h : step e s = some s') : Shrinking s' := by
  cases e with
  | viewed user =>
    cases h
    exact ⟨hs.nodup,hs.absent⟩
  | click =>
    cases h
    exact hs.click
  | response i success =>
    obtain ⟨request,_,rfl⟩ := Option.map_eq_some_iff.mp h
    cases success with
    | false => exact hs.eraseIdx i
    | true => exact (hs.eraseIdx i).respond request

theorem erase_eq_erase_iff {S : Finset User} {x y : User} (hx : x ∈ S) : S.erase x = S.erase y ↔ x = y := by
  constructor
  · intro h
    by_contra hne
    have hmem : x ∈ S.erase y := Finset.mem_erase.mpr ⟨hne,hx⟩
    rw [← h] at hmem
    exact Finset.notMem_erase x S hmem
  · rintro rfl
    rfl

theorem toFinset_erase {arr : List User} (hnodup : arr.Nodup) (x : User) : (arr.erase x).toFinset = arr.toFinset.erase x := by
  ext y
  rw [List.mem_toFinset,hnodup.mem_erase_iff,Finset.mem_erase,List.mem_toFinset]

theorem mem_of_unfollowed {x : User} (h : s.unfollowed = some x) : x ∈ s.followingIds := by
  rw [State.unfollowed] at h
  split at h
  · rename_i hcontains
    obtain ⟨y,hy,hcurrent⟩ := contains_iff.mp hcontains
    rw [hcurrent] at h
    exact Option.some.inj h ▸ hy
  · exact List.mem_of_getLast? h

theorem unfollowed_eq_none (h : s.unfollowed = none) : s.followingIds = [] := by
  rw [State.unfollowed] at h
  split at h
  · rename_i hcontains
    obtain ⟨y,_,hcurrent⟩ := contains_iff.mp hcontains
    simp [hcurrent] at h
  · exact List.getLast?_eq_none_iff.mp h

/-- The response makes the change that its request named exactly if the state confirms it. -/
theorem respond_iff (hs : Shrinking s) {request : Request User} (hmem : request ∈ s.requests) :
    (respond request s).followingIds.toFinset = request.change undefined s.followingIds.toFinset ↔
      Confirms undefined s request := by
  rw [followingIds_respond hs.nodup,Request.change,Confirms]
  cases hstart : request.start with
  | true =>
    simp only [if_true,eq_comm (a:=s.followingIds.toFinset),Finset.insert_eq_self,List.mem_toFinset]
    cases huser : request.user with
    | none => simp [Request.named,huser]
    | some user => simpa [Request.named,huser] using hs.absent request hmem hstart user huser
  | false =>
    simp only [Bool.false_eq_true,if_false]
    cases hgone : s.unfollowed with
    | none => simp [unfollowed_eq_none hgone]
    | some x =>
      have hx : x ∈ s.followingIds.toFinset := List.mem_toFinset.mpr (mem_of_unfollowed hgone)
      rw [Option.elim_some,toFinset_erase hs.nodup,erase_eq_erase_iff hx]
      simp

theorem tracks_step {e : Event User} (hs : Shrinking s) (ht : Tracks undefined initial s) (h : step e s = some s') :
    Tracks undefined initial s' ↔ Confirmed undefined e s := by
  cases e with
  | viewed user =>
    cases h
    exact iff_of_true ht trivial
  | click =>
    cases h
    exact iff_of_true ht trivial
  | response i success =>
    obtain ⟨request,hrequest,rfl⟩ := Option.map_eq_some_iff.mp h
    cases success with
    | false => exact iff_of_true ht trivial
    | true =>
      have hconfirmed : Confirmed undefined (.response i true) s ↔ Confirms undefined s request := by
        simp [Confirmed,hrequest]
      let s₁ := { s with requests := s.requests.eraseIdx i }
      change Tracks undefined initial (respond request s₁) ↔ _
      rw [hconfirmed,← respond_iff hs (List.mem_of_getElem? hrequest),Tracks,followingIds_respond_requests,
        acknowledged_respond,followed,List.foldl_append,List.foldl_cons,List.foldl_nil,ht]
      rfl

/-- The list follows the acknowledged changes, in all states of a run, exactly in the runs in
which every acknowledged request is confirmed by the state that its response meets. -/
theorem tracks_iff_confirmed (undefined : User) {initial : List User} (hinitial : initial.Nodup)
    {es : List (Event User)} (h : Reaches step anyStep ⟨initial,none,[],[]⟩ es s) :
    (∀ fs t, fs <+: es → Reaches step anyStep ⟨initial,none,[],[]⟩ fs t → Tracks undefined initial t) ↔
      Reaches step (Confirmed undefined) ⟨initial,none,[],[]⟩ es s := by
  have htracks : Tracks undefined initial ⟨initial,none,[],[]⟩ := rfl
  refine invariant_iff_conditions (J:=Shrinking) ⟨hinitial,by simp⟩ htracks ?_ ?_ h
  · exact fun e s s' hs hstep => shrinking_step hs hstep
  · exact fun e s s' hs ht hstep => tracks_step hs ht hstep

/-- `b`, who is viewed, is unfollowed, and then followed again without success. -/
theorem tracks_unfollow : Tracks ['u'] [['a'],['b']]
    ⟨[['a']],some ['b'],[],[⟨false,some ['b']⟩]⟩ := by
  let es : List (Event (List Char)) :=
    [.viewed ['b'],.click,.response 0 true,.click,.response 0 false]
  let t : State (List Char) := ⟨[['a']],some ['b'],[],[⟨false,some ['b']⟩]⟩
  have hinitial : [['a'],['b']].Nodup := by decide
  have hrun : run step es (⟨[['a'],['b']],none,[],[]⟩ : State (List Char)) = some t := by decide
  have hrunIf : runIf step (Confirmed ['u']) es (⟨[['a'],['b']],none,[],[]⟩ : State (List Char)) = some t := by decide
  have hreaches : Reaches step anyStep ⟨[['a'],['b']],none,[],[]⟩ es t := reaches_of_run .start hrun
  have hconfirmed : Reaches step (Confirmed ['u']) ⟨[['a'],['b']],none,[],[]⟩ es t := reaches_of_runIf .start hrunIf
  exact (tracks_iff_confirmed ['u'] hinitial hreaches).mpr hconfirmed es t (List.prefix_refl _) hreaches

/-- `b` is followed, and the list does not change. -/
theorem untracked_follow : ¬ ∀ (undefined : List Char) (initial : List (List Char)), initial.Nodup →
    ∀ es s, Reaches step anyStep ⟨initial,none,[],[]⟩ es s → Tracks undefined initial s := by
  intro hall
  have hrun : run step [.viewed ['b'],.click,.response 0 true] (⟨[['a']],none,[],[]⟩ : State (List Char)) =
      some ⟨[['a']],some ['b'],[],[⟨true,some ['b']⟩]⟩ := by decide
  have htracks := hall ['u'] [['a']] (by decide) _ _ (reaches_of_run .start hrun)
  exact absurd htracks (by decide)

end Runs

end FollowButton
end Bigbird
