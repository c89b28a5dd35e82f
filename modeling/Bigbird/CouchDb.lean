import Bigbird.Runs
import Bigbird.TweetService

/-! `CouchDbTweetService`: tweets as documents of a database, which are listed through a view and
fetched by their id. -/
namespace Bigbird
namespace CouchDb

open JavaText Runs
open TweetService (TweetMap Exn)

section Maps

structure Date where
  time : ℤ
  range : -2^63 ≤ time ∧ time < 2^63
  deriving DecidableEq

structure Tweet where
  date : Option Date
  text : Option JString
  user : Option JString
  id : Option JString := none
  deriving DecidableEq

def toMap (tweet : Tweet) : Except Exn TweetMap :=
  match tweet.date with
  | none => .error .nullPointer
  | some date => .ok ⟨some (decimal date.time),tweet.text,tweet.user,tweet.id⟩

theorem range_of_parse {s : Option JString} {n : ℤ} (h : s.bind (parse 64) = some n) : -2^63 ≤ n ∧ n < 2^63 := by
  obtain ⟨s,_,hn⟩ := Option.bind_eq_some_iff.mp h
  exact parse_range hn

/-- `Long.valueOf`, which takes a missing string for one that is not a number. -/
def valueOf (s : Option JString) : Except Exn Date :=
  match h : s.bind (parse 64) with
  | some n => .ok ⟨n,range_of_parse h⟩
  | none => .error .numberFormat

def toTweet (tweetMap : TweetMap) (id : Option JString) : Except Exn Tweet := do
  let date ← valueOf tweetMap.date
  return ⟨some date,tweetMap.text,tweetMap.user,id⟩

theorem valueOf_decimal (date : Date) : valueOf (some (decimal date.time)) = .ok date := by
  have hparse : (some (decimal date.time)).bind (parse 64) = some date.time := parse_decimal date.range
  unfold valueOf
  split
  · rename_i n hn
    rw [hparse] at hn
    cases hn
    rfl
  · rename_i hn
    rw [hparse] at hn
    cases hn

theorem toTweet_id {tweetMap : TweetMap} {id : Option JString} {tweet : Tweet} (h : toTweet tweetMap id = .ok tweet) :
    tweet.id = id := by
  rw [toTweet] at h
  cases hdate : valueOf tweetMap.date with
  | error e =>
    rw [hdate] at h
    cases h
  | ok date =>
    rw [hdate] at h
    cases h
    rfl

end Maps

section Service

structure Document extends TweetMap where
  docId : JString
  type : Option JString := none
  deriving DecidableEq

abbrev Database := List Document

def tweetType : JString := ['t','w','e','e','t']

/-- `tweet`, with the tweet as the caller finds it afterwards; `newId` is the id that `createDocument`
assigns. -/
def tweet (tweet : Tweet) (newId : JString) (db : Database) : Except Exn Tweet × Database :=
  match toMap tweet with
  | .error e => (.error e,db)
  | .ok tweetMap => (.ok { tweet with id := some newId },db ++ [{ tweetMap with docId := newId, type := some tweetType }])

def getDocument (db : Database) (id : Option JString) : Except Exn Document :=
  match db.find? fun doc => some doc.docId = id with
  | some doc => .ok doc
  | none => .error .notFound

def getTweet (db : Database) (id : Option JString) : Except Exn Tweet := do
  let doc ← getDocument db id
  toTweet doc.toTweetMap id

structure Row where
  key : Option JString
  value : Document
  deriving DecidableEq

/-- The view `by_user`: what is emitted for a document. -/
def byUser (doc : Document) : Option Row :=
  if doc.type = some tweetType then some ⟨doc.user,doc⟩ else none

/-- How the database answers a query of the view: a user, a start and a count, in descending order. -/
abbrev QueryView := Database → Option JString → ℤ → ℤ → Except Exn (List Row)

def getTweets (queryView : QueryView) (db : Database) (user : Option JString) (start count : ℤ) :
    Except Exn (List Tweet) := do
  let rows ← queryView db user start count
  rows.mapM fun row => toTweet row.value.toTweetMap row.key

structure Call where
  tweet : Tweet
  newId : JString

def step (call : Call) (db : Database) : Option Database :=
  if call.newId ∈ db.map (·.docId) then none else some (tweet call.tweet call.newId db).2

/-- The rows are emitted for documents with the key that was asked for, one for each. -/
structure Emitted (db : Database) (user : Option JString) (rows : List Row) : Prop where
  once : (rows.map (·.value)).Nodup
  emitted : ∀ row ∈ rows, row.value ∈ db ∧ byUser row.value = some row
  key : ∀ row ∈ rows, row.key = user

/-- A database answers with what the view emits. -/
def Emits (queryView : QueryView) : Prop := ∀ db user start count rows, (db.map (·.docId)).Nodup →
  queryView db user start count = .ok rows → Emitted db user rows

/-- The listed tweets carry the ids of their documents, each of them is what is fetched by its id, and
no two have the same. -/
structure Fetchable (db : Database) (rows : List Row) (tweets : List Tweet) : Prop where
  stored : tweets.map (·.id) = rows.map fun row => some row.value.docId
  fetched : ∀ t ∈ tweets, getTweet db t.id = .ok t
  distinct : (tweets.map (·.id)).Nodup

end Service

section Documents

variable {db db' db₀ : Database} {queryView : QueryView} {rows : List Row} {tweets : List Tweet}

/-- The ids are unique, and all tweets have dates that can be read. -/
structure WellFormed (db : Database) : Prop where
  ids : (db.map (·.docId)).Nodup
  dated : ∀ doc ∈ db, doc.type = some tweetType → ∃ date : Date, doc.date = some (decimal date.time)

theorem wellFormed_step {call : Call} (hdb : WellFormed db) (h : step call db = some db') : WellFormed db' := by
  unfold step at h
  split at h
  · cases h
  · rename_i hfresh
    cases h
    rw [tweet]
    cases hdate : call.tweet.date with
    | none =>
      simp only [toMap,hdate]
      exact hdb
    | some date =>
      simp only [toMap,hdate]
      refine ⟨?_,fun doc hdoc htype => ?_⟩
      · rw [List.map_append,List.nodup_append]
        refine ⟨hdb.ids,by simp,fun x hx y hy hxy => ?_⟩
        rw [List.map_singleton,List.mem_singleton] at hy
        rw [hxy,hy] at hx
        exact hfresh hx
      · rcases List.mem_append.mp hdoc with hdoc | hdoc
        · exact hdb.dated doc hdoc htype
        · rw [List.mem_singleton] at hdoc
          exact ⟨date,by rw [hdoc]⟩

theorem getDocument_of_mem (hids : (db.map (·.docId)).Nodup) {doc : Document} (hdoc : doc ∈ db) :
    getDocument db (some doc.docId) = .ok doc := by
  cases hfind : db.find? fun d => some d.docId = some doc.docId with
  | none =>
    have hnone := List.find?_eq_none.mp hfind doc hdoc
    simp at hnone
  | some d =>
    have hid : d.docId = doc.docId := by simpa using List.find?_some hfind
    obtain rfl : d = doc := List.inj_on_of_nodup_map hids (List.mem_of_find?_eq_some hfind) hdoc hid
    rw [getDocument,hfind]

theorem mapM_ok {α β : Type} {f : α → Except Exn β} {l : List α} (h : ∀ a ∈ l, ∃ b, f a = .ok b) :
    ∃ bs, l.mapM f = .ok bs ∧ List.Forall₂ (fun a b => f a = .ok b) l bs := by
  induction l with
  | nil => exact ⟨[],rfl,.nil⟩
  | cons a l ih =>
    obtain ⟨⟨b,hb⟩,hl⟩ := List.forall_mem_cons.mp h
    obtain ⟨bs,hbs,hall⟩ := ih hl
    exact ⟨b::bs,by rw [List.mapM_cons,hb,hbs]; rfl,.cons hb hall⟩

theorem getTweets_ok (hdb : WellFormed db) {user : Option JString} {start count : ℤ}
    (hrows : queryView db user start count = .ok rows) (hemitted : Emitted db user rows) :
    ∃ tweets, getTweets queryView db user start count = .ok tweets ∧
      List.Forall₂ (fun row t => toTweet row.value.toTweetMap row.key = .ok t) rows tweets := by
  have hok : ∀ row ∈ rows, ∃ t, toTweet row.value.toTweetMap row.key = .ok t := by
    intro row hrow
    obtain ⟨hmem,hemit⟩ := hemitted.emitted row hrow
    have htype : row.value.type = some tweetType := by
      by_contra hne
      rw [byUser,if_neg hne] at hemit
      cases hemit
    obtain ⟨date,hdate⟩ := hdb.dated row.value hmem htype
    refine ⟨⟨some date,row.value.text,row.value.user,row.key⟩,?_⟩
    rw [toTweet,hdate,valueOf_decimal]
    rfl
  obtain ⟨tweets,htweets,hall⟩ := mapM_ok hok
  exact ⟨tweets,by rw [getTweets,hrows]; exact htweets,hall⟩

theorem ids_eq_keys (h : List.Forall₂ (fun row t => toTweet row.value.toTweetMap row.key = .ok t) rows tweets) :
    tweets.map (·.id) = rows.map (·.key) := by
  induction h with
  | nil => rfl
  | cons ht _ ih => rw [List.map_cons,List.map_cons,ih,toTweet_id ht]

theorem fetchable_iff (hdb : WellFormed db) {user : Option JString} (hemitted : Emitted db user rows)
    (hall : List.Forall₂ (fun row t => toTweet row.value.toTweetMap row.key = .ok t) rows tweets) :
    Fetchable db rows tweets ↔ rows = [] ∨ ∃ row, rows = [row] ∧ user = some row.value.docId := by
  have hids := ids_eq_keys hall
  constructor
  · intro h
    cases rows with
    | nil => exact Or.inl rfl
    | cons row rest =>
      cases rest with
      | nil =>
        have hstored := h.stored
        rw [hids] at hstored
        have hkey : row.key = some row.value.docId := by simpa using hstored
        exact Or.inr ⟨row,rfl,(hemitted.key row List.mem_cons_self).symm.trans hkey⟩
      | cons row' rest =>
        have hdistinct := h.distinct
        have hkey := hemitted.key row List.mem_cons_self
        have hkey' := hemitted.key row' (by simp)
        rw [hids,List.map_cons,List.map_cons,hkey,hkey'] at hdistinct
        simp at hdistinct
  · rintro (rfl | ⟨row,rfl,huser⟩)
    · cases hall
      exact ⟨rfl,by simp,List.nodup_nil⟩
    · cases hall with
      | @cons _ t _ _ ht hnil =>
        cases hnil
        have hkey : row.key = some row.value.docId := (hemitted.key row List.mem_cons_self).trans huser
        rw [hkey] at ht
        have hid := toTweet_id ht
        refine ⟨by simp [hid],fun t' ht' => ?_,by simp⟩
        rw [List.mem_singleton] at ht'
        rw [ht',hid,getTweet,getDocument_of_mem hdb.ids (hemitted.emitted row List.mem_cons_self).1]
        exact ht

/-- What is listed after any calls of `tweet` can be fetched exactly if it is nothing, or a single
tweet whose document has the name of the user for its id. -/
theorem listed_fetchable_iff (queryView : QueryView) (hview : Emits queryView) {db₀ db : Database} {calls : List Call}
    (hids : (db₀.map (·.docId)).Nodup) (htypes : ∀ doc ∈ db₀, doc.type ≠ some tweetType)
    (h : Reaches step anyStep db₀ calls db) {user : Option JString} {start count : ℤ} {rows : List Row}
    (hrows : queryView db user start count = .ok rows) :
    ∃ tweets, getTweets queryView db user start count = .ok tweets ∧
      (Fetchable db rows tweets ↔ rows = [] ∨ ∃ row, rows = [row] ∧ user = some row.value.docId) := by
  have hinitial : WellFormed db₀ := ⟨hids,fun doc hdoc htype => absurd htype (htypes doc hdoc)⟩
  have hdb : WellFormed db := h.invariant hinitial fun call db db' hdb _ hstep => wellFormed_step hdb hstep
  have hemitted := hview db user start count rows hdb.ids hrows
  obtain ⟨tweets,htweets,hall⟩ := getTweets_ok hdb hrows hemitted
  exact ⟨tweets,htweets,fetchable_iff hdb hemitted hall⟩

end Documents

section Examples

def newestFirst : QueryView := fun db user start count =>
  .ok ((((db.filterMap byUser).filter fun row => row.key = user).reverse.drop start.toNat).take count.toNat)

theorem value_of_byUser {doc : Document} {row : Row} (h : byUser doc = some row) : row.value = doc := by
  unfold byUser at h
  split at h
  · cases h
    rfl
  · cases h

theorem emits_newestFirst : Emits newestFirst := by
  intro db user start count rows hids hrows
  cases hrows
  let all := db.filterMap byUser
  have hall {row : Row} (hrow : row ∈ all) : row.value ∈ db ∧ byUser row.value = some row := by
    obtain ⟨doc,hdoc,hemit⟩ := List.mem_filterMap.mp hrow
    rw [value_of_byUser hemit]
    exact ⟨hdoc,hemit⟩
  have hsublist : ((((all.filter fun row => row.key = user).reverse.drop start.toNat).take count.toNat)).Sublist
      (all.filter fun row => row.key = user).reverse :=
    (List.take_sublist _ _).trans (List.drop_sublist _ _)
  have hmem {row : Row} (hrow : row ∈ ((all.filter fun row => row.key = user).reverse.drop start.toNat).take count.toNat) :
      row ∈ all ∧ row.key = user := by
    have hfilter := hsublist.subset hrow
    simpa using hfilter
  have hnodup : all.Nodup := by
    refine List.Nodup.filterMap (fun doc doc' row h h' => ?_) (List.Nodup.of_map _ hids)
    rw [← value_of_byUser h,← value_of_byUser h']
  refine ⟨?_,fun row hrow => hall (hmem hrow).1,fun row hrow => (hmem hrow).2⟩
  refine List.Nodup.map_on (fun row hrow row' hrow' hvalue => ?_) (hsublist.nodup (List.nodup_reverse.mpr (hnodup.filter _)))
  have hemit := (hall (hmem hrow).1).2
  rw [hvalue,(hall (hmem hrow').1).2] at hemit
  exact (Option.some.inj hemit).symm

def admin : JString := ['a','d','m','i','n']

/-- The account that is there from the start, and a first tweet of its user. -/
def accounts : Database := [{ docId := admin, type := some ['u','s','e','r'] }]

def firstDoc (user newId : JString) : Document :=
  { date := some (decimal 0), user := some user, docId := newId, type := some tweetType }

theorem reaches_first {user newId : JString} (hfresh : newId ∉ accounts.map (·.docId)) :
    Reaches step anyStep accounts [⟨⟨some ⟨0,by decide⟩,none,some user,none⟩,newId⟩] (accounts ++ [firstDoc user newId]) := by
  refine .next _ .start trivial ?_
  rw [step,if_neg hfresh]
  rfl

/-- The id that is assigned to the tweet of `b` is `b`. -/
theorem listed_b : ∃ tweets, getTweets newestFirst (accounts ++ [firstDoc ['b'] ['b']]) (some ['b']) 0 20 = .ok tweets ∧
    Fetchable (accounts ++ [firstDoc ['b'] ['b']]) [⟨some ['b'],firstDoc ['b'] ['b']⟩] tweets := by
  have hreaches : Reaches step anyStep accounts _ (accounts ++ [firstDoc ['b'] ['b']]) := reaches_first (by decide)
  have hrows : newestFirst (accounts ++ [firstDoc ['b'] ['b']]) (some ['b']) 0 20 =
      .ok [⟨some ['b'],firstDoc ['b'] ['b']⟩] := rfl
  obtain ⟨tweets,htweets,hiff⟩ := listed_fetchable_iff newestFirst emits_newestFirst (by decide) (by decide) hreaches hrows
  exact ⟨tweets,htweets,hiff.mpr (Or.inr ⟨_,rfl,rfl⟩)⟩

/-- The tweet of `admin` is listed under the id of the account. -/
theorem listed_unfetchable :
    getTweet (accounts ++ [firstDoc admin ['x']]) (some admin) = .error .numberFormat ∧
    ¬ ∀ (queryView : QueryView) (db₀ db : Database) (calls : List Call) (user : Option JString) (start count : ℤ)
      (rows : List Row) (tweets : List Tweet), Emits queryView → (db₀.map (·.docId)).Nodup →
      (∀ doc ∈ db₀, doc.type ≠ some tweetType) → Reaches step anyStep db₀ calls db →
      queryView db user start count = .ok rows → getTweets queryView db user start count = .ok tweets →
      Fetchable db rows tweets := by
  refine ⟨rfl,fun hall => ?_⟩
  let db := accounts ++ [firstDoc admin ['x']]
  let t : Tweet := ⟨some ⟨0,by decide⟩,none,some admin,some admin⟩
  have htweets : getTweets newestFirst db (some admin) 0 20 = .ok [t] := by
    have htweet : toTweet (firstDoc admin ['x']).toTweetMap (some admin) = .ok t := by
      have hdate : valueOf (some (decimal 0)) = .ok ⟨0,by decide⟩ := valueOf_decimal ⟨0,by decide⟩
      rw [toTweet,firstDoc,hdate]
      rfl
    have hmap : getTweets newestFirst db (some admin) 0 20 =
        [(⟨some admin,firstDoc admin ['x']⟩ : Row)].mapM fun row => toTweet row.value.toTweetMap row.key := rfl
    rw [hmap,List.mapM_cons,htweet]
    rfl
  have hfetchable := hall newestFirst accounts db _ (some admin) 0 20 [⟨some admin,firstDoc admin ['x']⟩] [t]
    emits_newestFirst (by decide) (by decide) (reaches_first (by decide)) rfl htweets
  have hstored := hfetchable.stored
  exact absurd hstored (by decide)

end Examples

end CouchDb
end Bigbird
