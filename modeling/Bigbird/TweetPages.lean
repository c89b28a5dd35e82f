import Bigbird.Listing
import Bigbird.Timelines
import Bigbird.TweetNumbers

/-! The pages of a user's tweets, and how many tweets `getTweets` looks up for one. -/
namespace Bigbird
namespace TweetService

open JavaText VersionedStore Programs Listing

section Reads

variable {w : World} {α β : Type}

theorem read_getValue (n : StoreName) (key : JString) (f : Option (Val n) → Client α) :
    w.read (getValue n key >>= f) = w.read (f ((w.store n).value key)) := by
  rw [← Store.map_get]
  rfl

theorem orThrow_some (e : Exn) (a : α) (f : α → Client β) : orThrow e (some a) >>= f = f a := rfl

theorem read_ret (a : α) : w.read (.ret a) = .ok a := rfl

theorem lookups_ret (a : α) : w.lookups (.ret a) = [] := rfl

theorem lookups_user (userId : JString) (f : Option UserMap → Client α) :
    w.lookups (getValue .users userId >>= f) = w.lookups (f ((w.store .users).value userId)) := by
  rw [← Store.map_get]
  rfl

theorem lookups_tweet (key : JString) (f : Option TweetMap → Client α) :
    w.lookups (getValue .tweets key >>= f) = key::w.lookups (f ((w.store .tweets).value key)) := by
  rw [← Store.map_get]
  rfl

end Reads

/-- The tweet with this number, as far as it is stored. -/
def World.post (w : World) (userId : JString) (n : ℕ) : Option Tweet :=
  ((w.store .tweets).value (tweetKey userId n)).bind fun tweetMap =>
    (parseLong tweetMap.date).map fun date =>
      ⟨date,tweetMap.text,tweetMap.user,some (tweetKey userId n)⟩

/-- The stored tweets with the numbers from `n` down to 1. -/
def World.posts (w : World) (userId : JString) : ℕ → List Tweet
  | 0 => []
  | n+1 => (w.post userId (n+1)).toList ++ w.posts userId n

def World.DatedBy (w : World) (userId : JString) (lastTweet : ℕ) : Prop :=
  ∀ n : ℕ, 1 ≤ n → n ≤ lastTweet → ∀ tweetMap, (w.store .tweets).value (tweetKey userId n) = some tweetMap →
    tweetMap.Dated

section Loop

variable {w : World} {userId : JString} {lastTweet : ℕ} {limit : ℤ}

theorem idx_eq {i n : ℕ} (hi : i + n = lastTweet) (hlast : lastTweet < 2^31) :
    wrap 32 ((lastTweet : ℤ) - i) = n := by
  rw [@wrap_eq_self 31 _ ⟨by omega,by omega⟩]
  omega

theorem next_eq {i n : ℕ} (hi : i + (n+1) = lastTweet) (hlast : lastTweet < 2^31) :
    wrap 32 ((i : ℤ)+1) = ((i+1 : ℕ) : ℤ) := by
  rw [@wrap_eq_self 31 _ ⟨by omega,by omega⟩]
  omega

theorem getTweetsLoop_full {tweets : List Tweet} (h : limit ≤ tweets.length) (rounds : ℕ) (i : ℤ) :
    getTweetsLoop userId lastTweet limit rounds i tweets = .ret tweets := by
  cases rounds with
  | zero => rfl
  | succ rounds => rw [getTweetsLoop,if_neg (by omega)]

theorem getTweetsLoop_zero (hlast : lastTweet < 2^31) (rounds : ℕ) (tweets : List Tweet) :
    getTweetsLoop userId lastTweet limit rounds lastTweet tweets = .ret tweets := by
  cases rounds with
  | zero => rfl
  | succ rounds =>
    rw [getTweetsLoop,idx_eq (i:=lastTweet) (n:=0) (by omega) hlast]
    simp

def getTweetsRest (userId : JString) (lastTweet limit : ℤ) (rounds : ℕ) (i : ℤ) (tweets : List Tweet)
    (id : JString) : Option TweetMap → Client (List Tweet)
  | none => getTweetsLoop userId lastTweet limit rounds i tweets
  | some tweetMap => toTweet tweetMap id >>= fun tweet =>
    getTweetsLoop userId lastTweet limit rounds i (tweets ++ [tweet])

theorem getTweetsLoop_next {i n : ℕ} (hi : i + (n+1) = lastTweet) (hlast : lastTweet < 2^31)
    {tweets : List Tweet} (h : tweets.length < limit) (rounds : ℕ) :
    getTweetsLoop userId lastTweet limit (rounds+1) i tweets = getValue .tweets (tweetKey userId (n+1 : ℕ)) >>=
      getTweetsRest userId lastTweet limit rounds (i+1 : ℕ) tweets (tweetKey userId (n+1 : ℕ)) := by
  rw [getTweetsLoop,if_pos h,idx_eq hi hlast,next_eq hi hlast,if_neg (by omega)]
  exact congrArg (getValue .tweets _ >>= ·) (funext fun x => by cases x <;> rfl)

/-- With `n` numbers left, the loop adds their tweets as far as there is room. -/
theorem read_getTweetsLoop (hlast : lastTweet < 2^31) (hdated : w.DatedBy userId lastTweet) {n i rounds : ℕ}
    (hi : i + n = lastTweet) (hrounds : n ≤ rounds) (tweets : List Tweet) :
    w.read (getTweetsLoop userId lastTweet limit rounds i tweets) =
      .ok (tweets ++ (w.posts userId n).take (limit - tweets.length).toNat) := by
  induction n generalizing i rounds tweets with
  | zero =>
    obtain rfl : i = lastTweet := hi
    rw [getTweetsLoop_zero hlast,read_ret]
    simp [World.posts]
  | succ n ih =>
    obtain ⟨rounds,rfl⟩ := Nat.exists_eq_add_of_le' hrounds
    by_cases h : tweets.length < limit
    · rw [← Nat.add_assoc,getTweetsLoop_next hi hlast h,read_getValue]
      cases hvalue : (w.store .tweets).value (tweetKey userId (n+1 : ℕ)) with
      | none =>
        have hpost : w.post userId (n+1) = none := by rw [World.post,hvalue]; rfl
        rw [getTweetsRest,ih (by omega) (by omega),World.posts,hpost]
        rfl
      | some tweetMap =>
        obtain ⟨date,hdate⟩ := Option.isSome_iff_exists.mp (hdated (n+1) (by omega) (by omega) tweetMap hvalue)
        have hpost : w.post userId (n+1) =
            some ⟨date,tweetMap.text,tweetMap.user,some (tweetKey userId (n+1 : ℕ))⟩ := by
          rw [World.post,hvalue,Option.bind_some,hdate]
          rfl
        have hread (f : Tweet → Client (List Tweet)) : w.read (toTweet tweetMap (tweetKey userId (n+1 : ℕ)) >>= f) =
            w.read (f ⟨date,tweetMap.text,tweetMap.user,some (tweetKey userId (n+1 : ℕ))⟩) := by
          rw [toTweet,hdate]
          rfl
        have hroom : (limit - tweets.length).toNat = (limit - (tweets.length+1 : ℕ)).toNat + 1 := by omega
        rw [getTweetsRest,hread,ih (by omega) (by omega),World.posts,hpost,Option.toList_some,List.length_append,
          List.length_singleton,hroom,List.singleton_append,List.take_succ_cons,List.append_assoc,
          List.singleton_append]
    · have hroom : (limit - tweets.length).toNat = 0 := by omega
      rw [getTweetsLoop_full (by omega),read_ret,hroom,List.take_zero,List.append_nil]

theorem lookups_getTweetsRest (rounds : ℕ) (i : ℤ) (tweets : List Tweet) (id : JString) (x : Option TweetMap) :
    w.lookups (getTweetsRest userId lastTweet limit rounds i tweets id x) = [] ∨
      ∃ tweets', w.lookups (getTweetsRest userId lastTweet limit rounds i tweets id x) =
        w.lookups (getTweetsLoop userId lastTweet limit rounds i tweets') := by
  cases x with
  | none => exact Or.inr ⟨tweets,rfl⟩
  | some tweetMap =>
    rw [getTweetsRest,toTweet]
    cases parseLong tweetMap.date with
    | none => exact Or.inl rfl
    | some date => exact Or.inr ⟨tweets ++ [⟨date,tweetMap.text,tweetMap.user,some id⟩],rfl⟩

theorem lookups_getTweetsLoop (hlast : lastTweet < 2^31) {n i : ℕ} (hi : i + n = lastTweet) (rounds : ℕ)
    (tweets : List Tweet) :
    (w.lookups (getTweetsLoop userId lastTweet limit rounds i tweets)).length ≤ n ∧
      ∀ key ∈ w.lookups (getTweetsLoop userId lastTweet limit rounds i tweets),
        ∃ m : ℕ, 1 ≤ m ∧ m ≤ n ∧ key = tweetKey userId m := by
  induction rounds generalizing i n tweets with
  | zero => simp [getTweetsLoop,lookups_ret]
  | succ rounds ih =>
    by_cases h : tweets.length < limit
    · cases n with
      | zero =>
        obtain rfl : i = lastTweet := hi
        simp [getTweetsLoop_zero hlast,lookups_ret]
      | succ n =>
        have hrest (tweets : List Tweet) := ih (show i+1+n = lastTweet by omega) tweets
        rw [getTweetsLoop_next hi hlast h,lookups_tweet]
        generalize hlookups : w.lookups (getTweetsRest userId lastTweet limit rounds (i+1 : ℕ) tweets
          (tweetKey userId (n+1 : ℕ)) ((w.store .tweets).value (tweetKey userId (n+1 : ℕ)))) = keys
        have hkeys : keys.length ≤ n ∧ ∀ key ∈ keys, ∃ m : ℕ, 1 ≤ m ∧ m ≤ n ∧ key = tweetKey userId m := by
          rw [← hlookups]
          rcases @lookups_getTweetsRest w userId lastTweet limit rounds (i+1 : ℕ) tweets
            (tweetKey userId (n+1 : ℕ)) ((w.store .tweets).value (tweetKey userId (n+1 : ℕ))) with
            hnil | ⟨tweets',hloop⟩
          · rw [hnil]
            simp
          · rw [hloop]
            exact hrest tweets'
        refine ⟨by rw [List.length_cons]; omega,fun key hkey => ?_⟩
        rcases List.mem_cons.mp hkey with rfl | hkey
        · exact ⟨n+1,by omega,le_rfl,rfl⟩
        · obtain ⟨m,hm,hmn,rfl⟩ := hkeys.2 key hkey
          exact ⟨m,hm,by omega,rfl⟩
    · simp [getTweetsLoop_full (by omega : limit ≤ tweets.length),lookups_ret]

/-- Past the last number, the loop goes on below 1. -/
theorem lookups_beyond {i : ℕ} (hi : lastTweet < i) (hi' : i < 2^31) (h : 0 < limit) (rounds : ℕ) :
    tweetKey userId (lastTweet - i) ∈ w.lookups (getTweetsLoop userId lastTweet limit (rounds+1) i []) := by
  have hidx : wrap 32 ((lastTweet : ℤ) - i) = lastTweet - i := @wrap_eq_self 31 _ ⟨by omega,by omega⟩
  have hkey (f : Option TweetMap → Client (List Tweet)) : tweetKey userId (lastTweet - i) ∈
      w.lookups (getValue .tweets (tweetKey userId (lastTweet - i)) >>= f) := by
    rw [lookups_tweet]
    exact List.mem_cons_self
  rw [getTweetsLoop,if_pos (by simpa using h),hidx,if_neg (by omega)]
  exact hkey _

/-- No number of rounds above 2^32 makes a difference: the numbers have gone round to 0. -/
theorem getTweetsLoop_rounds {lastTweet i : ℤ} {m rounds rounds' : ℕ} (hm : (lastTweet - i) % 2^32 = m)
    (h : m < rounds) (h' : m < rounds') (tweets : List Tweet) :
    getTweetsLoop userId lastTweet limit rounds i tweets =
      getTweetsLoop userId lastTweet limit rounds' i tweets := by
  induction m generalizing i rounds rounds' tweets with
  | zero =>
    obtain ⟨rounds,rfl⟩ := Nat.exists_eq_add_one.mpr h
    obtain ⟨rounds',rfl⟩ := Nat.exists_eq_add_one.mpr h'
    have hidx : wrap 32 (lastTweet - i) = 0 := Int.bmod_eq_zero_of_dvd (Int.dvd_of_emod_eq_zero hm)
    rw [getTweetsLoop,getTweetsLoop,hidx]
    simp
  | succ m ih =>
    obtain ⟨rounds,rfl⟩ := Nat.exists_eq_add_one.mpr (Nat.zero_lt_of_lt h)
    obtain ⟨rounds',rfl⟩ := Nat.exists_eq_add_one.mpr (Nat.zero_lt_of_lt h')
    have hnext : (lastTweet - wrap 32 (i+1)) % 2^32 = m := by
      have hwrap : wrap 32 (i+1) % 2^32 = (i+1) % 2^32 := Int.bmod_emod
      omega
    rw [getTweetsLoop,getTweetsLoop]
    simp only [fun tweets => ih hnext (show m < rounds by omega) (show m < rounds' by omega) tweets]

end Loop

theorem tweetKey_ne_of_neg {userId : JString} {m : ℤ} (hm : m < 0) (n : ℕ) :
    tweetKey userId m ≠ tweetKey userId n := by
  intro h
  have hdecimal := (List.cons.inj (List.append_cancel_left h)).2
  have hdash := dash_not_mem_decimal n
  rw [← hdecimal,decimal,if_pos hm] at hdash
  exact hdash List.mem_cons_self

section Counter

variable {w : World} {userId : JString} {user : UserMap} {lastTweet : ℕ}

theorem lookups_getTweets (huser : (w.store .users).value userId = some user)
    (hlast : parseInt user.lastTweet = some (lastTweet : ℤ)) (start count : ℕ) : w.lookups (getTweets userId start count) =
    w.lookups (getTweetsLoop userId lastTweet (wrap 32 (start+count)) (2^32) start []) := by
  rw [getTweets,lookups_user,huser]
  dsimp only
  rw [hlast,orThrow_some]

theorem wrap_limit {start count : ℕ} (hstart : start < 2^31) (hcount : count < 2^31) :
    wrap 32 ((start : ℤ) + count) = if start + count < 2^31 then ((start + count : ℕ) : ℤ) else
      start + count - 2^32 := by
  split
  · rw [@wrap_eq_self 31 _ ⟨by omega,by omega⟩]
    omega
  · have hwrap : wrap 32 ((start : ℤ) + count - 2^32) = start + count - 2^32 :=
      @wrap_eq_self 31 _ ⟨by omega,by omega⟩
    rw [← hwrap]
    exact (Int.sub_bmod_right ((start : ℤ) + count) (2^32)).symm

end Counter

section Posts

variable {w : World} {userId : JString}

theorem World.posts_append (n k : ℕ) :
    ∃ above, w.posts userId (n+k) = above ++ w.posts userId n ∧ above.length ≤ k ∧
      (above.length = k ↔ ∀ m, n < m → m ≤ n+k → w.post userId m ≠ none) := by
  induction k with
  | zero => exact ⟨[],rfl,Nat.le_refl 0,by simp; omega⟩
  | succ k ih =>
    obtain ⟨above,habove,hle,hiff⟩ := ih
    refine ⟨(w.post userId (n+k+1)).toList ++ above,by rw [List.append_assoc,← habove]; rfl,?_⟩
    have hstep : (∀ m, n < m → m ≤ n+(k+1) → w.post userId m ≠ none) ↔
        w.post userId (n+k+1) ≠ none ∧ ∀ m, n < m → m ≤ n+k → w.post userId m ≠ none := by
      refine ⟨fun h => ⟨h _ (by omega) (by omega),fun m hm hmk => h m hm (by omega)⟩,fun h m hm hmk => ?_⟩
      rcases Nat.lt_or_ge (n+k) m with hlt | hge
      · obtain rfl : m = n+k+1 := by omega
        exact h.1
      · exact h.2 m hm hge
    rw [hstep,← hiff,List.length_append]
    cases w.post userId (n+k+1) with
    | none => simp; omega
    | some t => simp; omega

theorem length_posts_le (n : ℕ) : (w.posts userId n).length ≤ n := by
  obtain ⟨above,habove,hle,_⟩ := @World.posts_append w userId 0 n
  rw [Nat.zero_add] at habove
  simpa [habove,World.posts] using hle

theorem World.posts_eq_nil {n : ℕ} :
    w.posts userId n = [] ↔ ∀ m, 1 ≤ m → m ≤ n → w.post userId m = none := by
  induction n with
  | zero => simp [World.posts]; omega
  | succ n ih =>
    rw [World.posts,List.append_eq_nil_iff,Option.toList_eq_nil_iff,ih]
    refine ⟨fun h m hm hmn => ?_,fun h => ⟨h _ (by omega) le_rfl,fun m hm hmn => h m hm (by omega)⟩⟩
    rcases Nat.lt_or_ge n m with hlt | hge
    · obtain rfl : m = n+1 := by omega
      exact h.1
    · exact h.2 m hm hge

theorem World.id_of_mem_posts {n : ℕ} {t : Tweet} (ht : t ∈ w.posts userId n) :
    ∃ m : ℕ, 1 ≤ m ∧ m ≤ n ∧ w.post userId m = some t ∧ t.id = some (tweetKey userId m) := by
  induction n with
  | zero => simp [World.posts] at ht
  | succ n ih =>
    rw [World.posts,List.mem_append,Option.mem_toList] at ht
    rcases ht with hpost | ht
    · refine ⟨n+1,by omega,le_rfl,hpost,?_⟩
      obtain ⟨tweetMap,_,hmap⟩ := Option.bind_eq_some_iff.mp hpost
      obtain ⟨date,_,rfl⟩ := Option.map_eq_some_iff.mp hmap
      rfl
    · obtain ⟨m,hm,hmn,h⟩ := ih ht
      exact ⟨m,hm,by omega,h⟩

theorem World.nodup_posts (n : ℕ) : (w.posts userId n).Nodup := by
  induction n with
  | zero => exact List.nodup_nil
  | succ n ih =>
    rw [World.posts]
    cases hpost : w.post userId (n+1) with
    | none => exact ih
    | some t =>
      refine List.nodup_cons.mpr ⟨fun ht => ?_,ih⟩
      obtain ⟨m,_,hmn,_,hid⟩ := World.id_of_mem_posts ht
      have hmem : t ∈ w.posts userId (n+1) := by simp [World.posts,hpost]
      obtain ⟨tweetMap,_,hmap⟩ := Option.bind_eq_some_iff.mp hpost
      obtain ⟨date,_,rfl⟩ := Option.map_eq_some_iff.mp hmap
      have hnumber := (tweetKey_injective (Option.some.inj hid)).2
      omega

/-- The page that starts at 0; one that the overflow leaves empty, past the last tweet; one
below all tweets; or one that starts after as many tweets as numbers and reaches the end. -/
def World.PageExact (w : World) (userId : JString) (lastTweet start count : ℕ) : Prop :=
  start = 0 ∨
  (2^31 ≤ start + count ∧ (w.posts userId lastTweet).length ≤ start) ∨
  start + count < 2^31 ∧ ((∀ n, 1 ≤ n → n + start ≤ lastTweet → w.post userId n = none) ∨
    (∀ n, lastTweet < n + start → n ≤ lastTweet → w.post userId n ≠ none) ∧
      (w.posts userId lastTweet).length ≤ start + count)

theorem page_posts_iff {lastTweet start count : ℕ} (hle : start ≤ lastTweet) (hstart : start < 2^31)
    (hcount : count < 2^31) :
    (w.posts userId (lastTweet - start)).take (wrap 32 ((start : ℤ) + count)).toNat =
      page (w.posts userId lastTweet) start count ↔ w.PageExact userId lastTweet start count := by
  obtain ⟨above,habove,hlength,hall⟩ := @World.posts_append w userId (lastTweet - start) start
  rw [Nat.sub_add_cancel hle] at habove hall
  have hall' : above.length = start ↔
      ∀ n, lastTweet < n + start → n ≤ lastTweet → w.post userId n ≠ none :=
    hall.trans ⟨fun h n hn => h n (by omega),fun h n hn => h n (by omega)⟩
  have hnone : (w.posts userId (lastTweet - start)).length = 0 ↔
      ∀ n, 1 ≤ n → n + start ≤ lastTweet → w.post userId n = none := by
    rw [List.length_eq_zero_iff,World.posts_eq_nil]
    exact ⟨fun h n hn hle => h n hn (by omega),fun h n hn hle => h n hn (by omega)⟩
  have hpage (limit : ℕ) : (w.posts userId (lastTweet - start)).take limit =
      page (w.posts userId lastTweet) above.length limit := by rw [page,habove,List.drop_left]
  have hsum : (w.posts userId lastTweet).length = above.length + (w.posts userId (lastTweet - start)).length := by
    rw [habove,List.length_append]
  rw [hpage,page_eq_page_iff (World.nodup_posts _),page_eq_nil,page_eq_nil,World.PageExact,← hnone,← hall',
    wrap_limit hstart hcount]
  split <;> omega

end Posts

theorem read_getTweets {w : World} {userId : JString} {user : UserMap} {lastTweet : ℕ}
    (huser : (w.store .users).value userId = some user) (hlast : parseInt user.lastTweet = some (lastTweet : ℤ))
    (start count : ℕ) : w.read (getTweets userId start count) =
      w.read (getTweetsLoop userId lastTweet (wrap 32 (start+count)) (2^32) start []) := by
  rw [getTweets,read_getValue,huser]
  dsimp only
  rw [hlast,orThrow_some]

theorem read_getTweets_posts {w : World} {userId : JString} {user : UserMap} {lastTweet : ℕ}
    (huser : (w.store .users).value userId = some user) (hlast : parseInt user.lastTweet = some (lastTweet : ℤ))
    (hdated : w.DatedBy userId lastTweet) {start : ℕ} (hle : start ≤ lastTweet) (count : ℕ) :
    w.read (getTweets userId start count) =
      .ok ((w.posts userId (lastTweet - start)).take (wrap 32 ((start : ℤ) + count)).toNat) := by
  have hrange := parse_range (Option.bind_eq_some_iff.mp hlast).choose_spec.2
  have hrounds : lastTweet - start ≤ 2^32 := by omega
  rw [read_getTweets huser hlast,read_getTweetsLoop (by omega) hdated (Nat.add_sub_cancel' hle) hrounds,List.nil_append,List.length_nil,Nat.cast_zero,Int.sub_zero]

/-- `getTweets` returns the page that was asked for exactly if the page is one of those; when
all pages of a size are, they list every tweet once. -/
theorem getTweets_page_iff {w : World} {userId : JString} {user : UserMap} {lastTweet : ℕ}
    (huser : (w.store .users).value userId = some user) (hlast : parseInt user.lastTweet = some (lastTweet : ℤ))
    (hdated : w.DatedBy userId lastTweet) :
    (∀ start count : ℕ, start ≤ lastTweet → count < 2^31 →
      (w.read (getTweets userId start count) = .ok (page (w.posts userId lastTweet) start count) ↔
        w.PageExact userId lastTweet start count)) ∧
    ∀ size : ℕ, 0 < size → size < 2^31 →
      (∀ k, k*size ≤ lastTweet → w.PageExact userId lastTweet (k*size) size) →
      ((List.range (lastTweet/size+1)).flatMap fun k =>
        (w.read (getTweets userId (k*size : ℕ) size)).toOption.getD []) = w.posts userId lastTweet := by
  have hrange := parse_range (Option.bind_eq_some_iff.mp hlast).choose_spec.2
  have hpage {start count : ℕ} (hle : start ≤ lastTweet) (hcount : count < 2^31) :
      w.read (getTweets userId start count) = .ok (page (w.posts userId lastTweet) start count) ↔
        w.PageExact userId lastTweet start count := by
    rw [read_getTweets_posts huser hlast hdated hle,Except.ok.injEq,page_posts_iff hle (by omega) hcount]
  refine ⟨fun start count => hpage,fun size hpos hsize hexact => ?_⟩
  have hpages : ∀ k ∈ List.range (lastTweet/size+1),
      (w.read (getTweets userId (k*size : ℕ) size)).toOption.getD [] =
        page (w.posts userId lastTweet) (k*size) size := fun k hk => by
    have hle : k*size ≤ lastTweet :=
      (Nat.mul_le_mul_right size (Nat.lt_succ_iff.mp (List.mem_range.mp hk))).trans (Nat.div_mul_le_self _ _)
    rw [(hpage hle hsize).mpr (hexact k hle)]
    rfl
  have hlength : lastTweet ≤ (lastTweet/size+1)*size := by
    rw [Nat.succ_mul]
    exact (Nat.lt_div_mul_add hpos).le
  rw [List.flatMap_congr hpages,flatMap_page,List.take_of_length_le ((length_posts_le _).trans hlength)]

def threeTweets : World where
  store
    | .users => fun user => if user = ['a'] then [{ lastTweet := some ['3'] }] else []
    | .tweets => fun id => if id ∈ [tweetKey ['a'] 1,tweetKey ['a'] 2,tweetKey ['a'] 3]
      then [{ date := some ['5'], user := some ['a'] }] else []
    | .friendsTimeline => fun _ => []
  history := []

theorem threeTweets_user : (threeTweets.store .users).value ['a'] = some { lastTweet := some ['3'] } := rfl

theorem threeTweets_last : parseInt (some ['3']) = some ((3 : ℕ) : ℤ) := by decide

theorem threeTweets_dated : threeTweets.DatedBy ['a'] 3 := by
  intro n _ _ tweetMap hvalue
  obtain ⟨vs,hvs⟩ := Store.value_eq_some.mp hvalue
  simp only [threeTweets] at hvs
  split at hvs
  · cases hvs
    decide
  · simp at hvs

theorem getTweets_pages_threeTweets :
    (∀ start count : ℕ, start ≤ 3 → count < 2^31 →
      (threeTweets.read (getTweets ['a'] start count) = .ok (page (threeTweets.posts ['a'] 3) start count) ↔
        threeTweets.PageExact ['a'] 3 start count)) ∧
    ∀ size : ℕ, 0 < size → size < 2^31 →
      (∀ k, k*size ≤ 3 → threeTweets.PageExact ['a'] 3 (k*size) size) →
      ((List.range (3/size+1)).flatMap fun k =>
        (threeTweets.read (getTweets ['a'] (k*size : ℕ) size)).toOption.getD []) = threeTweets.posts ['a'] 3 :=
  getTweets_page_iff threeTweets_user threeTweets_last threeTweets_dated

/-- The second page of one tweet has two. -/
theorem second_page_overlong : (threeTweets.store .users).value ['a'] = some { lastTweet := some ['3'] } ∧
    threeTweets.DatedBy ['a'] 3 ∧
    threeTweets.read (getTweets ['a'] (1 : ℕ) (1 : ℕ)) ≠ .ok (page (threeTweets.posts ['a'] 3) 1 1) := by
  refine ⟨threeTweets_user,threeTweets_dated,?_⟩
  rw [read_getTweets_posts threeTweets_user threeTweets_last threeTweets_dated (by decide)]
  decide

/-- `getTweets` stops within the numbers of the user's tweets exactly if it starts there or
the sum of its arguments overflows. -/
theorem getTweets_stops_iff {w : World} {userId : JString} {user : UserMap} {lastTweet : ℕ}
    (huser : (w.store .users).value userId = some user)
    (hlast : parseInt user.lastTweet = some (lastTweet : ℤ)) {start count : ℕ} (hstart : start < 2^31)
    (hcount : count < 2^31) :
    ((w.lookups (getTweets userId start count)).length ≤ lastTweet ∧
      ∀ key ∈ w.lookups (getTweets userId start count),
        ∃ n : ℕ, 1 ≤ n ∧ n ≤ lastTweet ∧ key = tweetKey userId n) ↔
      start ≤ lastTweet ∨ 2^31 ≤ start + count := by
  have hrange := parse_range (Option.bind_eq_some_iff.mp hlast).choose_spec.2
  rw [lookups_getTweets huser hlast,wrap_limit hstart hcount]
  constructor
  · rintro ⟨_,hkeys⟩
    by_contra hout
    rw [if_pos (by omega),show (2^32 : ℕ) = 2^32-1+1 by decide] at hkeys
    obtain ⟨n,_,_,hkey⟩ := hkeys _ (lookups_beyond (by omega) hstart (by omega) (2^32-1))
    exact tweetKey_ne_of_neg (by omega) n hkey
  · rintro (hle | hoverflow)
    · obtain ⟨hlength,hkeys⟩ := @lookups_getTweetsLoop w userId lastTweet
        (if start + count < 2^31 then ((start + count : ℕ) : ℤ) else start + count - 2^32) (by omega)
        (lastTweet - start) start (by omega) (2^32) []
      refine ⟨by omega,fun key hkey => ?_⟩
      obtain ⟨n,hn,hle',rfl⟩ := hkeys key hkey
      exact ⟨n,hn,by omega,rfl⟩
    · rw [if_neg (by omega),getTweetsLoop_full (by simp; omega),lookups_ret]
      simp

theorem getTweets_stops_threeTweets :
    ((threeTweets.lookups (getTweets ['a'] (1 : ℕ) (5 : ℕ))).length ≤ 3 ∧
      ∀ key ∈ threeTweets.lookups (getTweets ['a'] (1 : ℕ) (5 : ℕ)),
        ∃ n : ℕ, 1 ≤ n ∧ n ≤ 3 ∧ key = tweetKey ['a'] n) ↔ 1 ≤ 3 ∨ 2^31 ≤ 1 + 5 :=
  getTweets_stops_iff threeTweets_user threeTweets_last (by decide) (by decide)

/-- Past the last tweet, the number -1 is looked up. -/
theorem lookup_below_one : (threeTweets.store .users).value ['a'] = some { lastTweet := some ['3'] } ∧
    ¬ ((threeTweets.lookups (getTweets ['a'] (4 : ℕ) (1 : ℕ))).length ≤ 3 ∧
      ∀ key ∈ threeTweets.lookups (getTweets ['a'] (4 : ℕ) (1 : ℕ)),
        ∃ n : ℕ, 1 ≤ n ∧ n ≤ 3 ∧ key = tweetKey ['a'] n) := by
  refine ⟨threeTweets_user,fun ⟨_,hkeys⟩ => ?_⟩
  rw [lookups_getTweets threeTweets_user threeTweets_last,
    wrap_limit (by decide) (by decide),if_pos (by decide)] at hkeys
  obtain ⟨n,_,_,hkey⟩ := hkeys _ (lookups_beyond (by decide) (by decide) (by decide) (2^32-1))
  exact tweetKey_ne_of_neg (by decide) n hkey

end TweetService
end Bigbird
