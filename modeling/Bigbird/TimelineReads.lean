import Bigbird.Authorship
import Bigbird.FriendsTimeline

/-! `getFriendsTimeline` while the services go on: its retrievers look up the tweets of the
entries that the call has found at its start, in the stores as they are by then. -/
namespace Bigbird
namespace TweetService

open JavaText VersionedStore Programs Listing

/-- The entry is that of a tweet that can be looked up by it. -/
def LooksUp (w : World) (e : JString) (t : Tweet) : Prop :=
  t.entry = e ∧ ∃ tweetId tweetMap, (split ':' e).head? = some tweetId ∧
    (w.store .tweets).value tweetId = some tweetMap ∧ parseLong tweetMap.date = some t.date ∧
    t = ⟨t.date,tweetMap.text,tweetMap.user,some tweetId⟩

variable {w w' : World}

theorem LooksUp.mono (h : w.Extends w') {e : JString} {t : Tweet} (ht : LooksUp w e t) : LooksUp w' e t := by
  obtain ⟨hentry,tweetId,tweetMap,hsplit,hvalue,hrest⟩ := ht
  exact ⟨hentry,tweetId,tweetMap,hsplit,h.tweet hvalue,hrest⟩

theorem LooksUp.read {e : JString} {t : Tweet} (h : LooksUp w e t) : w.read (retrieve e) = .ok (some t) := by
  obtain ⟨_,tweetId,tweetMap,hsplit,hvalue,hdate,ht⟩ := h
  rw [retrieve,hsplit,orThrow_some,read_getValue,hvalue]
  change w.read (some <$> toTweet tweetMap tweetId) = _
  rw [toTweet,hdate,ht]
  rfl

/-- The retrievers are not let down, and no counter overflows. -/
def Request.Undisturbed (q : Request) : Event ⊕ Act → State × Retrieval → Prop :=
  Runs.besideCond Publishes q.Patient

instance (q : Request) (x : Event ⊕ Act) (p : State × Retrieval) : Decidable (q.Undisturbed x p) := by
  unfold Request.Undisturbed
  infer_instance

variable {s : State} {es : List Event}

end TweetService
end Bigbird
