import Bigbird.Runs
import Bigbird.CommandQueue
import Bigbird.Watermark
import Bigbird.Recovery
import Bigbird.FreshIds
import Bigbird.Serialization
import Bigbird.StoreContents
import Bigbird.Reservation
import Bigbird.Submissions
import Bigbird.JavaText
import Bigbird.Programs
import Bigbird.TweetService
import Bigbird.ServiceCalls
import Bigbird.TweetNumbers
import Bigbird.Deliveries
import Bigbird.FollowEdges
import Bigbird.Replay
import Bigbird.Attempts
import Bigbird.Acknowledge
import Bigbird.Changes
import Bigbird.Accounts
import Bigbird.Issues
import Bigbird.Published
import Bigbird.TimelineEntries
import Bigbird.SerialRuns
import Bigbird.SerialTweets
import Bigbird.FollowedAuthors
import Bigbird.Listing
import Bigbird.TweetPages
import Bigbird.FriendsTimeline
import Bigbird.CursorMerge
import Bigbird.FollowCommands
import Bigbird.TimelineOrder
import Bigbird.EntryFormat
import Bigbird.FollowerSets
import Bigbird.WebRequests
import Bigbird.FollowButton
import Bigbird.Json
import Bigbird.RequestBodies
import Bigbird.CouchDb
import Bigbird.TweetOutcomes
import Bigbird.IssuedTweets
import Bigbird.Authorship
import Bigbird.PostListings
import Bigbird.TimelineReads
import Bigbird.TimelineHistory
import Bigbird.TweetDelivery
import Bigbird.Stringify
import Bigbird.WebApplication
import Bigbird.Cluster
import Bigbird.WebPage
