import AsymmetricCommittee.Lib.ServerKeys
import AsymmetricCommittee.Lib.SlidingWindow

/-! The limiters of the EDGAR client (`ingest/edgar_client.py`): the log of the last requests that all workers share on a Redis
    server, and the one of a single process. -/

namespace AsymmetricCommittee
namespace EdgarClient
open SlidingWindow (Answer)

structure RedisSlidingWindowLimiter where
  limit : Nat
  windowUs : Int

/-- One turn of the loop of `acquire`, by any worker, with the member that it would add. -/
structure Attempt where
  time : ServerTime
  member : String

/-- `math.ceil(window / 1000) + 1000`. -/
def RedisSlidingWindowLimiter.ttl (l : RedisSlidingWindowLimiter) : Int := -(-l.windowUs / 1000) + 1000

/-- `_SLIDING_WINDOW`. A set that is left empty is dropped with its key; the script fails where it reads the oldest entry
    of an empty set. -/
def RedisSlidingWindowLimiter.attempt (l : RedisSlidingWindowLimiter) (key : ExpiringKey SortedSet) (a : Attempt) :
    Answer Int × ExpiringKey SortedSet :=
  let log := ((key.read a.time).getD .empty).zremUpTo (a.time.us - l.windowUs)
  if log.zcard < l.limit then (.granted, .expiring (log.zadd a.time.us a.member) a.time l.ttl)
  else
    (match log.lowest with
      | none => .failed
      | some oldest => .wait (oldest + l.windowUs - a.time.us), key.change log)

/-- Turns one after another, each with its answer. -/
def RedisSlidingWindowLimiter.attempts (l : RedisSlidingWindowLimiter) :
    ExpiringKey SortedSet → List Attempt → List (Int × Answer Int)
  | _, [] => []
  | key, a :: rest => (a.time.us, (l.attempt key a).1) :: l.attempts (l.attempt key a).2 rest

section Local
variable {T : Type*} [AddCommGroup T] [LinearOrder T]

structure LocalSlidingWindowLimiter (T : Type*) where
  limit : Nat
  windowS : T

/-- A turn of the loop: the first times that are out of the window leave the deque. -/
def LocalSlidingWindowLimiter.attempt (l : LocalSlidingWindowLimiter T) (times : List T) (now : T) : Answer T × List T :=
  let times := times.dropWhile (· ≤ now - l.windowS)
  if times.length < l.limit then (.granted, times ++ [now])
  else
    (match times.head? with
      | none => .failed
      | some oldest => .wait (oldest + l.windowS - now), times)

def LocalSlidingWindowLimiter.attempts (l : LocalSlidingWindowLimiter T) : List T → List T → List (T × Answer T)
  | _, [] => []
  | times, now :: rest => (now, (l.attempt times now).1) :: l.attempts (l.attempt times now).2 rest

end Local
end EdgarClient
end AsymmetricCommittee
