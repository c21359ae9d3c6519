import Mathlib.Algebra.Order.Floor.Ring
import AsymmetricCommittee.Lib.ServerKeys

/-! The token buckets of the model calls (`agents/llm/ratelimit.py`). A bucket is one key of a Redis server; its script runs
    in one piece and takes the time from the server, so attempts of all workers come one after another. -/

namespace AsymmetricCommittee
namespace RateLimit

/-- What `_BUCKET` keeps under its key. -/
structure Bucket (K : Type) where
  tokens : K
  ts : Int

/-- The constructor refuses another `per_minute`. -/
structure RedisTokenBucket where
  perMinute : Nat
  pos : 0 < perMinute

variable (K : Type) [Field K]

/-- The burst capacity: one minute's worth. -/
def RedisTokenBucket.cap (b : RedisTokenBucket) : K := b.perMinute

/-- Units per millisecond. -/
def RedisTokenBucket.rate (b : RedisTokenBucket) : K := b.perMinute / 60000

variable {K} [LinearOrder K]

/-- The tokens that `_BUCKET` finds: a key that is not held is a full bucket. -/
def refilled (cap rate : K) (key : ExpiringKey (Bucket K)) (t : ServerTime) : K :=
  let s := (key.read t).getD ⟨cap, t.ms⟩
  min cap (s.tokens + (t.ms - s.ts : Int) * rate)

variable [FloorRing K]

/-- `_BUCKET`: the milliseconds to wait and the key after it. A cost above the capacity is that of a full bucket. -/
def bucketScript (cap rate arg : K) (key : ExpiringKey (Bucket K)) (t : ServerTime) : Int × ExpiringKey (Bucket K) :=
  let cost := min arg cap
  let tokens := refilled cap rate key t
  if cost ≤ tokens then (0, .expiring ⟨tokens - cost, t.ms⟩ t 120000)
  else (⌈(cost - tokens) / rate⌉, .expiring ⟨tokens, t.ms⟩ t 120000)

/-- One turn of the loop of `acquire`, by any worker. -/
structure Attempt where
  time : ServerTime
  cost : Int
  deriving DecidableEq

def Attempt.arg (a : Attempt) : Int := max a.cost 1

/-- A turn that does not have to wait ends its `acquire`; another one sleeps and tries again. -/
def Granted (wait : Int) : Prop := wait ≤ 0

instance (wait : Int) : Decidable (Granted wait) := inferInstanceAs (Decidable (wait ≤ 0))

def RedisTokenBucket.attempt (b : RedisTokenBucket) (key : ExpiringKey (Bucket K)) (a : Attempt) :
    Int × ExpiringKey (Bucket K) :=
  bucketScript (b.cap K) (b.rate K) a.arg key a.time

/-- Turns one after another, each with what it is told to wait. -/
def RedisTokenBucket.attempts (b : RedisTokenBucket) : ExpiringKey (Bucket K) → List Attempt → List (Attempt × Int)
  | _, [] => []
  | key, a :: rest => (a, (b.attempt key a).1) :: b.attempts (b.attempt key a).2 rest

end RateLimit
end AsymmetricCommittee
