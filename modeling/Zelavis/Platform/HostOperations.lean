import Mathlib.Data.Rat.Floor
import Mathlib.Tactic.Linarith
import Zelavis.Lib.OrderedMap
import Zelavis.Lib.Unicode

/-!
# The rate limit of host operations

`platform/host-operations.ts`: every caller has a bucket of tokens that refills with the time that passes, up
to the burst, and a submission takes one. Buckets that are full again are thrown away where ten thousand
callers are tracked. Times and tokens are exact numbers here.
-/

namespace Zelavis.Platform.HostOperations

open Lib List

/-! ## The limit -/

/-- Source: `ZelavisHostOperationRateLimit`, as `createHostOperationBroker` accepts it. -/
structure RateLimit where
  submissionsPerMinute : ℚ
  burst : ℕ
  positive : 0 < submissionsPerMinute
  one_le_burst : 1 ≤ burst
  safe : burst < 2 ^ 53

/-- Source: `createHostOperationBroker`, its check of the limit. -/
def rateLimit (submissionsPerMinute : ℚ) (burst : ℕ) : Except String RateLimit :=
  if h : 0 < submissionsPerMinute ∧ burst < 2 ^ 53 ∧ 1 ≤ burst then
    .ok ⟨submissionsPerMinute, burst, h.1, h.2.2, h.2.1⟩
  else .error "Host operation rate limit needs a positive rate and burst."

def RateLimit.perMs (limit : RateLimit) : ℚ := limit.submissionsPerMinute / 60000

structure Bucket where
  tokens : ℚ
  updatedAt : ℚ

abbrev Buckets : Type := OrderedMap Utf16 Bucket

/-- Source: `ZelavisHostOperationRateLimitedError`. -/
structure RateLimited where
  retryAfterSeconds : ℤ
  deriving DecidableEq

def RateLimited.message (e : RateLimited) : String :=
  s!"Too many host operation requests; retry in {e.retryAfterSeconds} s."

def RateLimit.refilled (limit : RateLimit) (now : ℚ) (bucket : Bucket) : ℚ :=
  min (limit.burst : ℚ) (bucket.tokens + (now - bucket.updatedAt) * limit.perMs)

def RateLimit.Full (limit : RateLimit) (now : ℚ) (bucket : Bucket) : Prop :=
  limit.burst ≤ bucket.tokens + (now - bucket.updatedAt) * limit.perMs

instance (limit : RateLimit) (now : ℚ) (bucket : Bucket) : Decidable (limit.Full now bucket) := by
  unfold RateLimit.Full; infer_instance

def Buckets.evict (limit : RateLimit) (now : ℚ) (buckets : Buckets) : Buckets :=
  ⟨buckets.entries.filter fun e => ¬limit.Full now e.2, buckets.sorted.filter _⟩

/-- Takes one token for the actor or refuses with the wait until the next. Where no `most` is given, no
bucket is thrown away. Source: `consumeSubmission`. -/
def consumeSubmission (limit : RateLimit) (most : Option ℕ) (buckets : Buckets) (actorId : Utf16) (now : ℚ) :
    Buckets × Except RateLimited Unit :=
  let tokens := limit.refilled now ((buckets.get actorId).getD ⟨limit.burst, now⟩)
  if tokens < 1 then
    (buckets.insert actorId ⟨tokens, now⟩, .error ⟨max 1 ⌈(1 - tokens) / limit.perMs / 1000⌉⟩)
  else
    let kept :=
      if (∃ n ∈ most, n ≤ buckets.entries.length) ∧ buckets.get actorId = none then buckets.evict limit now
      else buckets
    (kept.insert actorId ⟨tokens - 1, now⟩, .ok ())

/-- The answers to submissions, each with its caller and the time on the clock. -/
def answers (limit : RateLimit) (most : Option ℕ) :
    Buckets → List (Utf16 × ℚ) → List (Except RateLimited Unit)
  | _, [] => []
  | buckets, (actorId, now) :: later =>
    let (after, answer) := consumeSubmission limit most buckets actorId now
    answer :: answers limit most after later

/-- Whether a submission of the caller, between `start` and `stop`, is accepted. -/
def AcceptedIn (actorId : Utf16) (start stop : ℚ) (e : (Utf16 × ℚ) × Except RateLimited Unit) : Bool :=
  e.1.1 = actorId ∧ start ≤ e.1.2 ∧ e.1.2 ≤ stop ∧ e.2.isOk

def accepted (limit : RateLimit) (most : Option ℕ) (buckets : Buckets) (submissions : List (Utf16 × ℚ))
    (actorId : Utf16) (start stop : ℚ) : ℕ :=
  (submissions.zip (answers limit most buckets submissions)).countP (AcceptedIn actorId start stop)

/-! ## What a caller could take -/

variable {limit : RateLimit} {most most' : Option ℕ} {buckets buckets' : Buckets} {id actorId : Utf16}
  {now t start stop : ℚ} {submissions : List (Utf16 × ℚ)}

end Zelavis.Platform.HostOperations
