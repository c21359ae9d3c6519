import Mathlib.Data.Rat.Floor
import AsymmetricCommittee.Agents.RateLimit
import AsymmetricCommittee.Ingest.EdgarClient
import AsymmetricCommittee.Lib.Metering

/-! What the limits on model calls and on EDGAR requests admit. The token bucket is a meter, and both sliding windows are a log
    of grants, although their keys expire. -/

namespace AsymmetricCommittee

/-! ### The token bucket -/

namespace RateLimit
open Metering (Meter)

section Bucket
variable {K : Type} [Field K] [LinearOrder K] [FloorRing K] {b : RedisTokenBucket} {key : ExpiringKey (Bucket K)}
  {m : Meter K} {a : Attempt} {turns : List Attempt}

/-- What a turn asks for. -/
def RedisTokenBucket.asked (b : RedisTokenBucket) (a : Attempt) : K := min a.arg (b.cap K)

/-- The amounts that are granted from a time on until another, in milliseconds of the server. -/
def RedisTokenBucket.granted (b : RedisTokenBucket) (first last : K) (tr : List (Attempt × Int)) : K :=
  ((tr.filter fun x => first ≤ (x.1.time.ms : K) ∧ (x.1.time.ms : K) ≤ last ∧ Granted x.2).map fun x => b.asked x.1).sum

/-- The milliseconds until the refill is as much as what is missing. -/
def RedisTokenBucket.waitFor (b : RedisTokenBucket) : Option K → Int
  | none => 0
  | some missing => ⌈missing / b.rate K⌉

/-- A key that holds what a meter does, at every time from the meter's on. -/
structure Shows (b : RedisTokenBucket) (key : ExpiringKey (Bucket K)) (m : Meter K) : Prop where
  refilled : ∀ t : ServerTime, m.time ≤ (t.ms : K) →
    refilled (b.cap K) (b.rate K) key t = m.levelAt (b.cap K) (b.rate K) (t.ms : K)
  nonneg : 0 ≤ m.level
  le_cap : m.level ≤ b.cap K
  held : ∀ s last, key.held = some (s, last) → s.tokens = m.level

/-- A turn of the loop and one of the meter. -/
def Same (b : RedisTokenBucket) (x : Attempt × Int) (y : (K × K) × Option K) : Prop :=
  y.1 = ((x.1.time.ms : K), b.asked x.1) ∧ x.2 = b.waitFor y.2 ∧ ∀ missing, y.2 = some missing → 0 < missing

variable [IsStrictOrderedRing K]

omit [FloorRing K] in
theorem cap_pos (b : RedisTokenBucket) : 0 < b.cap K := Nat.cast_pos.mpr b.pos

theorem rate_pos (b : RedisTokenBucket) : 0 < b.rate K := div_pos (cap_pos b) (by norm_num)

theorem asked_pos : 0 < (b.asked a : K) := by
  refine lt_min ?_ (cap_pos b)
  exact Int.cast_pos.mpr (lt_of_lt_of_le one_pos (le_max_right _ _))

/-- A bucket that nobody used is full. -/
theorem shows_absent : Shows b (.absent : ExpiringKey (Bucket K)) ⟨b.cap K, 0⟩ where
  refilled t ht := by
    have hzero : (0 : K) ≤ t.ms - 0 := by rwa [sub_zero]
    rw [Meter.levelAt, Metering.refill_full (rate_pos b).le hzero]
    simp [RateLimit.refilled]
  nonneg := (cap_pos b).le
  le_cap := le_rfl
  held s last h := by cases h

/-- A key that is dropped after two minutes was full again. -/
theorem shows_expiring {tokens : K} {t : ServerTime} (hnonneg : 0 ≤ tokens) (hcap : tokens ≤ b.cap K) :
    Shows b (.expiring ⟨tokens, t.ms⟩ t 120000) ⟨tokens, (t.ms : K)⟩ where
  refilled t' ht := by
    unfold RateLimit.refilled Meter.levelAt Metering.refill
    rw [ExpiringKey.read_expiring]
    split
    · dsimp only [Option.getD_some]
      rw [Int.cast_sub]
    · next hdead =>
      have hlate : (120000 : K) ≤ t'.ms - t.ms := by
        have hms : t.ms + 120000 ≤ t'.ms := by
          by_contra h
          exact hdead ⟨by decide, by omega⟩
        have hcast : ((t.ms + 120000 : Int) : K) ≤ t'.ms := Int.cast_le.mpr hms
        push_cast at hcast
        linarith
      have hfull : b.cap K ≤ tokens + (t'.ms - t.ms) * b.rate K := by
        have hrefill : 120000 * b.rate K ≤ (t'.ms - t.ms) * b.rate K := mul_le_mul_of_nonneg_right hlate (rate_pos b).le
        have hcap : 120000 * b.rate K = 2 * b.cap K := by
          unfold RedisTokenBucket.rate RedisTokenBucket.cap
          ring
        linarith [cap_pos (K := K) b]
      dsimp only [Option.getD_none]
      rw [sub_self, Int.cast_zero, zero_mul, add_zero, min_self, min_eq_left hfull]
  nonneg := hnonneg
  le_cap := hcap
  held s last h := by
    unfold ExpiringKey.expiring at h
    rw [if_pos (by decide)] at h
    cases h
    rfl

/-- A turn is an attempt on the meter. -/
theorem attempt_shows (h : Shows b key m) (htime : m.time ≤ (a.time.ms : K)) :
    (b.attempt key a).1 = b.waitFor (m.short (b.cap K) (b.rate K) a.time.ms (b.asked a)) ∧
      Shows b (b.attempt key a).2 (m.attempt (b.cap K) (b.rate K) a.time.ms (b.asked a)) := by
  have hlevel := h.refilled a.time htime
  have hcap : m.levelAt (b.cap K) (b.rate K) a.time.ms ≤ b.cap K := Metering.refill_le_cap _
  have hnonneg : 0 ≤ m.levelAt (b.cap K) (b.rate K) a.time.ms :=
    h.nonneg.trans (Metering.le_refill (rate_pos b).le h.le_cap (sub_nonneg.mpr htime))
  unfold RedisTokenBucket.attempt bucketScript Meter.short Meter.attempt
  dsimp only
  rw [hlevel, ← RedisTokenBucket.asked]
  split
  · next hle =>
    exact ⟨rfl, shows_expiring (sub_nonneg.mpr hle) ((sub_le_self _ asked_pos.le).trans hcap)⟩
  · next hfew =>
    rw [sub_zero]
    exact ⟨rfl, shows_expiring hnonneg hcap⟩

theorem forall₂_append {α β : Type*} {r : α → β → Prop} {u v : List α} {w : List β} (h : List.Forall₂ r (u ++ v) w) :
    ∃ u' v', w = u' ++ v' ∧ List.Forall₂ r u u' ∧ List.Forall₂ r v v' :=
  ⟨w.take u.length, w.drop u.length, (List.take_append_drop ..).symm, (List.forall₂_take_append _ _ _ h.flip).flip,
    (List.forall₂_drop_append _ _ _ h.flip).flip⟩

theorem exists_same {α β : Type*} {r : α → β → Prop} {u : List α} {v : List β} (h : List.Forall₂ r u v) {y : β} (hy : y ∈ v) :
    ∃ x ∈ u, r x y := by
  obtain ⟨v₁, v₂, rfl⟩ := List.append_of_mem hy
  obtain ⟨u₁, u₂, rfl, -, hcons⟩ := forall₂_append h.flip
  obtain ⟨x, u', hx, -, rfl⟩ := List.forall₂_cons_left_iff.mp hcons
  exact ⟨x, List.mem_append_right _ List.mem_cons_self, hx⟩

end Bucket

def turnAt (seconds : Nat) (cost : Int) : Attempt := ⟨⟨seconds, 0, by decide⟩, cost⟩

end RateLimit

/-! ### The sliding windows -/

namespace EdgarClient
open SlidingWindow (Answer answer record recent)

section Oldest
variable {α : Type*} [LinearOrder α] {u v : List α}

theorem min?_perm (h : u.Perm v) : u.min? = v.min? := by
  refine Option.ext fun x => ?_
  rw [List.min?_eq_some_iff, List.min?_eq_some_iff]
  simp only [h.mem_iff]

theorem head?_sorted (h : u.Pairwise (· ≤ ·)) : u.head? = u.min? := by
  cases u with
  | nil => rfl
  | cons x u =>
    refine (List.min?_eq_some_iff.mpr ⟨List.mem_cons_self, fun y hy => ?_⟩).symm
    rcases List.mem_cons.mp hy with rfl | hy
    · exact le_rfl
    · exact List.rel_of_pairwise_cons h hy

/-- The times that leave a sorted deque. -/
theorem dropWhile_sorted (h : u.Pairwise (· ≤ ·)) (x : α) : u.dropWhile (· ≤ x) = u.filter (x < ·) := by
  induction u with
  | nil => rfl
  | cons y u ih =>
    obtain ⟨hfirst, hsorted⟩ := List.pairwise_cons.mp h
    by_cases hy : y ≤ x
    · rw [List.dropWhile_cons_of_pos (by simpa using hy), ih hsorted, List.filter_cons_of_neg (by simpa using hy)]
    · rw [List.dropWhile_cons_of_neg (by simpa using hy), List.filter_eq_self.mpr]
      intro z hz
      refine decide_eq_true ((not_le.mp hy).trans_le ?_)
      rcases List.mem_cons.mp hz with rfl | hz
      · exact le_rfl
      · exact hfirst z hz

end Oldest

section Redis
variable {l : RedisSlidingWindowLimiter} {key : ExpiringKey SortedSet} {log : List Int} {now : Int} {used : List String}
  {a : Attempt} {turns : List Attempt}

/-- A key that has the recent grants of a log at every time from now on, and no member but those that were added. -/
structure Shows (l : RedisSlidingWindowLimiter) (key : ExpiringKey SortedSet) (log : List Int) (now : Int)
    (used : List String) : Prop where
  recent : ∀ t : ServerTime, now ≤ t.us →
    (((key.read t).getD .empty).zremUpTo (t.us - l.windowUs)).scores.Perm (recent l.windowUs t.us log)
  past : ∀ g ∈ log, g ≤ now
  members : ∀ t, ((key.read t).getD .empty).members ⊆ used

theorem shows_absent : Shows l .absent [] now [] where
  recent t _ := List.Perm.refl _
  past := by simp
  members t := List.Subset.refl _

/-- Grants that are out of the window. -/
theorem recent_eq_nil {window : Int} (h : ∀ g ∈ log, g ≤ now - window) : recent window now log = [] :=
  List.filter_eq_nil_iff.mpr fun g hg => by simpa using h g hg

/-- A set that was trimmed and is trimmed again. -/
theorem zremUpTo_zremUpTo {s : SortedSet} {max max' : Int} (h : max ≤ max') :
    ((s.zremUpTo max).zremUpTo max').scores = (s.zremUpTo max').scores := by
  rw [SortedSet.scores_zremUpTo, SortedSet.scores_zremUpTo, SortedSet.scores_zremUpTo, List.filter_filter]
  refine List.filter_congr fun g _ => ?_
  have himp : max' < g → max < g := h.trans_lt
  simpa using himp

/-- A refused turn trims the set. -/
theorem shows_change (h : Shows l key log now used) {t : ServerTime} (ht : now ≤ t.us) :
    Shows l (key.change (((key.read t).getD .empty).zremUpTo (t.us - l.windowUs))) log t.us used where
  recent t' ht' := by
    have hrecent := h.recent t' (ht.trans ht')
    rw [ExpiringKey.read_change]
    cases hread : key.read t' with
    | none =>
      rw [hread] at hrecent
      exact hrecent
    | some s =>
      rw [hread] at hrecent
      rw [ExpiringKey.read_earlier ht' hread, Option.map_some, Option.getD_some, zremUpTo_zremUpTo (by omega)]
      exact hrecent
  past g hg := (h.past g hg).trans ht
  members t' := by
    rw [ExpiringKey.read_change]
    cases key.read t' with
    | none => exact List.nil_subset _
    | some s => exact fun m hm => h.members t (SortedSet.members_zremUpTo_subset _ _ hm)

/-- A granted turn adds its time; the key outlives the window. -/
theorem shows_grant (h : Shows l key log now used) {t : ServerTime} {member : String} (ht : now ≤ t.us) (hnew : member ∉ used) :
    Shows l (.expiring ((((key.read t).getD .empty).zremUpTo (t.us - l.windowUs)).zadd t.us member) t l.ttl)
      (t.us :: log) t.us (member :: used) where
  recent t' ht' := by
    rw [ExpiringKey.read_expiring]
    split
    · have hmember : member ∉ (((key.read t).getD .empty).zremUpTo (t.us - l.windowUs)).members :=
        fun hm => hnew (h.members t (SortedSet.members_zremUpTo_subset _ _ hm))
      have hscores := (@SortedSet.scores_zadd _ t.us _ hmember).trans ((h.recent t ht).cons t.us)
      rw [Option.getD_some, SortedSet.scores_zremUpTo]
      refine (hscores.filter _).trans (List.Perm.of_eq ?_)
      show recent l.windowUs t'.us (t.us :: recent l.windowUs t.us log) = recent l.windowUs t'.us (t.us :: log)
      have hcons (u : List Int) : recent l.windowUs t'.us (t.us :: u) =
          (if t'.us - l.windowUs < t.us then [t.us] else []) ++ recent l.windowUs t'.us u := by
        unfold SlidingWindow.recent
        rw [List.filter_cons]
        by_cases hyoung : t'.us - l.windowUs < t.us
        · simp [hyoung]
        · simp [hyoung]
      rw [hcons, hcons log, SlidingWindow.recent_recent ht']
    · next hdead =>
      have hold : t.us ≤ t'.us - l.windowUs := by
        rw [ServerTime.ms_eq, ServerTime.ms_eq] at hdead
        unfold RedisSlidingWindowLimiter.ttl at hdead
        omega
      rw [recent_eq_nil (List.forall_mem_cons.mpr ⟨hold, fun g hg => ((h.past g hg).trans ht).trans hold⟩)]
      exact List.Perm.refl _
  past := List.forall_mem_cons.mpr ⟨le_rfl, fun g hg => (h.past g hg).trans ht⟩
  members t' := by
    rw [ExpiringKey.read_expiring]
    split
    · intro m hm
      rcases SortedSet.mem_members_zadd hm with rfl | hm
      · exact List.mem_cons_self
      · exact List.mem_cons_of_mem _ (h.members t (SortedSet.members_zremUpTo_subset _ _ hm))
    · exact List.nil_subset _

/-- A turn answers as the log does and leaves the key with its grants. -/
theorem attempt_shows (h : Shows l key log now used) (ht : now ≤ a.time.us) (hnew : a.member ∉ used) :
    (l.attempt key a).1 = answer l.windowUs l.limit a.time.us log ∧
      Shows l (l.attempt key a).2 (record l.windowUs l.limit a.time.us log) a.time.us (a.member :: used) := by
  have hrecent := h.recent a.time ht
  unfold RedisSlidingWindowLimiter.attempt answer record
  dsimp only
  rw [SortedSet.lowest_eq_min?, min?_perm hrecent, ← SortedSet.length_scores, hrecent.length_eq]
  split
  · next hroom =>
    rw [if_pos (SlidingWindow.answer_granted.mpr hroom)]
    exact ⟨rfl, shows_grant h ht hnew⟩
  · next hfull =>
    rw [if_neg (mt SlidingWindow.answer_granted.mp hfull)]
    have hkept := shows_change h ht
    refine ⟨?_, hkept.recent, hkept.past, fun t m hm => List.mem_cons_of_mem _ (hkept.members t hm)⟩
    cases (recent l.windowUs a.time.us log).min? <;> rfl

/-- The turns of all workers are those of one log. -/
theorem attempts_eq_trace (h : Shows l key log now used) (hlater : ∀ a ∈ turns, now ≤ a.time.us)
    (hsorted : turns.Pairwise fun a a' => a.time.us ≤ a'.time.us) (hnew : (turns.map (·.member)).Nodup)
    (hused : ∀ a ∈ turns, a.member ∉ used) :
    l.attempts key turns = SlidingWindow.trace l.windowUs l.limit log (turns.map (·.time.us)) := by
  induction turns generalizing key log now used with
  | nil => rfl
  | cons a turns ih =>
    obtain ⟨hfirst, hsorted⟩ := List.pairwise_cons.mp hsorted
    obtain ⟨hnotin, hnew⟩ := List.nodup_cons.mp hnew
    obtain ⟨hanswer, hshows⟩ := attempt_shows h (hlater a List.mem_cons_self) (hused a List.mem_cons_self)
    have hrest := ih hshows hfirst hsorted hnew fun a' ha' hmem => by
      rcases List.mem_cons.mp hmem with heq | hmem
      · exact hnotin (List.mem_map.mpr ⟨a', ha', heq⟩)
      · exact hused a' (List.mem_cons_of_mem _ ha') hmem
    show (a.time.us, (l.attempt key a).1) :: l.attempts (l.attempt key a).2 turns = _
    rw [hanswer, hrest]
    rfl

/-- In turns of any number of workers, a half-open window of the configured length has at most the limit of grants, and a turn
    that is not granted is told a positive wait, after which it is granted unless another one was before. -/
theorem edgar_limit_holds (l : RedisSlidingWindowLimiter) {turns : List Attempt}
    (hsorted : turns.Pairwise fun a a' => a.time.us ≤ a'.time.us) (hmembers : (turns.map (·.member)).Nodup) :
    (∀ first, (SlidingWindow.grants (l.attempts .absent turns)).countP
      (fun g => first ≤ g ∧ g < first + l.windowUs) ≤ l.limit) ∧
    (∀ first, (SlidingWindow.grants (l.attempts .absent turns)).countP
      (fun g => first < g ∧ g ≤ first + l.windowUs) ≤ l.limit) ∧
    (∀ x ∈ l.attempts .absent turns,
      x.2 = .granted ∨ (∃ wait, 0 < wait ∧ x.2 = .wait wait) ∨ (x.2 = .failed ∧ l.limit = 0)) ∧
    ∀ before now wait mid later answer after,
      l.attempts .absent turns = before ++ (now, .wait wait) :: mid ++ (later, answer) :: after →
        (∀ x ∈ mid, x.2 ≠ .granted) → now + wait ≤ later → answer = .granted := by
  have hkeeps : SlidingWindow.Keeps l.windowUs l.limit (l.attempts .absent turns) := by
    have hzero : ∀ a ∈ turns, 0 ≤ a.time.us := fun a _ => by
      unfold ServerTime.us
      omega
    rw [attempts_eq_trace shows_absent hzero hsorted hmembers (by simp)]
    exact SlidingWindow.keeps_trace (List.pairwise_map.mpr hsorted)
  refine ⟨hkeeps.closed_open, hkeeps.open_closed, fun x hx => ?_, hkeeps.retried⟩
  cases hanswer : x.2 with
  | granted => exact .inl rfl
  | wait time => exact .inr (.inl ⟨time, hkeeps.waits x hx time hanswer, rfl⟩)
  | failed => exact .inr (.inr ⟨rfl, hkeeps.answered x hx hanswer⟩)

end Redis

/-- One request in one window of a second. -/
def oneInSecond : RedisSlidingWindowLimiter := ⟨1, 1000000⟩

def turnAt (seconds : Nat) (member : String) : Attempt := ⟨⟨seconds, 0, by decide⟩, member⟩

/-- The second worker waits until the first one's grant is exactly one window old. -/
theorem oneInSecond_waits : ∃ last : Answer Int,
    oneInSecond.attempts .absent [turnAt 5 "a", turnAt 5 "b", turnAt 6 "c"] =
        [(5000000, .granted), (5000000, .wait 1000000), (6000000, last)] ∧ last = .granted ∧
      (SlidingWindow.grants (oneInSecond.attempts .absent [turnAt 5 "a", turnAt 5 "b", turnAt 6 "c"])).countP
        (fun g => 5000000 ≤ g ∧ g < 5000000 + oneInSecond.windowUs) ≤ oneInSecond.limit := by
  have hanswers : oneInSecond.attempts .absent [turnAt 5 "a", turnAt 5 "b", turnAt 6 "c"] =
      [(5000000, .granted), (5000000, .wait 1000000), (6000000, .granted)] := by decide
  obtain ⟨hwindow, -, -, hretry⟩ := @edgar_limit_holds oneInSecond [turnAt 5 "a", turnAt 5 "b", turnAt 6 "c"]
    (by decide) (by decide)
  refine ⟨.granted, hanswers, ?_, hwindow 5000000⟩
  exact hretry [(5000000, .granted)] 5000000 1000000 [] 6000000 .granted [] hanswers (by simp) (by decide)

section Local
variable {T : Type*} [AddCommGroup T] [LinearOrder T] [IsOrderedAddMonoid T] {l : LocalSlidingWindowLimiter T}
  {times log attempts : List T} {now : T}

/-- A deque, the oldest first, that has the recent grants of a log at every time from now on. -/
structure Holds (l : LocalSlidingWindowLimiter T) (times log : List T) (now : T) : Prop where
  recent : ∀ t, now ≤ t → times.filter (t - l.windowS < ·) = (recent l.windowS t log).reverse
  sorted : times.Pairwise (· ≤ ·)
  past : ∀ g ∈ times, g ≤ now

/-- A turn answers as the log does. -/
theorem attempt_holds {t : T} (h : Holds l times log now) (ht : now ≤ t) :
    (l.attempt times t).1 = answer l.windowS l.limit t log ∧
      Holds l (l.attempt times t).2 (record l.windowS l.limit t log) t := by
  have hrecent := h.recent t ht
  have hsorted := h.sorted.filter fun g => t - l.windowS < g
  have hpast : ∀ g ∈ times.filter (t - l.windowS < ·), g ≤ t := fun g hg => (h.past g (List.mem_of_mem_filter hg)).trans ht
  have hlater : ∀ t', t ≤ t' → (times.filter (t - l.windowS < ·)).filter (t' - l.windowS < ·) =
      (recent l.windowS t' log).reverse := fun t' ht' => by
    rw [hrecent, List.filter_reverse]
    exact congrArg List.reverse (SlidingWindow.recent_recent ht')
  have hmin : (times.filter (t - l.windowS < ·)).min? = (recent l.windowS t log).min? :=
    hrecent ▸ min?_perm (List.reverse_perm _)
  have hlength : (times.filter (t - l.windowS < ·)).length = (recent l.windowS t log).length := by
    rw [hrecent, List.length_reverse]
  unfold LocalSlidingWindowLimiter.attempt answer record
  dsimp only
  rw [dropWhile_sorted h.sorted, head?_sorted hsorted, hmin, hlength]
  split
  · next hroom =>
    rw [if_pos (SlidingWindow.answer_granted.mpr hroom)]
    refine ⟨rfl, fun t' ht' => ?_, List.pairwise_append.mpr ⟨hsorted, List.pairwise_singleton .., ?_⟩, ?_⟩
    · rw [List.filter_append, hlater t' ht']
      unfold recent
      rw [List.filter_cons]
      by_cases hyoung : t' - l.windowS < t
      · simp [hyoung]
      · simp [hyoung]
    · simpa using hpast
    · intro g hg
      rcases List.mem_append.mp hg with hg | hg
      · exact hpast g hg
      · exact (List.mem_singleton.mp hg).le
  · next hfull =>
    rw [if_neg (mt SlidingWindow.answer_granted.mp hfull)]
    refine ⟨?_, hlater, hsorted, hpast⟩
    cases (recent l.windowS t log).min? <;> rfl

theorem attempts_holds (h : Holds l times log now) (hlater : ∀ t ∈ attempts, now ≤ t) (hsorted : attempts.Pairwise (· ≤ ·)) :
    l.attempts times attempts = SlidingWindow.trace l.windowS l.limit log attempts := by
  induction attempts generalizing times log now with
  | nil => rfl
  | cons t attempts ih =>
    obtain ⟨hfirst, hsorted⟩ := List.pairwise_cons.mp hsorted
    obtain ⟨hanswer, hholds⟩ := attempt_holds h (hlater t List.mem_cons_self)
    show (t, (l.attempt times t).1) :: l.attempts (l.attempt times t).2 attempts = _
    rw [hanswer, ih hholds hfirst hsorted]
    rfl

/-- The limiter of one process keeps the same limit. -/
theorem local_limit_holds (l : LocalSlidingWindowLimiter T) (hsorted : attempts.Pairwise (· ≤ ·)) :
    SlidingWindow.Keeps l.windowS l.limit (l.attempts [] attempts) := by
  cases attempts with
  | nil => exact @SlidingWindow.keeps_trace T _ _ l.windowS l.limit _ [] .nil
  | cons t attempts =>
    have hlater : ∀ t' ∈ t :: attempts, t ≤ t' :=
      List.forall_mem_cons.mpr ⟨le_rfl, (List.pairwise_cons.mp hsorted).1⟩
    have hempty : Holds l [] [] t := ⟨fun _ _ => rfl, .nil, by simp⟩
    rw [attempts_holds hempty hlater hsorted]
    exact SlidingWindow.keeps_trace hsorted

end Local
end EdgarClient
end AsymmetricCommittee
