import AsymmetricCommittee.Contracts.Samples
import AsymmetricCommittee.Ingest.Scheduled

/-! Freshness is earned. Whatever units of a poll fail, the rows of the others are inserted, each where no row has its key,
    and the last success moves to the poll's time exactly when there were units and all of them succeeded. -/

namespace AsymmetricCommittee
namespace Scheduled
open KeyedTable

variable {K : Type} [Field K] [LinearOrder K] {p : Poll K} {u : IngestUnit K} {us : List (IngestUnit K)}
  {facts : List (FactRow K)} {db db' : FeedTables K} {feed : FeedName}

/-! ### One unit -/

theorem insertChunks_ok {refuses : List (FactRow K) → List (FactRow K) → Option UnitError} {pieces : List (List (FactRow K))}
    {facts facts' : List (FactRow K)} {inserted n : Nat} (h : insertChunks refuses pieces facts inserted = (.ok n, facts')) :
    facts' = insertAll factKey facts pieces.flatten := by
  induction pieces generalizing facts inserted with
  | nil =>
    rw [insertChunks, Prod.mk.injEq] at h
    exact h.2.symm
  | cons chunk pieces ih =>
    rw [insertChunks] at h
    split at h
    · cases (Prod.mk.inj h).1
    · rw [List.flatten_cons, insertAll_append]
      exact ih h

/-- The rows that the sources answer a unit. -/
def rowsOf (u : IngestUnit K) : List (FactRow K) :=
  match u.fetch with
  | .ok rows => rows
  | .error _ => []

/-- Whether the unit succeeds, on the rows that there are. -/
def succeeds (p : Poll K) (u : IngestUnit K) (facts : List (FactRow K)) : Bool := (beginNested p u facts).1.isOk

/-- A unit stores all of its rows, or leaves what there was. -/
theorem beginNested_facts (p : Poll K) (u : IngestUnit K) (facts : List (FactRow K)) :
    (beginNested p u facts).2 = if succeeds p u facts then insertAll factKey facts (rowsOf u) else facts := by
  rw [succeeds, beginNested]
  split
  · next n facts' hload =>
    rw [load] at hload
    split at hload
    · cases (Prod.mk.inj hload).1
    · next rows hfetch =>
      split at hload
      · next hchunks =>
        obtain ⟨-, hfacts⟩ := Prod.mk.inj hload
        rw [← hfacts]
        have hrows : rowsOf u = rows := by rw [rowsOf, hfetch]
        have hok : (Except.ok n : Except UnitError (Nat × Option AwareDatetime)).isOk = true := rfl
        rw [if_pos hok, hrows, insertChunks_ok hchunks, flatten_chunks (by decide)]
      · cases (Prod.mk.inj hload).1
  · rfl

theorem pollUnit_facts (p : Poll K) (s : Progress K) (u : IngestUnit K) :
    (pollUnit p s u).facts = (beginNested p u s.facts).2 := by
  rw [pollUnit]
  split <;> next h => rw [h]

theorem pollUnit_errors (p : Poll K) (s : Progress K) (u : IngestUnit K) :
    (pollUnit p s u).errors = [] ↔ s.errors = [] ∧ succeeds p u s.facts = true := by
  rw [pollUnit, succeeds]
  split
  · next h => simp [h, Except.isOk, Except.toBool]
  · next h => simp [h, Except.isOk, Except.toBool]

/-! ### The units of a poll -/

/-- The units with the rows that each begins on. -/
def turns (p : Poll K) : List (FactRow K) → List (IngestUnit K) → List (IngestUnit K × List (FactRow K))
  | _, [] => []
  | facts, u :: us => (u, facts) :: turns p (beginNested p u facts).2 us

/-- The rows of the units that succeed, in their order. -/
def storedRows (p : Poll K) (facts : List (FactRow K)) (us : List (IngestUnit K)) : List (FactRow K) :=
  (turns p facts us).flatMap fun t => if succeeds p t.1 t.2 then rowsOf t.1 else []

/-- There are units, and every one succeeds. -/
def AllSucceed (p : Poll K) (facts : List (FactRow K)) (us : List (IngestUnit K)) : Prop :=
  us ≠ [] ∧ ∀ t ∈ turns p facts us, succeeds p t.1 t.2 = true

theorem storedRows_cons (p : Poll K) (facts : List (FactRow K)) (u : IngestUnit K) (us : List (IngestUnit K)) :
    storedRows p facts (u :: us) =
      (if succeeds p u facts then rowsOf u else []) ++ storedRows p (beginNested p u facts).2 us := by
  rw [storedRows, turns, List.flatMap_cons, storedRows]

theorem foldl_pollUnit (p : Poll K) (s : Progress K) (us : List (IngestUnit K)) :
    (us.foldl (pollUnit p) s).facts = insertAll factKey s.facts (storedRows p s.facts us) ∧
      ((us.foldl (pollUnit p) s).errors = [] ↔
        s.errors = [] ∧ ∀ t ∈ turns p s.facts us, succeeds p t.1 t.2 = true) := by
  induction us generalizing s with
  | nil => exact ⟨rfl, by simp [turns]⟩
  | cons u us ih =>
    obtain ⟨hfacts, herrors⟩ := ih (pollUnit p s u)
    rw [pollUnit_facts] at hfacts herrors
    rw [List.foldl_cons]
    refine ⟨?_, ?_⟩
    · rw [hfacts, storedRows_cons, insertAll_append, beginNested_facts]
      cases succeeds p u s.facts <;> rfl
    · rw [herrors, pollUnit_errors, turns, List.forall_mem_cons, and_assoc]

theorem chunks_eq_nil {l : List Ticker} : chunks newsBatch l = [] ↔ l = [] := by
  constructor
  · intro h
    rw [← flatten_chunks (n := newsBatch) (by decide) l, h]
    rfl
  · rintro rfl
    rfl

theorem keys_foldl_set (secs : List Security) :
    (secs.foldl (fun (sids : Dict Ticker SecurityId) s => sids.set s.ticker s.securityId) Dict.empty).keys = [] ↔
      secs = [] := by
  constructor
  · intro h
    rcases secs with - | ⟨s, secs⟩
    · rfl
    · have hsome : (((s :: secs).foldl (fun (sids : Dict Ticker SecurityId) s => sids.set s.ticker s.securityId)
          Dict.empty).get? s.ticker).isSome := Dict.isSome_get?_foldl_set (.inl ⟨s, List.mem_cons_self, rfl⟩)
      have hnone := Dict.get?_eq_none.mpr (h ▸ List.not_mem_nil : s.ticker ∉ Dict.keys _)
      rw [hnone] at hsome
      cases hsome
  · rintro rfl
    rfl

/-- A poll has units when names are listed. -/
theorem units_eq_nil {secs : List Security} (h : units p secs = some us) : us = [] ↔ secs = [] := by
  have hmap : ∀ {f : Security → IngestUnit K}, secs.map f = us → (us = [] ↔ secs = []) := by
    rintro f rfl
    exact List.map_eq_nil_iff
  rw [units] at h
  split at h
  · exact hmap (Option.some.inj h)
  · rw [← Option.some.inj h, List.map_eq_nil_iff, chunks_eq_nil, ← keys_foldl_set secs, ← List.length_eq_zero_iff,
      List.length_insertionSort, List.length_eq_zero_iff]
  · exact hmap (Option.some.inj h)
  · exact hmap (Option.some.inj h)
  · cases h
  · cases h

/-! ### The outcome -/

/-- The row of a feed. -/
def health? (db : FeedTables K) (feed : FeedName) : Option FeedHealth := find FeedHealth.feed db.feedHealth feed

/-- The time of the last success, if any. -/
def lastSuccess (db : FeedTables K) (feed : FeedName) : Option AwareDatetime := (health? db feed).bind (·.lastSuccessAt)

def lastError (db : FeedTables K) (feed : FeedName) : Option String := (health? db feed).bind (·.lastError)

theorem find_recordFeedRun (health : List FeedHealth) (feed : FeedName) (at_ : AwareDatetime) (rows : Nat)
    (last : Option AwareDatetime) (error : Option String) :
    (∃ h, find FeedHealth.feed (recordFeedRun health feed at_ rows last error) feed = some h ∧ h.lastError = error ∧
      h.lastSuccessAt = if error.isNone then some at_ else (find FeedHealth.feed health feed).bind (·.lastSuccessAt)) ∧
    ∀ other, other ≠ feed → find FeedHealth.feed (recordFeedRun health feed at_ rows last error) other =
      find FeedHealth.feed health other := by
  rw [recordFeedRun]
  cases hfind : find FeedHealth.feed health feed with
  | none =>
    have hown : find FeedHealth.feed (health ++ [⟨feed, if error.isNone then some at_ else none, last, rows, error, at_⟩])
        feed = some ⟨feed, if error.isNone then some at_ else none, last, rows, error, at_⟩ := by
      rw [find_append, hfind, Option.none_or, find_cons, if_pos rfl]
    refine ⟨⟨_, hown, rfl, rfl⟩, fun other hother => ?_⟩
    rw [find_append, find_cons, if_neg (Ne.symm hother)]
    exact Option.or_none
  | some h =>
    have hmodify := fun k => @find_modify FeedHealth FeedName _ FeedHealth.feed (fun h => { h with
        lastSuccessAt := if error.isNone then some at_ else h.lastSuccessAt
        lastAvailableAt := later h.lastAvailableAt last
        rows := h.rows + rows
        lastError := error
        updatedAt := at_ }) (fun _ => rfl) health feed k
    have hown := hmodify feed
    rw [if_pos rfl, hfind, Option.map_some] at hown
    exact ⟨⟨_, hown, rfl, rfl⟩, fun other hother => (hmodify other).trans (if_neg hother)⟩

/-- What a poll of a feed with an ingest job leaves. -/
structure Polled (p : Poll K) (us : List (IngestUnit K)) (db db' : FeedTables K) : Prop where
  /-- Freshness is earned. -/
  fresh : AllSucceed p db.facts us → lastSuccess db' p.feed = some p.now ∧ lastError db' p.feed = none
  /-- A failed poll keeps the last success and says why it failed. -/
  failed : ¬AllSucceed p db.facts us →
    lastSuccess db' p.feed = lastSuccess db p.feed ∧ ∃ text, lastError db' p.feed = some text
  /-- A key finds what it found before, or else the first row with it of a unit that succeeded. -/
  stored : ∀ k, find factKey db'.facts k = (find factKey db.facts k).or (find factKey (storedRows p db.facts us) k)
  /-- Nothing else is stored, and nothing of a failed unit. -/
  only : ∀ r ∈ db'.facts, r ∈ db.facts ∨ ∃ t ∈ turns p db.facts us, succeeds p t.1 t.2 = true ∧ r ∈ rowsOf t.1
  keeps : db.facts <+: db'.facts
  others : ∀ other, other ≠ p.feed → health? db' other = health? db other

theorem mem_storedRows {r : FactRow K} (h : r ∈ storedRows p facts us) :
    ∃ t ∈ turns p facts us, succeeds p t.1 t.2 = true ∧ r ∈ rowsOf t.1 := by
  obtain ⟨t, ht, hr⟩ := List.mem_flatMap.mp h
  split at hr
  · next hok => exact ⟨t, ht, hok, hr⟩
  · cases hr

theorem poll_eq (db : FeedTables K) (h : units p (listed p.securities (utcDate p.now)) = some us) :
    ∃ rows last error, (error = none ↔ AllSucceed p db.facts us) ∧ poll db p =
      ⟨insertAll factKey db.facts (storedRows p db.facts us), recordFeedRun db.feedHealth p.feed p.now rows last error⟩ := by
  have hnil := units_eq_nil h
  rw [poll, runFeed]
  generalize listed p.securities (utcDate p.now) = secs at h hnil
  simp only [h]
  generalize hstart : (if secs = [] then ["no listed securities to ingest"] else [] : List String) = start
  obtain ⟨hfacts, herrors⟩ := foldl_pollUnit p ⟨db.facts, 0, none, start⟩ us
  generalize us.foldl (pollUnit p) ⟨db.facts, 0, none, start⟩ = s at hfacts herrors
  have hstart' : start = [] ↔ us ≠ [] := by
    rw [← hstart, ne_eq, hnil]
    by_cases hsecs : secs = [] <;> simp [hsecs]
  refine ⟨s.rows, s.latest, _, ?_, by rw [hfacts]⟩
  rw [AllSucceed, ← hstart', ← herrors]
  by_cases hs : s.errors = [] <;> simp [hs]

theorem poll_polled (db : FeedTables K) (h : units p (listed p.securities (utcDate p.now)) = some us) :
    Polled p us db (poll db p) := by
  obtain ⟨rows, last, error, herror, hpoll⟩ := poll_eq db h
  obtain ⟨⟨row, hrow, hrowError, hsuccess⟩, hothers⟩ := find_recordFeedRun db.feedHealth p.feed p.now rows last error
  rw [hpoll]
  refine ⟨fun hok => ?_, fun hno => ?_, fun k => find_insertAll _ _ k, fun r hr => ?_, prefix_insertAll _ _, hothers⟩
  · rw [herror.mpr hok] at hrow hrowError hsuccess
    rw [lastSuccess, lastError, health?, herror.mpr hok, hrow]
    exact ⟨hsuccess, hrowError⟩
  · obtain ⟨text, rfl⟩ := Option.ne_none_iff_exists'.mp (mt herror.mp hno)
    rw [lastSuccess, lastError, health?, hrow]
    exact ⟨hsuccess, text, hrowError⟩
  · exact (mem_of_mem_insertAll hr).imp_right mem_storedRows

/-- A feed without an ingest job is refused, and nothing changes. -/
theorem poll_no_job (db : FeedTables K) (h : units p (listed p.securities (utcDate p.now)) = none) : poll db p = db := by
  rw [poll, runFeed]
  simp only [h]

/-- No two rows have one key, after a poll too. -/
theorem poll_unique (hunique : Unique factKey db.facts) (p : Poll K) : Unique factKey (poll db p).facts := by
  cases h : units p (listed p.securities (utcDate p.now)) with
  | none => rwa [poll_no_job db h]
  | some us =>
    obtain ⟨rows, last, error, -, hpoll⟩ := poll_eq db h
    rw [hpoll]
    exact unique_insertAll hunique _

/-! ### Sequences of polls -/

theorem polls_concat (db : FeedTables K) (ps : List (Poll K)) (p : Poll K) : polls db (ps ++ [p]) = poll (polls db ps) p := by
  rw [polls, List.foldl_append, List.foldl_cons, List.foldl_nil, polls]

theorem polls_unique (hunique : Unique factKey db.facts) (ps : List (Poll K)) : Unique factKey (polls db ps).facts := by
  induction ps using List.reverseRecOn with
  | nil => exact hunique
  | append_singleton ps p ih =>
    rw [polls_concat]
    exact poll_unique ih p

/-- One of the polls is of the feed and at the time, and all of its units succeeded. -/
def Earned (db : FeedTables K) (ps : List (Poll K)) (feed : FeedName) (t : AwareDatetime) : Prop :=
  ∃ (before : List (Poll K)) (p : Poll K) (after : List (Poll K)) (us : List (IngestUnit K)),
    ps = before ++ p :: after ∧ p.feed = feed ∧ p.now = t ∧
      units p (listed p.securities (utcDate p.now)) = some us ∧ AllSucceed p (polls db before).facts us

theorem Earned.append {ps : List (Poll K)} {t : AwareDatetime} (h : Earned db ps feed t) (p : Poll K) :
    Earned db (ps ++ [p]) feed t := by
  obtain ⟨before, q, after, us, rfl, hq⟩ := h
  exact ⟨before, q, after ++ [p], us, by rw [List.append_assoc, List.cons_append], hq⟩

/-- A feed's last success is that of a poll all of whose units succeeded, or was there before. -/
theorem lastSuccess_earned (ps : List (Poll K)) {t : AwareDatetime} (h : lastSuccess (polls db ps) feed = some t) :
    lastSuccess db feed = some t ∨ Earned db ps feed t := by
  induction ps using List.reverseRecOn with
  | nil => exact .inl h
  | append_singleton ps p ih =>
    have hearlier (hlast : lastSuccess (polls db ps) feed = some t) :
        lastSuccess db feed = some t ∨ Earned db (ps ++ [p]) feed t := (ih hlast).imp_right fun he => he.append p
    rw [polls_concat] at h
    cases hunits : units p (listed p.securities (utcDate p.now)) with
    | none =>
      rw [poll_no_job _ hunits] at h
      exact hearlier h
    | some us =>
      have hpolled := poll_polled (polls db ps) hunits
      by_cases hfeed : p.feed = feed
      · by_cases hall : AllSucceed p (polls db ps).facts us
        · have hnow := (hpolled.fresh hall).1
          rw [hfeed, h] at hnow
          exact .inr ⟨ps, p, [], us, rfl, hfeed, (Option.some.inj hnow).symm, hunits, hall⟩
        · have hkept := (hpolled.failed hall).1
          rw [hfeed, h] at hkept
          exact hearlier hkept.symm
      · have hother := hpolled.others feed (Ne.symm hfeed)
        rw [lastSuccess, hother] at h
        exact hearlier h

/-- After any polls, a poll of a feed with an ingest job moves the last success exactly when it is earned and stores the
    rows of the units that succeed where no row has their key; a feed without a job changes nothing. No two rows ever
    have one key. -/
theorem polls_freshness (hunique : Unique factKey db.facts) (before : List (Poll K)) (p : Poll K) :
    (∀ us, units p (listed p.securities (utcDate p.now)) = some us →
      Polled p us (polls db before) (polls db (before ++ [p]))) ∧
    (units p (listed p.securities (utcDate p.now)) = none → polls db (before ++ [p]) = polls db before) ∧
    Unique factKey (polls db (before ++ [p])).facts := by
  refine ⟨fun us hunits => ?_, fun hnone => ?_, polls_unique hunique _⟩
  · rw [polls_concat]
    exact poll_polled _ hunits
  · rw [polls_concat]
    exact poll_no_job _ hnone

/-! ### An item received twice -/

section Twice

theorem one_listed : [(⟨1, Samples.one_securityId⟩ : SecurityId)] ≠ [] := List.cons_ne_nil _ _

/-- One revision of an item, by when it was received. -/
def article (received : AwareDatetime) : NewsItem where
  eventTime := ⟨0, 0⟩
  availableAt := received
  sourceVersion := ⟨"v1", Samples.label_v1⟩
  itemId := ⟨"n1", Samples.label_n1⟩
  securityIds := [⟨1, Samples.one_securityId⟩]
  publishedAt := ⟨0, 0⟩
  headline := ⟨"h", Samples.headline_h⟩
  summary := ⟨"", Samples.summary_empty⟩
  bodyHash := ⟨"0000000000000000000000000000000000000000000000000000000000000000", Samples.sha256_zeros⟩
  source := .alpaca
  publisher := ⟨"", Samples.publisher_empty⟩
  url := ⟨"", Samples.url_empty⟩
  securityIds_nonempty := one_listed

/-- A source of one item, and of nothing else. -/
def articleSource : Sources ℚ where
  history _ _ _ _ _ := .ok []
  fetchNews _ _ _ _ received := .ok [article received]
  fetchCompany _ _ := .ok []
  fetchFundamentals _ _ _ := .ok []
  fetchInsiderTxns _ _ _ := .ok []

theorem ticker_alfa : isTicker "ALFA" = true := by decide

/-- The news is polled for one name. -/
def newsPoll (now : AwareDatetime) : Poll ℚ where
  feed := .news
  now := now
  lookback := 0
  securities := [⟨⟨1, Samples.one_securityId⟩, ⟨"ALFA", ticker_alfa⟩, 1, none, none⟩]
  et := utcDate
  src := articleSource
  refuses _ _ := none

def noFacts : FeedTables ℚ := ⟨[], []⟩

def newsUnit (now : AwareDatetime) : IngestUnit ℚ := ⟨"ALFA", .ok [.newsItem (article now)]⟩

theorem noFacts_unique : Unique factKey noFacts.facts := List.nodup_nil

/-- Two polls keep the freshness of the second and one row. -/
theorem polls_freshness_twice :
    lastSuccess (polls noFacts [newsPoll ⟨0, 0⟩, newsPoll ⟨1, 0⟩]) .news = some ⟨1, 0⟩ ∧
      Unique factKey (polls noFacts [newsPoll ⟨0, 0⟩, newsPoll ⟨1, 0⟩]).facts := by
  have hpolls := polls_freshness noFacts_unique [newsPoll ⟨0, 0⟩] (newsPoll ⟨1, 0⟩)
  refine ⟨((hpolls.1 [newsUnit ⟨1, 0⟩] rfl).fresh ⟨List.cons_ne_nil _ _, fun t ht => ?_⟩).1, hpolls.2.2⟩
  rw [List.mem_singleton.mp ht]
  rfl

/-- The unit of the second poll succeeds, and its row is not stored: its revision is there already. -/
theorem repolled_row_not_stored :
    succeeds (newsPoll ⟨1, 0⟩) (newsUnit ⟨1, 0⟩) (polls noFacts [newsPoll ⟨0, 0⟩]).facts = true ∧
      .newsItem (article ⟨1, 0⟩) ∈ rowsOf (newsUnit ⟨1, 0⟩) ∧
      .newsItem (article ⟨1, 0⟩) ∉ (polls noFacts [newsPoll ⟨0, 0⟩, newsPoll ⟨1, 0⟩]).facts := by
  have hfacts : (polls noFacts [newsPoll ⟨0, 0⟩, newsPoll ⟨1, 0⟩]).facts = [.newsItem (article ⟨0, 0⟩)] := rfl
  refine ⟨rfl, List.mem_cons_self, fun hmem => ?_⟩
  rw [hfacts, List.mem_singleton, FactRow.newsItem.injEq] at hmem
  have htime := congrArg (fun n : NewsItem => n.availableAt.instant) hmem
  exact absurd htime (by decide)

end Twice

end Scheduled
end AsymmetricCommittee
