import AsymmetricCommittee.Ingest.Pages
import AsymmetricCommittee.Lib.Except

/-! The page walks against a server that may answer anything. The trades' loop is bounded by its range and refuses a token
    it has seen, so that it returns the pages of a chain that ended or raises. The loops of the bars and of the news have
    no guard: they stop exactly when the server's chain does. -/

namespace AsymmetricCommittee
namespace Pages

variable {W α : Type} {server : Server W} {statuses : List Nat} {consume : Payload → Except PageError (List α)} {path : String}
  {params : List (String × String)} {token : Payload} {w : W}

/-! ### How long a server goes on -/

/-- The first pages of the server, as many as said, can be read and consumed and each names a next one. -/
def Chained (server : Server W) (statuses : List Nat) (consume : Payload → Except PageError (List α)) (path : String)
    (params : List (String × String)) : Nat → Payload → W → Prop
  | 0, _, _ => True
  | k + 1, token, w => ∃ items next, turn statuses consume (server (pageRequest path params token) w).1 = .ok (items, next) ∧
      truthy next = true ∧ Chained server statuses consume path params k next (server (pageRequest path params token) w).2

/-- The chain never ends. -/
def Endless (server : Server W) (statuses : List Nat) (consume : Payload → Except PageError (List α)) (path : String)
    (params : List (String × String)) (w : W) : Prop := ∀ k, Chained server statuses consume path params k .null w

/-- A walk, given the fuel it may use, stops after a bounded number of requests, and with an error on an endless chain. -/
def Ends (walk : Nat → Walk α W) (endless : Prop) : Prop :=
  ∃ bound, ∀ fuel, bound ≤ fuel → ∃ r, (walk fuel).outcome = some r ∧ (walk fuel).requests ≤ bound ∧
    (endless → ∃ e, r = .error e)

/-- While the chain goes on, so does the unguarded loop. -/
theorem outcome_of_chained {k : Nat} (h : Chained server [] consume path params k token w) :
    (pagesWhile server consume path params k token w).outcome = none := by
  induction k generalizing token w with
  | zero => rfl
  | succ k ih =>
    obtain ⟨items, next, hturn, htruthy, hrest⟩ := h
    rw [pagesWhile, hturn]
    simp only [htruthy, if_true, Walk.outcome_after, ih hrest, Option.map_none]

/-- When the chain ends the unguarded loop has made no more requests than the chain has pages. -/
theorem stops_of_not_chained {k fuel : Nat} (h : ¬Chained server [] consume path params k token w) (hfuel : k ≤ fuel) :
    ∃ r, (pagesWhile server consume path params fuel token w).outcome = some r ∧
      (pagesWhile server consume path params fuel token w).requests ≤ k := by
  induction k generalizing token w fuel with
  | zero => exact absurd trivial h
  | succ k ih =>
    obtain ⟨fuel, rfl⟩ := Nat.exists_eq_add_of_le' (Nat.le_of_add_left_le hfuel : 1 ≤ fuel)
    rw [pagesWhile]
    rcases hturn : turn [] consume (server (pageRequest path params token) w).1 with e | ⟨items, next⟩
    · exact ⟨_, rfl, Nat.le_add_left 1 k⟩
    · cases htruthy : truthy next with
      | false =>
        simp only [htruthy, Bool.false_eq_true, if_false]
        exact ⟨_, rfl, Nat.le_add_left 1 k⟩
      | true =>
        have hrest : ¬Chained server [] consume path params k next (server (pageRequest path params token) w).2 :=
          fun hrest => h ⟨items, next, hturn, htruthy, hrest⟩
        obtain ⟨r, hr, hrequests⟩ := ih hrest (Nat.le_of_succ_le_succ hfuel)
        simp only [htruthy, if_true, Walk.outcome_after, Walk.requests_after, hr]
        exact ⟨_, rfl, Nat.succ_le_succ hrequests⟩

/-- An unguarded loop ends if and only if the chain does. -/
theorem pagesWhile_ends_iff (server : Server W) (consume : Payload → Except PageError (List α)) (path : String)
    (params : List (String × String)) (w : W) :
    Ends (fun fuel => pagesWhile server consume path params fuel .null w) (Endless server [] consume path params w) ↔
      ¬Endless server [] consume path params w := by
  constructor
  · intro ⟨bound, h⟩ hendless
    obtain ⟨r, hr, -, -⟩ := h bound le_rfl
    rw [outcome_of_chained (hendless bound)] at hr
    cases hr
  · intro hends
    obtain ⟨k, hk⟩ := not_forall.mp hends
    refine ⟨k, fun fuel hfuel => ?_⟩
    obtain ⟨r, hr, hrequests⟩ := stops_of_not_chained hk hfuel
    exact ⟨r, hr, hrequests, fun hendless => absurd hendless hends⟩

/-- The trades' loop stops within its range, and with an error when the chain fills the range. -/
theorem tradePagesFrom_stops (server : Server W) (consume : Payload → Except PageError (List α)) (path : String)
    (params : List (String × String)) (left : Nat) (seen : List Payload) (token : Payload) (w : W) :
    ∃ r, (tradePagesFrom server consume path params left seen token w).outcome = some r ∧
      (tradePagesFrom server consume path params left seen token w).requests ≤ left ∧
      (Chained server refused consume path params left token w → ∃ e, r = .error e) := by
  induction left generalizing seen token w with
  | zero => exact ⟨_, rfl, le_rfl, fun _ => ⟨_, rfl⟩⟩
  | succ left ih =>
    rw [tradePagesFrom]
    rcases hturn : turn refused consume (server (pageRequest path params token) w).1 with e | ⟨items, next⟩
    · exact ⟨_, rfl, Nat.le_add_left 1 left, fun _ => ⟨e, rfl⟩⟩
    · have hchain : Chained server refused consume path params (left + 1) token w →
          truthy next = true ∧
            Chained server refused consume path params left next (server (pageRequest path params token) w).2 := by
        intro ⟨items', next', hturn', htruthy, hrest⟩
        rw [hturn] at hturn'
        cases hturn'
        exact ⟨htruthy, hrest⟩
      dsimp only
      split
      · next hlast => exact ⟨_, rfl, Nat.le_add_left 1 left, fun h => absurd (hchain h).1 hlast⟩
      · split
        · exact ⟨_, rfl, Nat.le_add_left 1 left, fun _ => ⟨_, rfl⟩⟩
        · split
          · exact ⟨_, rfl, Nat.le_add_left 1 left, fun _ => ⟨_, rfl⟩⟩
          · obtain ⟨r, hr, hrequests, herror⟩ := ih (seen ++ [next]) next
              (server (pageRequest path params token) w).2
            refine ⟨_, by rw [Walk.outcome_after, hr, Option.map_some], Nat.succ_le_succ hrequests, fun h => ?_⟩
            obtain ⟨e, rfl⟩ := herror (hchain h).2
            exact ⟨e, rfl⟩

theorem tradePages_ends (server : Server W) (consume : Payload → Except PageError (List α)) (symbol : String)
    (params : List (String × String)) (w : W) :
    Ends (fun _ => tradePages server consume symbol params w)
      (Endless server refused consume s!"/v2/stocks/{symbol}/trades" params w) := by
  refine ⟨maxPages, fun _ _ => ?_⟩
  obtain ⟨r, hr, hrequests, herror⟩ := tradePagesFrom_stops server consume s!"/v2/stocks/{symbol}/trades" params maxPages [] .null w
  exact ⟨r, hr, hrequests, fun hendless => herror (hendless maxPages)⟩

/-- The loops of the three clients end on every chain of pages if and only if the chains of the bars and of the news do; the
    trades' loop makes no more requests than it may. -/
theorem pageWalks_end_iff {W₁ W₂ W₃ α₁ α₂ α₃ : Type} (barServer : Server W₁) (newsServer : Server W₂) (tradeServer : Server W₃)
    (consumeBars : Payload → Except PageError (List α₁)) (consumeNews : Payload → Except PageError (List α₂))
    (consumeTrades : Payload → Except PageError (List α₃)) (barSymbol tradeSymbol : String)
    (barParams newsParams tradeParams : List (String × String)) (w₁ : W₁) (w₂ : W₂) (w₃ : W₃) :
    (Ends (fun fuel => barPages barServer consumeBars barSymbol barParams fuel w₁)
        (Endless barServer [] consumeBars s!"/v2/stocks/{barSymbol}/bars" barParams w₁) ∧
      Ends (fun fuel => newsPages newsServer consumeNews newsParams fuel w₂)
        (Endless newsServer [] consumeNews "/v1beta1/news" newsParams w₂) ∧
      Ends (fun _ => tradePages tradeServer consumeTrades tradeSymbol tradeParams w₃)
        (Endless tradeServer refused consumeTrades s!"/v2/stocks/{tradeSymbol}/trades" tradeParams w₃)) ↔
      ¬Endless barServer [] consumeBars s!"/v2/stocks/{barSymbol}/bars" barParams w₁ ∧
      ¬Endless newsServer [] consumeNews "/v1beta1/news" newsParams w₂ := by
  have hbars := pagesWhile_ends_iff barServer consumeBars s!"/v2/stocks/{barSymbol}/bars" barParams w₁
  have hnews := pagesWhile_ends_iff newsServer consumeNews "/v1beta1/news" newsParams w₂
  constructor
  · intro ⟨hb, hn, _⟩
    exact ⟨hbars.mp hb, hnews.mp hn⟩
  · intro ⟨hb, hn⟩
    exact ⟨hbars.mpr hb, hnews.mpr hn, tradePages_ends tradeServer consumeTrades tradeSymbol tradeParams w₃⟩

/-- A server that names a next page with every page. -/
def nextForEver : Server Unit := fun _ _ => (.response 200 (some (.obj [("next_page_token", .str "a")])), ())

theorem chained_nextForEver (k : Nat) (token : Payload) :
    Chained nextForEver [] (fun _ => .ok ([] : List Unit)) path params k token () := by
  induction k generalizing token with
  | zero => trivial
  | succ k ih => exact ⟨[], .str "a", rfl, rfl, ih _⟩

/-- On its chain the bars' loop asks for ever. -/
theorem barPages_nextForEver :
    ¬Ends (fun fuel => barPages nextForEver (fun _ => .ok ([] : List Unit)) "SPY" [] fuel ())
      (Endless nextForEver [] (fun _ => .ok ([] : List Unit)) "/v2/stocks/SPY/bars" [] ()) := by
  intro h
  have hpath (symbol : String) (hspy : symbol = "SPY") : s!"/v2/stocks/{symbol}/bars" = "/v2/stocks/SPY/bars" := by
    rw [hspy]
    rfl
  unfold barPages at h
  rw [hpath "SPY" rfl] at h
  exact (pagesWhile_ends_iff nextForEver _ _ [] ()).mp h fun k => chained_nextForEver k .null

/-! ### Complete or refused -/

/-- The server's chain from a request on: every page can be read, each but the last names a next one. -/
inductive ProperChain (server : Server W) (path : String) (params : List (String × String)) :
    Payload → W → List Payload → List Payload → Prop
  | last {token next : Payload} {w : W} {page : Payload}
      (hpage : readPage refused (server (pageRequest path params token) w).1 = .ok page)
      (hnext : nextPageToken page = .ok next) (hend : truthy next = false) : ProperChain server path params token w [page] []
  | more {token next : Payload} {w : W} {page : Payload} {pages tokens : List Payload}
      (hpage : readPage refused (server (pageRequest path params token) w).1 = .ok page)
      (hnext : nextPageToken page = .ok next) (hgoes : truthy next = true)
      (hrest : ProperChain server path params next (server (pageRequest path params token) w).2 pages tokens) :
      ProperChain server path params token w (page :: pages) (next :: tokens)

/-- No token can be looked up as one seen or one given earlier. -/
def Fresh : List Payload → List Payload → Prop
  | _, [] => True
  | seen, token :: tokens => hashable token = true ∧ seen.any (same token) = false ∧ Fresh (seen ++ [token]) tokens

theorem fresh_iff {seen tokens : List Payload} :
    Fresh seen tokens ↔ (∀ t ∈ tokens, hashable t = true) ∧ (∀ t ∈ tokens, seen.any (same t) = false) ∧
      tokens.Pairwise fun a b => same b a = false := by
  induction tokens generalizing seen with
  | nil => simp [Fresh]
  | cons token tokens ih =>
    rw [Fresh, ih]
    simp only [List.forall_mem_cons, List.pairwise_cons, List.any_append, Bool.or_eq_false_iff, List.any_cons, List.any_nil,
      Bool.or_false]
    constructor
    · intro ⟨hhash, hseen, hhashes, hfresh, hpair⟩
      exact ⟨⟨hhash, hhashes⟩, ⟨hseen, fun t ht => (hfresh t ht).1⟩, fun t ht => (hfresh t ht).2, hpair⟩
    · intro ⟨⟨hhash, hhashes⟩, ⟨hseen, hseens⟩, hnew, hpair⟩
      exact ⟨hhash, hseen, hhashes, fun t ht => ⟨hseens t ht, hnew t ht⟩, hpair⟩

theorem turn_eq_ok {reply : Reply} {items : List α} {next : Payload} :
    turn statuses consume reply = .ok (items, next) ↔
      ∃ page, readPage statuses reply = .ok page ∧ consume page = .ok items ∧ nextPageToken page = .ok next := by
  unfold turn
  constructor
  · intro h
    obtain ⟨page, hpage, h⟩ := Except.bind_eq_ok.mp h
    obtain ⟨items', hitems, h⟩ := Except.bind_eq_ok.mp h
    obtain ⟨next', hnext, h⟩ := Except.bind_eq_ok.mp h
    cases h
    exact ⟨page, hpage, hitems, hnext⟩
  · intro ⟨page, hpage, hitems, hnext⟩
    rw [hpage]
    change (consume page >>= fun items => nextPageToken page >>= fun token => Except.ok (items, token)) = _
    rw [hitems]
    change (nextPageToken page >>= fun token => Except.ok (items, token)) = _
    rw [hnext]
    rfl

/-- The loop returns exactly on a chain that ends within the range, with tokens that are new, and consumes all its pages. -/
theorem tradePagesFrom_eq_ok {left : Nat} {seen : List Payload} {items : List α} :
    (tradePagesFrom server consume path params left seen token w).outcome = some (.ok items) ↔
      ∃ pages tokens parts, ProperChain server path params token w pages tokens ∧ pages.length ≤ left ∧ Fresh seen tokens ∧
        List.Forall₂ (fun page part => consume page = .ok part) pages parts ∧ items = parts.flatten := by
  induction left generalizing seen token w items with
  | zero =>
    constructor
    · intro h
      cases h
    · intro h
      obtain ⟨pages, tokens, parts, hchain, hlength, -⟩ := h
      cases hchain with
      | last => cases hlength
      | more => cases hlength
  | succ left ih =>
    rw [tradePagesFrom]
    constructor
    · intro h
      rcases hturn : turn refused consume (server (pageRequest path params token) w).1 with e | ⟨part, next⟩
      · rw [hturn] at h
        cases h
      · rw [hturn] at h
        obtain ⟨page, hpage, hpart, hnext⟩ := turn_eq_ok.mp hturn
        dsimp only at h
        split at h
        · next hlast =>
          cases h
          refine ⟨[page], [], [items], .last hpage hnext (Bool.eq_false_iff.mpr hlast), Nat.le_add_left 1 left, trivial,
            .cons hpart .nil, ?_⟩
          simp
        · next hgoes =>
          split at h
          · cases h
          · next hhash =>
            split at h
            · cases h
            · next hseen =>
              rw [Walk.outcome_after] at h
              obtain ⟨r, hr, hmap⟩ := Option.map_eq_some_iff.mp h
              obtain ⟨more, rfl, rfl⟩ := Except.map_eq_ok.mp hmap
              obtain ⟨pages, tokens, parts, hchain, hlength, hfresh, hparts, rfl⟩ := ih.mp hr
              exact ⟨page :: pages, next :: tokens, part :: parts, .more hpage hnext (not_not.mp hgoes) hchain,
                Nat.succ_le_succ hlength, ⟨not_not.mp hhash, Bool.eq_false_iff.mpr hseen, hfresh⟩, .cons hpart hparts,
                List.flatten_cons.symm⟩
    · intro ⟨pages, tokens, parts, hchain, hlength, hfresh, hparts, hitems⟩
      subst hitems
      cases hchain with
      | last hpage hnext hend =>
        cases hparts with
        | cons hpart hnil =>
          cases hnil
          rw [turn_eq_ok.mpr ⟨_, hpage, hpart, hnext⟩]
          simp [hend]
      | more hpage hnext hgoes hrest =>
        cases hparts with
        | cons hpart hparts =>
          obtain ⟨hhash, hseen, hfresh⟩ := hfresh
          rw [turn_eq_ok.mpr ⟨_, hpage, hpart, hnext⟩]
          have hmore := ih.mpr ⟨_, _, _, hrest, Nat.le_of_succ_le_succ hlength, hfresh, hparts, rfl⟩
          simp only [hgoes, hhash, hseen, not_true_eq_false, if_false, Bool.false_eq_true, Walk.outcome_after, hmore,
            Option.map_some, List.flatten_cons]
          rfl

/-- The trades are returned if and only if the chain ended properly within the range: its pages are read, none of its tokens
    is repeated, and each page's trades are read. They are then the trades of all pages in their order that lie in the
    window. In every other case an error is raised. -/
theorem historicalTrades_complete (reader : TradeReader) (server : Server W) (symbol : Ticker) (start end_ : AwareDatetime)
    (w : W) :
    (∃ r, historicalTrades reader server symbol start end_ w = some r) ∧
    ∀ trades, historicalTrades reader server symbol start end_ w = some (.ok trades) ↔
      ∃ pages tokens parts,
        ProperChain server s!"/v2/stocks/{symbol.val}/trades" (tradeParams start end_) .null w pages tokens ∧
        pages.length ≤ 400 ∧ (∀ t ∈ tokens, hashable t = true) ∧ tokens.Pairwise (fun a b => same b a = false) ∧
        List.Forall₂ (fun page part => reader.parseTrades symbol page = .ok part) pages parts ∧
        trades = parts.flatten.filter fun t => start.instant ≤ t.time.instant ∧ t.time.instant ≤ end_.instant := by
  unfold historicalTrades tradePages
  constructor
  · obtain ⟨r, hr, -⟩ := tradePagesFrom_stops server (reader.parseTrades symbol) s!"/v2/stocks/{symbol.val}/trades"
      (tradeParams start end_) maxPages [] .null w
    rw [hr]
    exact ⟨_, rfl⟩
  · intro trades
    constructor
    · intro h
      obtain ⟨r, hr, hmap⟩ := Option.map_eq_some_iff.mp h
      obtain ⟨items, rfl, rfl⟩ := Except.map_eq_ok.mp hmap
      obtain ⟨pages, tokens, parts, hchain, hlength, hfresh, hparts, rfl⟩ := tradePagesFrom_eq_ok.mp hr
      obtain ⟨hhash, -, hpair⟩ := fresh_iff.mp hfresh
      exact ⟨pages, tokens, parts, hchain, hlength, hhash, hpair, hparts, rfl⟩
    · intro ⟨pages, tokens, parts, hchain, hlength, hhash, hpair, hparts, htrades⟩
      have hfresh : Fresh [] tokens := fresh_iff.mpr ⟨hhash, fun _ _ => rfl, hpair⟩
      have hlength' : pages.length ≤ maxPages := hlength
      rw [tradePagesFrom_eq_ok.mpr ⟨pages, tokens, parts, hchain, hlength', hfresh, hparts, rfl⟩, htrades]
      rfl

/-- A trade at the instant 5 and no next page. -/
def lateTrade : Payload :=
  .obj [("trades", .arr [.obj [("t", .str "5"), ("p", .int 1), ("z", .str "A")]])]

/-- Every time is the instant 5, every number 1. -/
def fiveReader : TradeReader := ⟨fun _ => "1", fun _ => some 1, fun _ => false, fun _ => some (some 5)⟩

/-- A server that answers with that page only. -/
def lateServer : Server Unit := fun _ _ => (.response 200 (some lateTrade), ())

theorem ticker_spy : isTicker "SPY" = true := by decide

def spy : Ticker := ⟨"SPY", ticker_spy⟩

theorem parseTrades_lateTrade :
    fiveReader.parseTrades spy lateTrade = .ok [⟨spy, ⟨5, 0⟩, ⟨1, by decide⟩, ⟨1, by decide⟩, .a, [], none⟩] := by
  rfl

/-- A trade of the chain that is not in the window asked for is not returned. -/
theorem historicalTrades_drops_late :
    historicalTrades fiveReader lateServer spy ⟨0, 0⟩ ⟨4, 0⟩ () = some (.ok []) ∧
    ∃ pages tokens parts, ProperChain lateServer s!"/v2/stocks/{spy.val}/trades" (tradeParams ⟨0, 0⟩ ⟨4, 0⟩) .null () pages
        tokens ∧ List.Forall₂ (fun page part => fiveReader.parseTrades spy page = .ok part) pages parts ∧
      parts.flatten ≠ [] := by
  have hchain : ProperChain lateServer s!"/v2/stocks/{spy.val}/trades" (tradeParams ⟨0, 0⟩ ⟨4, 0⟩) .null () [lateTrade] [] :=
    .last rfl rfl rfl
  have hparts : List.Forall₂ (fun page part => fiveReader.parseTrades spy page = .ok part) [lateTrade] [_] :=
    .cons parseTrades_lateTrade .nil
  refine ⟨?_, [lateTrade], [], _, hchain, hparts, List.cons_ne_nil _ _⟩
  rw [historicalTrades, tradePages, tradePagesFrom_eq_ok.mpr ⟨_, _, _, hchain, (by decide : 1 ≤ maxPages), trivial, hparts, rfl⟩]
  rfl

end Pages
end AsymmetricCommittee
