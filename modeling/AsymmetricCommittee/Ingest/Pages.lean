import AsymmetricCommittee.Contracts.MarketData
import AsymmetricCommittee.Lib.Json
import Mathlib.Data.Rat.Defs

/-! The page loops of the Alpaca clients (`ingest/alpaca.py`, `ingest/news.py`, `ingest/alpaca_trades.py`) and the trades
    read from their pages. The server answers every request as it likes; the consumer of a page has it before the next
    request is made. -/

namespace AsymmetricCommittee
namespace Pages

/-! ### Documents -/

/-- A float that a JSON text can hold. -/
inductive JsonFloat where
  | finite (x : ℚ)
  | infinite (negative : Bool)
  | nan
  deriving DecidableEq

abbrev Payload := Json JsonFloat

/-- The truth of a value. -/
def truthy : Payload → Bool
  | .null => false
  | .bool b => b
  | .int n => n ≠ 0
  | .float x => x ≠ .finite 0
  | .str s => s ≠ ""
  | .arr items => !items.isEmpty
  | .obj items => !items.isEmpty

/-- What a value counts as in a comparison with a number. -/
def number? : Payload → Option JsonFloat
  | .bool b => some (.finite (if b then 1 else 0))
  | .int n => some (.finite n)
  | .float x => some x
  | _ => none

/-- `a == b` of hashable values. -/
def same (a b : Payload) : Bool :=
  match a, b with
  | .str s, .str t => s = t
  | .null, .null => true
  | a, b =>
    match number? a, number? b with
    | some x, some y => x ≠ .nan && x = y
    | _, _ => false

/-- A member of a `set` can be looked up. -/
def hashable : Payload → Bool
  | .arr _ => false
  | .obj _ => false
  | _ => true

/-- `x or []`. -/
def orEmpty : Option Payload → Payload
  | some value => if truthy value then value else .arr []
  | none => .arr []

/-! ### Requests and replies -/

structure Request where
  path : String
  params : List (String × String)
  pageToken : Option Payload

/-- `{**params, **({"page_token": token} if token else {})}`. -/
def pageRequest (path : String) (params : List (String × String)) (token : Payload) : Request :=
  ⟨path, params, if truthy token then some token else none⟩

/-- A request fails, or is answered with a status and a body; `none` is a body that is no JSON. -/
inductive Reply where
  | failed
  | response (status : Nat) (body : Option Payload)

/-- Why a walk raises. `http` is a transport failure or `HTTPStatusError`, `shape` what reading a malformed page raises. -/
inductive PageError where
  | sipEntitlement
  | incompleteTrades
  | http
  | body
  | shape
  deriving DecidableEq, Repr

variable {W α : Type}

/-- What a server answers to a request, and what it is then. -/
abbrev Server (W : Type) := Request → W → Reply × W

/-- `_get` with the statuses that are a refusal; `raise_for_status` raises for all but 2xx. -/
def readPage (refused : List Nat) : Reply → Except PageError Payload
  | .failed => .error .http
  | .response status body =>
    if status ∈ refused then .error .sipEntitlement
    else if ¬(200 ≤ status ∧ status ≤ 299) then .error .http
    else match body with
      | none => .error .body
      | some page => .ok page

/-- `page.get("next_page_token")`. -/
def nextPageToken : Payload → Except PageError Payload
  | .obj items => .ok ((items.lookup "next_page_token").getD .null)
  | _ => .error .shape

/-- A turn of a loop up to its token: the page is read and consumed. -/
def turn (refused : List Nat) (consume : Payload → Except PageError (List α)) (reply : Reply) :
    Except PageError (List α × Payload) := do
  let page ← readPage refused reply
  let items ← consume page
  let token ← nextPageToken page
  return (items, token)

/-! ### The loops -/

/-- What a walk has come to: what was collected or raised, or `none` while it asks on. -/
structure Walk (α W : Type) where
  outcome : Option (Except PageError (List α))
  requests : Nat
  world : W

/-- The walk went on after a page. -/
def Walk.after (items : List α) (rest : Walk α W) : Walk α W :=
  { rest with outcome := rest.outcome.map fun r => r.map fun more => items ++ more, requests := rest.requests + 1 }

@[simp] theorem Walk.outcome_after (items : List α) (rest : Walk α W) :
    (rest.after items).outcome = rest.outcome.map fun r => r.map fun more => items ++ more := rfl

@[simp] theorem Walk.requests_after (items : List α) (rest : Walk α W) : (rest.after items).requests = rest.requests + 1 := rfl

/-- The `while True` loop of the bars and the news, for as many requests as there is fuel. -/
def pagesWhile (server : Server W) (consume : Payload → Except PageError (List α)) (path : String)
    (params : List (String × String)) : Nat → Payload → W → Walk α W
  | 0, _, w => ⟨none, 0, w⟩
  | fuel + 1, token, w =>
    let reply := server (pageRequest path params token) w
    match turn [] consume reply.1 with
    | .error e => ⟨some (.error e), 1, reply.2⟩
    | .ok page =>
      if truthy page.2 then (pagesWhile server consume path params fuel page.2 reply.2).after page.1
      else ⟨some (.ok page.1), 1, reply.2⟩

/-- `AlpacaBars._pages`. -/
def barPages (server : Server W) (consume : Payload → Except PageError (List α)) (symbol : String)
    (params : List (String × String)) (fuel : Nat) (w : W) : Walk α W :=
  pagesWhile server consume s!"/v2/stocks/{symbol}/bars" params fuel .null w

/-- `AlpacaNews._pages`. -/
def newsPages (server : Server W) (consume : Payload → Except PageError (List α)) (params : List (String × String))
    (fuel : Nat) (w : W) : Walk α W :=
  pagesWhile server consume "/v1beta1/news" params fuel .null w

/-- `MAX_PAGES`. -/
def maxPages : Nat := 400

/-- `_REFUSED`. -/
def refused : List Nat := [400, 401, 403, 422]

/-- The `for _ in range(left)` loop of the trades, with the tokens seen. -/
def tradePagesFrom (server : Server W) (consume : Payload → Except PageError (List α)) (path : String)
    (params : List (String × String)) : Nat → List Payload → Payload → W → Walk α W
  | 0, _, _, w => ⟨some (.error .incompleteTrades), 0, w⟩
  | left + 1, seen, token, w =>
    let reply := server (pageRequest path params token) w
    match turn refused consume reply.1 with
    | .error e => ⟨some (.error e), 1, reply.2⟩
    | .ok page =>
      if ¬truthy page.2 then ⟨some (.ok page.1), 1, reply.2⟩
      else if ¬hashable page.2 then ⟨some (.error .shape), 1, reply.2⟩
      else if seen.any (same page.2) then ⟨some (.error .incompleteTrades), 1, reply.2⟩
      else (tradePagesFrom server consume path params left (seen ++ [page.2]) page.2 reply.2).after page.1

/-- `AlpacaTrades._pages`. -/
def tradePages (server : Server W) (consume : Payload → Except PageError (List α)) (symbol : String)
    (params : List (String × String)) (w : W) : Walk α W :=
  tradePagesFrom server consume s!"/v2/stocks/{symbol}/trades" params maxPages [] .null w

/-! ### Trades -/

/-- What the reading of a trade takes from Python and from the contracts' library. -/
structure TradeReader where
  /-- `str(value)`. -/
  str : Payload → String
  /-- The number a float field takes from a value; `none` is a value it refuses. -/
  number : Payload → Option ℚ
  isDigit : Char → Bool
  /-- `datetime.fromisoformat`: the instant of an aware time, `some none` of a naive one. -/
  fromIso : String → Option (Option Int)

namespace TradeReader
variable (reader : TradeReader)

/-- `_FRACTION.sub`: a fraction of a second gets six digits. -/
def sixDigits : List Char → List Char
  | [] => []
  | c :: cs =>
    if c = '.' ∧ cs.takeWhile reader.isDigit ≠ [] then
      '.' :: ((cs.takeWhile reader.isDigit).take 6).rightpad 6 '0' ++ sixDigits (cs.dropWhile reader.isDigit)
    else c :: sixDigits cs
termination_by cs => cs.length
decreasing_by
  · exact Nat.lt_succ_of_le (List.dropWhile_suffix _).length_le
  · simp

/-- `parse_trade_time`. -/
def parseTradeTime : Payload → Except PageError AwareDatetime
  | .str s =>
    match reader.fromIso (String.ofList (reader.sixDigits (s.replace "Z" "+00:00").toList)) with
    | some (some instant) => .ok ⟨instant, 0⟩
    | _ => .error .shape
  | _ => .error .shape

/-- `tr[key]`. -/
def field (items : List (String × Payload)) (key : String) : Except PageError Payload :=
  match items.lookup key with
  | some value => .ok value
  | none => .error .shape

/-- What iterating a value gives: a dictionary gives its keys, a string its characters. -/
def iterate : Payload → Except PageError (List Payload)
  | .arr items => .ok items
  | .obj items => .ok (items.map fun item => .str item.1)
  | .str s => .ok (s.toList.map fun c => .str (String.ofList [c]))
  | _ => .error .shape

/-- A condition code of the contract. -/
def conditionOf (value : Payload) : Except PageError ConditionCode :=
  if h : 1 ≤ (reader.str value).length ∧ (reader.str value).length ≤ 2 then .ok ⟨reader.str value, h⟩ else .error .shape

/-- `Tape(value)`. -/
def tapeOf : Payload → Except PageError Tape
  | .str "A" => .ok .a
  | .str "B" => .ok .b
  | .str "C" => .ok .c
  | _ => .error .shape

def priceOf (value : Payload) : Except PageError (Positive ℚ) :=
  match reader.number value with
  | some x => if h : 0 < x then .ok ⟨x, h⟩ else .error .shape
  | none => .error .shape

def sizeOf (value : Payload) : Except PageError (NonNegative ℚ) :=
  match reader.number value with
  | some x => if h : 0 ≤ x then .ok ⟨x, h⟩ else .error .shape
  | none => .error .shape

/-- The trade's id; a missing one and `null` are none. -/
def tradeIdOf : Option Payload → Except PageError (Option TradeId)
  | none => .ok none
  | some .null => .ok none
  | some value =>
    if h : 1 ≤ (reader.str value).length ∧ (reader.str value).length ≤ 64 then .ok (some ⟨reader.str value, h⟩)
    else .error .shape

/-- One record of `parse_trades`. -/
def parseTrade (symbol : Ticker) : Payload → Except PageError SipTrade
  | .obj items => do
    let codes ← iterate (orEmpty (items.lookup "c"))
    let time ← reader.parseTradeTime (← field items "t")
    let price ← field items "p"
    let tape ← tapeOf (← field items "z")
    let conditions ← codes.mapM reader.conditionOf
    let price ← reader.priceOf price
    let size ← reader.sizeOf ((items.lookup "s").getD (.int 0))
    let tradeId ← reader.tradeIdOf (items.lookup "i")
    return ⟨symbol, time, price, size, tape, conditions, tradeId⟩
  | _ => .error .shape

/-- `parse_trades`. -/
def parseTrades (symbol : Ticker) : Payload → Except PageError (List SipTrade)
  | .obj items => do
    let records ← iterate (orEmpty (items.lookup "trades"))
    records.mapM (reader.parseTrade symbol)
  | _ => .error .shape

end TradeReader

/-- `_rfc3339`. -/
def rfc3339 (t : AwareDatetime) : String := (IsoTime.isoUtcMicros t.instant).replace "+00:00" "Z"

/-- The parameters of `historical_trades`. -/
def tradeParams (start end_ : AwareDatetime) : List (String × String) :=
  [("start", rfc3339 start), ("end", rfc3339 end_), ("feed", "sip"), ("sort", "asc"), ("limit", "10000")]

/-- `historical_trades`: the trades of all pages that are in the window. -/
def historicalTrades (reader : TradeReader) (server : Server W) (symbol : Ticker) (start end_ : AwareDatetime) (w : W) :
    Option (Except PageError (List SipTrade)) :=
  (tradePages server (reader.parseTrades symbol) symbol.val (tradeParams start end_) w).outcome.map fun r =>
    r.map fun trades => trades.filter fun t => start.instant ≤ t.time.instant ∧ t.time.instant ≤ end_.instant

end Pages
end AsymmetricCommittee
