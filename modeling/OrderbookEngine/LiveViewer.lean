import OrderbookEngine.FeedLatencies
import OrderbookEngine.RealBooks

/-!
# The live viewer

The viewer fetches a response, parses it as a snapshot, hands it to its one
engine and prints the depth, again and again. Responses may be empty and parsing
may throw. Levels, quote and size that are printed depend on the last response
alone, message count and average latency on the snapshots so far. The printed
table shows the best levels, sorted and uncrossed, and cut where asked.
-/

namespace OrderbookEngine.LiveViewer

open MarketTypes PoolBook FeedCalls ReferenceBook SlotSteps EngineSimulation RunRules Refinement
open BookState Snapshots TradeCounts FeedCounters FeedLatencies TradePrices RealBooks

variable {n : ℕ} {s s' : Orderbook n}

/-- Best prices with their difference, and their sum as twice the mid price, in
the int arithmetic of the source. -/
structure Quote where
  /-- Best bid. -/
  bid : Price
  /-- Best ask. -/
  ask : Price
  /-- Ask less bid. -/
  spread : Price
  /-- Bid plus ask. -/
  sum : Price
  deriving DecidableEq

/-- What is printed below the heading, before it is formatted. -/
structure Table where
  /-- A bid and an ask in each row, with a dash where a side has no level. -/
  rows : List (Option LevelInfo × Option LevelInfo)
  /-- The quote, if it is printed. -/
  quote : Option Quote
  /-- Number of live orders. -/
  size : ℕ
  /-- Number of messages since the start. -/
  messagesProcessed : UInt64
  /-- Their average latency. -/
  averageLatency : ℚ
  deriving DecidableEq

/-- Prices in the first row give the quote. -/
def quoteOf (bids asks : List LevelInfo) : Option Quote :=
  match bids.head?, asks.head? with
  | some bid, some ask =>
    some ⟨bid.price, ask.price, ask.price - bid.price, bid.price + ask.price⟩
  | _, _ => none

/-- The engine with the part of its statistics that depends on the clock. -/
structure Clocked (n : ℕ) where
  /-- Everything else of the engine. -/
  engine : Orderbook n
  /-- Total and extremes of the latencies. -/
  timing : Timing := {}

/-- Process a message between two readings of the clock, `latency` apart. -/
def Clocked.processMarketData (v : Clocked n) (msg : MarketDataMessage) (order : IterOrder)
    (latency : Micros) : Outcome (Clocked n) Bool :=
  let timing := timed v.engine v.timing (.processMarketData msg order) latency
  match FeedCalls.processMarketData v.engine msg order with
  | .ret ok s => .ret ok ⟨s, timing⟩
  | .raise exn s => .raise exn ⟨s, timing⟩
  | .diverge => .diverge

/-- Print the book. -/
def printOrderbook (v : Clocked n) (levels : ℤ) : Table :=
  let infos := v.engine.getOrderInfos
  let maxLevels := max (min (infos.bids.length : ℤ) levels) (min (infos.asks.length : ℤ) levels)
  { rows := (List.range maxLevels.toNat).map fun i => (infos.bids[i]?, infos.asks[i]?)
    quote := quoteOf infos.bids infos.asks
    size := v.engine.size
    messagesProcessed := v.engine.stats.messagesProcessed
    averageLatency := v.timing.getAverageLatencyMicros v.engine.stats.messagesProcessed }

/-- Bytes of a response; none if fetching failed. -/
abbrev Response := List UInt8

/-- What parsing throws: an error of the JSON library or another exception. -/
inductive ParseError where
  | json (what : String)
  | other (what : String)
  deriving DecidableEq

/-- What one turn of the loop prints. -/
inductive Shown where
  | fetchFailed
  | orderbook (table : Table)
  | processFailed
  | jsonError (what : String) (response : Response)
  | error (what : String)
  deriving DecidableEq

/-- Text of an exception of the engine. -/
def what : Exn → String
  | .runtimeError what => what
  | .outOfRange => "map::at"

/-- A response, with what its processing depends on besides. -/
structure Fetched where
  /-- The bytes that were fetched. -/
  response : Response
  /-- Iteration order of the hash map while it is processed. -/
  order : IterOrder
  /-- Time that processing takes on the clock. -/
  latency : Micros

section Viewer

variable (parse : Response → Except ParseError BookSnapshotMessage) (levels : ℤ)

/-- One turn of the loop. -/
def turn (v : Clocked n) (fetched : Fetched) : Outcome (Clocked n) Shown :=
  if fetched.response = [] then .ret .fetchFailed v
  else
    match parse fetched.response with
    | .error (.json what) => .ret (.jsonError what (fetched.response.take 200)) v
    | .error (.other what) => .ret (.error what) v
    | .ok snapshot =>
      match v.processMarketData (.bookSnapshot snapshot) fetched.order fetched.latency with
      | .ret true v => .ret (.orderbook (printOrderbook v levels)) v
      | .ret false v => .ret .processFailed v
      | .raise exn v => .ret (.error (what exn)) v
      | .diverge => .diverge

/-- The turns of some responses. -/
def view : List Fetched → Clocked n → Outcome (Clocked n) (List Shown)
  | [], v => .ret [] v
  | fetched :: rest, v =>
    (turn parse levels v fetched).bind fun shown v =>
      (view rest v).bind fun later v => .ret (shown :: later) v

/-- The snapshot in a response, if there is one, with the reading of the clock. -/
def snapshot? (fetched : Fetched) : Option (BookSnapshotMessage × Micros) :=
  if fetched.response = [] then none
  else (parse fetched.response).toOption.map fun msg => (msg, fetched.latency)

/-- A fresh engine after some snapshot. -/
def freshAfter (n : ℕ) (msg : BookSnapshotMessage) : Orderbook n :=
  leaves (create n) (processSnapshot (create n) msg inKeyOrder)

/-- A fresh engine after the last of some snapshots, if there is one. -/
def lastAlone (n : ℕ) (seen : List (BookSnapshotMessage × Micros)) : Orderbook n :=
  (seen.getLast?.map fun snapshot => freshAfter n snapshot.1).getD (create n)

/-- Average of some latencies, as the statistics report it. -/
def averageOf (latencies : List Micros) : ℚ :=
  (latencies.foldl Timing.record {}).getAverageLatencyMicros (UInt64.ofNat latencies.length)

/-- What a response shows on its own, on a fresh engine, with the message count
and the average of some latencies. -/
def shownAlone (n : ℕ) (latencies : List Micros) (fetched : Fetched) : Shown :=
  if fetched.response = [] then .fetchFailed
  else
    match parse fetched.response with
    | .error (.json what) => .jsonError what (fetched.response.take 200)
    | .error (.other what) => .error what
    | .ok msg => .orderbook { printOrderbook ⟨freshAfter n msg, {}⟩ levels with
        messagesProcessed := UInt64.ofNat latencies.length
        averageLatency := averageOf latencies }

end Viewer

section Turns

variable {v v' : Clocked n} {seen : List (BookSnapshotMessage × Micros)}

/-- The reference engine after the last of some snapshots. -/
def lastRef (n : ℕ) (seen : List (BookSnapshotMessage × Micros)) : RefEngine :=
  (seen.getLast?.map fun snapshot =>
    (RefEngine.create (slotCount n)).processSnapshot snapshot.1).getD
      (RefEngine.create (slotCount n))

/-- The engine of the viewer after some snapshots. -/
structure Viewing (v : Clocked n) (seen : List (BookSnapshotMessage × Micros)) : Prop where
  /-- The last one is stored. -/
  represents : Represents v.engine (lastRef n seen)
  /-- All of them are counted, nothing else is, and the last one is the position. -/
  settings : settings v.engine =
    ({}, { messagesProcessed := UInt64.ofNat seen.length, snapshots := UInt64.ofNat seen.length },
      (seen.getLast?.map fun snapshot => (snapshot.1.sequenceNumber, true)).getD (0, false))
  /-- All of them are timed. -/
  timing : v.timing = (seen.map Prod.snd).foldl Timing.record {}

/-- The viewer starts with a fresh engine. -/
theorem viewing_create (n : ℕ) : Viewing (⟨create n, {}⟩ : Clocked n) [] :=
  ⟨represents_create n, rfl, rfl⟩

/-- The book of an earlier snapshot is forgotten. -/
theorem lastRef_processSnapshot (n : ℕ) (seen : List (BookSnapshotMessage × Micros))
    (msg : BookSnapshotMessage) :
    (lastRef n seen).processSnapshot msg =
      (RefEngine.create (slotCount n)).processSnapshot msg := by
  rw [lastRef]
  cases seen.getLast? with
  | none => rfl
  | some last =>
    obtain ⟨b, hb⟩ := processSnapshot_keeps (RefEngine.create (slotCount n)) last.1
    rw [Option.map_some, Option.getD_some, hb]
    exact processSnapshot_forgets _ b msg

/-- The last snapshot counts. -/
theorem lastRef_append (n : ℕ) (seen : List (BookSnapshotMessage × Micros))
    (snapshot : BookSnapshotMessage × Micros) :
    lastRef n (seen ++ [snapshot]) =
      (RefEngine.create (slotCount n)).processSnapshot snapshot.1 := by
  rw [lastRef, List.getLast?_concat]
  rfl

/-- So it does for the fresh engine. -/
theorem lastAlone_append (n : ℕ) (seen : List (BookSnapshotMessage × Micros))
    (snapshot : BookSnapshotMessage × Micros) :
    lastAlone n (seen ++ [snapshot]) = freshAfter n snapshot.1 := by
  rw [lastAlone, List.getLast?_concat]
  rfl

/-- A fresh engine holds the snapshot it has processed, and its position. -/
theorem represents_freshAfter (n : ℕ) (msg : BookSnapshotMessage) :
    Represents (freshAfter n msg) ((RefEngine.create (slotCount n)).processSnapshot msg) ∧
      (freshAfter n msg).lastSequenceNumber = msg.sequenceNumber ∧
      (freshAfter n msg).isInitialized = true := by
  obtain ⟨s', hret, hrep, -⟩ := processSnapshot_simulates (represents_create n) msg inKeyOrder
  have hposition := position_processSnapshot hret
  rw [freshAfter, hret]
  exact ⟨hrep, hposition⟩

/-- Levels, quote and size of the table are what can be observed. -/
theorem printOrderbook_congr (h : observe v'.engine = observe v.engine) (levels : ℤ) :
    printOrderbook v' levels = { printOrderbook v levels with
      messagesProcessed := v'.engine.stats.messagesProcessed
      averageLatency := v'.timing.getAverageLatencyMicros v'.engine.stats.messagesProcessed } := by
  have hinfos : v'.engine.getOrderInfos = v.engine.getOrderInfos :=
    congrArg Observation.orderInfos h
  have hsize : v'.engine.size = v.engine.size := congrArg Observation.size h
  rw [printOrderbook, printOrderbook, hinfos, hsize]

/-- A snapshot is processed, whatever was seen before. -/
theorem Viewing.processMarketData (h : Viewing v seen) (msg : BookSnapshotMessage)
    (order : IterOrder) (latency : Micros) :
    ∃ v', v.processMarketData (.bookSnapshot msg) order latency = .ret true v' ∧
      Viewing v' (seen ++ [(msg, latency)]) := by
  obtain ⟨s', hret, hrep, -⟩ := processMarketData_simulates h.represents (.bookSnapshot msg) order
  refine ⟨⟨s', v.timing.record latency⟩, ?_, ?_, ?_, ?_⟩
  · simp only [Clocked.processMarketData, timed, hret]
  · rw [lastRef_append, ← lastRef_processSnapshot n seen]
    exact hrep
  · have hset := settings_message h.represents (.bookSnapshot msg) order
    have hbefore := h.settings
    rw [perform, hret, settle] at hset
    simp only [SlotSteps.settings, Prod.mk.injEq] at hbefore
    rw [hset, settingsAfter, counters, hbefore.1, hbefore.2.1]
    simp [position, messageType, newOrderRaises, counted, UInt64.ofNat_add]
  · rw [List.map_append, List.foldl_append, ← h.timing]
    rfl

/-- A turn shows what its response shows alone. -/
theorem Viewing.turn (h : Viewing v seen)
    (parse : Response → Except ParseError BookSnapshotMessage) (levels : ℤ) (fetched : Fetched) :
    ∃ v', turn parse levels v fetched = .ret (shownAlone parse levels n
        ((seen ++ (snapshot? parse fetched).toList).map Prod.snd) fetched) v' ∧
      Viewing v' (seen ++ (snapshot? parse fetched).toList) := by
  rw [LiveViewer.turn, shownAlone, snapshot?]
  split_ifs with hempty
  · exact ⟨v, rfl, by simpa using h⟩
  · cases hparse : parse fetched.response with
    | error err =>
      cases err <;> exact ⟨v, rfl, by simpa [Except.toOption] using h⟩
    | ok msg =>
      obtain ⟨v', hret, h'⟩ := h.processMarketData msg fetched.order fetched.latency
      refine ⟨v', ?_, h'⟩
      have hobserve : observe v'.engine = observe (freshAfter n msg) := by
        rw [observe_eq h'.represents, lastRef_append, observe_eq (represents_freshAfter n msg).1]
      have hcount : v'.engine.stats.messagesProcessed =
          UInt64.ofNat (seen ++ [(msg, fetched.latency)]).length :=
        congrArg (fun x => x.2.1.messagesProcessed) h'.settings
      simp only [hret]
      rw [printOrderbook_congr (v := ⟨freshAfter n msg, {}⟩) hobserve, hcount, h'.timing]
      simp [Except.toOption, averageOf]

/-- The turns of a run show what their responses show alone. -/
theorem Viewing.view (h : Viewing v seen)
    (parse : Response → Except ParseError BookSnapshotMessage) (levels : ℤ)
    (fetched : List Fetched) :
    ∃ shown v', view parse levels fetched v = .ret shown v' ∧ shown.length = fetched.length ∧
      (∀ i f, fetched[i]? = some f → shown[i]? = some (shownAlone parse levels n
        ((seen ++ (fetched.take (i + 1)).filterMap (snapshot? parse)).map Prod.snd) f)) ∧
      Viewing v' (seen ++ fetched.filterMap (snapshot? parse)) := by
  induction fetched generalizing v seen with
  | nil => exact ⟨[], v, rfl, rfl, by simp, by simpa using h⟩
  | cons first rest ih =>
    obtain ⟨v₁, hturn, h₁⟩ := h.turn parse levels first
    obtain ⟨shown, v', hview, hlen, hshown, h'⟩ := ih h₁
    have hsplit : ∀ fs : List Fetched, seen ++ (first :: fs).filterMap (snapshot? parse) =
        seen ++ (snapshot? parse first).toList ++ fs.filterMap (snapshot? parse) := by
      intro fs
      rw [List.filterMap_cons]
      cases snapshot? parse first <;> simp
    refine ⟨shownAlone parse levels n ((seen ++ (snapshot? parse first).toList).map Prod.snd)
      first :: shown, v', ?_, by rw [List.length_cons, hlen, List.length_cons], ?_, ?_⟩
    · rw [LiveViewer.view, hturn, Outcome.ret_bind, hview, Outcome.ret_bind]
    · intro i f hf
      rw [List.take_succ_cons, hsplit]
      cases i with
      | zero =>
        cases hf
        simp
      | succ i => exact hshown i f hf
    · rw [hsplit]
      exact h'

end Turns

/-- Whatever was fetched before, no turn gets stuck, and every turn shows what its
response shows on a fresh engine, with the count and the average latency of the
snapshots so far. In the end the engine holds what a fresh engine holds after
the last snapshot alone, with the same rules and position. -/
theorem viewer_forgets (parse : Response → Except ParseError BookSnapshotMessage) (levels : ℤ)
    (n : ℕ) (fetched : List Fetched) :
    let seen := fetched.filterMap (snapshot? parse)
    ∃ shown v, view parse levels fetched ⟨create n, {}⟩ = .ret shown v ∧
      shown.length = fetched.length ∧
      (∀ i f, fetched[i]? = some f → shown[i]? = some (shownAlone parse levels n
        (((fetched.take (i + 1)).filterMap (snapshot? parse)).map Prod.snd) f)) ∧
      Indistinguishable (lastAlone n seen) v.engine ∧
      settings v.engine = ((lastAlone n seen).exchangeRules,
        { messagesProcessed := UInt64.ofNat seen.length
          snapshots := UInt64.ofNat seen.length },
        (lastAlone n seen).lastSequenceNumber, (lastAlone n seen).isInitialized) := by
  intro seen
  obtain ⟨shown, v, hview, hlen, hshown, h⟩ := (viewing_create n).view parse levels fetched
  simp only [List.nil_append] at hshown h
  refine ⟨shown, v, hview, hlen, hshown, ?_⟩
  have hrep : Represents v.engine (lastRef n seen) := h.represents
  have hset := h.settings
  rw [show fetched.filterMap (snapshot? parse) = seen from rfl] at hset
  -- the list of snapshots is empty or ends with the last one
  rcases List.eq_nil_or_concat' seen with hseen | ⟨before, last, hseen⟩
  · rw [hseen] at hrep hset ⊢
    exact ⟨indistinguishable_of_represents (represents_create n) hrep, hset⟩
  · rw [hseen] at hrep hset ⊢
    obtain ⟨hfresh, hnumber, hinit⟩ := represents_freshAfter n last.1
    rw [lastRef_append] at hrep
    rw [lastAlone_append]
    refine ⟨indistinguishable_of_represents hfresh hrep, ?_⟩
    rw [hset, hnumber, hinit, ← hfresh.rules, rules_processSnapshot, List.getLast?_concat]
    rfl

section Rows

/-- A column shows levels, then dashes; rows past the last level do not matter. -/
theorem column_eq (xs : List LevelInfo) {m k : ℕ} (h : xs.take m = xs.take k) :
    (List.range m).map (fun i => xs[i]?) =
      (xs.take k).map some ++ List.replicate (m - xs.length) none := by
  rw [← h]
  refine List.ext_getElem? fun i => ?_
  rw [List.getElem?_map, List.getElem?_append, List.getElem?_map, List.getElem?_replicate,
    List.length_map, List.length_take]
  by_cases hi : i < m
  · rw [List.getElem?_range hi, Option.map_some]
    split_ifs with hx hd
    · rw [List.getElem?_take_of_lt hi, List.getElem?_eq_getElem (by omega), Option.map_some]
    · rw [List.getElem?_eq_none (by omega)]
    · omega
  · rw [List.getElem?_eq_none (by simpa using hi), Option.map_none, if_neg (by omega),
      if_neg (by omega)]

end Rows

/-- A table that shows the best levels of a depth report: the report is in price
order with every bid below every ask, each side is cut where asked, and the
quote is that of the best prices. -/
structure SoundTable (infos : OrderbookLevelInfos) (levels : ℤ) (t : Table) : Prop where
  /-- The first column shows the best bids, then dashes. -/
  bids : ∃ dashes, t.rows.map Prod.fst =
    (infos.bids.take levels.toNat).map some ++ List.replicate dashes none
  /-- The second column shows the best asks, then dashes. -/
  asks : ∃ dashes, t.rows.map Prod.snd =
    (infos.asks.take levels.toNat).map some ++ List.replicate dashes none
  /-- No row shows two dashes. -/
  filled : ∀ row ∈ t.rows, row ≠ (none, none)
  /-- Bids fall. -/
  falling : infos.bids.Pairwise fun i j => j.price < i.price
  /-- Asks rise. -/
  rising : infos.asks.Pairwise fun i j => i.price < j.price
  /-- No bid reaches an ask. -/
  apart : ∀ bid ∈ infos.bids, ∀ ask ∈ infos.asks, bid.price < ask.price
  /-- The quote is shown if both sides have levels. -/
  quoted : t.quote.isSome ↔ infos.bids ≠ [] ∧ infos.asks ≠ []
  /-- It quotes the best bid and the best ask. -/
  best : ∀ q ∈ t.quote, infos.bids.head?.map LevelInfo.price = some q.bid ∧
    infos.asks.head?.map LevelInfo.price = some q.ask
  /-- The spread is exact and positive. -/
  spread : ∀ q ∈ t.quote, 0 < q.spread ∧ q.spread.toInt = q.ask.toInt - q.bid.toInt
  /-- The sum is exact if it fits into an int. -/
  sum : ∀ q ∈ t.quote, q.bid.toInt + q.ask.toInt < 2 ^ 31 →
    q.sum.toInt = q.bid.toInt + q.ask.toInt

/-- The quote is made of the heads of the sides. -/
theorem mem_quoteOf {bids asks : List LevelInfo} {q : Quote} (h : q ∈ quoteOf bids asks) :
    ∃ bid ask, bids.head? = some bid ∧ asks.head? = some ask ∧
      q = ⟨bid.price, ask.price, ask.price - bid.price, bid.price + ask.price⟩ := by
  rw [quoteOf] at h
  cases hbid : bids.head? with
  | none => simp [hbid] at h
  | some bid =>
    cases hask : asks.head? with
    | none => simp [hbid, hask] at h
    | some ask =>
      rw [hbid, hask] at h
      exact ⟨bid, ask, rfl, rfl, (Option.some.inj h).symm⟩

/-- The quote is of a real bid below an ask. -/
theorem head_bounds {bids asks : List LevelInfo} {bid ask : LevelInfo}
    (hreal : ∀ bid ∈ bids, Real bid.price)
    (hapart : ∀ bid ∈ bids, ∀ ask ∈ asks, bid.price < ask.price)
    (hbid : bids.head? = some bid) (hask : asks.head? = some ask) :
    0 < bid.price.toInt ∧ bid.price.toInt < ask.price.toInt := by
  have hmem := List.mem_of_mem_head? hbid
  exact ⟨Int32.lt_iff_toInt_lt.mp (hreal bid hmem).1,
    Int32.lt_iff_toInt_lt.mp (hapart bid hmem ask (List.mem_of_mem_head? hask))⟩

/-- A table is sound if the report is uncrossed, in price order and at real
prices. -/
theorem soundTable_of_real (v : Clocked n) (levels : ℤ)
    (hreal : ∀ bid ∈ v.engine.getOrderInfos.bids, Real bid.price)
    (hapart : ∀ bid ∈ v.engine.getOrderInfos.bids, ∀ ask ∈ v.engine.getOrderInfos.asks,
      bid.price < ask.price) :
    SoundTable v.engine.getOrderInfos levels (printOrderbook v levels) where
  bids := by
    rw [printOrderbook, List.map_map]
    exact ⟨_, column_eq v.engine.getOrderInfos.bids (List.take_eq_take_iff.mpr (by omega))⟩
  asks := by
    rw [printOrderbook, List.map_map]
    exact ⟨_, column_eq v.engine.getOrderInfos.asks (List.take_eq_take_iff.mpr (by omega))⟩
  filled := by
    intro row hrow hdash
    rw [printOrderbook] at hrow
    obtain ⟨i, hi, rfl⟩ := List.mem_map.mp hrow
    obtain ⟨hbid, hask⟩ := Prod.mk.inj hdash
    rw [List.getElem?_eq_none_iff] at hbid hask
    rw [List.mem_range] at hi
    omega
  falling := levelInfos_sorted v.engine .buy
  rising := levelInfos_sorted v.engine .sell
  apart := hapart
  quoted := by
    rw [printOrderbook, quoteOf]
    cases v.engine.getOrderInfos.bids with
    | nil => simp
    | cons bid bids =>
      cases v.engine.getOrderInfos.asks <;> simp
  best := by
    intro q hq
    obtain ⟨bid, ask, hbid, hask, rfl⟩ := mem_quoteOf hq
    rw [hbid, hask]
    exact ⟨rfl, rfl⟩
  spread := by
    intro q hq
    obtain ⟨bid, ask, hbid, hask, rfl⟩ := mem_quoteOf hq
    obtain ⟨hpos, hlt⟩ := head_bounds hreal hapart hbid hask
    have hmax := ask.price.toInt_lt
    have hexact : (ask.price - bid.price).toInt = ask.price.toInt - bid.price.toInt := by
      rw [Int32.toInt_sub]
      exact Int.bmod_eq_of_le (by omega) (by omega)
    refine ⟨Int32.lt_iff_toInt_lt.mpr ?_, hexact⟩
    rw [hexact]
    exact Int.sub_pos_of_lt hlt
  sum := by
    intro q hq hfits
    obtain ⟨bid, ask, hbid, hask, rfl⟩ := mem_quoteOf hq
    obtain ⟨hpos, hlt⟩ := head_bounds hreal hapart hbid hask
    change bid.price.toInt + ask.price.toInt < 2 ^ 31 at hfits
    rw [Int32.toInt_add]
    exact Int.bmod_eq_of_le (by omega) (by omega)

/-- A snapshot at real prices, crossed or not, is processed in any state and gives
a table that shows the best levels. -/
theorem table_sound {v : Clocked n} (h : Reachable v.engine) {msg : BookSnapshotMessage}
    (hbids : ∀ level ∈ msg.bids, Real level.price) (hasks : ∀ level ∈ msg.asks, Real level.price)
    (order : IterOrder) (latency : Micros) (levels : ℤ) :
    ∃ v', v.processMarketData (.bookSnapshot msg) order latency = .ret true v' ∧
      SoundTable v'.engine.getOrderInfos levels (printOrderbook v' levels) := by
  obtain ⟨e, hrep⟩ := reachable_represents h
  obtain ⟨s', hret, hrep', -⟩ := processMarketData_simulates hrep (.bookSnapshot msg) order
  have hbook := RealBook.processSnapshot hbids hasks e
  have hinfos : s'.getOrderInfos = ⟨(e.processSnapshot msg).book.depth .buy,
      (e.processSnapshot msg).book.depth .sell⟩ :=
    congrArg Observation.orderInfos (observe_eq hrep')
  refine ⟨⟨s', v.timing.record latency⟩, ?_, ?_⟩
  · simp only [Clocked.processMarketData, timed, hret]
  · refine soundTable_of_real _ levels ?_ ?_
    · intro bid hbid
      rw [hinfos] at hbid
      exact hbook.real .buy _ (Book.queue_ne_nil_of_mem_depth hbid)
    · intro bid hbid ask hask
      rw [hinfos] at hbid hask
      have hb := Book.queue_ne_nil_of_mem_depth hbid
      have ha := Book.queue_ne_nil_of_mem_depth hask
      rcases hbook.uncrossed _ _ hb ha with hlt | ⟨hmarket, -⟩
      · exact hlt
      · exact absurd (hbook.real .buy _ hb).2 (by rw [hmarket]; decide)

/-- Two crossing levels trade before the best ones are shown. -/
theorem table_sound_crossed : ∃ v', Clocked.processMarketData (n := 4) ⟨create 4, {}⟩
      (.bookSnapshot ⟨[⟨100, 5⟩, ⟨98, 2⟩], [⟨99, 3⟩, ⟨103, 4⟩], 7⟩) inKeyOrder 3 = .ret true v' ∧
    SoundTable v'.engine.getOrderInfos 1 (printOrderbook v' 1) := by
  let msg : BookSnapshotMessage := ⟨[⟨100, 5⟩, ⟨98, 2⟩], [⟨99, 3⟩, ⟨103, 4⟩], 7⟩
  have hbids : ∀ level ∈ msg.bids, Real level.price := by
    decide
  have hasks : ∀ level ∈ msg.asks, Real level.price := by
    decide
  exact table_sound (v := ⟨create 4, {}⟩) Reachable.create hbids hasks inKeyOrder 3 1

end OrderbookEngine.LiveViewer
