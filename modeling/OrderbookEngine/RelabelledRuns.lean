import OrderbookEngine.RelabelledBook
import OrderbookEngine.SnapshotDepth

/-!
# Runs with other identifiers and types

The engine compares identifiers for equality only, and apart from the end of the
day it treats GoodForDay orders as GoodTillCancel ones. A run of calls with the
orders relabelled has the relabelled replies and is observed alike. Snapshots
take identifiers of their own, which have to keep their labels.
-/

namespace OrderbookEngine.RelabelledRuns

open MarketTypes PoolBook FeedCalls ReferenceBook RunRules Refinement BookState Additions MirrorBook
open RelabelledBook Snapshots SnapshotDepth

/-- New identifiers for orders, and a type for those that were GoodForDay. -/
structure Labels where
  /-- What becomes of an identifier. -/
  id : OrderId → OrderId
  /-- Different identifiers stay different. -/
  injective : id.Injective
  /-- What becomes of a type. -/
  type : OrderType → OrderType
  /-- Only GoodForDay may change. -/
  fixes : ∀ t, t ≠ .goodForDay → type t = t
  /-- It may become GoodTillCancel. -/
  mayRest : type .goodForDay = .goodForDay ∨ type .goodForDay = .goodTillCancel

/-- New identifiers for all orders. -/
def renamed (f : OrderId → OrderId) (hf : f.Injective) : Labels where
  id := f
  injective := hf
  type t := t
  fixes _ _ := rfl
  mayRest := .inl rfl

/-- GoodForDay orders as GoodTillCancel ones. -/
def untilCancel : Labels where
  id i := i
  injective := Function.injective_id
  type t := if t = .goodForDay then .goodTillCancel else t
  fixes _ ht := if_neg ht
  mayRest := .inr rfl

namespace Labels

variable (ℓ : Labels)

/-- The relabelled order. -/
def relabelling : Relabelling where
  order o := ⟨ℓ.id o.orderId, ℓ.type o.orderType, o.quantity⟩
  id := ℓ.id
  orderId _ := rfl
  requantified _ _ := rfl
  injective := ℓ.injective

/-- The reference engine with its orders relabelled. -/
def engine (e : RefEngine) : RefEngine := { e with book := ℓ.relabelling.book e.book }

/-- A message with its identifiers and types changed. -/
def message : MarketDataMessage → MarketDataMessage
  | .newOrder msg =>
    .newOrder ⟨ℓ.id msg.orderId, msg.side, msg.price, msg.quantity, ℓ.type msg.orderType⟩
  | .cancelOrder msg => .cancelOrder ⟨ℓ.id msg.orderId⟩
  | .modifyOrder msg => .modifyOrder ⟨ℓ.id msg.orderId, msg.side, msg.newPrice, msg.newQuantity⟩
  | .trade => .trade
  | .bookSnapshot msg => .bookSnapshot msg

/-- The same call for the relabelled orders. -/
def call : Call → Call
  | .setExchangeRules rules usable => .setExchangeRules rules usable
  | .addOrder type id side price qty => .addOrder (ℓ.type type) (ℓ.id id) side price qty
  | .cancelOrder id => .cancelOrder (ℓ.id id)
  | .modifyOrder mod => .modifyOrder ⟨ℓ.id mod.orderId, mod.side, mod.price, mod.quantity⟩
  | .cancelGoodForDayOrders order => .cancelGoodForDayOrders order
  | .processMarketData msg order => .processMarketData (ℓ.message msg) order
  | .resetMarketDataStats => .resetMarketDataStats

/-- The reply with the relabelled trades. -/
def reply : Reply → Reply
  | .trades ts => .trades (ts.map ℓ.relabelling.trade)
  | r => r

/-- Calls that do not tell the labels apart: the end of the day needs the types,
and a snapshot its own identifiers. -/
def Admits : Call → Prop
  | .cancelGoodForDayOrders _ => ℓ.type .goodForDay = .goodForDay
  | .processMarketData (.bookSnapshot msg) _ =>
    ∀ k < msg.bids.length + msg.asks.length, ℓ.id (syntheticId k) = syntheticId k
  | _ => True

/-- One reply and observation of a run and of the relabelled run. -/
structure Alike (x y : Reply × Observation) : Prop where
  /-- Replies are changed alike. -/
  replies : y.1 = ℓ.reply x.1
  /-- As many orders are live. -/
  size : y.2.size = x.2.size
  /-- Live orders are live under their new identifiers. -/
  hasOrder : ∀ id, y.2.hasOrder (ℓ.id id) = x.2.hasOrder id
  /-- As many slots are free. -/
  free : y.2.poolFreeSlots = x.2.poolFreeSlots
  /-- The depth is the same. -/
  depth : y.2.orderInfos = x.2.orderInfos

section Types

/-- Only GoodForDay and GoodTillCancel may be exchanged. -/
theorem type_eq_iff (type : OrderType) {t : OrderType} (h : t ≠ .goodForDay)
    (h' : t ≠ .goodTillCancel) :
    ℓ.type type = t ↔ type = t := by
  by_cases htype : type = .goodForDay
  · subst htype
    rcases ℓ.mayRest with he | he
    · rw [he]
    · rw [he]
      exact ⟨fun heq => absurd heq.symm h', fun heq => absurd heq.symm h⟩
  · rw [ℓ.fixes type htype]

/-- GoodTillCancel orders stay what they are. -/
theorem type_goodTillCancel : ℓ.type .goodTillCancel = .goodTillCancel :=
  ℓ.fixes .goodTillCancel (by simp)

end Types

section Orders

variable (e : RefEngine)

/-- The same orders pass validation. -/
theorem validateOrder_engine (id : OrderId) (price : Price) (qty : Quantity) :
    (ℓ.engine e).validateOrder (ℓ.id id) price qty = e.validateOrder id price qty := by
  rw [RefEngine.validateOrder, RefEngine.validateOrder, engine]
  dsimp only
  rw [show ℓ.id = ℓ.relabelling.id from rfl, Relabelling.hasOrder_book]

/-- Market orders are converted alike. -/
theorem convertMarket_engine (type : OrderType) (side : Side) (price : Price) :
    (ℓ.engine e).convertMarket (ℓ.type type) side price =
      (e.convertMarket type side price).map fun r => (ℓ.type r.1, r.2) := by
  rw [RefEngine.convertMarket, RefEngine.convertMarket, engine, Relabelling.best?_book,
    Option.isSome_map]
  simp only [ℓ.type_eq_iff type (t := .market) (by simp) (by simp)]
  split_ifs
  · rw [Option.map_some, ℓ.type_goodTillCancel]
  · rfl
  · rfl

/-- Placing the relabelled order is the placement relabelled. -/
theorem place_book (b : Book) (type : OrderType) (id : OrderId) (side : Side) (price : Price)
    (qty : Quantity) :
    place (ℓ.relabelling.book b) (ℓ.type type) (ℓ.id id) side price qty =
      ((place b type id side price qty).1.map ℓ.relabelling.trade,
        ℓ.relabelling.book (place b type id side price qty).2) := by
  have happend : (ℓ.relabelling.book b).append side price ⟨ℓ.id id, ℓ.type type, qty⟩ =
      ℓ.relabelling.book (b.append side price ⟨id, type, qty⟩) :=
    (ℓ.relabelling.book_append b side price ⟨id, type, qty⟩).symm
  rw [place, place, happend, Relabelling.matchBook_book]
  simp only [ℓ.type_eq_iff type (t := .immediateOrCancel) (by simp) (by simp),
    ℓ.type_eq_iff type (t := .fillOrKill) (by simp) (by simp)]
  split_ifs
  · exact ℓ.relabelling.fillOrKill_book b side id price qty
  · exact congrArg _ (ℓ.relabelling.book_cancel _ id).symm
  · rfl

/-- Adding the relabelled order is the addition relabelled. -/
theorem addOrder_engine (type : OrderType) (id : OrderId) (side : Side) (price : Price)
    (qty : Quantity) :
    (ℓ.engine e).addOrder (ℓ.type type) (ℓ.id id) side price qty =
      mapOutcome (List.map ℓ.relabelling.trade) ℓ.engine (e.addOrder type id side price qty) := by
  rw [addOrder_eq_checks, addOrder_eq_checks, convertMarket_engine]
  cases e.convertMarket type side price with
  | none => rfl
  | some r =>
    simp only [Option.map_some, validateOrder_engine,
      ℓ.type_eq_iff r.1 (t := .immediateOrCancel) (by simp) (by simp)]
    simp only [engine, Relabelling.canMatch_book, Relabelling.size_book, place_book]
    split_ifs <;> rfl

/-- Cancellations commute with the change. -/
theorem cancelOrder_engine (id : OrderId) :
    (ℓ.engine e).cancelOrder (ℓ.id id) = ℓ.engine (e.cancelOrder id) := by
  have hcancel := ℓ.relabelling.book_cancel e.book id
  rw [RefEngine.cancelOrder, RefEngine.cancelOrder, engine, engine, hcancel]
  rfl

/-- Modifying the relabelled order is the modification relabelled. -/
theorem modifyOrder_engine (mod : OrderModify) :
    (ℓ.engine e).modifyOrder ⟨ℓ.id mod.orderId, mod.side, mod.price, mod.quantity⟩ =
      mapOutcome (List.map ℓ.relabelling.trade) ℓ.engine (e.modifyOrder mod) := by
  have hfind : (ℓ.engine e).book.find? (ℓ.id mod.orderId) = _ :=
    ℓ.relabelling.find?_book e.book mod.orderId
  have hresize := ℓ.relabelling.book_requantify e.book mod.orderId mod.quantity
  rw [RefEngine.modifyOrder, RefEngine.modifyOrder, hfind]
  cases e.book.find? mod.orderId with
  | none => rfl
  | some r =>
    obtain ⟨side, price, o⟩ := r
    simp only [Option.map_some]
    split_ifs
    · rfl
    · rw [mapOutcome, engine, engine, hresize]
      rfl
    · rw [cancelOrder_engine]
      exact ℓ.addOrder_engine (e.cancelOrder mod.orderId) o.orderType mod.orderId side mod.price
        mod.quantity

/-- The end of the day finds the same orders if GoodForDay keeps its name. -/
theorem cancelGoodForDayOrders_engine (h : ℓ.type .goodForDay = .goodForDay) :
    (ℓ.engine e).cancelGoodForDayOrders = ℓ.engine e.cancelGoodForDayOrders := by
  have hsame : ∀ t, ℓ.type t = t := fun t => by
    by_cases ht : t = .goodForDay
    · rw [ht, h]
    · exact ℓ.fixes t ht
  have hfilter : ℓ.relabelling.book (e.book.filter fun o => o.orderType ≠ .goodForDay) =
      (ℓ.relabelling.book e.book).filter fun o => o.orderType ≠ .goodForDay :=
    ℓ.relabelling.book_filter e.book fun o => by simp only [relabelling, hsame]
  rw [RefEngine.cancelGoodForDayOrders, RefEngine.cancelGoodForDayOrders, engine, engine, hfilter]

end Orders

section Messages

/-- The state left by a changed outcome. -/
theorem leaves_mapOutcome {σ α β : Type*} (f : α → β) (g : σ → σ) (s : σ) (x : Outcome σ α) :
    leaves (g s) (mapOutcome f g x) = g (leaves s x) := by
  cases x <;> rfl

/-- The levels of a side take consecutive identifiers, which keep their labels. -/
theorem addSnapshotLevels_engine (e : RefEngine) (side : Side) (levels : List SnapshotLevel)
    {m : ℕ}
    (h : ∀ k, m ≤ k → k < m + levels.length → ℓ.id (syntheticId k) = syntheticId k) :
    ∃ m' e', RefEngine.addSnapshotLevels side levels (syntheticId m) e = (syntheticId m', e') ∧
      RefEngine.addSnapshotLevels side levels (syntheticId m) (ℓ.engine e) =
        (syntheticId m', ℓ.engine e') ∧ m ≤ m' ∧ m' ≤ m + levels.length := by
  induction levels generalizing e m with
  | nil => exact ⟨m, e, rfl, rfl, Nat.le_refl m, Nat.le_refl m⟩
  | cons level rest ih =>
    rw [List.length_cons] at h
    rw [RefEngine.addSnapshotLevels, RefEngine.addSnapshotLevels, List.length_cons]
    split_ifs
    · obtain ⟨m', e', hret, hret', hge, hle⟩ := ih e fun k hk hlt => h k hk (by omega)
      exact ⟨m', e', hret, hret', hge, by omega⟩
    · have hadd := ℓ.addOrder_engine e .goodTillCancel (syntheticId m) side level.price
        level.quantity
      rw [ℓ.type_goodTillCancel, h m (Nat.le_refl m) (by omega)] at hadd
      obtain ⟨m', e', hret, hret', hge, hle⟩ := ih
        (leaves e (e.addOrder .goodTillCancel (syntheticId m) side level.price level.quantity))
        (m := m + 1) fun k hk hlt => h k (by omega) (by omega)
      rw [hadd, leaves_mapOutcome, syntheticId_succ]
      exact ⟨m', e', hret, hret', by omega, by omega⟩

/-- Snapshots commute with the change if synthetic identifiers stay. -/
theorem processSnapshot_engine (e : RefEngine) (msg : BookSnapshotMessage)
    (h : ∀ k < msg.bids.length + msg.asks.length, ℓ.id (syntheticId k) = syntheticId k) :
    (ℓ.engine e).processSnapshot msg = ℓ.engine (e.processSnapshot msg) := by
  have hempty : ({ ℓ.engine e with book := BookOf.empty } : RefEngine) =
      ℓ.engine { e with book := BookOf.empty } := by
    rw [engine, engine, Relabelling.book_empty]
  have hfirst : firstSyntheticId = syntheticId 0 := rfl
  obtain ⟨m, e₁, hret₁, hret₁', -, hle⟩ := ℓ.addSnapshotLevels_engine
    { e with book := BookOf.empty } .buy msg.bids (m := 0) fun k _ hlt => h k (by omega)
  obtain ⟨m', e₂, hret₂, hret₂', -, -⟩ := ℓ.addSnapshotLevels_engine e₁ .sell msg.asks (m := m)
    fun k _ hlt => h k (by omega)
  rw [RefEngine.processSnapshot, RefEngine.processSnapshot, hempty, hfirst, hret₁, hret₁', hret₂,
    hret₂']

/-- Every public call of the relabelled run is the call relabelled. -/
theorem perform_engine (e : RefEngine) (c : Call) (h : ℓ.Admits c) :
    (ℓ.engine e).perform (ℓ.call c) =
      (ℓ.reply (e.perform c).1, ℓ.engine (e.perform c).2) := by
  cases c with
  | setExchangeRules rules usable => rfl
  | addOrder type id side price qty =>
    rw [call, RefEngine.perform, RefEngine.perform, addOrder_engine]
    cases e.addOrder type id side price qty <;> rfl
  | cancelOrder id =>
    rw [call, RefEngine.perform, RefEngine.perform, cancelOrder_engine]
    rfl
  | modifyOrder mod =>
    rw [call, RefEngine.perform, RefEngine.perform, modifyOrder_engine]
    cases e.modifyOrder mod <;> rfl
  | cancelGoodForDayOrders order =>
    rw [call, RefEngine.perform, RefEngine.perform, ℓ.cancelGoodForDayOrders_engine e h]
    rfl
  | processMarketData msg order =>
    refine Prod.ext rfl ?_
    cases msg with
    | newOrder msg =>
      have hadd := ℓ.addOrder_engine e msg.orderType msg.orderId msg.side msg.price msg.quantity
      exact (congrArg (leaves (ℓ.engine e)) hadd).trans (leaves_mapOutcome _ _ _ _)
    | cancelOrder msg => exact ℓ.cancelOrder_engine e msg.orderId
    | modifyOrder msg =>
      have hmod := ℓ.modifyOrder_engine e ⟨msg.orderId, msg.side, msg.newPrice, msg.newQuantity⟩
      exact (congrArg (leaves (ℓ.engine e)) hmod).trans (leaves_mapOutcome _ _ _ _)
    | trade => rfl
    | bookSnapshot msg => exact ℓ.processSnapshot_engine e msg h
  | resetMarketDataStats => rfl

end Messages

section Runs

/-- What is observed of a changed engine. -/
theorem observe_engine (e : RefEngine) (r : Reply) :
    ℓ.Alike (r, observeRef e) (ℓ.reply r, observeRef (ℓ.engine e)) where
  replies := rfl
  size := ℓ.relabelling.size_book e.book
  hasOrder := fun id => ℓ.relabelling.hasOrder_book e.book id
  free := by
    have hsize := ℓ.relabelling.size_book e.book
    exact congrArg (e.capacity - ·) hsize
  depth := by
    have hbids := ℓ.relabelling.depth_book e.book .buy
    have hasks := ℓ.relabelling.depth_book e.book .sell
    rw [observeRef, observeRef, engine, hbids, hasks]

/-- The relabelled run, call by call. -/
theorem history_engine (e : RefEngine) (calls : List Call) (h : ∀ c ∈ calls, ℓ.Admits c) :
    List.Forall₂ ℓ.Alike (history RefEngine.perform observeRef e calls)
      (history RefEngine.perform observeRef (ℓ.engine e) (calls.map ℓ.call)) := by
  induction calls generalizing e with
  | nil => exact List.Forall₂.nil
  | cons c calls ih =>
    obtain ⟨hc, hcalls⟩ := List.forall_mem_cons.mp h
    rw [List.map_cons, history, history, ℓ.perform_engine e c hc]
    exact List.Forall₂.cons (ℓ.observe_engine _ _) (ih _ hcalls)

/-- Runs commute with the change. -/
theorem afterRef_engine (e : RefEngine) (calls : List Call) (h : ∀ c ∈ calls, ℓ.Admits c) :
    afterRef (ℓ.engine e) (calls.map ℓ.call) = ℓ.engine (afterRef e calls) := by
  induction calls generalizing e with
  | nil => rfl
  | cons c calls ih =>
    obtain ⟨hc, hcalls⟩ := List.forall_mem_cons.mp h
    have hnext := ih (e.perform c).2 hcalls
    rw [List.map_cons, afterRef, List.foldl_cons, ℓ.perform_engine e c hc]
    exact hnext

/-- A fresh engine has nothing to change. -/
theorem engine_create (capacity : ℕ) :
    ℓ.engine (RefEngine.create capacity) = RefEngine.create capacity := by
  rw [engine, RefEngine.create, Relabelling.book_empty]

/-- The run of the relabelled calls on a fresh engine. -/
theorem history_relabelled (n : ℕ) (calls : List Call) (h : ∀ c ∈ calls, ℓ.Admits c) :
    List.Forall₂ ℓ.Alike (history perform observe (create n) calls)
      (history perform observe (create n) (calls.map ℓ.call)) ∧
    ∀ side price, listing (after (create n) (calls.map ℓ.call)) side price =
      (listing (after (create n) calls) side price).map ℓ.relabelling.order := by
  have hrep := represents_create n
  have hfirst := ℓ.engine_create (slotCount n)
  have hhistory := ℓ.history_engine (RefEngine.create (slotCount n)) calls h
  have hafter := ℓ.afterRef_engine (RefEngine.create (slotCount n)) calls h
  rw [hfirst] at hhistory hafter
  refine ⟨by rwa [history_eq hrep, history_eq hrep], fun side price => ?_⟩
  rw [listing_eq (represents_after hrep _), listing_eq (represents_after hrep _), hafter]
  exact BookOf.queue_mapVal ℓ.relabelling.order _ side price

end Runs

end Labels

/-- Identifiers are opaque to the engine: a run with other identifiers has the
same replies, observations and queues with the identifiers exchanged. -/
theorem run_renamed (n : ℕ) (f : OrderId → OrderId) (hf : f.Injective) (calls : List Call)
    (h : ∀ c ∈ calls, (renamed f hf).Admits c) :
    List.Forall₂ (renamed f hf).Alike (history perform observe (create n) calls)
      (history perform observe (create n) (calls.map (renamed f hf).call)) ∧
    ∀ side price, listing (after (create n) (calls.map (renamed f hf).call)) side price =
      (listing (after (create n) calls) side price).map (renamed f hf).relabelling.order :=
  (renamed f hf).history_relabelled n calls h

/-- A snapshot and orders of all lifetimes. -/
def mixedCalls : List Call :=
  [.processMarketData (.bookSnapshot ⟨[⟨99, 5⟩], [⟨101, 4⟩], 7⟩) inKeyOrder,
    .addOrder .goodForDay 1 .sell 100 5, .addOrder .fillOrKill 2 .buy 101 7,
    .addOrder .market 2 .buy 0 1, .modifyOrder ⟨1, .sell, 98, 6⟩,
    .cancelGoodForDayOrders inKeyOrder]

/-- The identifiers 1 and 2 exchanged. -/
theorem run_renamed_swapped :
    List.Forall₂ (renamed (Equiv.swap 1 2) (Equiv.swap 1 2).injective).Alike
      (history perform observe (create 4) mixedCalls)
      (history perform observe (create 4)
        (mixedCalls.map (renamed (Equiv.swap 1 2) (Equiv.swap 1 2).injective).call)) ∧
    ∀ side price,
      listing (after (create 4)
          (mixedCalls.map (renamed (Equiv.swap 1 2) (Equiv.swap 1 2).injective).call)) side price =
        (listing (after (create 4) mixedCalls) side price).map
          (renamed (Equiv.swap 1 2) (Equiv.swap 1 2).injective).relabelling.order := by
  refine run_renamed 4 (Equiv.swap 1 2) (Equiv.swap 1 2).injective mixedCalls ?_
  simp only [mixedCalls, List.forall_mem_cons, List.not_mem_nil, false_imp_iff, implies_true,
    Labels.Admits, and_true, renamed]
  decide

section EndOfDay

/-- A change of types is not seen in replies. -/
theorem reply_untilCancel (r : Reply) : untilCancel.reply r = r := by
  cases r with
  | trades ts => exact congrArg Reply.trades (List.map_id ts)
  | _ => rfl

/-- Nor in observations. -/
theorem eq_of_alike {x y : Reply × Observation} (h : untilCancel.Alike x y) : y = x := by
  obtain ⟨hreply, hsize, hhas, hfree, hdepth⟩ := h
  rw [reply_untilCancel] at hreply
  refine Prod.ext hreply ?_
  have hlive : y.2.hasOrder = x.2.hasOrder := funext hhas
  cases hx : x.2
  cases hy : y.2
  simp_all

/-- Until the end of a day GoodForDay orders are GoodTillCancel orders: a run
without it has the same history with either type, and the same queues up to it. -/
theorem goodForDay_untilCancel (n : ℕ) (calls : List Call)
    (h : ∀ order, .cancelGoodForDayOrders order ∉ calls) :
    history perform observe (create n) (calls.map untilCancel.call) =
      history perform observe (create n) calls ∧
    ∀ side price, listing (after (create n) (calls.map untilCancel.call)) side price =
      (listing (after (create n) calls) side price).map fun o =>
        { o with orderType := untilCancel.type o.orderType } := by
  have hadmits : ∀ c ∈ calls, untilCancel.Admits c := by
    intro c hc
    cases c with
    | cancelGoodForDayOrders order => exact absurd hc (h order)
    | processMarketData msg order =>
      cases msg with
      | bookSnapshot msg => exact fun _ _ => rfl
      | _ => trivial
    | _ => trivial
  obtain ⟨halike, hlisting⟩ := untilCancel.history_relabelled n calls hadmits
  refine ⟨?_, hlisting⟩
  have hsame := halike.imp fun _ _ hxy => (eq_of_alike hxy).symm
  exact (List.forall₂_eq_eq_eq ▸ hsame : _ = _).symm

/-- An order that is moved and then traded. -/
theorem goodForDay_untilCancel_moved :
    history perform observe (create 2)
        ([.addOrder .goodForDay 1 .sell 100 5, .modifyOrder ⟨1, .sell, 101, 6⟩,
          .addOrder .goodForDay 2 .buy 101 2].map untilCancel.call) =
      history perform observe (create 2)
        [.addOrder .goodForDay 1 .sell 100 5, .modifyOrder ⟨1, .sell, 101, 6⟩,
          .addOrder .goodForDay 2 .buy 101 2] ∧
    ∀ side price,
      listing (after (create 2)
          ([.addOrder .goodForDay 1 .sell 100 5, .modifyOrder ⟨1, .sell, 101, 6⟩,
            .addOrder .goodForDay 2 .buy 101 2].map untilCancel.call)) side price =
        (listing (after (create 2)
          [.addOrder .goodForDay 1 .sell 100 5, .modifyOrder ⟨1, .sell, 101, 6⟩,
            .addOrder .goodForDay 2 .buy 101 2]) side price).map fun o =>
          { o with orderType := untilCancel.type o.orderType } :=
  goodForDay_untilCancel 2 _ (by simp)

end EndOfDay

end OrderbookEngine.RelabelledRuns
