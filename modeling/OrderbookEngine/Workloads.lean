import Mathlib.Algebra.Ring.Int.Defs
import OrderbookEngine.FeedCounters
import OrderbookEngine.PriceRules
import OrderbookEngine.PriceTimeSweep
import OrderbookEngine.RealBooks
import OrderbookEngine.RunTotals

/-!
# The workloads of the benchmarks

Each workload adds limit orders with counted identifiers to a fresh engine. As
long as the pool has a slot for each of them no addition raises. Orders of both
sides net against each other, and cancelling all orders that were found live
after their addition leaves a fresh engine.
-/

namespace OrderbookEngine.Workloads

open StepRuns MarketTypes PoolBook FeedCalls ReferenceBook ReferenceSteps EngineSimulation RunRules
open BookState Additions TradePrices RealBooks QuantityRules PriceRules BulkCancels AllOrNothing
open PriceTimeSweep FeedCounters RunTotals

variable {n : ℕ} {s : Orderbook n} {e : RefEngine} {b b' : Book} {id : OrderId}
  {side aggressorSide : Side} {price : Price} {ts : Trades}

/-- A generated order. -/
structure AddAction where
  /-- Side of the order. -/
  side : Side
  /-- Its limit. -/
  price : Price
  /-- Its quantity. -/
  qty : Quantity
  deriving DecidableEq

/-- Add generated orders under the next identifiers. -/
def addOrders : List AddAction → OrderId → Orderbook n → Outcome (Orderbook n) OrderId
  | [], id, s => .ret id s
  | action :: rest, id, s =>
    (s.addOrder .goodTillCancel (id + 1) action.side action.price action.qty).bind fun _ s =>
      addOrders rest (id + 1) s

/-- Add generated orders, and note those that are live afterwards. -/
def addActive : List AddAction → OrderId → List OrderId → Orderbook n →
    Outcome (Orderbook n) (List OrderId)
  | [], _, activeIds, s => .ret activeIds s
  | action :: rest, id, activeIds, s =>
    (s.addOrder .goodTillCancel (id + 1) action.side action.price action.qty).bind fun _ s =>
      addActive rest (id + 1) (if s.hasOrder (id + 1) then activeIds ++ [id + 1] else activeIds) s

/-- Add generated orders, then cancel those that were live. -/
def cancelOrders (actions : List AddAction) (s : Orderbook n) : Outcome (Orderbook n) Unit :=
  (addActive actions 0 [] s).bind fun activeIds s => Orderbook.cancelEach activeIds s

/-- Add passive buys, then aggressive sells at the same price. -/
def matchOrders (buys sells : List Quantity) (s : Orderbook n) : Outcome (Orderbook n) OrderId :=
  (addOrders (buys.map fun q => ⟨.buy, 100, q⟩) 0 s).bind fun id s =>
    addOrders (sells.map fun q => ⟨.sell, 100, q⟩) id s

section Fills

/-- A fill takes its quantity from both sides. -/
theorem sideQuantity_matchStep {t : Trade}
    (h : Book.matchStep aggressorSide b = some (t, b')) (side : Side) :
    sideQuantity b' side + t.quantity.toNat = sideQuantity b side := by
  obtain ⟨bidPrice, bid, bids, askPrice, ask, asks, hbid, hask, -, -, rfl, rfl⟩ :=
    matchStep_eq_some_iff.mp h
  have hmin := toNat_min bid.quantity ask.quantity
  cases side with
  | buy =>
    have hset := sideQuantity_setQueue b .buy bidPrice
      (Book.fillHead (min bid.quantity ask.quantity) bid bids)
    have hle : (min bid.quantity ask.quantity).toNat ≤ bid.quantity.toNat := by omega
    have hfill := quantityIn_fillHead hle bids
    rw [BookOf.queue_of_best? hbid] at hset
    rw [sideQuantity_setQueue_of_ne _ _ _ (by simp)]
    dsimp only
    omega
  | sell =>
    have hset := sideQuantity_setQueue (b.setQueue .buy bidPrice
      (Book.fillHead (min bid.quantity ask.quantity) bid bids)) .sell askPrice
      (Book.fillHead (min bid.quantity ask.quantity) ask asks)
    have hle : (min bid.quantity ask.quantity).toNat ≤ ask.quantity.toNat := by omega
    have hfill := quantityIn_fillHead hle asks
    have hbids := sideQuantity_setQueue_of_ne b bidPrice
      (Book.fillHead (min bid.quantity ask.quantity) bid bids) (show Side.sell ≠ .buy by simp)
    rw [BookOf.queue_setQueue, if_neg (by simp), BookOf.queue_of_best? hask, hbids] at hset
    dsimp only
    omega

/-- Matching takes what it trades from both sides. -/
theorem sideQuantity_matchSteps (h : Steps (Book.matchStep aggressorSide) b ts b') (side : Side) :
    sideQuantity b' side + (ts.map fun t => t.quantity.toNat).sum = sideQuantity b side := by
  induction h with
  | refl b => rfl
  | head hstep _ ih =>
    have hone := sideQuantity_matchStep hstep side
    rw [List.map_cons, List.sum_cons]
    omega

/-- An appended order adds its quantity to its side. -/
theorem sideQuantity_append (b : Book) (side : Side) (price : Price) (o : Resting)
    (side' : Side) : sideQuantity (b.append side price o) side' =
      sideQuantity b side' + if side' = side then o.quantity.toNat else 0 := by
  have hset := sideQuantity_setQueue b side price (b.queue side price ++ [o])
  rw [quantityIn_append, quantityIn_cons, show quantityIn [] = 0 from rfl] at hset
  rw [Book.append]
  split_ifs with h
  · subst h
    omega
  · rw [sideQuantity_setQueue_of_ne b price _ h]
    rfl

end Fills

section Additions

/-- With a free slot a limit order returns; it is refused or placed. -/
theorem add_returns (h : Represents s e) (hroom : e.book.size < e.capacity) (id : OrderId)
    (side : Side) (price : Price) (qty : Quantity) :
    ∃ ts s' b, s.addOrder .goodTillCancel id side price qty = .ret ts s' ∧
      Follows s s' { e with book := b } ∧ b.size ≤ e.book.size + 1 ∧
      b = if e.validateOrder id price qty = true then
        ((e.book.append side price ⟨id, .goodTillCancel, qty⟩).matchBook side).2
      else e.book := by
  have hagree := addOrder_simulates h .goodTillCancel id side price qty
  rw [addOrder_eq_checks, RefEngine.convertMarket, if_neg (by simp)] at hagree
  dsimp only at hagree
  by_cases hv : e.validateOrder id price qty = true
  · have hsize := size_place e.book .goodTillCancel id side price qty
    rw [if_neg (not_not.mpr hv), if_neg (by simp), if_neg (by omega)] at hagree
    obtain ⟨s', hret, hfollows⟩ := hagree.eq_ret
    exact ⟨_, s', _, hret, hfollows, by omega, by rw [if_pos hv]; rfl⟩
  · rw [if_pos hv] at hagree
    obtain ⟨s', hret, hfollows⟩ := hagree.eq_ret
    exact ⟨_, s', e.book, hret, hfollows, by omega, by rw [if_neg hv]⟩

/-- All live orders of a book are among some identifiers. -/
def Among (b : Book) (ids : List OrderId) : Prop :=
  ∀ side price, ∀ o ∈ b.queue side price, o.orderId ∈ ids

/-- What is live after matching was in the book or is the order that came in. -/
theorem mem_matchBook_append {o x : Resting} {side' : Side} {price' : Price}
    (hx : x ∈ ((b.append side price o).matchBook side).2.queue side' price') :
    (side' = side ∧ price' = price ∧ x.orderId = o.orderId) ∨
      ∃ y ∈ b.queue side' price', y.orderId = x.orderId := by
  obtain ⟨y, hy, hid⟩ := (shrinks_matchSteps (matchBook_steps side _)).mem hx
  rw [Book.append, BookOf.queue_setQueue] at hy
  split_ifs at hy with he
  · obtain ⟨rfl, rfl⟩ := he
    rcases List.mem_append.mp hy with hy | hy
    · exact Or.inr ⟨y, hy, hid⟩
    · exact Or.inl ⟨rfl, rfl, by rw [← hid, List.mem_singleton.mp hy]⟩
  · exact Or.inr ⟨y, hy, hid⟩

/-- Placing an order adds no other one. -/
theorem among_matchBook {ids : List OrderId} (h : Among b ids) (o : Resting) :
    Among ((b.append side price o).matchBook side).2 (ids ++ [o.orderId]) := by
  intro side' price' x hx
  rcases mem_matchBook_append hx with ⟨-, -, hid⟩ | ⟨y, hy, hid⟩
  · exact List.mem_append_right _ (List.mem_singleton.mpr hid)
  · exact List.mem_append_left _ (hid ▸ h side' price' y hy)

end Additions

section Cancelling

/-- The noted identifiers cover all live orders. -/
theorem addActive_covers (h : Represents s e) {activeIds : List OrderId}
    (hamong : Among e.book activeIds) (actions : List AddAction)
    (hroom : e.book.size + actions.length ≤ e.capacity) (id : OrderId) :
    ∃ ids s' b, addActive actions id activeIds s = .ret ids s' ∧
      Follows s s' { e with book := b } ∧ Among b ids := by
  induction actions generalizing s e activeIds id with
  | nil => exact ⟨activeIds, s, e.book, rfl, ⟨h, rfl⟩, hamong⟩
  | cons action rest ih =>
    rw [List.length_cons] at hroom
    obtain ⟨ts, s₁, b, hret, ⟨hrep, hset⟩, hsize, hb⟩ :=
      add_returns h (by omega) (id + 1) action.side action.price action.qty
    have hadded : Among b (activeIds ++ [id + 1]) := by
      rw [hb]
      split_ifs
      · exact among_matchBook hamong ⟨id + 1, .goodTillCancel, action.qty⟩
      · exact fun side price o ho => List.mem_append_left _ (hamong side price o ho)
    -- an order that is not live need not be noted
    have hnoted : Among b (if s₁.hasOrder (id + 1) then activeIds ++ [id + 1] else activeIds) := by
      split_ifs with hlive
      · exact hadded
      · intro side price o ho
        rcases List.mem_append.mp (hadded side price o ho) with hmem | hmem
        · exact hmem
        · rw [hrep.hasOrder_book, Book.hasOrder, Bool.not_eq_true, Option.isSome_eq_false_iff,
            Option.isNone_iff_eq_none] at hlive
          exact absurd (List.mem_singleton.mp hmem) (find?_eq_none_iff.mp hlive side price o ho)
    obtain ⟨ids, s', b', hrest, ⟨hrep', hset'⟩, hamong'⟩ := ih hrep hnoted
      (by dsimp only; omega) (id + 1)
    refine ⟨ids, s', b', ?_, ⟨hrep', hset'.trans hset⟩, hamong'⟩
    rw [addActive, hret, Outcome.ret_bind, hrest]

/-- The cancel workload ends in a state that nobody can tell from a fresh
engine, whatever the generated orders and however they traded. -/
theorem cancelling_resets (actions : List AddAction) (hroom : actions.length ≤ slotCount n) :
    ∃ s, cancelOrders actions (create n) = .ret () s ∧ Inseparable (create n) s := by
  have hempty : Among (RefEngine.create (slotCount n)).book [] := by
    intro side price o ho
    rw [show (RefEngine.create (slotCount n)).book = BookOf.empty from rfl,
      BookOf.queue_empty] at ho
    cases ho
  have hzero : (RefEngine.create (slotCount n)).book.size = 0 := rfl
  obtain ⟨ids, s₁, b, hadd, ⟨hrep, hset⟩, hamong⟩ := addActive_covers (represents_create n) hempty
    actions (by rw [hzero, Nat.zero_add]; exact hroom) 0
  obtain ⟨s, hcancel, hrep'⟩ := cancelEach_filters hrep ids
  refine ⟨s, ?_, inseparable_of_represents (represents_create n) ?_
    ((settings_of_cancelEach hrep hcancel).trans hset)⟩
  · rw [cancelOrders, hadd, Outcome.ret_bind, hcancel]
  · have hgone : b.filter (fun o => o.orderId ∉ ids) = BookOf.empty := by
      refine BookOf.ext_queue fun side price => ?_
      rw [BookOf.queue_filter, BookOf.queue_empty, List.filter_eq_nil_iff]
      intro o ho
      simpa using hamong side price o ho
    dsimp only at hrep'
    rw [hgone] at hrep'
    exact hrep'

/-- Two buys and a crossing sell, which fills one of them and half of the other. -/
theorem cancelling_resets_threeActions : ∃ s,
    cancelOrders [⟨.buy, 100, 5⟩, ⟨.buy, 99, 4⟩, ⟨.sell, 99, 7⟩] (create 3) = .ret () s ∧
      Inseparable (create 3) s :=
  cancelling_resets _ (by decide)

end Cancelling

section Netting

/-- A generated order that the default rules accept. -/
structure Acceptable (action : AddAction) : Prop where
  /-- The limit is a real price. -/
  price : Real action.price
  /-- The quantity is positive. -/
  pos : 0 < action.qty
  /-- It is within the default rules. -/
  le : action.qty ≤ 1000000

/-- Quantity of an order, negative for a sell. -/
def signed (action : AddAction) : ℤ :=
  match action.side with
  | .buy => action.qty.toNat
  | .sell => -action.qty.toNat

/-- Buys less sells. -/
def net (actions : List AddAction) : ℤ := (actions.map signed).sum

/-- Exact quantity of all live orders on a side. -/
def sideTotal (s : Orderbook n) (side : Side) : ℕ :=
  ((priorityList s side).map fun x => x.2.quantity.toNat).sum

/-- The quantity on a side is that of the book. -/
theorem sideTotal_eq (h : Represents s e) (side : Side) :
    sideTotal s side = sideQuantity e.book side := by
  rw [sideTotal, priorityList_eq h, sideQuantity]

/-- The default rules accept such an order under an unused identifier. -/
theorem Acceptable.validateOrder {action : AddAction} (h : Acceptable action)
    (hrules : e.rules = {}) (hid : e.book.find? id = none) :
    e.validateOrder id action.price action.qty = true := by
  have hpos := Int32.lt_iff_toInt_lt.mp h.price.1
  have hmeets : meetsRules {} action.price action.qty = true := by
    refine (meetsRules_iff _ _ _).mpr ⟨(isValidQuantity_iff _ _).mpr ⟨?_, h.le, Nat.one_dvd _⟩,
      Or.inr ⟨hpos, Int.one_dvd _, ?_⟩⟩
    · have hne := UInt32.lt_iff_toNat_lt.mp h.pos
      exact UInt32.le_iff_toNat_le.mpr hne
    · exact Int.mul_nonneg (le_of_lt hpos) (by omega)
  rw [RefEngine.validateOrder, Book.hasOrder, hid, hrules, Bool.and_assoc]
  exact hmeets

/-- After some additions under the default rules the book is at real prices that
were submitted, and holds what is left of buys and sells. -/
structure Netted (e : RefEngine) (actions : List AddAction) : Prop where
  /-- The default rules are in force. -/
  rules : e.rules = {}
  /-- No more orders rest than were sent. -/
  size : e.book.size ≤ actions.length
  /-- The book is uncrossed and at real prices. -/
  real : RealBook e.book
  /-- Identifiers are counted up. -/
  ids : ∀ side price, ∀ o ∈ e.book.queue side price,
    ∃ k ≤ actions.length, o.orderId = UInt64.ofNat k
  /-- The surplus is that of the actions. -/
  net : (sideQuantity e.book .buy : ℤ) - sideQuantity e.book .sell = net actions
  /-- Something rests only where it was sent. -/
  submitted : ∀ side price, e.book.queue side price ≠ [] →
    ∃ action ∈ actions, action.side = side ∧ action.price = price

variable {actions : List AddAction} {action : AddAction}

/-- At first nothing is netted. -/
theorem netted_create (capacity : ℕ) : Netted (RefEngine.create capacity) [] where
  rules := rfl
  size := Nat.le_refl 0
  real := RealBook.empty
  ids := fun side price o ho => by
    rw [show (RefEngine.create capacity).book = BookOf.empty from rfl, BookOf.queue_empty] at ho
    cases ho
  net := rfl
  submitted := fun side price hne => absurd (BookOf.queue_empty side price) hne

/-- The net quantity with one more action. -/
theorem net_append (actions : List AddAction) (action : AddAction) :
    net (actions ++ [action]) = net actions + signed action := by
  rw [net, List.map_append, List.sum_append, net, List.map_singleton, List.sum_singleton]

/-- The next identifier is unused. -/
theorem Netted.unused (h : Netted e actions) (hlen : actions.length + 1 < 2 ^ 64) :
    e.book.find? (UInt64.ofNat (actions.length + 1)) = none := by
  rw [find?_eq_none_iff]
  intro side price o ho hid
  obtain ⟨k, hk, hko⟩ := h.ids side price o ho
  have hnat := congrArg UInt64.toNat (hko.symm.trans hid)
  rw [UInt64.toNat_ofNat_of_lt' (show k < 2 ^ 64 by omega),
    UInt64.toNat_ofNat_of_lt' (show actions.length + 1 < 2 ^ 64 by omega)] at hnat
  omega

/-- One more addition. -/
theorem Netted.add (h : Netted e actions) (haction : Acceptable action) {b : Book}
    (hsize : b.size ≤ e.book.size + 1)
    (hb : b = ((e.book.append action.side action.price
      ⟨UInt64.ofNat (actions.length + 1), .goodTillCancel, action.qty⟩).matchBook
        action.side).2) :
    Netted { e with book := b } (actions ++ [action]) where
  rules := h.rules
  size := by
    have hle := h.size
    rw [List.length_append, List.length_singleton]
    dsimp only
    omega
  real := hb ▸ h.real.place haction.price _
  ids := fun side price o ho => by
    rw [List.length_append, List.length_singleton]
    rw [show ({ e with book := b } : RefEngine).book = b from rfl, hb] at ho
    rcases mem_matchBook_append ho with ⟨-, -, hid⟩ | ⟨x, hx, hid⟩
    · exact ⟨actions.length + 1, Nat.le_refl _, hid⟩
    · obtain ⟨k, hk, hxk⟩ := h.ids side price x hx
      exact ⟨k, by omega, hid ▸ hxk⟩
  net := by
    have hnet := h.net
    have hsteps := matchBook_steps action.side (e.book.append action.side action.price
      ⟨UInt64.ofNat (actions.length + 1), .goodTillCancel, action.qty⟩)
    rw [← hb] at hsteps
    have hbids := sideQuantity_matchSteps hsteps .buy
    have hasks := sideQuantity_matchSteps hsteps .sell
    rw [sideQuantity_append] at hbids hasks
    rw [net_append, signed]
    dsimp only at hbids hasks ⊢
    generalize action.side = side at hbids hasks ⊢
    cases side with
    | buy =>
      rw [if_pos rfl] at hbids
      rw [if_neg (by simp)] at hasks
      dsimp only
      omega
    | sell =>
      rw [if_neg (by simp)] at hbids
      rw [if_pos rfl] at hasks
      dsimp only
      omega
  submitted := fun side price hne => by
    obtain ⟨x, hx⟩ := List.exists_mem_of_ne_nil _ hne
    rw [show ({ e with book := b } : RefEngine).book = b from rfl, hb] at hx
    rcases mem_matchBook_append hx with ⟨rfl, rfl, -⟩ | ⟨y, hy, -⟩
    · exact ⟨action, List.mem_append_right _ (List.mem_singleton_self _), rfl, rfl⟩
    · obtain ⟨a, ha, hsame⟩ := h.submitted side price (List.ne_nil_of_mem hy)
      exact ⟨a, List.mem_append_left _ ha, hsame⟩

/-- Additions of acceptable orders return, one after the other. -/
theorem Netted.run (h : Represents s e) (hn : Netted e actions) {later : List AddAction}
    (hlater : ∀ action ∈ later, Acceptable action)
    (hroom : actions.length + later.length ≤ e.capacity) (hcap : e.capacity ≤ 2 ^ 31) :
    ∃ s' b, addOrders later (UInt64.ofNat actions.length) s =
        .ret (UInt64.ofNat (actions.length + later.length)) s' ∧
      Represents s' { e with book := b } ∧ Netted { e with book := b } (actions ++ later) := by
  induction later generalizing s e actions with
  | nil => exact ⟨s, e.book, rfl, h, by simpa using hn⟩
  | cons action rest ih =>
    rw [List.forall_mem_cons] at hlater
    rw [List.length_cons] at hroom
    have hid : UInt64.ofNat actions.length + 1 = UInt64.ofNat (actions.length + 1) := by
      rw [UInt64.ofNat_add]
      rfl
    have hsize := hn.size
    obtain ⟨ts, s₁, b, hret, ⟨hrep, -⟩, hle, hb⟩ := add_returns h (by omega)
      (UInt64.ofNat (actions.length + 1)) action.side action.price action.qty
    rw [if_pos (hlater.1.validateOrder hn.rules (hn.unused (by omega)))] at hb
    have hadd := hn.add hlater.1 hle hb
    obtain ⟨s', b', hrest, hrep', hn'⟩ := ih hrep hadd hlater.2
      (by rw [List.length_append, List.length_singleton]; dsimp only; omega) hcap
    rw [List.append_assoc] at hn'
    rw [List.length_append, List.length_singleton] at hrest
    refine ⟨s', b', ?_, hrep', hn'⟩
    rw [addOrders, hid, hret, Outcome.ret_bind, hrest, List.length_cons]
    congr 2
    omega

end Netting

/-- No order of a book at real prices crosses another one. -/
theorem apart_of_real (h : RealBook b) : ApartBook b := by
  have hlt : ∀ bid ask, b.queue .buy bid ≠ [] → b.queue .sell ask ≠ [] → bid < ask := by
    intro bid ask hbid hask
    rcases h.uncrossed bid ask hbid hask with hlt | ⟨hmarket, -⟩
    · exact hlt
    · exact absurd (h.real .buy bid hbid).2 (by rw [hmarket]; decide)
  intro side own opposing hown hopp
  cases side with
  | buy =>
    have h := hlt own opposing hown hopp
    simp only [Side.crosses]
    grind
  | sell =>
    have h := hlt opposing own hopp hown
    simp only [Side.crosses]
    grind

/-- A side without orders has no quantity. -/
theorem sideQuantity_eq_zero (h : ∀ price, b.queue side price = []) : sideQuantity b side = 0 := by
  have hnil : b.orders side = [] := by
    rw [List.eq_nil_iff_forall_not_mem]
    rintro ⟨price, o⟩ ho
    rw [BookOf.mem_orders, h] at ho
    cases ho
  rw [sideQuantity, hnil]
  rfl

/-- Quantity of some orders. -/
def total (qs : List Quantity) : ℕ := (qs.map fun q => q.toNat).sum

/-- The total with one more quantity in front. -/
theorem total_cons (q : Quantity) (qs : List Quantity) :
    total (q :: qs) = q.toNat + total qs := by
  rw [total, List.map_cons, List.sum_cons, total]

/-- The net quantity of buys and sells. -/
theorem net_matchOrders (buys sells : List Quantity) :
    net ((buys.map fun q => ⟨.buy, 100, q⟩) ++ sells.map fun q => ⟨.sell, 100, q⟩) =
      (total buys : ℤ) - total sells := by
  have hbuys : ((buys.map fun q => (⟨.buy, 100, q⟩ : AddAction)).map signed).sum =
      (total buys : ℤ) := by
    induction buys with
    | nil => rfl
    | cons q buys ih =>
      rw [List.map_cons, List.map_cons, List.sum_cons, ih, total_cons]
      simp only [signed]
      omega
  have hsells : ((sells.map fun q => (⟨.sell, 100, q⟩ : AddAction)).map signed).sum =
      -(total sells : ℤ) := by
    induction sells with
    | nil => rfl
    | cons q sells ih =>
      rw [List.map_cons, List.map_cons, List.sum_cons, ih, total_cons]
      simp only [signed]
      omega
  rw [net, List.map_append, List.sum_append, hbuys, hsells, Int.sub_eq_add_neg]

/-- Actions may be added in two goes. -/
theorem addOrders_append (actions later : List AddAction) (id : OrderId) (s : Orderbook n) :
    addOrders (actions ++ later) id s =
      (addOrders actions id s).bind fun id s => addOrders later id s := by
  induction actions generalizing id s with
  | nil => rfl
  | cons action rest ih =>
    rw [List.cons_append, addOrders, addOrders]
    cases s.addOrder .goodTillCancel (id + 1) action.side action.price action.qty with
    | ret ts s₁ => exact ih (id + 1) s₁
    | raise x s₁ => rfl
    | diverge => rfl

/-- The match workload leaves the difference of the two sides, resting at their
common price on the side that had more. -/
theorem matching_nets (buys sells : List Quantity)
    (hvalid : ∀ q ∈ buys ++ sells, 0 < q ∧ q ≤ 1000000)
    (hroom : buys.length + sells.length ≤ slotCount n) :
    ∃ s, matchOrders buys sells (create n) =
        .ret (UInt64.ofNat (buys.length + sells.length)) s ∧
      sideTotal s .buy = total buys - total sells ∧
      sideTotal s .sell = total sells - total buys ∧
      ∀ side price, RestsAt s side price → price = 100 := by
  let actions : List AddAction :=
    (buys.map fun q => ⟨.buy, 100, q⟩) ++ sells.map fun q => ⟨.sell, 100, q⟩
  have hactions : ∀ action ∈ actions, action.price = 100 ∧ Acceptable action := by
    intro action haction
    rcases List.mem_append.mp haction with h | h
    · obtain ⟨q, hq, rfl⟩ := List.mem_map.mp h
      obtain ⟨hpos, hle⟩ := hvalid q (List.mem_append_left _ hq)
      exact ⟨rfl, (by decide : Real 100), hpos, hle⟩
    · obtain ⟨q, hq, rfl⟩ := List.mem_map.mp h
      obtain ⟨hpos, hle⟩ := hvalid q (List.mem_append_right _ hq)
      exact ⟨rfl, (by decide : Real 100), hpos, hle⟩
  have hlen : actions.length = buys.length + sells.length := by simp [actions]
  obtain ⟨s, b, hret, hrep, hn⟩ := (netted_create (slotCount n)).run (represents_create n)
    (fun action haction => (hactions action haction).2)
    (by rw [List.length_nil, Nat.zero_add, hlen]; exact hroom) (slotCount_le_max n)
  rw [List.length_nil, Nat.zero_add, hlen] at hret
  have hprice : ∀ side price, b.queue side price ≠ [] → price = 100 := by
    intro side price hne
    obtain ⟨action, haction, -, rfl⟩ := hn.submitted side price hne
    exact (hactions action haction).1
  have hnet := hn.net
  rw [List.nil_append, net_matchOrders] at hnet
  -- two sides at one price would cross
  have hone : sideQuantity b .buy = 0 ∨ sideQuantity b .sell = 0 := by
    by_cases hbids : ∀ price, b.queue .buy price = []
    · exact Or.inl (sideQuantity_eq_zero hbids)
    · refine Or.inr (sideQuantity_eq_zero fun ask => ?_)
      obtain ⟨bid, hbid⟩ := not_forall.mp hbids
      by_contra hask
      have hcross := apart_of_real hn.real .buy bid ask hbid hask
      rw [hprice .buy bid hbid, hprice .sell ask hask] at hcross
      exact hcross (Int32.le_refl _)
  refine ⟨s, ?_, ?_, ?_, fun side price hrests =>
    hprice side price ((restsAt_represents hrep side price).mp hrests)⟩
  · rw [matchOrders, ← addOrders_append]
    exact hret
  · rw [sideTotal_eq hrep]
    dsimp only at hnet ⊢
    omega
  · rw [sideTotal_eq hrep]
    dsimp only at hnet ⊢
    omega

/-- Three buys against two larger sells. -/
theorem matching_nets_sells : ∃ s, matchOrders [5, 4, 3] [9, 8] (create 5) = .ret 5 s ∧
    sideTotal s .buy = 0 ∧ sideTotal s .sell = 5 := by
  have hvalid : ∀ q ∈ ([5, 4, 3] : List Quantity) ++ [9, 8], 0 < q ∧ q ≤ 1000000 := by
    simp
  obtain ⟨s, hret, hbids, hasks, -⟩ := matching_nets (n := 5) [5, 4, 3] [9, 8] hvalid (by decide)
  exact ⟨s, hret, hbids, hasks⟩

end OrderbookEngine.Workloads
