import OrderbookEngine.Additions

/-!
# Books with other prices

Matching compares prices and hands them to its trades. Prices that are exchanged
for others in the same order, with the two market prices left as they are, give
a book on which every operation does the same at the new prices. Such a change
exists for some of the prices only, so that it relates books instead of mapping
them.
-/

namespace OrderbookEngine.RepricedBook

open SortedMap StepRuns MarketTypes PoolBook ReferenceBook ReferenceSteps Additions

/-- New prices for the prices of a domain, in the same order. -/
structure Repricing where
  /-- Prices that are converted. -/
  Dom : Price → Prop
  /-- The converted price. -/
  price : Price → Price
  /-- The order of prices is kept. -/
  lt_iff : ∀ p q, Dom p → Dom q → (price p < price q ↔ p < q)
  /-- Market prices are converted. -/
  dom_market : ∀ side : Side, Dom side.marketPrice
  /-- They stay what they are. -/
  price_market : ∀ side : Side, price side.marketPrice = side.marketPrice

namespace Repricing

variable (π : Repricing) {p q : Price} {side : Side}

/-- The trade at the new price. -/
def trade (t : Trade) : Trade := { t with price := π.price t.price }

/-- The level at the new price. -/
def level (l : LevelInfo) : LevelInfo := { l with price := π.price l.price }

variable {π}

/-- The conversion keeps the order of prices, also where they may be equal. -/
theorem le_iff (hp : π.Dom p) (hq : π.Dom q) : π.price p ≤ π.price q ↔ p ≤ q := by
  rw [← Int32.not_lt, ← Int32.not_lt, π.lt_iff q p hq hp]

/-- Different prices stay different. -/
theorem eq_iff (hp : π.Dom p) (hq : π.Dom q) : π.price p = π.price q ↔ p = q := by
  constructor
  · intro h
    exact Int32.le_antisymm ((le_iff hp hq).mp (h ▸ Int32.le_refl _))
      ((le_iff hq hp).mp (h ▸ Int32.le_refl _))
  · rintro rfl
    rfl

/-- The conversion keeps priorities. -/
theorem before_iff (hp : π.Dom p) (hq : π.Dom q) :
    side.before (π.price p) (π.price q) ↔ side.before p q := by
  cases side
  · exact π.lt_iff q p hq hp
  · exact π.lt_iff p q hp hq

/-- A limit reaches a price exactly if it does after conversion. -/
theorem crosses_iff (hp : π.Dom p) (hq : π.Dom q) :
    side.crosses (π.price p) (π.price q) ↔ side.crosses p q := by
  cases side
  · exact le_iff hq hp
  · exact le_iff hp hq

/-- Only market prices are converted to market prices. -/
theorem market_iff (hp : π.Dom p) (side : Side) :
    π.price p = side.marketPrice ↔ p = side.marketPrice := by
  have h := eq_iff hp (π.dom_market side)
  rwa [π.price_market] at h

/-- The price of a trade is one of its two prices. -/
theorem tradePrice_price (hp : π.Dom p) (hq : π.Dom q) (side : Side) :
    tradePrice side (π.price p) (π.price q) = π.price (tradePrice side p q) := by
  have hbuy := market_iff hp .buy
  have hsell := market_iff hq .sell
  simp only [Side.marketPrice] at hbuy hsell
  rw [tradePrice, tradePrice]
  simp only [hbuy, hsell]
  split_ifs <;> rfl

/-- The conversion of a trade at one price. -/
theorem trade_tradeOf (side : Side) (id id' : OrderId) (p : Price) (qty : Quantity) :
    π.trade (Book.tradeOf side id id' p qty) = Book.tradeOf side id id' (π.price p) qty := by
  cases side <;> rfl

end Repricing

/-- The second book has the queues of the first one at the new prices. -/
structure Repriced {α : Type*} (π : Repricing) (b b' : BookOf α) : Prop where
  /-- Queues are found at converted prices. -/
  queue : ∀ side p, π.Dom p → b'.queue side (π.price p) = b.queue side p
  /-- All levels are at prices that are converted. -/
  dom : ∀ side p, b.queue side p ≠ [] → π.Dom p
  /-- No other levels appear. -/
  image : ∀ side p', b'.queue side p' ≠ [] → ∃ p, π.Dom p ∧ p' = π.price p

namespace Repriced

variable {π : Repricing}

section Reads

variable {α : Type*} {b b' : BookOf α} {side : Side} {p : Price}

/-- The empty book is the conversion of itself. -/
theorem empty (π : Repricing) : Repriced π (BookOf.empty : BookOf α) BookOf.empty where
  queue := fun side p _ => by rw [BookOf.queue_empty, BookOf.queue_empty]
  dom := fun side p h => absurd (BookOf.queue_empty side p) h
  image := fun side p' h => absurd (BookOf.queue_empty side p') h

/-- Every level of the converted book comes from a level. -/
theorem image_queue (h : Repriced π b b') {p' : Price} (hp' : b'.queue side p' ≠ []) :
    ∃ p, b.queue side p ≠ [] ∧ p' = π.price p := by
  obtain ⟨p, hp, rfl⟩ := h.image side p' hp'
  exact ⟨p, by rwa [← h.queue side p hp], rfl⟩

/-- Levels correspond one to one, in the same priority. -/
theorem entries (h : Repriced π b b') (side : Side) : (b'.side side).map.entries =
    (b.side side).map.entries.map fun e => (π.price e.1, e.2) :=
  Buckets.entries_eq_map
    (fun p q hp hq hlt => (Repricing.before_iff (h.dom side p hp) (h.dom side q hq)).mpr hlt)
    (fun p hp => h.queue side p (h.dom side p hp)) fun _ => h.image_queue

/-- Orders of a side correspond one to one, in the same priority. -/
theorem orders (h : Repriced π b b') (side : Side) :
    b'.orders side = (b.orders side).map fun e => (π.price e.1, e.2) := by
  rw [BookOf.orders, BookOf.orders, Buckets.toList, Buckets.toList, h.entries, List.flatMap_map,
    List.map_flatMap]
  refine List.flatMap_congr fun e _ => ?_
  rw [List.map_map]
  rfl

/-- Both books have as many orders. -/
theorem size (h : Repriced π b b') : b'.size = b.size := by
  rw [BookOf.size_eq, BookOf.size_eq, h.orders, h.orders, List.length_map, List.length_map]

/-- The best orders correspond. -/
theorem best? (h : Repriced π b b') (side : Side) :
    b'.best? side = (b.best? side).map fun r => (π.price r.1, r.2) := by
  cases hbest : b.best? side with
  | none =>
    rw [BookOf.best?_eq_none_iff] at hbest
    rw [Option.map_none, BookOf.best?_eq_none_iff]
    intro p'
    by_contra hne
    obtain ⟨p, hp, -⟩ := h.image_queue hne
    exact hp (hbest p)
  | some r =>
    obtain ⟨p, o, os⟩ := r
    obtain ⟨hq, hfirst⟩ := (BookOf.best?_eq_some_iff _ _ _ _ _).mp hbest
    have hp : π.Dom p := h.dom side p (by rw [hq]; exact List.cons_ne_nil _ _)
    rw [Option.map_some, BookOf.best?_eq_some_iff]
    refine ⟨by rw [h.queue side p hp, hq], fun p' hp' => ?_⟩
    obtain ⟨p₁, hp₁, rfl⟩ := h.image_queue hp'
    have hd := h.dom side p₁ hp₁
    rcases hfirst p₁ hp₁ with rfl | hlt
    · exact Or.inl rfl
    · exact Or.inr ((Repricing.before_iff hp hd).mpr hlt)

/-- The best price is in the domain of the conversion. -/
theorem dom_best? (h : Repriced π b b') {o : α} {os : List α}
    (hbest : b.best? side = some (p, o, os)) : π.Dom p :=
  h.dom side p (by rw [BookOf.queue_of_best? hbest]; exact List.cons_ne_nil _ _)

end Reads

section Orders

variable {b b' : Book} {p : Price}

/-- A live order is found at its new price. -/
theorem find? (h : Repriced π b b') (id : OrderId) :
    b'.find? id = (b.find? id).map fun r => (r.1, π.price r.2.1, r.2.2) := by
  have hsame : (fun e : Price × Resting => decide (e.2.orderId = id)) ∘
      (fun e : Price × Resting => (π.price e.1, e.2)) = fun e => decide (e.2.orderId = id) := rfl
  rw [Book.find?, Book.find?, h.orders, h.orders, List.find?_map, List.find?_map, hsame]
  cases (b.orders .buy).find? fun e => decide (e.2.orderId = id) with
  | some e => rfl
  | none => cases (b.orders .sell).find? fun e => decide (e.2.orderId = id) <;> rfl

/-- The same orders are live. -/
theorem hasOrder (h : Repriced π b b') (id : OrderId) : b'.hasOrder id = b.hasOrder id := by
  rw [Book.hasOrder, h.find?, Option.isSome_map, Book.hasOrder]

/-- Something can match exactly if something can after conversion. -/
theorem canMatch (h : Repriced π b b') (side : Side) (hp : π.Dom p) :
    b'.canMatch side (π.price p) = b.canMatch side p := by
  rw [Book.canMatch, Book.canMatch, h.best?]
  cases hbest : b.best? side.opposite with
  | none => rfl
  | some r => simp only [Option.map_some, Repricing.crosses_iff hp (h.dom_best? hbest)]

/-- The same quantity is available within a limit. -/
theorem available (h : Repriced π b b') (side : Side) (hp : π.Dom p) :
    b'.available side (π.price p) = b.available side p := by
  rw [Book.available, Book.available, h.orders, List.filter_map, List.map_map]
  have hreach : (b.orders side.opposite).filter
      ((fun e => decide (side.crosses (π.price p) e.1)) ∘ fun e => (π.price e.1, e.2)) =
        (b.orders side.opposite).filter fun e => decide (side.crosses p e.1) := by
    refine List.filter_congr fun e he => ?_
    have hd := h.dom _ _ (List.ne_nil_of_mem ((BookOf.mem_orders b _ e.1 e.2).mp he))
    simp only [Function.comp_apply, Repricing.crosses_iff hp hd]
  rw [hreach]
  rfl

/-- The depth is that of the first book at the new prices. -/
theorem depth (h : Repriced π b b') (side : Side) :
    b'.depth side = (b.depth side).map π.level := by
  rw [Book.depth, Book.depth, h.entries, List.filterMap_map, List.map_filterMap]
  refine List.filterMap_congr fun e _ => ?_
  simp only [Function.comp_apply]
  split_ifs <;> rfl

/-- Corresponding queues may be replaced. -/
theorem setQueue (h : Repriced π b b') (side : Side) (hp : π.Dom p) (os : List Resting) :
    Repriced π (b.setQueue side p os) (b'.setQueue side (π.price p) os) where
  queue := by
    intro side' q hq
    rw [BookOf.queue_setQueue, BookOf.queue_setQueue, h.queue side' q hq]
    simp only [Repricing.eq_iff hq hp]
  dom := by
    intro side' q hne
    rw [BookOf.queue_setQueue] at hne
    split_ifs at hne with he
    · exact he.2 ▸ hp
    · exact h.dom side' q hne
  image := by
    intro side' q' hne
    rw [BookOf.queue_setQueue] at hne
    split_ifs at hne with he
    · exact ⟨p, hp, he.2⟩
    · exact h.image side' q' hne

/-- An order may be appended at corresponding prices. -/
theorem append (h : Repriced π b b') (side : Side) (hp : π.Dom p) (o : Resting) :
    Repriced π (b.append side p o) (b'.append side (π.price p) o) := by
  rw [Book.append, Book.append, h.queue side p hp]
  exact h.setQueue side hp _

/-- Orders may be removed from both books. -/
theorem filter (h : Repriced π b b') (keep : Resting → Bool) :
    Repriced π (b.filter keep) (b'.filter keep) where
  queue := by
    intro side p hp
    rw [BookOf.queue_filter, BookOf.queue_filter, h.queue side p hp]
  dom := by
    intro side p hne
    rw [BookOf.queue_filter] at hne
    exact h.dom side p fun hnil => hne (by rw [hnil]; rfl)
  image := by
    intro side p' hne
    rw [BookOf.queue_filter] at hne
    exact h.image side p' fun hnil => hne (by rw [hnil]; rfl)

/-- A quantity may be changed in both books. -/
theorem requantify (h : Repriced π b b') (id : OrderId) (qty : Quantity) :
    Repriced π (b.requantify id qty) (b'.requantify id qty) where
  queue := by
    intro side p hp
    rw [Book.requantify, Book.requantify, BookOf.queue_mapVal, BookOf.queue_mapVal,
      h.queue side p hp]
  dom := by
    intro side p hne
    rw [Book.requantify, BookOf.queue_mapVal] at hne
    exact h.dom side p fun hnil => hne (by rw [hnil]; rfl)
  image := by
    intro side p' hne
    rw [Book.requantify, BookOf.queue_mapVal] at hne
    exact h.image side p' fun hnil => hne (by rw [hnil]; rfl)

end Orders

section Matching

variable {b b' c : Book} {side aggressorSide : Side} {p limit : Price} {id : OrderId}
  {left left' : Quantity} {t : Trade}

/-- A matching step at the new prices. -/
theorem matchStep (h : Repriced π b b')
    (hstep : Book.matchStep aggressorSide b = some (t, c)) :
    ∃ c', Book.matchStep aggressorSide b' = some (π.trade t, c') ∧ Repriced π c c' := by
  obtain ⟨bidPrice, bid, bids, askPrice, ask, asks, hb, ha, hcross, hmarket, rfl, rfl⟩ :=
    matchStep_eq_some_iff.mp hstep
  have hbid := h.dom_best? hb
  have hask := h.dom_best? ha
  have hb' : b'.best? .buy = some (π.price bidPrice, bid, bids) := by rw [h.best?, hb]; rfl
  have ha' : b'.best? .sell = some (π.price askPrice, ask, asks) := by rw [h.best?, ha]; rfl
  refine ⟨_, matchStep_eq_some_iff.mpr ⟨π.price bidPrice, bid, bids, π.price askPrice, ask, asks,
    hb', ha', ?_, ?_, ?_, rfl⟩, (h.setQueue .buy hbid _).setQueue .sell hask _⟩
  · rwa [π.lt_iff _ _ hbid hask]
  · rwa [Repricing.market_iff hbid, Repricing.market_iff hask]
  · rw [Repricing.tradePrice_price hbid hask]
    rfl

/-- Matching ends in both books alike. -/
theorem matchStep_none (h : Repriced π b b') (hnone : Book.matchStep aggressorSide b = none) :
    Book.matchStep aggressorSide b' = none := by
  rw [matchStep_eq_none_iff] at hnone ⊢
  intro bidPrice' bid bids askPrice' ask asks hb' ha'
  rw [h.best?] at hb' ha'
  obtain ⟨⟨bidPrice, bid, bids⟩, hb, heq⟩ := Option.map_eq_some_iff.mp hb'
  obtain ⟨⟨askPrice, ask, asks⟩, ha, heq'⟩ := Option.map_eq_some_iff.mp ha'
  cases heq
  cases heq'
  have hbid := h.dom_best? hb
  have hask := h.dom_best? ha
  rw [π.lt_iff _ _ hbid hask, Repricing.market_iff hbid, Repricing.market_iff hask]
  exact hnone _ _ _ _ _ _ hb ha

/-- Matching at the new prices makes the same trades at them. -/
theorem matchBook (h : Repriced π b b') (side : Side) :
    (b'.matchBook side).1 = (b.matchBook side).1.map π.trade ∧
      Repriced π (b.matchBook side).2 (b'.matchBook side).2 := by
  obtain ⟨c', hsteps, hc'⟩ := (matchBook_steps side b).simulates_map (R := Repriced π)
    (fun _ _ _ _ hR hstep => hR.matchStep hstep) h
  rw [matchBook_eq hsteps (hc'.matchStep_none (matchBook_halts side b))]
  exact ⟨rfl, hc'⟩

/-- A sweeping step at the new prices. -/
theorem sweepStep (h : Repriced π b b') (hlimit : π.Dom limit)
    (hstep : Book.sweepStep side id limit (left, b) = some (t, (left', c))) :
    ∃ c', Book.sweepStep side id (π.price limit) (left, b') = some (π.trade t, (left', c')) ∧
      Repriced π c c' := by
  obtain ⟨price, o, rest, hz, hbest, hcross, rfl, rfl, rfl⟩ := sweepStep_eq_some_iff.mp hstep
  have hprice := h.dom_best? hbest
  have hbest' : b'.best? side.opposite = some (π.price price, o, rest) := by
    rw [h.best?, hbest]
    rfl
  refine ⟨_, sweepStep_eq_some_iff.mpr ⟨π.price price, o, rest, hz, hbest',
    (Repricing.crosses_iff hlimit hprice).mpr hcross, ?_, rfl, rfl⟩, h.setQueue _ hprice _⟩
  rw [Repricing.trade_tradeOf]

/-- FillOrKill at the new prices makes the same trades at them. -/
theorem fillOrKill (h : Repriced π b b') (side : Side) (id : OrderId) (hlimit : π.Dom limit)
    (qty : Quantity) :
    (b'.fillOrKill side id (π.price limit) qty).1 =
        (b.fillOrKill side id limit qty).1.map π.trade ∧
      Repriced π (b.fillOrKill side id limit qty).2
        (b'.fillOrKill side id (π.price limit) qty).2 := by
  have havail := h.available side hlimit
  by_cases hlt : b.available side limit < qty.toNat
  · rw [Book.fillOrKill, Book.fillOrKill, havail, if_pos hlt, if_pos hlt]
    exact ⟨rfl, h⟩
  · have hsweep : ∀ (c c' : Quantity × Book) t c₁, c'.1 = c.1 ∧ Repriced π c.2 c'.2 →
        Book.sweepStep side id limit c = some (t, c₁) →
        ∃ c₁', Book.sweepStep side id (π.price limit) c' = some (π.trade t, c₁') ∧
          c₁'.1 = c₁.1 ∧ Repriced π c₁.2 c₁'.2 := by
      rintro ⟨left, c⟩ ⟨left', c'⟩ t ⟨left₁, c₁⟩ ⟨rfl, hR⟩ hstep
      obtain ⟨c₁', hstep', hR'⟩ := sweepStep hR hlimit hstep
      exact ⟨(left₁, c₁'), hstep', rfl, hR'⟩
    obtain ⟨⟨left, c'⟩, hsteps, hleft, hc'⟩ := Steps.simulates_map hsweep
      (fillOrKill_steps id hlt) (t := (qty, b')) ⟨rfl, h⟩
    obtain rfl : left = 0 := hleft
    rw [fillOrKill_eq (by rwa [havail]) hsteps]
    exact ⟨rfl, hc'⟩

/-- Placing an order at the new prices. -/
theorem place (h : Repriced π b b') (type : OrderType) (id : OrderId) (side : Side)
    (hp : π.Dom p) (qty : Quantity) :
    (place b' type id side (π.price p) qty).1 =
        (place b type id side p qty).1.map π.trade ∧
      Repriced π (Additions.place b type id side p qty).2
        (Additions.place b' type id side (π.price p) qty).2 := by
  rw [Additions.place, Additions.place]
  by_cases hfok : type = .fillOrKill
  · rw [if_pos hfok, if_pos hfok]
    exact h.fillOrKill side id hp qty
  · obtain ⟨htrades, hbook⟩ := (h.append side hp ⟨id, type, qty⟩).matchBook side
    rw [if_neg hfok, if_neg hfok]
    dsimp only
    refine ⟨htrades, ?_⟩
    split_ifs
    · exact hbook.filter _
    · exact hbook

end Matching

end Repriced

end OrderbookEngine.RepricedBook
