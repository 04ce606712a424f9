import OrderbookEngine.AllOrNothing
import OrderbookEngine.TradeTape

/-!
# Totals over a run

Every fill retires an order, so that a run has no more trades than additions
that were accepted, whatever single additions cost. Every unit of quantity that
was entered still rests, was traded, was withdrawn or was changed away.
-/

namespace OrderbookEngine.RunTotals

open SortedMap StepRuns MarketTypes PoolBook FeedCalls ReferenceBook ReferenceSteps EngineSimulation
open RunRules Additions AllOrNothing TradeCounts TradeTape

variable {n : ℕ} {s : Orderbook n} {e : RefEngine} {b b' : Book} {event : Event}
  {events : List Event} {id : OrderId} {side : Side} {price : Price} {qty : Quantity} {o : Resting}
  {os os' : List Resting}

section Trades

/-- Number of additions that were placed. -/
def acceptedCount (adds : List (Addition n)) : ℕ := adds.countP fun a => (accepted a).isSome

/-- Removing orders adds none. -/
theorem size_filter_le (b : Book) (p : Resting → Bool) : (b.filter p).size ≤ b.size := by
  have hside : ∀ side, ((b.filter p).orders side).length ≤ (b.orders side).length := fun side => by
    rw [BookOf.orders, BookOf.side_filter, Buckets.toList_filter]
    exact List.length_filter_le _ _
  have hbids := hside .buy
  have hasks := hside .sell
  rw [BookOf.size_eq, BookOf.size_eq]
  omega

/-- An appended order is one more. -/
theorem size_append (b : Book) (side : Side) (price : Price) (o : Resting) :
    (b.append side price o).size = b.size + 1 := by
  have h := b.size_setQueue side price (b.queue side price ++ [o])
  rw [List.length_append, List.length_singleton] at h
  rw [Book.append]
  omega

/-- A sweep retires an order with every fill but the last. -/
theorem sweepSteps_size {limit : Price} {c c' : Quantity × Book} {ts : Trades}
    (h : Steps (Book.sweepStep side id limit) c ts c') : ts.length + c'.2.size ≤ c.2.size + 1 := by
  induction h with
  | refl c => simp
  | @head c c₁ c' t ts hstep hrest ih =>
    obtain ⟨left, b⟩ := c
    obtain ⟨left₁, b₁⟩ := c₁
    rw [List.length_cons]
    dsimp only at ih ⊢
    rcases sweepStep_cases hstep with hlt | ⟨hzero, hsame⟩
    · omega
    · rw [hzero] at hrest
      obtain ⟨rfl, rfl⟩ := sweepSteps_zero hrest
      rw [List.length_nil]
      dsimp only
      omega

/-- A placed order pays for its trades with the orders they retire and itself. -/
theorem size_place (b : Book) (type : OrderType) (id : OrderId) (side : Side) (price : Price)
    (qty : Quantity) :
    (place b type id side price qty).1.length + (place b type id side price qty).2.size ≤
      b.size + 1 := by
  rw [place]
  by_cases hfok : type = .fillOrKill
  · rw [if_pos hfok]
    by_cases havail : b.available side price < qty.toNat
    · rw [Book.fillOrKill, if_pos havail]
      simp
    · exact sweepSteps_size (fillOrKill_steps id havail)
  · have hmatch := (matchBook_steps side (b.append side price ⟨id, type, qty⟩)).length_add_le
      fun _ _ _ hstep => matchStep_size_lt hstep
    have hcancel := size_filter_le ((b.append side price ⟨id, type, qty⟩).matchBook side).2
      fun o => o.orderId ≠ id
    rw [size_append] at hmatch
    rw [if_neg hfok]
    dsimp only
    split_ifs
    · rw [Book.cancel]
      omega
    · exact hmatch

/-- Trades and live orders together never exceed the placed orders. -/
theorem carries_trades : Carries (fun (_ : Orderbook n) _ => True)
    fun as e => tradeCount as + e.book.size ≤ acceptedCount as where
  filter := fun as e p h => by
    have hle := size_filter_le e.book p
    dsimp only
    omega
  change := fun s call mod _ _ as e h => by
    have hsize : (e.book.requantify mod.orderId mod.quantity).size = e.book.size :=
      BookOf.size_mapVal _ _
    dsimp only
    rw [hsize]
    exact h
  rules := fun _ _ _ _ _ _ h => h
  add := by
    intro as a e hrep h
    have hcount : acceptedCount (as ++ [a]) =
        acceptedCount as + if (accepted a).isSome then 1 else 0 := by
      rw [acceptedCount, List.countP_append, List.countP_singleton, acceptedCount]
    have htrades : tradeCount (as ++ [a]) = tradeCount as + (tradesOf a).length := by
      rw [tradeCount_append, tradeCount, tradeCount, List.map_singleton, List.sum_singleton]
    rw [hcount, htrades]
    cases ha : accepted a with
    | none =>
      obtain ⟨heffect, hnone⟩ := effect_not_accepted hrep ha
      have hnil : tradesOf a = [] := by
        rw [tradesOf]
        cases hout : a.outcome with
        | ret ts s' => exact hnone ts s' hout
        | raise x s' => rfl
        | diverge => rfl
      rw [heffect, hnil]
      simpa using h
    | some r =>
      obtain ⟨type, price⟩ := r
      obtain ⟨heffect, s', hret⟩ := effect_accepted hrep ha
      have hplace := size_place e.book type a.id a.side price a.qty
      have hsome : tradesOf a = (place e.book type a.id a.side price a.qty).1 := by
        rw [tradesOf, hret]
      rw [heffect, hsome, Option.isSome_some, if_pos rfl]
      dsimp only
      omega

/-- Whatever the calls, a run has at most as many trades as additions that were
accepted, less the orders that still rest. -/
theorem trades_amortised (n : ℕ) (calls : List Call) :
    tradeCount (runAdditions (create n) calls) + (after (create n) calls).size ≤
      acceptedCount (runAdditions (create n) calls) := by
  have hrep := represents_create n
  have hcovers : Covers _ [] _ _ := covers_run carries_trades hrep (by
    simp [tradeCount, acceptedCount, RefEngine.create, BookOf.size, BookOf.empty, Buckets.size,
      Buckets.toList, Buckets.empty, OrdMap.empty]) calls
    (along_of_forall (fun _ _ => trivial) calls)
  rw [(represents_after hrep calls).size_eq]
  exact hcovers.2

end Trades

section Quantities

/-- Exact quantity of some orders. -/
def quantityIn (os : List Resting) : ℕ := (os.map fun o => o.quantity.toNat).sum

/-- Exact quantity on one side of a book. -/
def sideQuantity (b : Book) (side : Side) : ℕ :=
  ((b.orders side).map fun x => x.2.quantity.toNat).sum

/-- Exact quantity in a book. -/
def liveQuantity (b : Book) : ℕ := sideQuantity b .buy + sideQuantity b .sell

/-- What is left of an order; nothing if it is not live. -/
def leftOf (b : Book) (id : OrderId) : ℕ := (b.find? id).elim 0 fun r => r.2.2.quantity.toNat

/-- Quantity that a line brings in. -/
def entering : Event → ℕ
  | .entered _ _ _ o => o.quantity.toNat
  | .resized _ qty => qty.toNat
  | _ => 0

/-- Quantity that a line takes out without a trade. -/
def dropping (b : Book) : Event → ℕ
  | .withdrawn id => leftOf b id
  | .resized id _ => leftOf b id
  | _ => 0

/-- Quantity of the trade of a line. -/
def trading : Event → ℕ
  | .traded t => t.quantity.toNat
  | _ => 0

/-- Quantity that some lines take out without a trade, one after the other. -/
def dropped : Book → List Event → ℕ
  | _, [] => 0
  | b, event :: events => dropping b event + dropped (applyEvent b event) events

/-- Quantities of joined queues add up. -/
theorem quantityIn_append (os os' : List Resting) :
    quantityIn (os ++ os') = quantityIn os + quantityIn os' := by
  rw [quantityIn, List.map_append, List.sum_append, quantityIn, quantityIn]

/-- The quantity of a queue with one more order in front. -/
theorem quantityIn_cons (o : Resting) (os : List Resting) :
    quantityIn (o :: os) = o.quantity.toNat + quantityIn os := by
  rw [quantityIn, List.map_cons, List.sum_cons, quantityIn]

/-- Replacing a queue exchanges its quantity. -/
theorem sideQuantity_setQueue (b : Book) (side : Side) (price : Price) (os : List Resting) :
    sideQuantity (b.setQueue side price os) side + quantityIn (b.queue side price) =
      sideQuantity b side + quantityIn os := by
  have hperm : ∀ xs : List Resting, sideQuantity (b.setQueue side price xs) side =
      quantityIn xs + sideQuantity (b.setQueue side price []) side := by
    intro xs
    have hflat := (Buckets.toList_setQueue_perm (b.side side) price xs).map
      fun x => x.2.quantity.toNat
    rw [sideQuantity, BookOf.orders, BookOf.side_setQueue_self, hflat.sum_eq, List.map_append,
      List.sum_append, List.map_map, sideQuantity, BookOf.orders, BookOf.side_setQueue_self]
    rfl
  have hnew := hperm os
  have hold := hperm (b.queue side price)
  rw [BookOf.setQueue_queue] at hold
  omega

/-- The quantity on a side depends on that side alone. -/
theorem sideQuantity_setQueue_of_ne (b : Book) {side side' : Side} (price : Price)
    (os : List Resting) (h : side' ≠ side) :
    sideQuantity (b.setQueue side price os) side' = sideQuantity b side' := by
  rw [sideQuantity, BookOf.orders_setQueue_of_ne b price os h, sideQuantity]

/-- The quantity that rests is that of both sides. -/
theorem liveQuantity_eq (b : Book) (side : Side) :
    liveQuantity b = sideQuantity b side + sideQuantity b side.opposite := by
  cases side
  · rfl
  · exact Nat.add_comm _ _

/-- Replacing a queue changes the quantity by that of the queue. -/
theorem liveQuantity_setQueue (b : Book) (side : Side) (price : Price) (os : List Resting) :
    liveQuantity (b.setQueue side price os) + quantityIn (b.queue side price) =
      liveQuantity b + quantityIn os := by
  have hside := sideQuantity_setQueue b side price os
  have hother := sideQuantity_setQueue_of_ne b price os side.opposite_ne
  rw [liveQuantity_eq _ side, liveQuantity_eq b side, hother]
  omega

/-- A fill takes its quantity out of a queue. -/
theorem quantityIn_fillHead {o : Resting} (h : qty.toNat ≤ o.quantity.toNat) (os : List Resting) :
    quantityIn (Book.fillHead qty o os) + qty.toNat = quantityIn (o :: os) := by
  have hsub : (o.quantity - qty).toNat = o.quantity.toNat - qty.toNat :=
    UInt32.toNat_sub_of_le _ _ (UInt32.le_iff_toNat_le.mpr h)
  rw [Book.fillHead, quantityIn_cons]
  split_ifs with hz
  · rw [hz, UInt32.toNat_zero] at hsub
    omega
  · rw [quantityIn_cons]
    dsimp only
    omega

/-- Replacing one order of a queue exchanges its quantity. -/
theorem liveQuantity_replace (hq : b.queue side price = os ++ o :: os') (new : List Resting) :
    liveQuantity (b.setQueue side price (os ++ (new ++ os'))) + o.quantity.toNat =
      liveQuantity b + quantityIn new := by
  have h := liveQuantity_setQueue b side price (os ++ (new ++ os'))
  rw [hq, quantityIn_append, quantityIn_append, quantityIn_append, quantityIn_cons] at h
  omega

/-- A live order has its place in a queue. -/
theorem find?_split {r : Side × Price × Resting} (hf : b.find? id = some r) :
    ∃ os os', b.queue r.1 r.2.1 = os ++ r.2.2 :: os' ∧ r.2.2.orderId = id := by
  obtain ⟨side, price, o⟩ := r
  obtain ⟨ho, hid⟩ := find?_mem hf
  obtain ⟨os, os', hq⟩ := List.append_of_mem ho
  exact ⟨os, os', hq, hid⟩

/-- Reducing an order takes the quantity off what rests. -/
theorem liveQuantity_reduce (h : Distinct b) (hfits : Fits b id qty) :
    liveQuantity (reduce b id qty) + qty.toNat = liveQuantity b := by
  obtain ⟨r, hf, hle⟩ := hfits
  obtain ⟨os, os', hq, hid⟩ := find?_split hf
  have hnew := liveQuantity_replace hq (Book.fillHead qty r.2.2 [])
  have hfill : Book.fillHead qty r.2.2 [] ++ os' = Book.fillHead qty r.2.2 os' := by
    rw [Book.fillHead, Book.fillHead]
    split_ifs <;> rfl
  have hleft := quantityIn_fillHead hle []
  rw [quantityIn_cons, show quantityIn [] = 0 from rfl] at hleft
  rw [hfill] at hnew
  rw [reduce_eq_setQueue h hq hid]
  omega

/-- Cancelling an order takes what is left of it off what rests. -/
theorem liveQuantity_cancel (h : Distinct b) (id : OrderId) :
    liveQuantity (b.cancel id) + leftOf b id = liveQuantity b := by
  rw [leftOf]
  cases hf : b.find? id with
  | none =>
    rw [cancel_of_find?_none hf]
    rfl
  | some r =>
    obtain ⟨os, os', hq, hid⟩ := find?_split hf
    rw [cancel_eq_setQueue h hq hid]
    exact liveQuantity_replace hq []

/-- A change of quantity replaces what was left. -/
theorem liveQuantity_requantify (h : Distinct b) (hlive : (b.find? id).isSome) (qty : Quantity) :
    liveQuantity (b.requantify id qty) + leftOf b id = liveQuantity b + qty.toNat := by
  obtain ⟨r, hf⟩ := Option.isSome_iff_exists.mp hlive
  obtain ⟨os, os', hq, hid⟩ := find?_split hf
  rw [leftOf, hf, requantify_eq_setQueue h hq hid]
  exact liveQuantity_replace hq [{ r.2.2 with quantity := qty }]

/-- What a line does to the quantity in the book. -/
theorem liveQuantity_applyEvent (h : Distinct b) (hsound : Sound b event) :
    liveQuantity (applyEvent b event) + 2 * trading event + dropping b event =
      liveQuantity b + entering event := by
  cases event with
  | entered requested side price o =>
    have happend := liveQuantity_setQueue b side price (b.queue side price ++ [o])
    rw [quantityIn_append, quantityIn_cons] at happend
    have hnil : quantityIn [] = 0 := rfl
    simp only [applyEvent, trading, dropping, entering, Book.append]
    omega
  | traded t =>
    have hbid := liveQuantity_reduce h hsound.1
    have hask := liveQuantity_reduce (distinct_reduce h) hsound.2
    simp only [applyEvent, trading, dropping, entering]
    omega
  | withdrawn id =>
    have hcancel := liveQuantity_cancel h id
    simp only [applyEvent, trading, dropping, entering]
    omega
  | resized id qty =>
    have hresize := liveQuantity_requantify h hsound qty
    simp only [applyEvent, trading, dropping, entering]
    omega

/-- Sound lines keep the balance of quantities. -/
theorem balance_of_records (h : Distinct b) (hrecords : Records b events b') :
    liveQuantity b' + 2 * (events.map trading).sum + dropped b events =
      liveQuantity b + (events.map entering).sum := by
  induction hrecords with
  | nil b => simp [dropped]
  | @cons b b' event events hsound _ ih =>
    have hone := liveQuantity_applyEvent h hsound
    have hrest := ih (distinct_applyEvent h hsound)
    rw [List.map_cons, List.map_cons, List.sum_cons, List.sum_cons, dropped]
    omega

/-- Exact quantity of the live orders of a state, as traversals of its levels give it. -/
def restingQuantity (s : Orderbook n) : ℕ :=
  ((priorityList s .buy ++ priorityList s .sell).map fun x => x.2.quantity.toNat).sum

/-- The engine's resting quantity is that of its book. -/
theorem restingQuantity_eq (h : Represents s e) : restingQuantity s = liveQuantity e.book := by
  rw [restingQuantity, List.map_append, List.sum_append, priorityList_eq h, priorityList_eq h,
    liveQuantity, sideQuantity, sideQuantity]

/-- Whatever the calls and the size of the pool, every unit that was entered, or
that a change of quantity brought in, rests in the book, was traded, or was
withdrawn or changed away; a trade takes its quantity from both sides. -/
theorem quantities_balance (poolSize : ℕ) (calls : List Call) :
    let events := tape (create poolSize) calls
    restingQuantity (after (create poolSize) calls) + 2 * (events.map trading).sum +
        dropped BookOf.empty events = (events.map entering).sum := by
  have hrep := represents_create poolSize
  have hbalance := balance_of_records (distinct_represents hrep) (records_tape hrep calls)
  have hempty : liveQuantity (RefEngine.create (slotCount poolSize)).book = 0 := rfl
  dsimp only
  rw [restingQuantity_eq (represents_after hrep calls)]
  rw [hempty, Nat.zero_add] at hbalance
  exact hbalance

end Quantities

end OrderbookEngine.RunTotals
