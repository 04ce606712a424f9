import OrderbookEngine.Reorderings
import OrderbookEngine.RestoredBook
import OrderbookEngine.RunTotals

/-!
# Interleavings of requests that do not trade

Requests of several participants reach the engine in some order. As long as all
bids stay below all asks nothing trades, and only two orders matter: that of the
requests for one order and that of the requests for one level. All interleavings
that agree on these leave states that no caller can tell apart.
-/

namespace OrderbookEngine.Interleavings

open MarketTypes PoolBook FeedCalls ReferenceBook ReferenceSteps SlotSteps EngineSimulation
open RunRules Refinement BookState Additions Modifications Snapshots TradeCounts FeedCounters
open PriceTimeSweep OrderLaws RunTotals RestoredBook Reorderings

variable {n : ℕ} {s s' : Orderbook n} {e : RefEngine} {b : Book} {side : Side} {price : Price}
  {id : OrderId} {type : OrderType} {o : Resting}

/-- A request for one order. -/
inductive Request where
  | add (type : OrderType) (id : OrderId) (side : Side) (price : Price) (qty : Quantity)
  | cancel (id : OrderId)
  | modify (mod : OrderModify)

/-- The order of a request. -/
def Request.orderId : Request → OrderId
  | .add _ id _ _ _ => id
  | .cancel id => id
  | .modify mod => mod.orderId

/-- The level at whose end a request may put its order. -/
def Request.level? : Request → Option (Side × Price)
  | .add _ _ side price _ => some (side, price)
  | .cancel _ => none
  | .modify mod => some (mod.side, mod.price)

/-- The request made by a call or by a message of the feed. -/
def request? : Call → Option Request
  | .addOrder type id side price qty => some (.add type id side price qty)
  | .cancelOrder id => some (.cancel id)
  | .modifyOrder mod => some (.modify mod)
  | .processMarketData (.newOrder msg) _ =>
    some (.add msg.orderType msg.orderId msg.side msg.price msg.quantity)
  | .processMarketData (.cancelOrder msg) _ => some (.cancel msg.orderId)
  | .processMarketData (.modifyOrder msg) _ =>
    some (.modify ⟨msg.orderId, msg.side, msg.newPrice, msg.newQuantity⟩)
  | _ => none

/-- Anything but a market order, which takes whatever rests. -/
def Request.isQuiet : Request → Bool
  | .add type _ _ _ _ => type ≠ .market
  | _ => true

/-- A call for one order that is no market order. -/
def Quiet (call : Call) : Prop := (request? call).any Request.isQuiet = true

/-- A request that adds an order. -/
def Request.isAdd : Request → Bool
  | .add _ _ _ _ _ => true
  | _ => false

/-- A call that adds an order. -/
def adds (call : Call) : Bool := (request? call).any Request.isAdd

/-- What requests may compete for. -/
inductive Resource where
  | order (id : OrderId)
  | level (side : Side) (price : Price)

/-- Whether a call concerns an order, or may put one at the end of a level. -/
def uses : Resource → Call → Bool
  | .order id, call => (request? call).any fun q => q.orderId = id
  | .level side price, call => (request? call).any fun q => q.level? = some (side, price)

/-- The reply to a quiet call that does not trade. -/
def quietReply : Call → Reply
  | .addOrder _ _ _ _ _ => .trades []
  | .modifyOrder _ => .trades []
  | .processMarketData _ _ => .processed true
  | _ => .done

section Moves

/-- What a request does with its order. -/
inductive Move where
  | keep
  | drop
  | resize (qty : Quantity)
  | enter (side : Side) (price : Price) (type : OrderType) (qty : Quantity)

/-- The move of a request, given its live order. -/
def Request.move (rules : ExchangeRules) (own : Option Entry) : Request → Move
  | .add type _ side price qty =>
    if own = none ∧ MayRest type ∧ meetsRules rules price qty = true then
      .enter side price type qty
    else .keep
  | .cancel _ => .drop
  | .modify mod =>
    match own with
    | none => .keep
    | some (side, price, o) =>
      if mod.side ≠ side then .keep
      else if mod.price = price then .resize mod.quantity
      else if meetsRules rules mod.price mod.quantity = true then
        .enter mod.side mod.price o.orderType mod.quantity
      else .drop

/-- A move of the order with an identifier. -/
def Move.apply (m : Move) (id : OrderId) (b : Book) : Book :=
  match m with
  | .keep => b
  | .drop => b.cancel id
  | .resize qty => b.requantify id qty
  | .enter side price type qty => (b.cancel id).append side price ⟨id, type, qty⟩

/-- What becomes of an order where it rests. -/
def Move.edit (m : Move) (id : OrderId) (o : Resting) : Option Resting :=
  if o.orderId = id then
    match m with
    | .keep => some o
    | .drop => none
    | .resize qty => some { o with quantity := qty }
    | .enter _ _ _ _ => none
  else some o

/-- What is put at the end of a level. -/
def Move.added (m : Move) (id : OrderId) (side : Side) (price : Price) : List Resting :=
  match m with
  | .enter side' price' type qty => if side = side' ∧ price = price' then [⟨id, type, qty⟩] else []
  | _ => []

/-- The queues after a move. -/
theorem queue_apply (m : Move) (id : OrderId) (b : Book) (side : Side) (price : Price) :
    BookOf.queue (m.apply id b) side price =
      (b.queue side price).filterMap (m.edit id) ++ m.added id side price := by
  have hdrop : ∀ os : List Resting, (∀ o, m.edit id o = if o.orderId = id then none else some o) →
      os.filterMap (m.edit id) = os.filter fun o => o.orderId ≠ id := by
    intro os hedit
    rw [← List.filterMap_eq_filter, funext hedit]
    congr 1
    funext o
    by_cases ho : o.orderId = id <;> simp [Option.guard, ho]
  cases m with
  | keep =>
    rw [Move.apply, show Move.edit .keep id = some from funext fun o => by
      rw [Move.edit]; split_ifs <;> rfl, List.filterMap_some]
    exact (List.append_nil _).symm
  | drop =>
    rw [Move.apply, Book.cancel, BookOf.queue_filter, hdrop _ fun o => rfl]
    exact (List.append_nil _).symm
  | resize qty =>
    rw [Move.apply, Book.requantify, BookOf.queue_mapVal, ← List.filterMap_eq_map]
    refine (congrArg (fun f => List.filterMap f (b.queue side price)) (funext fun o => ?_)).trans
      (List.append_nil _).symm
    rw [Function.comp_apply, Move.edit]
    split_ifs <;> rfl
  | enter side' price' type qty =>
    rw [Move.apply, Book.append, BookOf.queue_setQueue, Book.cancel, BookOf.queue_filter,
      BookOf.queue_filter, hdrop _ fun o => rfl, Move.added]
    split_ifs with he
    · rw [he.1, he.2]
    · exact (List.append_nil _).symm

/-- An edit keeps identifier and type. -/
theorem edit_same {m : Move} {o o' : Resting} (h : m.edit id o = some o') :
    o'.orderId = o.orderId ∧ o'.orderType = o.orderType := by
  by_cases ho : o.orderId = id
  · rw [Move.edit.eq_def, if_pos ho] at h
    cases m with
    | keep =>
      cases h
      exact ⟨rfl, rfl⟩
    | drop => cases h
    | resize qty =>
      cases h
      exact ⟨rfl, rfl⟩
    | enter side price type qty => cases h
  · rw [Move.edit.eq_def, if_neg ho] at h
    cases h
    exact ⟨rfl, rfl⟩

/-- A move adds its own order. -/
theorem added_orderId {m : Move} (h : o ∈ m.added id side price) : o.orderId = id := by
  cases m with
  | enter side' price' type qty =>
    rw [Move.added] at h
    split_ifs at h
    · rw [List.mem_singleton.mp h]
    · cases h
  | keep => cases h
  | drop => cases h
  | resize qty => cases h

/-- Edits of different orders commute. -/
theorem edit_comm {i j : OrderId} (hij : i ≠ j) (m m' : Move) (o : Resting) :
    (m.edit i o).bind (m'.edit j) = (m'.edit j o).bind (m.edit i) := by
  by_cases hi : o.orderId = i
  · have hj : ¬o.orderId = j := fun hj => hij (hi.symm.trans hj)
    have hother : m'.edit j o = some o := if_neg hj
    rw [hother, Option.bind_some]
    cases hm : m.edit i o with
    | none => rfl
    | some o' => exact if_neg fun h => hj ((edit_same hm).1.symm.trans h)
  · have hother : m.edit i o = some o := if_neg hi
    rw [hother, Option.bind_some]
    cases hm : m'.edit j o with
    | none => rfl
    | some o' => exact (if_neg fun h => hi ((edit_same hm).1.symm.trans h)).symm

/-- An edit leaves what is put for another order as it is. -/
theorem filterMap_added {i j : OrderId} (hij : i ≠ j) (m m' : Move) (side : Side) (price : Price) :
    (m'.added j side price).filterMap (m.edit i) = m'.added j side price := by
  conv_rhs => rw [← List.filterMap_some (l := m'.added j side price)]
  exact List.filterMap_congr fun o ho => if_neg fun h => hij (h.symm.trans (added_orderId ho))

/-- Moves of different orders commute, unless both enter one level. -/
theorem apply_comm {i j : OrderId} (hij : i ≠ j) {m m' : Move}
    (hlevel : ∀ side price, m.added i side price = [] ∨ m'.added j side price = []) (b : Book) :
    m.apply i (m'.apply j b) = m'.apply j (m.apply i b) := by
  apply BookOf.ext_queue
  intro side price
  rw [queue_apply, queue_apply, queue_apply, queue_apply, List.filterMap_append,
    List.filterMap_append, filterMap_added hij, filterMap_added hij.symm, List.filterMap_filterMap,
    List.filterMap_filterMap]
  simp only [edit_comm hij m m']
  rcases hlevel side price with hnone | hnone
  · rw [hnone, List.append_nil, List.append_nil]
  · rw [hnone, List.append_nil, List.append_nil]

/-- A move keeps identifiers distinct. -/
theorem distinct_apply (h : Distinct b) (m : Move) (id : OrderId) : Distinct (m.apply id b) := by
  cases m with
  | keep => exact h
  | drop => exact distinct_filter h _
  | resize qty => exact h.of_sublist (shrinks_requantify b id qty)
  | enter side price type qty =>
    have hnone : (b.cancel id).find? id = none := by
      rw [find?_cancel h, if_pos rfl]
    exact distinct_append (distinct_filter h _) hnone

/-- A move leaves other orders where they are. -/
theorem find?_apply_of_ne (h : Distinct b) (m : Move) {i j : OrderId} (hij : j ≠ i) :
    (m.apply i b).find? j = b.find? j := by
  cases m with
  | keep => rfl
  | drop => rw [Move.apply, find?_cancel h, if_neg hij]
  | resize qty =>
    rw [Move.apply, find?_requantify h]
    cases hf : b.find? j with
    | none => rfl
    | some r =>
      obtain ⟨side, price, o⟩ := r
      rw [Option.map_some, if_neg fun he => hij ((find?_mem hf).2.symm.trans he)]
  | enter side price type qty =>
    have hd : Distinct (b.cancel i) := distinct_filter h _
    have hnone : (b.cancel i).find? i = none := by
      rw [find?_cancel h, if_pos rfl]
    rw [Move.apply, find?_append (o := ⟨i, type, qty⟩) hd hnone, if_neg hij, find?_cancel h,
      if_neg hij]

/-- A request enters its own level, and only if it has one. -/
theorem added_move {rules : ExchangeRules} {own : Option Entry} {q : Request}
    (h : (q.move rules own).added id side price ≠ []) : q.level? = some (side, price) := by
  cases q with
  | add type id' side' price' qty =>
    rw [Request.move] at h
    split_ifs at h
    · by_cases he : side = side' ∧ price = price'
      · rw [he.1, he.2, Request.level?]
      · exact absurd (if_neg he) h
    · exact absurd rfl h
  | cancel id' => exact absurd rfl h
  | modify mod =>
    rw [Request.move.eq_def] at h
    cases own with
    | none => exact absurd rfl h
    | some r =>
      dsimp only at h
      split_ifs at h
      · exact absurd rfl h
      · exact absurd rfl h
      · by_cases he : side = mod.side ∧ price = mod.price
        · rw [he.1, he.2, Request.level?]
        · exact absurd (if_neg he) h
      · exact absurd rfl h

/-- Only orders that may rest are entered. -/
theorem mayRest_added {rules : ExchangeRules} {own : Option Entry} {q : Request}
    (hown : ∀ r, own = some r → MayRest r.2.2.orderType)
    (ho : o ∈ (q.move rules own).added id side price) : MayRest o.orderType := by
  have hentered : ∀ {m : Move} {side' price' type qty}, m = .enter side' price' type qty →
      MayRest type → o ∈ m.added id side price → MayRest o.orderType := by
    intro m side' price' type qty hm htype ho
    rw [hm, Move.added] at ho
    split_ifs at ho
    · rw [List.mem_singleton.mp ho]
      exact htype
    · cases ho
  cases q with
  | add type id' side' price' qty =>
    rw [Request.move] at ho
    split_ifs at ho with hrest
    · exact hentered rfl hrest.2.1 ho
    · cases ho
  | cancel id' => cases ho
  | modify mod =>
    rw [Request.move.eq_def] at ho
    cases own with
    | none => cases ho
    | some r =>
      dsimp only at ho
      split_ifs at ho
      · cases ho
      · cases ho
      · exact hentered rfl (hown r rfl) ho
      · cases ho

/-- Cancelling a live order makes room for one. -/
theorem size_cancel (hd : Distinct b) {r : Entry} (hf : b.find? id = some r) :
    (b.cancel id).size + 1 = b.size := by
  obtain ⟨os, os', hq, hid⟩ := find?_split hf
  have hsize := b.size_setQueue r.1 r.2.1 (os ++ os')
  rw [hq, List.length_append, List.length_append, List.length_cons] at hsize
  rw [cancel_eq_setQueue hd hq hid]
  omega

/-- Only additions make a book larger. -/
theorem size_apply (hd : Distinct b) (rules : ExchangeRules) (q : Request) :
    ((q.move rules (b.find? q.orderId)).apply q.orderId b).size ≤
      b.size + if q.isAdd then 1 else 0 := by
  cases q with
  | add type id side price qty =>
    rw [Request.move, Request.orderId, Request.isAdd, if_pos rfl]
    split_ifs with hrest
    · rw [Move.apply, cancel_of_find?_none hrest.1, size_append]
    · exact Nat.le_succ _
  | cancel id => exact size_filter_le b _
  | modify mod =>
    rw [show (Request.modify mod).isAdd = false from rfl, if_neg Bool.false_ne_true, Nat.add_zero,
      Request.move.eq_def, Request.orderId]
    cases hf : b.find? mod.orderId with
    | none => exact Nat.le_refl _
    | some r =>
      dsimp only
      split_ifs
      · exact Nat.le_refl _
      · exact (b.size_mapVal _).le
      · rw [Move.apply, size_append]
        exact (size_cancel hd hf).le
      · exact size_filter_le b _

end Moves

section Steps

variable {call : Call} {calls calls' : List Call} {q : Request}

/-- The book after a quiet call that does not trade. -/
def quietStep (rules : ExchangeRules) (b : Book) (call : Call) : Book :=
  match request? call with
  | none => b
  | some q => (q.move rules (b.find? q.orderId)).apply q.orderId b

/-- A quiet call keeps identifiers distinct. -/
theorem distinct_quietStep (rules : ExchangeRules) (h : Distinct b) (call : Call) :
    Distinct (quietStep rules b call) := by
  rw [quietStep]
  cases request? call with
  | none => exact h
  | some q => exact distinct_apply h _ _

/-- Calls that share no order and no level commute. -/
theorem quietStep_comm (rules : ExchangeRules) (h : Distinct b) {x y : Call}
    (hshare : ¬Share uses x y) :
    quietStep rules (quietStep rules b x) y = quietStep rules (quietStep rules b y) x := by
  cases hx : request? x with
  | none => simp only [quietStep, hx]
  | some q =>
    cases hy : request? y with
    | none => simp only [quietStep, hx, hy]
    | some q' =>
      have hne : q.orderId ≠ q'.orderId := fun heq =>
        hshare ⟨.order q.orderId, by simp [uses, hx], by simp [uses, hy, heq]⟩
      simp only [quietStep, hx, hy, find?_apply_of_ne h _ hne, find?_apply_of_ne h _ hne.symm]
      refine (apply_comm hne (fun side price => ?_) b).symm
      by_contra hboth
      obtain ⟨hq, hq'⟩ := not_or.mp hboth
      exact hshare ⟨.level side price, by simp [uses, hx, added_move hq],
        by simp [uses, hy, added_move hq']⟩

/-- Prices that rest on a side or are asked for by later calls. -/
def Offered (b : Book) (calls : List Call) (side : Side) (price : Price) : Prop :=
  b.queue side price ≠ [] ∨ ∃ call ∈ calls, uses (.level side price) call = true

/-- The calls to come are quiet, fit in the pool and trade nothing. -/
structure Ready (e : RefEngine) (calls : List Call) : Prop where
  /-- Identifiers are distinct. -/
  distinct : Distinct e.book
  /-- Only orders that may rest do. -/
  resting : ∀ side price, ∀ o ∈ e.book.queue side price, MayRest o.orderType
  /-- The calls are quiet. -/
  quiet : ∀ call ∈ calls, Quiet call
  /-- All bids stay below all asks. -/
  apart : ∀ bid ask, Offered e.book calls .buy bid → Offered e.book calls .sell ask → bid < ask
  /-- There is a slot for every addition. -/
  room : e.book.size + (calls.filter adds).length ≤ e.capacity

/-- A limit below all opposing prices reaches none of them. -/
theorem not_crosses_of_offered
    (h : ∀ bid ask, Offered b calls .buy bid → Offered b calls .sell ask → bid < ask)
    {opposing : Price} (hown : Offered b calls side price)
    (hopposing : Offered b calls side.opposite opposing) : ¬side.crosses price opposing := by
  cases side with
  | buy => exact Int32.not_le.mpr (h _ _ hown hopposing)
  | sell => exact Int32.not_le.mpr (h _ _ hopposing hown)

/-- All bids are below all asks. -/
theorem Ready.apartBook (h : Ready e calls) : ApartBook e.book := fun _ _ _ hown hopposing =>
  not_crosses_of_offered h.apart (Or.inl hown) (Or.inl hopposing)

/-- A price that is asked for reaches nothing, also after orders have left. -/
theorem Ready.not_canMatch (h : Ready e calls) (hown : Offered e.book calls side price)
    (hsub : Shrinks e.book b) : ¬b.canMatch side price = true := by
  rw [Book.canMatch]
  cases hbest : b.best? side.opposite with
  | none => simp
  | some r =>
    obtain ⟨p, o, os⟩ := r
    have hne : b.queue side.opposite p ≠ [] := by
      rw [BookOf.queue_of_best? hbest]
      exact List.cons_ne_nil _ _
    simpa using not_crosses_of_offered h.apart hown (Or.inl (hsub.ne_nil hne))

/-- A FillOrKill order that reaches nothing leaves the book as it is. -/
theorem fillOrKill_cannotMatch (hmatch : ¬b.canMatch side price = true) (id : OrderId)
    (qty : Quantity) : b.fillOrKill side id price qty = ([], b) := by
  have hhalt : Book.sweepStep side id price (qty, b) = none := by
    cases hstep : Book.sweepStep side id price (qty, b) with
    | none => rfl
    | some r =>
      obtain ⟨t, left, b'⟩ := r
      obtain ⟨p, o, rest, -, hbest, hcross, -⟩ := sweepStep_eq_some_iff.mp hstep
      rw [Book.canMatch, hbest] at hmatch
      exact absurd (decide_eq_true hcross) hmatch
  rw [Book.fillOrKill]
  split_ifs
  · rfl
  · cases b.size with
    | zero => rfl
    | succ k => rw [StepRuns.run, hhalt]

/-- An addition that reaches nothing rests if it may and is refused otherwise. -/
theorem addOrder_quiet (hapart : ApartBook e.book) (hmatch : ¬e.book.canMatch side price = true)
    (hroom : e.book.size < e.capacity) (htype : type ≠ .market) (id : OrderId) (qty : Quantity) :
    e.addOrder type id side price qty = .ret [] { e with
      book :=
        if e.book.find? id = none ∧ MayRest type ∧ meetsRules e.rules price qty = true then
          e.book.append side price ⟨id, type, qty⟩
        else e.book } := by
  have hvalid : e.validateOrder id price qty = true ↔
      e.book.find? id = none ∧ meetsRules e.rules price qty = true := by
    rw [RefEngine.validateOrder, Book.hasOrder, Bool.and_assoc, Bool.and_eq_true,
      Bool.not_eq_true', Option.isSome_eq_false_iff, Option.isNone_iff_eq_none]
    rfl
  rw [addOrder_eq_checks, RefEngine.convertMarket, if_neg htype]
  dsimp only
  by_cases hv : e.validateOrder id price qty = true
  · obtain ⟨hid, hrules⟩ := hvalid.mp hv
    rw [if_neg (not_not.mpr hv)]
    by_cases hioc : type = .immediateOrCancel
    · rw [if_pos ⟨hioc, hmatch⟩, if_neg fun h => by simp [MayRest, hioc] at h]
    · rw [if_neg fun h => hioc h.1, if_neg (Nat.not_le.mpr hroom)]
      by_cases hfok : type = .fillOrKill
      · rw [place, if_pos hfok, fillOrKill_cannotMatch hmatch,
          if_neg fun h => by simp [MayRest, hfok] at h]
      · have hrest : MayRest type := by
          rw [MayRest]
          cases type <;> simp_all
        rw [place_resting hapart hmatch hrest, if_pos ⟨hid, hrest, hrules⟩]
  · rw [if_pos hv, if_neg fun h => hv (hvalid.mpr ⟨h.1, h.2.2⟩)]

/-- What a request does to the reference engine. -/
def Request.outcome (e : RefEngine) : Request → Outcome RefEngine Trades
  | .add type id side price qty => e.addOrder type id side price qty
  | .cancel id => .ret [] (e.cancelOrder id)
  | .modify mod => e.modifyOrder mod

/-- A call and a message make their request in the same way. -/
theorem perform_of_outcome {e' : RefEngine} (hq : request? call = some q)
    (ho : q.outcome e = .ret [] e') : e.perform call = (quietReply call, e') := by
  cases call with
  | addOrder type id side price qty =>
    cases hq
    rw [RefEngine.perform, show e.addOrder type id side price qty = _ from ho]
    rfl
  | cancelOrder id =>
    cases hq
    cases ho
    rfl
  | modifyOrder mod =>
    cases hq
    rw [RefEngine.perform, show e.modifyOrder mod = _ from ho]
    rfl
  | processMarketData msg order =>
    cases msg with
    | newOrder msg =>
      cases hq
      rw [RefEngine.perform, RefEngine.processMarketData,
        show e.addOrder msg.orderType msg.orderId msg.side msg.price msg.quantity = _ from ho]
      rfl
    | cancelOrder msg =>
      cases hq
      cases ho
      rfl
    | modifyOrder msg =>
      cases hq
      rw [RefEngine.perform, RefEngine.processMarketData,
        show e.modifyOrder ⟨msg.orderId, msg.side, msg.newPrice, msg.newQuantity⟩ = _ from ho]
      rfl
    | trade => cases hq
    | bookSnapshot msg => cases hq
  | setExchangeRules rules usable => cases hq
  | cancelGoodForDayOrders order => cases hq
  | resetMarketDataStats => cases hq

/-- A quiet request does its move. -/
theorem Ready.outcome (h : Ready e (call :: calls)) (hq : request? call = some q) :
    q.outcome e = .ret [] { e with
      book := (q.move e.rules (e.book.find? q.orderId)).apply q.orderId e.book } := by
  have hquiet : q.isQuiet = true := by
    have hcall := h.quiet call List.mem_cons_self
    rw [Quiet, hq] at hcall
    exact hcall
  have hown : ∀ side price, q.level? = some (side, price) →
      Offered e.book (call :: calls) side price := fun side price hlevel =>
    Or.inr ⟨call, List.mem_cons_self, by simp [uses, hq, hlevel]⟩
  have hroom := h.room
  cases q with
  | add type id side price qty =>
    have hadds : adds call = true := by
      rw [adds, hq]
      rfl
    rw [List.filter_cons_of_pos hadds, List.length_cons] at hroom
    rw [Request.outcome, addOrder_quiet h.apartBook
      (h.not_canMatch (hown side price rfl) (Shrinks.refl _)) (by omega)
      (by simpa [Request.isQuiet] using hquiet), Request.move, Request.orderId]
    split_ifs with hrest
    · rw [Move.apply, cancel_of_find?_none hrest.1]
    · rfl
  | cancel id => rfl
  | modify mod =>
    rw [Request.outcome, RefEngine.modifyOrder, Request.orderId, Request.move.eq_def]
    cases hf : e.book.find? mod.orderId with
    | none => rfl
    | some r =>
      obtain ⟨side, price, o⟩ := r
      dsimp only
      by_cases hside : mod.side = side
      swap
      · rw [if_pos hside, if_pos hside]
        rfl
      rw [if_neg (not_not.mpr hside), if_neg (not_not.mpr hside)]
      by_cases hprice : mod.price = price
      · rw [if_pos hprice, if_pos hprice]
        rfl
      rw [if_neg hprice, if_neg hprice]
      -- the order is entered anew in the book without it
      have hcancelled : (e.cancelOrder mod.orderId).book.find? mod.orderId = none := by
        rw [RefEngine.cancelOrder, find?_cancel h.distinct, if_pos rfl]
      have hsub : Shrinks e.book (e.cancelOrder mod.orderId).book := shrinks_filter e.book _
      have hrest : MayRest o.orderType := h.resting side price o (find?_mem hf).1
      have hsize := size_cancel h.distinct hf
      have hmarket : o.orderType ≠ .market := by
        rcases hrest with hrest | hrest <;> simp [hrest]
      rw [addOrder_quiet (h.apartBook.shrinks hsub)
        (h.not_canMatch (hown side mod.price (by rw [Request.level?, hside])) hsub)
        (show (e.book.cancel mod.orderId).size < e.capacity by omega) hmarket]
      by_cases hrules : meetsRules e.rules mod.price mod.quantity = true
      · rw [if_pos ⟨hcancelled, hrest, hrules⟩, if_pos hrules, Move.apply, hside]
        rfl
      · rw [if_neg fun hall => hrules hall.2.2, if_neg hrules]
        rfl

/-- A quiet call offers no price that was not offered before. -/
theorem offered_step {rules : ExchangeRules}
    (h : Offered (quietStep rules b call) calls side price) :
    Offered b (call :: calls) side price := by
  rcases h with hne | ⟨c, hc, huses⟩
  · rw [quietStep] at hne
    cases hq : request? call with
    | none =>
      rw [hq] at hne
      exact Or.inl hne
    | some q =>
      rw [hq] at hne
      dsimp only at hne
      rw [queue_apply, ne_eq, List.append_eq_nil_iff, not_and_or] at hne
      rcases hne with hkept | hadded
      · refine Or.inl fun hnil => hkept ?_
        rw [hnil, List.filterMap_nil]
      · exact Or.inr ⟨call, List.mem_cons_self, by simp [uses, hq, added_move hadded]⟩
  · exact Or.inr ⟨c, List.mem_cons_of_mem _ hc, huses⟩

/-- Moves keep the calls to come quiet. -/
theorem Ready.step (h : Ready e (call :: calls)) :
    Ready { e with book := quietStep e.rules e.book call } calls where
  distinct := distinct_quietStep e.rules h.distinct call
  resting := by
    intro side price o ho
    rw [quietStep] at ho
    cases hq : request? call with
    | none =>
      rw [hq] at ho
      exact h.resting side price o ho
    | some q =>
      rw [hq] at ho
      dsimp only at ho
      rw [queue_apply, List.mem_append, List.mem_filterMap] at ho
      rcases ho with ⟨x, hx, hedit⟩ | ho
      · rw [(edit_same hedit).2]
        exact h.resting side price x hx
      · exact mayRest_added (fun r hr => h.resting r.1 r.2.1 r.2.2 (find?_mem hr).1) ho
  quiet := fun c hc => h.quiet c (List.mem_cons_of_mem _ hc)
  apart := fun bid ask hbid hask => h.apart bid ask (offered_step hbid) (offered_step hask)
  room := by
    have hroom := h.room
    rw [quietStep]
    cases hq : request? call with
    | none =>
      have hadds : ¬adds call = true := by simp [adds, hq]
      rw [List.filter_cons_of_neg hadds] at hroom
      exact hroom
    | some q =>
      have hsize := size_apply h.distinct e.rules q
      rw [List.filter_cons, adds, hq, Option.any_some] at hroom
      dsimp only
      split_ifs at hroom hsize
      · rw [List.length_cons] at hroom
        omega
      · omega

/-- A run of quiet calls. -/
theorem Ready.run (h : Ready e calls) :
    afterRef e calls = { e with book := calls.foldl (quietStep e.rules) e.book } ∧
      (history RefEngine.perform observeRef e calls).map Prod.fst = calls.map quietReply := by
  induction calls generalizing e with
  | nil => exact ⟨rfl, rfl⟩
  | cons call calls ih =>
    obtain ⟨q, hq, -⟩ := (Option.any_eq_true _ _).mp (h.quiet call List.mem_cons_self)
    have hperform := perform_of_outcome hq (h.outcome hq)
    have hstep := h.step
    rw [quietStep, hq] at hstep
    obtain ⟨hafter, hreplies⟩ := ih hstep
    constructor
    · rw [afterRef, List.foldl_cons, ← afterRef, hperform, List.foldl_cons, quietStep, hq]
      exact hafter
    · rw [history, List.map_cons, List.map_cons, hperform]
      exact congrArg _ hreplies

/-- The additions of a request. -/
def Request.additions (s : Orderbook n) : Request → List (Addition n)
  | .add type id side price qty => [⟨s, type, id, side, price, qty⟩]
  | .cancel _ => []
  | .modify mod => modifyAdditions s mod

/-- A call and a message add for their request in the same way. -/
theorem additions_of_request (hq : request? call = some q) : additions s call = q.additions s := by
  cases call with
  | processMarketData msg order =>
    cases msg <;> cases hq <;> rfl
  | _ => cases hq <;> rfl

/-- The trades of a modification are those of its addition. -/
theorem tradesOf_modifyAdditions {mod : OrderModify} {ts : Trades}
    (hret : s.modifyOrder mod = .ret ts s') : (modifyAdditions s mod).flatMap tradesOf = ts := by
  rw [Orderbook.modifyOrder] at hret
  rw [modifyAdditions]
  cases hm : s.orderMap.find? mod.orderId with
  | none =>
    rw [hm] at hret
    cases hret
    rfl
  | some i =>
    rw [hm] at hret
    dsimp only at hret ⊢
    by_cases hside : mod.side = (s.pool i).side
    swap
    · rw [if_pos hside] at hret
      rw [if_pos (Or.inl hside)]
      cases hret
      rfl
    rw [if_neg (not_not.mpr hside)] at hret
    by_cases hprice : mod.price = (s.pool i).price
    · rw [if_pos hprice] at hret
      rw [if_pos (Or.inr hprice)]
      cases hlevel : (s.levels (s.pool i).side).find? (s.pool i).price with
      | none =>
        rw [hlevel] at hret
        cases hret
      | some lvl =>
        rw [hlevel] at hret
        cases hret
        rfl
    · rw [if_neg hprice] at hret
      rw [if_neg (by simp [hside, hprice])]
      cases hcancel : s.cancelOrder mod.orderId with
      | ret u s₁ =>
        rw [hcancel, Outcome.ret_bind] at hret
        simp [tradesOf, Addition.outcome, hret]
      | raise x s₁ =>
        rw [hcancel] at hret
        cases hret
      | diverge =>
        rw [hcancel] at hret
        cases hret

/-- The additions of a request make its trades. -/
theorem tradesOf_request (h : Represents s e) {ts : Trades} {e' : RefEngine}
    (ho : q.outcome e = .ret ts e') : (q.additions s).flatMap tradesOf = ts := by
  cases q with
  | add type id side price qty =>
    have hadd := addOrder_simulates h type id side price qty
    rw [show e.addOrder type id side price qty = _ from ho] at hadd
    obtain ⟨s', hret, -⟩ := hadd.eq_ret
    simp [Request.additions, tradesOf, Addition.outcome, hret]
  | cancel id =>
    cases ho
    rfl
  | modify mod =>
    obtain ⟨ts', s', e₁, hret, href, -⟩ := modifyOrder_returns h mod
    rw [show e.modifyOrder mod = _ from ho] at href
    cases href
    exact tradesOf_modifyAdditions hret

/-- What a quiet call counts if it does not trade. -/
def tally (stats : MarketDataStats) : Call → MarketDataStats
  | .processMarketData (.newOrder _) _ => { stats with
      messagesProcessed := stats.messagesProcessed + 1
      newOrders := stats.newOrders + 1 }
  | .processMarketData (.cancelOrder _) _ => { stats with
      messagesProcessed := stats.messagesProcessed + 1
      cancellations := stats.cancellations + 1 }
  | .processMarketData (.modifyOrder _) _ => { stats with
      messagesProcessed := stats.messagesProcessed + 1
      modifications := stats.modifications + 1 }
  | _ => stats

/-- Counting knows no sequence. -/
theorem tally_comm (stats : MarketDataStats) (x y : Call) :
    tally (tally stats x) y = tally (tally stats y) x := by
  cases x with
  | processMarketData msg order =>
    cases y with
    | processMarketData msg' order' => cases msg <;> cases msg' <;> rfl
    | _ => cases msg <;> rfl
  | _ => cases y <;> rfl

/-- A quiet call that does not trade only counts its message. -/
theorem settings_quiet (h : Represents s e) (hq : request? call = some q) {e' : RefEngine}
    (ho : q.outcome e = .ret [] e') : settings (perform s call).2 =
      (s.exchangeRules, tally s.stats call, s.lastSequenceNumber, s.isInitialized) := by
  rw [settings_perform h]
  cases call with
  | processMarketData msg order =>
    cases msg with
    | newOrder msg =>
      cases hq
      have hadd := addOrder_simulates h msg.orderType msg.orderId msg.side msg.price msg.quantity
      rw [show e.addOrder msg.orderType msg.orderId msg.side msg.price msg.quantity = _
        from ho] at hadd
      obtain ⟨s', hret, -⟩ := hadd.eq_ret
      simp [settingsAfter, counters, position, tally, messageType, newOrderRaises, counted,
        tradesOf, Addition.outcome, hret, Outcome.raises]
    | cancelOrder msg =>
      simp [settingsAfter, counters, position, tally, messageType, newOrderRaises, counted]
    | modifyOrder msg =>
      simp [settingsAfter, counters, position, tally, messageType, newOrderRaises, counted]
    | trade => cases hq
    | bookSnapshot msg => cases hq
  | setExchangeRules rules usable => cases hq
  | resetMarketDataStats => cases hq
  | _ => rfl

/-- A run of quiet calls makes no trade and counts its messages. -/
theorem Ready.counts (h : Ready e calls) (hrep : Represents s e) :
    (runAdditions s calls).flatMap tradesOf = [] ∧ settings (after s calls) =
      (s.exchangeRules, calls.foldl tally s.stats, s.lastSequenceNumber, s.isInitialized) := by
  induction calls generalizing s e with
  | nil => exact ⟨rfl, rfl⟩
  | cons call calls ih =>
    obtain ⟨q, hq, -⟩ := (Option.any_eq_true _ _).mp (h.quiet call List.mem_cons_self)
    have houtcome := h.outcome hq
    have hperform := perform_of_outcome hq houtcome
    have hstep := h.step
    rw [quietStep, hq] at hstep
    have hrep' := (perform_simulates hrep call).2
    rw [hperform] at hrep'
    obtain ⟨htrades, hcounts⟩ := ih hstep hrep'
    constructor
    · rw [runAdditions, List.flatMap_append, htrades, List.append_nil, additions_of_request hq,
        tradesOf_request hrep houtcome]
    · have hset := settings_quiet hrep hq houtcome
      rw [settings.eq_def (perform s call).2] at hset
      simp only [Prod.mk.injEq] at hset
      rw [after_cons, hcounts, hset.1, hset.2.1, hset.2.2.1, hset.2.2.2, List.foldl_cons]

/-- Reordered calls are as quiet as the calls. -/
theorem Ready.perm (h : Ready e calls) (hperm : calls.Perm calls') : Ready e calls' where
  distinct := h.distinct
  resting := h.resting
  quiet := fun c hc => h.quiet c (hperm.mem_iff.mpr hc)
  apart := by
    have hoffered : ∀ side price, Offered e.book calls' side price →
        Offered e.book calls side price := fun side price hoff =>
      hoff.imp_right fun ⟨c, hc, huses⟩ => ⟨c, hperm.mem_iff.mpr hc, huses⟩
    exact fun bid ask hbid hask => h.apart bid ask (hoffered _ _ hbid) (hoffered _ _ hask)
  room := (hperm.filter adds).length_eq ▸ h.room

/-- A quiet call concerns its order. -/
theorem Quiet.uses (h : Quiet call) : ∃ r, uses r call = true := by
  obtain ⟨q, hq, -⟩ := (Option.any_eq_true _ _).mp h
  exact ⟨.order q.orderId, by simp [Interleavings.uses, hq]⟩

end Steps

/-- Prices that rest on a side of an engine or are asked for by calls. -/
def Offers (s : Orderbook n) (calls : List Call) (side : Side) (price : Price) : Prop :=
  RestsAt s side price ∨ ∃ call ∈ calls, uses (.level side price) call = true

/-- Two runs of quiet calls from a reachable state, with all bids below all asks
and a free slot for every addition, in which the calls for each order and those
for each level come in the same sequence, make no trade and leave states that no
caller can tell apart by anything it can call or read. -/
theorem interleavings_agree (h : Reachable s) {calls calls' : List Call}
    (hquiet : ∀ call ∈ calls ++ calls', Quiet call)
    (hapart : ∀ bid ask, Offers s calls .buy bid → Offers s calls .sell ask → bid < ask)
    (hroom : (calls.filter adds).length ≤ s.poolFreeSlots)
    (hsequence : ∀ r, calls.filter (uses r) = calls'.filter (uses r)) :
    (runAdditions s calls).flatMap tradesOf = [] ∧
      (runAdditions s calls').flatMap tradesOf = [] ∧
      (history perform observe s calls).map Prod.fst = calls.map quietReply ∧
      (history perform observe s calls').map Prod.fst = calls'.map quietReply ∧
      Inseparable (after s calls) (after s calls') := by
  obtain ⟨e, hrep, horderly⟩ := reachable_orderly h
  have hfree := hrep.free_add
  have hd := distinct_represents hrep
  have hoffers : ∀ side price, Offered e.book calls side price → Offers s calls side price :=
    fun side price hoff => hoff.imp_left (restsAt_represents hrep side price).mpr
  have hready : Ready e calls :=
    { distinct := hd
      resting := horderly.rests
      quiet := fun c hc => hquiet c (List.mem_append_left _ hc)
      apart := fun bid ask hbid hask => hapart bid ask (hoffers _ _ hbid) (hoffers _ _ hask)
      room := by
        rw [hrep.capacity]
        omega }
  have hreorders : Reorders uses calls calls' :=
    reorders_of_seen (fun c hc => (hquiet c (List.mem_append_left _ hc)).uses)
      (fun c hc => (hquiet c (List.mem_append_right _ hc)).uses) hsequence
  have hready' := hready.perm hreorders.perm
  obtain ⟨hafter, hreplies⟩ := hready.run
  obtain ⟨hafter', hreplies'⟩ := hready'.run
  obtain ⟨htrades, hcounts⟩ := hready.counts hrep
  obtain ⟨htrades', hcounts'⟩ := hready'.counts hrep
  refine ⟨htrades, htrades', by rw [history_eq hrep, hreplies], by rw [history_eq hrep, hreplies'],
    ?_⟩
  have hkeeps : ∀ b c, Distinct b → Distinct (quietStep e.rules b c) := fun b c hb =>
    distinct_quietStep e.rules hb c
  have hbook : calls.foldl (quietStep e.rules) e.book = calls'.foldl (quietStep e.rules) e.book :=
    hreorders.foldl_eq hkeeps (fun b x y hb hshare => quietStep_comm e.rules hb hshare) hd
  have hsame : afterRef e calls' = afterRef e calls := by
    rw [hafter, hafter', hbook]
  have htally : calls.foldl tally s.stats = calls'.foldl tally s.stats :=
    hreorders.perm.foldl_eq' (fun x _ y _ stats => tally_comm stats x y) s.stats
  exact inseparable_of_represents (represents_after hrep calls)
    (hsame ▸ represents_after hrep calls') (by rw [hcounts, hcounts', htally])

/-- A buy that is repriced, and a sell that comes and goes by messages. -/
def buyThenSell : List Call :=
  [.addOrder .goodTillCancel 1 .buy 100 5,
    .processMarketData (.newOrder ⟨2, .sell, 105, 4, .goodForDay⟩) inKeyOrder,
    .modifyOrder ⟨1, .buy, 99, 6⟩, .processMarketData (.cancelOrder ⟨2⟩) inKeyOrder]

/-- The sell comes and goes first. -/
def sellThenBuy : List Call :=
  [.processMarketData (.newOrder ⟨2, .sell, 105, 4, .goodForDay⟩) inKeyOrder,
    .processMarketData (.cancelOrder ⟨2⟩) inKeyOrder,
    .addOrder .goodTillCancel 1 .buy 100 5, .modifyOrder ⟨1, .buy, 99, 6⟩]

/-- With two slots it does not matter which participant comes first. -/
theorem interleavings_agree_twoParticipants :
    (runAdditions (create 2) buyThenSell).flatMap tradesOf = [] ∧
      Inseparable (after (create 2) buyThenSell) (after (create 2) sellThenBuy) := by
  have hquiet : ∀ call ∈ buyThenSell ++ sellThenBuy, Quiet call := by
    simp [buyThenSell, sellThenBuy, Quiet, request?, Request.isQuiet]
  have hapart : ∀ bid ask, Offers (create 2) buyThenSell .buy bid →
      Offers (create 2) buyThenSell .sell ask → bid < ask := by
    have hempty : ∀ side price, ¬RestsAt (create 2) side price := by
      rintro side price ⟨id, i, hf, -⟩
      cases hf
    intro bid ask hbid hask
    have hbids : 100 = bid ∨ 99 = bid := by
      simpa [buyThenSell, uses, request?, Request.level?] using hbid.resolve_left (hempty _ _)
    have hasks : 105 = ask := by
      simpa [buyThenSell, uses, request?, Request.level?] using hask.resolve_left (hempty _ _)
    subst hasks
    rcases hbids with rfl | rfl
    · decide
    · decide
  have hsequence : ∀ r, buyThenSell.filter (uses r) = sellThenBuy.filter (uses r) := by
    rintro (id | ⟨side, price⟩)
    · by_cases hfirst : 1 = id
      · subst hfirst
        rfl
      · by_cases hsecond : 2 = id
        · subst hsecond
          rfl
        · simp [buyThenSell, sellThenBuy, uses, request?, Request.orderId, hfirst, hsecond]
    · cases side <;>
        simp [buyThenSell, sellThenBuy, uses, request?, Request.level?, List.filter_cons]
  obtain ⟨htrades, -, -, -, hsame⟩ :=
    interleavings_agree Reachable.create hquiet hapart (by decide) hsequence
  exact ⟨htrades, hsame⟩

end OrderbookEngine.Interleavings
