import OrderbookEngine.Modifications
import OrderbookEngine.OrderLaws

/-!
# A book entered anew

Slots, links and free list of a state are the outcome of its history. Its live
orders alone determine all that a caller sees: entered into a fresh engine, in
any sequence that keeps each queue in its order, they give the same book without
a trade.
-/

namespace OrderbookEngine.RestoredBook

open SortedMap MarketTypes PoolBook FeedCalls ReferenceBook ReferenceSteps EngineSimulation RunRules
open Refinement BookState Additions Crossing Snapshots AllOrNothing PriceTimeSweep OrderLaws
open Modifications

variable {n : ℕ} {s : Orderbook n} {e : RefEngine} {b : Book} {side : Side} {price : Price}
  {id : OrderId} {type : OrderType} {o : Resting}

/-- An order with its side and price. -/
abbrev Entry := Side × Price × Resting

variable {x : Entry} {xs : List Entry}

/-- Put orders at the ends of their queues. -/
def enter (b : Book) (xs : List Entry) : Book :=
  xs.foldl (fun b x => b.append x.1 x.2.1 x.2.2) b

section Enter

end Enter

section Reentries

end Reentries

end OrderbookEngine.RestoredBook
