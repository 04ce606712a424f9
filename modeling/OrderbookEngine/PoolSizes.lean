import OrderbookEngine.Snapshots

/-!
# Pools of different sizes

The size of the pool shows only when it is exhausted. A run that never asks an
exhausted pool for a slot is, on every larger pool, the same run with more free
slots: the same replies, the same orders in the same queues and the same depth.
-/

namespace OrderbookEngine.PoolSizes

open MarketTypes PoolBook FeedCalls ReferenceBook EngineSimulation RunRules Refinement BookState
open Additions Snapshots

variable {n c : ℕ} {s : Orderbook n} {e e' : RefEngine} {a : Addition n} {ts : Trades}

section Calls

end Calls

section Runs

end Runs

end OrderbookEngine.PoolSizes
