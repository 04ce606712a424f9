import OrderbookEngine.RunRules

/-!
# What callers see agrees with the reference engine

After every call the number of live orders, the set of live identifiers, the
number of free slots and the reported depth are those of the reference engine.
Together with the replies they are the whole history a caller can observe.
-/

namespace OrderbookEngine.Refinement

open MarketTypes PoolBook FeedCalls ReferenceBook LayoutInvariant FokSimulation EngineSimulation
open RunRules

variable {n : ℕ} {s : Orderbook n} {e : RefEngine} {L : Layout n}

/-- What a caller can read from an engine. -/
structure Observation where
  /-- Number of live orders. -/
  size : ℕ
  /-- Which orders are live. -/
  hasOrder : OrderId → Bool
  /-- Number of free slots. -/
  poolFreeSlots : ℕ
  /-- Depth of both sides. -/
  orderInfos : OrderbookLevelInfos

/-- Read the engine. -/
def observe (s : Orderbook n) : Observation :=
  ⟨s.size, s.hasOrder, s.poolFreeSlots, s.getOrderInfos⟩

/-- Read the reference engine. -/
def observeRef (e : RefEngine) : Observation :=
  ⟨e.book.size, e.book.hasOrder, e.capacity - e.book.size, ⟨e.book.depth .buy, e.book.depth .sell⟩⟩

/-- The replies to a list of calls, each with what can be read after it. -/
def history {σ : Type*} (perform : σ → Call → Reply × σ) (observe : σ → Observation) :
    σ → List Call → List (Reply × Observation)
  | _, [] => []
  | s, call :: calls =>
    ((perform s call).1, observe (perform s call).2) ::
      history perform observe (perform s call).2 calls

/-- Cached totals and summed queues report the same levels. -/
theorem levelInfos_eq_depth (h : Wf s [] noHoles L) (side : Side) :
    Orderbook.levelInfos (s.levels side).entries = (view s L).depth side := by
  have hview : ((view s L).side side).map.entries =
      (L.side side).map.entries.map fun e => (e.1, e.2.map fun i => resting (s.pool i)) := by
    rw [view, BookOf.side_mapVal]
    rfl
  rw [Book.depth, hview, List.filterMap_map, Orderbook.levelInfos]
  have hpaired := levels_forall₂ h side
  generalize (s.levels side).entries = es at hpaired ⊢
  generalize (L.side side).map.entries = es' at hpaired ⊢
  induction hpaired with
  | nil => rfl
  | @cons e e' es es' he _ ih =>
    obtain ⟨hprice, hlvl⟩ := he
    have htotal : e.2.totalQty =
        wrapSum ((e'.2.map fun i => resting (s.pool i)).map Resting.quantity) := by
      rw [hlvl.total, List.map_map]
      rfl
    simp only [List.filterMap_cons, Function.comp_apply, htotal, hprice, ih]

/-- Both engines are read alike. -/
theorem observe_eq (h : Represents s e) : observe s = observeRef e := by
  have hsize := h.size_eq
  have hfree : s.poolFreeSlots = e.capacity - e.book.size := by
    have hadd := h.free_add
    rw [h.capacity]
    omega
  have hhas : s.hasOrder = e.book.hasOrder := funext h.hasOrder_book
  obtain ⟨⟨L, hw, hbook⟩, -, -⟩ := h
  have hinfos : s.getOrderInfos = ⟨e.book.depth .buy, e.book.depth .sell⟩ := by
    rw [hbook, ← levelInfos_eq_depth hw .buy, ← levelInfos_eq_depth hw .sell]
    rfl
  rw [observe, observeRef, hsize, hhas, hfree, hinfos]

/-- Engines in the relation have the same history. -/
theorem history_eq (h : Represents s e) (calls : List Call) :
    history perform observe s calls = history RefEngine.perform observeRef e calls := by
  induction calls generalizing s e with
  | nil => rfl
  | cons call calls ih =>
    obtain ⟨hreply, hrep⟩ := perform_simulates h call
    rw [history, history, hreply, observe_eq hrep, ih hrep]

/-- Every run of public calls on a fresh engine looks like the run of the
reference engine with room for as many orders. -/
theorem engine_refines_reference (poolSize : ℕ) (hpool : poolSize < 2 ^ 31) (calls : List Call) :
    history perform observe (create poolSize) calls =
      history RefEngine.perform observeRef (RefEngine.create poolSize) calls := by
  have h := represents_create poolSize
  rw [slotCount_of_lt hpool] at h
  exact history_eq h calls

/-- A sell, a crossing buy and the cancellation of its remainder. -/
theorem engine_refines_reference_small :
    history perform observe (create 2)
        [.addOrder .goodTillCancel 1 .sell 100 5, .addOrder .goodTillCancel 2 .buy 101 8,
          .cancelOrder 2] =
      history RefEngine.perform observeRef (RefEngine.create 2)
        [.addOrder .goodTillCancel 1 .sell 100 5, .addOrder .goodTillCancel 2 .buy 101 8,
          .cancelOrder 2] :=
  engine_refines_reference 2 (by decide) _

end OrderbookEngine.Refinement
