import OrderbookEngine.Crossing
import OrderbookEngine.TradePrices

/-!
# Books at real prices

As long as no order rests at a market price, limit orders at real prices leave
the book uncrossed and at real prices.
-/

namespace OrderbookEngine.RealBooks

open MarketTypes FeedCalls ReferenceBook ReferenceSteps Additions Crossing TradePrices

variable {e : RefEngine} {b : Book} {side : Side} {price : Price}

/-- All levels are at real prices, and no bid reaches an ask. -/
structure RealBook (b : Book) : Prop where
  /-- No bid reaches an ask. -/
  uncrossed : UncrossedBook b
  /-- All levels are at real prices. -/
  real : ∀ side price, b.queue side price ≠ [] → Real price

/-- The empty book is real. -/
theorem RealBook.empty : RealBook BookOf.empty := by
  constructor
  · intro bid ask hbid
    exact absurd (BookOf.queue_empty .buy bid) hbid
  · intro side price hne
    exact absurd (BookOf.queue_empty side price) hne

/-- Matching an order at a real price keeps the book real. -/
theorem RealBook.place (h : RealBook b) (hreal : Real price)
    (o : Resting) : RealBook ((b.append side price o).matchBook side).2 := by
  have happend : ∀ side' price', (b.append side price o).queue side' price' ≠ [] →
      Real price' := by
    intro side' price' hne
    rcases queue_append_ne_nil.mp hne with ⟨-, rfl⟩ | hne
    · exact hreal
    · exact h.real side' price' hne
  have hsentinels : ¬Sentinels (b.append side price o) := fun hs =>
    absurd (happend .buy _ (hs .buy)).2 (by decide)
  exact ⟨uncrossedBook_matchBook hsentinels, fun side' price' hne =>
    happend side' price' ((shrinks_matchSteps (matchBook_steps side _)).ne_nil hne)⟩

/-- A limit order at a real price keeps a book real. -/
theorem RealBook.addOrder (h : RealBook e.book) (id : OrderId) (hreal : Real price)
    (qty : Quantity) :
    RealBook (leaves e (e.addOrder .goodTillCancel id side price qty)).book := by
  rw [addOrder_eq_checks, RefEngine.convertMarket, if_neg (by simp)]
  dsimp only
  split_ifs with hvalid hioc hfull
  · exact h
  · exact h
  · exact h.place hreal ⟨id, .goodTillCancel, qty⟩
  · exact h

/-- So do snapshot levels at real prices. -/
theorem RealBook.addSnapshotLevels (h : RealBook e.book)
    {levels : List SnapshotLevel} (hreal : ∀ level ∈ levels, Real level.price) (id : OrderId) :
    RealBook (RefEngine.addSnapshotLevels side levels id e).2.book := by
  induction levels generalizing id e with
  | nil => exact h
  | cons level rest ih =>
    have hrest : ∀ level ∈ rest, Real level.price := fun l hl =>
      hreal l (List.mem_cons_of_mem _ hl)
    rw [RefEngine.addSnapshotLevels]
    split_ifs
    · exact ih h hrest id
    · exact ih (h.addOrder id (hreal level List.mem_cons_self) level.quantity) hrest (id + 1)

/-- A snapshot at real prices makes any book real. -/
theorem RealBook.processSnapshot {msg : BookSnapshotMessage}
    (hbids : ∀ level ∈ msg.bids, Real level.price) (hasks : ∀ level ∈ msg.asks, Real level.price)
    (e : RefEngine) : RealBook (e.processSnapshot msg).book :=
  (RealBook.empty.addSnapshotLevels hbids firstSyntheticId).addSnapshotLevels hasks _

end OrderbookEngine.RealBooks
