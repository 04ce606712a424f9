import OrderbookEngine.AllOrNothing
import OrderbookEngine.MirrorBook
import OrderbookEngine.SlotRenaming

/-!
# The engine treats its sides symmetrically

The source writes each side of the matching core by hand. Mirroring an engine
exchanges the two maps of levels and the side and price of every slot. Adding
the mirrored order to the mirrored engine mirrors the outcome; only the slots
may be taken in another order.
-/

namespace OrderbookEngine.MirrorEngine

open SortedMap MarketTypes PoolBook FeedCalls ReferenceBook LayoutInvariant EngineSimulation
open RunRules AllOrNothing MirrorBook SlotRenaming

variable {n : ℕ} {s : Orderbook n} {L : Layout n} {e : RefEngine} {type : OrderType}
  {id : OrderId} {side : Side} {price : Price} {qty : Quantity}

/-- A slot with its order on the other side. -/
def mirrorOrder (o : PoolOrder n) : PoolOrder n :=
  { o with side := o.side.opposite, price := mirrorPrice o.price }

/-- The engine with its sides exchanged and its prices reversed. -/
def mirrorState (s : Orderbook n) : Orderbook n :=
  { s with
    pool := fun i => mirrorOrder (s.pool i)
    bids := s.asks.mapKeys mirrorPrice (before_mirrorPrice_of .sell)
    asks := s.bids.mapKeys mirrorPrice (before_mirrorPrice_of .buy) }

section States

/-- A level is found on the other side at the mirrored price. -/
theorem find?_mirrorState (s : Orderbook n) (side : Side) (price : Price) :
    ((mirrorState s).levels side).find? price =
      (s.levels side.opposite).find? (mirrorPrice price) := by
  conv_lhs => rw [← mirrorPrice_mirrorPrice price]
  cases side with
  | buy =>
    exact OrdMap.find?_mapKeys (before_mirrorPrice_of .sell) mirrorPrice_injective s.asks _
  | sell =>
    exact OrdMap.find?_mapKeys (before_mirrorPrice_of .buy) mirrorPrice_injective s.bids _

/-- Its data are the same. -/
theorem level_mirrorState (s : Orderbook n) (side : Side) (price : Price) :
    (mirrorState s).level side price = s.level side.opposite (mirrorPrice price) := by
  rw [Orderbook.level, find?_mirrorState, Orderbook.level]

/-- A mirrored pool lists the same slots. -/
theorem levelWf_mirror {pool : Pool n} {lvl : PriceLevel n} {is : List (Fin n)}
    (h : LevelWf pool lvl is) : LevelWf (fun i => mirrorOrder (pool i)) lvl is :=
  ⟨h.list, h.count, h.total⟩

/-- A slot of a mirrored layout is placed where it was on the other side. -/
theorem placed_mirrorState (h : Wf s [] noHoles L) {i : Fin n}
    (hi : i ∈ L.queue side.opposite (mirrorPrice price)) :
    (mirrorOrder (s.pool i)).side = side ∧ (mirrorOrder (s.pool i)).price = price ∧
      s.orderMap.find? (s.pool i).orderId = some i := by
  obtain ⟨hside, hprice, hmap⟩ := h.placed _ _ i hi
  refine ⟨?_, ?_, hmap⟩
  · rw [mirrorOrder, hside, Side.opposite_opposite]
  · rw [mirrorOrder, hprice, mirrorPrice_mirrorPrice]

/-- The mirror image has the mirrored layout. -/
theorem wf_mirrorState (h : Wf s [] noHoles L) :
    Wf (mirrorState s) [] noHoles (mirrorBook L) where
  level := fun side price => by
    rw [level_mirrorState, queue_mirrorBook]
    exact levelWf_mirror (h.level _ _)
  full := fun side price hf hq => by
    rw [find?_mirrorState] at hf
    rw [queue_mirrorBook] at hq
    exact (h.full side.opposite (mirrorPrice price) hf hq).elim
  placed := fun side price i hi => by
    rw [queue_mirrorBook] at hi
    exact placed_mirrorState h hi
  indexed := fun id i hm => by
    obtain ⟨hid, hi⟩ := h.indexed id i hm
    refine ⟨hid, ?_⟩
    simp only [mirrorState, mirrorOrder, queue_mirrorBook, Side.opposite_opposite,
      mirrorPrice_mirrorPrice]
    exact hi
  spare_nodup := h.spare_nodup
  spare_iff := h.spare_iff
  bounded := h.bounded

/-- The mirror image holds the mirrored book. -/
theorem view_mirrorState (s : Orderbook n) (L : Layout n) :
    view (mirrorState s) (mirrorBook L) = mirrorBook (view s L) := by
  apply BookOf.ext_queue
  intro side price
  rw [queue_view, queue_mirrorBook, queue_mirrorBook, queue_view]
  rfl

/-- The mirrored engine stores the mirrored book. -/
theorem represents_mirrorState (h : Represents s e) :
    Represents (mirrorState s) (mirrorRef e) := by
  obtain ⟨⟨L, hw, hbook⟩, hrules, hcap⟩ := h
  refine ⟨⟨mirrorBook L, wf_mirrorState hw, ?_⟩, hrules, hcap⟩
  rw [view_mirrorState, ← hbook, mirrorRef]

end States

/-- The conversion of market orders, with its refusal, commutes with mirroring. -/
theorem convertMarket_mirrorState (s : Orderbook n) (type : OrderType) (side : Side)
    (price : Price) :
    (mirrorState s).convertMarket type side.opposite (mirrorPrice price) =
      (s.convertMarket type side price).map fun r => (r.1, mirrorPrice r.2) := by
  have hbids : (mirrorState s).bids.isEmpty = s.asks.isEmpty := List.isEmpty_map
  have hasks : (mirrorState s).asks.isEmpty = s.bids.isEmpty := List.isEmpty_map
  rw [Orderbook.convertMarket, Orderbook.convertMarket, hbids, hasks]
  by_cases htype : type = .market
  · rw [if_pos htype, if_pos htype]
    cases side with
    | buy => cases s.asks.isEmpty <;> rfl
    | sell => cases s.bids.isEmpty <;> rfl
  · rw [if_neg htype, if_neg htype]
    rfl

/-- Outcomes that agree with a common one and with its image agree by the image. -/
theorem agree_mapOutcome {σ τ α β : Type*} {R : σ → τ → Prop} {R' : σ → σ → Prop}
    {R₂ : σ → τ → Prop} {x : Outcome σ α} {y : Outcome σ β} {z : Outcome τ α} {f : α → β}
    {g : σ → σ} {g' : τ → τ} (h : Agree R x z) (h' : Agree R₂ y (mapOutcome f g' z))
    (hR : ∀ a b c, R a c → R₂ b (g' c) → R' (g a) b) : Agree R' (mapOutcome f g x) y := by
  cases x with
  | ret a s =>
    obtain ⟨t, rfl, hat⟩ := h.of_ret
    obtain ⟨u, rfl, hut⟩ := Agree.eq_ret h'
    exact ⟨rfl, hR _ _ _ hat hut⟩
  | raise x s =>
    obtain ⟨t, rfl, hat⟩ := h.of_raise
    cases y with
    | ret b u => exact h'.elim
    | raise x' u => exact ⟨h'.1.symm, hR _ _ _ hat h'.2⟩
    | diverge => exact h'.elim
  | diverge => exact h.elim

/-- From every engine that satisfies the representation invariant, crossed or
not, conversion and the addition of an order with an unused identifier commute
with mirroring, up to renaming of slots. -/
theorem addition_mirrors (h : Wf s [] noHoles L) (hid : s.hasOrder id = false) :
    (∀ type side price, (mirrorState s).convertMarket type side.opposite (mirrorPrice price) =
      (s.convertMarket type side price).map fun r => (r.1, mirrorPrice r.2)) ∧
    ∀ type side price qty, Agree (fun s₁ s₂ => ∃ σ, Renamed σ s₁ s₂)
      (mapOutcome (List.map mirrorTrade) mirrorState (s.addValidated type id side price qty))
      ((mirrorState s).addValidated type id side.opposite (mirrorPrice price) qty) := by
  refine ⟨convertMarket_mirrorState s, fun type side price qty => ?_⟩
  have hrep : Represents s ⟨view s L, s.exchangeRules, slotCount n⟩ := ⟨⟨L, h, rfl⟩, rfl, rfl⟩
  generalize (⟨view s L, s.exchangeRules, slotCount n⟩ : RefEngine) = e at hrep
  have hagree : Agree (Follows s) (s.addValidated type id side price qty) _ :=
    addValidated_simulates hrep hid
  have hmirrored : Agree (Follows (mirrorState s))
      ((mirrorState s).addValidated type id side.opposite (mirrorPrice price) qty) _ :=
    addValidated_simulates (represents_mirrorState hrep) hid
  rw [addValidated_mirrorRef] at hmirrored
  refine agree_mapOutcome hagree hmirrored ?_
  rintro s₁ s₂ e₁ ⟨hrep₁, hsettings₁⟩ ⟨hrep₂, hsettings₂⟩
  exact exists_renaming (represents_mirrorState hrep₁) hrep₂ (hsettings₂.trans hsettings₁.symm)

/-- Three asks are taken, and what is left of a market buy rests under an ask. -/
def remainderBook : List Call :=
  threeAsks ++ [.addOrder .market 7 .buy 0 40, .addOrder .goodTillCancel 8 .sell 110 3,
    .addOrder .goodTillCancel 9 .buy 104 2]

/-- Every order against a book with a market remainder. -/
theorem addition_mirrors_remainderBook :
    (∀ type side price, (mirrorState (after (create 6) remainderBook)).convertMarket type
      side.opposite (mirrorPrice price) =
        ((after (create 6) remainderBook).convertMarket type side price).map
          fun r => (r.1, mirrorPrice r.2)) ∧
    ∀ type side price qty, Agree (fun s₁ s₂ => ∃ σ, Renamed σ s₁ s₂)
      (mapOutcome (List.map mirrorTrade) mirrorState
        ((after (create 6) remainderBook).addValidated type 5 side price qty))
      ((mirrorState (after (create 6) remainderBook)).addValidated type 5 side.opposite
        (mirrorPrice price) qty) := by
  obtain ⟨e, ⟨L, hw, -⟩, -, -⟩ := reachable_represents
    (show Reachable (after (create 6) remainderBook) from ⟨_, rfl⟩)
  exact addition_mirrors hw (by decide +kernel)

end OrderbookEngine.MirrorEngine
