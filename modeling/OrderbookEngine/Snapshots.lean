import OrderbookEngine.BulkCancels

/-!
# A snapshot resynchronises the book

The old orders are cancelled in the iteration order of the hash map, which
leaves the free list in some order, and the pools of two engines differ slot by
slot from then on. What a caller sees after a snapshot depends only on the
message, the rules and the pool size, now and after any later calls.
-/

namespace OrderbookEngine.Snapshots

open MarketTypes PoolBook FeedCalls ReferenceBook EngineSimulation RunRules Refinement BookState
open FokAgreement BulkCancels

variable {n : ℕ} {s s' : Orderbook n} {e : RefEngine}

/-- The same call; only the iteration order of the hash map may differ. -/
inductive Alike : Call → Call → Prop where
  | same (call : Call) : Alike call call
  | goodForDay (order order' : IterOrder) :
    Alike (.cancelGoodForDayOrders order) (.cancelGoodForDayOrders order')
  | message (msg : MarketDataMessage) (order order' : IterOrder) :
    Alike (.processMarketData msg order) (.processMarketData msg order')

/-- The reference engine knows no iteration order. -/
theorem perform_alike {call call' : Call} (h : Alike call call') (e : RefEngine) :
    e.perform call = e.perform call' := by
  cases h <;> rfl

/-- Histories know none either. -/
theorem history_alike {calls calls' : List Call} (h : List.Forall₂ Alike calls calls')
    (e : RefEngine) : history RefEngine.perform observeRef e calls =
      history RefEngine.perform observeRef e calls' := by
  induction h generalizing e with
  | nil => rfl
  | cons hcall _ ih => rw [history, history, perform_alike hcall, ih]

/-- Nor does the state that a run leaves depend on one. -/
theorem afterRef_alike {calls calls' : List Call} (h : List.Forall₂ Alike calls calls')
    (e : RefEngine) : afterRef e calls = afterRef e calls' := by
  induction h generalizing e with
  | nil => rfl
  | cons hcall _ ih =>
    rw [afterRef, List.foldl_cons, perform_alike hcall]
    exact ih _

/-- Count and cached total of a level, if it is in its map. -/
def levelData (s : Orderbook n) (side : Side) (price : Price) : Option (ℤ × Quantity) :=
  ((s.levels side).find? price).map fun lvl => (lvl.orderCount, lvl.totalQty)

/-- No caller can tell the two books apart, now or later. Statistics and position
of the feed, which a snapshot sets, are not compared. -/
structure Indistinguishable (s s' : Orderbook n) : Prop where
  /-- FIFO lists with identifier, type and quantity, identifiers and free slots. -/
  listings : SameListings s s'
  /-- Counts and cached totals of all levels. -/
  levels : ∀ side price, levelData s' side price = levelData s side price
  /-- Size, identifiers, free slots and depth. -/
  observed : observe s' = observe s
  /-- Rules in force, now and after all later calls. -/
  rules : ∀ calls calls', List.Forall₂ Alike calls calls' →
    (after s' calls').exchangeRules = (after s calls).exchangeRules
  /-- Replies, with trades and exceptions, and observations of all later calls. -/
  later : ∀ calls calls', List.Forall₂ Alike calls calls' →
    history perform observe s' calls' = history perform observe s calls

/-- The data of a level are those of its listing. -/
theorem levelData_eq (h : Represents s e) (side : Side) (price : Price) :
    levelData s side price =
      if listing s side price = [] then none
      else some (((listing s side price).length : ℤ),
        wrapSum ((listing s side price).map Resting.quantity)) := by
  obtain ⟨hpresent, hdata⟩ := level_listing h side price
  rw [levelData]
  cases hf : (s.levels side).find? price with
  | none =>
    rw [hf] at hpresent
    rw [if_pos (not_not.mp (mt hpresent.mpr (not_not.mpr rfl)))]
    rfl
  | some lvl =>
    rw [hf] at hpresent
    obtain ⟨hcount, htotal⟩ := hdata lvl hf
    rw [if_neg (hpresent.mp (by simp)), Option.map_some, hcount, htotal]

/-- States that store the same reference engine are indistinguishable. -/
theorem indistinguishable_of_represents (h : Represents s e) (h' : Represents s' e) :
    Indistinguishable s s' where
  listings := sameListings h h' rfl
  levels := fun side price => by
    rw [levelData_eq h, levelData_eq h', listing_eq h, listing_eq h']
  observed := by rw [observe_eq h, observe_eq h']
  rules := fun calls calls' halike => by
    rw [← (represents_after h calls).rules, ← (represents_after h' calls').rules,
      afterRef_alike halike]
  later := fun calls calls' halike => by
    rw [history_eq h, history_eq h', history_alike halike]

/-- A fresh engine under given rules. -/
theorem represents_fresh (n : ℕ) (rules : ExchangeRules) :
    Represents ((create n).setExchangeRules rules)
      ⟨BookOf.empty, rules, slotCount n⟩ := by
  obtain ⟨⟨L, hw, hbook⟩, -, hcap⟩ := represents_create n
  exact ⟨⟨L, { hw with }, hbook⟩, rfl, hcap⟩

/-- The reference engine forgets its book in a snapshot. -/
theorem processSnapshot_forgets (e : RefEngine) (book : Book) (msg : BookSnapshotMessage) :
    RefEngine.processSnapshot { e with book := book } msg = e.processSnapshot msg := rfl

/-- Adding levels changes the book alone. -/
theorem addSnapshotLevels_keeps (side : Side) (levels : List SnapshotLevel)
    (syntheticId : OrderId) (e : RefEngine) :
    ∃ b, (RefEngine.addSnapshotLevels side levels syntheticId e).2 = { e with book := b } := by
  induction levels generalizing syntheticId e with
  | nil => exact ⟨e.book, rfl⟩
  | cons level rest ih =>
    rw [RefEngine.addSnapshotLevels]
    split_ifs with hz
    · exact ih syntheticId e
    · obtain ⟨b, hb⟩ := addOrder_keeps e .goodTillCancel syntheticId side level.price
        level.quantity
      rw [hb]
      exact ih (syntheticId + 1) { e with book := b }

/-- A snapshot changes the book alone. -/
theorem processSnapshot_keeps (e : RefEngine) (msg : BookSnapshotMessage) :
    ∃ b, e.processSnapshot msg = { e with book := b } := by
  obtain ⟨b₁, hb₁⟩ := addSnapshotLevels_keeps .buy msg.bids firstSyntheticId
    { e with book := BookOf.empty }
  rw [RefEngine.processSnapshot, hb₁]
  exact addSnapshotLevels_keeps .sell msg.asks _ { e with book := b₁ }

/-- The book after a snapshot is that of a fresh engine after it, and a second
snapshot of the same message changes nothing that can be seen. -/
theorem snapshot_resynchronises (h : Reachable s) (msg : BookSnapshotMessage)
    (order order' order'' : IterOrder) :
    ∃ s₁ s₂ s₃, processSnapshot s msg order = .ret () s₁ ∧
      processSnapshot ((create n).setExchangeRules s.exchangeRules) msg order' = .ret () s₂ ∧
      Indistinguishable s₂ s₁ ∧
      processSnapshot s₁ msg order'' = .ret () s₃ ∧ Indistinguishable s₁ s₃ := by
  obtain ⟨e, hrep⟩ := reachable_represents h
  obtain ⟨s₁, hret₁, hrep₁, -⟩ := processSnapshot_simulates hrep msg order
  obtain ⟨s₂, hret₂, hrep₂, -⟩ :=
    processSnapshot_simulates (represents_fresh n s.exchangeRules) msg order'
  obtain ⟨s₃, hret₃, hrep₃, -⟩ := processSnapshot_simulates hrep₁ msg order''
  have hfresh : e = { (⟨BookOf.empty, s.exchangeRules, slotCount n⟩ : RefEngine) with
      book := e.book } := by
    rw [← hrep.rules, ← hrep.capacity]
  have honce : e.processSnapshot msg =
      RefEngine.processSnapshot ⟨BookOf.empty, s.exchangeRules, slotCount n⟩ msg := by
    rw [hfresh]
    exact processSnapshot_forgets _ _ msg
  have htwice : (e.processSnapshot msg).processSnapshot msg = e.processSnapshot msg := by
    obtain ⟨b, hb⟩ := processSnapshot_keeps e msg
    conv_lhs => rw [hb]
    exact processSnapshot_forgets e b msg
  rw [htwice] at hrep₃
  rw [← honce] at hrep₂
  exact ⟨s₁, s₂, s₃, hret₁, hret₂, indistinguishable_of_represents hrep₂ hrep₁, hret₃,
    indistinguishable_of_represents hrep₁ hrep₃⟩

/-- Iteration in key order. -/
def inKeyOrder : IterOrder := ⟨id, fun _ => List.Perm.refl _⟩

/-- The three orders are replaced by two crossing levels, which trade. -/
theorem snapshot_resynchronises_threeOrders :
    ∃ s₁ s₂ s₃,
      processSnapshot (after (create 4) threeOrders) ⟨[⟨99, 5⟩, ⟨101, 0⟩], [⟨98, 2⟩], 7⟩
          inKeyOrder = .ret () s₁ ∧
      processSnapshot
          ((create 4).setExchangeRules (after (create 4) threeOrders).exchangeRules)
          ⟨[⟨99, 5⟩, ⟨101, 0⟩], [⟨98, 2⟩], 7⟩ inKeyOrder = .ret () s₂ ∧
      Indistinguishable s₂ s₁ ∧
      processSnapshot s₁ ⟨[⟨99, 5⟩, ⟨101, 0⟩], [⟨98, 2⟩], 7⟩ inKeyOrder = .ret () s₃ ∧
      Indistinguishable s₁ s₃ :=
  snapshot_resynchronises ⟨_, rfl⟩ _ _ _ _

end OrderbookEngine.Snapshots
