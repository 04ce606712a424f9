import OrderbookEngine.Failures
import OrderbookEngine.QuantityRules

/-!
# What becomes of a modification request

A request at the old price changes the quantity in place, and a request for the
other side is refused. A request at a new price cancels the order before the
new order is validated, so that a request which breaks the rules destroys it.
Only GoodTillCancel and GoodForDay orders rest, so that nothing else can
refuse the new order.
-/

namespace OrderbookEngine.Modifications

open MarketTypes PoolBook FeedCalls ReferenceBook ReferenceSteps EngineSimulation RunRules BookState
open Fills Additions Execution QuantityRules

variable {n : ℕ} {s s' : Orderbook n} {e : RefEngine} {type : OrderType} {side : Side}
  {price : Price} {o : Resting} {mod : OrderModify} {b : Book}

/-- The request took effect: the order rests at the new price with what its
fills left of the new quantity, or they used up that quantity. -/
def TakesEffect (mod : OrderModify) (ts : Trades) (s' : Orderbook n) : Prop :=
  (∃ o, order? s' mod.orderId = some (mod.side, mod.price, o) ∧
      o.quantity.toNat + fillsOf ts mod.orderId = mod.quantity.toNat) ∨
    fillsOf ts mod.orderId = mod.quantity.toNat

/-- The request takes effect, or is refused and leaves the whole book. -/
def Honoured (s : Orderbook n) (mod : OrderModify) : Prop :=
  ∃ ts s', s.modifyOrder mod = .ret ts s' ∧ (TakesEffect mod ts s' ∨ ts = [] ∧ SameBook s s')

/-- The order is asked to move to another price, with a quantity, but price and
quantity break the rules. -/
def BreaksRules (s : Orderbook n) (side : Side) (price : Price) (mod : OrderModify) : Prop :=
  mod.side = side ∧ mod.price ≠ price ∧ mod.quantity ≠ 0 ∧
    meetsRules s.exchangeRules mod.price mod.quantity = false

section RestingTypes

/-- The types of orders that stay in the book. -/
def MayRest (type : OrderType) : Prop := type = .goodTillCancel ∨ type = .goodForDay

instance (type : OrderType) : Decidable (MayRest type) :=
  inferInstanceAs (Decidable (type = .goodTillCancel ∨ type = .goodForDay))

/-- Only such orders are in the book. -/
def RestsOnly (b : Book) : Prop := ∀ side price, ∀ o ∈ b.queue side price, MayRest o.orderType

/-- The installed rules have a tick and a lot, and only such orders rest. -/
structure Orderly (e : RefEngine) : Prop where
  /-- Neither tick nor lot is zero. -/
  usable : e.rules.Usable
  /-- No other types are in the book. -/
  rests : RestsOnly e.book

/-- A fresh engine is orderly. -/
theorem orderly_create (capacity : ℕ) : Orderly (RefEngine.create capacity) where
  usable := show ({} : ExchangeRules).Usable by decide
  rests := fun side price o ho => by simp [RefEngine.create] at ho

/-- Placing an order keeps the types in the book. -/
theorem restsOnly_effect {a : Addition n} (h : Represents a.before e) (hb : RestsOnly e.book) :
    RestsOnly (effect a e).book := by
  have hd := distinct_represents h
  have hd' := distinct_represents (effect_represents h)
  have hold : ∀ i side price o, e.book.find? i = some (side, price, o) → MayRest o.orderType := by
    intro i side price o ho
    exact hb side price o ((find?_eq_some_iff hd).mp ho).1
  intro side price o ho
  have hfind : (effect a e).book.find? o.orderId = some (side, price, o) :=
    (find?_eq_some_iff hd').mpr ⟨ho, rfl⟩
  cases hacc : accepted a with
  | none =>
    rw [(effect_not_accepted h hacc).1] at hfind
    exact hold _ _ _ _ hfind
  | some r =>
    obtain ⟨type, limit⟩ := r
    rw [(effect_accepted h hacc).1] at hfind
    dsimp only at hfind
    have hc := (accepted_eq_some_iff.mp hacc).2
    have hid := (checked_unused h hc).2
    by_cases hfok : type = .fillOrKill
    · rw [place, if_pos hfok] at hfind
      by_cases havail : e.book.available a.side limit < a.qty.toNat
      · rw [Book.fillOrKill, if_pos havail] at hfind
        exact hold _ _ _ _ hfind
      · have hfilled := (sweepSteps_filledBy hd hid (fillOrKill_steps a.id havail)).1
        obtain ⟨o', ho', htype⟩ := hfilled.find?_left hfind
        rw [htype]
        exact hold _ _ _ _ ho'
    · obtain ⟨b', hsteps, hplaced⟩ := find?_place limit hd hid hfok
      rw [hplaced] at hfind
      split_ifs at hfind with hioc
      have hd₁ : Distinct (e.book.append a.side limit ⟨a.id, type, a.qty⟩) :=
        distinct_append hd hid
      obtain ⟨o', ho', htype⟩ := (matchSteps_filledBy hd₁ hsteps).find?_left hfind
      rw [find?_append hd hid] at ho'
      rw [htype]
      split_ifs at ho' with hself
      · cases ho'
        have hmarket := (checked_type hc).1
        have hnot : type ≠ .immediateOrCancel := fun he => hioc ⟨he, hself⟩
        cases type <;> first | exact Or.inl rfl | exact Or.inr rfl | contradiction
      · exact hold _ _ _ _ ho'

/-- Every call keeps usable rules and the types in the book. -/
theorem carries_orderly : Carries (fun (_ : Orderbook n) _ => True) fun _ e => Orderly e where
  filter := fun _ e p h =>
    { usable := h.usable
      rests := fun side price o ho => by
        rw [BookOf.queue_filter] at ho
        exact h.rests side price o (List.mem_of_mem_filter ho) }
  change := fun _ _ mod _ _ _ e h =>
    { usable := h.usable
      rests := fun side price o ho => by
        rw [Book.requantify, BookOf.queue_mapVal] at ho
        obtain ⟨o', ho', rfl⟩ := List.mem_map.mp ho
        split_ifs <;> exact h.rests side price o' ho' }
  rules := fun _ _ usable _ _ _ h => ⟨usable, h.rests⟩
  add := fun _ a e hrep h =>
    { usable := by
        obtain ⟨b, hb⟩ := effect_keeps a e
        rw [hb]
        exact h.usable
      rests := restsOnly_effect hrep h.rests }

/-- What is known of the reference engine of a reachable state. -/
theorem reachable_orderly (h : Reachable s) : ∃ e, Represents s e ∧ Orderly e := by
  obtain ⟨calls, rfl⟩ := h
  have hcovers : Covers _ [] _ _ := covers_run carries_orderly (represents_create n)
    (orderly_create _) calls (along_of_forall (fun _ _ => trivial) calls)
  exact ⟨_, represents_after (represents_create n) calls, hcovers.2⟩

end RestingTypes

section Requests

/-- A request for the other side is refused. -/
theorem modifyOrder_otherSide (ho : order? s mod.orderId = some (side, price, o))
    (hside : mod.side ≠ side) : s.modifyOrder mod = .ret [] s := by
  rw [order?, Option.map_eq_some_iff] at ho
  obtain ⟨i, hm, heq⟩ := ho
  cases heq
  rw [Orderbook.modifyOrder, hm]
  exact if_pos hside

/-- A request at the old price changes the quantity in place. -/
theorem inPlaceModify_of_same (ho : order? s mod.orderId = some (side, price, o))
    (hside : mod.side = side) (hprice : mod.price = price) :
    inPlaceModify s mod = some mod := by
  rw [order?, Option.map_eq_some_iff] at ho
  obtain ⟨i, hm, heq⟩ := ho
  cases heq
  simp only [inPlaceModify, hm]
  exact if_pos ⟨hside, hprice⟩

/-- A request at another price cancels the order and adds it again. -/
theorem modifyOrder_moved (h : Represents s e)
    (ho : order? s mod.orderId = some (side, price, o)) (hside : mod.side = side)
    (hprice : mod.price ≠ price) :
    ∃ s₁, Represents s₁ (e.cancelOrder mod.orderId) ∧ order? s₁ mod.orderId = none ∧
      s₁.freeList ≠ [] ∧ s₁.exchangeRules = s.exchangeRules ∧
      s.modifyOrder mod = s₁.addOrder o.orderType mod.orderId mod.side mod.price mod.quantity := by
  have hd := distinct_represents h
  rw [order?, Option.map_eq_some_iff] at ho
  obtain ⟨i, hm, heq⟩ := ho
  cases heq
  obtain ⟨s₁, hret, hrep, hset⟩ := cancelOrder_agrees h mod.orderId
  refine ⟨s₁, hrep, ?_, cancelOrder_frees hm hret, rules_of_settings hset, ?_⟩
  · rw [← order?_represents hrep, RefEngine.cancelOrder, find?_cancel hd, if_pos rfl]
  · rw [Orderbook.modifyOrder, hm]
    dsimp only
    rw [if_neg (not_not.mpr hside), if_neg hprice, hret, Outcome.ret_bind, hside]
    rfl

end Requests

/-- A request for a resting order is honoured exactly if it does not break the
rules at another price. -/
theorem honoured_iff (h : Reachable s) (ho : order? s mod.orderId = some (side, price, o)) :
    Honoured s mod ↔ ¬BreaksRules s side price mod := by
  obtain ⟨e, hrep, horderly⟩ := reachable_orderly h
  by_cases hside : mod.side = side
  · by_cases hprice : mod.price = price
    · -- the quantity changes in place
      refine iff_of_true ?_ fun hbreak => hbreak.2.1 hprice
      obtain ⟨s', hret, o', ho', hqty⟩ :=
        order?_inPlaceModify hrep (inPlaceModify_of_same ho hside hprice)
      exact ⟨[], s', hret, Or.inl (Or.inl ⟨o', ho', by rw [hqty]; rfl⟩)⟩
    · obtain ⟨s₁, hrep₁, hgone, hfree, hrules, hmoved⟩ := modifyOrder_moved hrep ho hside hprice
      have hmay : MayRest o.orderType := by
        rw [← order?_represents hrep, find?_eq_some_iff (distinct_represents hrep)] at ho
        exact horderly.rests side price o ho.1
      have hchecked := checked_mayRest (s := s₁) hmay mod.orderId mod.side mod.price mod.quantity
      rw [validateOrder_eq_meetsRules hrep₁, hasOrder_eq, hgone, hrules] at hchecked
      cases hmeets : meetsRules s.exchangeRules mod.price mod.quantity with
      | true =>
        -- the new order is placed
        refine iff_of_true ?_ fun hbreak => by simp [hbreak.2.2.2] at hmeets
        rw [hmeets] at hchecked
        obtain ⟨s', hret, -⟩ := addOrder_placed hrep₁ hchecked hfree
        have hsound := soundExecution
          (a := ⟨s₁, o.orderType, mod.orderId, mod.side, mod.price, mod.quantity⟩) hrep₁ hret
        have hacc : accepted
            (⟨s₁, o.orderType, mod.orderId, mod.side, mod.price, mod.quantity⟩ : Addition n) =
              some (o.orderType, mod.price) := accepted_eq_some_iff.mpr ⟨hfree, hchecked⟩
        refine ⟨_, s', hmoved.trans hret, Or.inl ?_⟩
        rcases hsound.mayRest _ _ hacc hmay with ⟨o', ho', hqty, hle⟩ | ⟨-, hfills⟩
        · dsimp only at hqty hle
          exact Or.inl ⟨o', ho', by omega⟩
        · exact Or.inr hfills
      | false =>
        -- the new order is refused, and the old one is gone
        rw [hmeets] at hchecked
        have hret := hmoved.trans (addOrder_refused hchecked)
        constructor
        · rintro ⟨ts, s', hret', htaken | ⟨-, hsame⟩⟩ ⟨-, -, hz, -⟩
          · rw [hret] at hret'
            cases hret'
            rcases htaken with ⟨o', ho', -⟩ | hfills
            · rw [hgone] at ho'
              cases ho'
            · exact hz ((eq_zero_iff_toNat _).mpr hfills.symm)
          · rw [hret] at hret'
            cases hret'
            obtain ⟨L, hw, -⟩ := hrep.book
            rw [hsame.order?_eq hw, ho] at hgone
            cases hgone
        · intro hnot
          have hz : mod.quantity = 0 := by
            by_contra hne
            exact hnot ⟨hside, hprice, hne, hmeets⟩
          exact ⟨[], s₁, hret, Or.inl (Or.inr (by rw [hz]; rfl))⟩
  · refine iff_of_true ?_ fun hbreak => hside hbreak.1
    exact ⟨[], s, modifyOrder_otherSide ho hside, Or.inr ⟨rfl, SameBook.refl s⟩⟩

/-- A resting buy of 10 units. -/
def restingBuy : List Call := [.addOrder .goodTillCancel 1 .buy 100 10]

/-- A resting buy that is repriced. -/
theorem honoured_iff_restingBuy :
    Honoured (after (create 2) restingBuy) ⟨1, .buy, 105, 15⟩ ↔
      ¬BreaksRules (after (create 2) restingBuy) .buy 100 ⟨1, .buy, 105, 15⟩ :=
  honoured_iff (o := ⟨1, .goodTillCancel, 10⟩) ⟨_, rfl⟩ (by decide +kernel)

/-- A request at price 0 destroys the order. -/
theorem restingBuy_destroyed : Reachable (after (create 2) restingBuy) ∧
    order? (after (create 2) restingBuy) 1 = some (.buy, 100, ⟨1, .goodTillCancel, 10⟩) ∧
    ¬Honoured (after (create 2) restingBuy) ⟨1, .buy, 0, 10⟩ := by
  refine ⟨⟨_, rfl⟩, by decide +kernel, ?_⟩
  rintro ⟨ts, s', hret, htaken⟩
  have hperform : perform (after (create 2) restingBuy) (.modifyOrder ⟨1, .buy, 0, 10⟩) =
      (.trades ts, s') := by
    rw [perform, hret]
    rfl
  have hnone : (perform (after (create 2) restingBuy) (.modifyOrder ⟨1, .buy, 0, 10⟩)).1 =
      .trades [] := by decide +kernel
  have hgone : order? (perform (after (create 2) restingBuy)
      (.modifyOrder ⟨1, .buy, 0, 10⟩)).2 1 = none := by decide +kernel
  rw [hperform] at hnone hgone
  cases hnone
  rcases htaken with (⟨o, ho, -⟩ | hfills) | ⟨-, hsame⟩
  · rw [hgone] at ho
    cases ho
  · exact absurd hfills (by decide)
  · have hlive : (after (create 2) restingBuy).orderMap.find? 1 = some 0 := by decide +kernel
    rw [order?, hsame.orderMap, hlive] at hgone
    cases hgone

end OrderbookEngine.Modifications
