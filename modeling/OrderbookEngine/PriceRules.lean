import OrderbookEngine.Modifications

/-!
# Prices and the exchange rules

Validation recognises the market orders that the engine converts by their price
alone, so that an order of another type at INT_MAX or INT_MIN passes with an
invalid price. All other orders that are not market orders are accepted exactly
if the rules accept them, with price and notional as exact integers.
-/

namespace OrderbookEngine.PriceRules

open MarketTypes PoolBook FeedCalls ReferenceBook EngineSimulation RunRules BookState Additions
open QuantityRules

variable {n : ℕ} {s : Orderbook n} {e : RefEngine} {rules : ExchangeRules} {a : Addition n}

/-- A positive multiple of the tick whose notional, as an exact integer, reaches
the minimum. -/
structure LawfulPrice (rules : ExchangeRules) (price : Price) (qty : Quantity) : Prop where
  /-- The price is positive. -/
  pos : 0 < price.toInt
  /-- It is a multiple of the tick. -/
  tick : rules.tickSize.toInt ∣ price.toInt
  /-- Price times quantity is large enough. -/
  notional : rules.minNotional.toInt ≤ price.toInt * qty.toNat

/-- An addition neither trades nor rests at a price the rules forbid, and
validation accepts what the rules accept. -/
structure PricedLawfully (rules : ExchangeRules) (a : Addition n) : Prop where
  /-- An order that breaks the price rules is turned away. -/
  turnedAway : ¬LawfulPrice rules a.price a.qty →
    ∃ s', a.outcome = .ret [] s' ∧ order? s' a.id = order? a.before a.id
  /-- Validation is the check of the rules. -/
  validated : a.before.validateOrder a.id a.price a.qty = true ↔
    a.before.hasOrder a.id = false ∧ rules.isValidOrder a.price a.qty = true

/-- An order with an unused identifier and a valid quantity has a market price
that the rules forbid. -/
structure PosesAsMarket (rules : ExchangeRules) (a : Addition n) : Prop where
  /-- The limit is one of the market prices. -/
  price : a.price = Side.buy.marketPrice ∨ a.price = Side.sell.marketPrice
  /-- The identifier is not in use. -/
  unused : a.before.hasOrder a.id = false
  /-- The quantity is valid. -/
  quantity : rules.isValidQuantity a.qty = true
  /-- The price is not. -/
  unlawful : ¬LawfulPrice rules a.price a.qty

section ExactIntegers

/-- A quantity is converted exactly. -/
theorem toInt_quantity (q : Quantity) : (q.toUInt64.toInt64).toInt = q.toNat := by
  have hlt := q.toNat_lt
  have hbv : q.toUInt64.toInt64.toBitVec.toNat = q.toNat := UInt32.toNat_toUInt64 q
  rw [Int64.toInt, BitVec.toInt_eq_toNat_bmod, hbv, Int.bmod]
  omega

/-- The 64-bit product never wraps. -/
theorem toInt_notional (price : Price) (q : Quantity) :
    (price.toInt64 * q.toUInt64.toInt64).toInt = price.toInt * q.toNat := by
  have hlow := price.le_toInt
  have hhigh := price.toInt_lt
  have hq := q.toNat_lt
  have hnonneg : (0 : ℤ) ≤ q.toNat := by omega
  have hupper : price.toInt * q.toNat ≤ (2 ^ 31 - 1) * q.toNat :=
    Int.mul_le_mul_of_nonneg_right (by omega) hnonneg
  have hlower : -2 ^ 31 * (q.toNat : ℤ) ≤ price.toInt * q.toNat :=
    Int.mul_le_mul_of_nonneg_right hlow hnonneg
  rw [Int64.toInt_mul, Int32.toInt_toInt64, toInt_quantity, Int.bmod]
  omega

/-- The notional check on exact integers. -/
theorem isValidNotional_iff (rules : ExchangeRules) (price : Price) (q : Quantity) :
    rules.isValidNotional price q = true ↔ rules.minNotional.toInt ≤ price.toInt * q.toNat := by
  rw [ExchangeRules.isValidNotional, decide_eq_true_eq, ge_iff_le, Int64.le_iff_toInt_le,
    toInt_notional, Int32.toInt_toInt64]

/-- The price check on exact integers. -/
theorem isValidPrice_iff (rules : ExchangeRules) (price : Price) :
    rules.isValidPrice price = true ↔ 0 < price.toInt ∧ rules.tickSize.toInt ∣ price.toInt := by
  rw [ExchangeRules.isValidPrice]
  have hzero : (0 : Int32).toInt = 0 := rfl
  split_ifs with hle
  · rw [Int32.le_iff_toInt_le, hzero] at hle
    simp only [false_iff]
    omega
  · rw [Int32.le_iff_toInt_le, hzero] at hle
    rw [beq_iff_eq, ← Int32.toInt_inj, Int32.toInt_mod, hzero, ← Int.dvd_iff_tmod_eq_zero]
    exact ⟨fun h => ⟨by omega, h⟩, fun h => h.2⟩

/-- The rules accept a valid quantity at a lawful price. -/
theorem isValidOrder_iff (rules : ExchangeRules) (price : Price) (qty : Quantity) :
    rules.isValidOrder price qty = true ↔
      rules.isValidQuantity qty = true ∧ LawfulPrice rules price qty := by
  rw [ExchangeRules.isValidOrder, Bool.and_eq_true, Bool.and_eq_true, isValidPrice_iff,
    isValidNotional_iff]
  constructor
  · rintro ⟨⟨⟨hpos, htick⟩, hqty⟩, hnotional⟩
    exact ⟨hqty, hpos, htick, hnotional⟩
  · rintro ⟨hqty, hpos, htick, hnotional⟩
    exact ⟨⟨⟨hpos, htick⟩, hqty⟩, hnotional⟩

/-- The engine accepts a valid quantity at a market price or a lawful price. -/
theorem meetsRules_iff (rules : ExchangeRules) (price : Price) (qty : Quantity) :
    meetsRules rules price qty = true ↔
      rules.isValidQuantity qty = true ∧ ((price = Side.buy.marketPrice ∨
        price = Side.sell.marketPrice) ∨ LawfulPrice rules price qty) := by
  have hlawful : (rules.isValidPrice price && rules.isValidNotional price qty) = true ↔
      LawfulPrice rules price qty := by
    rw [Bool.and_eq_true, isValidPrice_iff, isValidNotional_iff]
    exact ⟨fun h => ⟨h.1.1, h.1.2, h.2⟩, fun h => ⟨⟨h.pos, h.tick⟩, h.notional⟩⟩
  rw [meetsRules, Bool.and_eq_true, Bool.or_eq_true, Bool.or_eq_true, beq_iff_eq, beq_iff_eq,
    hlawful]

end ExactIntegers

section Runs

/-- What is not a market order is priced lawfully unless it poses as one. -/
theorem pricedLawfully_iff (h : Represents a.before e) (hrules : e.rules = rules)
    (htype : a.type ≠ .market) : PricedLawfully rules a ↔ ¬PosesAsMarket rules a := by
  have hvalid := validateOrder_eq_meetsRules h a.id a.price a.qty
  rw [← h.rules, hrules] at hvalid
  constructor
  · intro hpriced hposes
    have haccept : a.before.validateOrder a.id a.price a.qty = true := by
      rw [hvalid, hposes.unused, (meetsRules_iff rules a.price a.qty).mpr
        ⟨hposes.quantity, Or.inl hposes.price⟩]
      rfl
    have horder := (hpriced.validated.mp haccept).2
    exact hposes.unlawful ((isValidOrder_iff rules a.price a.qty).mp horder).2
  · intro hnot
    have hiff : a.before.validateOrder a.id a.price a.qty = true ↔
        a.before.hasOrder a.id = false ∧ rules.isValidOrder a.price a.qty = true := by
      rw [hvalid, Bool.and_eq_true, Bool.not_eq_true', meetsRules_iff, isValidOrder_iff]
      constructor
      · rintro ⟨hunused, hqty, hsentinel | hlawful⟩
        · refine ⟨hunused, hqty, ?_⟩
          by_contra hunlawful
          exact hnot ⟨hsentinel, hunused, hqty, hunlawful⟩
        · exact ⟨hunused, hqty, hlawful⟩
      · rintro ⟨hunused, hqty, hlawful⟩
        exact ⟨hunused, hqty, Or.inr hlawful⟩
    refine ⟨fun hunlawful => ⟨a.before, ?_, rfl⟩, hiff⟩
    refine addOrder_refused ?_
    have hreject : ¬a.before.validateOrder a.id a.price a.qty = true := fun haccept =>
      hunlawful ((isValidOrder_iff rules a.price a.qty).mp (hiff.mp haccept).2).2
    rw [checked, Orderbook.convertMarket, if_neg htype]
    exact if_neg fun hc => hreject hc.1

/-- Calls that keep the rules leave them installed. -/
theorem carries_rules (rules : ExchangeRules) :
    Carries (fun (_ : Orderbook n) call => KeepsRules call) fun _ e => e.rules = rules where
  filter := fun _ _ _ h => h
  change := fun _ _ _ _ _ _ _ h => h
  rules := fun _ new usable hok => absurd rfl (hok new usable)
  add := fun _ a e _ h => by
    obtain ⟨b, hb⟩ := effect_keeps a e
    rw [hb]
    exact h

/-- In a run under fixed rules every order that is not a market order is priced
lawfully exactly if none poses as one. -/
theorem prices_lawful_iff (h : Reachable s) (usable : rules.Usable) {calls : List Call}
    (hkeeps : ∀ call ∈ calls, KeepsRules call) :
    (∀ a ∈ runAdditions s (.setExchangeRules rules usable :: calls), a.type ≠ .market →
      PricedLawfully rules a) ↔
      ∀ a ∈ runAdditions s (.setExchangeRules rules usable :: calls), a.type ≠ .market →
        ¬PosesAsMarket rules a := by
  obtain ⟨e, hrep⟩ := reachable_represents h
  have hrep₁ := (perform_simulates hrep (.setExchangeRules rules usable)).2
  have hcovers : Covers _ [] _ _ := covers_run (carries_rules rules) hrep₁ rfl calls
    (along_of_mem hkeeps)
  have hstart : ∀ a ∈ runAdditions s (.setExchangeRules rules usable :: calls),
      ∃ e', Represents a.before e' ∧ e'.rules = rules := by
    intro a ha
    obtain ⟨as, later, heq⟩ := List.append_of_mem (show a ∈ runAdditions _ calls from ha)
    rw [heq] at hcovers
    exact hcovers.start
  refine forall₂_congr fun a ha => forall_congr' fun htype => ?_
  obtain ⟨e', hrep', hrules⟩ := hstart a ha
  exact pricedLawfully_iff hrep' hrules htype

/-- A sell below every price meets a resting buy. -/
def posingSell : List Call :=
  [.addOrder .goodTillCancel 1 .buy 100 5, .addOrder .goodTillCancel 2 .sell Int32.minValue 5]

/-- The sell trades as the incoming order though its price is negative. -/
theorem posingSell_trades : Reachable (create 2) ∧ 1 ≤ ({} : ExchangeRules).tickSize ∧
    1 ≤ ({} : ExchangeRules).lotSize ∧ (∀ call ∈ posingSell, KeepsRules call) ∧
    ¬∀ a ∈ runAdditions (create 2) (.setExchangeRules {} (by decide) :: posingSell),
      a.type ≠ .market → PricedLawfully {} a := by
  refine ⟨⟨[], rfl⟩, by decide, by decide, by simp [posingSell, KeepsRules], fun hall => ?_⟩
  let before := after (create 2)
    [.setExchangeRules {} (by decide), .addOrder .goodTillCancel 1 .buy 100 5]
  have hpriced := hall ⟨before, .goodTillCancel, 2, .sell, Int32.minValue, 5⟩
    (List.mem_cons_of_mem _ List.mem_cons_self) (by simp)
  obtain ⟨s', hret, -⟩ := hpriced.turnedAway fun hlawful => absurd hlawful.pos (by decide)
  have hreply : (perform before (.addOrder .goodTillCancel 2 .sell Int32.minValue 5)).1 =
      .trades [⟨1, 2, 100, 5⟩] := by decide +kernel
  obtain ⟨s'', hret'⟩ := ret_of_settle hreply
  rw [Addition.outcome, hret'] at hret
  cases hret

/-- A buy is re-priced, and a market sell leaves nothing. -/
def repricedBuy : List Call :=
  [.addOrder .goodTillCancel 1 .buy 100 5, .modifyOrder ⟨1, .buy, 105, 5⟩,
    .addOrder .market 2 .sell 0 5]

/-- A buy that is repriced. -/
theorem prices_lawful_iff_repricedBuy :
    (∀ a ∈ runAdditions (create 2) (.setExchangeRules {} (by decide) :: repricedBuy),
      a.type ≠ .market → PricedLawfully {} a) ↔
      ∀ a ∈ runAdditions (create 2) (.setExchangeRules {} (by decide) :: repricedBuy),
        a.type ≠ .market → ¬PosesAsMarket {} a :=
  prices_lawful_iff ⟨[], rfl⟩ (by decide) (by simp [repricedBuy, KeepsRules])

end Runs

end OrderbookEngine.PriceRules
