import Mathlib.Order.Bounds.Basic
import OrderbookEngine.PriceRules

/-!
# Rounded orders

Rules that are edited through their setters can always be installed. Rounding
takes an order to the largest valid one within it, if there is any, and the
engine takes the rounded order exactly then.
-/

namespace OrderbookEngine.RoundedOrders

open MarketTypes PoolBook FeedCalls RunRules Additions QuantityRules PriceRules

variable {n : ℕ} {s : Orderbook n} {rules : ExchangeRules} {price : Price} {qty : Quantity}

section Multiples

/-- Truncated division gives the greatest multiple within a number. -/
theorem isGreatest_tdiv_mul {x t : ℤ} (hx : 0 ≤ x) (ht : t ≠ 0) :
    IsGreatest {m | t ∣ m ∧ m ≤ x} (x.tdiv t * t) := by
  have hmod : x.tmod t = x % t := Int.tmod_eq_emod_of_nonneg hx
  have hnonneg := Int.emod_nonneg x ht
  have hlt := Int.emod_lt x ht
  refine ⟨⟨Int.dvd_mul_left _ t, ?_⟩, ?_⟩
  · rw [Int.tdiv_mul_self, hmod]
    omega
  · rintro m ⟨hdvd, hle⟩
    by_contra hgt
    -- the two multiples differ by less than the divisor
    have hdiff : t ∣ m - x.tdiv t * t := Int.dvd_sub hdvd (Int.dvd_mul_left _ t)
    have hzero := Int.eq_zero_of_dvd_of_natAbs_lt_natAbs hdiff (by
      rw [Int.tdiv_mul_self, hmod] at hgt ⊢
      omega)
    omega

/-- Division gives the greatest multiple within a natural number. -/
theorem isGreatest_div_mul {x t : ℕ} (ht : 0 < t) :
    IsGreatest {m | t ∣ m ∧ m ≤ x} (x / t * t) := by
  refine ⟨⟨Nat.dvd_mul_left t _, Nat.div_mul_le_self x t⟩, ?_⟩
  rintro m ⟨⟨k, rfl⟩, hle⟩
  rw [Nat.mul_comm t k] at hle ⊢
  exact Nat.mul_le_mul_right t ((Nat.le_div_iff_mul_le ht).mpr hle)

end Multiples

section Rounding

/-- The tick of usable rules is not zero. -/
theorem tickSize_ne (usable : rules.Usable) : rules.tickSize.toInt ≠ 0 := fun h =>
  usable.1 (Int32.toInt_inj.mp h)

/-- The lot of usable rules is positive. -/
theorem lotSize_pos (usable : rules.Usable) : 0 < rules.lotSize.toNat :=
  Nat.pos_of_ne_zero fun h => usable.2 ((eq_zero_iff_toNat rules.lotSize).mpr h)

/-- Rounding a price that is not negative does not wrap. -/
theorem toInt_roundToTick (usable : rules.Usable) (hprice : 0 ≤ price.toInt) :
    (rules.roundToTick price).toInt = price.toInt.tdiv rules.tickSize.toInt *
      rules.tickSize.toInt := by
  rw [ExchangeRules.roundToTick]
  split_ifs with hone
  · rw [hone, show (1 : Int32).toInt = 1 from rfl, Int.tdiv_one, Int.mul_one]
  · have hle := (isGreatest_tdiv_mul hprice (tickSize_ne usable)).1.2
    have hnonneg := (isGreatest_tdiv_mul hprice (tickSize_ne usable)).2 ⟨Int.dvd_zero _, hprice⟩
    have hlt := price.toInt_lt
    rw [Int32.toInt_mul, Int32.toInt_div, Int.bmod_mul_bmod]
    exact Int.bmod_eq_of_le (by omega) (by omega)

/-- Rounding a quantity does not wrap. -/
theorem toNat_roundToLot (rules : ExchangeRules) (qty : Quantity) :
    (rules.roundToLot qty).toNat = qty.toNat / rules.lotSize.toNat * rules.lotSize.toNat := by
  rw [ExchangeRules.roundToLot]
  split_ifs with hone
  · rw [hone, show (1 : UInt32).toNat = 1 from rfl, Nat.div_one, Nat.mul_one]
  · have hle := Nat.div_mul_le_self qty.toNat rules.lotSize.toNat
    have hlt := qty.toNat_lt
    rw [UInt32.toNat_mul, UInt32.toNat_div, Nat.mod_eq_of_lt (by omega)]

/-- Prices and quantities of the valid orders within an order. -/
def validWithin (rules : ExchangeRules) (price : Price) (qty : Quantity) :
    Set (Price × Quantity) :=
  {o | o ≤ (price, qty) ∧ rules.isValidOrder o.1 o.2 = true}

/-- Price and quantity of an order after rounding. -/
def rounded (rules : ExchangeRules) (price : Price) (qty : Quantity) : Price × Quantity :=
  (rules.roundToTick price, rules.roundToLot qty)

/-- A rounded order is within the order. -/
theorem rounded_le (usable : rules.Usable) (hprice : 0 ≤ price.toInt) :
    rounded rules price qty ≤ (price, qty) := by
  refine ⟨?_, ?_⟩
  · rw [Int32.le_iff_toInt_le]
    have hgreatest := isGreatest_tdiv_mul hprice (tickSize_ne usable)
    exact (toInt_roundToTick usable hprice).trans_le hgreatest.1.2
  · rw [UInt32.le_iff_toNat_le]
    exact (toNat_roundToLot rules qty).trans_le (Nat.div_mul_le_self _ _)

/-- Rounding keeps above all valid orders within an order. -/
theorem le_rounded (usable : rules.Usable) {o : Price × Quantity}
    (ho : o ∈ validWithin rules price qty) : o ≤ rounded rules price qty := by
  obtain ⟨⟨hprice, hqty⟩, hvalid⟩ := ho
  obtain ⟨hquantity, hlawful⟩ := (isValidOrder_iff rules o.1 o.2).mp hvalid
  rw [Int32.le_iff_toInt_le] at hprice
  rw [UInt32.le_iff_toNat_le] at hqty
  have hpos : 0 ≤ price.toInt := le_trans (le_of_lt hlawful.pos) hprice
  refine ⟨?_, ?_⟩
  · rw [Int32.le_iff_toInt_le]
    exact ((isGreatest_tdiv_mul hpos (tickSize_ne usable)).2 ⟨hlawful.tick, hprice⟩).trans_eq
      (toInt_roundToTick usable hpos).symm
  · rw [UInt32.le_iff_toNat_le]
    have hlot := ((isValidQuantity_iff rules o.2).mp hquantity).2.2
    exact ((isGreatest_div_mul (lotSize_pos usable)).2 ⟨hlot, hqty⟩).trans_eq
      (toNat_roundToLot rules qty).symm

/-- An order is worth rounding if a valid one is within it. -/
theorem rounded_valid (usable : rules.Usable) (hmax : qty ≤ rules.maxQuantity)
    {o : Price × Quantity} (ho : o ∈ validWithin rules price qty) :
    rules.isValidOrder (rules.roundToTick price) (rules.roundToLot qty) = true := by
  obtain ⟨hprice, hqty⟩ := le_rounded usable ho
  obtain ⟨⟨hbelow, -⟩, hvalid⟩ := ho
  obtain ⟨hquantity, hlawful⟩ := (isValidOrder_iff rules o.1 o.2).mp hvalid
  obtain ⟨hmin, -, -⟩ := (isValidQuantity_iff rules o.2).mp hquantity
  rw [Int32.le_iff_toInt_le] at hprice hbelow
  have hpos : 0 ≤ price.toInt := le_trans (le_of_lt hlawful.pos) hbelow
  have hle : rules.roundToLot qty ≤ qty := (rounded_le usable hpos).2
  refine (isValidOrder_iff rules _ _).mpr ⟨(isValidQuantity_iff rules _).mpr ⟨?_, ?_, ?_⟩, ?_⟩
  · exact UInt32.le_trans hmin hqty
  · exact UInt32.le_trans hle hmax
  · rw [toNat_roundToLot]
    exact Nat.dvd_mul_left _ _
  · refine ⟨lt_of_lt_of_le hlawful.pos hprice, ?_, ?_⟩
    · rw [toInt_roundToTick usable hpos]
      exact Int.dvd_mul_left _ _
    · rw [UInt32.le_iff_toNat_le] at hqty
      exact hlawful.notional.trans (Int.mul_le_mul hprice (by exact_mod_cast hqty)
        (by omega) (le_trans (le_of_lt hlawful.pos) hprice))

/-- There is a valid order within an order exactly if the rounded one is valid. -/
theorem nonempty_iff_rounded (usable : rules.Usable) (hpos : 0 ≤ price.toInt)
    (hmax : qty ≤ rules.maxQuantity) : (validWithin rules price qty).Nonempty ↔
      rules.isValidOrder (rules.roundToTick price) (rules.roundToLot qty) = true :=
  ⟨fun ⟨_, ho⟩ => rounded_valid usable hmax ho,
    fun h => ⟨rounded rules price qty, rounded_le usable hpos, h⟩⟩

/-- A rounded real price is no market price. -/
theorem roundToTick_ne_marketPrice (usable : rules.Usable) (hpos : 0 < price)
    (hreal : price < Int32.maxValue) :
    ¬(rules.roundToTick price = Side.buy.marketPrice ∨
      rules.roundToTick price = Side.sell.marketPrice) := by
  have hzero : (0 : Int32).toInt = 0 := rfl
  rw [Int32.lt_iff_toInt_lt] at hpos hreal
  have hprice : 0 ≤ price.toInt := by omega
  have hround := toInt_roundToTick usable hprice
  have hle := (isGreatest_tdiv_mul hprice (tickSize_ne usable)).1.2
  have hnonneg := (isGreatest_tdiv_mul hprice (tickSize_ne usable)).2 ⟨Int.dvd_zero _, hprice⟩
  rw [← Int32.toInt_inj, ← Int32.toInt_inj, hround]
  have hmin : Side.sell.marketPrice.toInt = -2 ^ 31 := rfl
  rw [show Side.buy.marketPrice = Int32.maxValue from rfl, hmin]
  omega

end Rounding

section Setters

/-- Changes of the rules: through the setters, and of the other fields. -/
inductive RuleEdit where
  | setTickSize (t : Price)
  | setLotSize (l : Quantity)
  | minQuantity (q : Quantity)
  | maxQuantity (q : Quantity)
  | minNotional (p : Price)

/-- Carry out a change, or throw. -/
def RuleEdit.run (rules : ExchangeRules) : RuleEdit → Except String ExchangeRules
  | .setTickSize t => rules.setTickSize t
  | .setLotSize l => rules.setLotSize l
  | .minQuantity q => .ok { rules with minQuantity := q }
  | .maxQuantity q => .ok { rules with maxQuantity := q }
  | .minNotional p => .ok { rules with minNotional := p }

/-- Rules after some changes to the defaults; one that throws changes nothing. -/
def configured (edits : List RuleEdit) : ExchangeRules :=
  edits.foldl (fun rules edit => (edit.run rules).toOption.getD rules) {}

/-- A change keeps the rules usable. -/
theorem usable_run (usable : rules.Usable) (edit : RuleEdit) :
    ((edit.run rules).toOption.getD rules).Usable := by
  cases edit with
  | setTickSize t =>
    rw [RuleEdit.run, ExchangeRules.setTickSize]
    split_ifs with ht
    · exact usable
    · exact ⟨fun h => ht (h ▸ Int32.le_refl _), usable.2⟩
  | setLotSize l =>
    rw [RuleEdit.run, ExchangeRules.setLotSize]
    split_ifs with hl
    · exact usable
    · exact ⟨usable.1, hl⟩
  | _ => exact usable

/-- Rules that are changed through their setters can be installed. -/
theorem usable_configured (edits : List RuleEdit) : (configured edits).Usable :=
  List.foldlRecOn edits _ (show ({} : ExchangeRules).Usable by decide)
    fun _ usable edit _ => usable_run usable edit

end Setters

/-- Rules that are configured through their setters can be installed in any
state, and among the valid orders within an order at a real price rounding finds
the greatest. The engine then takes the rounded order if there is a valid one,
and otherwise turns it away. -/
theorem rounding_greatest (h : Reachable s) (edits : List RuleEdit) (id : OrderId) (side : Side)
    {type : OrderType} (hrest : type = .goodTillCancel ∨ type = .goodForDay)
    (hpos : 0 < price) (hreal : price < Int32.maxValue)
    (hmax : qty ≤ (configured edits).maxQuantity) (hid : s.hasOrder id = false)
    (hf : s.freeList ≠ []) :
    let rules := configured edits
    let s' := (perform s (.setExchangeRules rules (usable_configured edits))).2
    let order := rounded rules price qty
    ((validWithin rules price qty).Nonempty →
      IsGreatest (validWithin rules price qty) order ∧
        accepted ⟨s', type, id, side, order.1, order.2⟩ = some (type, order.1)) ∧
    (¬(validWithin rules price qty).Nonempty →
      s'.addOrder type id side order.1 order.2 = .ret [] s') := by
  intro rules s' order
  have usable := usable_configured edits
  have hprice : 0 ≤ price.toInt := by
    rw [Int32.lt_iff_toInt_lt, show (0 : Int32).toInt = 0 from rfl] at hpos
    omega
  obtain ⟨e, hrep⟩ := reachable_represents (h.perform (.setExchangeRules rules usable))
  have hmarket : ¬(order.1 = Side.buy.marketPrice ∨ order.1 = Side.sell.marketPrice) :=
    roundToTick_ne_marketPrice usable hpos hreal
  -- at a real price validation is the check of the rules
  have hvalidate : s'.validateOrder id order.1 order.2 = true ↔
      (validWithin rules price qty).Nonempty := by
    rw [validateOrder_eq_meetsRules hrep, show s'.hasOrder id = false from hid, Bool.not_false,
      Bool.true_and, show s'.exchangeRules = rules from rfl, meetsRules_iff,
      or_iff_right hmarket, ← isValidOrder_iff,
      nonempty_iff_rounded usable hprice hmax]
    rfl
  have hchecked := checked_mayRest (s := s') hrest id side order.1 order.2
  constructor
  · intro hwithin
    rw [if_pos (hvalidate.mpr hwithin)] at hchecked
    refine ⟨⟨⟨rounded_le usable hprice, (nonempty_iff_rounded usable hprice hmax).mp hwithin⟩,
      fun _ ho => le_rounded usable ho⟩, ?_⟩
    exact accepted_eq_some_iff.mpr ⟨hf, hchecked⟩
  · intro hwithin
    rw [if_neg fun hv => hwithin (hvalidate.mp hv)] at hchecked
    exact addOrder_refused hchecked

/-- Ticks of 5 and lots of 10, with a setter that throws between them. -/
def ticksAndLots : List RuleEdit := [.setTickSize 5, .setTickSize 0, .setLotSize 10]

/-- With these rules an order at 107 of 25 is taken at 105 of 20. If quantities
below 30 are forbidden as well, it is turned away. -/
theorem rounding_greatest_ticks :
    let install edits :=
      (perform (create 2) (.setExchangeRules (configured edits) (usable_configured edits))).2
    accepted ⟨install ticksAndLots, .goodTillCancel, 1, .buy, 105, 20⟩ =
        some (.goodTillCancel, 105) ∧
      (install (ticksAndLots ++ [.minQuantity 30])).addOrder .goodTillCancel 1 .buy 105 20 =
        .ret [] (install (ticksAndLots ++ [.minQuantity 30])) := by
  intro install
  have hwithin : (validWithin (configured ticksAndLots) 107 25).Nonempty :=
    ⟨(100, 10), by decide, by decide⟩
  have hpos : (0 : Price) < 107 := by
    decide
  have hmax : (25 : Quantity) ≤ (configured ticksAndLots).maxQuantity := by
    decide
  have hmax' : (25 : Quantity) ≤ (configured (ticksAndLots ++ [.minQuantity 30])).maxQuantity := by
    decide
  have hnone : ¬(validWithin (configured (ticksAndLots ++ [.minQuantity 30])) 107 25).Nonempty := by
    rw [nonempty_iff_rounded (usable_configured _) (by decide) hmax']
    decide
  have hid : (create 2).hasOrder 1 = false := rfl
  have hroom : (create 2).freeList ≠ [] := by
    decide
  have hreal : (107 : Price) < Int32.maxValue := by
    decide
  have htaken := rounding_greatest Reachable.create ticksAndLots 1 .buy (Or.inl rfl) hpos hreal
    hmax hid hroom
  have hrefused := rounding_greatest (s := create 2) Reachable.create
    (ticksAndLots ++ [RuleEdit.minQuantity 30]) 1 .buy (Or.inl rfl) hpos hreal hmax' hid hroom
  exact ⟨(htaken.1 hwithin).2, hrefused.2 hnone⟩

end OrderbookEngine.RoundedOrders
