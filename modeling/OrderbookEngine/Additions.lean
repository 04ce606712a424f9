import OrderbookEngine.BookState
import OrderbookEngine.Fills

/-!
# The outcome of an addition

An addition is refused by a check, raises on an exhausted pool, or is placed.
The checks and the free list are read from the state before it. A placed order
has the trades and the book of the reference engine; a refused or raising
addition leaves the book as it was.
-/

namespace OrderbookEngine.Additions

open StepRuns MarketTypes PoolBook FeedCalls ReferenceBook LayoutInvariant SlotSteps ReferenceSteps
open CancelSimulation FokSimulation EngineSimulation RunRules BookState

variable {n : ℕ} {s s' : Orderbook n} {e : RefEngine} {L : Layout n} {type type' : OrderType}
  {id : OrderId} {side : Side} {price price' : Price} {qty : Quantity}

/-- The type and price an order is handled with once it has passed the liquidity
check of market orders, validation and the check of ImmediateOrCancel. -/
def checked (s : Orderbook n) (type : OrderType) (id : OrderId) (side : Side) (price : Price)
    (qty : Quantity) : Option (OrderType × Price) :=
  match s.convertMarket type side price with
  | none => none
  | some (type, price) =>
    if s.validateOrder id price qty ∧ ¬(type = .immediateOrCancel ∧ ¬s.canMatch side price) then
      some (type, price)
    else none

/-- The type and price an addition proceeds with, if it also finds a free slot. -/
def accepted (a : Addition n) : Option (OrderType × Price) :=
  if a.before.freeList = [] then none
  else checked a.before a.type a.id a.side a.price a.qty

/-- The checks of `validateOrder` apart from that of the identifier. -/
def meetsRules (rules : ExchangeRules) (price : Price) (qty : Quantity) : Bool :=
  rules.isValidQuantity qty &&
    (price == Side.buy.marketPrice || price == Side.sell.marketPrice ||
      rules.isValidPrice price && rules.isValidNotional price qty)

/-- Trades and book of a placed order. -/
def place (b : Book) (type : OrderType) (id : OrderId) (side : Side) (price : Price)
    (qty : Quantity) : Trades × Book :=
  if type = .fillOrKill then b.fillOrKill side id price qty
  else
    let matched := (b.append side price ⟨id, type, qty⟩).matchBook side
    (matched.1, if type = .immediateOrCancel then matched.2.cancel id else matched.2)

theorem order?_represents (h : Represents s e) (id : OrderId) : e.book.find? id = order? s id :=
  h.find?_book id

theorem distinct_represents (h : Represents s e) : Distinct e.book := by
  obtain ⟨⟨L, hw, hbook⟩, -, -⟩ := h
  rw [hbook]
  exact distinct_view hw

theorem restsAt_represents (h : Represents s e) (side : Side) (price : Price) :
    RestsAt s side price ↔ e.book.queue side price ≠ [] := by
  obtain ⟨⟨L, hw, hbook⟩, -, -⟩ := h
  rw [restsAt_iff hw, hbook, queue_view, ne_eq, ne_eq, List.map_eq_nil_iff]

theorem accepted_eq_some_iff {a : Addition n} {r : OrderType × Price} :
    accepted a = some r ↔ a.before.freeList ≠ [] ∧
      checked a.before a.type a.id a.side a.price a.qty = some r := by
  rw [accepted]
  split_ifs with hf <;> simp [hf]

/-- Validation is the check of the identifier and that of the rules. -/
theorem validateOrder_eq_meetsRules (h : Represents s e) (id : OrderId) (price : Price)
    (qty : Quantity) :
    s.validateOrder id price qty = (!s.hasOrder id && meetsRules s.exchangeRules price qty) := by
  rw [validateOrder_eq h, RefEngine.validateOrder, ← h.hasOrder_book, h.rules, Bool.and_assoc]
  rfl

section Checked

theorem checked_eq_some_iff : checked s type id side price qty = some (type', price') ↔
    s.convertMarket type side price = some (type', price') ∧
      s.validateOrder id price' qty = true ∧
      ¬(type' = .immediateOrCancel ∧ ¬s.canMatch side price' = true) := by
  rw [checked]
  cases s.convertMarket type side price with
  | none => simp
  | some r =>
    obtain ⟨type₁, price₁⟩ := r
    dsimp only
    constructor
    · intro h
      split_ifs at h with hc
      cases h
      exact ⟨rfl, hc.1, hc.2⟩
    · rintro ⟨heq, hv, hioc⟩
      cases heq
      exact if_pos ⟨hv, hioc⟩

/-- An order that passes the checks is not a market order any more. -/
theorem checked_type (h : checked s type id side price qty = some (type', price')) :
    type' ≠ .market ∧ (type ≠ .market → type' = type ∧ price' = price) ∧
      (type = .market → type' = .goodTillCancel ∧ price' = side.marketPrice) := by
  have hconvert := (checked_eq_some_iff.mp h).1
  rw [Orderbook.convertMarket] at hconvert
  by_cases htype : type = .market
  · rw [if_pos htype] at hconvert
    split_ifs at hconvert with hbuy hsell
    · cases hconvert
      exact ⟨by simp, fun hne => absurd htype hne, fun _ => ⟨rfl, by rw [hbuy.1]; rfl⟩⟩
    · cases hconvert
      exact ⟨by simp, fun hne => absurd htype hne, fun _ => ⟨rfl, by rw [hsell.1]; rfl⟩⟩
  · rw [if_neg htype] at hconvert
    cases hconvert
    exact ⟨htype, fun _ => ⟨rfl, rfl⟩, fun hm => absurd hm htype⟩

/-- An order that passes the checks has an unused identifier. -/
theorem checked_unused (h : Represents s e)
    (hc : checked s type id side price qty = some (type', price')) :
    s.hasOrder id = false ∧ e.book.find? id = none := by
  have hv := (checked_eq_some_iff.mp hc).2.1
  rw [validateOrder_eq h] at hv
  have hunused := validateOrder_unused h hv
  refine ⟨hunused, ?_⟩
  rw [h.hasOrder_book, Book.hasOrder, Option.isSome_eq_false_iff,
    Option.isNone_iff_eq_none] at hunused
  exact hunused

/-- GoodTillCancel and GoodForDay orders are checked by validation alone. -/
theorem checked_mayRest (hrest : type = .goodTillCancel ∨ type = .goodForDay) (id : OrderId)
    (side : Side) (price : Price) (qty : Quantity) :
    checked s type id side price qty =
      if s.validateOrder id price qty = true then some (type, price) else none := by
  have hmarket : type ≠ .market := by rcases hrest with rfl | rfl <;> simp
  have hioc : type ≠ .immediateOrCancel := by rcases hrest with rfl | rfl <;> simp
  rw [checked, Orderbook.convertMarket, if_neg hmarket]
  simp only [hioc, false_and, not_false_eq_true, and_true]

/-- An addition that fails a check returns no trade and changes nothing. -/
theorem addOrder_refused (hc : checked s type id side price qty = none) :
    s.addOrder type id side price qty = .ret [] s := by
  rw [checked] at hc
  rw [Orderbook.addOrder]
  cases hm : s.convertMarket type side price with
  | none => rfl
  | some r =>
    rw [hm] at hc
    dsimp only at hc ⊢
    split_ifs at hc with hpass
    by_cases hv : s.validateOrder id r.2 qty = true
    · rw [if_neg (not_not.mpr hv), Orderbook.addValidated,
        if_pos (not_not.mp fun hioc => hpass ⟨hv, hioc⟩)]
    · rw [if_pos hv]

/-- What is left of an addition that passes the checks. -/
theorem addOrder_checked (hc : checked s type id side price qty = some (type', price')) :
    s.addOrder type id side price qty =
      if type' = .fillOrKill then
        s.alloc.bind fun idx s =>
          let s := s.writeOrder idx id side price' type' qty
          match s.collectFOK side price' qty with
          | none => .diverge
          | some found =>
            if found.foldl (fun total m => total + m.qty) 0 < qty then .ret [] (s.free idx)
            else Orderbook.executeFOK idx found s
      else
        s.alloc.bind fun idx s =>
          let s := (s.writeOrder idx id side price' type' qty).insertIntoBook idx
          s.matchOrders side (if type' = .immediateOrCancel then some id else none) := by
  obtain ⟨hconvert, hv, hioc⟩ := checked_eq_some_iff.mp hc
  rw [Orderbook.addOrder_of_valid hconvert hv, Orderbook.addValidated]
  exact if_neg hioc

/-- An addition that passes the checks on an exhausted pool raises at once. -/
theorem addOrder_exhausted (hc : checked s type id side price qty = some (type', price'))
    (hf : s.freeList = []) : s.addOrder type id side price qty = .raise poolExhausted s := by
  rw [addOrder_checked hc, alloc_of_nil hf, Outcome.raise_bind, Outcome.raise_bind, ite_self]

/-- The reference engine checks the same, and places an order if it has room. -/
theorem addOrder_eq_place (h : Represents s e)
    (hc : checked s type id side price qty = some (type', price')) (hf : s.freeList ≠ []) :
    e.addOrder type id side price qty = .ret (place e.book type' id side price' qty).1
      { e with book := (place e.book type' id side price' qty).2 } := by
  obtain ⟨hconvert, hv, hioc⟩ := checked_eq_some_iff.mp hc
  obtain ⟨L, hw, hbook⟩ := h.book
  rw [convertMarket_eq hw hbook] at hconvert
  rw [validateOrder_eq h] at hv
  rw [canMatch_eq hw, ← hbook] at hioc
  have hroom : ¬e.capacity ≤ e.book.size := fun hfull => hf ((freeList_eq_nil_iff h).mpr hfull)
  rw [RefEngine.addOrder_of_valid hconvert hv, RefEngine.addValidated, if_neg hioc, if_neg hroom,
    place]
  split_ifs <;> rfl

/-- The reference engine refuses an order, raises or places it. -/
theorem addOrder_eq_checks (e : RefEngine) (type : OrderType) (id : OrderId) (side : Side)
    (price : Price) (qty : Quantity) : e.addOrder type id side price qty =
      match e.convertMarket type side price with
      | none => .ret [] e
      | some (type, price) =>
        if ¬e.validateOrder id price qty then .ret [] e
        else if type = .immediateOrCancel ∧ ¬e.book.canMatch side price then .ret [] e
        else if e.capacity ≤ e.book.size then .raise poolExhausted e
        else .ret (place e.book type id side price qty).1
          { e with book := (place e.book type id side price qty).2 } := by
  rw [RefEngine.addOrder]
  cases e.convertMarket type side price with
  | none => rfl
  | some r =>
    simp only [RefEngine.addValidated, place]
    split_ifs <;> rfl

/-- An addition that is neither refused nor raises is placed. -/
theorem addOrder_placed (h : Represents s e)
    (hc : checked s type id side price qty = some (type', price')) (hf : s.freeList ≠ []) :
    ∃ s', s.addOrder type id side price qty =
        .ret (place e.book type' id side price' qty).1 s' ∧
      Follows s s' { e with book := (place e.book type' id side price' qty).2 } := by
  have hagree := addOrder_simulates h type id side price qty
  rw [addOrder_eq_place h hc hf] at hagree
  exact hagree.eq_ret

/-- A FillOrKill order without enough within reach leaves the book as it was. -/
theorem addOrder_killed (h : Represents s e)
    (hc : checked s type id side price qty = some (.fillOrKill, price')) (hf : s.freeList ≠ [])
    (havail : e.book.available side price' < qty.toNat) :
    ∃ s', s.addOrder type id side price qty = .ret [] s' ∧ SameBook s s' := by
  obtain ⟨i, rest, hcons⟩ := List.exists_cons_of_ne_nil hf
  obtain ⟨hconvert, hv, hioc⟩ := checked_eq_some_iff.mp hc
  obtain ⟨L, hw, hbook⟩ := h.book
  have hww : Wf (written s i rest id side price' .fillOrKill qty) [i] noHoles L :=
    (wf_written hw hcons).1
  refine ⟨(written s i rest id side price' .fillOrKill qty).free i, ?_, ?_⟩
  · rw [addOrder_checked hc, if_pos rfl, alloc_of_cons hcons, Outcome.ret_bind]
    change (match (written s i rest id side price' .fillOrKill qty).collectFOK side price' qty
      with | none => _ | some found => _) = _
    rw [collectFOK_eq hww]
    exact if_pos ((written_total hw hcons).mpr (hbook ▸ havail))
  · have hfree : Wf ((written s i rest id side price' .fillOrKill qty).free i) [] noHoles L :=
      wf_free hww
    refine ⟨rfl, rfl, rfl, hcons.symm, fun side price => ?_, fun side price j hj => ?_⟩
    · rw [fifo_eq hfree, fifo_eq hw]
    · rw [fifo_eq hw] at hj
      have hne : j ≠ i := by
        rintro rfl
        exact hw.not_spare hj (by rw [hcons]; simp)
      simp [written, Orderbook.free, Orderbook.writeOrder, Function.update_of_ne hne]

end Checked

section Effects

variable {a : Addition n} {b b' : Book} {I : Book → Prop} {T : Trade → Prop}

/-- An engine represents one reference engine only. -/
theorem represents_unique {e' : RefEngine} (h : Represents s e) (h' : Represents s e') :
    e = e' := by
  obtain ⟨⟨L, hw, hbook⟩, hrules, hcap⟩ := h
  obtain ⟨⟨L', hw', hbook'⟩, hrules', hcap'⟩ := h'
  have hsame : e.book = e'.book := by
    rw [hbook, hbook']
    apply BookOf.ext_queue
    intro side price
    rw [queue_view, queue_view, ← fifo_eq hw, ← fifo_eq hw']
  cases e
  cases e'
  simp_all

/-- An addition that is not accepted has no trade and no effect. -/
theorem effect_not_accepted (h : Represents a.before e) (ha : accepted a = none) :
    effect a e = e ∧ ∀ ts s', a.outcome = .ret ts s' → ts = [] := by
  have heffect := effect_represents h
  rw [Addition.outcome] at heffect ⊢
  rw [accepted] at ha
  cases hc : checked a.before a.type a.id a.side a.price a.qty with
  | none =>
    rw [addOrder_refused hc] at heffect ⊢
    refine ⟨represents_unique heffect h, ?_⟩
    rintro ts s' ⟨⟩
    rfl
  | some r =>
    obtain ⟨type, price⟩ := r
    split_ifs at ha with hf
    · rw [addOrder_exhausted hc hf] at heffect ⊢
      refine ⟨represents_unique heffect h, ?_⟩
      rintro ts s' ⟨⟩
    · rw [hc] at ha
      cases ha

/-- An accepted addition is placed. -/
theorem effect_accepted (h : Represents a.before e)
    (ha : accepted a = some (type, price)) :
    effect a e = { e with book := (place e.book type a.id a.side price a.qty).2 } ∧
      ∃ s', a.outcome = .ret (place e.book type a.id a.side price a.qty).1 s' := by
  obtain ⟨hf, hc⟩ := accepted_eq_some_iff.mp ha
  obtain ⟨s', hret, -⟩ := addOrder_placed h hc hf
  rw [effect, addOrder_eq_place h hc hf]
  exact ⟨rfl, s', hret⟩

/-- What holds of the book and of every trade after an order is placed. -/
theorem place_rule (hb : I b)
    (happend : type ≠ .fillOrKill → I (b.append side price ⟨id, type, qty⟩))
    (hmatch : ∀ b t b', I b → Book.matchStep side b = some (t, b') → I b' ∧ T t)
    (hcancel : ∀ b, I b → I (b.cancel id))
    (hsweep : type = .fillOrKill → ∀ ts b',
      Steps (Book.sweepStep side id price) (qty, b) ts (0, b') → I b' ∧ ∀ t ∈ ts, T t) :
    I (place b type id side price qty).2 ∧ ∀ t ∈ (place b type id side price qty).1, T t := by
  rw [place]
  split_ifs with hfok hioc
  · by_cases havail : b.available side price < qty.toNat
    · rw [Book.fillOrKill, if_pos havail]
      exact ⟨hb, by simp⟩
    · exact hsweep hfok _ _ (fillOrKill_steps id havail)
  · have hsteps := matchBook_steps side (b.append side price ⟨id, type, qty⟩)
    exact ⟨hcancel _ (hsteps.invariant (fun _ _ _ hI hs => (hmatch _ _ _ hI hs).1) (happend hfok)),
      hsteps.forall_events hmatch (happend hfok)⟩
  · have hsteps := matchBook_steps side (b.append side price ⟨id, type, qty⟩)
    exact ⟨hsteps.invariant (fun _ _ _ hI hs => (hmatch _ _ _ hI hs).1) (happend hfok),
      hsteps.forall_events hmatch (happend hfok)⟩

end Effects

end OrderbookEngine.Additions
