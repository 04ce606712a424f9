import OrderbookEngine.FokSimulation

/-!
# The engine simulates the reference engine

An engine represents a reference engine when some layout satisfies the
representation invariant and its orders in view are the reference book. Every
public call keeps this relation and gives the same reply on both sides.
-/

namespace OrderbookEngine.EngineSimulation

open SortedMap MarketTypes PoolBook FeedCalls ReferenceBook LayoutInvariant SlotSteps ReferenceSteps
open CancelSimulation MatchSimulation FokSimulation

variable {n : ℕ} {s s' : Orderbook n} {L : Layout n} {e : RefEngine}

/-- The engine stores the book of the reference engine. -/
structure Represents (s : Orderbook n) (e : RefEngine) : Prop where
  /-- Some layout of the pool holds the book. -/
  book : ∃ L, Wf s [] noHoles L ∧ e.book = view s L
  /-- Same rules. -/
  rules : e.rules = s.exchangeRules
  /-- As many slots as the constructor frees. -/
  capacity : e.capacity = slotCount n

/-- Two computations end alike, in related states. -/
def Agree {σ τ α : Type*} (R : σ → τ → Prop) : Outcome σ α → Outcome τ α → Prop
  | .ret a s, .ret b t => a = b ∧ R s t
  | .raise x s, .raise y t => x = y ∧ R s t
  | _, _ => False

/-- Related states with the settings of an earlier one. -/
def Follows (s : Orderbook n) (s' : Orderbook n) (e' : RefEngine) : Prop :=
  Represents s' e' ∧ settings s' = settings s

/-- Equal settings have equal rules. -/
theorem rules_of_settings (h : settings s' = settings s) : s'.exchangeRules = s.exchangeRules :=
  congrArg Prod.fst h

/-- Equal settings have equal counters. -/
theorem stats_of_settings (h : settings s' = settings s) : s'.stats = s.stats :=
  congrArg (fun x => x.2.1) h

/-- Both engines hold as many orders. -/
theorem Represents.size_eq (h : Represents s e) : s.size = e.book.size := by
  obtain ⟨⟨L, hw, hbook⟩, -, -⟩ := h
  rw [hw.size_eq, hbook]

/-- Both engines know the same orders. -/
theorem Represents.hasOrder_book (h : Represents s e) (id : OrderId) :
    s.hasOrder id = e.book.hasOrder id := by
  obtain ⟨⟨L, hw, hbook⟩, -, -⟩ := h
  rw [hbook, hasOrder_view hw]

/-- Free slots and live orders are the slots of the constructor. -/
theorem Represents.free_add (h : Represents s e) :
    s.poolFreeSlots + e.book.size = slotCount n := by
  obtain ⟨⟨L, hw, hbook⟩, -, -⟩ := h
  have hadd := hw.size_add
  rw [List.length_nil] at hadd
  rw [Orderbook.poolFreeSlots, hbook]
  omega

section Checks

/-- A side without levels is one without orders. -/
theorem isEmpty_levels (h : Wf s [] noHoles L) (side : Side) :
    (s.levels side).isEmpty = true ↔ (view s L).best? side = none := by
  rw [OrdMap.isEmpty, List.isEmpty_iff]
  cases hf : (s.levels side).first? with
  | none =>
    rw [best_of_first_none side h hf]
    exact iff_of_true (List.head?_eq_none_iff.mp hf) rfl
  | some r =>
    obtain ⟨-, i, is, -, hbest⟩ := best_of_first side h hf
    rw [hbest]
    refine iff_of_false (fun hnil => ?_) (by simp)
    rw [OrdMap.first?, hnil] at hf
    cases hf

/-- Both engines convert market orders alike. -/
theorem convertMarket_eq (h : Wf s [] noHoles L) (he : e.book = view s L) (type : OrderType)
    (side : Side) (price : Price) :
    s.convertMarket type side price = e.convertMarket type side price := by
  rw [Orderbook.convertMarket, RefEngine.convertMarket, he]
  by_cases htype : type = .market
  · rw [if_pos htype, if_pos htype]
    have hempty := isEmpty_levels h side.opposite
    cases hb : (view s L).best? side.opposite with
    | none =>
      have htrue := hempty.mpr hb
      cases side with
      | buy => simp [show s.asks.isEmpty = true from htrue]
      | sell => simp [show s.bids.isEmpty = true from htrue]
    | some r =>
      have hfalse : ¬(s.levels side.opposite).isEmpty = true := by
        rw [hempty, hb]
        simp
      cases side with
      | buy => simp [show ¬s.asks.isEmpty = true from hfalse, Side.marketPrice]
      | sell => simp [show ¬s.bids.isEmpty = true from hfalse, Side.marketPrice]
  · rw [if_neg htype, if_neg htype]

/-- Both engines see the same matches. -/
theorem canMatch_eq (h : Wf s [] noHoles L) (side : Side) (price : Price) :
    s.canMatch side price = (view s L).canMatch side price := by
  rw [Book.canMatch]
  cases hf : (s.levels side.opposite).first? with
  | none =>
    rw [best_of_first_none _ h hf]
    cases side with
    | buy => simp [Orderbook.canMatch, show s.asks.first? = none from hf]
    | sell => simp [Orderbook.canMatch, show s.bids.first? = none from hf]
  | some r =>
    obtain ⟨best, lvl⟩ := r
    obtain ⟨-, i, is, -, hbest⟩ := best_of_first _ h hf
    rw [hbest]
    cases side with
    | buy =>
      simp only [Orderbook.canMatch, show s.asks.first? = some (best, lvl) from hf]
      rfl
    | sell =>
      simp only [Orderbook.canMatch, show s.bids.first? = some (best, lvl) from hf]
      rfl

/-- Both engines validate alike. -/
theorem validateOrder_eq (h : Represents s e) (id : OrderId) (price : Price) (qty : Quantity) :
    s.validateOrder id price qty = e.validateOrder id price qty := by
  obtain ⟨⟨L, hw, hbook⟩, hrules, -⟩ := h
  rw [Orderbook.validateOrder, RefEngine.validateOrder, hbook, hasOrder_view hw, hrules,
    Orderbook.hasOrder]
  simp only [Side.marketPrice]
  by_cases hid : (s.orderMap.find? id).isSome = true
  · simp [hid]
  · by_cases hmax : price = Int32.maxValue
    · simp [hid, hmax]
    · by_cases hmin : price = Int32.minValue
      · simp [hid, hmin]
      · cases hp : s.exchangeRules.isValidPrice price <;>
          cases hq : s.exchangeRules.isValidQuantity qty <;>
            cases hn : s.exchangeRules.isValidNotional price qty <;> simp_all

end Checks

section Add

variable {id : OrderId} {side : Side} {price : Price} {type : OrderType} {qty : Quantity}
  {i : Fin n} {rest : List (Fin n)}

/-- The state in which the order to add is written into its slot. -/
def written (s : Orderbook n) (i : Fin n) (rest : List (Fin n)) (id : OrderId) (side : Side)
    (price : Price) (type : OrderType) (qty : Quantity) : Orderbook n :=
  { s with freeList := rest, pool := Function.update s.pool i {} }.writeOrder i id side price type
    qty

/-- The order that is written. -/
theorem written_pool_self : (written s i rest id side price type qty).pool i =
    ⟨id, side, price, type, qty, none, none⟩ := by
  simp [written, Orderbook.writeOrder]

/-- Writing the order of a fresh slot keeps the orders in view. -/
theorem wf_written (h : Wf s [] noHoles L) (hf : s.freeList = i :: rest) :
    Wf (written s i rest id side price type qty) [i] noHoles L ∧
      view (written s i rest id side price type qty) L = view s L := by
  have htake := wf_take h hf
  have hreset := wf_write htake (i := i) (by simp) {}
  exact ⟨wf_write hreset (by simp) _,
    (view_write hreset (by simp) _).trans (view_write htake (by simp) _)⟩

/-- Allocation raises without a free slot. -/
theorem alloc_of_nil (hf : s.freeList = []) : s.alloc = .raise poolExhausted s := by
  rw [Orderbook.alloc, hf]

/-- Allocation takes the slot on top of the free list. -/
theorem alloc_of_cons (hf : s.freeList = i :: rest) : s.alloc =
    .ret i { s with freeList := rest, pool := Function.update s.pool i {} } := by
  rw [Orderbook.alloc, hf]

/-- A slot is free exactly when the reference engine has room. -/
theorem freeList_eq_nil_iff (h : Represents s e) : s.freeList = [] ↔ e.capacity ≤ e.book.size := by
  have hadd := h.free_add
  rw [Orderbook.poolFreeSlots] at hadd
  rw [h.capacity, ← List.length_eq_zero_iff]
  omega

/-- The first phase plans less than the quantity exactly if less is within reach. -/
theorem written_total (h : Wf s [] noHoles L) (hf : s.freeList = i :: rest) :
    (takeFills (written s i rest id side price type qty).pool (reach L side price) qty).1.foldl
        (fun total m => total + m.qty) 0 < qty ↔ (view s L).available side price < qty.toNat := by
  have hv : view (written s i rest id side price type qty) L = view s L := (wf_written h hf).2
  rw [takeFills_total, ← available_view, hv]

/-- The plan for a quantity that is within reach. -/
theorem plans_written (id : OrderId) (type : OrderType) (h : Wf s [] noHoles L)
    (hf : s.freeList = i :: rest)
    (havail : ¬(view s L).available side price < qty.toNat) :
    Plans i side id price (written s i rest id side price type qty) L qty
      (takeFills (written s i rest id side price type qty).pool (reach L side price) qty).1 := by
  have hv : view (written s i rest id side price type qty) L = view s L := (wf_written h hf).2
  refine ⟨(wf_written h hf).1, by rw [written_pool_self], by rw [written_pool_self],
    Prod.ext rfl ?_⟩
  rw [eq_zero_iff_toNat, takeFills_left, ← available_view, hv]
  omega

/-- Both phases of FillOrKill with an allocated slot. -/
theorem addFok_simulates (h : Represents s e) (hf : s.freeList = i :: rest) :
    ∃ found, (written s i rest id side price type qty).collectFOK side price qty = some found ∧
      Agree (Follows s)
        (if found.foldl (fun total m => total + m.qty) 0 < qty then
          .ret [] ((written s i rest id side price type qty).free i)
        else Orderbook.executeFOK i found (written s i rest id side price type qty))
        (.ret (e.book.fillOrKill side id price qty).1
          { e with book := (e.book.fillOrKill side id price qty).2 }) := by
  obtain ⟨⟨L, hw, hbook⟩, hrules, hcap⟩ := h
  have hww : Wf (written s i rest id side price type qty) [i] noHoles L := (wf_written hw hf).1
  have hvw : view (written s i rest id side price type qty) L = view s L := (wf_written hw hf).2
  refine ⟨_, collectFOK_eq hww side price qty, ?_⟩
  by_cases hlt : (view s L).available side price < qty.toNat
  · rw [if_pos ((written_total hw hf).mpr hlt), hbook, Book.fillOrKill, if_pos hlt]
    exact ⟨rfl, ⟨⟨L, wf_free hww, hvw.symm⟩, hrules, hcap⟩, rfl⟩
  · obtain ⟨ts, s', L', hret, hw', hsteps, hset⟩ :=
      executeFOK_simulates (plans_written id type hw hf hlt)
    rw [hvw] at hsteps
    rw [if_neg fun hc => hlt ((written_total hw hf).mp hc), hret, hbook, fillOrKill_eq hlt hsteps]
    exact ⟨rfl, ⟨⟨L', hw', rfl⟩, hrules.trans (rules_of_settings hset).symm, hcap⟩, hset⟩

/-- The book on which an accepted order that is not FillOrKill is matched. -/
theorem wf_inserted (h : Wf s [] noHoles L) (hf : s.freeList = i :: rest)
    (hid : s.hasOrder id = false) :
    ∃ L', Wf ((written s i rest id side price type qty).insertIntoBook i) [] noHoles L' ∧
      view ((written s i rest id side price type qty).insertIntoBook i) L' =
        (view s L).append side price ⟨id, type, qty⟩ := by
  have hw : Wf (written s i rest id side price type qty) [i] noHoles L := (wf_written h hf).1
  have hv : view (written s i rest id side price type qty) L = view s L := (wf_written h hf).2
  have hself : (written s i rest id side price type qty).pool i =
      ⟨id, side, price, type, qty, none, none⟩ := written_pool_self
  have hfresh : (written s i rest id side price type qty).orderMap.find?
      ((written s i rest id side price type qty).pool i).orderId = none := by
    rw [hself]
    rwa [Orderbook.hasOrder, Option.isSome_eq_false_iff, Option.isNone_iff_eq_none] at hid
  refine ⟨_, wf_insert hw hfresh, ?_⟩
  rw [view_insert, hv, hself]
  rfl

/-- Insertion and matching with an allocated slot. -/
theorem addMatch_simulates (h : Represents s e) (hf : s.freeList = i :: rest)
    (hid : s.hasOrder id = false) :
    Agree (Follows s)
      (((written s i rest id side price type qty).insertIntoBook i).matchOrders side
        (if type = .immediateOrCancel then some id else none))
      (.ret ((e.book.append side price ⟨id, type, qty⟩).matchBook side).1 { e with
        book :=
          if type = .immediateOrCancel then
            ((e.book.append side price ⟨id, type, qty⟩).matchBook side).2.cancel id
          else ((e.book.append side price ⟨id, type, qty⟩).matchBook side).2 }) := by
  obtain ⟨⟨L, hw, hbook⟩, hrules, hcap⟩ := h
  obtain ⟨L₁, hw₁, hv₁⟩ : ∃ L', Wf ((written s i rest id side price type qty).insertIntoBook i)
    [] noHoles L' ∧ _ := wf_inserted hw hf hid
  have hset₁ : settings ((written s i rest id side price type qty).insertIntoBook i) =
      settings s := settings_insertIntoBook _ _
  obtain ⟨ts, s₂, L₂, hloop, hsteps, hhalt, hw₂⟩ :=
    matchLoop_simulates side hw₁ (Nat.lt_succ_of_le hw₁.size_le)
  have hset₂ := (settings_matchLoop hloop).trans hset₁
  rw [hv₁] at hsteps
  rw [Orderbook.matchOrders, hloop, hbook, matchBook_eq hsteps hhalt]
  split_ifs
  · obtain ⟨s₃, L₃, hret, hw₃, hv₃, hset₃⟩ := cancelOrder_simulates hw₂ id
    have hset := hset₃.trans hset₂
    simp only [hret, Outcome.ret_bind]
    exact ⟨rfl, ⟨⟨L₃, hw₃, hv₃.symm⟩, hrules.trans (rules_of_settings hset).symm, hcap⟩, hset⟩
  · exact ⟨rfl, ⟨⟨L₂, hw₂, rfl⟩, hrules.trans (rules_of_settings hset₂).symm, hcap⟩, hset₂⟩

/-- A valid order has an unused identifier. -/
theorem validateOrder_unused (h : Represents s e) (hvalid : e.validateOrder id price qty = true) :
    s.hasOrder id = false := by
  rw [← validateOrder_eq h, Orderbook.validateOrder] at hvalid
  rw [Orderbook.hasOrder]
  by_contra hid
  rw [Bool.not_eq_false] at hid
  simp [hid] at hvalid

/-- Additions agree from validation on. -/
theorem addValidated_simulates (h : Represents s e) (hid : s.hasOrder id = false) :
    Agree (Follows s) (s.addValidated type id side price qty)
      (e.addValidated type id side price qty) := by
  have hsame : Follows s s e := ⟨h, rfl⟩
  obtain ⟨L, hw, hbook⟩ := h.book
  rw [Orderbook.addValidated, RefEngine.addValidated, canMatch_eq hw, ← hbook]
  by_cases hioc : type = .immediateOrCancel ∧ ¬e.book.canMatch side price = true
  · rw [if_pos hioc, if_pos hioc]
    exact ⟨rfl, hsame⟩
  · rw [if_neg hioc, if_neg hioc]
    cases hf : s.freeList with
    | nil =>
      simp only [alloc_of_nil hf, Outcome.raise_bind, ite_self,
        if_pos ((freeList_eq_nil_iff h).mp hf)]
      exact ⟨rfl, hsame⟩
    | cons i rest =>
      have hroom : ¬e.capacity ≤ e.book.size := by
        rw [← freeList_eq_nil_iff h, hf]
        simp
      simp only [alloc_of_cons hf, Outcome.ret_bind, if_neg hroom]
      by_cases hfok : type = .fillOrKill
      · obtain ⟨found, hfound, hagree⟩ := addFok_simulates h hf
        rw [written] at hfound
        rw [if_pos hfok, if_pos hfok, hfound]
        exact hagree
      · rw [if_neg hfok, if_neg hfok]
        exact addMatch_simulates h hf hid

/-- Additions agree: the same trades, or the same exception. -/
theorem addOrder_simulates (h : Represents s e) (type : OrderType) (id : OrderId) (side : Side)
    (price : Price) (qty : Quantity) :
    Agree (Follows s) (s.addOrder type id side price qty) (e.addOrder type id side price qty) := by
  have hsame : Follows s s e := ⟨h, rfl⟩
  obtain ⟨L, hw, hbook⟩ := h.book
  cases hconvert : e.convertMarket type side price with
  | none =>
    rw [Orderbook.addOrder, RefEngine.addOrder, convertMarket_eq hw hbook, hconvert]
    exact ⟨rfl, hsame⟩
  | some r =>
    obtain ⟨type', price'⟩ := r
    have hconvert' : s.convertMarket type side price = some (type', price') := by
      rw [convertMarket_eq hw hbook, hconvert]
    by_cases hvalid : e.validateOrder id price' qty = true
    · rw [Orderbook.addOrder_of_valid hconvert' (by rw [validateOrder_eq h, hvalid]),
        RefEngine.addOrder_of_valid hconvert hvalid]
      exact addValidated_simulates h (validateOrder_unused h hvalid)
    · rw [Orderbook.addOrder, RefEngine.addOrder, hconvert, hconvert']
      dsimp only
      rw [validateOrder_eq h, if_pos hvalid, if_pos hvalid]
      exact ⟨rfl, hsame⟩

end Add

section Calls

variable {α : Type*}

/-- Agreement on what follows agreement. -/
theorem Agree.mono {σ τ : Type*} {R R' : σ → τ → Prop} {x : Outcome σ α} {y : Outcome τ α}
    (h : Agree R x y) (hR : ∀ s t, R s t → R' s t) : Agree R' x y := by
  cases x <;> cases y <;> first | exact h | exact ⟨h.1, hR _ _ h.2⟩

/-- A computation that agrees with a return returns the same. -/
theorem Agree.eq_ret {σ τ : Type*} {R : σ → τ → Prop} {x : Outcome σ α} {a : α} {t : τ}
    (h : Agree R x (.ret a t)) : ∃ s, x = .ret a s ∧ R s t := by
  cases x with
  | ret b s =>
    obtain ⟨rfl, hR⟩ := h
    exact ⟨s, rfl, hR⟩
  | raise x s => exact h.elim
  | diverge => exact h.elim

/-- What agrees with a return returns the same. -/
theorem Agree.of_ret {σ τ : Type*} {R : σ → τ → Prop} {a : α} {s : σ} {y : Outcome τ α}
    (h : Agree R (.ret a s) y) : ∃ t, y = .ret a t ∧ R s t := by
  cases y with
  | ret b t =>
    obtain ⟨rfl, hR⟩ := h
    exact ⟨t, rfl, hR⟩
  | raise x t => exact h.elim
  | diverge => exact h.elim

/-- What agrees with an exception raises the same. -/
theorem Agree.of_raise {σ τ : Type*} {R : σ → τ → Prop} {x : Exn} {s : σ} {y : Outcome τ α}
    (h : Agree R (.raise x s) y) : ∃ t, y = .raise x t ∧ R s t := by
  cases y with
  | ret b t => exact h.elim
  | raise x' t =>
    obtain ⟨rfl, hR⟩ := h
    exact ⟨t, rfl, hR⟩
  | diverge => exact h.elim

/-- No outcome agrees with a loop that does not end. -/
theorem Agree.not_diverge {σ τ : Type*} {R : σ → τ → Prop} {x : Outcome σ α} :
    ¬Agree R x (.diverge : Outcome τ α) := by
  intro h
  cases x <;> exact h

/-- Outcomes that agree raise alike. -/
theorem Agree.raises_eq {σ τ : Type*} {R : σ → τ → Prop} {x : Outcome σ α} {y : Outcome τ α}
    (h : Agree R x y) : x.raises = y.raises := by
  cases x <;> cases y <;> first | rfl | exact h.elim

/-- What outcomes that agree leave behind is related. -/
theorem Agree.leaves {σ τ : Type*} {R : σ → τ → Prop} {x : Outcome σ α} {y : Outcome τ α}
    (h : Agree R x y) (s : σ) (t : τ) : R (leaves s x) (leaves t y) := by
  cases x <;> cases y <;> first | exact h.2 | exact h.elim

/-- Outcomes that agree give the same reply. -/
theorem Agree.settle {σ τ : Type*} {R : σ → τ → Prop} {x : Outcome σ α} {y : Outcome τ α}
    (h : Agree R x y) (reply : α → Reply) (s : σ) (t : τ) :
    (settle reply s x).1 = (settle reply t y).1 ∧ R (settle reply s x).2 (settle reply t y).2 := by
  cases x <;> cases y <;> first | exact ⟨congrArg _ h.1, h.2⟩ | exact h.elim

/-- Counters and feed flags do not matter. -/
theorem Represents.congr (h : Represents s e) (hpool : s'.pool = s.pool)
    (hfree : s'.freeList = s.freeList) (hbids : s'.bids = s.bids) (hasks : s'.asks = s.asks)
    (hmap : s'.orderMap = s.orderMap) (hrules : s'.exchangeRules = s.exchangeRules) :
    Represents s' e := by
  obtain ⟨⟨L, hw, hbook⟩, hr, hc⟩ := h
  have hlevels : ∀ side, s'.levels side = s.levels side := by
    intro side
    cases side
    · exact hbids
    · exact hasks
  have hlevel : ∀ side price, s'.level side price = s.level side price := by
    intro side price
    rw [Orderbook.level, hlevels, Orderbook.level]
  refine ⟨⟨L, ⟨?_, ?_, ?_, ?_, ?_, ?_, ?_⟩, ?_⟩, hr.trans hrules.symm, hc⟩
  · simpa only [hlevel, hpool] using hw.level
  · simpa only [hlevels] using hw.full
  · simpa only [hpool, hmap] using hw.placed
  · simpa only [hpool, hmap] using hw.indexed
  · simpa only [hfree] using hw.spare_nodup
  · simpa only [hfree, hmap] using hw.spare_iff
  · simpa only [hmap] using hw.bounded
  · rw [hbook, view, view, hpool]

/-- Both engines cancel alike. -/
theorem cancelOrder_agrees (h : Represents s e) (id : OrderId) :
    ∃ s', s.cancelOrder id = .ret () s' ∧ Follows s s' (e.cancelOrder id) := by
  obtain ⟨⟨L, hw, hbook⟩, hrules, hcap⟩ := h
  obtain ⟨s', L', hret, hw', hv', hset⟩ := cancelOrder_simulates hw id
  refine ⟨s', hret, ⟨⟨L', hw', ?_⟩, hrules.trans (rules_of_settings hset).symm, hcap⟩, hset⟩
  rw [RefEngine.cancelOrder, hbook, hv']

/-- Both engines cancel the same GoodForDay orders, in any iteration order. -/
theorem cancelGoodForDayOrders_agrees (h : Represents s e) (order : IterOrder) :
    ∃ s', s.cancelGoodForDayOrders order = .ret () s' ∧
      Follows s s' e.cancelGoodForDayOrders := by
  obtain ⟨⟨L, hw, hbook⟩, hrules, hcap⟩ := h
  obtain ⟨s', L', hret, hw', hv', hset⟩ := cancelGoodForDayOrders_simulates hw order
  refine ⟨s', hret, ⟨⟨L', hw', ?_⟩, hrules.trans (rules_of_settings hset).symm, hcap⟩, hset⟩
  rw [RefEngine.cancelGoodForDayOrders, hbook, hv']

/-- Look-up agrees with the queues. -/
theorem Represents.find?_book (h : Represents s e) (id : OrderId) :
    e.book.find? id = (s.orderMap.find? id).map fun i =>
      ((s.pool i).side, (s.pool i).price, resting (s.pool i)) := by
  obtain ⟨⟨L, hw, hbook⟩, -, -⟩ := h
  rw [hbook]
  cases hm : s.orderMap.find? id with
  | none => rw [find?_view_of_none hw hm, Option.map_none]
  | some i => rw [find?_view_of_some hw hm, Option.map_some]

/-- Modifications agree; a price change is a cancellation and an addition. -/
theorem modifyOrder_simulates (h : Represents s e) (mod : OrderModify) :
    Agree (Follows s) (s.modifyOrder mod) (e.modifyOrder mod) := by
  rw [Orderbook.modifyOrder, RefEngine.modifyOrder, h.find?_book]
  cases hm : s.orderMap.find? mod.orderId with
  | none => exact ⟨rfl, h, rfl⟩
  | some i =>
    simp only [Option.map_some]
    split_ifs with hside hprice
    · exact ⟨rfl, h, rfl⟩
    · obtain ⟨⟨L, hw, hbook⟩, hrules, hcap⟩ := h
      simp only [find?_level_of_mapped hw hm, Orderbook.putLevel_pool]
      change Agree (Follows s)
        (.ret [] (setQuantity s (s.pool i).side (s.pool i).price i mod.quantity)) _
      obtain ⟨hw', hv'⟩ := setQuantity_simulates hw hm mod.quantity
      have hset := settings_setQuantity s (s.pool i).side (s.pool i).price i mod.quantity
      exact ⟨rfl, ⟨⟨L, hw', by rw [hv', hbook]⟩, hrules.trans (rules_of_settings hset).symm, hcap⟩,
        hset⟩
    · obtain ⟨s₁, hret, hrep, hset⟩ := cancelOrder_agrees h mod.orderId
      rw [hret, Outcome.ret_bind, ← not_ne_iff.mp hside]
      refine (addOrder_simulates hrep (s.pool i).orderType mod.orderId mod.side mod.price
        mod.quantity).mono ?_
      rintro s' e' ⟨hrep', hset'⟩
      exact ⟨hrep', hset'.trans hset⟩

/-- With a free slot no addition raises. -/
theorem addOrder_ne_raise {type : OrderType} {id : OrderId} {side : Side} {price : Price}
    {qty : Quantity} (hroom : ¬e.capacity ≤ e.book.size) (x : Exn) (e' : RefEngine) :
    e.addOrder type id side price qty ≠ .raise x e' := by
  rw [RefEngine.addOrder]
  split
  · simp
  · simp only [RefEngine.addValidated, if_neg hroom]
    split_ifs <;> simp

/-- A cancellation of a live order leaves a slot free. -/
theorem cancelOrder_frees {id : OrderId} {i : Fin n} (hm : s.orderMap.find? id = some i)
    (hret : s.cancelOrder id = .ret () s') : s'.freeList ≠ [] := by
  rw [Orderbook.cancelOrder, hm] at hret
  dsimp only at hret
  split at hret
  · cases hret
  · cases hret
    simp [Orderbook.free]

/-- A modification never raises, even on a full pool. -/
theorem modifyOrder_returns (h : Represents s e) (mod : OrderModify) :
    ∃ ts s' e', s.modifyOrder mod = .ret ts s' ∧ e.modifyOrder mod = .ret ts e' ∧
      Follows s s' e' := by
  have hagree := modifyOrder_simulates h mod
  have hne : ∀ x e', e.modifyOrder mod ≠ .raise x e' := by
    intro x e'
    rw [RefEngine.modifyOrder, h.find?_book]
    cases hm : s.orderMap.find? mod.orderId with
    | none => simp
    | some i =>
      simp only [Option.map_some]
      split_ifs
      · simp
      · simp
      · obtain ⟨s₁, hret, hrep, -⟩ := cancelOrder_agrees h mod.orderId
        exact addOrder_ne_raise
          (fun hfull => cancelOrder_frees hm hret ((freeList_eq_nil_iff hrep).mpr hfull)) x e'
  cases href : e.modifyOrder mod with
  | ret ts e' =>
    rw [href] at hagree
    obtain ⟨s', hret, hfollows⟩ := hagree.eq_ret
    exact ⟨ts, s', e', hret, rfl, hfollows⟩
  | raise x e' => exact absurd href (hne x e')
  | diverge =>
    rw [href] at hagree
    exact absurd hagree Agree.not_diverge

/-- The levels of a snapshot agree; refused and raising additions are skipped alike. -/
theorem addSnapshotLevels_simulates (side : Side) (levels : List SnapshotLevel)
    (h : Represents s e) (syntheticId : OrderId) :
    ∃ s', FeedCalls.addSnapshotLevels side levels syntheticId s =
        .ret (RefEngine.addSnapshotLevels side levels syntheticId e).1 s' ∧
      Follows s s' (RefEngine.addSnapshotLevels side levels syntheticId e).2 := by
  induction levels generalizing s e syntheticId with
  | nil => exact ⟨s, rfl, h, rfl⟩
  | cons level rest ih =>
    rw [FeedCalls.addSnapshotLevels, RefEngine.addSnapshotLevels]
    split_ifs with hz
    · exact ih h syntheticId
    · have hadd := addOrder_simulates h .goodTillCancel syntheticId side level.price level.quantity
      have hnext : ∀ s₁ e₁, Follows s s₁ e₁ → ∃ s',
          FeedCalls.addSnapshotLevels side rest (syntheticId + 1) s₁ =
            .ret (RefEngine.addSnapshotLevels side rest (syntheticId + 1) e₁).1 s' ∧
          Follows s s' (RefEngine.addSnapshotLevels side rest (syntheticId + 1) e₁).2 := by
        rintro s₁ e₁ ⟨hrep, hset⟩
        obtain ⟨s', hret, hrep', hset'⟩ := ih hrep (syntheticId + 1)
        exact ⟨s', hret, hrep', hset'.trans hset⟩
      cases hout : s.addOrder .goodTillCancel syntheticId side level.price level.quantity with
      | ret ts s₁ =>
        rw [hout] at hadd
        obtain ⟨e₁, href, hfollows⟩ := hadd.of_ret
        rw [href]
        exact hnext s₁ e₁ hfollows
      | raise x s₁ =>
        rw [hout] at hadd
        obtain ⟨e₁, href, hfollows⟩ := hadd.of_raise
        rw [href]
        exact hnext s₁ e₁ hfollows
      | diverge =>
        rw [hout] at hadd
        exact hadd.elim

/-- A snapshot agrees: the book is emptied and rebuilt. -/
theorem processSnapshot_simulates (h : Represents s e) (msg : BookSnapshotMessage)
    (order : IterOrder) :
    ∃ s', FeedCalls.processSnapshot s msg order = .ret () s' ∧
      Represents s' (e.processSnapshot msg) ∧
      s'.stats = { s.stats with snapshots := s.stats.snapshots + 1 } := by
  obtain ⟨⟨L, hw, hbook⟩, hrules, hcap⟩ := h
  obtain ⟨s₁, L₁, hret₁, hw₁, hv₁, hset₁⟩ := cancelAll_simulates hw order
  have h₁ : Represents s₁ { e with book := BookOf.empty } :=
    ⟨⟨L₁, hw₁, hv₁.symm⟩, hrules.trans (rules_of_settings hset₁).symm, hcap⟩
  obtain ⟨s₂, hret₂, h₂, hset₂⟩ := addSnapshotLevels_simulates .buy msg.bids h₁ firstSyntheticId
  obtain ⟨s₃, hret₃, h₃, hset₃⟩ := addSnapshotLevels_simulates .sell msg.asks h₂ _
  have hstats : s₃.stats = s.stats :=
    stats_of_settings (hset₃.trans (hset₂.trans hset₁))
  refine ⟨{ s₃ with
    isInitialized := true
    lastSequenceNumber := msg.sequenceNumber
    stats := { s₃.stats with snapshots := s₃.stats.snapshots + 1 } }, ?_,
    h₃.congr rfl rfl rfl rfl rfl rfl, ?_⟩
  swap
  · dsimp only
    rw [hstats]
  rw [FeedCalls.processSnapshot, hret₁, Outcome.ret_bind, hret₂, Outcome.ret_bind, hret₃,
    Outcome.ret_bind]

/-- Whether a message is a new order whose addition raises. -/
def newOrderRaises (s : Orderbook n) : MarketDataMessage → Bool
  | .newOrder msg =>
    (s.addOrder msg.orderType msg.orderId msg.side msg.price msg.quantity).raises
  | _ => false

/-- Every message is processed with the reference's effect on the book, and only
a new order that raises is counted as an error. -/
theorem processMarketData_simulates (h : Represents s e) (msg : MarketDataMessage)
    (order : IterOrder) :
    ∃ s', FeedCalls.processMarketData s msg order = .ret true s' ∧
      Represents s' (e.processMarketData msg) ∧
      s'.stats.errors = s.stats.errors + if newOrderRaises s msg then 1 else 0 := by
  have hhandled : ∃ s', handleMessage s order msg = .ret () s' ∧
      Represents s' (e.processMarketData msg) ∧
      s'.stats.errors = s.stats.errors + if newOrderRaises s msg then 1 else 0 := by
    cases msg with
    | newOrder msg =>
      have hadd := addOrder_simulates h msg.orderType msg.orderId msg.side msg.price msg.quantity
      rw [handleMessage, processNewOrder, RefEngine.processMarketData, newOrderRaises]
      cases hout : s.addOrder msg.orderType msg.orderId msg.side msg.price msg.quantity with
      | ret ts s' =>
        rw [hout] at hadd
        obtain ⟨e', href, hrep, hset⟩ := hadd.of_ret
        have hstats : s'.stats = s.stats := stats_of_settings hset
        rw [href]
        refine ⟨_, rfl, hrep.congr rfl rfl rfl rfl rfl rfl, ?_⟩
        change s'.stats.errors = s.stats.errors + 0
        rw [hstats, UInt64.add_zero]
      | raise x s' =>
        rw [hout] at hadd
        obtain ⟨e', href, hrep, hset⟩ := hadd.of_raise
        have hstats : s'.stats = s.stats := stats_of_settings hset
        rw [href]
        refine ⟨_, rfl, hrep.congr rfl rfl rfl rfl rfl rfl, ?_⟩
        change s'.stats.errors + 1 = s.stats.errors + 1
        rw [hstats]
      | diverge =>
        rw [hout] at hadd
        exact hadd.elim
    | cancelOrder msg =>
      obtain ⟨s', hret, hrep, hset⟩ := cancelOrder_agrees h msg.orderId
      have hstats : s'.stats = s.stats := stats_of_settings hset
      rw [handleMessage, processCancel, hret]
      refine ⟨_, rfl, hrep.congr rfl rfl rfl rfl rfl rfl, ?_⟩
      change s'.stats.errors = s.stats.errors + 0
      rw [hstats, UInt64.add_zero]
    | modifyOrder msg =>
      obtain ⟨ts, s', e', hret, hret', hrep, hset⟩ := modifyOrder_returns h
        ⟨msg.orderId, msg.side, msg.newPrice, msg.newQuantity⟩
      have hstats : s'.stats = s.stats := stats_of_settings hset
      rw [handleMessage, processModify, hret, RefEngine.processMarketData, hret']
      refine ⟨_, rfl, hrep.congr rfl rfl rfl rfl rfl rfl, ?_⟩
      change s'.stats.errors = s.stats.errors + 0
      rw [hstats, UInt64.add_zero]
    | trade => exact ⟨_, rfl, h.congr rfl rfl rfl rfl rfl rfl, (UInt64.add_zero _).symm⟩
    | bookSnapshot msg =>
      obtain ⟨s', hret, hrep, hstats⟩ := processSnapshot_simulates h msg order
      exact ⟨s', hret, hrep, by rw [hstats]; exact (UInt64.add_zero _).symm⟩
  obtain ⟨s', hret, hrep, herr⟩ := hhandled
  rw [FeedCalls.processMarketData, hret]
  exact ⟨_, rfl, hrep.congr rfl rfl rfl rfl rfl rfl, herr⟩

/-- Every public call gives the same reply and keeps the relation. -/
theorem perform_simulates (h : Represents s e) (call : Call) :
    (perform s call).1 = (e.perform call).1 ∧
      Represents (perform s call).2 (e.perform call).2 := by
  cases call with
  | setExchangeRules rules usable =>
    obtain ⟨⟨L, hw, hbook⟩, -, hcap⟩ := h
    exact ⟨rfl, ⟨L, { hw with }, hbook⟩, rfl, hcap⟩
  | addOrder type id side price qty =>
    have hadd := (addOrder_simulates h type id side price qty).settle .trades s e
    exact ⟨hadd.1, hadd.2.1⟩
  | cancelOrder id =>
    obtain ⟨s', hret, hrep, -⟩ := cancelOrder_agrees h id
    rw [perform, hret]
    exact ⟨rfl, hrep⟩
  | modifyOrder mod =>
    have hmod := (modifyOrder_simulates h mod).settle .trades s e
    exact ⟨hmod.1, hmod.2.1⟩
  | cancelGoodForDayOrders order =>
    obtain ⟨s', hret, hrep, -⟩ := cancelGoodForDayOrders_agrees h order
    rw [perform, hret]
    exact ⟨rfl, hrep⟩
  | processMarketData msg order =>
    obtain ⟨s', hret, hrep, -⟩ := processMarketData_simulates h msg order
    rw [perform, hret]
    exact ⟨rfl, hrep⟩
  | resetMarketDataStats => exact ⟨rfl, h.congr rfl rfl rfl rfl rfl rfl⟩

end Calls

end OrderbookEngine.EngineSimulation
