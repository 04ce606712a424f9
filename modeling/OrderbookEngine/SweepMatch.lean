import OrderbookEngine.Fills

/-!
# Sweeping against matching

An aggressor that is first on its own side is matched step by step as it would
be swept, unless it meets a market remainder. When it is used up, matching goes
on if what the sweep has left still crosses the orders behind the aggressor.
-/

namespace OrderbookEngine.SweepMatch

open StepRuns MarketTypes PoolBook ReferenceBook ReferenceSteps Fills

variable {b b' : Book} {side : Side} {price limit : Price} {id : OrderId}
  {remaining remaining' : Quantity} {t : Trade} {ts : Trades} {o : Resting}

section Sides

/-- The price of a match for a first price of the aggressor's side and a first
opposing price. -/
def aggressorPrice (side : Side) (own opposing : Price) : Price :=
  if opposing = side.opposite.marketPrice then own else opposing

/-- An aggressive buy trades at its partner's price, unless that is the sentinel. -/
theorem tradePrice_buy {bid ask : Price}
    (h : ¬(bid = Side.buy.marketPrice ∧ ask = Side.sell.marketPrice)) :
    tradePrice .buy bid ask = aggressorPrice .buy bid ask := by
  by_cases hask : ask = Int32.minValue
  · have hbid : bid ≠ Int32.maxValue := fun hbid => h ⟨hbid, hask⟩
    simp [tradePrice, aggressorPrice, Side.opposite, Side.marketPrice, hask, hbid]
  · simp [tradePrice, aggressorPrice, Side.opposite, Side.marketPrice, hask]

/-- So does an aggressive sell. -/
theorem tradePrice_sell (bid ask : Price) :
    tradePrice .sell bid ask = aggressorPrice .sell ask bid := by
  by_cases hbid : bid = Int32.maxValue
  · simp [tradePrice, aggressorPrice, Side.opposite, Side.marketPrice, hbid]
  · simp [tradePrice, aggressorPrice, Side.opposite, Side.marketPrice, hbid]

/-- A matching step seen from the side of the aggressor. -/
theorem matchStep_own_iff : Book.matchStep side b = some (t, b') ↔
    ∃ own x xs opposing y ys, b.best? side = some (own, x, xs) ∧
      b.best? side.opposite = some (opposing, y, ys) ∧ side.crosses own opposing ∧
      ¬(own = side.marketPrice ∧ opposing = side.opposite.marketPrice) ∧
      t = Book.tradeOf side x.orderId y.orderId (aggressorPrice side own opposing)
        (min x.quantity y.quantity) ∧
      b' = (b.setQueue side own (Book.fillHead (min x.quantity y.quantity) x xs)).setQueue
        side.opposite opposing (Book.fillHead (min x.quantity y.quantity) y ys) := by
  rw [matchStep_eq_some_iff]
  cases side with
  | buy =>
    constructor
    · rintro ⟨p, x, xs, q, y, ys, hb, ha, hcross, hmarket, rfl, rfl⟩
      refine ⟨p, x, xs, q, y, ys, hb, ha, Int32.not_lt.mp hcross, hmarket, ?_, rfl⟩
      rw [tradePrice_buy hmarket]
      rfl
    · rintro ⟨p, x, xs, q, y, ys, hb, ha, hcross, hmarket, rfl, rfl⟩
      refine ⟨p, x, xs, q, y, ys, hb, ha, Int32.not_lt.mpr hcross, hmarket, ?_, rfl⟩
      rw [tradePrice_buy hmarket]
      rfl
  | sell =>
    constructor
    · rintro ⟨q, y, ys, p, x, xs, hb, ha, hcross, hmarket, rfl, rfl⟩
      refine ⟨p, x, xs, q, y, ys, ha, hb, Int32.not_lt.mp hcross, fun h => hmarket h.symm, ?_, ?_⟩
      · rw [tradePrice_sell, quantity_min_comm]
        rfl
      · rw [BookOf.setQueue_comm _ _ _ _ _ (by simp), quantity_min_comm]
        rfl
    · rintro ⟨p, x, xs, q, y, ys, ha, hb, hcross, hmarket, rfl, rfl⟩
      refine ⟨q, y, ys, p, x, xs, hb, ha, Int32.not_lt.mpr hcross, fun h => hmarket h.symm, ?_, ?_⟩
      · rw [tradePrice_sell, quantity_min_comm]
        rfl
      · rw [BookOf.setQueue_comm _ _ _ _ _ (Side.opposite_ne _), quantity_min_comm]
        rfl

/-- When matching stops, seen from the side of the aggressor. -/
theorem matchStep_own_none_iff : Book.matchStep side b = none ↔
    ∀ own x xs opposing y ys, b.best? side = some (own, x, xs) →
      b.best? side.opposite = some (opposing, y, ys) → side.crosses own opposing →
      own = side.marketPrice ∧ opposing = side.opposite.marketPrice := by
  constructor
  · intro h own x xs opposing y ys hown hopp hcross
    by_contra hmarket
    have hsome := matchStep_own_iff.mpr ⟨own, x, xs, opposing, y, ys, hown, hopp, hcross, hmarket,
      rfl, rfl⟩
    rw [h] at hsome
    cases hsome
  · intro h
    cases hstep : Book.matchStep side b with
    | none => rfl
    | some r =>
      obtain ⟨own, x, xs, opposing, y, ys, hown, hopp, hcross, hmarket, -⟩ :=
        matchStep_own_iff.mp (show _ = some (r.1, r.2) from hstep)
      exact absurd (h _ _ _ _ _ _ hown hopp hcross) hmarket

end Sides

section Aggressor

/-- All orders of a side come after a price. -/
def Behind (b : Book) (side : Side) (price : Price) : Prop :=
  ∀ p, b.queue side p ≠ [] → side.before price p

/-- A price meets no opposing market remainder, or is at the price of one itself. -/
def MeetsNoRemainder (b : Book) (side : Side) (price : Price) : Prop :=
  b.queue side.opposite side.opposite.marketPrice ≠ [] → price = side.opposite.marketPrice

/-- The book with the aggressor in it, if it has quantity left. -/
def entered (b : Book) (side : Side) (price : Price) (id : OrderId) (remaining : Quantity) : Book :=
  if remaining = 0 then b else b.append side price ⟨id, .immediateOrCancel, remaining⟩

/-- The book with an order of some type in it, if it has quantity left. -/
def joined (b : Book) (side : Side) (price : Price) (id : OrderId) (type : OrderType)
    (remaining : Quantity) : Book :=
  if remaining = 0 then b else b.append side price ⟨id, type, remaining⟩

/-- A price at the market price of its side meets no opposing market remainder. -/
def NoSentinelPair (b : Book) (side : Side) (price : Price) : Prop :=
  price = side.marketPrice → b.queue side.opposite side.opposite.marketPrice = []

/-- A trade at the price of the resting order, or at the limit of the aggressor
if the resting order is a market remainder. -/
def atLimit (side : Side) (limit : Price) (t : Trade) : Trade :=
  { t with price := aggressorPrice side limit t.price }

/-- What is left of the order joins its level. -/
theorem entered_eq_joined (b : Book) (side : Side) (price : Price) (id : OrderId)
    (remaining : Quantity) : entered b side price id remaining =
      joined b side price id .immediateOrCancel remaining := rfl

/-- Nothing rests at a limit that is behind the book. -/
theorem Behind.queue_eq_nil (h : Behind b side price) : b.queue side price = [] := by
  by_contra hne
  exact irrefl_of side.before _ (h price hne)

/-- A limit stays behind a book that shrinks. -/
theorem Behind.shrinks (h : Behind b side price) (hsub : Shrinks b b') : Behind b' side price :=
  fun p hne => h p (hsub.ne_nil hne)

/-- A book that shrinks gets no market remainder. -/
theorem MeetsNoRemainder.shrinks (h : MeetsNoRemainder b side price) (hsub : Shrinks b b') :
    MeetsNoRemainder b' side price :=
  fun hne => h (hsub.ne_nil hne)

/-- A book that shrinks gets no sentinel pair. -/
theorem NoSentinelPair.shrinks (h : NoSentinelPair b side price) (hsub : Shrinks b b') :
    NoSentinelPair b' side price :=
  fun hown => not_not.mp fun hne => hsub.ne_nil hne (h hown)

/-- An aggressor before all others of its side is matched first. -/
theorem Behind.best?_append (h : Behind b side price) :
    (b.append side price o).best? side = some (price, o, []) := by
  rw [BookOf.best?_eq_some_iff, Book.append, BookOf.queue_setQueue_self, h.queue_eq_nil]
  refine ⟨rfl, fun p hne => ?_⟩
  rw [BookOf.queue_setQueue] at hne
  split_ifs at hne with he
  · exact Or.inl he.2
  · exact Or.inr (h p hne)

/-- An order that is appended is not on the opposing side. -/
theorem best?_append_opposite (b : Book) (side : Side) (price : Price) (o : Resting) :
    (b.append side price o).best? side.opposite = b.best? side.opposite :=
  BookOf.best?_setQueue_of_ne _ _ _ side.opposite_ne

/-- A sweeping step is a matching step of the aggressor, at its own price if a
market remainder is taken. -/
theorem matchStep_joined (type : OrderType) (hb : Behind b side price)
    (hpair : NoSentinelPair b side price)
    (h : Book.sweepStep side id price (remaining, b) = some (t, (remaining', b'))) :
    Book.matchStep side (joined b side price id type remaining) =
      some (atLimit side price t, joined b' side price id type remaining') := by
  obtain ⟨q, o, rest, hz, hbest, hcross, rfl, rfl, rfl⟩ := sweepStep_eq_some_iff.mp h
  have hq := BookOf.queue_of_best? hbest
  rw [joined, if_neg hz, matchStep_own_iff]
  refine ⟨price, _, [], q, o, rest, hb.best?_append, ?_, hcross, ?_, ?_, ?_⟩
  · rw [best?_append_opposite, hbest]
  · rintro ⟨hown, rfl⟩
    rw [hpair hown] at hq
    cases hq
  · cases side <;> rfl
  · have hnil := hb.queue_eq_nil
    have hempty : b.setQueue side price [] = b := by
      rw [← hnil, BookOf.setQueue_queue]
    rw [Book.append, BookOf.setQueue_setQueue, joined]
    split_ifs with hdone
    · rw [fillHead_filled _ ⟨id, type, remaining⟩ _ hdone, hempty]
    · rw [fillHead_partly _ ⟨id, type, remaining⟩ _ hdone, Book.append,
        BookOf.queue_setQueue, if_neg fun he => side.opposite_ne he.1.symm, hnil,
        BookOf.setQueue_comm _ _ _ _ _ side.opposite_ne.symm]
      rfl

/-- A sweeping step that meets no remainder is a matching step of the aggressor. -/
theorem matchStep_of_sweepStep (hb : Behind b side price) (hno : MeetsNoRemainder b side price)
    (h : Book.sweepStep side id price (remaining, b) = some (t, (remaining', b'))) :
    Book.matchStep side (entered b side price id remaining) =
      some (t, entered b' side price id remaining') := by
  have hpair : NoSentinelPair b side price := by
    intro hown
    by_contra hne
    have hopp := hno hne
    rw [hown] at hopp
    cases side <;> exact absurd hopp (by decide)
  rw [entered_eq_joined, entered_eq_joined, matchStep_joined .immediateOrCancel hb hpair h]
  obtain ⟨q, o, rest, -, hbest, -, rfl, -⟩ := sweepStep_eq_some_iff.mp h
  have hq := BookOf.queue_of_best? hbest
  have hsame : aggressorPrice side price q = q := by
    rw [aggressorPrice]
    split_ifs with he
    · subst he
      exact hno (by rw [hq]; simp)
    · rfl
  cases side <;> simp only [atLimit, Book.tradeOf, hsame]

/-- A run of a sweep is a run of matching. -/
theorem matchSteps_of_sweepSteps {c c' : Quantity × Book} (hb : Behind c.2 side price)
    (hno : MeetsNoRemainder c.2 side price)
    (h : Steps (Book.sweepStep side id price) c ts c') :
    Steps (Book.matchStep side) (entered c.2 side price id c.1) ts
      (entered c'.2 side price id c'.1) := by
  have hstep : ∀ (c : Quantity × Book) (t : Trade) (c' : Quantity × Book),
      Behind c.2 side price ∧ MeetsNoRemainder c.2 side price →
      Book.sweepStep side id price c = some (t, c') →
      (Behind c'.2 side price ∧ MeetsNoRemainder c'.2 side price) ∧
        Book.matchStep side (entered c.2 side price id c.1) =
          some (t, entered c'.2 side price id c'.1) := by
    rintro ⟨remaining, b⟩ t ⟨remaining', b'⟩ hI hs
    have hsub := shrinks_sweepStep hs
    exact ⟨⟨hI.1.shrinks hsub, hI.2.shrinks hsub⟩, matchStep_of_sweepStep hI.1 hI.2 hs⟩
  have hmap := h.map (g := fun t => t) hstep ⟨hb, hno⟩
  rwa [List.map_id'] at hmap

/-- Matching stops once no order behind the aggressor crosses. -/
theorem Behind.matchStep_eq_none_iff (h : Behind b side price) :
    Book.matchStep side b = none ↔ ∀ own opposing, b.queue side own ≠ [] →
      b.queue side.opposite opposing ≠ [] → ¬side.crosses own opposing := by
  rw [matchStep_own_none_iff]
  constructor
  · intro hhalt own opposing hown hopp hcross
    cases hb : b.best? side with
    | none => exact hown ((BookOf.best?_eq_none_iff _ _).mp hb own)
    | some r =>
      cases hb' : b.best? side.opposite with
      | none => exact hopp ((BookOf.best?_eq_none_iff _ _).mp hb' opposing)
      | some r' =>
        obtain ⟨own', x, xs⟩ := r
        obtain ⟨opposing', y, ys⟩ := r'
        obtain ⟨hq, hbest⟩ := (BookOf.best?_eq_some_iff _ _ _ _ _).mp hb
        have hbest' := BookOf.before_of_best? hb'
        have hcross' : side.crosses own' opposing' := by
          have hown' : side.crosses own' opposing := by
            rcases hbest own hown with rfl | hlt
            · exact hcross
            · exact Side.crosses_of_before_limit hcross hlt
          rcases hbest' opposing hopp with rfl | hlt
          · exact hown'
          · exact Side.crosses_of_before hown' hlt
        have hmarket := (hhalt _ _ _ _ _ _ hb hb' hcross').1
        have hbehind := h own' (by rw [hq]; simp)
        rw [hmarket] at hbehind
        exact side.not_before_marketPrice _ hbehind
  · intro hnone own x xs opposing y ys hown hopp hcross
    have hq := BookOf.queue_of_best? hown
    have hq' := BookOf.queue_of_best? hopp
    exact absurd hcross (hnone own opposing (by rw [hq]; simp) (by rw [hq']; simp))

end Aggressor

section UsedUp

/-- A quantity used along orders leaves nothing of those within reach of a limit. -/
def UsedUp (side : Side) (limit : Price) (qty : ℕ) (orders : List (Price × Resting)) : Prop :=
  ∀ ahead x behind, orders = ahead ++ x :: behind → side.crosses limit x.1 →
    (ahead.map fun e => e.2.quantity.toNat).sum < qty ∧
      (ahead.map fun e => e.2.quantity.toNat).sum + x.2.quantity.toNat ≤ qty

variable {qty : ℕ} {x : Price × Resting} {xs : List (Price × Resting)}

/-- A limit that reaches nothing uses up all that it can. -/
theorem usedUp_of_not_crosses (h : ∀ e ∈ xs, ¬side.crosses limit e.1) :
    UsedUp side limit qty xs := by
  rintro ahead x behind rfl hcross
  exact absurd hcross (h x (by simp))

/-- A first order within reach is used up before the rest. -/
theorem usedUp_cons (hx : side.crosses limit x.1) : UsedUp side limit qty (x :: xs) ↔
    (0 < qty ∧ x.2.quantity.toNat ≤ qty) ∧
      UsedUp side limit (qty - x.2.quantity.toNat) xs := by
  constructor
  · intro h
    have hfirst := h [] x xs rfl hx
    refine ⟨by simpa using hfirst, ?_⟩
    rintro ahead y behind rfl hy
    have hlater := h (x :: ahead) y behind rfl hy
    rw [List.map_cons, List.sum_cons] at hlater
    omega
  · rintro ⟨⟨hpos, hle⟩, h⟩ ahead y behind heq hy
    cases ahead with
    | nil =>
      cases heq
      simpa using And.intro hpos hle
    | cons z ahead =>
      cases heq
      have hlater := h ahead y behind rfl hy
      rw [List.map_cons, List.sum_cons]
      omega

/-- If the best opposing price is out of reach, so are all others. -/
theorem not_crosses_of_best? {rest : List Resting}
    (hbest : b.best? side.opposite = some (price, o, rest)) (hx : ¬side.crosses limit price) :
    ∀ p, b.queue side.opposite p ≠ [] → ¬side.crosses limit p := by
  intro p hne hcross
  rcases BookOf.before_of_best? hbest p hne with rfl | hlt
  · exact hx hcross
  · exact hx (Side.crosses_of_before hcross hlt)

/-- A sweep leaves nothing within reach of a limit exactly if it uses it up. -/
theorem usedUp_iff {c c' : Quantity × Book} (h : Steps (Book.sweepStep side id price) c ts c')
    (hdone : c'.1 = 0) : UsedUp side limit c.1.toNat (c.2.orders side.opposite) ↔
      ∀ p, c'.2.queue side.opposite p ≠ [] → ¬side.crosses limit p := by
  have hnone : ∀ b : Book, (∀ p, b.queue side.opposite p ≠ [] → ¬side.crosses limit p) →
      ∀ e ∈ b.orders side.opposite, ¬side.crosses limit e.1 := fun b hb e he =>
    hb e.1 (List.ne_nil_of_mem ((b.mem_orders _ e.1 e.2).mp he))
  induction h with
  | refl c =>
    constructor
    · intro hused p hne hcross
      obtain ⟨o, ho⟩ := List.exists_mem_of_ne_nil _ hne
      obtain ⟨ahead, behind, heq⟩ := List.append_of_mem ((c.2.mem_orders _ p o).mpr ho)
      have hlt := (hused ahead _ behind heq hcross).1
      rw [hdone] at hlt
      exact absurd hlt (Nat.not_lt_zero _)
    · exact fun hall => usedUp_of_not_crosses (hnone _ hall)
  | @head c c₁ c' t ts hstep hsteps ih =>
    obtain ⟨left, b⟩ := c
    obtain ⟨left', b₁⟩ := c₁
    have hsub := (shrinks_sweepStep hstep).trans (shrinks_sweepSteps hsteps)
    obtain ⟨q, o, rest, hz, hbest, -, -, rfl, rfl⟩ := sweepStep_eq_some_iff.mp hstep
    by_cases hx : side.crosses limit q
    · have hleft := toNat_sub_min_left left o.quantity
      have hrest := toNat_sub_min_right left o.quantity
      have hpos : left.toNat ≠ 0 := fun h => hz ((eq_zero_iff_toNat left).mpr h)
      refine Iff.trans ?_ (ih hdone)
      dsimp only
      rw [BookOf.orders_of_best? hbest, orders_fillHead hbest, usedUp_cons hx, hleft]
      by_cases hfilled : o.quantity - min left o.quantity = 0
      · rw [fillHead_filled _ _ _ hfilled, List.map_nil, List.nil_append]
        rw [eq_zero_iff_toNat] at hfilled
        exact and_iff_right ⟨by omega, by dsimp only; omega⟩
      · rw [fillHead_partly _ _ _ hfilled, List.map_singleton, List.singleton_append,
          usedUp_cons hx]
        rw [eq_zero_iff_toNat] at hfilled
        exact iff_of_false (by dsimp only; omega) (by dsimp only; omega)
    · have hall := not_crosses_of_best? hbest hx
      exact iff_of_true (usedUp_of_not_crosses (hnone b hall)) fun p hne => hall p (hsub.ne_nil hne)

end UsedUp

section Agreement

variable {qty : Quantity}

/-- A sweep leaves its own side alone. -/
theorem queue_sweepSteps {c c' : Quantity × Book} (h : Steps (Book.sweepStep side id price) c ts c')
    (p : Price) : c'.2.queue side p = c.2.queue side p := by
  refine h.invariant (I := fun x => x.2.queue side p = c.2.queue side p)
    (fun x t x' hx hstep => ?_) rfl
  obtain ⟨left, b⟩ := x
  obtain ⟨left', b'⟩ := x'
  obtain ⟨q, o, rest, -, -, -, -, -, rfl⟩ := sweepStep_eq_some_iff.mp hstep
  rw [← hx, BookOf.queue_setQueue, if_neg fun he => side.opposite_ne he.1.symm]

/-- When matching the aggressor is sweeping it: it is first on its side, meets no
market remainder, and uses up all that the orders behind it cross. -/
structure SweepsAlike (b : Book) (side : Side) (price : Price) (qty : Quantity) : Prop where
  /-- Own orders are behind the limit. -/
  behind : Behind b side price
  /-- An opposing market remainder changes no price. -/
  remainder : MeetsNoRemainder b side price
  /-- The order is used up where matching would stop. -/
  used : ∀ own, b.queue side own ≠ [] →
    UsedUp side own qty.toNat (b.orders side.opposite)

/-- An order of which something is left is entered. -/
theorem entered_of_ne_zero (hz : qty ≠ 0) :
    entered b side price id qty = b.append side price ⟨id, .immediateOrCancel, qty⟩ := if_neg hz

/-- The used up orders are those that stop the matching after a sweep. -/
theorem matchStep_eq_none_of_sweep (hb : Behind b side price)
    (h : Steps (Book.sweepStep side id price) (qty, b) ts (0, b')) :
    Book.matchStep side b' = none ↔
      ∀ own, b.queue side own ≠ [] → UsedUp side own qty.toNat (b.orders side.opposite) := by
  have hqueue : ∀ own, b'.queue side own = b.queue side own := queue_sweepSteps h
  rw [(hb.shrinks (shrinks_sweepSteps h)).matchStep_eq_none_iff]
  simp only [hqueue]
  constructor
  · intro hnone own hown
    exact (usedUp_iff h rfl).mpr fun p hp => hnone own p hown hp
  · intro hused own p hown hp
    exact (usedUp_iff h rfl).mp (hused own hown) p hp

/-- An aggressor that sweeps alike is matched as it is swept. -/
theorem SweepsAlike.matchBook_eq (hs : SweepsAlike b side price qty) (hz : qty ≠ 0)
    (h : Steps (Book.sweepStep side id price) (qty, b) ts (0, b')) :
    (b.append side price ⟨id, .immediateOrCancel, qty⟩).matchBook side = (ts, b') := by
  have hsteps := matchSteps_of_sweepSteps (c := (qty, b)) hs.behind hs.remainder h
  rw [entered_of_ne_zero hz] at hsteps
  exact ReferenceSteps.matchBook_eq hsteps ((matchStep_eq_none_of_sweep hs.behind h).mpr hs.used)

/-- The first trade tells whether the aggressor is first and meets no remainder. -/
theorem first_of_trades (hid : b.find? id = none) (hz : qty ≠ 0) {b'' : Book}
    (hsweep : Steps (Book.sweepStep side id price) (qty, b) ts (0, b'))
    (hmatch : Steps (Book.matchStep side)
      (b.append side price ⟨id, .immediateOrCancel, qty⟩) ts b'') :
    Behind b side price ∧ MeetsNoRemainder b side price := by
  rw [find?_eq_none_iff] at hid
  generalize hzero : (0 : Quantity) = left at hsweep
  cases hsweep with
  | refl => exact absurd hzero.symm hz
  | head hstep _ =>
    cases hmatch with
    | head hstep' _ =>
      obtain ⟨q, o, rest, -, hbest, -, ht, -⟩ := sweepStep_eq_some_iff.mp hstep
      obtain ⟨own, x, xs, q', y, ys, hown, hopp, -, -, ht', -⟩ := matchStep_own_iff.mp hstep'
      rw [best?_append_opposite, hbest] at hopp
      cases hopp
      obtain ⟨hx, hprice⟩ : x.orderId = id ∧ aggressorPrice side own q = q := by
        rw [ht] at ht'
        cases side with
        | buy =>
          simp only [Book.tradeOf, Trade.mk.injEq] at ht'
          exact ⟨ht'.1.symm, ht'.2.2.1.symm⟩
        | sell =>
          simp only [Book.tradeOf, Trade.mk.injEq] at ht'
          exact ⟨ht'.2.1.symm, ht'.2.2.1.symm⟩
      obtain ⟨hq, hfirst⟩ := (BookOf.best?_eq_some_iff _ _ _ _ _).mp hown
      -- the head of the best own queue is the aggressor, so that nobody is before it
      rw [Book.append, BookOf.queue_setQueue] at hq
      split_ifs at hq with he
      · obtain ⟨-, rfl⟩ := he
        have hnil : b.queue side own = [] := by
          cases hqb : b.queue side own with
          | nil => rfl
          | cons z zs =>
            rw [hqb] at hq
            cases hq
            exact absurd hx (hid side own x (by rw [hqb]; exact List.mem_cons_self))
        refine ⟨fun p hp => ?_, fun hrests => ?_⟩
        · refine (hfirst p (fun h => hp ?_)).resolve_left fun he => hp (he ▸ hnil)
          rw [Book.append, BookOf.queue_setQueue] at h
          split_ifs at h
          · simp at h
          · exact h
        · have hbefore := BookOf.before_of_best? hbest _ hrests
          have hqm : side.opposite.marketPrice = q :=
            hbefore.resolve_right (side.opposite.not_before_marketPrice q)
          rw [aggressorPrice, if_pos hqm.symm] at hprice
          rw [hprice, hqm]
      · exact absurd hx (hid side own x (by rw [hq]; exact List.mem_cons_self))

/-- A match with the trades of the sweep sweeps alike. -/
theorem sweepsAlike_of_trades (hid : b.find? id = none) (hz : qty ≠ 0)
    (h : Steps (Book.sweepStep side id price) (qty, b) ts (0, b'))
    (htrades : ((b.append side price ⟨id, .immediateOrCancel, qty⟩).matchBook side).1 = ts) :
    SweepsAlike b side price qty := by
  have hmatch := matchBook_steps side (b.append side price ⟨id, .immediateOrCancel, qty⟩)
  have hhalt := matchBook_halts side (b.append side price ⟨id, .immediateOrCancel, qty⟩)
  rw [htrades] at hmatch
  obtain ⟨hb, hno⟩ := first_of_trades hid hz h hmatch
  have hsteps := matchSteps_of_sweepSteps (c := (qty, b)) hb hno h
  rw [entered_of_ne_zero hz] at hsteps
  rw [hmatch.unique hsteps] at hhalt
  exact ⟨hb, hno, (matchStep_eq_none_of_sweep hb h).mp hhalt⟩

end Agreement

section Reach

/-- The orders of a side are not within its own reach. -/
theorem available_setQueue (b : Book) (side : Side) (p limit : Price) (os : List Resting) :
    Book.available (b.setQueue side p os) side limit = b.available side limit := by
  rw [Book.available, BookOf.orders_setQueue_of_ne _ _ _ side.opposite_ne, Book.available]

/-- An order is filled by no more than its limit reaches. -/
theorem fills_le_available (hside : ∀ side' p, ∀ o ∈ b.queue side' p, o.orderId = id →
      side' = side ∧ p = price) (h : Steps (Book.matchStep side) b ts b') :
    fillsOf ts id + b'.available side price ≤ b.available side price := by
  induction h with
  | refl b => simp
  | @head b b₁ b' t ts hstep _ ih =>
    have hsub : Shrinks b b₁ := matchStep_ids_sublist hstep
    have hrest := ih fun side' p o ho hoid => by
      obtain ⟨x, hx, hxo⟩ := hsub.mem ho
      exact hside side' p x hx (hxo.trans hoid)
    obtain ⟨own, x, xs, opposing, y, ys, hown, hopp, hcross, -, ht, hb₁⟩ :=
      matchStep_own_iff.mp hstep
    have hx := BookOf.queue_of_best? hown
    have hy := BookOf.queue_of_best? hopp
    have hmin := toNat_min x.quantity y.quantity
    have hyid : y.orderId ≠ id := fun he =>
      side.opposite_ne (hside _ opposing y (by rw [hy]; exact List.mem_cons_self) he).1
    have hfill := available_fillHead price
      (b := b.setQueue side own (Book.fillHead (min x.quantity y.quantity) x xs))
      (by rw [BookOf.best?_setQueue_of_ne _ _ _ side.opposite_ne]; exact hopp)
      (show (min x.quantity y.quantity).toNat ≤ y.quantity.toNat by omega)
    rw [← hb₁, available_setQueue] at hfill
    have hfills : fillsOf [t] id =
        if x.orderId = id then (min x.quantity y.quantity).toNat else 0 := by
      rw [ht]
      cases side <;> simp [fillsOf_cons, Book.tradeOf, hyid]
    rw [fillsOf_first_add, hfills]
    by_cases hxid : x.orderId = id
    · have hprice := (hside _ own x (by rw [hx]; exact List.mem_cons_self) hxid).2
      rw [hprice] at hcross
      rw [if_pos hcross] at hfill
      rw [if_pos hxid]
      omega
    · rw [if_neg hxid]
      omega

end Reach

end OrderbookEngine.SweepMatch
