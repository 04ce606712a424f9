import OrderbookEngine.Additions

/-!
# Price and time priority

Arrival order is stored nowhere but in the links of the levels. Here every order
is stamped with the position of its last accepted addition in the run; stamps
increase along every queue, so that the orders a trade takes, the first ones of
the best queues, come before all others of their side. The trades of an
addition are listed with the states they are executed in.
-/

namespace OrderbookEngine.Priority

open StepRuns MarketTypes PoolBook FeedCalls ReferenceBook LayoutInvariant ReferenceSteps
open CancelSimulation MatchSimulation FokSimulation EngineSimulation RunRules BookState Additions

variable {n : ℕ} {s s' : Orderbook n} {e : RefEngine} {b b' : Book} {L : Layout n}
  {held : List (Fin n)} {holes : Side → Price → Prop} {side aggressorSide : Side}
  {price limit : Price} {id : OrderId} {t : Trade} {ts : Trades} {a : Addition n}

section Moments

/-- The trades of the matching loop, each with the state it is executed in. -/
def matchMoments (aggressorSide : Side) : ℕ → Orderbook n → List (Orderbook n × Trade)
  | 0, _ => []
  | fuel + 1, s =>
    match s.bids.first?, s.asks.first? with
    | some (bidPrice, _), some (askPrice, _) =>
      if bidPrice < askPrice then []
      else if bidPrice = Int32.maxValue ∧ askPrice = Int32.minValue then []
      else
        let step := Orderbook.crossStep bidPrice askPrice
          (tradePrice aggressorSide bidPrice askPrice)
        let inner := trace step (n + 1) s
        match run? step (n + 1) s with
        | none => inner
        | some (_, s) =>
          inner ++ matchMoments aggressorSide fuel
            ((s.eraseIfEmpty .buy bidPrice).eraseIfEmpty .sell askPrice)
    | _, _ => []

/-- The trades of a planned execution, each with the state it is executed in. -/
def fokMoments (aggrIdx : Fin n) : List (FokMatch n) → Orderbook n → List (Orderbook n × Trade)
  | [], _ => []
  | m :: rest, s =>
    match Orderbook.executeFokMatch aggrIdx m s with
    | .ret trade s' => (s, trade) :: fokMoments aggrIdx rest s'
    | _ => []

/-- The trades of an addition, each with the state it is executed in. -/
def moments (a : Addition n) : List (Orderbook n × Trade) :=
  match accepted a with
  | none => []
  | some (type, price) =>
    match a.before.alloc with
    | .ret idx s =>
      let s := s.writeOrder idx a.id a.side price type a.qty
      if type = .fillOrKill then
        match s.collectFOK a.side price a.qty with
        | none => []
        | some found =>
          if found.foldl (fun total m => total + m.qty) 0 < a.qty then []
          else fokMoments idx found s
      else matchMoments a.side (n + 1) (s.insertIntoBook idx)
    | _ => []

/-- The moments of a loop are those of its trades. -/
theorem matchMoments_trades {fuel : ℕ}
    (h : Orderbook.matchLoop aggressorSide fuel s = some (ts, s')) :
    (matchMoments aggressorSide fuel s).map Prod.snd = ts := by
  induction fuel generalizing s ts with
  | zero => cases h
  | succ fuel ih =>
    rw [Orderbook.matchLoop] at h
    rw [matchMoments]
    cases hbid : s.bids.first? with
    | none =>
      rw [hbid] at h
      cases h
      rfl
    | some r =>
      cases hask : s.asks.first? with
      | none =>
        rw [hbid, hask] at h
        cases h
        rfl
      | some r' =>
        rw [hbid, hask] at h
        dsimp only at h ⊢
        split_ifs at h ⊢
        · cases h
          rfl
        · cases h
          rfl
        · cases hrun : run? (Orderbook.crossStep r.1 r'.1
              (tradePrice aggressorSide r.1 r'.1)) (n + 1) s with
          | none => simp [hrun] at h
          | some r₁ =>
            rw [hrun] at h
            obtain ⟨r₂, hr, heq⟩ := Option.map_eq_some_iff.mp h
            cases heq
            simp only [List.map_append, trace_events hrun, ih hr]

/-- The moments of matching are those of its trades. -/
theorem matchMoments_of_matchOrders {iocId : Option OrderId}
    (h : s.matchOrders aggressorSide iocId = .ret ts s') :
    (matchMoments aggressorSide (n + 1) s).map Prod.snd = ts := by
  rw [Orderbook.matchOrders] at h
  cases hloop : Orderbook.matchLoop aggressorSide (n + 1) s with
  | none =>
    rw [hloop] at h
    cases h
  | some r =>
    rw [matchMoments_trades (show _ = some (r.1, r.2) from hloop)]
    rw [hloop] at h
    cases iocId with
    | none =>
      cases h
      rfl
    | some id =>
      dsimp only at h
      cases hcancel : r.2.cancelOrder id with
      | ret u s₁ =>
        rw [hcancel] at h
        cases h
        rfl
      | raise x s₁ =>
        rw [hcancel] at h
        cases h
      | diverge =>
        rw [hcancel] at h
        cases h

/-- The moments of an execution are those of its trades. -/
theorem fokMoments_trades {aggr : Fin n} {found : List (FokMatch n)}
    (h : Orderbook.executeFOK aggr found s = .ret ts s') :
    (fokMoments aggr found s).map Prod.snd = ts := by
  induction found generalizing s ts with
  | nil =>
    cases h
    rfl
  | cons m found ih =>
    rw [Orderbook.executeFOK] at h
    rw [fokMoments]
    cases hm : Orderbook.executeFokMatch aggr m s with
    | ret t s₁ =>
      rw [hm, Outcome.ret_bind] at h
      cases hrest : Orderbook.executeFOK aggr found s₁ with
      | ret ts₁ s₂ =>
        rw [hrest] at h
        cases h
        simp only [List.map_cons, ih hrest]
      | raise x s₂ =>
        rw [hrest] at h
        cases h
      | diverge =>
        rw [hrest] at h
        cases h
    | raise x s₁ =>
      rw [hm] at h
      cases h
    | diverge =>
      rw [hm] at h
      cases h

/-- The moments of an addition are those of its trades. -/
theorem moments_trades (h : a.outcome = .ret ts s') : (moments a).map Prod.snd = ts := by
  rw [Addition.outcome] at h
  rw [moments]
  cases hc : checked a.before a.type a.id a.side a.price a.qty with
  | none =>
    rw [addOrder_refused hc] at h
    cases h
    rw [accepted, hc, ite_self]
    rfl
  | some r =>
    obtain ⟨type, price⟩ := r
    cases hf : a.before.freeList with
    | nil =>
      rw [addOrder_exhausted hc hf] at h
      cases h
    | cons i rest =>
      rw [addOrder_checked hc, alloc_of_cons hf] at h
      rw [accepted_eq_some_iff.mpr ⟨by simp [hf], hc⟩, alloc_of_cons hf]
      simp only [Outcome.ret_bind] at h ⊢
      by_cases hfok : type = .fillOrKill
      · rw [if_pos hfok] at h ⊢
        generalize Orderbook.collectFOK _ _ _ _ = found at h ⊢
        cases found with
        | none => cases h
        | some found =>
          dsimp only at h ⊢
          split_ifs at h ⊢
          · cases h
            rfl
          · exact fokMoments_trades h
      · rw [if_neg hfok] at h ⊢
        exact matchMoments_of_matchOrders h

end Moments

section Stamps

/-- Position of the last accepted addition of an order, latest additions first. -/
def stampBack : List (Addition n) → OrderId → ℕ
  | [], _ => 0
  | a :: earlier, id =>
    if a.id = id ∧ (accepted a).isSome then earlier.length + 1 else stampBack earlier id

/-- The moment an order last joined a price level. -/
def stamp (adds : List (Addition n)) (id : OrderId) : ℕ := stampBack adds.reverse id

/-- Only an accepted order gets a new stamp. -/
theorem stamp_append (adds : List (Addition n)) (a : Addition n) (id : OrderId) :
    stamp (adds ++ [a]) id =
      if a.id = id ∧ (accepted a).isSome then adds.length + 1 else stamp adds id := by
  rw [stamp, List.reverse_append, List.reverse_singleton, List.singleton_append, stampBack,
    List.length_reverse, stamp]

/-- A stamp is the number of an addition. -/
theorem stampBack_le (adds : List (Addition n)) (id : OrderId) :
    stampBack adds id ≤ adds.length := by
  induction adds with
  | nil => exact Nat.le_refl 0
  | cons a adds ih =>
    rw [stampBack, List.length_cons]
    split_ifs
    · exact Nat.le_refl _
    · omega

/-- No stamp is later than the last addition. -/
theorem stamp_le (adds : List (Addition n)) (id : OrderId) : stamp adds id ≤ adds.length := by
  have h := stampBack_le adds.reverse id
  rwa [List.length_reverse] at h

/-- A live order before which no other order of its side comes, by price or by
stamp at the same price. -/
def Foremost (stamps : OrderId → ℕ) (s : Orderbook n) (side : Side) (id : OrderId) : Prop :=
  ∃ price o, order? s id = some (side, price, o) ∧
    ∀ id' price' o', id' ≠ id → order? s id' = some (side, price', o') →
      ¬side.before price' price ∧ (price' = price → stamps id < stamps id')

/-- Stamps increase along every queue. -/
def Stamped (stamps : OrderId → ℕ) (b : Book) : Prop :=
  ∀ side price, ((b.queue side price).map Resting.orderId).Pairwise fun i j => stamps i < stamps j

variable {stamps stamps' : OrderId → ℕ}

/-- A book that shrinks keeps its stamps in order. -/
theorem Stamped.shrinks (h : Stamped stamps b) (hsub : Shrinks b b') : Stamped stamps b' :=
  fun side price => (h side price).sublist (hsub side price)

/-- Only the stamps of the orders in the book matter. -/
theorem Stamped.congr (h : Stamped stamps b)
    (hsame : ∀ side price, ∀ o ∈ b.queue side price, stamps' o.orderId = stamps o.orderId) :
    Stamped stamps' b := by
  intro side price
  refine (h side price).imp_of_mem fun {i j} hi hj hlt => ?_
  obtain ⟨o, ho, rfl⟩ := List.mem_map.mp hi
  obtain ⟨o', ho', rfl⟩ := List.mem_map.mp hj
  rwa [hsame _ _ o ho, hsame _ _ o' ho']

/-- An order that joins a queue comes last if its stamp is the latest. -/
theorem Stamped.append (h : Stamped stamps b) {o : Resting}
    (hlast : ∀ x ∈ b.queue side price, stamps x.orderId < stamps o.orderId) :
    Stamped stamps (b.append side price o) := by
  intro side' price'
  rw [Book.append, BookOf.queue_setQueue]
  split_ifs
  · rw [List.map_append, List.pairwise_append]
    refine ⟨h side price, by simp, ?_⟩
    intro i hi j hj
    obtain ⟨x, hx, rfl⟩ := List.mem_map.mp hi
    rw [List.mem_singleton.mp hj]
    exact hlast x hx
  · exact h side' price'

/-- The first order of the best queue in view comes before all others. -/
theorem foremost_of_best? (h : Wf s held holes L) (hst : Stamped stamps (view s L)) {o : Resting}
    {rest : List Resting} (hbest : (view s L).best? side = some (price, o, rest)) :
    Foremost stamps s side o.orderId := by
  have hd := distinct_view h
  obtain ⟨hq, hfirst⟩ := (BookOf.best?_eq_some_iff _ _ _ _ _).mp hbest
  refine ⟨price, o, ?_, ?_⟩
  · rw [← find?_view h, find?_eq_some_iff hd, hq]
    exact ⟨List.mem_cons_self, rfl⟩
  · intro id' price' o' hne ho'
    rw [← find?_view h, find?_eq_some_iff hd] at ho'
    obtain ⟨hmem, rfl⟩ := ho'
    constructor
    · intro hbefore
      rcases hfirst price' (List.ne_nil_of_mem hmem) with rfl | hafter
      · exact irrefl_of side.before _ hbefore
      · exact irrefl_of side.before _ (trans_of side.before hbefore hafter)
    · rintro rfl
      have hpair := hst side price'
      rw [hq, List.map_cons, List.pairwise_cons] at hpair
      rw [hq] at hmem
      rcases List.mem_cons.mp hmem with rfl | hrest
      · exact absurd rfl hne
      · exact hpair.1 _ (List.mem_map_of_mem hrest)

end Stamps

section Executions

variable {stamps : OrderId → ℕ}

/-- The party of a trade on a side. -/
def legOf : Side → Trade → OrderId
  | .buy => Trade.bidOrderId
  | .sell => Trade.askOrderId

/-- One pass of the inner loop trades the foremost orders of both sides. -/
theorem crossStep_foremost {bidPrice askPrice : Price} (h : Crosses bidPrice askPrice s b)
    (hst : Stamped stamps b) (hcross : ¬bidPrice < askPrice)
    (hmarket : ¬(bidPrice = Side.buy.marketPrice ∧ askPrice = Side.sell.marketPrice))
    (hstep : Orderbook.crossStep bidPrice askPrice (tradePrice aggressorSide bidPrice askPrice) s =
      some (t, s')) :
    (∀ side, Foremost stamps s side (legOf side t)) ∧
      ∃ b', Crosses bidPrice askPrice s' b' ∧ Stamped stamps b' := by
  obtain ⟨b', hmatch, h'⟩ := h.step hcross hmarket hstep
  obtain ⟨L, hw, rfl⟩ := h.wf
  obtain ⟨_, bid, _, _, ask, _, hbid, hask, -, -, rfl, -⟩ := matchStep_eq_some_iff.mp hmatch
  refine ⟨fun side => ?_, b', h', hst.shrinks (matchStep_ids_sublist hmatch)⟩
  cases side with
  | buy => exact foremost_of_best? hw hst hbid
  | sell => exact foremost_of_best? hw hst hask

/-- Both parties of every trade of the matching loop are foremost. -/
theorem matchMoments_foremost {fuel : ℕ} (h : Wf s [] noHoles L)
    (hst : Stamped stamps (view s L)) :
    ∀ m ∈ matchMoments aggressorSide fuel s, ∀ side, Foremost stamps m.1 side (legOf side m.2) := by
  induction fuel generalizing s L with
  | zero => simp [matchMoments]
  | succ fuel ih =>
    rw [matchMoments]
    cases hbid : s.bids.first? with
    | none => simp
    | some r =>
      obtain ⟨bidPrice, bid⟩ := r
      cases hask : s.asks.first? with
      | none => simp
      | some r =>
        obtain ⟨askPrice, ask⟩ := r
        dsimp only
        split_ifs with hcross hmarket
        · simp
        · simp
        have hinner : ∀ m ∈ trace (Orderbook.crossStep bidPrice askPrice
            (tradePrice aggressorSide bidPrice askPrice)) (n + 1) s,
            ∀ side, Foremost stamps m.1 side (legOf side m.2) := by
          rintro ⟨s₁, t⟩ hm
          obtain ⟨ts, s₂, hsteps, hstep⟩ := mem_trace hm
          obtain ⟨b₁, hc, hst₁⟩ := hsteps.invariant
            (I := fun x => ∃ b, Crosses bidPrice askPrice x b ∧ Stamped stamps b)
            (fun x t x' hx hs => by
              obtain ⟨b, hc, hstb⟩ := hx
              exact (crossStep_foremost hc hstb hcross hmarket hs).2)
            ⟨_, crosses_start h hbid hask, hst⟩
          exact (crossStep_foremost hc hst₁ hcross hmarket hstep).1
        obtain ⟨ts, s₁, L₁, hrun, hsteps, hw₁, -⟩ := innerLoop_simulates
          aggressorSide h hbid hask hcross hmarket
        have hv₁ := view_eraseBoth s₁ bidPrice askPrice L₁
        have hrest := ih hw₁ (by rw [hv₁]; exact hst.shrinks (shrinks_matchSteps hsteps))
        rw [hrun]
        intro m hm
        rcases List.mem_append.mp hm with hm | hm
        · exact hinner m hm
        · exact hrest m hm

/-- The resting party of every planned execution is foremost. -/
theorem fokMoments_foremost {aggr : Fin n} {remaining : Quantity} {found : List (FokMatch n)}
    (h : Plans aggr side id limit s L remaining found) (hst : Stamped stamps (view s L)) :
    ∀ m ∈ fokMoments aggr found s,
      Foremost stamps m.1 side.opposite (legOf side.opposite m.2) := by
  induction found generalizing s L remaining with
  | nil => simp [fokMoments]
  | cons m found ih =>
    obtain ⟨t, s₁, L₁, remaining', hret, hstep, h₁, -⟩ := h.pass
    obtain ⟨_, o, _, -, hbest, -, rfl, -⟩ := sweepStep_eq_some_iff.mp hstep
    have hrest := ih h₁ (hst.shrinks (shrinks_sweepStep hstep))
    have hleg : ∀ p q, legOf side.opposite (Book.tradeOf side id o.orderId p q) = o.orderId := by
      intro p q
      cases side <;> rfl
    rw [fokMoments, hret]
    intro m hm
    rcases List.mem_cons.mp hm with rfl | hm
    · rw [hleg]
      exact foremost_of_best? h.wf hst hbest
    · exact hrest m hm

end Executions

section Runs

variable {prior : List (Addition n)}

/-- The latest stamp goes to the order of an accepted addition. -/
theorem stamped_append (h : Represents a.before e) (hst : Stamped (stamp prior) e.book)
    {type : OrderType} (ha : accepted a = some (type, price)) :
    Stamped (stamp (prior ++ [a])) e.book ∧
      Stamped (stamp (prior ++ [a])) (e.book.append a.side price ⟨a.id, type, a.qty⟩) := by
  have hid := (checked_unused h (accepted_eq_some_iff.mp ha).2).2
  rw [find?_eq_none_iff] at hid
  have hsame : ∀ side price, ∀ o ∈ e.book.queue side price,
      stamp (prior ++ [a]) o.orderId = stamp prior o.orderId := by
    intro side price o ho
    rw [stamp_append, if_neg fun he => hid side price o ho he.1.symm]
  have hbook := hst.congr hsame
  refine ⟨hbook, hbook.append fun x hx => ?_⟩
  rw [hsame _ _ x hx, stamp_append, if_pos ⟨rfl, by rw [ha]; rfl⟩]
  exact Nat.lt_succ_of_le (stamp_le prior x.orderId)

/-- An addition keeps the stamps in order. -/
theorem stamped_addition (h : Represents a.before e) (hst : Stamped (stamp prior) e.book) :
    Stamped (stamp (prior ++ [a])) (effect a e).book := by
  cases ha : accepted a with
  | none =>
    rw [(effect_not_accepted h ha).1]
    refine hst.congr fun side price o _ => ?_
    rw [stamp_append, if_neg (by simp [ha])]
  | some r =>
    obtain ⟨type, price⟩ := r
    obtain ⟨hbook, happend⟩ := stamped_append h hst ha
    rw [(effect_accepted h ha).1]
    exact (place_rule (I := Stamped (stamp (prior ++ [a]))) (T := fun _ => True) hbook
      (fun _ => happend) (fun _ _ _ hb hs => ⟨hb.shrinks (matchStep_ids_sublist hs), trivial⟩)
      (fun b hb => hb.shrinks (shrinks_filter b _))
      (fun _ _ _ hsteps => ⟨hbook.shrinks (shrinks_sweepSteps hsteps), by simp⟩)).1

/-- Stamps increase along the queues of every reachable book. -/
theorem stamped_carries : Carries (fun (_ : Orderbook n) _ => True) fun adds e =>
    Stamped (stamp adds) e.book where
  filter := fun _ _ p h => h.shrinks (shrinks_filter _ p)
  change := fun _ _ _ _ _ _ _ h => h.shrinks (shrinks_requantify _ _ _)
  rules := fun _ _ _ _ _ _ h => h
  add := fun _ _ _ hrep h => stamped_addition hrep h

/-- The parties of the trades of an addition are foremost. -/
theorem moments_foremost (h : Represents a.before e) (hst : Stamped (stamp prior) e.book) :
    ∀ m ∈ moments a, ∀ side, (a.type = .fillOrKill → side = a.side.opposite) →
      Foremost (stamp (prior ++ [a])) m.1 side (legOf side m.2) := by
  rw [moments]
  cases ha : accepted a with
  | none => simp
  | some r =>
    obtain ⟨type, price⟩ := r
    obtain ⟨hf, hc⟩ := accepted_eq_some_iff.mp ha
    obtain ⟨i, rest, hcons⟩ := List.exists_cons_of_ne_nil hf
    obtain ⟨hbook, happend⟩ := stamped_append h hst ha
    have hunused := (checked_unused h hc).1
    obtain ⟨-, hlimit, hmarket⟩ := checked_type hc
    obtain ⟨⟨L, hw, heq⟩, -, -⟩ := h
    rw [heq] at hbook happend
    rw [alloc_of_cons hcons]
    intro m hm side hside
    change m ∈ (if type = .fillOrKill then
      match (written a.before i rest a.id a.side price type a.qty).collectFOK a.side price
        a.qty with
      | none => []
      | some found => if found.foldl (fun total m => total + m.qty) 0 < a.qty then []
        else fokMoments i found (written a.before i rest a.id a.side price type a.qty)
      else matchMoments a.side (n + 1)
        ((written a.before i rest a.id a.side price type a.qty).insertIntoBook i)) at hm
    split_ifs at hm with hfok
    · have htype : a.type = .fillOrKill := by
        by_cases hm : a.type = .market
        · simp [(hmarket hm).1] at hfok
        · rw [← (hlimit hm).1, hfok]
      rw [collectFOK_eq (wf_written hw hcons).1] at hm
      dsimp only at hm
      split_ifs at hm with htotal
      · cases hm
      · have hplans := plans_written a.id type hw hcons
          fun hlt => htotal ((written_total hw hcons).mpr hlt)
        have hv : view (written a.before i rest a.id a.side price type a.qty) L =
            view a.before L := (wf_written hw hcons).2
        rw [hside htype]
        exact fokMoments_foremost hplans (by rw [hv]; exact hbook) m hm
    · obtain ⟨L', hw', hv'⟩ : ∃ L', Wf ((written a.before i rest a.id a.side price type
        a.qty).insertIntoBook i) [] noHoles L' ∧ _ := wf_inserted hw hcons hunused
      exact matchMoments_foremost hw' (by rw [hv']; exact happend) m hm side

/-- In every run and at every trade, the resting parties come before all other
live orders of their sides, by price and then by the time they joined it. A
FillOrKill order is not resting; the other types are matched from the book. -/
theorem price_time_priority {calls : List Call} {later : List (Addition n)}
    (hrun : runAdditions (create n) calls = prior ++ a :: later) :
    (∀ ts s', a.outcome = .ret ts s' → (moments a).map Prod.snd = ts) ∧
      ∀ m ∈ moments a, ∀ side, (a.type = .fillOrKill → side = a.side.opposite) →
        Foremost (stamp (prior ++ [a])) m.1 side (legOf side m.2) := by
  refine ⟨fun ts s' hret => moments_trades hret, ?_⟩
  have hstart : Stamped (stamp ([] : List (Addition n))) (RefEngine.create (slotCount n)).book := by
    intro side price
    simp [RefEngine.create]
  have hcovers : Covers _ [] _ _ := covers_run stamped_carries (represents_create n) hstart calls
    (along_of_forall (fun _ _ => trivial) calls)
  rw [hrun] at hcovers
  obtain ⟨e, hrep, hst⟩ := hcovers.start
  exact moments_foremost hrep hst

/-- Two sells at one price. -/
def twoSells : List Call :=
  [.addOrder .goodTillCancel 1 .sell 100 5, .addOrder .goodTillCancel 2 .sell 100 5]

/-- A buy of the first one and a part of the second. -/
def buyBoth : Addition 4 := ⟨after (create 4) twoSells, .goodTillCancel, 3, .buy, 101, 8⟩

/-- A buy that takes two sells in their sequence. -/
theorem price_time_priority_buyBoth :
    (∀ ts s', buyBoth.outcome = .ret ts s' → (moments buyBoth).map Prod.snd = ts) ∧
      ∀ m ∈ moments buyBoth, ∀ side,
        (buyBoth.type = .fillOrKill → side = buyBoth.side.opposite) →
        Foremost (stamp (runAdditions (create 4) twoSells ++ [buyBoth])) m.1 side
          (legOf side m.2) :=
  have hrun : runAdditions (create 4) (twoSells ++ [.addOrder .goodTillCancel 3 .buy 101 8]) =
      runAdditions (create 4) twoSells ++ buyBoth :: [] := by
    rw [runAdditions_append]
    rfl
  price_time_priority hrun

end Runs

end OrderbookEngine.Priority
