import OrderbookEngine.EngineSimulation

/-!
# Rules for runs of public calls

Every reachable engine represents a reference engine. A property of the
additions made so far and the current book holds along a run if cancellations
keep it, changes in place keep it and every addition carries it on; the rule
also gives it at the start of every addition, in particular between the
additions of one snapshot.
-/

namespace OrderbookEngine.RunRules

open MarketTypes PoolBook FeedCalls ReferenceBook LayoutInvariant EngineSimulation

variable {n : ℕ} {s s' : Orderbook n} {e : RefEngine}

/-- The fresh reference engine. -/
def RefEngine.create (capacity : ℕ) : RefEngine := { book := BookOf.empty, capacity := capacity }

/-- The constructor represents the empty reference engine. -/
theorem represents_create (n : ℕ) : Represents (create n) (RefEngine.create (slotCount n)) where
  book := by
    refine ⟨BookOf.empty, ?_, ?_⟩
    · constructor
      · intro side price
        cases side <;> exact levelWf_nil _
      · intro side price hf
        cases side <;> exact absurd rfl hf
      · intro side price i hi
        rw [BookOf.queue_empty] at hi
        cases hi
      · intro id i hi
        cases hi
      · exact (List.nodup_finRange n).sublist (List.take_sublist _ _)
      · intro i
        rw [List.nil_append]
        refine (mem_take_finRange _ i).trans (iff_of_eq ?_)
        simp [create]
      · intro id i hi
        cases hi
    · apply BookOf.ext_queue
      intro side price
      simp [RefEngine.create]
  rules := rfl
  capacity := rfl

/-- The reference engine after a list of calls. -/
def afterRef (e : RefEngine) (calls : List Call) : RefEngine :=
  calls.foldl (fun e call => (e.perform call).2) e

/-- Runs of both engines stay in step. -/
theorem represents_after (h : Represents s e) (calls : List Call) :
    Represents (after s calls) (afterRef e calls) := by
  induction calls generalizing s e with
  | nil => exact h
  | cons call calls ih => exact ih (perform_simulates h call).2

/-- Every reachable engine represents a reference engine. -/
theorem reachable_represents (h : Reachable s) : ∃ e, Represents s e := by
  obtain ⟨calls, rfl⟩ := h
  exact ⟨_, represents_after (represents_create n) calls⟩

/-- A batch of messages is a run of calls, and counts all of them. -/
theorem processMarketDataBatch_reaches (msgs : List (MarketDataMessage × IterOrder))
    (h : Represents s e) :
    processMarketDataBatch msgs s = .ret msgs.length
      (after s (msgs.map fun m => .processMarketData m.1 m.2)) := by
  induction msgs generalizing s e with
  | nil => rfl
  | cons m msgs ih =>
    obtain ⟨msg, order⟩ := m
    obtain ⟨s', hret, hrep, -⟩ := processMarketData_simulates h msg order
    have hperform : perform s (.processMarketData msg order) = (.processed true, s') := by
      rw [perform, hret]
      rfl
    rw [processMarketDataBatch, hret, Outcome.ret_bind, ih hrep, Outcome.ret_bind, List.map_cons,
      after_cons, hperform, if_pos rfl]
    rfl

section Histories

/-- The effect of an addition on the reference engine. -/
def effect (a : Addition n) (e : RefEngine) : RefEngine :=
  leaves e (e.addOrder a.type a.id a.side a.price a.qty)

/-- Additions change only the book of the reference engine. -/
theorem addOrder_keeps (e : RefEngine) (type : OrderType) (id : OrderId) (side : Side)
    (price : Price) (qty : Quantity) :
    ∃ b, leaves e (e.addOrder type id side price qty) = { e with book := b } := by
  rw [RefEngine.addOrder]
  split
  · exact ⟨e.book, rfl⟩
  · rw [RefEngine.addValidated]
    dsimp only
    split_ifs <;> exact ⟨_, rfl⟩

/-- An addition changes only the book. -/
theorem effect_keeps (a : Addition n) (e : RefEngine) : ∃ b, effect a e = { e with book := b } :=
  addOrder_keeps e a.type a.id a.side a.price a.qty

/-- The change in place that a modification makes, if it makes one. -/
def inPlaceModify (s : Orderbook n) (mod : OrderModify) : Option OrderModify :=
  match s.orderMap.find? mod.orderId with
  | none => none
  | some idx =>
    if mod.side = (s.pool idx).side ∧ mod.price = (s.pool idx).price then some mod else none

/-- The change in place that a call makes, if it makes one. -/
def inPlaceChange (s : Orderbook n) : Call → Option OrderModify
  | .modifyOrder mod => inPlaceModify s mod
  | .processMarketData (.modifyOrder msg) _ =>
    inPlaceModify s ⟨msg.orderId, msg.side, msg.newPrice, msg.newQuantity⟩
  | _ => none

/-- Every call of a run is admissible in the state it is made in. -/
def Along (ok : Orderbook n → Call → Prop) : Orderbook n → List Call → Prop
  | _, [] => True
  | s, call :: calls => ok s call ∧ Along ok (perform s call).2 calls

/-- A condition along a run splits with the run. -/
theorem along_append {ok : Orderbook n → Call → Prop} {calls calls' : List Call} :
    Along ok s (calls ++ calls') ↔ Along ok s calls ∧ Along ok (after s calls) calls' := by
  induction calls generalizing s with
  | nil => simp [Along]
  | cons call calls ih => rw [List.cons_append, Along, Along, ih, and_assoc, after_cons]

/-- What always holds holds along every run. -/
theorem along_of_forall {ok : Orderbook n → Call → Prop} (h : ∀ s call, ok s call)
    (calls : List Call) : Along ok s calls := by
  induction calls generalizing s with
  | nil => trivial
  | cons call calls ih => exact ⟨h s call, ih⟩

/-- What holds of every call holds along the run. -/
theorem along_of_mem {K : Call → Prop} {calls : List Call} (hK : ∀ call ∈ calls, K call) :
    Along (fun _ call => K call) s calls := by
  induction calls generalizing s with
  | nil => trivial
  | cons call calls ih =>
    exact ⟨hK call List.mem_cons_self, ih fun c hc => hK c (List.mem_cons_of_mem _ hc)⟩

/-- Conditions on calls may be added to one along the run. -/
theorem Along.and_mem {ok : Orderbook n → Call → Prop} {K : Call → Prop} {calls : List Call}
    (h : Along ok s calls) (hK : ∀ call ∈ calls, K call) :
    Along (fun s call => K call ∧ ok s call) s calls := by
  induction calls generalizing s with
  | nil => trivial
  | cons call calls ih =>
    exact ⟨⟨hK call List.mem_cons_self, h.1⟩, ih h.2 fun c hc => hK c (List.mem_cons_of_mem _ hc)⟩

/-- A property of the earlier additions and the engine holds at the start of
each of some additions. -/
def Starts (P : List (Addition n) → RefEngine → Prop) :
    List (Addition n) → List (Addition n) → Prop
  | _, [] => True
  | prior, a :: adds =>
    (∃ e, Represents a.before e ∧ P prior e) ∧ Starts P (prior ++ [a]) adds

/-- The property also holds after them. -/
def Covers (P : List (Addition n) → RefEngine → Prop) (prior adds : List (Addition n))
    (e : RefEngine) : Prop :=
  Starts P prior adds ∧ P (prior ++ adds) e

/-- What keeps a property of the earlier additions and the engine along the
admissible calls. -/
structure Carries (ok : Orderbook n → Call → Prop) (P : List (Addition n) → RefEngine → Prop) :
    Prop where
  /-- Cancellations carry it. -/
  filter : ∀ as e p, P as e → P as { e with book := e.book.filter p }
  /-- Changes of quantity in place carry it. -/
  change : ∀ s call mod, ok s call → inPlaceChange s call = some mod → ∀ as e, P as e →
    P as { e with book := e.book.requantify mod.orderId mod.quantity }
  /-- New rules carry it. -/
  rules : ∀ s rules usable, ok s (.setExchangeRules rules usable) → ∀ as e, P as e →
    P as { e with rules := rules }
  /-- Additions carry it on to a longer list. -/
  add : ∀ as (a : Addition n) e, Represents a.before e → P as e → P (as ++ [a]) (effect a e)

variable {P : List (Addition n) → RefEngine → Prop} {prior adds adds' : List (Addition n)}
  {e' : RefEngine}

/-- Starts of additions split with the list. -/
theorem starts_append : Starts P prior (adds ++ adds') ↔
    Starts P prior adds ∧ Starts P (prior ++ adds) adds' := by
  induction adds generalizing prior with
  | nil => simp [Starts]
  | cons a adds ih =>
    rw [List.cons_append, Starts, Starts, ih, and_assoc, List.append_assoc, List.singleton_append]

/-- Without additions only the end is covered. -/
theorem Covers.nil (h : P prior e) : Covers P prior [] e :=
  ⟨trivial, by rwa [List.append_nil]⟩

/-- Covered lists are joined. -/
theorem Covers.append (h : Covers P prior adds e) (h' : Covers P (prior ++ adds) adds' e') :
    Covers P prior (adds ++ adds') e' :=
  ⟨starts_append.mpr ⟨h.1, h'.1⟩, by rw [← List.append_assoc]; exact h'.2⟩

/-- The start of every covered addition. -/
theorem Covers.start {as later : List (Addition n)} {a : Addition n}
    (h : Covers P prior (as ++ a :: later) e) :
    ∃ e', Represents a.before e' ∧ P (prior ++ as) e' :=
  (starts_append.mp h.1).2.1

end Histories

/-- The state of a reply is the one that is left. -/
theorem settle_snd {σ α : Type*} (reply : α → Reply) (s : σ) (x : Outcome σ α) :
    (settle reply s x).2 = leaves s x := by
  cases x <;> rfl

/-- A reply with trades comes from a normal return. -/
theorem ret_of_settle {σ : Type*} {s : σ} {x : Outcome σ Trades} {ts : Trades}
    (h : (settle .trades s x).1 = .trades ts) : ∃ s', x = .ret ts s' := by
  cases x with
  | ret ts' s' =>
    cases h
    exact ⟨s', rfl⟩
  | raise exn s' => cases h
  | diverge => cases h

/-- An addition ends, so that it leaves its own state. -/
theorem leaves_addOrder (e e' : RefEngine) (type : OrderType) (id : OrderId) (side : Side)
    (price : Price) (qty : Quantity) :
    leaves e (e'.addOrder type id side price qty) =
      leaves e' (e'.addOrder type id side price qty) := by
  rw [RefEngine.addOrder]
  split
  · rfl
  · rw [RefEngine.addValidated]
    split_ifs <;> rfl

section Rules

variable {ok : Orderbook n → Call → Prop} {P : List (Addition n) → RefEngine → Prop}
  {prior : List (Addition n)}

/-- What an addition leaves behind is what it leaves on the reference side. -/
theorem effect_represents {a : Addition n} (h : Represents a.before e) :
    Represents (leaves a.before a.outcome) (effect a e) :=
  ((addOrder_simulates h a.type a.id a.side a.price a.qty).leaves a.before e).1

/-- What is carried covers one addition. -/
theorem covers_addition (hP : Carries ok P) {a : Addition n} (h : Represents a.before e)
    (hprior : P prior e) : Covers P prior [a] (effect a e) :=
  ⟨⟨⟨e, h, hprior⟩, trivial⟩, hP.add prior a e h hprior⟩

/-- The additions of one side of a snapshot. -/
theorem covers_levelAdditions (hP : Carries ok P) (side : Side) (levels : List SnapshotLevel)
    (h : Represents s e) (hprior : P prior e) (syntheticId : OrderId) :
    Covers P prior (levelAdditions side levels syntheticId s).1
        (RefEngine.addSnapshotLevels side levels syntheticId e).2 ∧
      (levelAdditions side levels syntheticId s).2.1 =
        (RefEngine.addSnapshotLevels side levels syntheticId e).1 ∧
      Represents (levelAdditions side levels syntheticId s).2.2
        (RefEngine.addSnapshotLevels side levels syntheticId e).2 := by
  induction levels generalizing s e prior syntheticId with
  | nil => exact ⟨Covers.nil hprior, rfl, h⟩
  | cons level rest ih =>
    rw [levelAdditions, RefEngine.addSnapshotLevels]
    split_ifs with hz
    · exact ih h hprior syntheticId
    · let a : Addition n :=
        ⟨s, .goodTillCancel, syntheticId, side, level.price, level.quantity⟩
      have hcover : Covers P prior [a] (effect a e) := covers_addition hP h hprior
      obtain ⟨hrest, hid, hrep⟩ := ih (effect_represents (a := a) h) hcover.2
        (syntheticId + 1)
      exact ⟨hcover.append hrest, hid, hrep⟩

/-- What is carried covers a modification. -/
theorem covers_modifyAdditions (hP : Carries ok P) (h : Represents s e) (hprior : P prior e)
    (mod : OrderModify)
    (hchange : ∀ m, inPlaceModify s mod = some m →
      P prior { e with book := e.book.requantify m.orderId m.quantity }) :
    Covers P prior (modifyAdditions s mod) (leaves e (e.modifyOrder mod)) := by
  rw [modifyAdditions, RefEngine.modifyOrder, h.find?_book]
  rw [inPlaceModify] at hchange
  cases hm : s.orderMap.find? mod.orderId with
  | none => exact Covers.nil hprior
  | some i =>
    simp only [hm] at hchange
    simp only [Option.map_some]
    by_cases hside : mod.side = (s.pool i).side
    · by_cases hprice : mod.price = (s.pool i).price
      · rw [if_pos (Or.inr hprice), if_neg (not_not.mpr hside), if_pos hprice]
        exact Covers.nil (hchange mod (if_pos ⟨hside, hprice⟩))
      · rw [if_neg (by simp [hside, hprice]), if_neg (not_not.mpr hside), if_neg hprice]
        obtain ⟨s₁, hret, hrep, -⟩ := cancelOrder_agrees h mod.orderId
        rw [hret]
        have hcover := covers_addition hP
          (a := ⟨s₁, (s.pool i).orderType, mod.orderId, (s.pool i).side, mod.price, mod.quantity⟩)
          hrep (hP.filter _ _ _ hprior)
        rw [leaves_addOrder e]
        exact hcover
    · rw [if_pos (Or.inl hside), if_pos hside]
      exact Covers.nil hprior

/-- What is carried covers a snapshot. -/
theorem covers_snapshotAdditions (hP : Carries ok P) (h : Represents s e) (hprior : P prior e)
    (msg : BookSnapshotMessage) (order : IterOrder) :
    Covers P prior (snapshotAdditions s msg order) (e.processSnapshot msg) := by
  obtain ⟨⟨L, hw, hbook⟩, hrules, hcap⟩ := h
  obtain ⟨s₁, L₁, hret, hw₁, hv₁, hset⟩ := CancelSimulation.cancelAll_simulates hw order
  have hrep : Represents s₁ { e with book := BookOf.empty } :=
    ⟨⟨L₁, hw₁, hv₁.symm⟩, hrules.trans (rules_of_settings hset).symm, hcap⟩
  have hempty : P prior { e with book := BookOf.empty } := by
    have hfalse : e.book.filter (fun _ => false) = BookOf.empty := by
      apply BookOf.ext_queue
      intro side price
      simp
    exact hfalse ▸ hP.filter _ _ _ hprior
  rw [snapshotAdditions, hret]
  obtain ⟨hbids, hid, hrepBids⟩ := covers_levelAdditions hP .buy msg.bids hrep hempty
    firstSyntheticId
  obtain ⟨hasks, -, -⟩ := covers_levelAdditions hP .sell msg.asks hrepBids hbids.2
    (RefEngine.addSnapshotLevels .buy msg.bids firstSyntheticId
      { e with book := BookOf.empty }).1
  rw [← hid] at hasks
  exact hbids.append (by rw [RefEngine.processSnapshot, ← hid]; exact hasks)

/-- The additions of one side of a snapshot leave what the reference engine is left with. -/
theorem levelAdditions_represents (side : Side) (levels : List SnapshotLevel)
    (h : Represents s e) (syntheticId : OrderId) :
    (levelAdditions side levels syntheticId s).2.1 =
        (RefEngine.addSnapshotLevels side levels syntheticId e).1 ∧
      Represents (levelAdditions side levels syntheticId s).2.2
        (RefEngine.addSnapshotLevels side levels syntheticId e).2 := by
  have htrivial : Carries (fun (_ : Orderbook n) _ => True) fun _ _ => True :=
    ⟨fun _ _ _ _ => trivial, fun _ _ _ _ _ _ _ _ => trivial, fun _ _ _ _ _ _ _ => trivial,
      fun _ _ _ _ _ => trivial⟩
  have hcovers : Covers _ [] _ _ ∧ _ :=
    covers_levelAdditions htrivial side levels h trivial syntheticId
  exact hcovers.2

/-- Cancelling all live orders leaves the empty book. -/
theorem cleared_represents (h : Represents s e) (order : IterOrder) :
    ∃ s₁, Orderbook.cancelEach ((s.iterate order).map Prod.fst) s = .ret () s₁ ∧
      Represents s₁ { e with book := BookOf.empty } := by
  obtain ⟨⟨L, hw, hbook⟩, hrules, hcap⟩ := h
  obtain ⟨s₁, L₁, hret, hw₁, hv₁, hset⟩ := CancelSimulation.cancelAll_simulates hw order
  exact ⟨s₁, hret, ⟨L₁, hw₁, hv₁.symm⟩, hrules.trans (rules_of_settings hset).symm, hcap⟩

/-- The rule for one public call. -/
theorem covers_call (hP : Carries ok P) (h : Represents s e) (hprior : P prior e) (call : Call)
    (hok : ok s call) : Covers P prior (additions s call) (e.perform call).2 := by
  have hchange : ∀ m, inPlaceChange s call = some m →
      P prior { e with book := e.book.requantify m.orderId m.quantity } :=
    fun m hm => hP.change s call m hok hm prior e hprior
  cases call with
  | setExchangeRules rules usable => exact Covers.nil (hP.rules s rules usable hok _ _ hprior)
  | addOrder type id side price qty =>
    rw [RefEngine.perform, settle_snd]
    exact covers_addition hP (a := ⟨s, type, id, side, price, qty⟩) h hprior
  | cancelOrder id => exact Covers.nil (hP.filter _ _ _ hprior)
  | modifyOrder mod =>
    rw [RefEngine.perform, settle_snd]
    exact covers_modifyAdditions hP h hprior mod hchange
  | cancelGoodForDayOrders order => exact Covers.nil (hP.filter _ _ _ hprior)
  | processMarketData msg order =>
    cases msg with
    | newOrder msg =>
      exact covers_addition hP
        (a := ⟨s, msg.orderType, msg.orderId, msg.side, msg.price, msg.quantity⟩) h hprior
    | cancelOrder msg => exact Covers.nil (hP.filter _ _ _ hprior)
    | modifyOrder msg => exact covers_modifyAdditions hP h hprior _ hchange
    | trade => exact Covers.nil hprior
    | bookSnapshot msg => exact covers_snapshotAdditions hP h hprior msg order
  | resetMarketDataStats => exact Covers.nil hprior

/-- Every addition of a call starts from an engine that represents a reference engine. -/
theorem additions_represent (h : Represents s e) (call : Call) {a : Addition n}
    (ha : a ∈ additions s call) : ∃ e', Represents a.before e' := by
  have htrivial : Carries (fun (_ : Orderbook n) _ => True) fun _ _ => True :=
    ⟨fun _ _ _ _ => trivial, fun _ _ _ _ _ _ _ _ => trivial, fun _ _ _ _ _ _ _ => trivial,
      fun _ _ _ _ _ => trivial⟩
  have hcovers : Covers (fun _ _ => True) [] (additions s call) (e.perform call).2 :=
    covers_call htrivial h trivial call trivial
  obtain ⟨as, later, heq⟩ := List.append_of_mem ha
  rw [heq] at hcovers
  obtain ⟨e', hrep, -⟩ := hcovers.start
  exact ⟨e', hrep⟩

/-- Every addition of a run starts from a represented state. -/
theorem runAdditions_represent (h : Represents s e) (calls : List Call) {a : Addition n}
    (ha : a ∈ runAdditions s calls) : ∃ e', Represents a.before e' := by
  induction calls generalizing s e with
  | nil => cases ha
  | cons call calls ih =>
    rcases List.mem_append.mp ha with ha | ha
    · exact additions_represent h call ha
    · exact ih (perform_simulates h call).2 ha

/-- The rule for runs of admissible calls: what is carried and holds at first is
there at the start of every addition and at the end. -/
theorem covers_run (hP : Carries ok P) (h : Represents s e) (hprior : P prior e)
    (calls : List Call) (hok : Along ok s calls) :
    Covers P prior (runAdditions s calls) (afterRef e calls) := by
  induction calls generalizing s e prior with
  | nil => exact Covers.nil hprior
  | cons call calls ih =>
    have hcall := covers_call hP h hprior call hok.1
    exact hcall.append (ih (perform_simulates h call).2 hcall.2 hok.2)

end Rules

end OrderbookEngine.RunRules
