import OrderbookEngine.AllOrNothing
import OrderbookEngine.TradeTape

/-!
# The place of a resting order

The links of a level say where an order stands. Until it is withdrawn or used
up, an order stays at its side and price, orders leave from before it and none
gets there, and its own lines of the tape give its quantity.
-/

namespace OrderbookEngine.QueuePlaces

open MarketTypes PoolBook FeedCalls ReferenceBook ReferenceSteps RunRules BookState Additions
open AllOrNothing TradeTape

variable {n : ℕ} {s : Orderbook n} {b b' : Book} {id i : OrderId} {side : Side} {price : Price}
  {type : OrderType} {qty : Quantity} {q : ℕ} {o : Resting} {front : List OrderId} {event : Event}
  {events : List Event}

/-- Identifiers of the orders before the given one. -/
def ahead (os : List Resting) (id : OrderId) : List OrderId :=
  (os.map Resting.orderId).takeWhile (· ≠ id)

/-- The line neither enters nor withdraws the order. -/
def LeavesIn (id : OrderId) : Event → Prop
  | .entered _ _ _ o => o.orderId ≠ id
  | .withdrawn i => i ≠ id
  | _ => True

instance (id : OrderId) (event : Event) : Decidable (LeavesIn id event) :=
  match event with
  | .entered _ _ _ o => inferInstanceAs (Decidable (o.orderId ≠ id))
  | .traded _ => inferInstanceAs (Decidable True)
  | .withdrawn i => inferInstanceAs (Decidable (i ≠ id))
  | .resized _ _ => inferInstanceAs (Decidable True)

/-- What the fill of one leg leaves of a quantity. -/
def legQuantity (id i : OrderId) (qty : Quantity) (q : ℕ) : ℕ :=
  if i = id then q - qty.toNat else q

/-- Quantity of an order after a line. -/
def ownQuantity (id : OrderId) (q : ℕ) : Event → ℕ
  | .traded t => legQuantity id t.askOrderId t.quantity (legQuantity id t.bidOrderId t.quantity q)
  | .resized i qty => if i = id then qty.toNat else q
  | _ => q

/-- If the order is live, it rests at its side and price with its type and
quantity, behind some of the given orders only; else it was used up. -/
def InPlace (b : Book) (id : OrderId) (side : Side) (price : Price) (type : OrderType)
    (front : List OrderId) (q : ℕ) : Prop :=
  match b.find? id with
  | none => q = 0
  | some (side', price', o) => side' = side ∧ price' = price ∧ o.orderType = type ∧
      o.quantity.toNat = q ∧ (ahead (b.queue side price) id).Sublist front

section Lists

variable {α : Type*} [DecidableEq α] {xs ys : List α} {x : α}

/-- What comes before an element of a sublist comes before it in the list. -/
theorem takeWhile_sublist (h : xs.Sublist ys) (hnodup : ys.Nodup) (hx : x ∈ xs) :
    (xs.takeWhile (· ≠ x)).Sublist (ys.takeWhile (· ≠ x)) := by
  induction h with
  | slnil => exact List.Sublist.refl _
  | @cons xs ys y hsub ih =>
    have hne : y ≠ x := fun he => (List.nodup_cons.mp hnodup).1 (he ▸ hsub.subset hx)
    rw [List.takeWhile_cons_of_pos (by simpa using hne)]
    exact (ih (List.nodup_cons.mp hnodup).2 hx).cons _
  | @cons_cons xs ys y hsub ih =>
    by_cases he : y = x
    · rw [List.takeWhile_cons_of_neg (by simpa using he)]
      exact List.nil_sublist _
    · rw [List.takeWhile_cons_of_pos (by simpa using he),
        List.takeWhile_cons_of_pos (by simpa using he)]
      exact (ih (List.nodup_cons.mp hnodup).2
        ((List.mem_cons.mp hx).resolve_left (Ne.symm he))).cons_cons _

/-- Later members do not matter to what is ahead of one. -/
theorem takeWhile_append_of_mem (hx : x ∈ xs) :
    (xs ++ ys).takeWhile (· ≠ x) = xs.takeWhile (· ≠ x) := by
  induction xs with
  | nil => cases hx
  | cons y xs ih =>
    rw [List.cons_append]
    by_cases he : y = x
    · rw [List.takeWhile_cons_of_neg (by simpa using he),
        List.takeWhile_cons_of_neg (by simpa using he)]
    · rw [List.takeWhile_cons_of_pos (by simpa using he),
        List.takeWhile_cons_of_pos (by simpa using he),
        ih ((List.mem_cons.mp hx).resolve_left (Ne.symm he))]

end Lists

section Steps

/-- An order that is used up is in place. -/
theorem inPlace_of_none (h : b.find? id = none) (hzero : q = 0) :
    InPlace b id side price type front q := by
  rw [InPlace, h]
  exact hzero

/-- An order that rests with nobody new ahead is in place. -/
theorem inPlace_of_some (h : b.find? id = some (side, price, o)) (htype : o.orderType = type)
    (hqty : o.quantity.toNat = q) (hfront : (ahead (b.queue side price) id).Sublist front) :
    InPlace b id side price type front q := by
  rw [InPlace, h]
  exact ⟨rfl, rfl, htype, hqty, hfront⟩

/-- An order in its place is live there, or it is used up. -/
theorem InPlace.cases (h : InPlace b id side price type front q) :
    (b.find? id = none ∧ q = 0) ∨
      ∃ o, b.find? id = some (side, price, o) ∧ o.orderType = type ∧ o.quantity.toNat = q ∧
        (ahead (b.queue side price) id).Sublist front := by
  rw [InPlace] at h
  cases hf : b.find? id with
  | none =>
    rw [hf] at h
    exact Or.inl ⟨rfl, h⟩
  | some r =>
    obtain ⟨side', price', o⟩ := r
    rw [hf] at h
    obtain ⟨rfl, rfl, htype, hqty, hfront⟩ := h
    exact Or.inr ⟨o, rfl, htype, hqty, hfront⟩

/-- Where orders only leave, no order gets before another one. -/
theorem ahead_shrinks (hd : Distinct b) (h : Shrinks b b')
    (hf : b'.find? id = some (side, price, o)) :
    (ahead (b'.queue side price) id).Sublist (ahead (b.queue side price) id) := by
  obtain ⟨ho, hid⟩ := find?_mem hf
  exact takeWhile_sublist (h side price) (hd.nodup side price)
    (hid ▸ List.mem_map_of_mem ho)

/-- Orders that come later go behind. -/
theorem inPlace_append (hd : Distinct b) {o' : Resting} (hnew : b.find? o'.orderId = none)
    (hne : o'.orderId ≠ id) {side' : Side} {price' : Price}
    (h : InPlace b id side price type front q) :
    InPlace (b.append side' price' o') id side price type front q := by
  have hfind : (b.append side' price' o').find? id = b.find? id := by
    rw [find?_append hd hnew, if_neg hne.symm]
  rcases h.cases with ⟨hf, hzero⟩ | ⟨o, hf, htype, hqty, hfront⟩
  · exact inPlace_of_none (hfind.trans hf) hzero
  · refine inPlace_of_some (hfind.trans hf) htype hqty ?_
    rw [Book.append, BookOf.queue_setQueue]
    split_ifs with he
    · obtain ⟨ho, hid⟩ := find?_mem hf
      rw [← he.1, ← he.2, ahead, List.map_append,
        takeWhile_append_of_mem (hid ▸ List.mem_map_of_mem ho)]
      exact hfront
    · exact hfront

/-- Fills take quantities, not places. -/
theorem inPlace_reduce (hd : Distinct b) (hfits : Fits b i qty)
    (h : InPlace b id side price type front q) :
    InPlace (reduce b i qty) id side price type front (legQuantity id i qty q) := by
  have hfind : (reduce b i qty).find? id =
      (b.find? id).bind fun r => (reduced i qty r.2.2).map fun o => (r.1, r.2.1, o) :=
    find?_reduce hd id
  rw [legQuantity]
  rcases h.cases with ⟨hf, hzero⟩ | ⟨o, hf, htype, hqty, hfront⟩
  · rw [hf, Option.bind_none] at hfind
    refine inPlace_of_none hfind ?_
    split_ifs <;> omega
  · rw [hf, Option.bind_some] at hfind
    have hid := (find?_mem hf).2
    have hstay : ∀ o', (reduce b i qty).find? id = some (side, price, o') →
        (ahead (BookOf.queue (reduce b i qty) side price) id).Sublist front := fun o' hf' =>
      (ahead_shrinks hd (shrinks_reduce b i qty) hf').trans hfront
    by_cases hi : i = id
    · subst hi
      obtain ⟨r, hr, hle⟩ := hfits
      rw [hf] at hr
      cases hr
      have hsub : (o.quantity - qty).toNat = o.quantity.toNat - qty.toNat :=
        UInt32.toNat_sub_of_le _ _ (UInt32.le_iff_toNat_le.mpr hle)
      rw [if_pos rfl]
      rw [reduced, if_neg (not_not.mpr hid)] at hfind
      split_ifs at hfind with hz
      · refine inPlace_of_none hfind ?_
        rw [eq_zero_iff_toNat, hsub] at hz
        omega
      · exact inPlace_of_some hfind htype (by dsimp only; omega) (hstay _ hfind)
    · rw [if_neg hi]
      rw [reduced_of_ne (fun he => hi (he.symm.trans hid))] at hfind
      exact inPlace_of_some hfind htype hqty (hstay _ hfind)

/-- Cancelling another order overtakes nobody. -/
theorem inPlace_cancel (hd : Distinct b) (hne : i ≠ id)
    (h : InPlace b id side price type front q) :
    InPlace (b.cancel i) id side price type front q := by
  have hfind : (b.cancel i).find? id = b.find? id := by
    rw [find?_cancel hd, if_neg hne.symm]
  rcases h.cases with ⟨hf, hzero⟩ | ⟨o, hf, htype, hqty, hfront⟩
  · exact inPlace_of_none (hfind.trans hf) hzero
  · have hf' := hfind.trans hf
    exact inPlace_of_some hf' htype hqty
      ((ahead_shrinks hd (shrinks_filter b _) hf').trans hfront)

/-- Changing a quantity overtakes nobody. -/
theorem inPlace_requantify (hd : Distinct b) (hlive : (b.find? i).isSome)
    (h : InPlace b id side price type front q) :
    InPlace (b.requantify i qty) id side price type front (if i = id then qty.toNat else q) := by
  have hfind := find?_requantify hd i qty id
  rcases h.cases with ⟨hf, hzero⟩ | ⟨o, hf, htype, hqty, hfront⟩
  · rw [hf, Option.map_none] at hfind
    refine inPlace_of_none hfind ?_
    rw [if_neg]
    · exact hzero
    · rintro rfl
      rw [hf] at hlive
      cases hlive
  · rw [hf, Option.map_some, (find?_mem hf).2] at hfind
    have hstay := (ahead_shrinks hd (shrinks_requantify b i qty) hfind).trans hfront
    by_cases hi : i = id
    · rw [if_pos hi]
      rw [if_pos hi.symm] at hfind
      exact inPlace_of_some hfind htype rfl hstay
    · rw [if_neg hi]
      rw [if_neg (Ne.symm hi)] at hfind
      exact inPlace_of_some hfind htype hqty hstay

/-- A line that leaves an order in keeps it in its place. -/
theorem inPlace_applyEvent (hd : Distinct b) (hsound : Sound b event) (hin : LeavesIn id event)
    (h : InPlace b id side price type front q) :
    InPlace (applyEvent b event) id side price type front (ownQuantity id q event) := by
  cases event with
  | entered requested side' price' o => exact inPlace_append hd hsound.1 hin h
  | traded t => exact inPlace_reduce (distinct_reduce hd) hsound.2 (inPlace_reduce hd hsound.1 h)
  | withdrawn i => exact inPlace_cancel hd hin h
  | resized i qty => exact inPlace_requantify hd hsound h

/-- An order stays in place along a tape that leaves it in. -/
theorem inPlace_records (hd : Distinct b) (hrecords : Records b events b')
    (hin : ∀ event ∈ events, LeavesIn id event) (h : InPlace b id side price type front q) :
    InPlace b' id side price type front (events.foldl (ownQuantity id) q) := by
  induction hrecords generalizing q with
  | nil b => exact h
  | @cons b b' event events hsound _ ih =>
    rw [List.foldl_cons]
    exact ih (distinct_applyEvent hd hsound) (fun x hx => hin x (List.mem_cons_of_mem _ hx))
      (inPlace_applyEvent hd hsound (hin event List.mem_cons_self) h)

end Steps

/-- From every reachable state and over all further calls that neither withdraw
an order nor enter it anew, the order is used up, or rests at its side and price
with its type, behind orders only that were before it. Its quantity is what its
own trades and changes give. -/
theorem keeps_place (h : Reachable s) (calls : List Call)
    (hlive : order? s id = some (side, price, o))
    (hin : ∀ event ∈ tape s calls, LeavesIn id event) :
    match order? (after s calls) id with
    | none => (tape s calls).foldl (ownQuantity id) o.quantity.toNat = 0
    | some (side', price', o') => side' = side ∧ price' = price ∧ o'.orderType = o.orderType ∧
        o'.quantity.toNat = (tape s calls).foldl (ownQuantity id) o.quantity.toNat ∧
        (ahead (listing (after s calls) side price) id).Sublist
          (ahead (listing s side price) id) := by
  obtain ⟨e, hrep⟩ := reachable_represents h
  have hafter := represents_after hrep calls
  rw [← order?_represents hrep] at hlive
  rw [← order?_represents hafter, listing_eq hrep, listing_eq hafter]
  exact inPlace_records (distinct_represents hrep) (records_tape hrep calls) hin
    (inPlace_of_some hlive rfl rfl (List.Sublist.refl _))

/-- The first ask is hit and withdrawn, the second one resized and hit. -/
def secondAskCalls : List Call :=
  [.addOrder .goodTillCancel 4 .buy 100 2, .addOrder .goodTillCancel 5 .sell 100 9,
    .modifyOrder ⟨2, .sell, 100, 6⟩, .cancelOrder 1, .addOrder .market 6 .buy 0 2]

/-- The second of three asks, after the first has left. -/
theorem keeps_place_secondAsk :
    match order? (after (after (create 5) threeAsks) secondAskCalls) 2 with
    | none => (tape (after (create 5) threeAsks) secondAskCalls).foldl (ownQuantity 2) 7 = 0
    | some (side', price', o') => side' = .sell ∧ price' = 100 ∧
        o'.orderType = .goodTillCancel ∧
        o'.quantity.toNat =
          (tape (after (create 5) threeAsks) secondAskCalls).foldl (ownQuantity 2) 7 ∧
        (ahead (listing (after (after (create 5) threeAsks) secondAskCalls) .sell 100) 2).Sublist
          (ahead (listing (after (create 5) threeAsks) .sell 100) 2) :=
  keeps_place (s := after (create 5) threeAsks) (o := ⟨2, .goodTillCancel, 7⟩) ⟨threeAsks, rfl⟩
    secondAskCalls (show order? _ 2 = some (.sell, 100, _) by decide +kernel) (by decide +kernel)

end OrderbookEngine.QueuePlaces
