import Mathlib.Algebra.Order.BigOperators.Group.List
import Mathlib.Data.Rat.Floor
import Mathlib.Order.Bounds.Basic
import OrderbookEngine.BinaryRounding
import OrderbookEngine.FeedCounters

/-!
# Latencies of the feed

The engine reads a clock around every message it processes. The readings are
inputs of a run. Extremes, total and average that are reported are those of the
messages since the statistics were last reset. Durations are 64-bit counts of
microseconds, and the average is a double.
-/

namespace OrderbookEngine.FeedLatencies

open PoolBook FeedCalls ReferenceBook EngineSimulation RunRules Snapshots FeedCounters
open BinaryRounding

/-- A duration in microseconds. -/
abbrev Micros := Int64

variable {n : ℕ} {s : Orderbook n} {e : RefEngine} {latencies : List Micros} {latency : Micros}

/-- The part of the statistics that depends on the clock. The minimum starts at
the largest duration. -/
structure Timing where
  /-- Sum of all latencies, in wrapping arithmetic. -/
  totalProcessingTime : Micros := 0
  /-- Largest latency so far. -/
  maxLatency : Micros := 0
  /-- Smallest latency so far. -/
  minLatency : Micros := Int64.maxValue
  deriving DecidableEq

namespace Timing

/-- Count one message. -/
def record (t : Timing) (latency : Micros) : Timing where
  totalProcessingTime := t.totalProcessingTime + latency
  maxLatency := max t.maxLatency latency
  minLatency := min t.minLatency latency

/-- The average that is reported. Total and count are converted to double and
divided; a double has 53 significant bits, and its exponents do not matter here. -/
def getAverageLatencyMicros (t : Timing) (messagesProcessed : UInt64) : ℚ :=
  if messagesProcessed = 0 then 0
  else quotient 53 t.totalProcessingTime.toInt messagesProcessed.toNat

/-- The double next to a third. -/
example : ({ totalProcessingTime := 1 } : Timing).getAverageLatencyMicros 3 =
    6004799503160661 / 2 ^ 54 := by decide +kernel

end Timing

variable {t : Timing}

/-- The timing after one more call. Only a message that is processed without an
exception is timed. -/
def timed (s : Orderbook n) (t : Timing) (call : Call) (latency : Micros) : Timing :=
  match call with
  | .processMarketData msg order =>
    match processMarketData s msg order with
    | .ret true _ => t.record latency
    | _ => t
  | .resetMarketDataStats => {}
  | _ => t

/-- The timing after more calls, each with the reading of the clock. -/
def timedRun (s : Orderbook n) (t : Timing) : List (Call × Micros) → Timing
  | [] => t
  | (call, latency) :: rest => timedRun (perform s call).2 (timed s t call latency) rest

/-- Readings for the messages since the last reset, after one more call. -/
def readings (latencies : List Micros) : Call × Micros → List Micros
  | (.processMarketData _ _, latency) => latencies ++ [latency]
  | (.resetMarketDataStats, _) => []
  | _ => latencies

/-- Readings for the messages of a run since the last reset. -/
def runReadings (calls : List (Call × Micros)) : List Micros := calls.foldl readings []

/-- The exact sum of some durations. -/
def totalMicros (latencies : List Micros) : ℤ := (latencies.map Int64.toInt).sum

section Durations

/-- The larger duration as an integer. -/
theorem toInt_max (a b : Micros) : (max a b).toInt = max a.toInt b.toInt := by
  change (if a ≤ b then b else a).toInt = _
  split_ifs with h
  · rw [Int64.le_iff_toInt_le] at h
    omega
  · rw [Int64.le_iff_toInt_le] at h
    omega

/-- The smaller duration as an integer. -/
theorem toInt_min (a b : Micros) : (min a b).toInt = min a.toInt b.toInt := by
  change (if a ≤ b then a else b).toInt = _
  split_ifs with h
  · rw [Int64.le_iff_toInt_le] at h
    omega
  · rw [Int64.le_iff_toInt_le] at h
    omega

/-- The sum with one more duration. -/
theorem totalMicros_append (latencies : List Micros) (latency : Micros) :
    totalMicros (latencies ++ [latency]) = totalMicros latencies + latency.toInt := by
  rw [totalMicros, List.map_append, List.sum_append, List.map_singleton, List.sum_singleton,
    totalMicros]

/-- A sum is between its length times the bounds of its members. -/
theorem totalMicros_bounds {a b : ℤ} (h : ∀ l ∈ latencies, a ≤ l.toInt ∧ l.toInt ≤ b) :
    latencies.length * a ≤ totalMicros latencies ∧
      totalMicros latencies ≤ latencies.length * b := by
  induction latencies with
  | nil => simp [totalMicros]
  | cons l latencies ih =>
    rw [List.forall_mem_cons] at h
    obtain ⟨hlow, hhigh⟩ := ih h.2
    rw [totalMicros] at hlow hhigh ⊢
    rw [List.map_cons, List.sum_cons, List.length_cons, Nat.cast_add, Nat.cast_one, Int.add_mul,
      Int.add_mul]
    omega

/-- No duration exceeds a sum of nonnegative ones it is part of. -/
theorem le_totalMicros (h : ∀ l ∈ latencies, 0 ≤ l.toInt) (hl : latency ∈ latencies) :
    latency.toInt ≤ totalMicros latencies :=
  List.single_le_sum (by simpa using h) _ (List.mem_map_of_mem hl)

end Durations

/-- Timing and counter are those of some readings. -/
structure Times (s : Orderbook n) (t : Timing) (latencies : List Micros) : Prop where
  /-- Modulo 2^64. -/
  count : s.stats.messagesProcessed = UInt64.ofNat latencies.length
  /-- Modulo 2^64. -/
  total : t.totalProcessingTime = Int64.ofInt (totalMicros latencies)
  /-- No reading is negative. -/
  nonneg : ∀ l ∈ latencies, 0 ≤ l.toInt
  /-- Nothing has been timed, or the extremes are attained. -/
  extremes : latencies = [] ∧ t = {} ∨
    IsGreatest {l | l ∈ latencies.map Int64.toInt} t.maxLatency.toInt ∧
      IsLeast {l | l ∈ latencies.map Int64.toInt} t.minLatency.toInt

/-- Before any message there are no readings. -/
theorem Times.empty (h : s.stats.messagesProcessed = 0) : Times s {} [] :=
  ⟨h, rfl, by simp, Or.inl ⟨rfl, rfl⟩⟩

/-- One more reading. -/
theorem Times.record (h : Times s t latencies) (hlow : 0 ≤ latency.toInt)
    {s' : Orderbook n} (hcount : s'.stats.messagesProcessed = s.stats.messagesProcessed + 1) :
    Times s' (t.record latency) (latencies ++ [latency]) where
  count := by
    rw [hcount, h.count, List.length_append, List.length_singleton, UInt64.ofNat_add]
    rfl
  total := by
    rw [Timing.record, h.total, totalMicros_append, Int64.ofInt_add, Int64.ofInt_toInt]
  nonneg := by
    intro l hl
    rcases List.mem_append.mp hl with hl | hl
    · exact h.nonneg l hl
    · rw [List.mem_singleton.mp hl]
      exact hlow
  extremes := by
    refine Or.inr ?_
    have hset : {l | l ∈ (latencies ++ [latency]).map Int64.toInt} =
        insert latency.toInt {l | l ∈ latencies.map Int64.toInt} := by
      ext l
      simp [or_comm]
    rw [hset, Timing.record, toInt_max, toInt_min]
    rcases h.extremes with ⟨rfl, rfl⟩ | ⟨hmax, hmin⟩
    · have hmax : latency.toInt ≤ Int64.maxValue.toInt := by
        have hlt := latency.toInt_lt
        rw [Int64.toInt_maxValue]
        omega
      have hsingle : insert latency.toInt {l | l ∈ ([] : List Micros).map Int64.toInt} =
          {latency.toInt} := by
        ext l
        simp
      rw [hsingle, max_eq_right (show (0 : Micros).toInt ≤ latency.toInt from hlow),
        min_eq_right hmax]
      exact ⟨isGreatest_singleton, isLeast_singleton⟩
    · rw [max_comm, min_comm]
      exact ⟨hmax.insert _, hmin.insert _⟩

/-- Timing depends on the message counter alone. -/
theorem Times.congr (h : Times s t latencies) {s' : Orderbook n}
    (hcount : s'.stats.messagesProcessed = s.stats.messagesProcessed) : Times s' t latencies :=
  ⟨hcount.trans h.count, h.total, h.nonneg, h.extremes⟩

/-- A call keeps timing and counter those of the readings. -/
theorem Times.perform (h : Represents s e) (ht : Times s t latencies) (call : Call)
    (hlow : 0 ≤ latency.toInt) :
    Times (perform s call).2 (timed s t call latency) (readings latencies (call, latency)) := by
  have hstats := congrArg (fun x => x.2.1.messagesProcessed) (settings_perform h call)
  cases call with
  | processMarketData msg order =>
    obtain ⟨s', hret, -⟩ := processMarketData_simulates h msg order
    rw [timed, hret]
    exact ht.record hlow hstats
  | resetMarketDataStats => exact Times.empty hstats
  | _ => exact ht.congr hstats

/-- A run keeps timing and counter those of the readings. -/
theorem Times.run (h : Represents s e) (ht : Times s t latencies) {calls : List (Call × Micros)}
    (hclock : ∀ call ∈ calls, 0 ≤ call.2.toInt) :
    Times (after s (calls.map Prod.fst)) (timedRun s t calls) (calls.foldl readings latencies) := by
  induction calls generalizing s e t latencies with
  | nil => exact ht
  | cons call calls ih =>
    rw [List.forall_mem_cons] at hclock
    exact ih (perform_simulates h call.1).2 (ht.perform h call.1 hclock.1) hclock.2

/-- The total is exact while the sum fits into 64 bits. -/
theorem Times.toInt_total (h : Times s t latencies) (hfits : totalMicros latencies < 2 ^ 63) :
    t.totalProcessingTime.toInt = totalMicros latencies := by
  have hnonneg : 0 ≤ totalMicros latencies := List.sum_nonneg (by simpa using h.nonneg)
  rw [h.total, Int64.toInt_ofInt, show Int64.size = 2 ^ 64 from rfl]
  exact Int.bmod_eq_of_le (by omega) (by omega)

/-- The reported average of some readings is between the extremes, if count and
total are integers that a double holds. -/
theorem Times.average (h : Times s t latencies) (hne : latencies ≠ [])
    (hlen : latencies.length ≤ 2 ^ 53) (hfits : totalMicros latencies ≤ 2 ^ 53) :
    (t.minLatency.toInt : ℚ) ≤ t.getAverageLatencyMicros s.stats.messagesProcessed ∧
      t.getAverageLatencyMicros s.stats.messagesProcessed ≤ t.maxLatency.toInt := by
  obtain ⟨hmax, hmin⟩ := h.extremes.resolve_left fun hnil => hne hnil.1
  have hbounds := totalMicros_bounds fun l hl =>
    ⟨hmin.2 (List.mem_map_of_mem hl), hmax.2 (List.mem_map_of_mem hl)⟩
  obtain ⟨least, hleast, heq⟩ := List.mem_map.mp hmin.1
  obtain ⟨greatest, hgreatest, heq'⟩ := List.mem_map.mp hmax.1
  have hcount : s.stats.messagesProcessed.toNat = latencies.length := by
    rw [h.count, UInt64.toNat_ofNat_of_lt' (show latencies.length < 2 ^ 64 by omega)]
  have hpos : 0 < latencies.length := List.length_pos_iff.mpr hne
  have hzero : s.stats.messagesProcessed ≠ 0 := fun hz => by
    rw [hz, UInt64.toNat_zero] at hcount
    omega
  rw [Timing.getAverageLatencyMicros, if_neg hzero, hcount, h.toInt_total (by omega)]
  refine quotient_between (by decide) ?_ (by exact_mod_cast hpos) hfits (by exact_mod_cast hlen)
    ?_ hbounds.1 hbounds.2
  · rw [← heq]
    exact h.nonneg least hleast
  · rw [← heq']
    exact (le_totalMicros h.nonneg hgreatest).trans hfits

/-- At every point of every run the counter is the number of readings since the
last reset and the total their sum, while that fits. Largest and smallest are
attained, and the average lies between them, while a double holds total and
count. Before the first reading all have their initial values. -/
theorem latencies_accounted (poolSize : ℕ) (calls : List (Call × Micros))
    (hclock : ∀ call ∈ calls, 0 ≤ call.2.toInt) :
    let s := after (create poolSize) (calls.map Prod.fst)
    let t := timedRun (create poolSize) {} calls
    let latencies := runReadings calls
    s.stats.messagesProcessed = UInt64.ofNat latencies.length ∧
      (totalMicros latencies < 2 ^ 63 → t.totalProcessingTime.toInt = totalMicros latencies) ∧
      (latencies = [] → t = {} ∧ t.getAverageLatencyMicros s.stats.messagesProcessed = 0) ∧
      (latencies ≠ [] → IsGreatest {l | l ∈ latencies.map Int64.toInt} t.maxLatency.toInt ∧
        IsLeast {l | l ∈ latencies.map Int64.toInt} t.minLatency.toInt) ∧
      (latencies ≠ [] → latencies.length ≤ 2 ^ 53 → totalMicros latencies ≤ 2 ^ 53 →
        (t.minLatency.toInt : ℚ) ≤ t.getAverageLatencyMicros s.stats.messagesProcessed ∧
          t.getAverageLatencyMicros s.stats.messagesProcessed ≤ t.maxLatency.toInt) := by
  intro s t latencies
  have h : Times s t latencies :=
    Times.run (represents_create poolSize) (Times.empty rfl) hclock
  refine ⟨h.count, h.toInt_total, fun hnil => ?_, fun hne => ?_, h.average⟩
  · have hcount : s.stats.messagesProcessed = 0 := by
      rw [h.count, hnil]
      rfl
    rcases h.extremes with ⟨-, ht⟩ | ⟨hmax, -⟩
    · exact ⟨ht, by rw [hcount]; rfl⟩
    · exact absurd hmax.1 (by simp [hnil])
  · exact h.extremes.resolve_left fun hnil => hne hnil.1

/-- Two messages after a reset. -/
def timedMessages : List (Call × Micros) :=
  [(.processMarketData .trade inKeyOrder, 9), (.resetMarketDataStats, 0),
    (.processMarketData .trade inKeyOrder, 4), (.cancelOrder 1, 0),
    (.processMarketData .trade inKeyOrder, 7)]

/-- What is reported of the two messages. -/
theorem latencies_accounted_messages :
    (timedRun (create 2) {} timedMessages).maxLatency.toInt = 7 ∧
      (timedRun (create 2) {} timedMessages).totalProcessingTime.toInt = 11 := by
  obtain ⟨-, htotal, -, hextremes, -⟩ := latencies_accounted 2 timedMessages (by decide)
  have hreadings : runReadings timedMessages = [4, 7] := rfl
  rw [hreadings] at htotal hextremes
  obtain ⟨hmax, -⟩ := hextremes (by simp)
  have hgreatest : IsGreatest {l : ℤ | l ∈ [4, 7].map Int64.toInt} 7 := by
    refine ⟨by decide, fun l hl => ?_⟩
    rcases List.mem_pair.mp hl with rfl | rfl
    · decide
    · decide
  exact ⟨hmax.unique hgreatest, htotal (by decide)⟩

end OrderbookEngine.FeedLatencies
