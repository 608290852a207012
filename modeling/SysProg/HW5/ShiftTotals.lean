import SysProg.HW5.ShiftConservation
import Mathlib.Algebra.Order.BigOperators.Group.List

/-!
# When the summary adds up

The numbers of the summary are sums that `int` and `long` may not hold. They
account for the orders in every run of a shift exactly when the delivery times
of all orders fit a `long` and the number of orders fits an `int`. One courier
alone never shows the two halves of a sum that wraps: with one order less than a
multiple of `2 ^ 32` its counts add up as well.
-/

open scoped BigOperators
namespace SysProg.HW5
open SysProg.Lib
variable {n : ℕ}

structure Accounted (orders : List Order) (s : State n) : Prop where
  split : deliveredOrders s.hist.delivered + (s.hist.cancelled : Multiset Order) =
    (orders : Multiset Order)
  total : (writeSummaryFile s).completed + (writeSummaryFile s).cancelled =
    (writeSummaryFile s).totalOrders
  idle : s.activeDeliveryCount = 0
  counts : ((writeSummaryFile s).couriers.map CourierStats.deliveredOrderCount).sum =
    (writeSummaryFile s).completed
  times : ((writeSummaryFile s).couriers.map CourierStats.deliveredTimeMs).sum =
    (writeSummaryFile s).totalTime
  time : (writeSummaryFile s).totalTime =
    500 * ((deliveredOrders s.hist.delivered).map Order.durationUnits).sum

def TotalsFit (n : ℕ) (orders : List Order) : Prop :=
  500 * (orders.map Order.durationUnits).sum < 2 ^ 63 ∧
    (orders.length < 2 ^ 31 ∨ n = 1 ∧ 2 ^ 32 ∣ orders.length + 1)

/-! ### Totals that fit -/

theorem sum_delivered {N : Type*} [AddCommMonoid N] (f : Order → N)
    (delivered : Fin n → List Order) :
    ∑ c, ((delivered c).map f).sum = ((deliveredOrders delivered).map f).sum := by
  rw [deliveredOrders, ← Multiset.coe_mapAddMonoidHom, ← Multiset.coe_sumAddMonoidHom, map_sum,
    map_sum]
  rfl

theorem sum_delivered_length (delivered : Fin n → List Order) :
    ∑ c, (delivered c).length = (deliveredOrders delivered).card := by
  simp [deliveredOrders]

theorem durations_nonneg {ds : Multiset Order} (h : ∀ o ∈ ds, 1 ≤ o.durationUnits) :
    0 ≤ (ds.map Order.durationUnits).sum := by
  apply Multiset.sum_nonneg
  intro x hx
  obtain ⟨o, ho, rfl⟩ := Multiset.mem_map.mp hx
  exact zero_le_one.trans (h o ho)

section Totals
variable {orders : List Order} {s : State n} (hs : Settled orders s)

include hs in
theorem Settled.card : (deliveredOrders s.hist.delivered).card + s.hist.cancelled.length =
    orders.length := by
  simpa using congrArg Multiset.card hs.split

include hs in
theorem Settled.durations (hpos : ∀ o ∈ orders, 1 ≤ o.durationUnits) :
    0 ≤ ((deliveredOrders s.hist.delivered).map Order.durationUnits).sum ∧
      ((deliveredOrders s.hist.delivered).map Order.durationUnits).sum ≤
        (orders.map Order.durationUnits).sum ∧
      ∀ c, 0 ≤ ((s.hist.delivered c).map Order.durationUnits).sum := by
  have hall : ∀ o ∈ deliveredOrders s.hist.delivered + (s.hist.cancelled : Multiset Order),
      1 ≤ o.durationUnits := by
    rw [hs.split]
    exact hpos
  have hcancelled : 0 ≤ ((s.hist.cancelled : Multiset Order).map Order.durationUnits).sum :=
    durations_nonneg fun o ho => hall o (Multiset.mem_add.mpr (.inr ho))
  have hsum := congrArg (fun m => (Multiset.map Order.durationUnits m).sum) hs.split
  simp only [Multiset.map_add, Multiset.sum_add] at hsum
  rw [Multiset.map_coe Order.durationUnits orders, Multiset.sum_coe] at hsum
  refine ⟨durations_nonneg fun o ho => hall o (Multiset.mem_add.mpr (.inl ho)), by omega, ?_⟩
  intro c
  have hpart : (s.hist.delivered c : Multiset Order) ≤ deliveredOrders s.hist.delivered :=
    Finset.single_le_sum (fun _ _ => Multiset.zero_le _) (Finset.mem_univ c)
  have hc := durations_nonneg fun o ho =>
    hall o (Multiset.mem_add.mpr (.inl (Multiset.mem_of_le hpart ho)))
  simpa using hc

include hs in
theorem Settled.times_fit (hpos : ∀ o ∈ orders, 1 ≤ o.durationUnits)
    (hfit : 500 * (orders.map Order.durationUnits).sum < 2 ^ 63) :
    s.totalCompletedDeliveryTime =
        500 * ((deliveredOrders s.hist.delivered).map Order.durationUnits).sum ∧
      ((writeSummaryFile s).couriers.map CourierStats.deliveredTimeMs).sum =
        s.totalCompletedDeliveryTime := by
  obtain ⟨hnonneg, hle, hparts⟩ := hs.durations hpos
  have hsum := sum_delivered Order.durationUnits s.hist.delivered
  have hwhole : s.totalCompletedDeliveryTime =
      500 * ((deliveredOrders s.hist.delivered).map Order.durationUnits).sum := by
    rw [hs.time]
    exact int64_eq_self_iff.mpr ⟨by omega, by omega⟩
  have hpart : ∀ c, int64 (500 * ((s.hist.delivered c).map Order.durationUnits).sum) =
      500 * ((s.hist.delivered c).map Order.durationUnits).sum := by
    intro c
    have hsingle := Finset.single_le_sum (fun d _ => hparts d) (Finset.mem_univ c)
    have hc := hparts c
    exact int64_eq_self_iff.mpr ⟨by omega, by omega⟩
  refine ⟨hwhole, ?_⟩
  rw [hs.times, hwhole, Finset.sum_congr rfl fun c _ => hpart c, ← Finset.mul_sum, hsum]

include hs in
theorem Settled.counts_fit (hfew : orders.length < 2 ^ 31) :
    s.totalCompletedOrders + s.totalCancelledOrders = s.validOrderCount ∧
      ((writeSummaryFile s).couriers.map CourierStats.deliveredOrderCount).sum =
        s.totalCompletedOrders := by
  have hcard := hs.card
  have hsum := sum_delivered_length s.hist.delivered
  have hpart : ∀ c, int32 (s.hist.delivered c).length = (s.hist.delivered c).length := by
    intro c
    have hsingle := Finset.single_le_sum (f := fun d => (s.hist.delivered d).length)
      (fun _ _ => Nat.zero_le _) (Finset.mem_univ c)
    exact int32_of_lt (by omega)
  constructor
  · rw [hs.completed, hs.cancelled, hs.total, int32_of_lt (by omega), int32_of_lt (by omega),
      int32_of_lt hfew, ← hcard]
    push_cast
    rfl
  · rw [hs.counts, hs.completed, int32_of_lt (by omega), Finset.sum_congr rfl fun c _ => hpart c,
      ← hsum]
    push_cast
    rfl

theorem int32_complement {k m : ℤ} (h : (k + m + 1) % 4294967296 = 0) :
    int32 k + int32 m = int32 (k + m) := by
  have hk := int32_emod k
  have hm := int32_emod m
  have hkm := int32_emod (k + m)
  have hk' := int32_range k
  have hm' := int32_range m
  have hkm' := int32_range (k + m)
  omega

end Totals

theorem accounted_of_totalsFit {orders : List Order} (hpos : ∀ o ∈ orders, 1 ≤ o.durationUnits)
    (hfit : TotalsFit n orders) {s : State n} (h : (machine n orders).Reachable s)
    (hpc : s.main = .summary) : Accounted orders s := by
  have hs := settled_of_joined h (.inl hpc)
  obtain ⟨htime, htimes⟩ := hs.times_fit hpos hfit.1
  have hcounted : s.totalCompletedOrders + s.totalCancelledOrders = s.validOrderCount ∧
      ((writeSummaryFile s).couriers.map CourierStats.deliveredOrderCount).sum =
        s.totalCompletedOrders := by
    rcases hfit.2 with hfew | ⟨rfl, hturn⟩
    · exact hs.counts_fit hfew
    · have hcard := hs.card
      constructor
      · rw [hs.completed, hs.cancelled, hs.total, int32_complement, ← hcard, Nat.cast_add]
        omega
      · rw [hs.counts, hs.completed, Fin.sum_univ_one]
        simp [deliveredOrders]
  exact ⟨hs.split, hcounted.1, hs.idle, hcounted.2, htimes, htime⟩

/-! ### Runs to the summary -/

structure Resting (orders : List Order) (stopping : Bool) (s : State n) : Prop where
  reachable : (machine n orders).Reachable s
  main : s.main = .waitLoop
  courier : s.courier = fun _ => .ready
  stopping : s.shiftStopping = stopping
  active : s.activeDeliveryCount = 0
  all : s.numCouriers = n

theorem exists_resting (orders : List Order) :
    ∃ s : State n, Resting orders false s ∧ s.queue.orders.length = orders.length ∧
      s.hist = ⟨[], [], fun _ => []⟩ := by
  have hcreate : ∀ i ≤ n, (machine n orders).Reachable { initial n orders with
      courier := fun c => if (c : ℕ) < i then .ready else .notCreated
      main := .creating i } := by
    intro i hi
    induction i with
    | zero =>
      simpa [machine, initial] using Machine.Reachable.start (M := machine n orders)
    | succ i ih =>
      refine (ih (by omega)).next (a := .main) ?_
      simp only [machine, step, mainStep, dif_pos (Nat.lt_of_succ_le hi)]
      congr 2
      funext c
      by_cases hc : c = ⟨i, hi⟩
      · subst hc
        simp
      · have hne : (c : ℕ) ≠ i := fun heq => hc (Fin.ext heq)
        rw [Function.update_of_ne hc]
        split_ifs <;> first | rfl | omega
  have hcreated : (machine n orders).Reachable { initial n orders with
      courier := fun _ => .ready
      main := .waitLoop } := by
    refine (hcreate n le_rfl).next (a := .main) ?_
    simp [machine, step, mainStep]
  exact ⟨_, ⟨hcreated, rfl, rfl, rfl, rfl, rfl⟩, (loadOrders_perm orders).length_eq, rfl⟩

def delivered (s : State n) (c : Fin n) (order : Order) (rest : List Order) : State n :=
  { s with
    queue := ⟨rest, s.queue.size - 1⟩
    activeDeliveryCount := s.activeDeliveryCount + 1
    totalCompletedOrders := int32 (s.totalCompletedOrders + 1)
    totalCompletedDeliveryTime :=
      int64 (s.totalCompletedDeliveryTime + order.durationUnits * deliveryUnitMs)
    courierStats := Function.update s.courierStats c ((s.courierStats c).add order)
    courier := Function.update s.courier c (.finishing order)
    hist := { s.hist with
      started := s.hist.started ++ [order]
      delivered := Function.update s.hist.delivered c (s.hist.delivered c ++ [order]) } }

theorem Resting.deliver {orders rest : List Order} {order : Order} {s : State n}
    (h : Resting orders false s) (hq : s.queue.orders = order :: rest) (c : Fin n) :
    ∃ s', Resting orders (decide (rest = [])) s' ∧ s'.queue.orders = rest ∧
      s'.hist.cancelled = s.hist.cancelled ∧ s'.hist.delivered =
        Function.update s.hist.delivered c (s.hist.delivered c ++ [order]) := by
  obtain ⟨hreach, hmain, hcourier, hstop, hactive, hall⟩ := h
  have hsize : s.queue.size = rest.length + 1 := by
    rw [(conserved_reachable hreach).size, hq, List.length_cons]
  have hrun : (machine n orders).run s (List.replicate 5 (.courier c)) =
      some (courierLeave (delivered s c order rest) c) := by
    simp [List.replicate, Machine.run, machine, step, courierStep, courierTake, hcourier, hsize,
      hstop, queuePop, hq, delivered]
  have hready : Function.update (delivered s c order rest).courier c .ready = fun _ => .ready := by
    funext d
    simp [delivered, hcourier, Function.update_apply]
  have hwake : wakeAll (delivered s c order rest).courier = (delivered s c order rest).courier := by
    funext d
    by_cases hd : d = c
    · subst hd
      simp [wakeAll, delivered]
    · simp [wakeAll, delivered, hcourier, hd]
  have hactive' : (delivered s c order rest).activeDeliveryCount - 1 = 0 := by
    simp [delivered, hactive]
  have hsize' : (delivered s c order rest).queue.size = rest.length := by
    simp [delivered, hsize]
  have hstop' : (delivered s c order rest).shiftStopping = false := hstop
  have hleave : courierLeave (delivered s c order rest) c = { delivered s c order rest with
      activeDeliveryCount := 0
      shiftStopping := decide (rest = [])
      courier := fun _ => .ready } := by
    simp only [courierLeave, hwake, hready, hactive', hsize', hstop', List.length_eq_zero_iff]
    by_cases hlast : rest = []
    · simp [hlast]
    · simp [hlast, List.length_pos_iff]
  rw [hleave] at hrun
  exact ⟨_, ⟨hreach.run hrun, hmain, rfl, rfl, rfl, hall⟩, rfl, rfl, rfl⟩

theorem Resting.deliverMany {orders : List Order} {s : State n} (h : Resting orders false s)
    (c : Fin n) (k : ℕ) (hk : k < s.queue.orders.length) :
    ∃ s', Resting orders false s' ∧ s'.queue.orders.length + k = s.queue.orders.length ∧
      (s'.hist.delivered c).length = (s.hist.delivered c).length + k ∧
      ∀ d, d ≠ c → s'.hist.delivered d = s.hist.delivered d := by
  induction k with
  | zero => exact ⟨s, h, rfl, rfl, fun _ _ => rfl⟩
  | succ k ih =>
    obtain ⟨s', h', hleft, hmine, hothers⟩ := ih (by omega)
    obtain ⟨order, rest, hq⟩ := List.exists_cons_of_length_pos
        (by omega : 0 < s'.queue.orders.length)
    have hrest : rest ≠ [] := by
      rintro rfl
      rw [hq, List.length_singleton] at hleft
      omega
    obtain ⟨s'', h'', hq', -, hdelivered⟩ := h'.deliver hq c
    rw [decide_eq_false hrest] at h''
    refine ⟨s'', h'', ?_, ?_, ?_⟩
    · rw [hq, List.length_cons] at hleft
      rw [hq']
      omega
    · rw [hdelivered, Function.update_self, List.length_append, List.length_singleton, hmine]
      omega
    · intro d hd
      rw [hdelivered, Function.update_of_ne hd, hothers d hd]

theorem Resting.cancel {orders : List Order} {s : State n} (h : Resting orders false s) :
    ∃ s', Resting orders true s' ∧ s'.hist.delivered = s.hist.delivered := by
  obtain ⟨hreach, hmain, hcourier, hstop, hactive, hall⟩ := h
  have hwake : wakeAll (fun _ : Fin n => CourierPc.ready) = fun _ => .ready := rfl
  have hrun : (machine n orders).run s [.sigint, .main, .main] =
      some { cancelPendingOrders { s with sigintFlag := true, main := .cancelling } with
        main := .waitLoop } := by
    simp [Machine.run, machine, step, mainStep, hmain, hstop]
  refine ⟨_, ⟨hreach.run hrun, rfl, ?_, ?_, ?_, ?_⟩, ?_⟩
  all_goals simp [cancelPendingOrders, hstop, hwake, hcourier, hactive, hall]

theorem Resting.finish {orders : List Order} {s : State n} (h : Resting orders true s) :
    ∃ s', (machine n orders).Reachable s' ∧ s'.main = .summary ∧ s'.hist = s.hist := by
  obtain ⟨hreach, hmain, hcourier, hstop, hactive, hall⟩ := h
  have hexit : ∀ i ≤ n, (machine n orders).Reachable { s with
      courier := fun c => if (c : ℕ) < i then .exited else .ready } := by
    intro i hi
    induction i with
    | zero =>
      have hnone : (fun c : Fin n => if (c : ℕ) < 0 then CourierPc.exited else .ready) =
          s.courier := by
        rw [hcourier]
        rfl
      rw [hnone]
      exact hreach
    | succ i ih =>
      refine (ih (by omega)).next (a := .courier ⟨i, hi⟩) ?_
      simp only [machine, step, courierStep, courierTake, hstop, lt_irrefl, if_false, if_true,
        Bool.true_eq_false, false_and, and_false]
      congr 2
      funext c
      by_cases hc : c = ⟨i, hi⟩
      · subst hc
        simp
      · have hne : (c : ℕ) ≠ i := fun heq => hc (Fin.ext heq)
        rw [Function.update_of_ne hc]
        split_ifs <;> first | rfl | omega
  have hjoin : ∀ i ≤ n, (machine n orders).Reachable { s with
      courier := fun _ => .exited
      main := .joining i } := by
    intro i hi
    induction i with
    | zero =>
      refine (hexit n le_rfl).next (a := .main) ?_
      simp [machine, step, mainStep, hmain, hstop, hactive]
    | succ i ih =>
      refine (ih (by omega)).next (a := .main) ?_
      simp [machine, step, mainStep, hall, Nat.lt_of_succ_le hi]
  have hjoined : (machine n orders).Reachable { s with
      courier := fun _ => .exited
      main := .summary } := by
    refine (hjoin n le_rfl).next (a := .main) ?_
    simp [machine, step, mainStep]
  exact ⟨_, hjoined, rfl, rfl⟩

theorem Resting.summary {orders : List Order} {s : State n} (h : Resting orders false s) :
    ∃ s', (machine n orders).Reachable s' ∧ s'.main = .summary ∧
      s'.hist.delivered = s.hist.delivered := by
  obtain ⟨cancelled, hcancelled, hsame⟩ := h.cancel
  obtain ⟨s', hreach, hpc, hhist⟩ := hcancelled.finish
  exact ⟨s', hreach, hpc, by rw [hhist, hsame]⟩

/-- Two couriers may deliver any numbers of orders before a signal cancels the rest. -/
theorem exists_summary_two {orders : List Order} {c d : Fin n} (hcd : c ≠ d) {j k : ℕ}
    (h : j + k < orders.length) : ∃ s : State n, (machine n orders).Reachable s ∧
      s.main = .summary ∧ (s.hist.delivered c).length = j ∧ (s.hist.delivered d).length = k ∧
      ∀ e, e ≠ c → e ≠ d → s.hist.delivered e = [] := by
  obtain ⟨s₀, h₀, hlen, hhist⟩ := exists_resting (n := n) orders
  obtain ⟨s₁, h₁, hleft, hfirst, hothers⟩ := h₀.deliverMany c j (by omega)
  obtain ⟨s₂, h₂, -, hsecond, hothers'⟩ := h₁.deliverMany d k (by omega)
  obtain ⟨s, hreach, hpc, hsame⟩ := h₂.summary
  simp only [hhist] at hfirst hothers
  refine ⟨s, hreach, hpc, ?_, ?_, ?_⟩
  · rw [hsame, hothers' c hcd, hfirst, List.length_nil, Nat.zero_add]
  · rw [hsame, hsecond, hothers d hcd.symm, List.length_nil, Nat.zero_add]
  · intro e hc hd
    rw [hsame, hothers' e hd, hothers e hc]

theorem exists_summary_one {orders : List Order} (hn : 0 < n) {k : ℕ} (h : k < orders.length) :
    ∃ s : State n, (machine n orders).Reachable s ∧ s.main = .summary ∧
      (deliveredOrders s.hist.delivered).card = k := by
  obtain ⟨s₀, h₀, hlen, hhist⟩ := exists_resting (n := n) orders
  obtain ⟨s₁, h₁, hleft, hmine, hothers⟩ := h₀.deliverMany ⟨0, hn⟩ k (by omega)
  obtain ⟨s, hreach, hpc, hsame⟩ := h₁.summary
  simp only [hhist] at hmine hothers
  refine ⟨s, hreach, hpc, ?_⟩
  rw [hsame, ← sum_delivered_length, Finset.sum_eq_single ⟨0, hn⟩]
  · rw [hmine, List.length_nil, Nat.zero_add]
  · intro d _ hd
    rw [hothers d hd, List.length_nil]
  · exact fun h => absurd (Finset.mem_univ _) h

/-- One courier may deliver everything. -/
theorem exists_summary_all {orders : List Order} (hn : 0 < n) (h : orders ≠ []) :
    ∃ s : State n, (machine n orders).Reachable s ∧ s.main = .summary ∧
      deliveredOrders s.hist.delivered = (orders : Multiset Order) := by
  obtain ⟨s₀, h₀, hlen, hhist⟩ := exists_resting (n := n) orders
  have hpos := List.length_pos_iff.mpr h
  obtain ⟨s₁, h₁, hleft, -, -⟩ := h₀.deliverMany ⟨0, hn⟩ (orders.length - 1) (by omega)
  obtain ⟨order, hlast⟩ := List.length_eq_one_iff.mp (by omega : s₁.queue.orders.length = 1)
  obtain ⟨s₂, h₂, -, hcancelled, -⟩ := h₁.deliver hlast ⟨0, hn⟩
  obtain ⟨s, hreach, hpc, hhist'⟩ := h₂.finish
  have hsplit := (settled_of_joined hreach (.inl hpc)).split
  have hnone := (conserved_reachable h₁.reachable).running h₁.stopping
  rw [hhist', hcancelled, hnone, Multiset.coe_nil, add_zero] at hsplit
  exact ⟨s, hreach, hpc, by rw [hhist', hsplit]⟩

/-! ### Totals that do not fit -/

theorem time_fits_of_accounted {orders : List Order} (hn : 0 < n)
    (h : ∀ s : State n, (machine n orders).Reachable s → s.main = .summary → Accounted orders s) :
    500 * (orders.map Order.durationUnits).sum < 2 ^ 63 := by
  by_cases hnone : orders = []
  · rw [hnone]
    decide
  · obtain ⟨s, hreach, hpc, hall⟩ := exists_summary_all hn hnone
    have htime := (h s hreach hpc).time
    have hwrapped := (settled_of_joined hreach (.inl hpc)).time
    simp only [writeSummaryFile] at htime
    rw [hwrapped, hall, Multiset.map_coe, Multiset.sum_coe] at htime
    exact (int64_eq_self_iff.mp htime).2

theorem counts_of_accounted {orders : List Order} (hn : 0 < n)
    (h : ∀ s : State n, (machine n orders).Reachable s → s.main = .summary → Accounted orders s)
    {k : ℕ} (hk : k < orders.length) :
    int32 k + int32 (orders.length - k) = int32 orders.length := by
  obtain ⟨s, hreach, hpc, hcard⟩ := exists_summary_one hn hk
  have hs := settled_of_joined hreach (.inl hpc)
  have htotal := (h s hreach hpc).total
  have hlen := hs.card
  simp only [writeSummaryFile] at htotal
  rw [hs.completed, hs.cancelled, hs.total, hcard] at htotal
  rw [hcard] at hlen
  have hrest : (s.hist.cancelled.length : ℤ) = orders.length - k := by omega
  exact hrest ▸ htotal

theorem counts_fit_of_accounted {orders : List Order} (hn : 0 < n)
    (h : ∀ s : State n, (machine n orders).Reachable s → s.main = .summary → Accounted orders s) :
    orders.length < 2 ^ 31 ∨ n = 1 ∧ 2 ^ 32 ∣ orders.length + 1 := by
  by_contra hmany
  push Not at hmany
  obtain ⟨hlarge, hturn⟩ := hmany
  -- a total of at least -1, and then of exactly -1
  have hlow := counts_of_accounted hn h (k := 2147483647) (by omega)
  have htotal := int32_emod (orders.length : ℤ)
  have hrange := int32_range (orders.length : ℤ)
  have hrest := int32_range ((orders.length : ℤ) - (2147483647 : ℕ))
  have hmax : int32 ((2147483647 : ℕ) : ℤ) = 2147483647 := int32_of_lt (by decide)
  have hfull : int32 ((2147483648 : ℕ) : ℤ) = -2147483648 := by decide
  have hmore : 2147483648 < orders.length := by omega
  have hhigh := counts_of_accounted hn h hmore
  have hrest' := int32_range ((orders.length : ℤ) - (2147483648 : ℕ))
  have hlast : 2 ^ 32 ∣ orders.length + 1 := by omega
  -- two couriers with half of a wrapped count each
  have htwo : 1 < n := by
    have hone : n ≠ 1 := fun heq => hturn heq hlast
    omega
  have hcd : (⟨0, hn⟩ : Fin n) ≠ ⟨1, htwo⟩ := by simp
  obtain ⟨s, hreach, hpc, hfirst, hsecond, hothers⟩ :=
    @exists_summary_two n orders _ _ hcd 1073741824 1073741824 (by omega)
  have hs := settled_of_joined hreach (.inl hpc)
  have hcounts := (h s hreach hpc).counts
  have hsum : ∀ f : ℕ → ℤ, f 0 = 0 →
      ∑ c, f (s.hist.delivered c).length = f 1073741824 + f 1073741824 := by
    intro f hf
    rw [Finset.sum_eq_add _ _ hcd, hfirst, hsecond]
    · intro c _ hc
      rw [hothers c hc.1 hc.2]
      exact hf
    · exact fun hmem => absurd (Finset.mem_univ _) hmem
    · exact fun hmem => absurd (Finset.mem_univ _) hmem
  have hcard : ((deliveredOrders s.hist.delivered).card : ℤ) = (2147483648 : ℕ) := by
    rw [← sum_delivered_length, Nat.cast_sum, hsum (fun k => (k : ℤ)) rfl]
    rfl
  have hhalf : int32 ((1073741824 : ℕ) : ℤ) = 1073741824 := int32_of_lt (by decide)
  have hzero : int32 ((0 : ℕ) : ℤ) = 0 := int32_of_lt (by decide)
  rw [hs.counts, hsum (fun k => int32 (k : ℤ)) hzero] at hcounts
  simp only [writeSummaryFile] at hcounts
  rw [hs.completed, hcard, hfull, hhalf] at hcounts
  omega

/-- In every run of a shift the summary accounts for the loaded orders, exactly when the
delivery time of all orders is within `long` and the counts are within `int` or wrap to
values that still add up. -/
theorem summary_accounts_iff_totals_fit {orders : List Order} (hn : 0 < n)
    (hpos : ∀ o ∈ orders, 1 ≤ o.durationUnits) :
    (∀ s : State n, (machine n orders).Reachable s → s.main = .summary → Accounted orders s) ↔
      TotalsFit n orders :=
  ⟨fun h => ⟨time_fits_of_accounted hn h, counts_fit_of_accounted hn h⟩,
    fun hfit _ hreach hpc => accounted_of_totalsFit hpos hfit hreach hpc⟩

/-- The interrupted shift with its four orders. -/
theorem summary_accounts_interruptedShift : TotalsFit 2 fourOrders ∧
    ∃ s, (machine 2 fourOrders).Reachable s ∧ s.main = .summary ∧ Accounted fourOrders s ∧
      (writeSummaryFile s).completed = 1 ∧ (writeSummaryFile s).cancelled = 3 := by
  have hfit : TotalsFit 2 fourOrders := ⟨by decide, .inl (by decide)⟩
  have hreach := (Machine.execution_of_isSome interruptedShift_isSome).reachable
  have hpc : (((machine 2 fourOrders).run (machine 2 fourOrders).init interruptedShift).get
      interruptedShift_isSome).main = .summary := by decide
  have hpos : ∀ o ∈ fourOrders, 1 ≤ o.durationUnits := by decide
  have hsums := (summary_accounts_iff_totals_fit Nat.two_pos hpos).mpr hfit _ hreach hpc
  exact ⟨hfit, _, hreach, hpc, hsums, by decide, by decide⟩

/-- Orders of the longest duration, in a number that `long` cannot hold the time of. -/
def longOrders : List Order := List.replicate 8589935 ⟨1, ['a'], .express, 2147483647⟩

/-- One courier delivers them all, and the summary prints a negative time. -/
theorem summary_time_wraps : ∃ s : State 1, (machine 1 longOrders).Reachable s ∧
    s.main = .summary ∧ (writeSummaryFile s).totalTime < 0 ∧ ¬ Accounted longOrders s := by
  have hsum : (longOrders.map Order.durationUnits).sum = 8589935 * 2147483647 := by
    rw [longOrders, List.map_replicate, List.sum_replicate]
    norm_num
  have hne : longOrders ≠ [] := by
    rw [← List.length_pos_iff, longOrders, List.length_replicate]
    decide
  obtain ⟨s, hreach, hpc, hall⟩ := exists_summary_all Nat.one_pos hne
  have htime := (settled_of_joined hreach (.inl hpc)).time
  rw [hall, Multiset.map_coe, Multiset.sum_coe, hsum] at htime
  have hwrapped : int64 (500 * (8589935 * 2147483647)) < 0 := by decide
  have hnegative : (writeSummaryFile s).totalTime < 0 := by
    simp only [writeSummaryFile, htime, hwrapped]
  refine ⟨s, hreach, hpc, hnegative, ?_⟩
  intro h
  have hexact := h.time
  rw [hall, Multiset.map_coe, Multiset.sum_coe, hsum] at hexact
  rw [hexact] at hnegative
  omega

end SysProg.HW5
