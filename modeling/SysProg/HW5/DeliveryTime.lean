import SysProg.HW5.ShiftConservation
import SysProg.Lib.MachineInt

/-!
# The time a delivery sleeps and the time it is counted for

`simulate_delivery_time` multiplies in `int`, the statistics of a courier and
the total multiply in `long`. The loader accepts every positive `int` as a
duration. The two products agree until the first one leaves the range of `int`.
-/

namespace SysProg.HW5
open SysProg.Lib

structure Timespec where
  tvSec : ℤ
  tvNsec : ℤ
  deriving DecidableEq, Repr

namespace Timespec

/-- What `nanosleep` accepts. -/
def Valid (t : Timespec) : Prop := 0 ≤ t.tvSec ∧ 0 ≤ t.tvNsec ∧ t.tvNsec < 1000000000

def nanoseconds (t : Timespec) : ℤ := t.tvSec * 1000000000 + t.tvNsec

instance (t : Timespec) : Decidable t.Valid := by
  unfold Valid
  infer_instance

end Timespec

/-- The interval that `simulate_delivery_time` builds. Division and remainder
truncate, and the remainder is widened before it is scaled. An `int` product out of
range, which C leaves undefined, is read as two's-complement wrap-around. -/
def simulateDeliveryTime (durationUnits : ℤ) : Timespec where
  tvSec := Int.tdiv (int32 (durationUnits * deliveryUnitMs)) 1000
  tvNsec := int64 (Int.tmod (int32 (durationUnits * deliveryUnitMs)) 1000 * 1000000)

/-- `(long)selected_order.duration_units * DELIVERY_UNIT_MS` -/
def countedTimeMs (order : Order) : ℤ := int64 (order.durationUnits * deliveryUnitMs)

/-- A duration that `load_orders_from_file` accepts. -/
def AcceptedDuration (units : ℤ) : Prop := 1 ≤ units ∧ units ≤ 2147483647

/-- The courier sleeps for half a second a unit, and this is what is counted. -/
structure SleepsAsCounted (order : Order) : Prop where
  valid : (simulateDeliveryTime order.durationUnits).Valid
  slept : (simulateDeliveryTime order.durationUnits).nanoseconds =
    order.durationUnits * 500 * 1000000
  counted : (simulateDeliveryTime order.durationUnits).nanoseconds =
    countedTimeMs order * 1000000

theorem countedTimeMs_eq {order : Order} (h : AcceptedDuration order.durationUnits) :
    countedTimeMs order = deliveryTime order := by
  obtain ⟨hlo, hhi⟩ := h
  rw [countedTimeMs, deliveryTime, int64, deliveryUnitMs]
  apply (wrapInt_eq_self_iff (w := 63)).mpr
  omega

theorem int64_nanoseconds (ms : ℤ) :
    int64 (Int.tmod ms 1000 * 1000000) = Int.tmod ms 1000 * 1000000 := by
  have hlo := Int.lt_tmod_of_pos ms (b := 1000) (by decide)
  have hhi := Int.tmod_lt_of_pos ms (b := 1000) (by decide)
  apply (wrapInt_eq_self_iff (w := 63)).mpr
  omega

theorem nanoseconds_simulateDeliveryTime (units : ℤ) :
    (simulateDeliveryTime units).nanoseconds = int32 (units * deliveryUnitMs) * 1000000 := by
  have hparts := Int.mul_tdiv_add_tmod (int32 (units * deliveryUnitMs)) 1000
  simp only [Timespec.nanoseconds, simulateDeliveryTime, int64_nanoseconds]
  omega

theorem valid_simulateDeliveryTime {units : ℤ} (h : 0 ≤ int32 (units * deliveryUnitMs)) :
    (simulateDeliveryTime units).Valid := by
  have hlo := Int.tmod_nonneg 1000 h
  have hhi := Int.tmod_lt_of_pos (int32 (units * deliveryUnitMs)) (b := 1000) (by decide)
  simp only [Timespec.Valid, simulateDeliveryTime, int64_nanoseconds]
  refine ⟨Int.tdiv_nonneg h (by decide), ?_, ?_⟩
  · omega
  · omega

theorem int32_product_eq_iff {units : ℤ} (h : AcceptedDuration units) :
    int32 (units * deliveryUnitMs) = units * deliveryUnitMs ↔ units ≤ 4294967 := by
  obtain ⟨hlo, hhi⟩ := h
  rw [int32, deliveryUnitMs, wrapInt_eq_self_iff (w := 31)]
  omega

/-- An accepted order is slept for as long as it is counted exactly when the
product of its duration fits an `int`. -/
theorem sleepsAsCounted_iff (order : Order) (h : AcceptedDuration order.durationUnits) :
    SleepsAsCounted order ↔ order.durationUnits ≤ 4294967 := by
  have hunit : deliveryUnitMs = 500 := rfl
  rw [← int32_product_eq_iff h]
  constructor
  · intro hslept
    have hdenoted := hslept.slept
    rw [nanoseconds_simulateDeliveryTime, hunit] at hdenoted
    rw [hunit]
    omega
  · intro hexact
    have hpos := h.1
    refine ⟨valid_simulateDeliveryTime ?_, ?_, ?_⟩
    · rw [hexact, hunit]
      omega
    · rw [nanoseconds_simulateDeliveryTime, hexact, hunit]
    · rw [nanoseconds_simulateDeliveryTime, hexact, countedTimeMs_eq h, deliveryTime]

/-- The largest duration that is slept in full: almost 25 days. -/
theorem sleepsAsCounted_longest : SleepsAsCounted ⟨1, ['a'], .express, 4294967⟩ :=
  (sleepsAsCounted_iff ⟨1, ['a'], .express, 4294967⟩ ⟨by decide, by decide⟩).mpr
    (le_refl _)

/-- One unit more, and the interval is negative: `nanosleep` refuses it and the
courier does not sleep at all. A compiler that divides before it wraps, as gcc does,
gets 2147484 seconds and the same negative nanoseconds, which are refused as well. -/
theorem negative_interval : AcceptedDuration 4294968 ∧
    simulateDeliveryTime 4294968 = ⟨-2147483, -296000000⟩ ∧
    ¬ SleepsAsCounted ⟨1, ['a'], .express, 4294968⟩ := by
  have hvalue : simulateDeliveryTime 4294968 = ⟨-2147483, -296000000⟩ := by decide
  refine ⟨⟨by decide, by decide⟩, hvalue, fun h => ?_⟩
  have hvalid := h.valid.1
  rw [hvalue] at hvalid
  exact absurd hvalid (by decide)

end SysProg.HW5
