import Mathlib.Data.Fintype.BigOperators
import Mathlib.Data.List.FinRange
import SysProg.Lib.Execution

/-!
# Request tables of the two elevators

A slot of a table is empty or holds a request. Carriers insert into the first
empty slot. An elevator picks the first request on its way, then takes the
requests that can travel with it until its capacity is reached. Both tables are
scanned by the same loops and differ in which requests travel together; only
the delivery batch is sorted.
-/

open scoped BigOperators
namespace SysProg.HW3
open SysProg.Lib

abbrev maxCarriers : ℕ := 512
abbrev maxRequests : ℕ := 2048

structure RepositionRequest (F : ℕ) where
  carrierSlot : Fin maxCarriers
  fromFloor : Fin F
  toFloor : Fin F
  deriving DecidableEq, Repr

structure DeliveryRequest (F n : ℕ) extends RepositionRequest F where
  wordIndex : Fin n
  charIndex : ℕ
  ch : Char
  deriving DecidableEq, Repr

abbrev RequestTable (ρ : Type) := Fin maxRequests → Option ρ

variable {ρ : Type} {F n : ℕ}

def emptyTable : RequestTable ρ := fun _ => none

/-- The insertion loop of `enqueue_delivery` and `enqueue_reposition`. -/
def insertRequest (table : RequestTable ρ) (req : ρ) : Option (RequestTable ρ) :=
  ((List.finRange maxRequests).find? (fun i => (table i).isNone)).map
    (fun i => Function.update table i (some req))

def onPath (direction : ℤ) (floor fromFloor : Fin F) : Bool :=
  let diff : ℤ := (fromFloor : ℤ) - (floor : ℤ)
  (decide (0 < direction) && decide (0 ≤ diff)) || (decide (direction < 0) && decide (diff ≤ 0))

/-- `first_delivery_idx` and `first_reposition_idx`: a second pass looks the other way. -/
def firstIdx (fromFloor : ρ → Fin F) (table : RequestTable ρ) (floor : Fin F) (direction : ℤ) :
    Option (Fin maxRequests) :=
  let pass := fun (dir : ℤ) => (List.finRange maxRequests).find?
    (fun i => (table i).any (fun req => onPath dir floor (fromFloor req)))
  (pass direction).or (pass (-direction))

def takeRequest (cap : ℕ) (joins : ρ → Bool) (p : RequestTable ρ × List ρ) (i : Fin maxRequests) :
    RequestTable ρ × List ρ :=
  match p.1 i with
  | some req =>
    if p.2.length < cap ∧ joins req = true then (Function.update p.1 i none, p.2 ++ [req]) else p
  | none => p

def collectBatch (cap : ℕ) (joins : ρ → Bool) (table : RequestTable ρ) (fi : Fin maxRequests)
    (first : ρ) : RequestTable ρ × List ρ :=
  (List.finRange maxRequests).foldl (takeRequest cap joins) (Function.update table fi none, [first])

def travelDirection (req : RepositionRequest F) : ℤ :=
  if req.fromFloor ≤ req.toFloor then 1 else -1

/-- The inner loop of the exchange sort: `x` is compared with every later entry. -/
def sweep (before : ρ → ρ → Bool) (x : ρ) : List ρ → ρ × List ρ
  | [] => (x, [])
  | y :: ys =>
    if before y x then
      let p := sweep before y ys
      (p.1, x :: p.2)
    else
      let p := sweep before x ys
      (p.1, y :: p.2)

def exchangeSort (before : ρ → ρ → Bool) : ℕ → List ρ → List ρ
  | _, [] => []
  | 0, batch => batch
  | count + 1, x :: xs =>
    let p := sweep before x xs
    p.1 :: exchangeSort before count p.2

def swapsBefore (dir : ℤ) (b a : DeliveryRequest F n) : Bool :=
  if 0 < dir then decide (b.toFloor < a.toFloor) else decide (a.toFloor < b.toFloor)

/-- The table that remains, the batch and the new direction; `none` is an empty batch. -/
def collectDeliveryBatch (table : RequestTable (DeliveryRequest F n)) (floor : Fin F)
    (direction : ℤ) (cap : ℕ) :
    Option (RequestTable (DeliveryRequest F n) × List (DeliveryRequest F n) × ℤ) :=
  (firstIdx (·.fromFloor) table floor direction).bind (fun fi =>
    (table fi).map (fun first =>
      let dir := travelDirection first.toRepositionRequest
      let p := collectBatch cap (fun req => decide (req.fromFloor = first.fromFloor) &&
        decide (travelDirection req.toRepositionRequest = dir)) table fi first
      (p.1, exchangeSort (swapsBefore dir) p.2.length p.2, dir)))

def collectRepositionBatch (table : RequestTable (RepositionRequest F)) (floor : Fin F)
    (direction : ℤ) (cap : ℕ) :
    Option (RequestTable (RepositionRequest F) × List (RepositionRequest F) × ℤ) :=
  (firstIdx (·.fromFloor) table floor direction).bind (fun fi =>
    (table fi).map (fun first =>
      let p := collectBatch cap (fun req => decide (req.fromFloor = first.fromFloor)) table fi first
      (p.1, p.2, travelDirection first)))

/-! ### No request is lost or duplicated -/

def entry : Option ρ → Multiset ρ
  | some req => {req}
  | none => 0

def pending (table : RequestTable ρ) : Multiset ρ := ∑ i, entry (table i)

theorem pending_emptyTable : pending (emptyTable : RequestTable ρ) = 0 := by
  simp [pending, emptyTable, entry]

theorem pending_insert {table table' : RequestTable ρ} {req : ρ}
    (h : insertRequest table req = some table') : pending table' = pending table + {req} := by
  obtain ⟨i, hi, rfl⟩ := Option.map_eq_some_iff.mp h
  have hfree : table i = none := by simpa using List.find?_some hi
  have hsum := sum_update_add (fun _ => entry) table i (some req)
  simpa [hfree, entry, pending] using hsum

theorem pending_remove {table : RequestTable ρ} {i : Fin maxRequests} {req : ρ}
    (h : table i = some req) : pending table = pending (Function.update table i none) + {req} := by
  have hsum := sum_update_add (fun _ => entry) table i none
  rw [h] at hsum
  simpa [entry, pending] using hsum.symm

theorem pending_ne_zero {table : RequestTable ρ} {i : Fin maxRequests} {req : ρ}
    (h : table i = some req) : pending table ≠ 0 := by
  intro hzero
  rw [pending_remove h] at hzero
  simpa using congrArg Multiset.card hzero

theorem pending_takeRequest (cap : ℕ) (joins : ρ → Bool) (p : RequestTable ρ × List ρ)
    (i : Fin maxRequests) :
    pending (takeRequest cap joins p i).1 + (↑(takeRequest cap joins p i).2 : Multiset ρ) =
      pending p.1 + (↑p.2 : Multiset ρ) := by
  unfold takeRequest
  cases hreq : p.1 i with
  | none => rfl
  | some req =>
    simp only
    split_ifs with hjoin
    · have hsingle : (↑(p.2 ++ [req]) : Multiset ρ) = {req} + ↑p.2 := by
        rw [← Multiset.coe_add, Multiset.coe_singleton, add_comm]
      rw [hsingle, pending_remove hreq, add_assoc]
    · rfl

theorem pending_collectBatch {cap : ℕ} {joins : ρ → Bool} {table : RequestTable ρ}
    {fi : Fin maxRequests} {first : ρ} (h : table fi = some first) :
    pending (collectBatch cap joins table fi first).1 +
      (↑(collectBatch cap joins table fi first).2 : Multiset ρ) = pending table := by
  have hfold : ∀ (slots : List (Fin maxRequests)) (p : RequestTable ρ × List ρ),
      pending (slots.foldl (takeRequest cap joins) p).1 +
        (↑(slots.foldl (takeRequest cap joins) p).2 : Multiset ρ) =
      pending p.1 + (↑p.2 : Multiset ρ) := by
    intro slots
    induction slots with
    | nil => exact fun _ => rfl
    | cons i slots ih =>
      intro p
      rw [List.foldl_cons, ih, pending_takeRequest]
  rw [collectBatch, hfold, pending_remove h, Multiset.coe_singleton]

theorem sweep_perm (before : ρ → ρ → Bool) (x : ρ) (xs : List ρ) :
    ((sweep before x xs).1 :: (sweep before x xs).2).Perm (x :: xs) := by
  induction xs generalizing x with
  | nil => exact .refl _
  | cons y ys ih =>
    simp only [sweep]
    split_ifs
    · exact (List.Perm.swap _ _ _).trans ((ih y).cons x)
    · exact (List.Perm.swap _ _ _).trans (((ih x).cons y).trans (List.Perm.swap _ _ _))

theorem exchangeSort_perm (before : ρ → ρ → Bool) (count : ℕ) (batch : List ρ) :
    (exchangeSort before count batch).Perm batch := by
  induction count generalizing batch with
  | zero => cases batch <;> exact .refl _
  | succ count ih =>
    cases batch with
    | nil => exact .refl _
    | cons x xs => exact ((ih _).cons _).trans (sweep_perm before x xs)

/-- A batch comes from one request that was found and from all that joined it. -/
theorem collectDelivery_inv {table table' : RequestTable (DeliveryRequest F n)}
    {floor : Fin F} {direction dir : ℤ} {cap : ℕ} {batch : List (DeliveryRequest F n)}
    (h : collectDeliveryBatch table floor direction cap = some (table', batch, dir)) :
    ∃ fi first p, table fi = some first ∧ dir = travelDirection first.toRepositionRequest ∧
      collectBatch cap (fun req => decide (req.fromFloor = first.fromFloor) &&
        decide (travelDirection req.toRepositionRequest = dir)) table fi first = p ∧
      table' = p.1 ∧ batch = exchangeSort (swapsBefore dir) p.2.length p.2 := by
  obtain ⟨fi, -, hfi⟩ := Option.bind_eq_some_iff.mp h
  obtain ⟨first, hfirst, hbatch⟩ := Option.map_eq_some_iff.mp hfi
  simp only [Prod.mk.injEq] at hbatch
  obtain ⟨htable, hsorted, hdir⟩ := hbatch
  rw [hdir] at htable hsorted
  exact ⟨fi, first, _, hfirst, hdir.symm, rfl, htable.symm, hsorted.symm⟩

theorem collectReposition_inv {table table' : RequestTable (RepositionRequest F)}
    {floor : Fin F} {direction dir : ℤ} {cap : ℕ} {batch : List (RepositionRequest F)}
    (h : collectRepositionBatch table floor direction cap = some (table', batch, dir)) :
    ∃ fi first p, table fi = some first ∧ dir = travelDirection first ∧
      collectBatch cap (fun req => decide (req.fromFloor = first.fromFloor)) table fi first = p ∧
      table' = p.1 ∧ batch = p.2 := by
  obtain ⟨fi, -, hfi⟩ := Option.bind_eq_some_iff.mp h
  obtain ⟨first, hfirst, hbatch⟩ := Option.map_eq_some_iff.mp hfi
  simp only [Prod.mk.injEq] at hbatch
  obtain ⟨htable, hall, hdir⟩ := hbatch
  exact ⟨fi, first, _, hfirst, hdir.symm, rfl, htable.symm, hall.symm⟩

theorem pending_collectDelivery {table table' : RequestTable (DeliveryRequest F n)}
    {floor : Fin F} {direction dir : ℤ} {cap : ℕ} {batch : List (DeliveryRequest F n)}
    (h : collectDeliveryBatch table floor direction cap = some (table', batch, dir)) :
    pending table = pending table' + (↑batch : Multiset (DeliveryRequest F n)) := by
  obtain ⟨fi, first, p, hfirst, -, hp, rfl, rfl⟩ := collectDelivery_inv h
  rw [Multiset.coe_eq_coe.mpr (exchangeSort_perm _ _ _), ← hp]
  exact (pending_collectBatch hfirst).symm

theorem pending_collectReposition {table table' : RequestTable (RepositionRequest F)}
    {floor : Fin F} {direction dir : ℤ} {cap : ℕ} {batch : List (RepositionRequest F)}
    (h : collectRepositionBatch table floor direction cap = some (table', batch, dir)) :
    pending table = pending table' + (↑batch : Multiset (RepositionRequest F)) := by
  obtain ⟨fi, first, p, hfirst, -, hp, rfl, rfl⟩ := collectReposition_inv h
  rw [← hp]
  exact (pending_collectBatch hfirst).symm

theorem card_pending_of_full {table : RequestTable ρ} {req : ρ}
    (h : insertRequest table req = none) : (pending table).card = maxRequests := by
  have hfull : ∀ i, (entry (table i)).card = 1 := by
    intro i
    have hused := List.find?_eq_none.mp (Option.map_eq_none_iff.mp h) i (List.mem_finRange i)
    cases hentry : table i with
    | none => simp [hentry] at hused
    | some r => rfl
  simp [pending, Multiset.card_sum, hfull]

/-! ### A collection finds a request whenever there is one -/

theorem onPath_or (floor fromFloor : Fin F) {direction : ℤ} (h : direction = 1 ∨ direction = -1) :
    onPath direction floor fromFloor = true ∨ onPath (-direction) floor fromFloor = true := by
  rcases h with rfl | rfl <;> simp [onPath] <;> omega

theorem pending_of_firstIdx_none {fromFloor : ρ → Fin F} {table : RequestTable ρ} {floor : Fin F}
    {direction : ℤ} (hdir : direction = 1 ∨ direction = -1)
    (h : firstIdx fromFloor table floor direction = none) : pending table = 0 := by
  simp only [firstIdx, Option.or_eq_none_iff, List.find?_eq_none] at h
  refine Finset.sum_eq_zero (fun i _ => ?_)
  cases hentry : table i with
  | none => rfl
  | some req =>
    have hpass := h.1 i (List.mem_finRange i)
    have hback := h.2 i (List.mem_finRange i)
    rw [hentry] at hpass hback
    rcases onPath_or floor (fromFloor req) hdir with hpath | hpath
    · exact absurd hpath hpass
    · exact absurd hpath hback

theorem firstIdx_used {fromFloor : ρ → Fin F} {table : RequestTable ρ} {floor : Fin F}
    {direction : ℤ} {fi : Fin maxRequests}
    (h : firstIdx fromFloor table floor direction = some fi) :
    table fi ≠ none := by
  simp only [firstIdx, Option.or_eq_some_iff] at h
  intro hnone
  rcases h with hpass | ⟨-, hpass⟩
  all_goals
    have hused := List.find?_some hpass
    simp [hnone] at hused

theorem pending_of_collect_none {β : Type} {fromFloor : ρ → Fin F} {table : RequestTable ρ}
    {floor : Fin F} {direction : ℤ} (hdir : direction = 1 ∨ direction = -1)
    {take : Fin maxRequests → ρ → β}
    (h : (firstIdx fromFloor table floor direction).bind
      (fun fi => (table fi).map (take fi)) = none) :
    pending table = 0 := by
  cases hidx : firstIdx fromFloor table floor direction with
  | none => exact pending_of_firstIdx_none hdir hidx
  | some fi =>
    rw [hidx, Option.bind_some, Option.map_eq_none_iff] at h
    exact absurd h (firstIdx_used hidx)

theorem collectBatch_ne_nil (cap : ℕ) (joins : ρ → Bool) (table : RequestTable ρ)
    (fi : Fin maxRequests) (first : ρ) : (collectBatch cap joins table fi first).2 ≠ [] := by
  have hfold : ∀ (slots : List (Fin maxRequests)) (p : RequestTable ρ × List ρ), p.2 ≠ [] →
      (slots.foldl (takeRequest cap joins) p).2 ≠ [] := by
    intro slots
    induction slots with
    | nil => exact fun _ hp => hp
    | cons i slots ih =>
      intro p hp
      rw [List.foldl_cons]
      refine ih _ ?_
      unfold takeRequest
      split
      · split_ifs <;> simp [hp]
      · exact hp
  exact hfold _ _ (List.cons_ne_nil _ _)

theorem travelDirection_eq (req : RepositionRequest F) :
    travelDirection req = 1 ∨ travelDirection req = -1 := by
  unfold travelDirection
  split_ifs <;> simp

theorem card_lt_of_batch {m m' : Multiset ρ} {batch : List ρ} (h : m = m' + (↑batch : Multiset ρ))
    (hne : batch ≠ []) : m'.card < m.card := by
  have hpos := List.length_pos_of_ne_nil hne
  rw [h, Multiset.card_add, Multiset.coe_card]
  omega

theorem collectDelivery_some {table table' : RequestTable (DeliveryRequest F n)} {floor : Fin F}
    {direction dir : ℤ} {cap : ℕ} {batch : List (DeliveryRequest F n)}
    (h : collectDeliveryBatch table floor direction cap = some (table', batch, dir)) :
    (pending table').card < (pending table).card ∧ (dir = 1 ∨ dir = -1) := by
  have hpending := pending_collectDelivery h
  obtain ⟨fi, first, p, -, hdir, hp, -, hsorted⟩ := collectDelivery_inv h
  refine ⟨card_lt_of_batch hpending ?_, hdir ▸ travelDirection_eq _⟩
  intro hnil
  have hlen := (exchangeSort_perm _ _ _).length_eq.symm.trans
    (congrArg List.length (hsorted.symm.trans hnil))
  rw [← hp] at hlen
  exact collectBatch_ne_nil _ _ _ _ _ (List.length_eq_zero_iff.mp hlen)

theorem collectReposition_some {table table' : RequestTable (RepositionRequest F)} {floor : Fin F}
    {direction dir : ℤ} {cap : ℕ} {batch : List (RepositionRequest F)}
    (h : collectRepositionBatch table floor direction cap = some (table', batch, dir)) :
    (pending table').card < (pending table).card ∧ (dir = 1 ∨ dir = -1) := by
  have hpending := pending_collectReposition h
  obtain ⟨fi, first, p, -, hdir, hp, -, hbatch⟩ := collectReposition_inv h
  rw [← hp] at hbatch
  exact ⟨card_lt_of_batch hpending (hbatch ▸ collectBatch_ne_nil _ _ _ _ _),
      hdir ▸ travelDirection_eq _⟩

/-! ### A single request -/

def singleRequest (i : Fin maxRequests) (req : ρ) : RequestTable ρ :=
  Function.update emptyTable i (some req)

theorem insertRequest_emptyTable (req : ρ) :
    ∃ i, insertRequest emptyTable req = some (singleRequest i req) := by
  have hfound : ((List.finRange maxRequests).find?
      (fun i => ((emptyTable : RequestTable ρ) i).isNone)).isSome := by
    rw [List.find?_isSome]
    exact ⟨⟨0, by decide⟩, List.mem_finRange _, rfl⟩
  obtain ⟨i, hi⟩ := Option.isSome_iff_exists.mp hfound
  exact ⟨i, by rw [insertRequest, hi]; rfl⟩

theorem find_finRange_eq {m : ℕ} {p : Fin m → Bool} {i : Fin m} (hi : p i = true)
    (honly : ∀ j, p j = true → j = i) : (List.finRange m).find? p = some i := by
  have hfound : ((List.finRange m).find? p).isSome := by
    rw [List.find?_isSome]
    exact ⟨i, List.mem_finRange _, hi⟩
  obtain ⟨j, hj⟩ := Option.isSome_iff_exists.mp hfound
  rw [hj, honly j (List.find?_some hj)]

theorem firstIdx_singleRequest (fromFloor : ρ → Fin F) (i : Fin maxRequests) (req : ρ)
    (floor : Fin F) {direction : ℤ} (hdir : direction = 1 ∨ direction = -1) :
    firstIdx fromFloor (singleRequest i req) floor direction = some i := by
  have hpass : ∀ dir, onPath dir floor (fromFloor req) = true →
      (List.finRange maxRequests).find? (fun j => (singleRequest i req j).any
        (fun r => onPath dir floor (fromFloor r))) = some i := by
    intro dir hpath
    refine find_finRange_eq (by simpa [singleRequest] using hpath) ?_
    intro j hj
    by_contra hne
    simp [singleRequest, Function.update_of_ne hne, emptyTable] at hj
  by_cases hpath : onPath direction floor (fromFloor req) = true
  · simp only [firstIdx, hpass _ hpath, Option.some_or]
  · have hnone : (List.finRange maxRequests).find? (fun j => (singleRequest i req j).any
        (fun r => onPath direction floor (fromFloor r))) = none := by
      rw [List.find?_eq_none]
      intro j _
      by_cases hj : j = i
      · subst hj
        simpa [singleRequest] using hpath
      · simp [singleRequest, Function.update_of_ne hj, emptyTable]
    simp only [firstIdx, hnone, Option.none_or]
    exact hpass _ ((onPath_or floor (fromFloor req) hdir).resolve_left hpath)

theorem foldl_takeRequest_unused {cap : ℕ} {joins : ρ → Bool} {slots : List (Fin maxRequests)}
    {p : RequestTable ρ × List ρ} (h : ∀ i ∈ slots, p.1 i = none) :
    slots.foldl (takeRequest cap joins) p = p := by
  induction slots with
  | nil => rfl
  | cons i slots ih =>
    have hskip : takeRequest cap joins p i = p := by rw [takeRequest, h i List.mem_cons_self]
    rw [List.foldl_cons, hskip]
    exact ih (fun j hj => h j (List.mem_cons_of_mem i hj))

theorem collectRepositionBatch_singleRequest (i : Fin maxRequests) (req : RepositionRequest F)
    (floor : Fin F) {direction : ℤ} (hdir : direction = 1 ∨ direction = -1) (cap : ℕ) :
    collectRepositionBatch (singleRequest i req) floor direction cap =
      some (emptyTable, [req], travelDirection req) := by
  have htable : Function.update (singleRequest i req) i none = emptyTable := by
    funext j
    by_cases hj : j = i
    · subst hj
      simp [emptyTable]
    · simp [singleRequest, Function.update_of_ne hj]
  rw [collectRepositionBatch, firstIdx_singleRequest _ i req floor hdir]
  simp only [Option.bind_some, singleRequest, Function.update_self, Option.map_some, collectBatch]
  rw [← singleRequest, htable, foldl_takeRequest_unused (fun _ _ => rfl)]

end SysProg.HW3
