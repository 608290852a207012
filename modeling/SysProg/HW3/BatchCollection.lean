import SysProg.HW3.RequestPosts

/-!
# What the delivery elevator collects

The first request decides the floor and the direction of a batch, a second scan
takes the others that fit, and the exchange sort puts the batch in the order of
its floors. No request is lost, duplicated or altered, and a batch below the
capacity leaves no request behind that could have travelled with it.
-/

namespace SysProg.HW3
open SysProg.Lib

variable {ρ : Type} {F n : ℕ}

/-! ### The exchange sort -/

section ExchangeSort
variable {before : ρ → ρ → Bool}

theorem sweep_least (hasymm : ∀ a b, before a b = true → before b a = false)
    (htrans : ∀ a b c, before b a = false → before c b = false → before c a = false)
    (x : ρ) (xs : List ρ) : ∀ y ∈ x :: xs, before y (sweep before x xs).1 = false := by
  have hself : ∀ a, before a a = false := by
    intro a
    cases ha : before a a with
    | false => rfl
    | true => exact ha.symm.trans (hasymm a a ha)
  induction xs generalizing x with
  | nil =>
    intro y hy
    rw [List.mem_singleton.mp hy]
    exact hself x
  | cons z xs ih =>
    simp only [sweep]
    split_ifs with hz
    · have hleast := ih z
      intro y hy
      rcases List.mem_cons.mp hy with rfl | hy
      · exact htrans _ _ _ (hleast z List.mem_cons_self) (hasymm z y hz)
      · exact hleast y hy
    · have hleast := ih x
      intro y hy
      rcases List.mem_cons.mp hy with rfl | hy
      · exact hleast y List.mem_cons_self
      · rcases List.mem_cons.mp hy with rfl | hy
        · exact htrans _ _ _ (hleast x List.mem_cons_self) (by simpa using hz)
        · exact hleast y (List.mem_cons_of_mem x hy)

theorem exchangeSort_pairwise (hasymm : ∀ a b, before a b = true → before b a = false)
    (htrans : ∀ a b c, before b a = false → before c b = false → before c a = false)
    {count : ℕ} {batch : List ρ} (h : batch.length ≤ count) :
    (exchangeSort before count batch).Pairwise fun a b => before b a = false := by
  induction count generalizing batch with
  | zero =>
    rw [List.length_eq_zero_iff.mp (Nat.le_zero.mp h)]
    exact List.Pairwise.nil
  | succ count ih =>
    cases batch with
    | nil => exact List.Pairwise.nil
    | cons x xs =>
      have hperm := sweep_perm before x xs
      have hlen : (sweep before x xs).2.length = xs.length := by simpa using hperm.length_eq
      refine List.pairwise_cons.mpr ⟨?_, ih (by simpa [hlen] using h)⟩
      intro y hy
      have hmem := (exchangeSort_perm before count (sweep before x xs).2).mem_iff.mp hy
      exact sweep_least hasymm htrans x xs y (hperm.subset (List.mem_cons_of_mem _ hmem))

end ExchangeSort

/-! ### The scan for the requests that travel together -/

/-- What the scan preserves and what it has achieved on the slots it has passed. -/
structure Taken (cap : ℕ) (joins : ρ → Bool) (slots : List (Fin maxRequests))
    (p q : RequestTable ρ × List ρ) : Prop where
  more : p.2.length ≤ q.2.length
  bound : p.2.length ≤ cap → q.2.length ≤ cap
  batch : ∀ req ∈ q.2, req ∈ p.2 ∨ joins req = true
  table : ∀ i, q.1 i = none ∨ q.1 i = p.1 i
  rest : q.2.length < cap → ∀ i ∈ slots, ∀ req, q.1 i = some req → joins req = false

theorem taken_takeRequest (cap : ℕ) (joins : ρ → Bool) (p : RequestTable ρ × List ρ)
    (i : Fin maxRequests) : Taken cap joins [i] p (takeRequest cap joins p i) := by
  unfold takeRequest
  cases hslot : p.1 i with
  | none =>
    refine ⟨le_refl _, id, fun _ => Or.inl, fun _ => Or.inr rfl, ?_⟩
    intro _ j hj req hreq
    rw [List.mem_singleton.mp hj, hslot] at hreq
    cases hreq
  | some req =>
    simp only
    split_ifs with hjoin
    · refine ⟨by simp, fun _ => ?_, ?_, ?_, ?_⟩
      · rw [List.length_append, List.length_singleton]
        exact hjoin.1
      · intro other hother
        rcases List.mem_append.mp hother with hold | hnew
        · exact Or.inl hold
        · rw [List.mem_singleton.mp hnew]
          exact Or.inr hjoin.2
      · intro j
        by_cases hj : j = i
        · subst hj
          exact Or.inl (Function.update_self _ _ _)
        · exact Or.inr (Function.update_of_ne hj _ _)
      · intro _ j hj other hother
        rw [List.mem_singleton.mp hj] at hother
        simp at hother
    · refine ⟨le_refl _, id, fun _ => Or.inl, fun _ => Or.inr rfl, ?_⟩
      intro hlt j hj other hother
      rw [List.mem_singleton.mp hj, hslot] at hother
      obtain rfl := Option.some.inj hother
      simpa using fun hj => hjoin ⟨hlt, hj⟩

theorem Taken.trans {cap : ℕ} {joins : ρ → Bool} {slots slots' : List (Fin maxRequests)}
    {p q r : RequestTable ρ × List ρ} (h : Taken cap joins slots p q)
    (h' : Taken cap joins slots' q r) : Taken cap joins (slots ++ slots') p r where
  more := h.more.trans h'.more
  bound := fun hp => h'.bound (h.bound hp)
  batch := by
    intro req hreq
    rcases h'.batch req hreq with hq | hjoin
    · exact h.batch req hq
    · exact Or.inr hjoin
  table := by
    intro i
    rcases h'.table i with hnone | heq
    · exact Or.inl hnone
    · rw [heq]
      exact h.table i
  rest := by
    intro hlt i hi req hreq
    rcases List.mem_append.mp hi with hfirst | hsecond
    · rcases h'.table i with hnone | heq
      · rw [hnone] at hreq
        cases hreq
      · exact h.rest (lt_of_le_of_lt h'.more hlt) i hfirst req (heq ▸ hreq)
    · exact h'.rest hlt i hsecond req hreq

theorem taken_foldl (cap : ℕ) (joins : ρ → Bool) (slots : List (Fin maxRequests))
    (p : RequestTable ρ × List ρ) :
    Taken cap joins slots p (slots.foldl (takeRequest cap joins) p) := by
  induction slots generalizing p with
  | nil =>
    refine ⟨le_refl _, id, fun _ => Or.inl, fun _ => Or.inr rfl, ?_⟩
    intro _ i hi
    cases hi
  | cons i slots ih => exact (taken_takeRequest cap joins p i).trans (ih _)

/-! ### The collected batch -/

def FloorsInOrder (dir : ℤ) (a b : DeliveryRequest F n) : Prop :=
  if 0 < dir then a.toFloor ≤ b.toFloor else b.toFloor ≤ a.toFloor

/-- What a collection makes of a table: a batch, a direction and the requests
that stay in their slots. -/
structure Collected (table table' : RequestTable (DeliveryRequest F n))
    (batch : List (DeliveryRequest F n)) (cap : ℕ) (dir : ℤ) : Prop where
  nonempty : 1 ≤ batch.length
  bound : batch.length ≤ cap
  conserved : pending table = pending table' + (↑batch : Multiset (DeliveryRequest F n))
  unaltered : ∀ i, table' i = none ∨ table' i = table i
  direction : dir = 1 ∨ dir = -1
  together : ∀ req ∈ batch, travelDirection req.toRepositionRequest = dir ∧
    ∀ req' ∈ batch, req.fromFloor = req'.fromFloor
  sorted : batch.Pairwise (FloorsInOrder dir)
  rest : batch.length < cap → ∀ i req, table' i = some req → ∀ req' ∈ batch,
    ¬ (req.fromFloor = req'.fromFloor ∧ travelDirection req.toRepositionRequest = dir)

theorem floorsInOrder_of_swapsBefore {dir : ℤ} {a b : DeliveryRequest F n}
    (h : swapsBefore dir b a = false) : FloorsInOrder dir a b := by
  simp only [swapsBefore, FloorsInOrder] at *
  split_ifs at * with hdir
  · simpa using h
  · simpa using h

theorem swapsBefore_asymm (dir : ℤ) (a b : DeliveryRequest F n) (h : swapsBefore dir a b = true) :
    swapsBefore dir b a = false := by
  simp only [swapsBefore] at *
  split_ifs at * with hdir
  · simp only [decide_eq_true_eq, decide_eq_false_iff_not] at *
    omega
  · simp only [decide_eq_true_eq, decide_eq_false_iff_not] at *
    omega

theorem swapsBefore_trans (dir : ℤ) (a b c : DeliveryRequest F n)
    (hab : swapsBefore dir b a = false) (hbc : swapsBefore dir c b = false) :
    swapsBefore dir c a = false := by
  simp only [swapsBefore] at *
  split_ifs at * with hdir
  · simp only [decide_eq_false_iff_not] at *
    omega
  · simp only [decide_eq_false_iff_not] at *
    omega

theorem collected_of_some {table table' : RequestTable (DeliveryRequest F n)} {floor : Fin F}
    {direction dir : ℤ} {cap : ℕ} {batch : List (DeliveryRequest F n)} (hcap : 1 ≤ cap)
    (h : collectDeliveryBatch table floor direction cap = some (table', batch, dir)) :
    Collected table table' batch cap dir := by
  have hconserved := pending_collectDelivery h
  obtain ⟨fi, first, q, hfirst, hdir, hq, htable, hsorted⟩ := collectDelivery_inv h
  have htaken : Taken cap (fun req => decide (req.fromFloor = first.fromFloor) &&
      decide (travelDirection req.toRepositionRequest = dir)) (List.finRange maxRequests)
      (Function.update table fi none, [first]) q := hq ▸ taken_foldl _ _ _ _
  have hperm : batch.Perm q.2 := hsorted ▸ exchangeSort_perm _ _ _
  have hjoined : ∀ req ∈ batch, req.fromFloor = first.fromFloor ∧
      travelDirection req.toRepositionRequest = dir := by
    intro req hreq
    rcases htaken.batch req (hperm.subset hreq) with hone | hjoin
    · rw [List.mem_singleton.mp hone]
      exact ⟨rfl, hdir.symm⟩
    · simpa using hjoin
  refine ⟨?_, ?_, hconserved, ?_, hdir ▸ travelDirection_eq _, ?_, ?_, ?_⟩
  · rw [hperm.length_eq]
    exact htaken.more
  · rw [hperm.length_eq]
    exact htaken.bound hcap
  · intro i
    rw [htable]
    rcases htaken.table i with hnone | heq
    · exact Or.inl hnone
    · by_cases hi : i = fi
      · rw [heq, hi]
        exact Or.inl (Function.update_self _ _ _)
      · exact Or.inr (heq.trans (Function.update_of_ne hi _ _))
  · intro req hreq
    exact ⟨(hjoined req hreq).2, fun req' hreq' =>
        (hjoined req hreq).1.trans (hjoined req' hreq').1.symm⟩
  · rw [hsorted]
    exact (exchangeSort_pairwise (swapsBefore_asymm dir) (swapsBefore_trans dir) (le_refl _)).imp
      floorsInOrder_of_swapsBefore
  · rw [hperm.length_eq, htable]
    intro hlt i req hreq req' hreq' ⟨hfloor, htravel⟩
    have hleft := htaken.rest hlt i (List.mem_finRange i) req hreq
    rw [hfloor, (hjoined req' hreq').1] at hleft
    simp [htravel] at hleft

/-- A collection of the delivery elevator returns an empty batch exactly when no
request is pending. Otherwise it returns what can travel together, and the
elevator's direction is up or down afterwards as well. -/
theorem collectDeliveryBatch_spec (table : RequestTable (DeliveryRequest F n)) (floor : Fin F)
    (direction : ℤ) (hdir : direction = 1 ∨ direction = -1) (cap : ℕ) (hcap : 1 ≤ cap) :
    (collectDeliveryBatch table floor direction cap = none ↔ ∀ i, table i = none) ∧
    (∀ table' batch dir,
      collectDeliveryBatch table floor direction cap = some (table', batch, dir) →
        Collected table table' batch cap dir) ∧
    ∀ (cfg : Config) (s : State cfg), (building cfg).Reachable s →
      s.deliveryDirection = 1 ∨ s.deliveryDirection = -1 := by
  refine ⟨?_, fun table' batch dir h => collected_of_some hcap h, ?_⟩
  · constructor
    · intro hnone i
      by_contra hused
      obtain ⟨req, hreq⟩ := Option.ne_none_iff_exists'.mp hused
      exact pending_ne_zero hreq (pending_of_collect_none hdir hnone)
    · intro hempty
      rw [collectDeliveryBatch, Option.bind_eq_none_iff]
      intro fi hfi
      exact absurd (hempty fi) (firstIdx_used hfi)
  · intro cfg s h
    exact (postInvariant_reachable h).scanning.1

def ground : Fin 3 := ⟨0, Nat.succ_pos 2⟩

def middle : Fin 3 := ⟨1, Nat.succ_lt_succ (Nat.succ_pos 1)⟩

def top : Fin 3 := Fin.last 2

def letter (fromFloor toFloor : Fin 3) (ch : Char) : DeliveryRequest 3 1 where
  carrierSlot := firstSlot
  fromFloor := fromFloor
  toFloor := toFloor
  wordIndex := ⟨0, Nat.one_pos⟩
  charIndex := 0
  ch := ch

def nearLetter : DeliveryRequest 3 1 := letter top middle 'b'

def farLetter : DeliveryRequest 3 1 := letter top ground 'a'

/-- A letter that goes up from the ground floor and three that come down from the top. -/
def fourLetters : RequestTable (DeliveryRequest 3 1) := fun i =>
  [letter ground top 'u', farLetter, nearLetter, letter top middle 'c'][i.val]?

def twoLettersLeft : RequestTable (DeliveryRequest 3 1) :=
  Function.update (Function.update fourLetters 1 none) 2 none

theorem twoLettersLeft_unused {i : Fin maxRequests} (h : 4 ≤ i.val) : twoLettersLeft i = none := by
  have hone : i ≠ 1 := by
    rintro rfl
    exact absurd h (by decide)
  have htwo : i ≠ 2 := by
    rintro rfl
    exact absurd h (by decide)
  rw [twoLettersLeft, Function.update_of_ne htwo, Function.update_of_ne hone]
  exact List.getElem?_eq_none h

theorem finRange_firstFour {m k : ℕ} (h : m = k + 4) : ∃ slots : List (Fin m),
    List.finRange m = ⟨0, by omega⟩ :: ⟨1, by omega⟩ :: ⟨2, by omega⟩ :: ⟨3, by omega⟩ :: slots ∧
      ∀ i ∈ slots, 4 ≤ i.val := by
  subst h
  refine ⟨(List.finRange k).map (Fin.addNat · 4), ?_, ?_⟩
  · simp only [List.finRange_succ, List.map_cons, List.map_map]
    rfl
  · intro i hi
    obtain ⟨j, -, rfl⟩ := List.mem_map.mp hi
    exact Nat.le_add_left 4 j

/-- With two places, on its way up from the middle floor the elevator passes by the ground
floor, and of the letters at the top it takes the first two, the nearer one first. -/
theorem collectDeliveryBatch_fourLetters :
    collectDeliveryBatch fourLetters middle 1 2 =
        some (twoLettersLeft, [nearLetter, farLetter], -1) ∧
      Collected fourLetters twoLettersLeft [nearLetter, farLetter] 2 (-1) := by
  obtain ⟨-, hsome, -⟩ := collectDeliveryBatch_spec fourLetters middle 1 (Or.inl rfl) 2 (by decide)
  have hcollect : collectDeliveryBatch fourLetters middle 1 2 =
      some (twoLettersLeft, [nearLetter, farLetter], -1) := by
    have hcount : maxRequests = 2044 + 4 := rfl
    obtain ⟨slots, hslots, hunused⟩ := finRange_firstFour hcount
    have hfirst : firstIdx (·.fromFloor) fourLetters middle 1 = some 1 := by
      rw [firstIdx, hslots]
      rfl
    have hslot : fourLetters 1 = some farLetter := rfl
    have hbatch : collectBatch 2 (fun req => decide (req.fromFloor = farLetter.fromFloor) &&
        decide (travelDirection req.toRepositionRequest = -1)) fourLetters 1 farLetter =
        (twoLettersLeft, [farLetter, nearLetter]) := by
      rw [collectBatch, hslots]
      simp only [List.foldl_cons]
      exact foldl_takeRequest_unused (fun i hi => twoLettersLeft_unused (hunused i hi))
    have hdir : travelDirection farLetter.toRepositionRequest = -1 := rfl
    rw [collectDeliveryBatch, hfirst, Option.bind_some, hslot, Option.map_some]
    simp only [hdir, hbatch]
    rfl
  exact ⟨hcollect, hsome _ _ _ hcollect⟩

end SysProg.HW3
