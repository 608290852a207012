import Mathlib.Algebra.BigOperators.Group.List.Basic
import Mathlib.Data.List.Induction
import Mathlib.Data.List.Nodup
import Mathlib.Data.List.Perm.Basic

/-!
# Totals by key in a table of bounded size

Each update adds its value to the row of its key. A key without a row gets one
at the end as long as there is room; when the table is full, new keys are
dropped for good. After any sequence of updates the rows are the first keys that
arrived, in the order of their first update, each with its whole total.
-/

namespace SysProg.Lib
variable {κ M : Type*} [DecidableEq κ]

def arrivals (calls : List (κ × M)) : List κ := (calls.map Prod.fst).eraseDups

theorem eraseDups_concat (ks : List κ) (k : κ) :
    (ks ++ [k]).eraseDups = if k ∈ ks then ks.eraseDups else ks.eraseDups ++ [k] := by
  rw [List.eraseDups_append]
  by_cases hk : k ∈ ks
  · simp [List.removeAll, hk]
  · simp [List.removeAll, hk, List.eraseDups_cons]

theorem nodup_eraseDups (ks : List κ) : ks.eraseDups.Nodup := by
  induction ks using List.reverseRecOn with
  | nil => exact List.nodup_nil
  | append_singleton ks k ih =>
    rw [eraseDups_concat]
    split_ifs with hk
    · exact ih
    · apply List.Nodup.append ih (List.nodup_singleton k)
      rw [List.disjoint_singleton]
      exact fun h => hk (List.mem_eraseDups.mp h)

theorem eraseDups_of_nodup {ks : List κ} (h : ks.Nodup) : ks.eraseDups = ks := by
  induction ks using List.reverseRecOn with
  | nil => rfl
  | append_singleton ks k ih =>
    have hk : k ∉ ks := List.disjoint_singleton.mp (List.nodup_append'.mp h).2.2
    rw [eraseDups_concat, if_neg hk, ih (List.nodup_append'.mp h).1]

theorem nodup_arrivals (calls : List (κ × M)) : (arrivals calls).Nodup := nodup_eraseDups _

theorem mem_arrivals {calls : List (κ × M)} {k : κ} :
    k ∈ arrivals calls ↔ k ∈ calls.map Prod.fst := List.mem_eraseDups

theorem arrivals_concat (calls : List (κ × M)) (k : κ) (v : M) :
    arrivals (calls ++ [(k, v)]) =
      if k ∈ arrivals calls then arrivals calls else arrivals calls ++ [k] := by
  simp only [arrivals, List.map_append, List.map_singleton, eraseDups_concat, List.mem_eraseDups]

variable [AddCommMonoid M]

def tally (capacity : ℕ) (table : List (κ × M)) (k : κ) (v : M) : List (κ × M) :=
  match table.findIdx? (fun row => row.1 = k) with
  | some i => table.modify i (fun row => (row.1, row.2 + v))
  | none => if table.length < capacity then table ++ [(k, v)] else table

def keyTotal (calls : List (κ × M)) (k : κ) : M :=
  ((calls.filter (fun c => c.1 = k)).map Prod.snd).sum

theorem keyTotal_concat (calls : List (κ × M)) (k a : κ) (v : M) :
    keyTotal (calls ++ [(k, v)]) a = keyTotal calls a + if a = k then v else 0 := by
  unfold keyTotal
  rw [List.filter_append, List.map_append, List.sum_append]
  by_cases hk : k = a
  · simp [hk]
  · simp [hk, Ne.symm hk]

theorem keyTotal_eq_zero {calls : List (κ × M)} {k : κ} (h : k ∉ arrivals calls) :
    keyTotal calls k = 0 := by
  have hnone : calls.filter (fun c => c.1 = k) = [] := by
    rw [List.filter_eq_nil_iff]
    intro c hc hk
    apply h
    rw [mem_arrivals, ← of_decide_eq_true hk]
    exact List.mem_map_of_mem hc
  simp [keyTotal, hnone]

theorem keyTotal_perm {calls calls' : List (κ × M)} (h : calls.Perm calls') (k : κ) :
    keyTotal calls k = keyTotal calls' k :=
  ((h.filter _).map _).sum_eq

theorem keyTotal_of_nodup {calls : List (κ × M)} (hnd : (calls.map Prod.fst).Nodup) {c : κ × M}
    (hc : c ∈ calls) : keyTotal calls c.1 = c.2 := by
  induction calls using List.reverseRecOn with
  | nil => exact absurd hc List.not_mem_nil
  | append_singleton calls d ih =>
    rw [List.map_append, List.map_singleton] at hnd
    obtain ⟨hfront, -, hdisj⟩ := List.nodup_append'.mp hnd
    have hd : d.1 ∉ calls.map Prod.fst := List.disjoint_singleton.mp hdisj
    rw [keyTotal_concat calls d.1 c.1 d.2]
    rcases List.mem_append.mp hc with hc | hc
    · have hne : c.1 ≠ d.1 := fun h => hd (h ▸ List.mem_map_of_mem hc)
      rw [ih hfront hc, if_neg hne, add_zero]
    · obtain rfl := List.mem_singleton.mp hc
      rw [keyTotal_eq_zero (fun h => hd (mem_arrivals.mp h)), if_pos rfl, zero_add]

theorem tally_of_mem {ks : List κ} {f : κ → M} {k : κ} (hnd : ks.Nodup) (hk : k ∈ ks)
    (capacity : ℕ) (v : M) :
    tally capacity (ks.map (fun a => (a, f a))) k v =
      ks.map (fun a => (a, f a + if a = k then v else 0)) := by
  have hfound : ∃ i, (ks.map (fun a => (a, f a))).findIdx? (fun row => row.1 = k) = some i ∧
      (ks.map (fun a => (a, f a))).modify i (fun row => (row.1, row.2 + v)) =
        ks.map (fun a => (a, f a + if a = k then v else 0)) := by
    induction ks with
    | nil => exact absurd hk List.not_mem_nil
    | cons b ks ih =>
      obtain ⟨hb, hnd⟩ := List.nodup_cons.mp hnd
      by_cases hbk : b = k
      · subst hbk
        refine ⟨0, by simp [List.findIdx?_cons], ?_⟩
        have hrest : ∀ a ∈ ks, (a, f a) = (a, f a + if a = b then v else 0) := by
          intro a ha
          have hne : a ≠ b := fun h => hb (h ▸ ha)
          rw [if_neg hne, add_zero]
        simp [List.map_congr_left hrest]
      · obtain ⟨i, hi, hmod⟩ := ih hnd ((List.mem_cons.mp hk).resolve_left (Ne.symm hbk))
        refine ⟨i + 1, ?_, ?_⟩
        · simp [List.findIdx?_cons, hbk, hi]
        · simp [hbk, hmod]
  obtain ⟨i, hi, hmod⟩ := hfound
  simp only [tally, hi, hmod]

theorem tally_of_notMem {ks : List κ} {f : κ → M} {k : κ} (hk : k ∉ ks) (capacity : ℕ) (v : M) :
    tally capacity (ks.map (fun a => (a, f a))) k v =
      if ks.length < capacity then ks.map (fun a => (a, f a)) ++ [(k, v)]
      else ks.map (fun a => (a, f a)) := by
  have hnone : (ks.map (fun a => (a, f a))).findIdx? (fun row => row.1 = k) = none := by
    rw [List.findIdx?_eq_none_iff]
    intro row hrow
    obtain ⟨a, ha, rfl⟩ := List.mem_map.mp hrow
    have hne : a ≠ k := fun h => hk (h ▸ ha)
    simpa using hne
  simp only [tally, hnone, List.length_map]

theorem foldl_tally (capacity : ℕ) (calls : List (κ × M)) :
    calls.foldl (fun table c => tally capacity table c.1 c.2) [] =
      ((arrivals calls).take capacity).map (fun k => (k, keyTotal calls k)) := by
  induction calls using List.reverseRecOn with
  | nil => simp [arrivals]
  | append_singleton calls c ih =>
    obtain ⟨k, v⟩ := c
    rw [List.foldl_append, ih, List.foldl_cons, List.foldl_nil, arrivals_concat]
    simp only [keyTotal_concat]
    have hnd : ((arrivals calls).take capacity).Nodup :=
      (nodup_arrivals calls).sublist (List.take_sublist _ _)
    by_cases hrow : k ∈ (arrivals calls).take capacity
    · rw [if_pos (List.mem_of_mem_take hrow), tally_of_mem hnd hrow]
    · have hsame : ((arrivals calls).take capacity).map (fun a => (a, keyTotal calls a)) =
          ((arrivals calls).take capacity).map
            (fun a => (a, keyTotal calls a + if a = k then v else 0)) := by
        apply List.map_congr_left
        intro a ha
        have hne : a ≠ k := fun h => hrow (h ▸ ha)
        rw [if_neg hne, add_zero]
      rw [tally_of_notMem hrow, hsame, List.length_take]
      by_cases hk : k ∈ arrivals calls
      · -- the key came when the table was full
        have hfull : capacity < (arrivals calls).length := by
          by_contra h
          rw [List.take_of_length_le (Nat.le_of_not_lt h)] at hrow
          exact hrow hk
        have hlen : ¬ min capacity (arrivals calls).length < capacity := by omega
        rw [if_pos hk, if_neg hlen]
      · rw [if_neg hk]
        by_cases hroom : (arrivals calls).length < capacity
        · have hlen : min capacity (arrivals calls).length < capacity := by omega
          have hshort : (arrivals calls ++ [k]).length ≤ capacity := by
            rw [List.length_append, List.length_singleton]
            omega
          rw [if_pos hlen, List.take_of_length_le (Nat.le_of_lt hroom),
              List.take_of_length_le hshort,
            List.map_append, List.map_singleton, if_pos rfl, keyTotal_eq_zero hk, zero_add]
        · have hlen : ¬ min capacity (arrivals calls).length < capacity := by omega
          rw [if_neg hlen, List.take_append_of_le_length (Nat.le_of_not_lt hroom)]

end SysProg.Lib
