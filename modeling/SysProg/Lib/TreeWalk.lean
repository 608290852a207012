import Mathlib.Data.List.Nodup

/-!
# Walks through directories

A directory lists names, each once. Under a name a walk has items of its own, or
it is led to another directory and has the items of that one, marked with the
name. Where the way down lowers a rank, the walk is the only one that meets the
items it meets.
-/

namespace SysProg.Lib

/-- What `readdir` reports of every path. -/
structure Directories (π ν : Type*) where
  opendir : π → Option (List ν)
  nodup : ∀ path names, opendir path = some names → names.Nodup

variable {π ν β : Type*}

namespace Directories
variable (d : Directories π ν)

def listing (path : π) : List ν := (d.opendir path).getD []

theorem nodup_listing (path : π) : (d.listing path).Nodup := by
  rw [listing]
  cases hopen : d.opendir path with
  | none => exact List.nodup_nil
  | some names => exact d.nodup path names hopen

/-- What is met at a path by the names that it lists, given what is met further down. -/
def Encounters (own : π → ν → β → Prop) (leads : π → ν → π → Prop) (mark : ν → β → β)
    (below : π → β → Prop) (path : π) (b : β) : Prop :=
  ∃ name ∈ d.listing path, own path name b ∨
    ∃ path' c, leads path name path' ∧ below path' c ∧ mark name c = b

variable {d}

theorem encounters_unique {own : π → ν → β → Prop} {leads : π → ν → π → Prop} {mark : ν → β → β}
    {met met' : π → β → Prop} {rank : π → ℕ}
    (hrank : ∀ {path name path'}, leads path name path' → rank path' < rank path)
    (h : ∀ path b, met path b ↔ d.Encounters own leads mark met path b)
    (h' : ∀ path b, met' path b ↔ d.Encounters own leads mark met' path b) (path : π) (b : β) :
    met path b ↔ met' path b := by
  induction hn : rank path using Nat.strongRecOn generalizing path b with
  | ind n ih =>
    have hbelow : ∀ name path' c, leads path name path' → (met path' c ↔ met' path' c) := by
      intro name path' c hleads
      exact ih _ (hn ▸ hrank hleads) path' c rfl
    rw [h, h', Encounters, Encounters]
    apply exists_congr
    intro name
    apply and_congr_right
    intro _
    apply or_congr_right
    constructor
    · rintro ⟨path', c, hleads, hc, hb⟩
      exact ⟨path', c, hleads, (hbelow name path' c hleads).mp hc, hb⟩
    · rintro ⟨path', c, hleads, hc, hb⟩
      exact ⟨path', c, hleads, (hbelow name path' c hleads).mpr hc, hb⟩

end Directories

/-! ### Loops that may run away -/

theorem foldlM_none {α σ : Type*} {step : σ → α → Option σ} {a : α} {l : List α} (ha : a ∈ l)
    (hstep : ∀ s, step s a = none) (s : σ) : l.foldlM step s = none := by
  induction l generalizing s with
  | nil => cases ha
  | cons x l ih =>
    rw [List.foldlM_cons]
    rcases List.mem_cons.mp ha with rfl | hmem
    · rw [hstep]
      rfl
    · cases step s x with
      | none => rfl
      | some t => exact ih hmem t

theorem foldlM_some {α σ : Type*} {step : σ → α → Option σ} {l : List α}
    (hstep : ∀ a ∈ l, ∀ s, ∃ t, step s a = some t) (s : σ) : ∃ t, l.foldlM step s = some t := by
  induction l generalizing s with
  | nil => exact ⟨s, rfl⟩
  | cons x l ih =>
    obtain ⟨t, ht⟩ := hstep x List.mem_cons_self s
    rw [List.foldlM_cons, ht]
    exact ih (fun a ha => hstep a (List.mem_cons_of_mem x ha)) t

/-- A loop of loops, each of which folds over a list of its own. -/
theorem foldlM_foldl {α β σ : Type*} {step : σ → α → Option σ} {f : σ → β → σ} {g : α → List β}
    {l : List α} (hstep : ∀ a ∈ l, ∀ s t, step s a = some t → t = (g a).foldl f s) {s t : σ}
    (h : l.foldlM step s = some t) : t = (l.flatMap g).foldl f s := by
  induction l generalizing s with
  | nil => exact (Option.some.inj h).symm
  | cons a l ih =>
    rw [List.foldlM_cons] at h
    obtain ⟨s', hhead, htail⟩ := Option.bind_eq_some_iff.mp h
    rw [ih (fun b hb => hstep b (List.mem_cons_of_mem _ hb)) htail,
      hstep a List.mem_cons_self s s' hhead, List.flatMap_cons, List.foldl_append]

end SysProg.Lib
