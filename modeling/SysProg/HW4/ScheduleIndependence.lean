import SysProg.HW4.SourceTotals
import Mathlib.Data.List.Sort

/-!
# Two schedules of one level

Two runs over the same entries fill the source table in different orders, and
sources with equal totals are ranked in table order. What the totals alone
decide is the same in every run: the three values, the name beside a value that
only one source has, and every source that at most two others equal or exceed.
-/

open scoped BigOperators
namespace SysProg.HW4
open SysProg.Lib
variable {o : Options}

/-! ### What the totals decide -/

section Totals
variable {total : List Char → ℕ} {sources sources' : List (List Char)} {top top' : Top3}

theorem ranked_totals_take {ranked : List (List Char)} (hnd : sources.Nodup) (hrnd : ranked.Nodup)
    (hsub : ranked ⊆ sources) (hordered : ranked.Pairwise (fun a b => total b ≤ total a))
    (hfirst : ∀ a ∈ ranked, ∀ b ∈ sources, b ∉ ranked → total b ≤ total a) {ts : List ℕ}
    (hts : ts.Perm (sources.map total)) (hdesc : ts.Pairwise (· ≥ ·)) :
    ranked.map total = ts.take ranked.length := by
  let rest := sources.filter (fun b => b ∉ ranked)
  let lower := stableSort OrderDual.toDual (rest.map total)
  have hsplit : (ranked ++ rest).Perm sources := by
    rw [List.perm_ext_iff_of_nodup _ hnd]
    · intro a
      by_cases ha : a ∈ ranked
      · simp [ha, hsub ha]
      · simp [rest, ha]
    · apply List.Nodup.append hrnd (hnd.filter _)
      intro a ha hrest
      simpa [ha] using (List.mem_filter.mp hrest).2
  have hlower : lower.Perm (rest.map total) := List.mergeSort_perm _ _
  have hall : (ranked.map total ++ lower).Perm ts := by
    refine ((hlower.append_left _).trans ?_).trans hts.symm
    rw [← List.map_append]
    exact hsplit.map total
  have hsorted : (ranked.map total ++ lower).Pairwise (· ≥ ·) := by
    refine List.pairwise_append.mpr ⟨?_, ?_, ?_⟩
    · rw [List.pairwise_map]
      exact hordered
    · have hsort : SortedBy OrderDual.toDual lower := sortedBy_stableSort _
      exact hsort.imp (fun hab => OrderDual.toDual_le_toDual.mp hab)
    · intro x hx y hy
      obtain ⟨a, ha, rfl⟩ := List.mem_map.mp hx
      obtain ⟨b, hb, rfl⟩ := List.mem_map.mp (hlower.mem_iff.mp hy)
      obtain ⟨hbs, hnot⟩ := List.mem_filter.mp hb
      exact hfirst a ha b hbs (of_decide_eq_true hnot)
  have heq : ranked.map total ++ lower = ts :=
    hall.eq_of_pairwise (fun a b _ _ hab hba => le_antisymm hba hab) hsorted hdesc
  rw [← heq, List.take_append_of_le_length (List.length_map _).ge, List.take_of_length_le]
  exact (List.length_map _).le

theorem ShowsLargest.hits_eq (hperm : sources.Perm sources') (hnd : sources.Nodup)
    (h : ShowsLargest total sources top) (h' : ShowsLargest total sources' top') (r : Fin 3) :
    top.hits r = top'.hits r := by
  obtain ⟨ranked, hrnd, hsub, hlen, hordered, hfirst, hshown⟩ := h
  obtain ⟨ranked', hrnd', hsub', hlen', hordered', hfirst', hshown'⟩ := h'
  let ts := stableSort OrderDual.toDual (sources.map total)
  have hts : ts.Perm (sources.map total) := List.mergeSort_perm _ _
  have hdesc : ts.Pairwise (· ≥ ·) := by
    have hsort : SortedBy OrderDual.toDual ts := sortedBy_stableSort _
    exact hsort.imp (fun hab => OrderDual.toDual_le_toDual.mp hab)
  have htake := ranked_totals_take hnd hrnd hsub hordered hfirst hts hdesc
  have htake' := ranked_totals_take (hperm.nodup_iff.mp hnd) hrnd' hsub' hordered' hfirst'
    (hts.trans (hperm.map total)) hdesc
  have heq : ranked.map total = ranked'.map total := by
    rw [htake, htake', hlen, hlen', hperm.length_eq]
  rw [(hshown r).1, (hshown' r).1, ← List.getElem?_map, ← List.getElem?_map, heq]

theorem ShowsLargest.rank_cases (h : ShowsLargest total sources top) (r : Fin 3) :
    ((r : ℕ) < sources.length ∧ top.names r ∈ sources ∧ top.hits r = total (top.names r)) ∨
      (sources.length ≤ r ∧ top.names r = [] ∧ top.hits r = 0) := by
  obtain ⟨ranked, -, hsub, hlen, -, -, hshown⟩ := h
  obtain ⟨hhits, hname⟩ := hshown r
  by_cases hr : (r : ℕ) < ranked.length
  · left
    rw [List.getElem?_eq_getElem hr] at hhits hname
    rw [hhits, hname]
    exact ⟨by omega, hsub (List.getElem_mem hr), rfl⟩
  · right
    rw [List.getElem?_eq_none (Nat.le_of_not_lt hr)] at hhits hname
    exact ⟨by omega, hname, hhits⟩

theorem ShowsLargest.names_eq (hperm : sources.Perm sources') (hnd : sources.Nodup)
    (h : ShowsLargest total sources top) (h' : ShowsLargest total sources' top') {r : Fin 3}
    (hunique : ∀ a ∈ sources, ∀ b ∈ sources, total a = top.hits r → total b = top.hits r → a = b) :
    top.names r = top'.names r := by
  have hhits := h.hits_eq hperm hnd h' r
  have hlen := hperm.length_eq
  rcases h.rank_cases r with ⟨hlt, hmem, htotal⟩ | ⟨hshort, hnone, -⟩
  · rcases h'.rank_cases r with ⟨-, hmem', htotal'⟩ | ⟨hshort', -, -⟩
    · exact hunique _ hmem _ (hperm.mem_iff.mpr hmem') htotal.symm (htotal'.symm.trans hhits.symm)
    · omega
  · rcases h'.rank_cases r with ⟨hlt', -, -⟩ | ⟨-, hnone', -⟩
    · omega
    · rw [hnone, hnone']

/-- A source is shown when at most three have its total or more. -/
theorem ShowsLargest.shown (h : ShowsLargest total sources top)
    {source : List Char} (hs : source ∈ sources)
    (hfew : (sources.filter (fun b => total source ≤ total b)).length ≤ 3) :
    ∃ r, top.names r = source ∧ top.hits r = total source := by
  obtain ⟨ranked, hrnd, hsub, hlen, hordered, hfirst, hshown⟩ := h
  have hmem : source ∈ ranked := by
    by_contra hnot
    have hcons : (source :: ranked).Nodup := List.nodup_cons.mpr ⟨hnot, hrnd⟩
    have hall : source :: ranked ⊆ sources.filter (fun b => total source ≤ total b) := by
      intro b hb
      rcases List.mem_cons.mp hb with rfl | hb
      · exact List.mem_filter.mpr ⟨hs, by simp⟩
      · exact List.mem_filter.mpr ⟨hsub hb, by simpa using hfirst b hb source hs hnot⟩
    have hmany := (hcons.subperm hall).length_le
    have hle := (hcons.subperm (List.cons_subset.mpr ⟨hs, hsub⟩)).length_le
    rw [List.length_cons] at hmany hle
    omega
  obtain ⟨i, hi, rfl⟩ := List.getElem_of_mem hmem
  have hthree : i < 3 := by omega
  obtain ⟨hhits, hname⟩ := hshown ⟨i, hthree⟩
  rw [List.getElem?_eq_getElem hi] at hhits hname
  exact ⟨⟨i, hthree⟩, hname, hhits⟩

end Totals
/-! ### Two runs over the same entries -/

def scoringSources (o : Options) (l : Level) (es : Multiset LogEntry) : Finset (List Char) :=
  (es.map LogEntry.source).toFinset.filter (fun source => 0 < sourceTotal o l es source)

theorem mem_scoringSources {l : Level} {es : Multiset LogEntry} {source : List Char} :
    source ∈ scoringSources o l es ↔ 0 < sourceTotal o l es source := by
  rw [scoringSources, Finset.mem_filter, Multiset.mem_toFinset, and_iff_right_iff_imp]
  intro hpos
  by_contra hnot
  have hnone : es.filter (fun e => e.source = source) = 0 := by
    rw [Multiset.filter_eq_nil]
    exact fun e he hsource => hnot (hsource ▸ Multiset.mem_map_of_mem _ he)
  rw [sourceTotal, hnone] at hpos
  exact lt_irrefl 0 hpos

theorem card_scoringSources_le (l : Level) (es : Multiset LogEntry) :
    (scoringSources o l es).card ≤ es.card := by
  have hle := Multiset.toFinset_card_le (es.map LogEntry.source)
  rw [Multiset.card_map] at hle
  exact (Finset.card_filter_le _ _).trans hle

theorem sourceTotal_congr {o o' : Options} (h : o.keywords = o'.keywords) (l : Level)
    (es : Multiset LogEntry) (source : List Char) :
    sourceTotal o l es source = sourceTotal o' l es source := by
  have hscore : entryScore o l = entryScore o' l := by
    funext e
    simp only [entryScore, Options.numKeywords, Options.keyword, h]
  rw [sourceTotal, hscore, sourceTotal]

theorem readyResult_ranks_all {input : o.Input}
    (hfits : ∀ p, ∀ line ∈ input p, FitsName line.source) {tr : List (State o × Action o)}
    {s : State o} (h : (machine input).Execution tr s) {l : Level}
    (hready : (s.results l).ready = true)
    (hroom : (scoringSources o l (levelEntries input l)).card ≤ maxSources) :
    ∃ sources : List (List Char), sources.Nodup ∧
      sources.toFinset = scoringSources o l (levelEntries input l) ∧
      ShowsLargest (sourceTotal o l (levelEntries input l)) sources (s.results l).top := by
  obtain ⟨hnd, hmem, hshows⟩ := readyResult_showsLargest hfits h hready
  have hset : (arrivals (updateCalls l tr)).toFinset =
      scoringSources o l (levelEntries input l) := by
    ext source
    rw [List.mem_toFinset, hmem, mem_scoringSources]
  rw [← hset, List.toFinset_card_of_nodup hnd] at hroom
  rw [List.take_of_length_le hroom] at hshows
  exact ⟨_, hnd, hset, hshows⟩

/-- Two runs with the same keywords and the same entries of a level, whatever their schedules,
worker counts and other options, agree on everything that the totals decide. -/
theorem readyResults_agree {o o' : Options} (hkeywords : o.keywords = o'.keywords) {input : o.Input}
    {input' : o'.Input} (hfits : ∀ p, ∀ line ∈ input p, FitsName line.source)
    (hfits' : ∀ p, ∀ line ∈ input' p, FitsName line.source) {tr : List (State o × Action o)}
    {tr' : List (State o' × Action o')} {s : State o} {s' : State o'}
    (h : (machine input).Execution tr s) (h' : (machine input').Execution tr' s') {l : Level}
    (hready : (s.results l).ready = true) (hready' : (s'.results l).ready = true)
    (hsame : levelEntries input l = levelEntries input' l)
    (hroom : (scoringSources o l (levelEntries input l)).card ≤ maxSources) :
    let total := sourceTotal o l (levelEntries input l)
    let scoring := scoringSources o l (levelEntries input l)
    (∀ r, (s.results l).top.hits r = (s'.results l).top.hits r) ∧
    (∀ r, (∀ a ∈ scoring, ∀ b ∈ scoring, total a = (s.results l).top.hits r →
        total b = (s.results l).top.hits r → a = b) →
      (s.results l).top.names r = (s'.results l).top.names r) ∧
    ∀ source ∈ scoring, (scoring.filter (fun b => total source ≤ total b)).card ≤ 3 →
      (∃ r, (s.results l).top.names r = source ∧ (s.results l).top.hits r = total source) ∧
      ∃ r, (s'.results l).top.names r = source ∧ (s'.results l).top.hits r = total source := by
  intro total scoring
  have htotal : sourceTotal o' l (levelEntries input' l) = total := by
    funext source
    rw [← hsame]
    exact (sourceTotal_congr hkeywords l _ source).symm
  have hscoring : scoringSources o' l (levelEntries input' l) = scoring := by
    ext source
    rw [mem_scoringSources, htotal, mem_scoringSources]
  obtain ⟨sources, hnd, hset, hshows⟩ := readyResult_ranks_all hfits h hready hroom
  obtain ⟨sources', hnd', hset', hshows'⟩ :=
    readyResult_ranks_all hfits' h' hready' (hscoring ▸ hroom)
  rw [htotal] at hshows'
  rw [hscoring] at hset'
  have hperm : sources.Perm sources' := List.perm_of_nodup_nodup_toFinset_eq hnd hnd'
      (hset.trans hset'.symm)
  have hin : ∀ source, source ∈ sources ↔ source ∈ scoring := by
    intro source
    rw [← List.mem_toFinset, hset]
  have hcount : ∀ xs : List (List Char), xs.Nodup → xs.toFinset = scoring → ∀ source,
      (xs.filter (fun b => total source ≤ total b)).length =
        (scoring.filter (fun b => total source ≤ total b)).card := by
    intro xs hxs hxset source
    rw [← hxset, ← List.toFinset_card_of_nodup (hxs.filter _)]
    congr 1
    ext b
    simp
  refine ⟨?_, ?_, ?_⟩
  · exact fun r => hshows.hits_eq hperm hnd hshows' r
  · intro r hunique
    apply hshows.names_eq hperm hnd hshows'
    exact fun a ha b hb => hunique a ((hin a).mp ha) b ((hin b).mp hb)
  · intro source hs hfew
    have hs' := (hin source).mpr hs
    exact ⟨hshows.shown hs' (hcount sources hnd hset source ▸ hfew),
      hshows'.shown (hperm.mem_iff.mp hs') (hcount sources' hnd' hset' source ▸ hfew)⟩

/-! ### Two sources with equal totals -/

def tiedLines : twoFiles.Input := fun p =>
  if p.1.val = 0 then [⟨[], .error, ['d', 'b'], ['x']⟩] else [⟨[], .error, ['u', 'i'], ['x']⟩]

/-- Both workers hold a call; `calls` is the order in which they make it. -/
def tiedRun (calls : List (Action twoFiles)) : List (Action twoFiles) :=
  readAll firstFile 1 ++ readAll secondFile 1 ++ passOn secondFile 1 ++ passOn firstFile 1 ++
    [firstWorker, secondWorker] ++ calls ++ [firstWorker, secondWorker, secondWorker, firstWorker,
      firstWorker, secondWorker] ++ [.run (.analyzer .error), .run (.analyzer .error)]

theorem firstCall_isSome : ((machine tiedLines).run (machine tiedLines).init
    (tiedRun [firstWorker, secondWorker])).isSome := by decide

theorem secondCall_isSome : ((machine tiedLines).run (machine tiedLines).init
    (tiedRun [secondWorker, firstWorker])).isSome := by decide

/-- The same options and the same two entries, ranked in either order. -/
theorem tied_names_differ :
    ∃ tr tr' s s', (machine tiedLines).Execution tr s ∧ (machine tiedLines).Execution tr' s' ∧
      (s.results .error).ready = true ∧ (s'.results .error).ready = true ∧
      (scoringSources twoFiles .error (levelEntries tiedLines .error)).card ≤ maxSources ∧
      (s.results .error).top.names 0 = ['u', 'i'] ∧
      (s'.results .error).top.names 0 = ['d', 'b'] := by
  have hexec := Machine.execution_of_isSome firstCall_isSome
  have hready : ((((machine tiedLines).run (machine tiedLines).init
      (tiedRun [firstWorker, secondWorker])).get firstCall_isSome).results .error).ready =
      true := by
    decide
  refine ⟨_, _, _, _, hexec, Machine.execution_of_isSome secondCall_isSome, hready, by decide, ?_,
    by decide, by decide⟩
  refine (card_scoringSources_le .error _).trans ?_
  rw [← (readyResult_matchesReference hexec.reachable hready).1]
  decide

theorem readyResults_agree_tied :
    ∃ tr tr' s s', (machine tiedLines).Execution tr s ∧ (machine tiedLines).Execution tr' s' ∧
      (∀ r, (s.results .error).top.hits r = (s'.results .error).top.hits r) ∧
      (s.results .error).top.names 2 = (s'.results .error).top.names 2 := by
  have hexec := Machine.execution_of_isSome firstCall_isSome
  have hexec' := Machine.execution_of_isSome secondCall_isSome
  have hready : ((((machine tiedLines).run (machine tiedLines).init
      (tiedRun [firstWorker, secondWorker])).get firstCall_isSome).results .error).ready =
      true := by
    decide
  have hready' : ((((machine tiedLines).run (machine tiedLines).init
      (tiedRun [secondWorker, firstWorker])).get secondCall_isSome).results .error).ready =
      true := by
    decide
  have hroom : (scoringSources twoFiles .error (levelEntries tiedLines .error)).card ≤
      maxSources := by
    refine (card_scoringSources_le .error _).trans ?_
    rw [← (readyResult_matchesReference hexec.reachable hready).1]
    decide
  obtain ⟨hhits, hnames, -⟩ := readyResults_agree rfl (by decide) (by decide) hexec hexec' hready
    hready' rfl hroom
  refine ⟨_, _, _, _, hexec, hexec', hhits, hnames 2 ?_⟩
  -- no scoring source has the total 0 of the third rank
  intro a ha b _ htotal
  have hpos := mem_scoringSources.mp ha
  rw [htotal] at hpos
  exact absurd hpos (by decide)

end SysProg.HW4
