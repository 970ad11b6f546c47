import ChessAnalytics.Candidates.Blocks

/-! The two clients on the same search with one variation. -/
namespace ChessAnalytics.Candidates
open Strings Stockfish Systems

/-- A search with one variation to depth `d`: the depths never go down, and the best move is the
first of the last variation. -/
structure SingleSearch (d : Int) where
  records : List Record
  earlier : List FullRecord
  last : FullRecord
  best : Move
  lines : records.filterMap fullOf = earlier ++ [last]
  scores : ∀ depth score, Record.noMoves depth score ∉ records
  single : ∀ r ∈ earlier ++ [last], r.multiPV = 1
  depths : ((earlier ++ [last]).map FullRecord.depth).Pairwise (· ≤ ·)
  bounded : ∀ r ∈ earlier ++ [last], (r.depth : Int) ≤ d
  best_first : last.pv.head? = some best

section
variable {d : Int} (t : SingleSearch d)

private theorem scoredRecords_eq :
    scoredRecords t.records = (t.earlier ++ [t.last]).filterMap fun r => (Record.full r).scored := by
  rw [← t.lines, List.filterMap_filterMap, scoredRecords]
  refine List.filterMap_congr fun r hr => ?_
  cases r with
  | full r => rfl
  | noMoves depth score => exact absurd hr (t.scores depth score)
  | iter depth currmove n => rfl
  | infoString s hs he => rfl

/-- No earlier line is deeper than the last one, so the last line at the wanted depth is the last
line, if there is one at all. -/
private theorem selected_last {p : ParsedInfo} (hp : (Record.full t.last).scored = some p) :
    selected d t.records = some p := by
  have hall : scoredRecords t.records = t.earlier.filterMap (fun r => (Record.full r).scored) ++ [p] := by
    rw [scoredRecords_eq, List.filterMap_append]
    exact congrArg _ (List.filterMap_cons_some hp)
  have hpdepth : p.depth = t.last.depth := by
    obtain rfl := Option.some_inj.mp hp
    rfl
  rw [selected, hall, List.filter_append, List.getLast?_append]
  by_cases hdepth : (p.depth : Int) = d
  · simp [hdepth]
  · have hnone : (t.earlier.filterMap (fun r => (Record.full r).scored)).filter (fun p => (p.depth : Int) = d) = [] := by
      rw [List.filter_eq_nil_iff]
      intro x hx
      obtain ⟨r, hr, hrx⟩ := List.mem_filterMap.mp hx
      obtain rfl := Option.some_inj.mp hrx
      have hdepths := t.depths
      rw [List.map_append, List.pairwise_append] at hdepths
      have hle := hdepths.2.2 r.depth (List.mem_map_of_mem hr) t.last.depth (by simp)
      have hbound := t.bounded t.last (by simp)
      simp only [decide_eq_true_eq]
      omega
    simp [hnone, hdepth]

private theorem single_entry : (kept t.records).lookup 1 = some (fullWords t.last) := by
  have hone : fullEntry t.last = (1, fullWords t.last) := by
    rw [fullEntry, t.single t.last (by simp), Nat.cast_one]
  rw [kept, entries_of_lines t.scores, t.lines, List.map_append, List.map_singleton, hone]
  exact lookup_keepLast_concat _ _ _ _

private theorem shownScore_cp {s : Score} {cp : Int} (h : s.printedCp = some cp) : shownScore s = .number ((cp : ℚ) / 100) := by
  cases s with
  | mate plies => cases h
  | tablebase plies win =>
    obtain rfl := Option.some_inj.mp h
    rfl
  | internalUnits value =>
    obtain rfl := Option.some_inj.mp h
    rfl

private theorem shownScore_mate {s : Score} {n : Int} (h : s.printedMate = some n) :
    shownScore s = .text ("mate in ".toList ++ showInt n) := by
  cases s with
  | mate plies =>
    obtain rfl := Option.some_inj.mp h
    rfl
  | tablebase plies win => cases h
  | internalUnits value => cases h

private theorem last_moves : ∃ pv, t.last.pv = t.best :: pv := by
  have hfirst := t.best_first
  cases hpv : t.last.pv with
  | nil => simp [hpv] at hfirst
  | cons m pv =>
    rw [hpv] at hfirst
    exact ⟨pv, congrArg (· :: pv) (Option.some_inj.mp hfirst)⟩

/-- Both clients take the last line of the search: the same score in their two spellings, and the
same best move. -/
theorem same_verdict (fen : Str) (ponder : Option Move) :
    ∃ e score,
      Stockfish.evaluate fen d (t.records.map Record.print ++
        [onBestmove (move t.best false) (ponder.elim [] (move · false))]) = .ok e ∧
      evaluate 1 (t.records.map Record.print ++ [onBestmove (move t.best false) (ponder.elim [] (move · false))]) =
        .ok (.single (some score) (some (move t.best false))) ∧
      (e.scoreCp.isSome = !e.mateIn.isSome) ∧
      (∀ cp, e.scoreCp = some cp → score = .number ((cp : ℚ) / 100)) ∧
      (∀ n, e.mateIn = some n → score = .text ("mate in ".toList ++ showInt n)) ∧
      e.pv.head? = some (move t.best false) := by
  have hscored : ∃ p, (Record.full t.last).scored = some p := ⟨_, rfl⟩
  obtain ⟨p, hp⟩ := hscored
  have hstock := evaluate_selected fen d t.records t.best ponder
  rw [selected_last t hp] at hstock
  obtain rfl := Option.some_inj.mp hp
  obtain ⟨pv, hpv⟩ := last_moves t
  have hmoves : (if t.last.pv = [] then none else some (t.last.pv.map fun m => move m false)).getD [] =
      move t.best false :: pv.map fun m => move m false := by
    rw [hpv, if_neg (List.cons_ne_nil _ _)]
    rfl
  refine ⟨_, shownScore t.last.score, hstock, ?_, ?_, fun cp h => shownScore_cp h, fun n h => shownScore_mate h, ?_⟩
  · exact evaluate_one t.best ponder (single_entry t) (parseScore_full t.last)
  · cases t.last.score <;> rfl
  · dsimp only
    rw [hmoves]
    rfl

end

/-- Depth 4 with a bound, then depth 5 with a `wdl` field and another best move. -/
def twoDepths : SingleSearch 5 where
  records := [.infoString "Using 1 thread".toList (by decide) (by decide), .iter 4 kingPawn 1,
    .full { variation 4 1 20 kingPawn with bound := some .lower },
    .iter 5 queenPawn 2, .full { variation 5 1 35 queenPawn with wdl := some (120, 850, 30) }]
  earlier := [{ variation 4 1 20 kingPawn with bound := some .lower }]
  last := { variation 5 1 35 queenPawn with wdl := some (120, 850, 30) }
  best := queenPawn
  lines := rfl
  scores depth score h := by simp at h
  single := by decide
  depths := by decide
  bounded := by decide
  best_first := rfl

theorem same_verdict_two_depths :
    ∃ e score,
      Stockfish.evaluate "rnbqkbnr/pppppppp/8/8/8/8/PPPPPPPP/RNBQKBNR w KQkq - 0 1".toList 5
        (twoDepths.records.map Record.print ++
          [onBestmove (move queenPawn false) ((some kingPawn).elim [] (move · false))]) = .ok e ∧
      evaluate 1 (twoDepths.records.map Record.print ++
          [onBestmove (move queenPawn false) ((some kingPawn).elim [] (move · false))]) =
        .ok (.single (some score) (some (move queenPawn false))) ∧
      (e.scoreCp.isSome = !e.mateIn.isSome) ∧
      (∀ cp, e.scoreCp = some cp → score = .number ((cp : ℚ) / 100)) ∧
      (∀ n, e.mateIn = some n → score = .text ("mate in ".toList ++ showInt n)) ∧
      e.pv.head? = some (move queenPawn false) :=
  same_verdict twoDepths _ (some kingPawn)

end ChessAnalytics.Candidates
