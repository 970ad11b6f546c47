import ChessAnalytics.Surprise.Store

/-! Which runs of the analysis and which merges get through. -/
namespace ChessAnalytics.Surprise
open Strings Systems Pgn

/-- A run of the analysis: the arguments, a PGN file, and engines, of which lc0's replies are what
`query` makes of some lines. -/
structure Run where
  P : PyChess
  replies : Replies
  queried : ∀ fen, ∃ entries, Lc0.query entries = .ok (replies.query fen)
  pgn : List (Game P)
  skipPly : Int
  startGame : Int
  games : Int

/-- Every `math.log2` behind the row has a positive argument. -/
def Row.Logs (row : Row) : Prop := ∀ m, ∀ ratio ∈ (row.metrics m).surprise, 0 < ratio

namespace Run

def table (r : Run) : Table := analyzeGames r.replies r.pgn r.games r.startGame r.skipPly

def name (r : Run) : Str := stem ++ suffixOf r.startGame r.games

def outcome (r : Run) (dir : Dir) : Outcome := main r.replies (some r.pgn) r.skipPly r.startGame r.games false dir

/-- The run takes its logarithms, and `main` returns 0. -/
def Completes (r : Run) (dir : Dir) : Prop := (∀ row ∈ r.table, row.Logs) ∧ (r.outcome dir).result = .ok 0

/-- Some game that is asked for is longer than the opening that is skipped. -/
def HasRows (r : Run) : Prop :=
  ∃ g ∈ (r.pgn.drop r.startGame.toNat).take r.games.toNat, g.mainlineMoves ≠ [] ∧ r.skipPly < g.mainlineMoves.length

theorem table_ne_nil {r : Run} : r.table ≠ [] ↔ r.HasRows := by
  rw [table, analyzeGames, Ne, analyzeFrom_eq_nil, HasRows]
  push Not
  rfl

theorem complete (r : Run) : ∀ row ∈ r.table, row.Complete := by
  refine forall_analyzeFrom r.replies fun gameId plyIdx board move => ⟨fun m h => ?_, fun h => ?_⟩
  · obtain ⟨ratio, hratio⟩ := Option.isSome_iff_exists.mp h
    obtain ⟨moveUci, hmetrics⟩ := metrics_computed r.replies hratio
    rw [hmetrics] at h ⊢
    exact ranked_of_surprise h
  · obtain ⟨ratio, hratio⟩ := Option.isSome_iff_exists.mp h
    obtain ⟨best, hbest, -⟩ := bestMetrics_surprise hratio
    exact Option.isSome_iff_exists.mpr ⟨best, hbest⟩

theorem logs (r : Run) : ∀ row ∈ r.table, row.Logs := by
  refine forall_analyzeFrom r.replies fun gameId plyIdx board move m ratio h => ?_
  obtain ⟨moveUci, hmetrics⟩ := metrics_computed r.replies h
  obtain ⟨entries, hquery⟩ := r.queried (r.P.fen board)
  rw [hmetrics] at h
  exact surprise_pos (Lc0.query_sorted hquery) h

theorem outcome_dir (r : Run) (dir : Dir) : (r.outcome dir).dir = saveResults dir r.table r.name :=
  analysisRun_dir r.replies r.pgn r.skipPly r.startGame r.games dir

/-- A run without rows saves its empty table and fails in the summary. -/
theorem outcome_of_nil {r : Run} (h : r.table = []) (dir : Dir) :
    (r.outcome dir).result = .error (.keyError "sf_surprise".toList) := by
  have hsummary : printSummary (dataFrame r.table) = _ := h ▸ printSummary_nil
  rw [outcome, main, if_neg Bool.false_ne_true, analysisRun, ← table, hsummary]

theorem outcome_of_rows {r : Run} (h : r.table ≠ []) (dir : Dir) : (r.outcome dir).result = .ok 0 := by
  obtain ⟨summary, hsummary⟩ := printSummary_ok h r.complete
  rw [outcome, main, if_neg Bool.false_ne_true, analysisRun, ← table, hsummary]

theorem completes_iff (r : Run) (dir : Dir) : r.Completes dir ↔ r.HasRows := by
  rw [← table_ne_nil]
  constructor
  · rintro ⟨-, hresult⟩ hnil
    rw [outcome_of_nil hnil] at hresult
    cases hresult
  · exact fun h => ⟨r.logs, outcome_of_rows h dir⟩

end Run

/-- The analysis directory: every part in it was left by a run. -/
structure AnalysisDir where
  dir : Dir
  left : ∀ p ∈ parts dir, ∃ r : Run, p = parquetOf r.name ∧ dir.lookup p = some r.table

/-- The parts and their JSON files are gone. The combined table is written, and every other file is
as it was. -/
structure RemovesParts (dir dir' : Dir) : Prop where
  removed : ∀ p ∈ parts dir, p ∉ dir' ∧ withJsonSuffix p ∉ dir'
  combined : dir'.lookup combined = some (mergedTable dir)
  others : ∀ file, file ∉ parts dir → (∀ p ∈ parts dir, file ≠ withJsonSuffix p) → file ≠ Surprise.combined →
    file ≠ jsonOf stem → dir'.lookup file = dir.lookup file

namespace AnalysisDir

/-- A merge returns 0 and removes the parts it has read. -/
def Merges (d : AnalysisDir) : Prop :=
  (mergeResults d.dir).result = .ok 0 ∧ RemovesParts d.dir (mergeResults d.dir).dir

def unused (dir : Dir) (h : parts dir = []) : AnalysisDir where
  dir := dir
  left := fun _ hp => (List.not_mem_nil (h ▸ hp)).elim

private theorem run_left (d : AnalysisDir) (r : Run) (p : Str) (hp : p ∈ parts (r.outcome d.dir).dir) :
    ∃ r' : Run, p = parquetOf r'.name ∧ (r.outcome d.dir).dir.lookup p = some r'.table := by
  rw [r.outcome_dir] at hp ⊢
  obtain ⟨hmem, hpart⟩ := mem_parts.mp hp
  have hjson : p ≠ jsonOf r.name := part_ne_jsonOf hpart
  by_cases hfile : p = parquetOf r.name
  · exact ⟨r, hfile, hfile ▸ lookup_saved _ _ _⟩
  · have hold : p ∈ parts d.dir := mem_parts.mpr ⟨((mem_saved.mp hmem).resolve_left hjson).resolve_left hfile, hpart⟩
    rw [lookup_saved_ne _ _ hfile hjson]
    exact d.left p hold

def run (d : AnalysisDir) (r : Run) : AnalysisDir := ⟨(r.outcome d.dir).dir, d.run_left r⟩

theorem run_dir (d : AnalysisDir) (r : Run) : (d.run r).dir = saveResults d.dir r.table r.name := r.outcome_dir d.dir

theorem part_of_run (d : AnalysisDir) {r : Run} (h : isPart (parquetOf r.name) = true) :
    parquetOf r.name ∈ parts (d.run r).dir := by
  rw [run_dir]
  exact mem_parts.mpr ⟨mem_saved.mpr (.inr (.inl rfl)), h⟩

theorem rowsOf_run (d : AnalysisDir) (r : Run) : rowsOf (d.run r).dir (parquetOf r.name) = r.table := by
  rw [run_dir, rowsOf, lookup_saved]
  rfl

theorem complete (d : AnalysisDir) : ∀ row ∈ mergedTable d.dir, row.Complete := by
  intro row hrow
  obtain ⟨p, hp, hrow⟩ := List.mem_flatMap.mp hrow
  obtain ⟨r, -, htable⟩ := d.left p hp
  rw [rowsOf, htable] at hrow
  exact r.complete row hrow

theorem mergedTable_ne_nil {dir : Dir} : mergedTable dir ≠ [] ↔ ∃ p ∈ parts dir, rowsOf dir p ≠ [] := by
  rw [mergedTable, Ne, List.flatMap_eq_nil_iff]
  push Not
  rfl

section
variable {d : AnalysisDir} (hparts : parts d.dir ≠ [])
include hparts

/-- A merge of parts without rows overwrites the combined table, and removes nothing. -/
theorem merge_of_nil (h : mergedTable d.dir = []) :
    mergeResults d.dir = ⟨saveResults d.dir [] stem, .error (.keyError "sf_surprise".toList)⟩ := by
  rw [mergeResults_eq hparts, h, printSummary_nil]

theorem merge_of_rows (h : mergedTable d.dir ≠ []) :
    mergeResults d.dir = cleanUp (saveResults d.dir (mergedTable d.dir) stem) (parts d.dir) := by
  obtain ⟨summary, hsummary⟩ := printSummary_ok h d.complete
  rw [mergeResults_eq hparts, hsummary]

theorem merges_of_rows (h : mergedTable d.dir ≠ []) : d.Merges := by
  have hmem : ∀ p ∈ parts d.dir, p ∈ saveResults d.dir (mergedTable d.dir) stem := fun p hp =>
    mem_saved.mpr (.inr (.inr (mem_parts.mp hp).1))
  obtain ⟨hresult, hremoved⟩ := cleanUp_ok (parts_nodup d.dir) (fun p hp => (mem_parts.mp hp).2) hmem
  have hcombined := lookup_merge hparts
  rw [merge_of_rows hparts h] at hcombined
  rw [Merges, merge_of_rows hparts h]
  refine ⟨hresult, hremoved, hcombined, fun file hpart hjson hfile hfileJson => ?_⟩
  rw [lookup_cleanUp hpart hjson, lookup_saved_ne _ _ hfile hfileJson]

theorem merges_iff : d.Merges ↔ ∃ p ∈ parts d.dir, rowsOf d.dir p ≠ [] := by
  rw [← mergedTable_ne_nil]
  constructor
  · rintro ⟨hresult, -⟩ hnil
    rw [merge_of_nil hparts hnil] at hresult
    cases hresult
  · exact merges_of_rows hparts

end

end AnalysisDir

/-- A run completes exactly when a game that it is asked for is longer than the skipped opening, and
a merge exactly when a part holds a row. -/
theorem analysis_completes_iff (r : Run) (dir : Dir) (d : AnalysisDir) (hparts : parts d.dir ≠ []) :
    (r.Completes dir ↔ r.HasRows) ∧ (d.Merges ↔ ∃ p ∈ parts d.dir, rowsOf d.dir p ≠ []) :=
  ⟨r.completes_iff dir, AnalysisDir.merges_iff hparts⟩

/-- The lines that lc0 prints for its reply, the better move last. -/
def kingPawnLines : List Str :=
  ["info string d2d4  (293 ) N:       3 (+ 0) (P: 25.00%)".toList,
    "info string e2e4  (322 ) N:       6 (+ 0) (P: 50.00%)".toList,
    "info string node  (   2) N:      10 (WL:  0.0)".toList,
    "bestmove e2e4".toList]

theorem kingPawn_queried (fen : Str) : Lc0.query (kingPawnLines.map some) = .ok (kingPawnReplies.query fen) := by
  have hlines : Lc0.drainUntil "bestmove".toList (kingPawnLines.map some) = kingPawnLines := by decide +kernel
  have hread : kingPawnLines.foldlM Lc0.onLine .empty =
      .ok ⟨none, [("d2d4".toList, 1 / 4), ("e2e4".toList, 1 / 2)], some 0, some "e2e4".toList⟩ := by decide +kernel
  have hsort : Lc0.sortPolicy [("d2d4".toList, 1 / 4), ("e2e4".toList, 1 / 2)] =
      [("e2e4".toList, 1 / 2), ("d2d4".toList, 1 / 4)] := by
    simp [Lc0.sortPolicy, List.mergeSort, List.MergeSort.Internal.splitInTwo]
    norm_num
  rw [Lc0.query, hlines, Lc0.headsOf, hread]
  exact congrArg (fun policy => Except.ok (Lc0.Heads.mk none policy (some 0) (some "e2e4".toList))) hsort

def offsetRun : Run where
  P := kingPawnChess
  replies := kingPawnReplies
  queried := fun fen => ⟨_, kingPawn_queried fen⟩
  pgn := [kingPawnGame]
  skipPly := 20
  startGame := 1
  games := 1

/-- A run over the only game, with nothing skipped. -/
def firstRun : Run := { offsetRun with skipPly := 0, startGame := 0 }

/-- The run over the only game completes, and the merge takes its part beside an empty one. -/
theorem first_run_completes :
    firstRun.Completes ∅ ∧ (((AnalysisDir.unused ∅ rfl).run offsetRun).run firstRun).Merges := by
  let d := (AnalysisDir.unused ∅ rfl).run offsetRun
  have hpart : parquetOf firstRun.name ∈ parts (d.run firstRun).dir := d.part_of_run (by decide)
  obtain ⟨hrun, hmerge⟩ := analysis_completes_iff firstRun ∅ (d.run firstRun) (List.ne_nil_of_mem hpart)
  have hrows : firstRun.HasRows := ⟨kingPawnGame, List.mem_cons_self, List.cons_ne_nil _ _, by decide⟩
  refine ⟨hrun.mpr hrows, hmerge.mpr ⟨_, hpart, ?_⟩⟩
  rw [d.rowsOf_run]
  exact Run.table_ne_nil.mpr hrows

/-- A run past the last game fails in its summary and leaves a part behind, and the merge of that
part fails too. -/
theorem offset_run_fails :
    ¬ ((∀ (r : Run) (dir : Dir), r.Completes dir) ∧ ∀ d : AnalysisDir, parts d.dir ≠ [] → d.Merges) ∧
      (offsetRun.outcome ∅).result = .error (.keyError "sf_surprise".toList) ∧
      (mergeResults (offsetRun.outcome ∅).dir).result = .error (.keyError "sf_surprise".toList) := by
  let d := (AnalysisDir.unused ∅ rfl).run offsetRun
  have hnil : offsetRun.table = [] := rfl
  have hpart : parquetOf offsetRun.name ∈ parts d.dir := (AnalysisDir.unused ∅ rfl).part_of_run (by decide)
  have hmerge := AnalysisDir.merge_of_nil (List.ne_nil_of_mem hpart) (by decide +kernel : mergedTable d.dir = [])
  refine ⟨fun h => ?_, Run.outcome_of_nil hnil ∅, congrArg Outcome.result hmerge⟩
  exact (offsetRun.completes_iff ∅).not.mpr (Run.table_ne_nil.not.mp (not_not.mpr hnil)) (h.1 offsetRun ∅)

end ChessAnalytics.Surprise
