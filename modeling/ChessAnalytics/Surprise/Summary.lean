import ChessAnalytics.Surprise.Analysis
import ChessAnalytics.Systems.Traversal
import Mathlib.Data.List.Sort

/-! The table as a pandas frame, and the summary of it that the script prints. -/
namespace ChessAnalytics.Surprise
open Systems Pgn

inductive Failure where
  | fileNotFound (file : Str)
  | keyError (column : Str)
  | typeError (text : Str)
  | valueError (text : Str)
  deriving DecidableEq

/-- The moves of a position that have metrics. -/
inductive Measured where
  | sf
  | lc0
  | movePlayed
  deriving DecidableEq

def Measured.key (m : Measured) : Str :=
  match m with
  | .sf => "sf".toList
  | .lc0 => "lc0".toList
  | .movePlayed => "move_played".toList

def Measured.surpriseColumn (m : Measured) : Str := m.key ++ "_surprise".toList

def Row.metrics (row : Row) (m : Measured) : Metrics :=
  match m with
  | .sf => row.sfMetrics
  | .lc0 => row.lc0Metrics
  | .movePlayed => row.playedMetrics

/-- The keys of a row, in the order in which `analyze_games` lists them. -/
def columnNames : List Str :=
  ["game_id".toList, "ply".toList, "move_number".toList, "side".toList, "fen".toList, "move_played".toList,
    "move_played_san".toList, "sf_best_move".toList, "sf_score".toList, "sf_policy_prior".toList,
    "sf_policy_rank".toList, "sf_surprise".toList, "lc0_best_move".toList, "lc0_q".toList,
    "lc0_policy_prior".toList, "lc0_policy_rank".toList, "lc0_surprise".toList,
    "move_played_policy_prior".toList, "move_played_policy_rank".toList, "move_played_surprise".toList]

/-- A frame: the columns it has, and its rows. -/
structure Frame where
  columns : List Str
  rows : Table

/-- `pd.DataFrame(rows)`: the columns are those of the rows, so that no row means no column. -/
def dataFrame (rows : Table) : Frame := ⟨if rows = [] then [] else columnNames, rows⟩

namespace Frame

/-- `pd.concat`: every column of any of the frames, in the order in which they come up. -/
def concat (dfs : List Frame) : Frame where
  columns := dfs.foldl (fun columns df => columns ++ df.columns.filter (· ∉ columns)) []
  rows := (dfs.map Frame.rows).flatten

/-- `df.dropna(subset=[column])`. -/
def dropna (df : Frame) (m : Measured) : Except Failure Frame :=
  if m.surpriseColumn ∈ df.columns then .ok { df with rows := df.rows.filter fun row => (row.metrics m).surprise.isSome }
  else .error (.keyError m.surpriseColumn)

/-- `df[column].dropna()`. -/
def values (df : Frame) (m : Measured) : Except Failure (List ℚ) :=
  if m.surpriseColumn ∈ df.columns then .ok (df.rows.filterMap fun row => (row.metrics m).surprise)
  else .error (.keyError m.surpriseColumn)

/-- `df.nlargest(n, column)`, which keeps the order of equal surprises. -/
def nlargest (df : Frame) (n : Nat) (m : Measured) : Table :=
  (df.rows.insertionSort fun a b => (b.metrics m).surprise.getD 0 ≤ (a.metrics m).surprise.getD 0).take n

end Frame

/-- A line of one of the two lists: the values, without their padding. -/
structure TopLine where
  gameId : Str
  moveNumber : Nat
  dot : Str
  movePlayedSan : Str
  best : Option Str
  policyRank : Nat
  policyPrior : Option ℚ
  surprise : Option ℚ

/-- `int(rank)`; an absent rank is a NaN by then. -/
def toInt (rank : Option Nat) : Except Failure Nat :=
  match rank with
  | some rank => .ok rank
  | none => .error (.valueError "cannot convert float NaN to integer".toList)

/-- `f"{best:<6}"`. -/
def padded (best : Option Str) : Except Failure Str :=
  match best with
  | some best => .ok best
  | none => .error (.typeError "unsupported format string passed to NoneType.__format__".toList)

def topLine (m : Measured) (best : Option Str) (row : Row) : Except Failure TopLine := do
  let policyRank ← toInt (row.metrics m).policyRank
  return {
    gameId := row.gameId.take 30
    moveNumber := row.moveNumber
    dot := if row.side = "white".toList then ".".toList else "...".toList
    movePlayedSan := row.movePlayedSan
    best := best
    policyRank := policyRank
    policyPrior := (row.metrics m).policyPrior
    surprise := (row.metrics m).surprise }

/-- A line of the first list, which also names the best move. -/
def sfLine (row : Row) : Except Failure TopLine := do
  let best ← padded row.sfBestMove
  topLine .sf (some best) row

def playedLine (row : Row) : Except Failure TopLine := topLine .movePlayed none row

def top (df : Frame) (m : Measured) (line : Row → Except Failure TopLine) : Except Failure (List TopLine) := do
  let valid ← df.dropna m
  (valid.nlargest 20 m).mapM line

/-- The values behind the statistics of one label, which are printed if there are any. -/
def statistics (df : Frame) (label : Str × Measured) : Except Failure (Str × List ℚ) := do
  let valid ← df.values label.2
  return (label.1, valid)

def labels : List (Str × Measured) :=
  [("SF best move surprise".toList, .sf), ("lc0 best move surprise".toList, .lc0),
    ("Move played surprise".toList, .movePlayed)]

structure Summary where
  total : Nat
  topSf : List TopLine
  topPlayed : List TopLine
  statistics : List (Str × List ℚ)

/-- `print_summary`. Its first loop asks for each column whether the frame has it, and leaves the
numbers as they are. -/
def printSummary (df : Frame) : Except Failure Summary := do
  let topSf ← top df .sf sfLine
  let topPlayed ← top df .movePlayed playedLine
  let statistics ← labels.mapM (statistics df)
  return ⟨df.rows.length, topSf, topPlayed, statistics⟩

theorem surpriseColumn_mem (m : Measured) : m.surpriseColumn ∈ columnNames := by cases m <;> decide

theorem dataFrame_columns {rows : Table} (h : rows ≠ []) : (dataFrame rows).columns = columnNames := if_neg h

private theorem join_columns {columns : List Str} (h : columns = [] ∨ columns = columnNames) (rows : Table) :
    columns ++ (dataFrame rows).columns.filter (· ∉ columns) = if rows = [] then columns else columnNames := by
  rw [dataFrame]
  split
  · exact List.append_nil columns
  · rcases h with rfl | rfl
    · simp
    · have hnew : columnNames.filter (· ∉ columnNames) = [] := List.filter_eq_nil_iff.mpr fun c hc => by simp [hc]
      rw [hnew, List.append_nil]

private theorem foldl_columns (tables : List Table) {columns : List Str} (h : columns = [] ∨ columns = columnNames) :
    (tables.map dataFrame).foldl (fun columns df => columns ++ df.columns.filter (· ∉ columns)) columns =
      if tables.flatten = [] then columns else columnNames := by
  induction tables generalizing columns with
  | nil => rfl
  | cons rows tables ih =>
    rw [List.map_cons, List.foldl_cons, join_columns h, List.flatten_cons]
    cases rows with
    | nil => exact ih h
    | cons row rows =>
      rw [if_neg (List.cons_ne_nil _ _), ih (.inr rfl), ite_self]
      rfl

/-- Frames of rows join to the frame of all the rows: an empty one among them takes no column away. -/
theorem concat_dataFrame (tables : List Table) : Frame.concat (tables.map dataFrame) = dataFrame tables.flatten := by
  have hrows : (tables.map dataFrame).map Frame.rows = tables := by
    rw [List.map_map]
    exact List.map_id tables
  rw [Frame.concat, foldl_columns tables (.inl rfl), hrows]
  rfl

/-- A surprise comes with a rank, and that of Stockfish's move with the move. -/
structure Row.Complete (row : Row) : Prop where
  ranked : ∀ m, (row.metrics m).surprise.isSome = true → (row.metrics m).policyRank.isSome = true
  named : row.sfMetrics.surprise.isSome = true → row.sfBestMove.isSome = true

/-- A surprise of a row is that of a move in the policy of the position. -/
theorem metrics_computed {P : PyChess} (replies : Replies) {gameId : Str} {plyIdx : Nat} {board : P.Board} {move : P.Move}
    {m : Measured} {ratio : ℚ} (h : ratio ∈ ((positionRow replies gameId plyIdx board move).metrics m).surprise) :
    ∃ moveUci, (positionRow replies gameId plyIdx board move).metrics m =
      computeSurpriseMetrics (replies.query (P.fen board)).policy moveUci := by
  cases m with
  | sf => exact (bestMetrics_surprise h).imp fun _ => And.right
  | lc0 => exact (bestMetrics_surprise h).imp fun _ => And.right
  | movePlayed => exact ⟨P.uci move, rfl⟩

theorem dropna_dataFrame {rows : Table} (h : rows ≠ []) (m : Measured) :
    (dataFrame rows).dropna m = .ok ⟨columnNames, rows.filter fun row => (row.metrics m).surprise.isSome⟩ := by
  have hcolumn : m.surpriseColumn ∈ (dataFrame rows).columns := dataFrame_columns h ▸ surpriseColumn_mem m
  rw [Frame.dropna, if_pos hcolumn, dataFrame_columns h]
  rfl

theorem values_dataFrame {rows : Table} (h : rows ≠ []) (m : Measured) :
    (dataFrame rows).values m = .ok (rows.filterMap fun row => (row.metrics m).surprise) := by
  have hcolumn : m.surpriseColumn ∈ (dataFrame rows).columns := dataFrame_columns h ▸ surpriseColumn_mem m
  rw [Frame.values, if_pos hcolumn]
  rfl

theorem mem_nlargest {df : Frame} {n : Nat} {m : Measured} {row : Row} (h : row ∈ df.nlargest n m) : row ∈ df.rows :=
  (List.mem_insertionSort _).mp (List.mem_of_mem_take h)

/-- The rows of a list have the surprise that they are listed for. -/
theorem top_ok {rows : Table} (h : rows ≠ []) {m : Measured} {line : Row → Except Failure TopLine}
    (hline : ∀ row ∈ rows, (row.metrics m).surprise.isSome = true → ∃ l, line row = .ok l) :
    ∃ ls, top (dataFrame rows) m line = .ok ls := by
  rw [top, dropna_dataFrame h]
  refine mapM_succeeds fun row hrow => ?_
  obtain ⟨hmem, hsurprise⟩ := List.mem_filter.mp (mem_nlargest hrow)
  exact hline row hmem hsurprise

theorem topLine_ok {row : Row} {m : Measured} (h : (row.metrics m).policyRank.isSome = true) (best : Option Str) :
    ∃ l, topLine m best row = .ok l := by
  obtain ⟨rank, hrank⟩ := Option.isSome_iff_exists.mp h
  rw [topLine, hrank]
  exact ⟨_, rfl⟩

theorem sfLine_ok {row : Row} (h : row.Complete) (hsurprise : row.sfMetrics.surprise.isSome = true) :
    ∃ l, sfLine row = .ok l := by
  obtain ⟨best, hbest⟩ := Option.isSome_iff_exists.mp (h.named hsurprise)
  rw [sfLine, hbest]
  exact topLine_ok (h.ranked .sf hsurprise) (some best)

theorem playedLine_ok {row : Row} (h : row.Complete) (hsurprise : row.playedMetrics.surprise.isSome = true) :
    ∃ l, playedLine row = .ok l := topLine_ok (h.ranked .movePlayed hsurprise) none

/-- The summary of a table without rows fails at its first list. -/
theorem printSummary_nil : printSummary (dataFrame []) = .error (.keyError "sf_surprise".toList) := rfl

theorem printSummary_ok {rows : Table} (h : rows ≠ []) (hrows : ∀ row ∈ rows, row.Complete) :
    ∃ summary, printSummary (dataFrame rows) = .ok summary := by
  obtain ⟨topSf, hsf⟩ := top_ok (m := .sf) h fun row hrow => sfLine_ok (hrows row hrow)
  obtain ⟨topPlayed, hplayed⟩ := top_ok (m := .movePlayed) h fun row hrow => playedLine_ok (hrows row hrow)
  have hstatistics : labels.mapM (statistics (dataFrame rows)) =
      .ok (labels.map fun label => (label.1, rows.filterMap fun row => (row.metrics label.2).surprise)) := by
    refine mapM_ok fun label _ => ?_
    rw [statistics, values_dataFrame h]
    rfl
  rw [printSummary, hsf, hplayed, hstatistics]
  exact ⟨_, rfl⟩

end ChessAnalytics.Surprise
