import ChessAnalytics.Candidates.Blocks
import ChessAnalytics.Pgn.Mainline

/-! `analyze_game` of `stockfish/scripts`: the candidates of every ply from White's point of view,
and the table that is made of them. -/
namespace ChessAnalytics.Candidates
open Strings Stockfish Systems Pgn

def flipScore : Option ScoreValue → Except PyError (Option ScoreValue)
  | some (.number x) => .ok (some (.number (-x)))
  | some (.text s) =>
    if "mate in ".toList <+: s then
      match (split s).getLast? with
      | some w => do
        let mateVal ← toInt w
        return some (.text ("mate in ".toList ++ showInt (-mateVal)))
      | none => .error .index
    else .ok (some (.text s))
  | none => .ok none

def flipCandidate (r : Candidate) : Except PyError Candidate := do
  let score ← flipScore r.score
  return { r with score := score }

/-- The loop over the results on Black's turns. A number, a text or `None` has no key. -/
def flipResults : Evaluated → Except PyError Evaluated
  | .single _ _ => .error .type
  | .ranked results => do
    let results ← results.mapM flipCandidate
    return .ranked results

/-- One entry of the analysis. -/
structure Entry where
  ply : Nat
  moveNumber : Nat
  side : Str
  fen : Str
  movePlayed : Str
  topMoves : Evaluated
  deriving DecidableEq

structure FrameRow where
  ply : Nat
  moveNumber : Nat
  side : Str
  fen : Str
  movePlayed : Str
  rank : Int
  move : Option Str
  score : Option ScoreValue
  pv : Str
  deriving DecidableEq

/-- One search of the engine: the lines before the best move, and the best move. -/
structure Search where
  records : List Record
  best : Move
  ponder : Option Move

def Search.print (s : Search) : List Str :=
  s.records.map Record.print ++ [onBestmove (move s.best false) (s.ponder.elim [] (move · false))]

section
variable {P : PyChess} (searches : Nat → Search) (multipv : Int)

def plyEntry (plyIdx : Nat) (board : P.Board) (move : P.Move) (topMoves : Evaluated) : Entry :=
  { ply := plyIdx + 1
    moveNumber := P.fullmoveNumber board
    side := sideText (P.turn board)
    fen := P.fen board
    movePlayed := P.uci move
    topMoves := topMoves }

/-- The results of one search, from White's point of view. -/
def topMoves (turn : Chess.Color) (search : Search) : Except PyError Evaluated :=
  match evaluate multipv search.print with
  | .error e => .error e
  | .ok results => if turn = .black then flipResults results else .ok results

/-- The loop over the moves. -/
def analyzeLoop (maxPly : Option Int) : Nat → P.Board → List P.Move → Except PyError (List Entry)
  | _, _, [] => .ok []
  | plyIdx, board, move :: moves =>
    if cutOff maxPly plyIdx then .ok []
    else do
      let results ← topMoves multipv (P.turn board) (searches plyIdx)
      let rest ← analyzeLoop maxPly (plyIdx + 1) (P.push board move) moves
      return plyEntry plyIdx board move results :: rest

def analyzeGame (g : Game P) (maxPly : Option Int) : Except PyError (List Entry) :=
  analyzeLoop searches multipv maxPly 0 g.board g.mainlineMoves

end

/-- The candidates of an entry, if it has a list of them. -/
def Entry.candidates (entry : Entry) : List Candidate :=
  match entry.topMoves with
  | .single _ _ => []
  | .ranked results => results

def frameRow (entry : Entry) (top : Candidate) : FrameRow :=
  { ply := entry.ply, moveNumber := entry.moveNumber, side := entry.side, fen := entry.fen
    movePlayed := entry.movePlayed, rank := top.rank, move := top.move, score := top.score, pv := joined top.pv }

/-- The inner loop of `result_to_dataframe`. The parts of a pair have no key. -/
def entryRows (entry : Entry) : Except PyError (List FrameRow) :=
  match entry.topMoves with
  | .single _ _ => .error .type
  | .ranked results => .ok (results.map (frameRow entry))

def resultToDataframe (entries : List Entry) : Except PyError (List FrameRow) := do
  let rows ← entries.mapM entryRows
  return rows.flatten

private theorem split_mate (n : Int) : split ("mate in ".toList ++ showInt n) = ["mate".toList, "in".toList, showInt n] := by
  have hwords : "mate in ".toList ++ showInt n = joined ["mate".toList, "in".toList, showInt n] := rfl
  rw [hwords]
  refine split_joined _ ?_
  simp only [List.forall_mem_cons]
  exact ⟨by decide, by decide, ⟨showInt_ne_nil n, fun _ hc => isSpace_showInt hc⟩, by simp⟩

theorem flipScore_mate (n : Int) :
    flipScore (some (.text ("mate in ".toList ++ showInt n))) = .ok (some (.text ("mate in ".toList ++ showInt (-n)))) := by
  rw [flipScore, if_pos (List.prefix_append _ _), split_mate]
  simp only [List.getLast?_cons_cons, List.getLast?_singleton, toInt_showInt]
  rfl

/-- A score and the same score from the other side. -/
inductive Negated : Option ScoreValue → Option ScoreValue → Prop
  | number (x : ℚ) : Negated (some (.number x)) (some (.number (-x)))
  | mate (n : Int) :
      Negated (some (.text ("mate in ".toList ++ showInt n))) (some (.text ("mate in ".toList ++ showInt (-n))))
  | absent : Negated none none

/-- A candidate as it is reported for a ply, against the one that `evaluate` returned. -/
structure Reported (turn : Chess.Color) (result top : Candidate) : Prop where
  rank : top.rank = result.rank
  move : top.move = result.move
  pv : top.pv = result.pv
  score : if turn = .black then Negated result.score top.score else top.score = result.score

private theorem flipScore_shown (s : Score) : ∃ f, flipScore (some (shownScore s)) = .ok f ∧ Negated (some (shownScore s)) f := by
  cases s with
  | mate plies => exact ⟨_, flipScore_mate _, .mate _⟩
  | tablebase plies win => exact ⟨_, rfl, .number _⟩
  | internalUnits value => exact ⟨_, rfl, .number _⟩

private theorem parse_entry {r : Record} {e : Int × List Str} (h : entryOf r = some e) :
    ∃ s, parseScore e.2 = .ok (some (shownScore s)) := by
  cases r with
  | full r =>
    obtain rfl := Option.some_inj.mp h
    exact ⟨r.score, parseScore_full r⟩
  | noMoves depth score =>
    obtain rfl := Option.some_inj.mp h
    exact ⟨score, parseScore_noMoves depth score⟩
  | iter depth currmove n => cases h
  | infoString s hs he => cases h

private theorem kept_scored {rs : List Record} {rank : Int} (h : rank ∈ kept rs) :
    ∃ s c, candidate rank (((kept rs).lookup rank).getD []) = .ok c ∧ c.score = some (shownScore s) := by
  obtain ⟨parts, hparts⟩ := Option.isSome_iff_exists.mp (AList.lookup_isSome.mpr h)
  obtain ⟨r, -, hr⟩ : ∃ r ∈ rs, entryOf r = some (rank, parts) := by
    rcases mem_of_lookup_keepLast hparts with h | h
    · cases h
    · exact List.mem_filterMap.mp h
  obtain ⟨s, hs⟩ := parse_entry hr
  rw [hparts, Option.getD_some, candidate, hs]
  exact ⟨s, _, rfl, rfl⟩

private theorem evaluate_ranked {multipv : Int} (hk : multipv ≠ 1) (search : Search) :
    ∃ results, evaluate multipv search.print = .ok (.ranked results) ∧
      ∀ c ∈ results, ∃ s, c.score = some (shownScore s) := by
  have hranks : ∀ rank ∈ sortedKeys (kept search.records), ∃ c,
      candidate rank (((kept search.records).lookup rank).getD []) = .ok c ∧ ∃ s, c.score = some (shownScore s) := by
    intro rank hrank
    obtain ⟨s, c, hc, hs⟩ := kept_scored ((List.mem_insertionSort _).mp hrank)
    exact ⟨c, hc, s, hs⟩
  obtain ⟨results, hresults, hgood⟩ := mapM_forall₂ hranks
  refine ⟨results, evaluate_many search.best search.ponder hk hresults, fun c hc => ?_⟩
  obtain ⟨i, hi, rfl⟩ := List.mem_iff_getElem.mp hc
  exact (List.forall₂_iff_get.mp hgood).2 i (hgood.length_eq ▸ hi) hi

private theorem topMoves_ranked {multipv : Int} (hk : multipv ≠ 1) (turn : Chess.Color) (search : Search) :
    ∃ results top, evaluate multipv search.print = .ok (.ranked results) ∧
      topMoves multipv turn search = .ok (.ranked top) ∧ List.Forall₂ (Reported turn) results top := by
  obtain ⟨results, hresults, hgood⟩ := evaluate_ranked hk search
  cases turn with
  | white =>
    refine ⟨results, results, hresults, ?_, List.forall₂_same.mpr fun c _ => ⟨rfl, rfl, rfl, rfl⟩⟩
    rw [topMoves, hresults]
    rfl
  | black =>
    obtain ⟨top, htop, hreported⟩ : ∃ top, results.mapM flipCandidate = .ok top ∧
        List.Forall₂ (Reported .black) results top := by
      refine mapM_forall₂ fun c hc => ?_
      obtain ⟨s, hs⟩ := hgood c hc
      obtain ⟨f, hf, hneg⟩ := flipScore_shown s
      refine ⟨{ c with score := f }, ?_, rfl, rfl, rfl, by rw [if_pos rfl, hs]; exact hneg⟩
      rw [flipCandidate, hs, hf]
      rfl
    refine ⟨results, top, hresults, ?_, hreported⟩
    rw [topMoves, hresults]
    dsimp only
    rw [if_pos rfl, flipResults, htop]
    rfl

section
variable {P : PyChess} (searches : Nat → Search) (multipv : Int)

/-- The entry of the ply with this index, if the game has it. -/
def entryAt (tops : Nat → List Candidate) (g : Game P) (k : Nat) : Option Entry :=
  g.mainlineMoves[k]?.map fun move => plyEntry k (boardAt g k) move (.ranked (tops k))

private theorem analyzeLoop_stop {g : Game P} {maxPly : Option Int} {k : Nat} (hk : analysed g maxPly ≤ k) :
    analyzeLoop searches multipv maxPly k (boardAt g k) (g.mainlineMoves.drop k) = .ok [] := by
  rcases stops_at hk with hend | ⟨move, moves, hmoves, hcut⟩
  · rw [hend]
    rfl
  · rw [hmoves, analyzeLoop, if_pos hcut]

/-- The loop from the ply with index `k` on, when `n` more plies are analysed. -/
private theorem analyzeLoop_eq {g : Game P} {maxPly : Option Int} {tops : Nat → List Candidate}
    (htops : ∀ k, topMoves multipv (P.turn (boardAt g k)) (searches k) = .ok (.ranked (tops k))) {k n : Nat}
    (hn : k + n = analysed g maxPly) :
    analyzeLoop searches multipv maxPly k (boardAt g k) (g.mainlineMoves.drop k) =
      .ok ((List.range' k n).filterMap (entryAt tops g)) := by
  refine loop_induction (motive := fun k n =>
    analyzeLoop searches multipv maxPly k (boardAt g k) (g.mainlineMoves.drop k) =
      .ok ((List.range' k n).filterMap (entryAt tops g)))
    (analyzeLoop_stop searches multipv le_rfl) (fun k n move h ih => ?_) hn
  have hentry : entryAt tops g k = some (plyEntry k (boardAt g k) move (.ranked (tops k))) := by
    rw [entryAt, h.get]
    rfl
  rw [h.board] at ih
  rw [h.drop, analyzeLoop, if_neg h.within, htops, ih, List.range'_succ, List.filterMap_cons_some hentry]
  rfl

/-- A row of the table shows one candidate of an entry. -/
structure Shows (entry : Entry) (top : Candidate) (row : FrameRow) : Prop where
  ply : row.ply = entry.ply
  moveNumber : row.moveNumber = entry.moveNumber
  side : row.side = entry.side
  fen : row.fen = entry.fen
  movePlayed : row.movePlayed = entry.movePlayed
  rank : row.rank = top.rank
  move : row.move = top.move
  score : row.score = top.score
  pv : row.pv = joined top.pv

/-- One entry for each analysed ply, with the fields of the ply and a list of candidates from White's
point of view, and one row of the table for each candidate, in their order. -/
structure Works (g : Game P) (maxPly : Option Int) (entries : List Entry) (rows : List FrameRow) : Prop where
  length : entries.length = analysed g maxPly
  ply : ∀ k entry, entries[k]? = some entry →
    OfPly g k entry.ply entry.moveNumber entry.side entry.fen entry.movePlayed
  candidates : ∀ k entry, entries[k]? = some entry → ∃ results top, entry.topMoves = .ranked top ∧
    evaluate multipv (searches k).print = .ok (.ranked results) ∧
    List.Forall₂ (Reported (P.turn (boardAt g k))) results top
  frame : List.Forall₂ (fun pair row => Shows pair.1 pair.2 row)
    (entries.flatMap fun entry => entry.candidates.map (Prod.mk entry)) rows

private theorem resultToDataframe_ranked {entries : List Entry} (h : ∀ e ∈ entries, ∃ top, e.topMoves = .ranked top) :
    resultToDataframe entries = .ok (entries.flatMap fun e => e.candidates.map (frameRow e)) := by
  have hrows : ∀ e ∈ entries, entryRows e = .ok (e.candidates.map (frameRow e)) := by
    intro e he
    obtain ⟨top, htop⟩ := h e he
    rw [entryRows, Entry.candidates, htop]
  rw [resultToDataframe, mapM_ok hrows]
  rfl

private theorem evaluate_single (lines : List Str) (results : List Candidate) : evaluate 1 lines ≠ .ok (.ranked results) := by
  intro h
  rw [evaluate] at h
  split at h
  · cases h
  · rw [if_pos rfl] at h
    rename_i d bestMove _
    cases hscore : parseScore ((d.lookup 1).getD []) with
    | error e =>
      rw [hscore] at h
      cases h
    | ok score =>
      rw [hscore] at h
      cases h

private theorem rows_show (entries : List Entry) :
    List.Forall₂ (fun pair row => Shows pair.1 pair.2 row)
      (entries.flatMap fun entry => entry.candidates.map (Prod.mk entry))
      (entries.flatMap fun entry => entry.candidates.map (frameRow entry)) := by
  have hrows : (entries.flatMap fun entry => entry.candidates.map (frameRow entry)) =
      (entries.flatMap fun entry => entry.candidates.map (Prod.mk entry)).map fun pair => frameRow pair.1 pair.2 := by
    rw [List.map_flatMap]
    refine List.flatMap_congr fun entry _ => ?_
    rw [List.map_map]
    rfl
  rw [hrows, List.forall₂_map_right_iff]
  exact List.forall₂_same.mpr fun pair _ => ⟨rfl, rfl, rfl, rfl, rfl, rfl, rfl, rfl, rfl⟩

private theorem works {g : Game P} {maxPly : Option Int} {results tops : Nat → List Candidate}
    (hresults : ∀ k, evaluate multipv (searches k).print = .ok (.ranked (results k)))
    (hreported : ∀ k, List.Forall₂ (Reported (P.turn (boardAt g k))) (results k) (tops k)) :
    let entries := (List.range (analysed g maxPly)).filterMap (entryAt tops g)
    Works searches multipv g maxPly entries (entries.flatMap fun e => e.candidates.map (frameRow e)) := by
  intro entries
  have hentries : entries = (List.range' 0 (analysed g maxPly)).filterMap (entryAt tops g) := by
    rw [← List.range_eq_range']
  obtain ⟨hlength, hentry⟩ := records_of_plies (analysed_within g maxPly)
    (fun k move => plyEntry k (boardAt g k) move (.ranked (tops k))) hentries
  simp only [Nat.zero_add] at hentry
  refine ⟨hlength, fun k entry h => ?_, fun k entry h => ?_, rows_show entries⟩
  · obtain ⟨move, hmove, rfl⟩ := hentry k entry h
    exact ofPly hmove
  · obtain ⟨move, -, rfl⟩ := hentry k entry h
    exact ⟨results k, tops k, rfl, hresults k, hreported k⟩

/-- The analysis of a game and its table come out as described exactly if more than one variation is
asked for or no ply is analysed. -/
theorem analysis_works_iff (g : Game P) (maxPly : Option Int) :
    (∃ entries rows, analyzeGame searches multipv g maxPly = .ok entries ∧ resultToDataframe entries = .ok rows ∧
      Works searches multipv g maxPly entries rows) ↔ multipv ≠ 1 ∨ analysed g maxPly = 0 := by
  constructor
  · rintro ⟨entries, rows, -, -, hworks⟩
    by_contra hnot
    obtain ⟨hone, hplies⟩ := not_or.mp hnot
    obtain rfl := not_not.mp hone
    have hfirst : 0 < entries.length := by
      rw [hworks.length]
      omega
    obtain ⟨results, -, -, hresults, -⟩ := hworks.candidates 0 _ (List.getElem?_eq_getElem hfirst)
    exact evaluate_single _ results hresults
  · intro hwhen
    rcases eq_or_ne multipv 1 with hone | hmany
    · have hzero : analysed g maxPly = 0 := hwhen.resolve_left (not_not.mpr hone)
      exact ⟨[], [], analyzeLoop_stop searches multipv hzero.le, rfl, hzero.symm, fun k e h => (by cases h),
        fun k e h => (by cases h), .nil⟩
    · choose results tops hresults htops hreported using fun k =>
        topMoves_ranked hmany (P.turn (boardAt g k)) (searches k)
      have hentries := analyzeLoop_eq searches multipv htops (Nat.zero_add (analysed g maxPly))
      rw [List.drop_zero, ← List.range_eq_range'] at hentries
      refine ⟨_, _, hentries, resultToDataframe_ranked fun e he => ?_, works searches multipv hresults hreported⟩
      obtain ⟨k, -, hk⟩ := List.mem_filterMap.mp he
      obtain ⟨move, -, rfl⟩ := Option.map_eq_some_iff.mp hk
      exact ⟨tops k, rfl⟩

end

/-- A search of the first position that prints one line. -/
def oneLine : Search := ⟨[.full (variation 1 1 20 kingPawn)], kingPawn, none⟩

/-- The entry of White's first ply, with the pair of one variation. -/
def pairEntry : Entry where
  ply := 1
  moveNumber := 1
  side := "white".toList
  fen := "rnbqkbnr/pppppppp/8/8/8/8/PPPPPPPP/RNBQKBNR w KQkq - 0 1".toList
  movePlayed := "e2e4".toList
  topMoves := .single (some (.number (20 / 100))) (some "e2e4".toList)

/-- With one variation White's ply stores the pair, and the table is not made. -/
theorem single_variation_raises :
    analyzeGame (fun _ => oneLine) 1 kingPawnGame none = .ok [pairEntry] ∧
    resultToDataframe [pairEntry] = .error .type ∧
    ¬ ∃ entries rows, analyzeGame (fun _ => oneLine) 1 kingPawnGame none = .ok entries ∧
      resultToDataframe entries = .ok rows ∧ Works (fun _ => oneLine) 1 kingPawnGame none entries rows := by
  have hevaluate : evaluate 1 oneLine.print = .ok (.single (some (.number (20 / 100))) (some "e2e4".toList)) := by
    decide +kernel
  have htop : topMoves 1 .white oneLine = .ok (.single (some (.number (20 / 100))) (some "e2e4".toList)) := by
    rw [topMoves, hevaluate]
    rfl
  have hloop : analyzeGame (fun _ => oneLine) 1 kingPawnGame none = (do
      let results ← topMoves 1 .white oneLine
      return [plyEntry (P := kingPawnChess) 0 false () results]) := rfl
  have hentries : analyzeGame (fun _ => oneLine) 1 kingPawnGame none = .ok [pairEntry] := by
    rw [hloop, htop]
    rfl
  refine ⟨hentries, rfl, ?_⟩
  rintro ⟨entries, rows, hgame, hframe, -⟩
  obtain rfl := Except.ok.inj (hentries.symm.trans hgame)
  cases hframe

end ChessAnalytics.Candidates
