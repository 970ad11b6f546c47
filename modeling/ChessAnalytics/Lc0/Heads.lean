import ChessAnalytics.Lc0.Commands
import ChessAnalytics.Pgn.Mainline

/-! The two reports of `lc0_heads`: the records of `analyze_game` with the commands it sends, and
what `run` prints. -/
namespace ChessAnalytics.Lc0
open Strings Chess Systems Pgn

/-- The commands of one call of `query`. -/
def queryCommands (fen : Str) (nodes : Option Int) : List Str :=
  ["position fen ".toList ++ fen, "go nodes ".toList ++ showInt (nodes.getD defaultNodes)]

theorem queryCommands_query (q : Query) : queryCommands q.fen.val q.nodes = [positionCommand q, goCommand q] := rfl

structure ValueHead where
  win : Option ℚ
  draw : Option ℚ
  loss : Option ℚ
  q : Option ℚ
  deriving DecidableEq

def valueHead (side : Color) (result : Heads) : ValueHead :=
  let wdl := if side = .black then result.wdl.map fun (w, d, l) => (l, d, w) else result.wdl
  { win := wdl.map fun t => t.1
    draw := wdl.map fun t => t.2.1
    loss := wdl.map fun t => t.2.2
    q := if side = .black then result.q.map (- ·) else result.q }

structure PlyRecord where
  ply : Nat
  moveNumber : Nat
  side : Str
  fen : Str
  movePlayed : Str
  valueHead : ValueHead
  policyHead : List (Str × ℚ)
  deriving DecidableEq

section
variable {P : PyChess}

def plyRecord (result : Heads) (plyIdx : Nat) (board : P.Board) (move : P.Move) : PlyRecord :=
  { ply := plyIdx + 1
    moveNumber := P.fullmoveNumber board
    side := Pgn.sideText (P.turn board)
    fen := P.fen board
    movePlayed := P.uci move
    valueHead := valueHead (P.turn board) result
    policyHead := result.policy }

/-- The loop over the moves: the commands it sends and the records. The queries of a run are
answered in their order. -/
def analyzeLoop (replies : Nat → Heads) (maxPly : Option Int) : Nat → P.Board → List P.Move → List Str × List PlyRecord
  | _, _, [] => ([], [])
  | plyIdx, board, move :: moves =>
    if cutOff maxPly plyIdx then ([], [])
    else
      let rest := analyzeLoop replies maxPly (plyIdx + 1) (P.push board move) moves
      (queryCommands (P.fen board) none ++ rest.1, plyRecord (replies plyIdx) plyIdx board move :: rest.2)

/-- `analyze_game`, behind the handshake. -/
def analyzeGame (replies : Nat → Heads) (g : Game P) (_nodes : Int) (maxPly : Option Int) : List Str × List PlyRecord :=
  let result := analyzeLoop replies maxPly 0 g.board g.mainlineMoves
  (result.1 ++ ["quit".toList], result.2)

/-- The record of the ply with this index, if the game has it. -/
def recordAt (replies : Nat → Heads) (g : Game P) (k : Nat) : Option PlyRecord :=
  g.mainlineMoves[k]?.map (plyRecord (replies k) k (boardAt g k))

/-- The loop from the ply with index `k` on, when `n` more plies are analysed. -/
private theorem analyzeLoop_eq (replies : Nat → Heads) (g : Game P) (maxPly : Option Int) {k n : Nat}
    (hn : k + n = analysed g maxPly) :
    analyzeLoop replies maxPly k (boardAt g k) (g.mainlineMoves.drop k) =
      ((List.range' k n).flatMap (fun i => queryCommands (P.fen (boardAt g i)) none),
        (List.range' k n).filterMap (recordAt replies g)) := by
  refine loop_induction (motive := fun k n => analyzeLoop replies maxPly k (boardAt g k) (g.mainlineMoves.drop k) =
      ((List.range' k n).flatMap (fun i => queryCommands (P.fen (boardAt g i)) none),
        (List.range' k n).filterMap (recordAt replies g))) ?_ (fun k n move h ih => ?_) hn
  · rcases stops_at (le_refl (analysed g maxPly)) with hend | ⟨move, moves, hmoves, hcut⟩
    · rw [hend]
      rfl
    · rw [hmoves, analyzeLoop, if_pos hcut]
      rfl
  · have hrecord : recordAt replies g k = some (plyRecord (replies k) k (boardAt g k) move) := by
      rw [recordAt, h.get]
      rfl
    rw [h.board] at ih
    rw [h.drop, analyzeLoop, if_neg h.within, ih, List.range'_succ, List.flatMap_cons, List.filterMap_cons_some hrecord]

theorem analyzeGame_eq (replies : Nat → Heads) (g : Game P) (nodes : Int) (maxPly : Option Int) :
    analyzeGame replies g nodes maxPly =
      ((List.range (analysed g maxPly)).flatMap (fun k => queryCommands (P.fen (boardAt g k)) none) ++ ["quit".toList],
        (List.range (analysed g maxPly)).filterMap (recordAt replies g)) := by
  have hloop := analyzeLoop_eq replies g maxPly (k := 0) (n := analysed g maxPly) (by omega)
  rw [List.drop_zero] at hloop
  rw [analyzeGame, List.range_eq_range']
  exact congrArg (fun r => (r.1 ++ ["quit".toList], r.2)) hloop

/-- A record has the heads of this reply, the value head from White's point of view. -/
structure HasHeads (turn : Color) (reply : Heads) (r : PlyRecord) : Prop where
  policy : r.policyHead = reply.policy
  win : r.valueHead.win = reply.wdl.map fun t => if turn = .white then t.1 else t.2.2
  draw : r.valueHead.draw = reply.wdl.map fun t => t.2.1
  loss : r.valueHead.loss = reply.wdl.map fun t => if turn = .white then t.2.2 else t.1
  q : r.valueHead.q = reply.q.map fun x => if turn = .white then x else -x

/-- The commands of an analysis with this node count, and the records that belong to its plies. -/
structure Budgeted (replies : Nat → Heads) (g : Game P) (nodes : Int) (maxPly : Option Int) (commands : List Str)
    (records : List PlyRecord) : Prop where
  commands : commands = ((List.range (analysed g maxPly)).flatMap fun k =>
    ["position fen ".toList ++ P.fen (boardAt g k), "go nodes ".toList ++ showInt nodes]) ++ ["quit".toList]
  length : records.length = analysed g maxPly
  ply : ∀ k r, records[k]? = some r → OfPly g k r.ply r.moveNumber r.side r.fen r.movePlayed
  heads : ∀ k r, records[k]? = some r → HasHeads (P.turn (boardAt g k)) (replies k) r

private theorem valueHead_eq (turn : Color) (reply : Heads) : valueHead turn reply =
    { win := reply.wdl.map fun t => if turn = .white then t.1 else t.2.2
      draw := reply.wdl.map fun t => t.2.1
      loss := reply.wdl.map fun t => if turn = .white then t.2.2 else t.1
      q := reply.q.map fun x => if turn = .white then x else -x } := by
  cases turn with
  | white => simp [valueHead]
  | black => simp [valueHead, Function.comp_def]

private theorem plyRecord_heads (reply : Heads) (k : Nat) (board : P.Board) (move : P.Move) :
    HasHeads (P.turn board) reply (plyRecord reply k board move) := by
  have hvalue := valueHead_eq (P.turn board) reply
  exact ⟨rfl, congrArg ValueHead.win hvalue, congrArg ValueHead.draw hvalue, congrArg ValueHead.loss hvalue,
    congrArg ValueHead.q hvalue⟩

private theorem records_eq (replies : Nat → Heads) (g : Game P) (nodes : Int) (maxPly : Option Int) :
    (analyzeGame replies g nodes maxPly).2.length = analysed g maxPly ∧
      ∀ k r, (analyzeGame replies g nodes maxPly).2[k]? = some r → ∃ move, g.mainlineMoves[k]? = some move ∧
        r = plyRecord (replies k) k (boardAt g k) move := by
  rw [analyzeGame_eq, List.range_eq_range']
  obtain ⟨hlength, hrecords⟩ := records_of_plies (analysed_within g maxPly)
    (fun k move => plyRecord (replies k) k (boardAt g k) move) rfl
  refine ⟨hlength, fun k r h => ?_⟩
  obtain ⟨move, hmove, hr⟩ := hrecords k r h
  rw [Nat.zero_add] at hmove hr
  exact ⟨move, hmove, hr.symm⟩

/-- The run sends the commands with the node count it was given, and its records pair the plies with
the replies, exactly if this count is the default one or no ply is analysed. -/
theorem analyzeGame_budget_iff (replies : Nat → Heads) (g : Game P) (nodes : Int) (maxPly : Option Int) :
    Budgeted replies g nodes maxPly (analyzeGame replies g nodes maxPly).1 (analyzeGame replies g nodes maxPly).2 ↔
      nodes = defaultNodes ∨ analysed g maxPly = 0 := by
  obtain ⟨hlength, hrecords⟩ := records_eq replies g nodes maxPly
  have hsent : (analyzeGame replies g nodes maxPly).1 =
      ((List.range (analysed g maxPly)).flatMap fun k => queryCommands (P.fen (boardAt g k)) none) ++ ["quit".toList] := by
    rw [analyzeGame_eq]
  constructor
  · intro h
    have hcommands := List.append_cancel_right (hsent.symm.trans h.commands)
    cases hn : analysed g maxPly with
    | zero => exact .inr rfl
    | succ n =>
      rw [hn, List.range_succ_eq_map, List.flatMap_cons, List.flatMap_cons] at hcommands
      have hfirst := (List.append_inj hcommands rfl).1
      have hgo := (List.cons.inj (List.cons.inj hfirst).2).1
      exact .inl (showInt_injective (List.append_cancel_left hgo)).symm
  · intro hwhen
    refine ⟨?_, hlength, fun k r h => ?_, fun k r h => ?_⟩
    · rw [hsent]
      rcases hwhen with rfl | hzero
      · rfl
      · rw [hzero]
        rfl
    · obtain ⟨move, hmove, rfl⟩ := hrecords k r h
      exact ofPly hmove
    · obtain ⟨move, -, rfl⟩ := hrecords k r h
      exact plyRecord_heads (replies k) k (boardAt g k) move

/-- The numbers that `print_heads` prints under the heading "White's perspective". -/
structure Shown where
  win : ℚ
  draw : ℚ
  loss : ℚ
  q : Option ℚ
  deriving DecidableEq

def printHeads (result : Heads) : Option Shown :=
  result.wdl.map fun (w, d, l) => { win := w * 100, draw := d * 100, loss := l * 100, q := result.q }

structure Block (P : PyChess) where
  label : Str
  board : P.Board
  shown : Option Shown

/-- Every fifth half-move, and the first one. -/
def sampled (i : Nat) : Bool := i = 0 ∨ (4 ≤ i ∧ (i - 4) % 5 = 0)

/-- The loop of `run`: the blocks that it prints. -/
def runBlocks (gameOver : P.Board → Bool) (query : Str → Heads) : Nat → P.Board → List P.Move → List (Block P)
  | _, _, [] => []
  | i, board, move :: moves =>
    let after := P.push board move
    let rest := runBlocks gameOver query (i + 1) after moves
    if sampled i then
      if gameOver after then rest
      else
        let dots := if P.turn board = .white then ".".toList else "...".toList
        { label := "After ".toList ++ showNat (i / 2 + 1) ++ dots ++ P.san board move
          board := after
          shown := printHeads (query (P.fen after)) } :: rest
    else rest

/-- What is printed of the heads are the values that are stored. -/
def Agrees (shown : Option Shown) (stored : ValueHead) : Prop :=
  ∀ s ∈ shown, stored.win.map (· * 100) = some s.win ∧ stored.draw.map (· * 100) = some s.draw ∧
    stored.loss.map (· * 100) = some s.loss ∧ stored.q = s.q

private theorem agrees_black_iff (w d l : ℚ) (q : Option ℚ) :
    Agrees (some ⟨w * 100, d * 100, l * 100, q⟩) ⟨some l, some d, some w, q.map (- ·)⟩ ↔ w = l ∧ ∀ x ∈ q, x = 0 := by
  have hscale (a b : ℚ) : some (a * 100) = some (b * 100) ↔ a = b := by
    rw [Option.some_inj, mul_left_inj' (by norm_num)]
  have hneg : q.map (- ·) = q ↔ ∀ x ∈ q, x = 0 := by
    cases q with
    | none => simp
    | some x =>
      simp only [Option.map_some, Option.some_inj, Option.mem_def, forall_eq']
      exact ⟨fun h => by linarith, fun h => by rw [h, neg_zero]⟩
  rw [← hneg]
  constructor
  · intro h
    obtain ⟨hwin, -, -, hq⟩ := h _ rfl
    exact ⟨((hscale l w).mp hwin).symm, hq⟩
  · rintro ⟨rfl, hq⟩ s hs
    obtain rfl := Option.some_inj.mp hs
    exact ⟨rfl, rfl, rfl, hq⟩

theorem mem_runBlocks {gameOver : P.Board → Bool} {query : Str → Heads} {i : Nat} {board : P.Board} {moves : List P.Move}
    {b : Block P} (h : b ∈ runBlocks gameOver query i board moves) : b.shown = printHeads (query (P.fen b.board)) := by
  induction moves generalizing i board with
  | nil => cases h
  | cons move moves ih =>
    rw [runBlocks] at h
    split at h
    · split at h
      · exact ih h
      · rcases List.mem_cons.mp h with rfl | h
        · rfl
        · exact ih h
    · exact ih h

private theorem record_analyzeGame {replies : Nat → Heads} {g : Game P} {nodes : Int} {maxPly : Option Int} {r : PlyRecord}
    (h : r ∈ (analyzeGame replies g nodes maxPly).2) :
    ∃ k, r.fen = P.fen (boardAt g k) ∧ r.valueHead = valueHead (P.turn (boardAt g k)) (replies k) := by
  rw [analyzeGame_eq] at h
  obtain ⟨k, -, hk⟩ := List.mem_filterMap.mp h
  obtain ⟨move, -, rfl⟩ := Option.map_eq_some_iff.mp hk
  exact ⟨k, rfl, rfl⟩

theorem agrees_iff (side : Color) (result : Heads) : Agrees (printHeads result) (valueHead side result) ↔
    side = .white ∨ ∀ w d l, result.wdl = some (w, d, l) → w = l ∧ ∀ q ∈ result.q, q = 0 := by
  cases hwdl : result.wdl with
  | none =>
    refine iff_of_true (fun s hs => ?_) (.inr fun w d l h => by cases h)
    rw [printHeads, hwdl] at hs
    cases hs
  | some t =>
    obtain ⟨w, d, l⟩ := t
    cases side with
    | white =>
      refine iff_of_true (fun s hs => ?_) (.inl rfl)
      rw [printHeads, hwdl] at hs
      obtain rfl := Option.some_inj.mp hs
      rw [valueHead, hwdl]
      exact ⟨rfl, rfl, rfl, rfl⟩
    | black =>
      have hshown : printHeads result = some ⟨w * 100, d * 100, l * 100, result.q⟩ := by
        rw [printHeads, hwdl]
        rfl
      have hstored : valueHead .black result = ⟨some l, some d, some w, result.q.map (- ·)⟩ := by
        rw [valueHead, hwdl]
        rfl
      rw [hshown, hstored, agrees_black_iff]
      constructor
      · intro h
        exact .inr fun w' d' l' heq => by cases heq; exact h
      · rintro (h | h)
        · cases h
        · exact h w d l rfl

/-- For a position and the dictionary of a query for it, what `run` prints under "White's
perspective" and what `analyze_game` stores agree exactly if White is to move, there is no value
head, or the value head is the same from both sides. Every block of `run` and every record of
`analyze_game` is made so. -/
theorem heads_agree_iff (P : PyChess) :
    (∀ (board : P.Board) (result : Heads), Agrees (printHeads result) (valueHead (P.turn board) result) ↔
      (P.turn board = .white ∨ ∀ w d l, result.wdl = some (w, d, l) → w = l ∧ ∀ q ∈ result.q, q = 0)) ∧
    (∀ (gameOver : P.Board → Bool) (query : Str → Heads) (g : Game P),
      ∀ b ∈ runBlocks gameOver query 0 g.board g.mainlineMoves, b.shown = printHeads (query (P.fen b.board))) ∧
    (∀ (replies : Nat → Heads) (g : Game P) (nodes : Int) (maxPly : Option Int),
      ∀ r ∈ (analyzeGame replies g nodes maxPly).2, ∃ k, r.fen = P.fen (boardAt g k) ∧
        r.valueHead = valueHead (P.turn (boardAt g k)) (replies k)) :=
  ⟨fun board result => agrees_iff (P.turn board) result, fun _ _ _ _ hb => mem_runBlocks hb,
    fun _ _ _ _ _ hr => record_analyzeGame hr⟩

end

/-- The heads of a position that is a little better for Black, who is to move. -/
def blackHeads : Heads := ⟨some (3 / 10, 1 / 2, 1 / 5), [], some (1 / 10), none⟩

/-- After 1. e4 the win of Black is printed as White's. -/
theorem black_heads_differ : ∃ b ∈ runBlocks (fun _ => false) (fun _ => blackHeads) 0 kingPawnGame.board
    kingPawnGame.mainlineMoves,
      ¬ Agrees b.shown (valueHead (kingPawnChess.turn b.board) blackHeads) := by
  refine ⟨_, List.mem_singleton_self _, fun h => ?_⟩
  rcases (agrees_iff .black blackHeads).mp h with hturn | hsame
  · cases hturn
  · exact absurd (hsame _ _ _ rfl).1 (by norm_num)

/-- A run over the game 1. e4 that is given a hundred nodes sends ten. -/
theorem hundred_nodes_ignored :
    (analyzeGame (fun _ => .empty) kingPawnGame 100 none).1 =
        ["position fen rnbqkbnr/pppppppp/8/8/8/8/PPPPPPPP/RNBQKBNR w KQkq - 0 1".toList, "go nodes 10".toList,
          "quit".toList] ∧
      ¬ Budgeted (fun _ => .empty) kingPawnGame 100 none (analyzeGame (fun _ => .empty) kingPawnGame 100 none).1
        (analyzeGame (fun _ => .empty) kingPawnGame 100 none).2 := by
  refine ⟨by decide +kernel, fun h => ?_⟩
  have hsent := h.commands
  revert hsent
  decide +kernel

end ChessAnalytics.Lc0
