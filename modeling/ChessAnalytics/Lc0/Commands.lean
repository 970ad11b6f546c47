import ChessAnalytics.Lc0.Board

/-! The command lines that `query` sends, and what lc0's loop reads in them: `ParseCommand`,
`DispatchCommand` and `MakeGameState`. -/
namespace ChessAnalytics.Lc0
open Strings Board

/-- A FEN string is one line. -/
abbrev Fen := {s : Str // '\n' ∉ s}

/-- The arguments of `query`. -/
structure Query where
  fen : Fen
  nodes : Option Int := none

/-- `NODES`. -/
def defaultNodes : Int := 10

def positionCommand (q : Query) : Str := "position fen ".toList ++ q.fen.val
def goCommand (q : Query) : Str := "go nodes ".toList ++ showInt (q.nodes.getD defaultNodes)

def positionKeywords : List Str := ["fen".toList, "startpos".toList, "moves".toList]

def goKeywords : List Str :=
  ["infinite".toList, "wtime".toList, "btime".toList, "winc".toList, "binc".toList, "movestogo".toList, "depth".toList,
    "mate".toList, "nodes".toList, "movetime".toList, "searchmoves".toList, "ponder".toList]

/-- `kKnownCommands`, for the commands of a query. -/
def knownCommands : List (Str × List Str) := [("position".toList, positionKeywords), ("go".toList, goKeywords)]

/-- The values of the keywords that occurred. -/
abbrev Params := Str → Option Str

/-- The loop over the tokens behind the command: the keyword whose value grows, and the
whitespace in front of its next word. -/
def parseParams (keywords : List Str) : Params → Option Str → Str → List Str → Except Str Params
  | params, _, _, [] => .ok params
  | params, value, whitespace, token :: tokens =>
    if token ∈ keywords then
      parseParams keywords (Function.update params token (some ((params token).getD []))) (some token) [] tokens
    else
      match value with
      | none => .error ("Unexpected token: ".toList ++ token)
      | some key =>
        parseParams keywords (Function.update params key (some ((params key).getD [] ++ whitespace ++ token))) value
          " ".toList tokens

def parseCommand (line : Str) : Except Str (Option (Str × Params)) :=
  match words line with
  | [] => .ok none
  | command :: tokens =>
    match knownCommands.lookup command with
    | none => .error ("Unknown command: ".toList ++ line)
    | some keywords => (parseParams keywords (fun _ => none) none [] tokens).map fun params => some (command, params)

structure GoParams where
  infinite : Bool := false
  ponder : Bool := false
  searchmoves : List Str := []
  wtime : Option Int := none
  btime : Option Int := none
  winc : Option Int := none
  binc : Option Int := none
  movestogo : Option Int := none
  depth : Option Int := none
  mate : Option Int := none
  nodes : Option Int := none
  movetime : Option Int := none
  deriving DecidableEq

/-- What a command line asks of the engine. -/
inductive Request where
  | position (fen : Str) (moves : List Str)
  | go (params : GoParams)

def readSign : Str → Bool × Str
  | '-' :: t => (true, t)
  | '+' :: t => (false, t)
  | t => (false, t)

/-- `std::stoi`: whitespace, a sign, digits; the rest of the text does not count. -/
def stoi (str : Str) : Except Str Int :=
  let (neg, t) := readSign (str.dropWhile isCSpace)
  let ds := t.takeWhile Char.isDigit
  let z : Int := if neg then -(readNat ds : Int) else readNat ds
  if ds = [] then .error ("invalid value ".toList ++ str)
  else if ChessBoard.fitsInt z then .ok z
  else .error ("out of range value ".toList ++ str)

/-- `GetNumeric`, for a keyword that may be absent. -/
def getNumeric (params : Params) (key : String) : Except Str (Option Int) :=
  match params key.toList with
  | none => .ok none
  | some [] => .error ("expected value after ".toList ++ key.toList)
  | some str => (stoi str).map some

def getFlag (params : Params) (key : String) : Except Str Bool :=
  match params key.toList with
  | none => .ok false
  | some [] => .ok true
  | some value => .error ("Unexpected token ".toList ++ value)

def getOrEmpty (params : Params) (key : String) : Str := (params key.toList).getD []

def dispatchGo (params : Params) : Except Str GoParams := do
  let infinite ← getFlag params "infinite"
  let searchmoves := words (getOrEmpty params "searchmoves")
  let ponder ← getFlag params "ponder"
  let wtime ← getNumeric params "wtime"
  let btime ← getNumeric params "btime"
  let winc ← getNumeric params "winc"
  let binc ← getNumeric params "binc"
  let movestogo ← getNumeric params "movestogo"
  let depth ← getNumeric params "depth"
  let mate ← getNumeric params "mate"
  let nodes ← getNumeric params "nodes"
  let movetime ← getNumeric params "movetime"
  return { infinite, ponder, searchmoves, wtime, btime, winc, binc, movestogo, depth, mate, nodes, movetime }

def dispatchPosition (params : Params) : Except Str (Str × List Str) :=
  if (params "fen".toList).isSome = (params "startpos".toList).isSome then
    .error "Position requires either fen or startpos".toList
  else
    let fen := getOrEmpty params "fen"
    .ok (if fen = [] then startposFen else fen, words (getOrEmpty params "moves"))

def dispatchCommand (command : Str) (params : Params) : Except Str Request :=
  if command = "position".toList then (dispatchPosition params).map fun r => .position r.1 r.2
  else if command = "go".toList then (dispatchGo params).map .go
  else .error ("Unknown command: ".toList ++ command)

/-- `ProcessLine`, up to the call of the engine; an empty line asks nothing. -/
def processLine (line : Str) : Except Str (Option Request) :=
  match parseCommand line with
  | .error msg => .error msg
  | .ok none => .ok none
  | .ok (some (command, params)) => (dispatchCommand command params).map some

structure GameState where
  startpos : Position
  moves : List Move
  deriving DecidableEq

/-- One turn of the loop over the moves: `ParseMove`, and `ApplyMove` with `Mirror` for the next
one. -/
abbrev PlayMove := ChessBoard → Str → Except Str (Move × ChessBoard)

def playMoves (playMove : PlayMove) : ChessBoard → List Str → Except Str (List Move)
  | _, [] => .ok []
  | b, move :: moves =>
    match playMove b move with
    | .error msg => .error msg
    | .ok (m, b') => (playMoves playMove b' moves).map (m :: ·)

def makeGameState (playMove : PlayMove) (fen : Str) (moves : List Str) : Except Str GameState :=
  match Position.fromFen fen with
  | .error msg => .error msg
  | .ok startpos => (playMoves playMove startpos.board moves).map (⟨startpos, ·⟩)

section
variable {playMove : PlayMove}

theorem makeGameState_nil (playMove : PlayMove) (fen : Str) :
    makeGameState playMove fen [] = (Position.fromFen fen).map (⟨·, []⟩) := by
  rw [makeGameState]
  cases Position.fromFen fen <;> rfl

private theorem words_command {w : Str} (rest : Str) (hw : ∀ c ∈ w, isCSpace c = false) (hne : w ≠ []) :
    words (w ++ ' ' :: rest) = w :: words rest := splitBy_word rest (by decide) hw hne

/-- Words without a keyword are the value of the keyword in front of them. -/
theorem parseParams_words {keywords : List Str} {key : Str} {ws : List Str} (h : ∀ w ∈ ws, w ∉ keywords) :
    ∀ (params : Params) (value whitespace : Str), params key = some value →
      parseParams keywords params (some key) whitespace ws =
        .ok (Function.update params key (some (value ++ (match ws with
          | [] => []
          | w :: ws => whitespace ++ w ++ ws.flatMap (fun v => ' ' :: v))))) := by
  induction ws with
  | nil =>
    intro params value whitespace hv
    simp [parseParams, ← hv]
  | cons w ws ih =>
    intro params value whitespace hv
    rw [parseParams, if_neg (h w (by simp)), hv]
    simp only [Option.getD_some]
    rw [ih (fun v hv => h v (List.mem_cons_of_mem _ hv)) _ _ _ (Function.update_self _ _ _), Function.update_idem]
    cases ws <;> simp

private theorem parse_keyword {keywords : List Str} {key : Str} (hkey : key ∈ keywords) {ws : List Str}
    (h : ∀ w ∈ ws, w ∉ keywords) :
    parseParams keywords (fun _ => none) none [] (key :: ws) =
      .ok (Function.update (fun _ => none) key (some (joined ws))) := by
  rw [parseParams, if_pos hkey]
  simp only [Option.getD_none]
  rw [parseParams_words h _ _ _ (Function.update_self _ _ _), Function.update_idem]
  cases ws with
  | nil => rfl
  | cons w ws => simp [joined_cons]

private theorem words_position (q : Query) :
    words (positionCommand q) = "position".toList :: "fen".toList :: words q.fen.val := by
  have hline : positionCommand q = "position".toList ++ ' ' :: ("fen".toList ++ ' ' :: q.fen.val) := rfl
  rw [hline, words_command _ (by decide) (by decide), words_command _ (by decide) (by decide)]

private theorem isCSpace_showInt {z : Int} {c : Char} (h : c ∈ showInt z) : isCSpace c = false := by
  have hs := isSpace_showInt h
  simp only [isSpace, isCSpace, Bool.or_eq_false_iff] at hs ⊢
  exact hs.1

private theorem words_go (q : Query) :
    words (goCommand q) = ["go".toList, "nodes".toList, showInt (q.nodes.getD defaultNodes)] := by
  have hline : goCommand q = "go".toList ++ ' ' :: ("nodes".toList ++ ' ' :: showInt (q.nodes.getD defaultNodes)) := rfl
  rw [hline, words_command _ (by decide) (by decide), words_command _ (by decide) (by decide), words,
    splitBy_clean (fun c hc => isCSpace_showInt hc) (showInt_ne_nil _)]

/-- The first line of a query is read as a position, or not at all. -/
theorem processLine_position (q : Query) :
    (∃ msg, processLine (positionCommand q) = .error msg) ∨
      ∃ fen moves, processLine (positionCommand q) = .ok (some (.position fen moves)) := by
  have hcommand : knownCommands.lookup "position".toList = some positionKeywords := by decide
  rw [processLine, parseCommand, words_position]
  simp only [hcommand]
  cases parseParams positionKeywords (fun _ => none) none [] ("fen".toList :: words q.fen.val) with
  | error msg => exact .inl ⟨msg, rfl⟩
  | ok params =>
    simp only [Except.map, dispatchCommand, if_pos]
    cases dispatchPosition params with
    | error msg => exact .inl ⟨msg, rfl⟩
    | ok r => exact .inr ⟨r.1, r.2, rfl⟩

/-- A FEN string without a keyword among its words is passed on with single spaces between
them; without any word, the start position takes its place. -/
theorem processLine_fen {q : Query} (h : ∀ w ∈ words q.fen.val, w ∉ positionKeywords) :
    processLine (positionCommand q) =
      .ok (some (.position (if joined (words q.fen.val) = [] then startposFen else joined (words q.fen.val)) [])) := by
  have hcommand : knownCommands.lookup "position".toList = some positionKeywords := by decide
  have hother (key : Str) (hkey : key ≠ "fen".toList) :
      Function.update (fun _ => none : Params) "fen".toList (some (joined (words q.fen.val))) key = none :=
    Function.update_of_ne hkey _ _
  rw [processLine, parseCommand, words_position]
  simp only [hcommand]
  rw [parse_keyword (by decide) h]
  simp only [Except.map, dispatchCommand, if_pos, dispatchPosition, getOrEmpty, Function.update_self,
    hother "startpos".toList (by decide), hother "moves".toList (by decide)]
  rfl

private theorem takeWhile_showNat (n : Nat) : (showNat n).takeWhile Char.isDigit = showNat n :=
  List.takeWhile_eq_self_iff.mpr fun _ hc => isDigit_of_mem_showNat hc

private theorem readSign_showInt (z : Int) : readSign (showInt z) = (decide (z < 0), showNat z.natAbs) := by
  cases z with
  | negSucc n =>
    have hneg : decide (Int.negSucc n < 0) = true := decide_eq_true (Int.negSucc_lt_zero n)
    rw [hneg]
    rfl
  | ofNat n =>
    have hdigit {c : Char} {t : Str} (h : showNat n = c :: t) : c.isDigit = true :=
      isDigit_of_mem_showNat (n := n) (by rw [h]; simp)
    have hpos : decide ((n : Int) < 0) = false := by simp
    rw [showInt, readSign.eq_def]
    split
    · rename_i h; exact absurd (hdigit h) (by decide)
    · rename_i h; exact absurd (hdigit h) (by decide)
    · exact congrArg (·, showNat n) hpos.symm

/-- A numeral that `go` sends is read back, unless it does not fit. -/
theorem stoi_showInt (z : Int) :
    stoi (showInt z) = if ChessBoard.fitsInt z then .ok z else .error ("out of range value ".toList ++ showInt z) := by
  have hdrop : (showInt z).dropWhile isCSpace = showInt z := by
    cases hz : showInt z with
    | nil => rfl
    | cons c cs => rw [List.dropWhile_cons_of_neg (by rw [isCSpace_showInt (z := z) (by simp [hz])]; decide)]
  have hvalue : (if decide (z < 0) then -(z.natAbs : Int) else (z.natAbs : Int)) = z := by
    split <;> rename_i h <;> simp only [decide_eq_true_eq] at h <;> omega
  rw [stoi, hdrop, readSign_showInt]
  simp only [takeWhile_showNat, if_neg (showNat_ne_nil _), readNat_showNat]
  rw [hvalue]

private theorem dispatchGo_nodes {text : Str} (hne : text ≠ []) :
    dispatchGo (Function.update (fun _ => none) "nodes".toList (some text)) =
      (stoi text).map fun z => { nodes := some z } := by
  set params := Function.update (fun _ => none : Params) "nodes".toList (some text) with hparams
  have hother (key : Str) (hkey : key ≠ "nodes".toList) : params key = none := Function.update_of_ne hkey _ _
  have hnodes : getNumeric params "nodes" = (stoi text).map some := by
    rw [getNumeric, hparams, Function.update_self]
    split
    · rename_i h; cases h
    · rename_i h; exact absurd (Option.some_inj.mp h) hne
    · rename_i h; rw [← Option.some_inj.mp h]
  have hflag (key : String) (hkey : key.toList ≠ "nodes".toList) : getFlag params key = .ok false := by
    rw [getFlag, hother _ hkey]
  have habsent (key : String) (hkey : key.toList ≠ "nodes".toList) : getNumeric params key = .ok none := by
    rw [getNumeric, hother _ hkey]
  have hmoves : getOrEmpty params "searchmoves" = [] := by rw [getOrEmpty, hother _ (by decide)]; rfl
  rw [dispatchGo, hflag _ (by decide), hflag _ (by decide), hmoves, hnodes]
  simp only [habsent _ (by decide : "wtime".toList ≠ "nodes".toList), habsent _ (by decide : "btime".toList ≠ "nodes".toList),
    habsent _ (by decide : "winc".toList ≠ "nodes".toList), habsent _ (by decide : "binc".toList ≠ "nodes".toList),
    habsent _ (by decide : "movestogo".toList ≠ "nodes".toList), habsent _ (by decide : "depth".toList ≠ "nodes".toList),
    habsent _ (by decide : "mate".toList ≠ "nodes".toList), habsent _ (by decide : "movetime".toList ≠ "nodes".toList)]
  cases stoi text <;> rfl

private theorem showInt_not_keyword (z : Int) : ∀ w ∈ [showInt z], w ∉ goKeywords := by
  intro w hw hmem
  obtain rfl := List.mem_singleton.mp hw
  have hletters : ∀ k ∈ goKeywords, ∃ c ∈ k, c ≠ '-' ∧ c.isDigit = false := by decide
  obtain ⟨c, hc, hminus, hdigit⟩ := hletters _ hmem
  rcases mem_showInt hc with rfl | h
  · exact hminus rfl
  · rw [h] at hdigit; cases hdigit

/-- The second line of a query starts a search, unless its number does not fit. -/
theorem processLine_go (q : Query) :
    processLine (goCommand q) = (if ChessBoard.fitsInt (q.nodes.getD defaultNodes)
      then .ok (some (.go { nodes := some (q.nodes.getD defaultNodes) }))
      else .error ("out of range value ".toList ++ showInt (q.nodes.getD defaultNodes))) := by
  have hcommand : knownCommands.lookup "go".toList = some goKeywords := by decide
  rw [processLine, parseCommand, words_go]
  simp only [hcommand]
  rw [parse_keyword (by decide) (showInt_not_keyword _), joined]
  set params := Function.update (fun _ => none : Params) "nodes".toList (some (showInt (q.nodes.getD defaultNodes)))
  have hdispatch : dispatchCommand "go".toList params = (dispatchGo params).map .go := by
    rw [dispatchCommand, if_neg (by decide), if_pos rfl]
  change (Except.map some (dispatchCommand "go".toList params)) = _
  rw [hdispatch, dispatchGo_nodes (showInt_ne_nil _), stoi_showInt]
  by_cases hfits : ChessBoard.fitsInt (q.nodes.getD defaultNodes)
  · rw [if_pos hfits, if_pos hfits]
    rfl
  · rw [if_neg hfits, if_neg hfits]
    rfl

end

end ChessAnalytics.Lc0
