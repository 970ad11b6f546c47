import ChessAnalytics.Strings.Scan
import ChessAnalytics.Systems.Reader

/-! The reading side of `StockfishEvaluator`: one info line, and the loop of `evaluate`. -/
namespace ChessAnalytics.Stockfish
open Strings Pattern Systems

structure Evaluation where
  fen : Str
  depth : Int
  scoreCp : Option Int
  mateIn : Option Int
  pv : List Str
  nodes : Option Nat
  timeMs : Option Nat
  wdl : Option (Nat × Nat × Nat)
  deriving DecidableEq, Repr

structure RuntimeError where
  message : Str
  deriving DecidableEq, Repr

/-- The dictionary that `_parse_info_line` builds; a key that is absent is `none`. -/
structure ParsedInfo where
  depth : Nat
  scoreCp : Option Int
  mateIn : Option Int
  nodes : Option Nat
  timeMs : Option Nat
  wdl : Option (Nat × Nat × Nat)
  pv : Option (List Str)
  deriving DecidableEq, Repr

/-- `\bdepth (\d+)\b`, and the same for the other keys with one number. -/
def depthPattern : Pattern := numberPattern "depth".toList
def nodesPattern : Pattern := numberPattern "nodes".toList
def timePattern : Pattern := numberPattern "time".toList

/-- A score of one kind: `\bscore KIND (-?\d+)\b`. -/
def scoreTail (kind : Str) : Pattern := seq (text (' ' :: kind ++ [' '])) (seq signedDigits boundary)

def cpPattern : Pattern := keyed "score".toList (scoreTail "cp".toList)
def matePattern : Pattern := keyed "score".toList (scoreTail "mate".toList)

/-- `\bwdl (\d+) (\d+) (\d+)\b`. -/
def wdlTail : Pattern :=
  seq (text " ".toList) (seq digits (seq (text " ".toList) (seq digits (seq (text " ".toList)
    (seq digits boundary)))))

def wdlPattern : Pattern := keyed "wdl".toList wdlTail

/-- `\bpv (.+)$`. -/
def pvTail : Pattern := seq (text " ".toList) (seq (group (plus (· != '\n'))) stop)

def pvPattern : Pattern := keyed "pv".toList pvTail

/-- `int(match.group(i + 1))`. -/
def natGroup (g : List Str) (i : Nat) : Nat := readNat (g.getD i [])
def intGroup (g : List Str) (i : Nat) : Int := readInt (g.getD i [])

def parseInfoLine (line : Str) : Option ParsedInfo :=
  (depthPattern.search line).map fun g =>
    let cp := cpPattern.search line
    { depth := natGroup g 0
      scoreCp := cp.map (intGroup · 0)
      mateIn := if cp.isSome then none else (matePattern.search line).map (intGroup · 0)
      nodes := (nodesPattern.search line).map (natGroup · 0)
      timeMs := (timePattern.search line).map (natGroup · 0)
      wdl := (wdlPattern.search line).map fun g => (natGroup g 0, natGroup g 1, natGroup g 2)
      pv := (pvPattern.search line).map fun g => split (g.getD 0 []) }

def hasScore (info : ParsedInfo) : Bool := info.scoreCp.isSome || info.mateIn.isSome

/-- The two variables of the loop of `evaluate`. -/
structure ReadState where
  lastInfo : Option ParsedInfo
  lastAtDepth : Option ParsedInfo
  deriving DecidableEq, Repr

def ReadState.start : ReadState := ⟨none, none⟩

def ReadState.keep (s : ReadState) (depth : Int) (parsed : ParsedInfo) : ReadState :=
  ⟨some parsed, if (parsed.depth : Int) = depth then some parsed else s.lastAtDepth⟩

/-- The end of `evaluate`, behind the loop. -/
def ReadState.chosen (s : ReadState) (fen : Str) (depth : Int) : Except RuntimeError Evaluation :=
  match s.lastAtDepth.or s.lastInfo with
  | none => .error ⟨"No evaluation received at depth ".toList ++ showInt depth⟩
  | some c => .ok
    { fen, depth := c.depth, scoreCp := c.scoreCp, mateIn := c.mateIn, pv := c.pv.getD [],
      nodes := c.nodes, timeMs := c.timeMs, wdl := c.wdl }

/-- One turn of the loop of `evaluate`. -/
def onLine (fen : Str) (depth : Int) (s : ReadState) (line : Str) :
    ReadState ⊕ Except RuntimeError Evaluation :=
  if "CRITICAL ERROR".toList <:+: line then
    .inr (.error ⟨strip (removePrefix "info string ".toList line)⟩)
  else if "info ".toList <+: line then
    match parseInfoLine line with
    | some parsed => .inl (if hasScore parsed then s.keep depth parsed else s)
    | none => .inl s
  else if "bestmove ".toList <+: line then .inr (s.chosen fen depth)
  else .inl s

theorem onLine_info {fen : Str} {depth : Int} {s : ReadState} {line : Str} (hc : ¬ "CRITICAL ERROR".toList <:+: line)
    (hi : "info ".toList <+: line) : ∃ s', onLine fen depth s line = .inl s' := by
  unfold onLine
  rw [if_neg hc, if_pos hi]
  cases parseInfoLine line with
  | none => exact ⟨_, rfl⟩
  | some parsed => exact ⟨_, rfl⟩

theorem onLine_bestmove {fen : Str} {depth : Int} {s : ReadState} {line : Str} (hc : ¬ "CRITICAL ERROR".toList <:+: line)
    (hb : "bestmove ".toList <+: line) : onLine fen depth s line = .inr (s.chosen fen depth) := by
  have hi : ¬ "info ".toList <+: line := by
    obtain ⟨t, rfl⟩ := hb
    exact fun h => absurd (List.cons_prefix_cons.mp h).1 (by decide)
  unfold onLine
  rw [if_neg hc, if_neg hi, if_pos hb]

/-- The loop of `evaluate` over the engine's lines. -/
def evaluateReader (fen : Str) (depth : Int) : Reader Str ReadState (Except RuntimeError Evaluation) :=
  ⟨.start, onLine fen depth⟩

/-- What `evaluate` returns when the engine prints these lines and then no more. -/
def evaluate (fen : Str) (depth : Int) (lines : List Str) : Except RuntimeError Evaluation :=
  match (evaluateReader fen depth).run lines with
  | some (result, _) => result
  | none => .error ⟨"Stockfish produced no output".toList⟩

end ChessAnalytics.Stockfish
