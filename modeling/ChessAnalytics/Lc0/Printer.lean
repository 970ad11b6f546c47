import ChessAnalytics.Strings.Fixed

/-! The lines lc0 prints for a search: `GetVerboseStats` of the root and the responses of
`StringUciResponder`. -/
namespace ChessAnalytics.Lc0
open Strings

def fileChars : Str := "abcdefgh".toList
def rankChars : Str := "12345678".toList
def promotionChars : Str := "qrbn".toList

/-- file-rank-file-rank, and for a promotion the piece. -/
def IsMoveText (s : Str) : Prop :=
  ∃ f r f' r' promo, s = [f, r, f', r'] ++ promo ∧ f ∈ fileChars ∧ r ∈ rankChars ∧ f' ∈ fileChars ∧ r' ∈ rankChars ∧
    (promo = [] ∨ ∃ p ∈ promotionChars, promo = [p])

abbrev MoveText := {s : Str // IsMoveText s}

/-- The suffix of `print_tail` for the bounds of a node. -/
inductive BoundsMark where
  | terminal | winning | losing | open
  deriving DecidableEq, Repr

def BoundsMark.text : BoundsMark → Str
  | .terminal => "(T) ".toList
  | .winning => "(W) ".toList
  | .losing => "(L) ".toList
  | .open => []

/-- What `print_stats` and `print_tail` show of a node. -/
structure NodeStats where
  wl : CFloat
  d : CFloat
  m : CFloat
  q : CFloat
  v : Option CFloat
  bounds : BoundsMark
  deriving DecidableEq

/-- `print`, with the flag that aligns the field left or right. -/
def printField (left : Bool) (pre v post : Str) (w : Nat) : Str :=
  pre ++ (if left then setwLeft w v else setwRight w v) ++ post

/-- The value of the float literal `0.99995f`. -/
def oneDecimalFrom : NNRat := 16776377 / 16777216

/-- The percentage of `print_head`. The product is a float: `f32` rounds it. -/
def percent (f32 : NNRat → NNRat) (p : NNRat) : NNRat := f32 (p * 100)

def percentPlaces (p : NNRat) : Nat := if oneDecimalFrom ≤ p then 1 else 2

def percentText (f32 : NNRat → NNRat) (p : NNRat) : Str :=
  CFloat.fixed (percentPlaces p) (.finite false (percent f32 p))

/-- `print_head`. The stream aligns left before it only for an edge, and right behind the index. -/
def printHead (f32 : NNRat → NNRat) (left : Bool) (label : Str) (i n f : Nat) (p : NNRat) : Str :=
  printField left [] label " ".toList 5
    ++ printField left "(".toList (showNat i) ") ".toList 4
    ++ printField false "N: ".toList (showNat n) " ".toList 7
    ++ printField false "(+".toList (showNat f) ") ".toList 2
    ++ printField false "(P: ".toList (percentText f32 p) "%) ".toList 5

/-- `print_stats`; an edge without a node shows the first-play urgency. -/
def printStats (fpu : CFloat) : Option NodeStats → Str
  | some n =>
    printField false "(WL: ".toList (n.wl.fixed 5) ") ".toList 8
      ++ printField false "(D: ".toList (n.d.fixed 3) ") ".toList 5
      ++ printField false "(M: ".toList (n.m.fixed 1) ") ".toList 4
      ++ printField false "(Q: ".toList (n.q.fixed 5) ") ".toList 8
  | none =>
    "(WL:  -.-----) (D: -.---) (M:  -.-) ".toList ++ printField false "(Q: ".toList (fpu.fixed 5) ") ".toList 8

def printTail (n : Option NodeStats) : Str :=
  (match n.bind NodeStats.v with
    | some v => printField false "(V: ".toList (v.fixed 4) ") ".toList 7
    | none => "(V:  -.----) ".toList)
  ++ (match n with
    | some n => n.bounds.text
    | none => [])

/-- One root edge as it is printed. -/
structure RootEdge where
  move : MoveText
  index : Nat
  n : Nat
  nInFlight : Nat
  p : NNRat
  node : Option NodeStats
  u : CFloat
  s : CFloat

/-- The root itself; its WL is a number. -/
structure RootNode where
  numEdges : Nat
  n : Nat
  nInFlight : Nat
  visitedPolicy : NNRat
  wlNeg : Bool
  wlMag : NNRat
  stats : NodeStats
  wl_finite : stats.wl = .finite wlNeg wlMag

def edgeLine (f32 : NNRat → NNRat) (fpu : CFloat) (e : RootEdge) : Str :=
  printHead f32 true e.move.val e.index e.n e.nInFlight e.p
    ++ printStats fpu e.node
    ++ printField false "(U: ".toList (e.u.fixed 5) ") ".toList 6
    ++ printField false "(S: ".toList (e.s.fixed 5) ") ".toList 8
    ++ printTail e.node

def nodeLine (f32 : NNRat → NNRat) (fpu : CFloat) (r : RootNode) : Str :=
  printHead f32 false "node ".toList r.numEdges r.n r.nInFlight r.visitedPolicy
    ++ printStats fpu (some r.stats)
    ++ printTail (some r.stats)

/-- `GetVerboseStats` of the root, for the edges in the order it sorts them. -/
def getVerboseStats (f32 : NNRat → NNRat) (fpu : CFloat) (edges : List RootEdge) (node : RootNode) : List Str :=
  edges.map (edgeLine f32 fpu) ++ [nodeLine f32 fpu node]

structure ThinkingInfo where
  depth : Int := -1
  seldepth : Int := -1
  time : Int := -1
  nodes : Int := -1
  nps : Int := -1
  hashfull : Int := -1
  mate : Option Int := none
  score : Option Int := none
  wdl : Option (Nat × Nat × Nat) := none
  tbHits : Int := -1
  pv : List MoveText := []
  multipv : Int := -1
  comment : Str := []
  player : Int := -1
  gameId : Int := -1
  isBlack : Option Bool := none
  movesLeft : Option Int := none

/-- One optional field of a response: its name and its value. -/
def fieldText (name : String) (value : Option Str) : Str :=
  match value with
  | some v => ' ' :: name.toList ++ ' ' :: v
  | none => []

/-- A counter that is printed unless it is negative. -/
def counter (n : Int) : Option Str := if 0 ≤ n then some (showInt n) else none

/-- A number that is printed unless it is the default -1. -/
def tagged (n : Int) : Option Str := if n ≠ -1 then some (showInt n) else none

def sideText (isBlack : Option Bool) : Option Str :=
  isBlack.map fun b => if b then "black".toList else "white".toList

/-- `OutputThinkingInfo`, one line. -/
def outputThinkingInfo (showWdl showMovesleft : Bool) (info : ThinkingInfo) : Str :=
  "info".toList
    ++ fieldText "player" (tagged info.player)
    ++ fieldText "gameid" (tagged info.gameId)
    ++ fieldText "side" (sideText info.isBlack)
    ++ fieldText "depth" (if 0 ≤ info.depth then some (showInt (max info.depth 1)) else none)
    ++ fieldText "seldepth" (counter info.seldepth)
    ++ fieldText "time" (counter info.time)
    ++ fieldText "nodes" (counter info.nodes)
    ++ fieldText "score mate" (info.mate.map showInt)
    ++ fieldText "score cp" (info.score.map showInt)
    ++ fieldText "wdl" (if showWdl then info.wdl.map (fun t => joined [showNat t.1, showNat t.2.1, showNat t.2.2]) else none)
    ++ fieldText "movesleft" (if showMovesleft then info.movesLeft.map showInt else none)
    ++ fieldText "hashfull" (counter info.hashfull)
    ++ fieldText "nps" (counter info.nps)
    ++ fieldText "tbhits" (counter info.tbHits)
    ++ fieldText "multipv" (counter info.multipv)
    ++ (if info.pv = [] then [] else " pv".toList ++ info.pv.flatMap (fun m => ' ' :: m.val))
    ++ (if info.comment = [] then [] else " string ".toList ++ info.comment)

def commentLine (comment : Str) : Str := outputThinkingInfo true false { comment }

structure BestMoveInfo where
  bestmove : MoveText
  ponder : Option MoveText
  player : Int := -1
  gameId : Int := -1
  isBlack : Option Bool := none

def outputBestMove (info : BestMoveInfo) : Str :=
  "bestmove ".toList ++ info.bestmove.val
    ++ fieldText "ponder" (info.ponder.map Subtype.val)
    ++ fieldText "player" (tagged info.player)
    ++ fieldText "gameid" (tagged info.gameId)
    ++ fieldText "side" (sideText info.isBlack)

/-- The comments of the two warnings that a search can send. -/
def warnings : List Str :=
  ["WARNING: Contempt mode set to 'disable' as 'play' not supported for infinite search.".toList,
    "WARNING: Search has reached limit and does not make any progress.".toList]

end ChessAnalytics.Lc0
