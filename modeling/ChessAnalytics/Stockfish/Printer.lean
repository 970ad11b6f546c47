import ChessAnalytics.Chess.Squares

/-! The lines Stockfish prints during a search, as `uci.cpp` writes them. -/
namespace ChessAnalytics.Stockfish
open Strings

abbrev Square := Chess.Square

def fileOf (s : Square) : Nat := s.val % 8
def rankOf (s : Square) : Nat := s.val / 8

def makeSquare (f r : Nat) : Square := Chess.fromIdx (r * 8 + f)

inductive MoveType where
  | normal | promotion | enPassant | castling
  deriving DecidableEq, Repr

inductive PromotionType where
  | knight | bishop | rook | queen
  deriving DecidableEq, Repr

/-- The four fields of the sixteen bits. Castling is stored as "king takes rook". -/
structure Move where
  fromSq : Square
  toSq : Square
  typeOf : MoveType
  promotionType : PromotionType
  deriving DecidableEq, Repr

def Move.none : Move := ⟨makeSquare 0 0, makeSquare 0 0, .normal, .knight⟩
def Move.null : Move := ⟨makeSquare 1 0, makeSquare 1 0, .normal, .knight⟩

def square (s : Square) : Str := [Char.ofNat ('a'.toNat + fileOf s), Char.ofNat ('1'.toNat + rankOf s)]

def PromotionType.letter : PromotionType → Char
  | .knight => 'n' | .bishop => 'b' | .rook => 'r' | .queen => 'q'

/-- The printed destination: castling goes to the king's own destination unless chess960. -/
def shownTo (m : Move) (chess960 : Bool) : Square :=
  if m.typeOf = .castling ∧ chess960 = false
  then makeSquare (if m.toSq > m.fromSq then 6 else 2) (rankOf m.fromSq)
  else m.toSq

def move (m : Move) (chess960 : Bool) : Str :=
  if m = Move.none then "(none)".toList
  else if m = Move.null then "0000".toList
  else square m.fromSq ++ square (shownTo m chess960)
    ++ (if m.typeOf = .promotion then [m.promotionType.letter] else [])

/-- `Score`: a distance to mate in plies, a tablebase distance, or an evaluation. -/
inductive Score where
  | mate (plies : Int)
  | tablebase (plies : Int) (win : Bool)
  | internalUnits (value : Int)
  deriving DecidableEq, Repr

def tbCp : Int := 20000

/-- Full moves to mate; C++ division rounds towards zero. -/
def mateMoves (plies : Int) : Int := (if plies > 0 then plies + 1 else plies).tdiv 2

def formatScore : Score → Str
  | .mate plies => "mate ".toList ++ showInt (mateMoves plies)
  | .tablebase plies win => "cp ".toList ++ showInt ((if win then tbCp else -tbCp) - plies)
  | .internalUnits value => "cp ".toList ++ showInt value

structure InfoShort where
  depth : Nat
  score : Score

structure InfoFull extends InfoShort where
  selDepth : Nat
  multiPV : Nat
  wdl : Str
  bound : Str
  timeMs : Nat
  nodes : Nat
  nps : Nat
  tbHits : Nat
  pv : Str
  hashfull : Nat

structure InfoIter where
  depth : Nat
  currmove : Str
  currmovenumber : Nat

def onUpdateNoMoves (info : InfoShort) : Str :=
  "info depth ".toList ++ showNat info.depth ++ " score ".toList ++ formatScore info.score

def onUpdateFull (info : InfoFull) (showWDL : Bool) : Str :=
  "info".toList
    ++ " depth ".toList ++ showNat info.depth
    ++ " seldepth ".toList ++ showNat info.selDepth
    ++ " multipv ".toList ++ showNat info.multiPV
    ++ " score ".toList ++ formatScore info.score
    ++ (if info.bound ≠ [] then " ".toList ++ info.bound else [])
    ++ (if showWDL then " wdl ".toList ++ info.wdl else [])
    ++ " nodes ".toList ++ showNat info.nodes
    ++ " nps ".toList ++ showNat info.nps
    ++ " hashfull ".toList ++ showNat info.hashfull
    ++ " tbhits ".toList ++ showNat info.tbHits
    ++ " time ".toList ++ showNat info.timeMs
    ++ " pv ".toList ++ info.pv

def onIter (info : InfoIter) : Str :=
  "info".toList
    ++ " depth ".toList ++ showNat info.depth
    ++ " currmove ".toList ++ info.currmove
    ++ " currmovenumber ".toList ++ showNat info.currmovenumber

def onBestmove (bestmove ponder : Str) : Str :=
  "bestmove ".toList ++ bestmove ++ (if ponder ≠ [] then " ponder ".toList ++ ponder else [])

/-- One line of `print_info_string`. -/
def infoString (s : Str) : Str := "info string ".toList ++ s

/-- What `terminate_on_critical_error` says behind `info string`. -/
def criticalError (cmd message : Str) : Str :=
  "CRITICAL ERROR: Command `".toList ++ cmd ++ "` failed. Reason: ".toList ++ message

/-- `UCIEngine::wdl`, from the three printed numbers. -/
def wdlText (w d l : Nat) : Str := showNat w ++ " ".toList ++ showNat d ++ " ".toList ++ showNat l

/-- The moves of a line as `SearchManager::pv` joins them. -/
def pvText (pv : List Move) : Str := joined (pv.map (fun m => move m false))

def moveChars : Str := "abcdefgh12345678nbrq(one)0".toList

private theorem square_chars : ∀ s : Square, ∀ c ∈ square s, c ∈ moveChars := by decide

theorem move_chars (m : Move) (chess960 : Bool) : ∀ c ∈ move m chess960, c ∈ moveChars := by
  intro c hc
  unfold move at hc
  split at hc
  · revert c; decide
  split at hc
  · revert c; decide
  rcases List.mem_append.mp hc with h | h
  · exact (List.mem_append.mp h).elim (square_chars _ c) (square_chars _ c)
  · split at h
    · rw [List.mem_singleton.mp h]
      cases m.promotionType <;> decide
    · cases h

theorem move_ne_nil (m : Move) (chess960 : Bool) : move m chess960 ≠ [] := by
  unfold move
  split
  · decide
  split
  · decide
  simp [square]

theorem move_clean (m : Move) (chess960 : Bool) : ∀ c ∈ move m chess960, isSpace c = false := by
  have h : ∀ c ∈ moveChars, isSpace c = false := by decide
  exact fun c hc => h c (move_chars m chess960 c hc)

end ChessAnalytics.Stockfish
