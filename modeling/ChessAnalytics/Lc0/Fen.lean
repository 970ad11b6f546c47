import ChessAnalytics.Lc0.ParseMove

/-! lc0's FEN writer, and that the reader gives every position of a game back. -/
namespace ChessAnalytics.Lc0.Board
open Strings Chess

/-- The rights as a FEN has them; rooks on other than their standard files are named by the file. -/
def Castlings.asString (c : Castlings) : Str :=
  if !c.weCan00 && !c.weCan000 && !c.theyCan00 && !c.theyCan000 then ['-']
  else if c.ourQueensideRook = 0 ∧ c.ourKingsideRook = 7 ∧ c.theirQueensideRook = 0 ∧ c.theirKingsideRook = 7 then
    (if c.weCan00 then ['K'] else []) ++ (if c.weCan000 then ['Q'] else []) ++
      (if c.theyCan00 then ['k'] else []) ++ (if c.theyCan000 then ['q'] else [])
  else
    (if c.weCan00 then [Char.ofNat ('A'.toNat + c.ourKingsideRook)] else []) ++
      (if c.weCan000 then [Char.ofNat ('A'.toNat + c.ourQueensideRook)] else []) ++
      (if c.theyCan00 then [Char.ofNat ('a'.toNat + c.theirKingsideRook)] else []) ++
      (if c.theyCan000 then [Char.ofNat ('a'.toNat + c.theirQueensideRook)] else [])

namespace ChessBoard

def kings (b : ChessBoard) : BitBoard := (BitBoard.fromSquare b.ourKing).union (BitBoard.fromSquare b.theirKing)

def getPieceAt (b : ChessBoard) (s : Square) : Option Char :=
  if b.ourPieces.get s || b.theirPieces.get s then
    let c := if (b.pawns.inter pawnMask).get s then 'P'
      else if b.kings.get s then 'K'
      else if (b.bishops.diff b.rooks).get s then 'B'
      else if (b.rooks.inter b.bishops).get s then 'Q'
      else if (b.rooks.diff b.bishops).get s then 'R'
      else 'N'
    some (if b.theirPieces.get s then c.toLower else c)
  else none

/-- The number of free squares before a piece or the edge. -/
def emptyText (empty : Nat) : Str := if empty = 0 then [] else showNat empty

/-- The loop over the files of a rank. -/
def writeFiles (b : ChessBoard) (rank : Nat) : List Nat → Nat → Str
  | [], empty => emptyText empty
  | file :: files, empty =>
    match b.getPieceAt (square file rank) with
    | some piece => emptyText empty ++ piece :: writeFiles b rank files 0
    | none => writeFiles b rank files (empty + 1)

/-- The loop over the ranks, from one down. -/
def writeRanks (b : ChessBoard) : Nat → Str
  | 0 => b.writeFiles 0 (List.range 8) 0
  | rank + 1 => b.writeFiles (rank + 1) (List.range 8) 0 ++ '/' :: writeRanks b rank

def enPassantText (b : ChessBoard) (blackToMove : Bool) : Str :=
  match (b.pawns.diff pawnMask).squares with
  | s :: _ => squareName (square (fileIdx s) (if blackToMove then 2 else 5))
  | [] => ['-']

/-- `BoardToFen`. -/
def toFen (inBoard : ChessBoard) : Str :=
  let board := if inBoard.flipped then inBoard.mirror else inBoard
  board.writeRanks 7 ++ ' ' :: (if inBoard.flipped then 'b' else 'w') :: ' ' :: board.castlings.asString ++
    ' ' :: board.enPassantText inBoard.flipped

end ChessBoard

/-- `PositionToFen`. -/
def Position.toFen (pos : Position) : Str :=
  pos.board.toFen ++ ' ' :: showInt pos.rule50Ply ++
    ' ' :: showInt ((pos.plyCount + if pos.board.flipped then 1 else 2).tdiv 2)

def pieceLetter (q : Piece) : Char :=
  let c := match q.type with
    | .pawn => 'P' | .knight => 'N' | .bishop => 'B' | .rook => 'R' | .queen => 'Q' | .king => 'K'
  if q.color = .black then c.toLower else c

def typeOf : Chess.PieceType → PieceType
  | .pawn => .pawn
  | .knight => .knight
  | .bishop => .bishop
  | .rook => .rook
  | .queen => .queen
  | .king => .king

theorem letter_read (q : Piece) : PieceType.parse (pieceLetter q) = some (typeOf q.type) ∧
    (pieceLetter q).isLower = decide (q.color = .black) ∧ pieceLetter q ≠ ' ' ∧ pieceLetter q ≠ '/' ∧ isRank (pieceLetter q) = false := by
  obtain ⟨color, type⟩ := q
  cases color <;> cases type <;> decide

variable {b : ChessBoard} {board : Chess.Board}

theorem getPieceAt_shows (hb : Shows b board .white) (hone : ∀ c, ∃! s, board s = some ⟨c, .king⟩) (s : Square) :
    b.getPieceAt s = (board s).map pieceLetter := by
  have hours := hb.ourPieces s
  have htheirs := hb.theirPieces s
  have hpawns := hb.pawns s
  have hrooks := hb.rooks s
  have hbishops := hb.bishops s
  have hkings : b.kings.get s = decide (board s = some ⟨.white, .king⟩ ∨ board s = some ⟨.black, .king⟩) := by
    rw [ChessBoard.kings, BitBoard.get_union, BitBoard.get_fromSquare, BitBoard.get_fromSquare, ← Bool.decide_or, decide_eq_decide]
    have hking (c : Color) {k : Square} (hk : board k = some ⟨c, .king⟩) : s = k ↔ board s = some ⟨c, .king⟩ := by
      constructor
      · rintro rfl
        exact hk
      · intro hs
        exact (hone c).unique hs hk
    exact or_congr (hking .white hb.ourKing) (hking .black hb.theirKing)
  change _ = owned _ (board s) at hours htheirs
  change _ = isPawn (board s) at hpawns
  change _ = straight (board s) at hrooks
  change _ = diagonal (board s) at hbishops
  rw [ChessBoard.getPieceAt, hours, htheirs, hpawns, hkings, BitBoard.get_diff, BitBoard.get_inter, BitBoard.get_diff, hrooks, hbishops]
  rcases board s with _ | ⟨color, type⟩
  · rfl
  · cases color <;> cases type <;> rfl

def order (s : Square) : Nat := (7 - rankIdx s) * 8 + fileIdx s

theorem order_square {f r : Nat} (hf : f < 8) (hr : r < 8) : order (square f r) = (7 - r) * 8 + f := by
  rw [order, fileIdx_square _ hf, rankIdx_square hf hr]

theorem order_injective : Function.Injective order := by
  intro s t h
  have hs := rankIdx_lt s
  have ht := rankIdx_lt t
  have hs' := fileIdx_lt s
  have ht' := fileIdx_lt t
  rw [order, order] at h
  apply square_ext
  · omega
  · omega

/-- What stands on the squares that have been read. -/
def upto (board : Chess.Board) (n : Nat) : Chess.Board := fun s => if order s < n then board s else none

theorem upto_succ {n : Nat} {s : Square} (hs : order s = n) (u : Square) :
    upto board (n + 1) u = if u = s then board s else upto board n u := by
  rw [upto, upto]
  by_cases hu : u = s
  · rw [if_pos hu, hu, if_pos (by omega)]
  · have hne : order u ≠ n := fun heq => hu (order_injective (heq.trans hs.symm))
    rw [if_neg hu]
    by_cases hlt : order u < n
    · rw [if_pos hlt, if_pos (by omega)]
    · rw [if_neg hlt, if_neg (by omega)]

/-- A board that is being read: the pieces on the squares read so far, from White's side. -/
structure Placed (b : ChessBoard) (board : Chess.Board) (n : Nat) : Prop where
  ourPieces : ∀ s, b.ourPieces.get s = owned .white (upto board n s)
  theirPieces : ∀ s, b.theirPieces.get s = owned .black (upto board n s)
  rooks : ∀ s, b.rooks.get s = straight (upto board n s)
  bishops : ∀ s, b.bishops.get s = diagonal (upto board n s)
  pawns : ∀ s, b.pawns.get s = isPawn (upto board n s)
  ourKing : ∀ s, upto board n s = some ⟨.white, .king⟩ → b.ourKing = s
  theirKing : ∀ s, upto board n s = some ⟨.black, .king⟩ → b.theirKing = s
  castlings : b.castlings = {}
  flipped : b.flipped = false

theorem placed_zero (board : Chess.Board) : Placed {} board 0 := by
  have hnone (s : Square) : upto board 0 s = none := if_neg (by omega)
  constructor
  · exact fun s => by rw [hnone, BitBoard.get_zero]; rfl
  · exact fun s => by rw [hnone, BitBoard.get_zero]; rfl
  · exact fun s => by rw [hnone, BitBoard.get_zero]; rfl
  · exact fun s => by rw [hnone, BitBoard.get_zero]; rfl
  · exact fun s => by rw [hnone, BitBoard.get_zero]; rfl
  · exact fun s hs => by rw [hnone] at hs; cases hs
  · exact fun s hs => by rw [hnone] at hs; cases hs
  · rfl
  · rfl

variable {n : Nat} {s : Square}

theorem Placed.skip (h : Placed b board n) (hs : order s = n) (hnone : board s = none) : Placed b board (n + 1) := by
  have hsame : upto board (n + 1) = upto board n := by
    funext u
    rw [upto_succ hs]
    by_cases hu : u = s
    · rw [if_pos hu, hnone, hu, upto, if_neg (by omega)]
    · rw [if_neg hu]
  obtain ⟨h1, h2, h3, h4, h5, h6, h7, h8, h9⟩ := h
  rw [← hsame] at h1 h2 h3 h4 h5 h6 h7
  exact ⟨h1, h2, h3, h4, h5, h6, h7, h8, h9⟩

private theorem kind_placed {f : Option Piece → Bool} (hf : f none = false) {bits : BitBoard} {w : Bool} {q : Piece}
    (h : ∀ u, bits.get u = f (upto board n u)) (hs : order s = n) (hq : board s = some q) (hw : w = f (some q)) (u : Square) :
    (if w = true then bits.set s else bits).get u = f (upto board (n + 1) u) := by
  have hfree : upto board n s = none := if_neg (by omega)
  rw [upto_succ hs, hw]
  by_cases hu : u = s
  · rw [if_pos hu, hq, hu]
    cases hkind : f (some q) with
    | true => simp
    | false => simp [h, hfree, hf]
  · rw [if_neg hu, ← h]
    split
    · simp [hu]
    · rfl

theorem Placed.put (h : Placed b board n) (hs : order s = n) {q : Piece} (hq : board s = some q)
    (hone : ∀ c, ∃! s, board s = some ⟨c, .king⟩) :
    Placed (b.putPiece s (typeOf q.type) (decide (q.color = .black))) board (n + 1) := by
  have hking (c : Color) (u : Square) (hu : upto board (n + 1) u = some ⟨c, .king⟩) (hnot : q ≠ ⟨c, .king⟩) :
      upto board n u = some ⟨c, .king⟩ := by
    rw [upto_succ hs] at hu
    by_cases heq : u = s
    · rw [if_pos heq, hq] at hu
      exact absurd (Option.some_inj.mp hu) hnot
    · rw [if_neg heq] at hu
      exact hu
  have hfound (c : Color) (u : Square) (hu : upto board (n + 1) u = some ⟨c, .king⟩) (hqk : q = ⟨c, .king⟩) : s = u := by
    have hboard : board u = some ⟨c, .king⟩ := by
      rw [upto] at hu
      split at hu
      · exact hu
      · cases hu
    rw [hqk] at hq
    exact (hone c).unique hq hboard
  obtain ⟨color, type⟩ := q
  constructor
  · intro u
    rw [← kind_placed (f := owned .white) (w := owned .white (some ⟨color, type⟩)) rfl h.ourPieces hs hq rfl]
    cases color <;> rfl
  · intro u
    rw [← kind_placed (f := owned .black) (w := owned .black (some ⟨color, type⟩)) rfl h.theirPieces hs hq rfl]
    cases color <;> rfl
  · intro u
    rw [← kind_placed (f := straight) (w := straight (some ⟨color, type⟩)) rfl h.rooks hs hq rfl]
    cases type <;> rfl
  · intro u
    rw [← kind_placed (f := diagonal) (w := diagonal (some ⟨color, type⟩)) rfl h.bishops hs hq rfl]
    cases type <;> rfl
  · intro u
    rw [← kind_placed (f := isPawn) (w := isPawn (some ⟨color, type⟩)) rfl h.pawns hs hq rfl]
    cases type <;> rfl
  · intro u hu
    by_cases hk : (⟨color, type⟩ : Piece) = ⟨.white, .king⟩
    · rw [← hfound .white u hu hk]
      obtain ⟨rfl, rfl⟩ := Piece.mk.inj hk
      rfl
    · rw [← h.ourKing u (hking .white u hu hk)]
      revert hk
      cases color <;> cases type <;> simp [ChessBoard.putPiece, typeOf]
  · intro u hu
    by_cases hk : (⟨color, type⟩ : Piece) = ⟨.black, .king⟩
    · rw [← hfound .black u hu hk]
      obtain ⟨rfl, rfl⟩ := Piece.mk.inj hk
      rfl
    · rw [← h.theirKing u (hking .black u hu hk)]
      revert hk
      cases color <;> cases type <;> simp [ChessBoard.putPiece, typeOf]
  · exact h.castlings
  · exact h.flipped

private theorem empty_digit : ∀ e < 9, e ≠ 0 → ∃ c, showNat e = [c] ∧ isRank c = true ∧ c ≠ ' ' ∧ c ≠ '/' ∧ c.toNat - '0'.toNat = e := by
  intro e he h0
  interval_cases e
  · exact absurd rfl h0
  all_goals exact ⟨_, rfl, by decide, by decide, by decide, by decide⟩

theorem read_empty (b : ChessBoard) (rank : Nat) {file empty : Nat} (hfile : file + empty ≤ 8) (rest : Str) :
    ChessBoard.readBoard b rank file (ChessBoard.emptyText empty ++ rest) = ChessBoard.readBoard b rank (file + empty) rest := by
  rw [ChessBoard.emptyText]
  by_cases h0 : empty = 0
  · rw [if_pos h0, h0]
    rfl
  · obtain ⟨c, hc, hrank, hspace, hslash, hvalue⟩ := empty_digit empty (by omega) h0
    rw [if_neg h0, hc, List.singleton_append, ChessBoard.readBoard, if_neg hspace, if_neg hslash, if_pos hrank]
    simp only [hvalue]
    rw [if_neg (by omega)]

theorem read_piece (b : ChessBoard) {rank file : Nat} (hfile : file < 8) (q : Piece)
    (hpawn : q.type = .pawn → ¬ (rank = 0 ∨ rank = 7)) (rest : Str) :
    ChessBoard.readBoard b rank file (pieceLetter q :: rest) =
      ChessBoard.readBoard (b.putPiece (square file rank) (typeOf q.type) (decide (q.color = .black))) rank (file + 1) rest := by
  obtain ⟨hparse, hlower, hspace, hslash, hrank⟩ := letter_read q
  have hback : ¬ (typeOf q.type = .pawn ∧ (rank = 0 ∨ rank = 7)) := by
    rintro ⟨htype, hedge⟩
    refine hpawn ?_ hedge
    revert htype
    cases q.type <;> simp [typeOf]
  rw [ChessBoard.readBoard, if_neg hspace, if_neg hslash, if_neg (by rw [hrank]; simp), hparse]
  simp only [hlower]
  rw [if_neg (by omega), if_neg hback]

section
variable {w : ChessBoard}

/-- Reading the files of a rank, with some free squares before them still to be read. -/
theorem read_files (hw : Shows w board .white) (hone : ∀ c, ∃! s, board s = some ⟨c, .king⟩)
    (hinside : ∀ s c, board s = some ⟨c, .pawn⟩ → 1 ≤ rankIdx s ∧ rankIdx s ≤ 6) {rank : Nat} (hrank : rank < 8) (n : Nat) :
    ∀ (f empty : Nat) (b : ChessBoard), f + n = 8 → empty ≤ f → Placed b board ((7 - rank) * 8 + f) →
      ∃ b', Placed b' board ((7 - rank) * 8 + 8) ∧ ∀ rest, ChessBoard.readBoard b rank (f - empty)
        (w.writeFiles rank (List.range' f n) empty ++ rest) = ChessBoard.readBoard b' rank 8 rest := by
  induction n with
  | zero =>
    intro f empty b hf hempty hb
    obtain rfl : f = 8 := hf
    refine ⟨b, hb, fun rest => ?_⟩
    rw [List.range'_zero, ChessBoard.writeFiles, read_empty b rank (by omega)]
    congr 1
    omega
  | succ n ih =>
    intro f empty b hf hempty hb
    have horder : order (square f rank) = (7 - rank) * 8 + f := order_square (by omega) hrank
    have hpiece := getPieceAt_shows hw hone (square f rank)
    cases hq : board (square f rank) with
    | none =>
      rw [hq] at hpiece
      obtain ⟨b', hb', hread⟩ := ih (f + 1) (empty + 1) b (by omega) (by omega) (hb.skip horder hq)
      refine ⟨b', hb', fun rest => ?_⟩
      rw [← hread rest, List.range'_succ, ChessBoard.writeFiles, hpiece]
      simp only [Option.map_none]
      congr 1
      omega
    | some q =>
      rw [hq] at hpiece
      obtain ⟨b', hb', hread⟩ := ih (f + 1) 0 _ (by omega) (by omega) (hb.put horder hq hone)
      refine ⟨b', hb', fun rest => ?_⟩
      have hpawn : q.type = .pawn → ¬ (rank = 0 ∨ rank = 7) := by
        intro htype
        have hin := hinside (square f rank) q.color (by rw [hq, ← htype])
        rw [rankIdx_square (by omega) hrank] at hin
        omega
      rw [← hread rest, List.range'_succ, ChessBoard.writeFiles, hpiece]
      simp only [Option.map_some, List.append_assoc, List.cons_append]
      rw [read_empty b rank (by omega), Nat.sub_add_cancel hempty, read_piece b (by omega) q hpawn, Nat.sub_zero]

theorem read_ranks (hw : Shows w board .white) (hone : ∀ c, ∃! s, board s = some ⟨c, .king⟩)
    (hinside : ∀ s c, board s = some ⟨c, .pawn⟩ → 1 ≤ rankIdx s ∧ rankIdx s ≤ 6) (rank : Nat) : ∀ b : ChessBoard, rank < 8 →
      Placed b board ((7 - rank) * 8) →
      ∃ b', Placed b' board 64 ∧ ∀ rest, ChessBoard.readBoard b rank 0 (w.writeRanks rank ++ ' ' :: rest) = .ok (b', ' ' :: rest) := by
  induction rank with
  | zero =>
    intro b hrank hb
    obtain ⟨b', hb', hread⟩ := read_files hw hone hinside hrank 8 0 0 b rfl le_rfl hb
    refine ⟨b', hb', fun rest => ?_⟩
    rw [ChessBoard.writeRanks, List.range_eq_range']
    refine (hread (' ' :: rest)).trans ?_
    rw [ChessBoard.readBoard, if_pos rfl]
  | succ rank ih =>
    intro b hrank hb
    obtain ⟨b₁, hb₁, hread₁⟩ := read_files hw hone hinside hrank 8 0 0 b rfl le_rfl hb
    have hnext : (7 - (rank + 1)) * 8 + 8 = (7 - rank) * 8 := by omega
    rw [hnext] at hb₁
    obtain ⟨b₂, hb₂, hread₂⟩ := ih b₁ (by omega) hb₁
    refine ⟨b₂, hb₂, fun rest => ?_⟩
    rw [ChessBoard.writeRanks, List.range_eq_range', List.append_assoc]
    refine (hread₁ _).trans ?_
    rw [← hread₂ rest, List.cons_append, ChessBoard.readBoard, if_neg (by decide), if_pos rfl, if_neg (by omega)]
    rfl

/-- All squares have been read: the board shows the position from White's side, and nothing else. -/
theorem Placed.shows (h : Placed b board 64) (hone : ∀ c, ∃! s, board s = some ⟨c, .king⟩)
    (hinside : ∀ s c, board s = some ⟨c, .pawn⟩ → 1 ≤ rankIdx s ∧ rankIdx s ≤ 6) :
    Shows b board .white ∧ ∀ s, (b.pawns.diff ChessBoard.pawnMask).get s = false := by
  have hall : upto board 64 = board := by
    funext s
    have hs := rankIdx_lt s
    have hs' := fileIdx_lt s
    rw [upto, if_pos (by rw [order]; omega)]
  obtain ⟨h1, h2, h3, h4, h5, h6, h7, -, -⟩ := h
  rw [hall] at h1 h2 h3 h4 h5 h6 h7
  have hmask (s : Square) (hs : isPawn (board s) = true) : ChessBoard.pawnMask.get s = true := by
    cases hq : board s with
    | none =>
      rw [hq] at hs
      cases hs
    | some q =>
      rw [hq, isPawn, decide_eq_true_iff] at hs
      rw [get_pawnMask]
      exact decide_eq_true (hinside s q.color (by rw [hq, ← hs]))
  have hking (c : Color) : ∃ s, board s = some ⟨c, .king⟩ := (hone c).exists
  obtain ⟨k, hk⟩ := hking .white
  obtain ⟨k', hk'⟩ := hking .black
  refine ⟨⟨h1, h2, h3, h4, fun s => ?_, ?_, ?_⟩, fun s => ?_⟩
  · rw [BitBoard.get_inter, h5]
    change (isPawn (board s) && _) = isPawn (board s)
    cases hpawn : isPawn (board s) with
    | false => rfl
    | true => rw [hmask s hpawn]; rfl
  · change board b.ourKing = _
    rw [h6 k hk]
    exact hk
  · change board b.theirKing = _
    rw [h7 k' hk']
    exact hk'
  · rw [BitBoard.get_diff, h5]
    cases hpawn : isPawn (board s) with
    | false => rfl
    | true => rw [hmask s hpawn]; rfl

end

def rightLetter : Color × Side → Char
  | (.white, .king) => 'K'
  | (.white, .queen) => 'Q'
  | (.black, .king) => 'k'
  | (.black, .queen) => 'q'

def allRights : List (Color × Side) := [(.white, .king), (.white, .queen), (.black, .king), (.black, .queen)]

def heldRights (rights : Color → Side → Bool) : List (Color × Side) := allRights.filter (fun x => rights x.1 x.2)

def rightsOf (wk wq bk bq : Bool) : Color → Side → Bool
  | .white, .king => wk
  | .white, .queen => wq
  | .black, .king => bk
  | .black, .queen => bq

theorem eq_rightsOf (rights : Color → Side → Bool) : rights =
    rightsOf (rights .white .king) (rights .white .queen) (rights .black .king) (rights .black .queen) := by
  funext c side
  cases c <;> cases side <;> rfl

theorem asString_eq (rights : Color → Side → Bool) : (castlingsOf rights .white).asString =
    if heldRights rights = [] then ['-'] else (heldRights rights).map rightLetter := by
  rw [eq_rightsOf rights]
  generalize rights .white .king = wk, rights .white .queen = wq, rights .black .king = bk, rights .black .queen = bq
  revert wk wq bk bq
  decide

/-- What a right does to the rights of a board on which a side is to move. -/
def grantRight (turn : Color) (c : Castlings) (x : Color × Side) : Castlings :=
  ChessBoard.grant c (x.1 ≠ turn) (x.2 = .king) (rookFile x.2)

theorem grant_held (rights : Color → Side → Bool) (turn : Color) :
    (heldRights rights).foldl (grantRight turn) {} = castlingsOf rights turn := by
  rw [eq_rightsOf rights]
  generalize rights .white .king = wk, rights .white .queen = wq, rights .black .king = bk, rights .black .queen = bq
  revert wk wq bk bq
  cases turn <;> decide

section
variable {p : GamePosition}

theorem findRook_held (hb : Shows b p.board p.turn) {c : Color} {side : Side} (h : p.castling c side = true) :
    b.findRook (decide (c ≠ p.turn)) (decide (side = .king)) = .ok (rookFile side).val := by
  obtain ⟨hking, hrook⟩ := p.castling_home c side h
  have hplace : ∀ (turn c : Color) (side : Side), ours turn (kingHome c) = square 4 (if c ≠ turn then 7 else 0) ∧
      ours turn (rookHome c side) = square (rookFile side) (if c ≠ turn then 7 else 0) := by
    intro turn c side
    cases turn <;> cases c <;> cases side <;> decide
  obtain ⟨hkingSeen, hrookSeen⟩ := hplace p.turn c side
  have hcolor : c = p.turn ∨ c = p.turn.other := by cases c <;> cases p.turn <;> decide
  have hkingFile : b.kingFile (decide (c ≠ p.turn)) = 4 := by
    have hfile : ∀ r : Fin 8, fileIdx (square 4 r.val) = 4 := by decide
    rw [ChessBoard.kingFile]
    rcases hcolor with rfl | rfl
    · rw [if_neg (by simp), ← (king_moves_iff hb).mpr hking, hkingSeen, if_neg (by simp)]
      exact hfile 0
    · have hsquare := (p.one_king _).unique hking hb.theirKing
      rw [if_pos (by simp), ← ours_ours p.turn b.theirKing, ← hsquare, hkingSeen, if_pos (by simp)]
      exact hfile 7
  have hget : (b.rooks.diff b.bishops).get (square (rookFile side) (if c ≠ p.turn then 7 else 0)) = true := by
    rw [← hrookSeen, BitBoard.get_diff, hb.rooks, hb.bishops, ours_ours, hrook]
    rfl
  have hown : (if decide (c ≠ p.turn) = true then b.theirPieces else b.ourPieces).get
      (square (rookFile side) (if c ≠ p.turn then 7 else 0)) = true := by
    rw [← hrookSeen]
    rcases hcolor with rfl | rfl
    · rw [if_neg (by simp), hb.ourPieces, ours_ours, hrook]
      exact decide_eq_true rfl
    · rw [if_pos (by simp), hb.theirPieces, ours_ours, hrook]
      exact decide_eq_true rfl
  have hrank : (if decide (c ≠ p.turn) = true then 7 else 0) = if c ≠ p.turn then 7 else 0 := by simp
  unfold ChessBoard.findRook
  rw [hkingFile, hrank]
  cases side with
  | king =>
    have hfiles : (List.takeWhile (fun x => decide (x ≠ 4)) (List.range 8).reverse) = [7, 6, 5] := by decide
    simp only [decide_true, if_true, hfiles]
    rw [List.find?_cons_of_pos (by rw [Bool.and_eq_true]; exact ⟨hget, hown⟩)]
    rfl
  | queen =>
    have hfiles : (List.takeWhile (fun x => decide (x ≠ 4)) (List.range 8)) = [0, 1, 2, 3] := by decide
    simp only [reduceCtorEq, decide_false, Bool.false_eq_true, if_false, hfiles]
    rw [List.find?_cons_of_pos (by rw [Bool.and_eq_true]; exact ⟨hget, hown⟩)]
    rfl

theorem letter_right (turn c : Color) (side : Side) :
    rightLetter (c, side) ≠ ' ' ∧ rightLetter (c, side) ∈ "KQkq".toList ∧
      ((rightLetter (c, side)).isUpper == decide (turn = .black)) = decide (c ≠ turn) ∧
      ((rightLetter (c, side)).toLower == 'k') = decide (side = .king) := by
  cases turn <;> cases c <;> cases side <;> decide

theorem read_rights (hb : Shows b p.board p.turn) (hflipped : b.flipped = decide (p.turn = .black)) (rest : Str)
    (held : List (Color × Side)) : ∀ c : Castlings, (∀ x ∈ held, p.castling x.1 x.2 = true) →
      ChessBoard.readCastlings { b with castlings := c } (held.map rightLetter ++ ' ' :: rest) =
        .ok ({ b with castlings := held.foldl (grantRight p.turn) c }, ' ' :: rest) := by
  induction held with
  | nil =>
    intro c _
    rw [List.map_nil, List.nil_append, ChessBoard.readCastlings, if_pos rfl]
    rfl
  | cons x held ih =>
    intro c hheld
    obtain ⟨color, side⟩ := x
    obtain ⟨hspace, hletter, htheirs, hkingside⟩ := letter_right p.turn color side
    have hrook := findRook_held hb (hheld (color, side) (List.mem_cons_self ..))
    have hfound : ChessBoard.findRook { b with castlings := c } (decide (color ≠ p.turn)) (decide (side = .king)) =
        .ok (rookFile side).val := hrook
    rw [← hflipped] at htheirs
    rw [List.map_cons, List.cons_append, ChessBoard.readCastlings, if_neg hspace, if_pos hletter]
    simp only [htheirs, hkingside, hfound]
    exact ih _ (fun y hy => hheld y (List.mem_cons_of_mem _ hy))

theorem read_castlings (hb : Shows b p.board p.turn) (hflipped : b.flipped = decide (p.turn = .black))
    (hnew : b.castlings = {}) (rest : Str) :
    ChessBoard.dashOr b b.readCastlings ((castlingsOf p.castling .white).asString ++ ' ' :: rest) =
      .ok ({ b with castlings := castlingsOf p.castling p.turn }, ' ' :: rest) := by
  rw [asString_eq]
  by_cases hnone : heldRights p.castling = []
  · rw [if_pos hnone, ← grant_held p.castling p.turn, hnone, List.foldl_nil, ← hnew]
    rfl
  · have hheld : ∀ x ∈ heldRights p.castling, p.castling x.1 x.2 = true := by
      intro x hx
      exact (List.mem_filter.mp hx).2
    have hread := read_rights hb hflipped rest (heldRights p.castling) {} hheld
    rw [grant_held, ← hnew] at hread
    rw [if_neg hnone, ← hread]
    obtain ⟨x, held, hx⟩ := List.exists_cons_of_ne_nil hnone
    have hdash : rightLetter x ≠ '-' := by
      obtain ⟨c, side⟩ := x
      cases c <;> cases side <;> decide
    rw [hx, List.map_cons, List.cons_append, ChessBoard.dashOr]
    intro rest' heq
    exact hdash (List.cons.inj heq).1

/-- The one file on which a pawn can be taken en passant. -/
def PassedOn (p : Chess.Position) (f : Nat) : Prop := ∃ v, p.TakesEnPassant v (ours p.turn (square f 5))

theorem PassedOn.unique {f f' : Nat} (h : PassedOn p.toPosition f) (h' : PassedOn p.toPosition f') (hf : f < 8) (hf' : f' < 8) :
    f = f' := by
  obtain ⟨v, -, -, hpassed, -⟩ := h
  obtain ⟨v', -, -, hpassed', -⟩ := h'
  have hsquare := Option.some_inj.mp (hpassed.symm.trans hpassed')
  have hfile := congrArg (fun s => fileIdx (ours p.turn s)) hsquare
  simp only [ours_ours, fileIdx_square _ hf, fileIdx_square _ hf'] at hfile
  exact hfile

theorem read_passed (hb : Shows b p.board p.turn) (hflipped : b.flipped = decide (p.turn = .black)) {f : Nat} (hf : f < 8)
    (hpassed : PassedOn p.toPosition f) (rest : Str) :
    ChessBoard.dashOr b b.readEnPassant (squareName (square f (if p.turn = .black then 2 else 5)) ++ ' ' :: rest) =
      .ok ({ b with pawns := b.pawns.set (square f 7) }, ' ' :: rest) := by
  obtain ⟨v, hv⟩ := hpassed
  obtain ⟨hpawn, hempty⟩ := passed_piece hv
  have hrank : (if p.turn = .black then 2 else 5) < 8 := by split <;> omega
  generalize hs : square f (if p.turn = .black then 2 else 5) = s
  have hfile : fileIdx s = f := by rw [← hs, fileIdx_square _ hf]
  have hrankIdx : rankIdx s = if p.turn = .black then 2 else 5 := by rw [← hs, rankIdx_square hf hrank]
  obtain ⟨hparseFile, hparseRank, hfileSize, hrankSize⟩ := square_chars s
  have hdash : Char.ofNat ('a'.toNat + fileIdx s) ≠ '-' := by
    have hall : ∀ s : Square, Char.ofNat ('a'.toNat + fileIdx s) ≠ '-' := by decide
    exact hall s
  have hbytes : ¬ ChessBoard.byteSize (Char.ofNat ('a'.toNat + fileIdx s) :: Char.ofNat ('1'.toNat + rankIdx s) :: ' ' :: rest) ≤ 2 := by
    have hspace : (' ' : Char).utf8Size = 1 := by decide
    simp only [ChessBoard.byteSize, List.map_cons, List.sum_cons, hfileSize, hrankSize, hspace]
    omega
  have hfree : (b.ourPieces.union b.theirPieces).get (square f 5) = false := by
    rw [BitBoard.get_union, hb.ourPieces, hb.theirPieces, hempty]
    rfl
  have hthere : (b.theirPieces.inter (b.pawns.inter ChessBoard.pawnMask)).get (square f 4) = true := by
    rw [passedPawn, fileIdx_ours, fileIdx_square _ hf] at hpawn
    rw [BitBoard.get_inter, hb.theirPieces, hb.pawns, hpawn]
    simp [owned, isPawn]
  rw [squareName, List.cons_append, List.cons_append, List.nil_append, ChessBoard.dashOr]
  · rw [ChessBoard.readEnPassant, if_neg hbytes]
    simp only [hparseFile, hparseRank]
    rw [hrankIdx, hflipped, hfile, hfree, hthere]
    cases p.turn <;> rfl
  · intro rest' heq
    exact hdash (List.cons.inj heq).1

theorem enPassantText_shown (hb : Represents b p.toPosition) :
    (∃ f < 8, PassedOn p.toPosition f ∧ (if b.flipped then b.mirror else b).enPassantText b.flipped =
        squareName (square f (if p.turn = .black then 2 else 5))) ∨
      ((∀ f < 8, ¬ PassedOn p.toPosition f) ∧ (if b.flipped then b.mirror else b).enPassantText b.flipped = ['-']) := by
  have hmarks (u : Square) : ((if b.flipped then b.mirror else b).pawns.diff ChessBoard.pawnMask).get u = true ↔
      rankIdx u = (if p.turn = .black then 0 else 7) ∧ PassedOn p.toPosition (fileIdx u) := by
    have hseen := hb.marks
    rw [hb.flipped]
    by_cases hturn : p.turn = .black
    · have hmask : ∀ s, ChessBoard.pawnMask.get (Chess.mirror s) = ChessBoard.pawnMask.get s := by decide
      have hrank : ∀ s : Square, rankIdx (Chess.mirror s) = 7 ↔ rankIdx s = 0 := by decide
      have hmirror := hseen (Chess.mirror u)
      rw [BitBoard.get_diff, hmask, hrank, show fileIdx (Chess.mirror u) = fileIdx u from fileIdx_ours .black u] at hmirror
      rw [if_pos (decide_eq_true hturn), if_pos hturn, ChessBoard.mirror, BitBoard.get_diff, BitBoard.get_mirror]
      exact hmirror
    · rw [decide_eq_false hturn, if_neg hturn]
      exact hseen u
  have htext : (if decide (p.turn = .black) then 2 else 5) = if p.turn = .black then 2 else 5 := by simp
  rw [ChessBoard.enPassantText]
  cases hsquares : ((if b.flipped then b.mirror else b).pawns.diff ChessBoard.pawnMask).squares with
  | nil =>
    right
    refine ⟨fun f hf hpassed => ?_, rfl⟩
    have hedge : (if p.turn = .black then 0 else 7) < 8 := by split <;> omega
    have hmark := (hmarks (square f (if p.turn = .black then 0 else 7))).mpr (by
      rw [fileIdx_square _ hf, rankIdx_square hf hedge]
      exact ⟨rfl, hpassed⟩)
    have hmem := BitBoard.mem_squares.mpr hmark
    rw [hsquares] at hmem
    cases hmem
  | cons s squares =>
    left
    have hmem := BitBoard.mem_squares.mp (hsquares ▸ List.mem_cons_self ..)
    refine ⟨fileIdx s, fileIdx_lt s, ((hmarks s).mp hmem).2, ?_⟩
    rw [hb.flipped, htext]

/-- A board that has been read up to the rights, without a passed pawn and with one. -/
theorem represents_unpassed (hb : Shows b p.board p.turn) (hflipped : b.flipped = decide (p.turn = .black))
    (hmarks : ∀ u, (b.pawns.diff ChessBoard.pawnMask).get u = false) (hnone : ∀ f < 8, ¬ PassedOn p.toPosition f) :
    Represents { b with castlings := castlingsOf p.castling p.turn } p.toPosition where
  placement := ⟨hb.ourPieces, hb.theirPieces, hb.rooks, hb.bishops, hb.pawns, hb.ourKing, hb.theirKing⟩
  flipped := hflipped
  castlings := rfl
  marks u := by
    change (b.pawns.diff ChessBoard.pawnMask).get u = true ↔ _
    rw [hmarks]
    constructor
    · intro hfalse
      cases hfalse
    · rintro ⟨-, hpassed⟩
      exact absurd hpassed (hnone _ (fileIdx_lt u))

theorem represents_passed (hb : Shows b p.board p.turn) (hflipped : b.flipped = decide (p.turn = .black))
    (hmarks : ∀ u, (b.pawns.diff ChessBoard.pawnMask).get u = false) {f : Nat} (hf : f < 8) (hpassed : PassedOn p.toPosition f) :
    Represents { b with castlings := castlingsOf p.castling p.turn, pawns := b.pawns.set (square f 7) } p.toPosition := by
  have hedge : ChessBoard.pawnMask.get (square f 7) = false := by
    rw [get_pawnMask, rankIdx_square hf (by omega)]
    decide
  refine ⟨⟨hb.ourPieces, hb.theirPieces, hb.rooks, hb.bishops, fun u => ?_, hb.ourKing, hb.theirKing⟩, hflipped, rfl, fun u => ?_⟩
  · rw [← hb.pawns u, BitBoard.get_inter, BitBoard.get_inter, BitBoard.get_set]
    by_cases hu : u = square f 7
    · rw [hu, hedge, Bool.and_false, Bool.and_false]
    · simp [hu]
  · have hunmarked := hmarks u
    rw [BitBoard.get_diff] at hunmarked
    rw [BitBoard.get_diff, BitBoard.get_set, Bool.and_or_distrib_right, hunmarked, Bool.false_or, Bool.and_eq_true, decide_eq_true_iff]
    constructor
    · rintro ⟨rfl, -⟩
      rw [rankIdx_square hf (by omega), fileIdx_square _ hf]
      exact ⟨rfl, hpassed⟩
    · rintro ⟨hrank, hpassed'⟩
      have hfile : fileIdx u = f := PassedOn.unique hpassed' hpassed (fileIdx_lt u) hf
      have hu : u = square f 7 := by
        apply square_ext
        · rw [fileIdx_square _ hf, hfile]
        · rw [rankIdx_square hf (by omega), hrank]
      rw [hu, hedge]
      exact ⟨rfl, rfl⟩

end

theorem fromChars_showInt {z : Int} (h : ChessBoard.fitsInt z) : ChessBoard.fromChars (showInt z) = some z := by
  have hdigits (n : Nat) : (showNat n).takeWhile Char.isDigit = showNat n := by
    rw [List.takeWhile_eq_self_iff]
    exact fun c hc => isDigit_of_mem_showNat hc
  cases z with
  | ofNat n =>
    rw [showInt, ChessBoard.fromChars]
    · simp only [hdigits, readNat_showNat, Bool.false_eq_true, if_false]
      exact if_pos ⟨showNat_ne_nil n, h⟩
    · intro ds heq
      have hdash := isDigit_of_mem_showNat (heq ▸ List.mem_cons_self ..)
      exact absurd hdash (by decide)
  | negSucc n =>
    rw [showInt, ChessBoard.fromChars]
    simp only [hdigits, readNat_showNat, if_true]
    exact if_pos ⟨showNat_ne_nil _, h⟩

theorem parseInt_showInt (msg : String) {z : Int} (h : ChessBoard.fitsInt z) (rest : Str) (hrest : rest.takeWhile (· ≠ ' ') = []) :
    ChessBoard.parseInt msg (showInt z ++ rest) = .ok (z, rest) := by
  have hchars : ∀ c ∈ showInt z, decide (c ≠ ' ') = true := by
    intro c hc
    have hspace := isSpace_showInt hc
    apply decide_eq_true
    rintro rfl
    revert hspace
    decide
  have hdrop : rest.dropWhile (· ≠ ' ') = rest := by
    have hsplit := List.takeWhile_append_dropWhile (p := (· ≠ ' ')) (l := rest)
    rw [hrest] at hsplit
    exact hsplit
  rw [ChessBoard.parseInt, List.takeWhile_append_of_pos hchars, List.dropWhile_append_of_pos hchars, hrest, hdrop, List.append_nil,
    fromChars_showInt h]

theorem skip_one (place : String) {s : Str} (h : s.head? ≠ some ' ') : ChessBoard.skipWhitespace place (' ' :: s) = .ok s := by
  rw [ChessBoard.skipWhitespace, if_pos rfl]
  cases s with
  | nil => rfl
  | cons c rest =>
    have hc : c ≠ ' ' := fun heq => h (congrArg some heq)
    simp [hc]

section
variable {p : GamePosition} {b : ChessBoard}

/-- The board that is written is White's view of the position. -/
theorem shows_white (hb : Represents b p.toPosition) : Shows (if b.flipped then b.mirror else b) p.board .white ∧
    (if b.flipped then b.mirror else b).castlings = castlingsOf p.castling .white := by
  have hplacement := hb.placement
  have hcastlings := hb.castlings
  rw [hb.flipped]
  cases hturn : p.turn with
  | white =>
    rw [hturn] at hplacement hcastlings
    exact ⟨hplacement, hcastlings⟩
  | black =>
    rw [hturn] at hplacement hcastlings
    refine ⟨hplacement.mirror, ?_⟩
    rw [if_pos (decide_eq_true rfl), ChessBoard.mirror, hcastlings, castlingsOf_mirror]
    rfl

/-- A board that has been read from its first two fields: it has no rights and no marks yet. -/
structure Unfinished (b : ChessBoard) (p : Chess.Position) : Prop where
  placement : Shows b p.board p.turn
  flipped : b.flipped = decide (p.turn = .black)
  castlings : b.castlings = {}
  marks : ∀ u, (b.pawns.diff ChessBoard.pawnMask).get u = false

theorem read_written {w : ChessBoard} (hw : Shows w p.board .white) : ∃ b₀,
    (∀ rest, ChessBoard.readBoard {} 7 0 ((w.writeRanks 7 ++ ' ' :: rest).dropWhile (· = ' ')) = .ok (b₀, ' ' :: rest)) ∧
      ∃ b₁, ChessBoard.readSide b₀ (if p.turn = .black then 'b' else 'w') = .ok b₁ ∧ Unfinished b₁ p.toPosition := by
  obtain ⟨b₀, hplaced, hread⟩ := read_ranks hw p.one_king p.pawns_inside 7 {} (by omega) (placed_zero p.board)
  obtain ⟨hshows, hmarks⟩ := hplaced.shows p.one_king p.pawns_inside
  refine ⟨b₀, fun rest => ?_, ?_⟩
  · -- A field that started with a space would be read as a board without a king.
    have hpieces : b₀ ≠ {} := by
      rintro rfl
      have hking := hshows.ourPieces (fromIdx 0)
      rw [show ours .white (fromIdx 0) = fromIdx 0 from rfl, show p.board (fromIdx 0) = _ from hshows.ourKing] at hking
      revert hking
      decide
    have hkept : (w.writeRanks 7 ++ ' ' :: rest).dropWhile (· = ' ') = w.writeRanks 7 ++ ' ' :: rest := by
      cases htext : w.writeRanks 7 with
      | nil =>
        have hempty := hread rest
        rw [htext, List.nil_append, ChessBoard.readBoard, if_pos rfl] at hempty
        exact absurd (Prod.mk.inj (Except.ok.inj hempty)).1.symm hpieces
      | cons c text =>
        have hc : c ≠ ' ' := by
          rintro rfl
          have hempty := hread rest
          rw [htext, List.cons_append, ChessBoard.readBoard, if_pos rfl] at hempty
          exact hpieces (Prod.mk.inj (Except.ok.inj hempty)).1.symm
        rw [List.cons_append, List.dropWhile_cons_of_neg (by simpa using hc)]
    rw [hkept, hread]
  · cases hturn : p.turn with
    | white =>
      refine ⟨b₀, rfl, ?_, ?_, hplaced.castlings, hmarks⟩
      · rw [hturn]
        exact hshows
      · rw [hturn]
        exact hplaced.flipped
    | black =>
      refine ⟨b₀.mirror, rfl, ?_, ?_, ?_, fun u => ?_⟩
      · rw [hturn]
        exact hshows.mirror
      · rw [hturn, ChessBoard.mirror, hplaced.flipped]
        rfl
      · rw [ChessBoard.mirror, hplaced.castlings]
        rfl
      · have hmask : ∀ s, ChessBoard.pawnMask.get (Chess.mirror s) = ChessBoard.pawnMask.get s := by decide
        have hmirror := hmarks (Chess.mirror u)
        rw [BitBoard.get_diff, hmask] at hmirror
        rw [ChessBoard.mirror, BitBoard.get_diff, BitBoard.get_mirror]
        exact hmirror

theorem Unfinished.read_enPassant {b₁ : ChessBoard} (h : Unfinished b₁ p.toPosition) (hb : Represents b p.toPosition) (rest : Str) :
    let b₂ := { b₁ with castlings := castlingsOf p.castling p.turn }
    ChessBoard.dashOr b₂ b₂.readEnPassant ((if b.flipped then b.mirror else b).enPassantText b.flipped ++ ' ' :: rest) =
      .ok (b, ' ' :: rest) := by
  intro b₂
  have hshows : Shows b₂ p.board p.turn := by
    obtain ⟨h1, h2, h3, h4, h5, h6, h7⟩ := h.placement
    exact ⟨h1, h2, h3, h4, h5, h6, h7⟩
  obtain ⟨f, hf, hpassed, htext⟩ | ⟨hnone, htext⟩ := enPassantText_shown hb
  · have hfinal := represents_passed h.placement h.flipped h.marks hf hpassed
    rw [htext, read_passed hshows h.flipped hf hpassed, ← (board_eq_iff_same hfinal hb).mpr (Position.Same.refl _)]
  · have hfinal := represents_unpassed h.placement h.flipped h.marks hnone
    rw [htext, List.singleton_append, ChessBoard.dashOr, ← (board_eq_iff_same hfinal hb).mpr (Position.Same.refl _)]

theorem head_field {s : Str} (hne : s ≠ []) (hs : ∀ c ∈ s, c ≠ ' ') (rest : Str) :
    (s ++ rest).head? ≠ some ' ' ∧ s ++ rest ≠ [] := by
  obtain ⟨c, text, rfl⟩ := List.exists_cons_of_ne_nil hne
  refine ⟨?_, by simp⟩
  rw [List.cons_append, List.head?_cons]
  exact fun heq => hs c (List.mem_cons_self ..) (Option.some_inj.mp heq)

theorem castlings_field (rights : Color → Side → Bool) : (castlingsOf rights .white).asString ≠ [] ∧
    ∀ c ∈ (castlingsOf rights .white).asString, c ≠ ' ' := by
  rw [eq_rightsOf rights]
  generalize rights .white .king = wk, rights .white .queen = wq, rights .black .king = bk, rights .black .queen = bq
  revert wk wq bk bq
  decide

theorem enPassant_field (w : ChessBoard) (blackToMove : Bool) : w.enPassantText blackToMove ≠ [] ∧
    ∀ c ∈ w.enPassantText blackToMove, c ≠ ' ' := by
  have hname : ∀ s : Square, squareName s ≠ [] ∧ ∀ c ∈ squareName s, c ≠ ' ' := by decide
  rw [ChessBoard.enPassantText]
  split
  · exact hname _
  · decide

theorem number_field (z : Int) : showInt z ≠ [] ∧ ∀ c ∈ showInt z, c ≠ ' ' := by
  refine ⟨showInt_ne_nil z, fun c hc => ?_⟩
  have hspace := isSpace_showInt hc
  rintro rfl
  revert hspace
  decide

/-- The number of the move that a FEN ends with. -/
def moveNumber (b : ChessBoard) (plyCount : Int) : Int := (plyCount + if b.flipped then 1 else 2).tdiv 2

theorem fits_moveNumber {plyCount : Int} (h : ChessBoard.fitsInt plyCount) (hnext : ChessBoard.fitsInt (plyCount + 2)) :
    ChessBoard.fitsInt (moveNumber b plyCount) := by
  rw [ChessBoard.fitsInt] at *
  rw [moveNumber]
  generalize hz : plyCount + (if b.flipped then 1 else 2) = z
  have hrange : -2147483648 ≤ z ∧ z ≤ 2147483647 := by
    revert hz
    cases b.flipped <;> simp only [Bool.false_eq_true, if_true, if_false] <;> omega
  have hhalf := Int.natAbs_tdiv_le_natAbs z 2
  have hsplit := Int.mul_tdiv_add_tmod z 2
  have hmod := Int.tmod_lt_of_pos z (show (0 : Int) < 2 by decide)
  have hmod' := Int.lt_tmod_of_pos z (show (0 : Int) < 2 by decide)
  omega

/-- The reader gives the board and the clock back; the counter of the plies comes back as the number of
the move. -/
theorem fromFen_toFen (hb : Represents b p.toPosition) {rule50 plyCount : Int} (h50 : ChessBoard.fitsInt rule50)
    (hply : ChessBoard.fitsInt plyCount) (hnext : ChessBoard.fitsInt (plyCount + 2)) :
    Position.fromFen (Position.toFen ⟨b, rule50, plyCount⟩) = .ok ⟨b, rule50, moveNumber b plyCount⟩ := by
  obtain ⟨hwhite, hcastlings⟩ := shows_white hb
  obtain ⟨b₀, hboard, b₁, hside, hunfinished⟩ := read_written hwhite
  have hletter : (if b.flipped = true then 'b' else 'w') = if p.turn = .black then 'b' else 'w' := by
    rw [hb.flipped]
    simp
  have hsideHead : ∀ rest, ((if p.turn = .black then 'b' else 'w') :: rest).head? ≠ some ' ' := by
    intro rest
    cases p.turn <;> simp
  have hcastlingsHead := head_field (castlings_field p.castling).1 (castlings_field p.castling).2
  have hpassedField := enPassant_field (if b.flipped then b.mirror else b) b.flipped
  have hpassedHead := head_field hpassedField.1 hpassedField.2
  have hclockHead := head_field (number_field rule50).1 (number_field rule50).2
  have hmovesField := number_field (moveNumber b plyCount)
  have hmovesHead := head_field hmovesField.1 hmovesField.2 []
  have hmoves := parseInt_showInt "bad total moves" (fits_moveNumber (b := b) hply hnext) [] rfl
  rw [List.append_nil] at hmovesHead hmoves
  have hfen : Position.toFen ⟨b, rule50, plyCount⟩ = (if b.flipped then b.mirror else b).writeRanks 7 ++
      ' ' :: (if p.turn = .black then 'b' else 'w') :: ' ' :: ((castlingsOf p.castling .white).asString ++
        ' ' :: ((if b.flipped then b.mirror else b).enPassantText b.flipped ++
          ' ' :: (showInt rule50 ++ ' ' :: showInt (moveNumber b plyCount)))) := by
    rw [← hletter, ← hcastlings]
    simp only [Position.toFen, ChessBoard.toFen, moveNumber, List.append_assoc, List.cons_append]
  have hfields : Position.readFields (Position.toFen ⟨b, rule50, plyCount⟩) = .ok ⟨b, rule50, moveNumber b plyCount⟩ := by
    rw [hfen, Position.readFields]
    simp only [bind, Except.bind, hboard, skip_one _ (hsideHead _), hside, skip_one _ (hcastlingsHead _).1, (hcastlingsHead _).2,
      if_false, read_castlings hunfinished.placement hunfinished.flipped hunfinished.castlings, skip_one _ (hpassedHead _).1,
      (hpassedHead _).2, hunfinished.read_enPassant hb, skip_one _ (hclockHead _).1, (hclockHead _).2,
      parseInt_showInt "bad rule 50 halfmoves" h50 (' ' :: showInt (moveNumber b plyCount)) rfl,
      skip_one _ hmovesHead.1, hmovesHead.2, hmoves]
    rfl
  rw [Position.fromFen, hfields]

/-- **Round trip.** What lc0 writes for a position of a game is read back, and two positions have the
same text exactly when they are the same for a repetition and their numbers agree. -/
theorem fen_round_trip {q : GamePosition} {b' : ChessBoard} (hb : Represents b p.toPosition) (hb' : Represents b' q.toPosition)
    {rule50 rule50' plyCount plyCount' : Int} (h50 : ChessBoard.fitsInt rule50) (h50' : ChessBoard.fitsInt rule50')
    (hply : ChessBoard.fitsInt plyCount ∧ ChessBoard.fitsInt (plyCount + 2))
    (hply' : ChessBoard.fitsInt plyCount' ∧ ChessBoard.fitsInt (plyCount' + 2)) :
    Position.fromFen (Position.toFen ⟨b, rule50, plyCount⟩) = .ok ⟨b, rule50, moveNumber b plyCount⟩ ∧
      (Position.toFen ⟨b, rule50, plyCount⟩ = Position.toFen ⟨b', rule50', plyCount'⟩ ↔
        p.Same q.toPosition ∧ rule50 = rule50' ∧ moveNumber b plyCount = moveNumber b' plyCount') := by
  have hread := fromFen_toFen hb h50 hply.1 hply.2
  have hread' := fromFen_toFen hb' h50' hply'.1 hply'.2
  refine ⟨hread, ?_⟩
  constructor
  · intro htext
    rw [htext, hread'] at hread
    obtain ⟨hboard, h50, hmoves⟩ := Position.mk.inj (Except.ok.inj hread)
    exact ⟨(board_eq_iff_same hb hb').mp hboard.symm, h50.symm, hmoves.symm⟩
  · rintro ⟨hsame, rfl, hmoves⟩
    obtain rfl := (board_eq_iff_same hb hb').mpr hsame
    rw [moveNumber, moveNumber] at hmoves
    rw [Position.toFen, Position.toFen]
    simp only [hmoves]

end

def enPassantBoard : Chess.Board := fun s =>
  if s = square 4 0 then some ⟨.white, .king⟩ else if s = square 4 3 then some ⟨.white, .pawn⟩
  else if s = square 3 3 then some ⟨.black, .pawn⟩ else if s = square 4 7 then some ⟨.black, .king⟩
  else if s = square 7 7 then some ⟨.black, .rook⟩ else none

/-- Black may take en passant, and is the only one who may still castle, on one side. -/
def enPassantPosition : GamePosition where
  board := enPassantBoard
  turn := .black
  castling c side := c = .black ∧ side = .king
  enPassant := some (square 4 2)
  halfmoveClock := 0
  fullmoveNumber := 5
  one_king c := ⟨kingHome c, by cases c <;> decide, by cases c <;> decide +kernel⟩
  castling_home c side h := by
    obtain ⟨rfl, rfl⟩ := of_decide_eq_true h
    decide
  not_in_check := by decide +kernel
  passed_pawn := by decide +kernel
  pawns_inside s c := by
    revert s
    cases c <;> decide +kernel
  passed_rank := by decide

def enPassantChessBoard : ChessBoard where
  ourPieces := ⟨0x0000000800000090#64⟩
  theirPieces := ⟨0x1000001000000000#64⟩
  rooks := ⟨0x0000000000000080#64⟩
  pawns := ⟨0x1000001800000000#64⟩
  ourKing := square 4 0
  theirKing := square 4 7
  castlings := { weCan00 := true }
  flipped := true

theorem represents_enPassant : Represents enPassantChessBoard enPassantPosition.toPosition where
  placement := by constructor <;> decide +kernel
  flipped := by decide
  castlings := by decide
  marks := by decide +kernel

/-- The text does not tell two half-moves of one move apart. -/
theorem enPassant_round_trip :
    Position.fromFen (Position.toFen ⟨enPassantChessBoard, 0, 9⟩) = .ok ⟨enPassantChessBoard, 0, moveNumber enPassantChessBoard 9⟩ ∧
      (Position.toFen ⟨enPassantChessBoard, 0, 9⟩ = Position.toFen ⟨enPassantChessBoard, 0, 10⟩ ↔
        enPassantPosition.Same enPassantPosition.toPosition ∧ (0 : Int) = 0 ∧
          moveNumber enPassantChessBoard 9 = moveNumber enPassantChessBoard 10) :=
  fen_round_trip represents_enPassant represents_enPassant (by decide) (by decide) (by decide) (by decide)

/-- The history that `ResetToPosition` makes of a starting position and moves. -/
def PositionHistory.ofState (pos : GameState) : PositionHistory :=
  pos.moves.foldl .append (.reset pos.startpos.board pos.startpos.rule50Ply pos.startpos.plyCount)

theorem history_line (g : Line) (board : ChessBoard) (gamePly : Int) (k : Nat) :
    PositionHistory.ofState ⟨⟨board, (g.position 0).halfmoveClock, gamePly⟩, (List.range k).map (lineMove g)⟩ =
      PositionHistory.ofLine g board gamePly k := by
  induction k with
  | zero => rfl
  | succ k ih =>
    rw [PositionHistory.ofState] at ih
    rw [PositionHistory.ofState, List.range_succ, List.map_append, List.foldl_append, ih]
    rfl

/-- **The command is understood.** The position that a game starts from, written as a FEN, and the
moves of the game, each in either castling notation, are read as that position and the edges of the
search, and the last board of the history is the one reached. -/
theorem command_understood (g : Line) (board : ChessBoard) (gamePly : Int) (notation960 : Nat → Bool)
    (hboard : Represents board (g.position 0).toPosition) (h50 : ChessBoard.fitsInt (g.position 0).halfmoveClock)
    (hply : ChessBoard.fitsInt gamePly ∧ ChessBoard.fitsInt (gamePly + 2)) (k : Nat) (hk : k ≤ g.length) :
    ∃ pos, makeGameState ChessBoard.playMove (Position.toFen ⟨board, (g.position 0).halfmoveClock, gamePly⟩)
        ((List.range k).map (lineText g notation960)) = .ok pos ∧
      pos.moves = (List.range k).map (lineMove g) ∧
      PositionHistory.ofState pos = PositionHistory.ofLine g board (moveNumber board gamePly) k ∧
      Represents (PositionHistory.ofState pos).last.board (g.position k).toPosition := by
  have hmoves := playMoves_from g notation960 k 0 board (by omega) hboard
  rw [← List.range_eq_range'] at hmoves
  have hhistory := history_line g board (moveNumber board gamePly) k
  refine ⟨⟨⟨board, (g.position 0).halfmoveClock, moveNumber board gamePly⟩, (List.range k).map (lineMove g)⟩, ?_, rfl, hhistory, ?_⟩
  · rw [makeGameState, fromFen_toFen hboard h50 hply.1 hply.2]
    simp only [hmoves, Except.map]
  · rw [hhistory]
    exact (PositionHistory.tracks_ofLine hboard _ k hk).last.board

theorem knights_understood :
    ∃ pos, makeGameState ChessBoard.playMove (Position.toFen ⟨standardBoard, (knightLine.position 0).halfmoveClock, 0⟩)
        ((List.range 4).map (lineText knightLine (fun _ => false))) = .ok pos ∧
      pos.moves = (List.range 4).map (lineMove knightLine) ∧
      PositionHistory.ofState pos = PositionHistory.ofLine knightLine standardBoard (moveNumber standardBoard 0) 4 ∧
      Represents (PositionHistory.ofState pos).last.board (knightLine.position 4).toPosition :=
  command_understood knightLine standardBoard 0 (fun _ => false) represents_start (by decide) (by decide) 4 (by decide)

end ChessAnalytics.Lc0.Board
