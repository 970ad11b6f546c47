import ChessAnalytics.Lc0.Commands
import ChessAnalytics.Lc0.History

/-! How lc0 reads the moves of a `position` command: every text that it prints for a legal move, in
either castling notation, is read back as the move of the root edge. -/
namespace ChessAnalytics.Lc0.Board
open Strings Chess

/-- The piece that a letter promotes to, when a pawn can become it. -/
def promotionOf (c : Char) : Option Promotion :=
  match PieceType.parse c with
  | some .knight => some .knight
  | some .queen => some .queen
  | some .rook => some .rook
  | some .bishop => some .bishop
  | _ => none

/-- `complain`. -/
def invalidMove (reason : String) (moveStr : Str) : Str :=
  "Invalid move (".toList ++ reason.toList ++ "): ".toList ++ moveStr

def fileOf (s : Square) : Fin 8 := ⟨fileIdx s, fileIdx_lt s⟩

namespace ChessBoard

/-- `ParseMove` once the squares are known, and the letter behind them if there is one. -/
def parseSquares (b : ChessBoard) (moveStr : Str) (s t : Square) (letter : Option Char) : Except Str Move :=
  if !b.ourPieces.get s then .error (invalidMove "no piece to move" moveStr)
  else if b.pawns.get s ∧ (rankIdx s ≠ 0 ∧ rankIdx s ≠ 7) ∧ (rankIdx t = 0 ∨ rankIdx t = 7) then
    match letter with
    | none => .ok (.whitePromotion s t .knight)
    | some c =>
      match promotionOf c with
      | some k => .ok (.whitePromotion s t k)
      | none => .error (invalidMove "invalid promotion" moveStr)
  else if s = b.ourKing ∧ b.ourPieces.get t then .ok (.whiteCastling (fileOf s) (fileOf t))
  else if s = b.ourKing ∧ s = square 4 0 ∧ t = square 6 0 then .ok (.whiteCastling (fileOf s) (rookFile .king))
  else if s = b.ourKing ∧ s = square 4 0 ∧ t = square 2 0 then .ok (.whiteCastling (fileOf s) (rookFile .queen))
  else if fileIdx s ≠ fileIdx t ∧ (b.pawns.inter pawnMask).get s ∧ !b.theirPieces.get t then .ok (.whiteEnPassant s t)
  else .ok (.white s t)

def flipRank (b : ChessBoard) (r : Nat) : Nat := if b.flipped then 7 - r else r

/-- `ParseMove`. Sizes are in bytes; a byte that is not ASCII names no square. -/
def parseMove (b : ChessBoard) (moveStr : Str) : Except Str Move :=
  if byteSize moveStr < 4 ∨ 5 < byteSize moveStr then .error (invalidMove "wrong move size" moveStr)
  else
    match moveStr with
    | f :: r :: f' :: r' :: rest =>
      match parseFile f, parseRank r, parseFile f', parseRank r' with
      | some fromFile, some fromRank, some toFile, some toRank =>
        b.parseSquares moveStr (square fromFile (b.flipRank fromRank)) (square toFile (b.flipRank toRank)) rest.head?
      | _, _, _, _ => .error (invalidMove "bad square" moveStr)
    | _ => .error (invalidMove "bad square" moveStr)

/-- One turn of the loop in `MakeGameState` over the moves of a command. -/
def playMove (b : ChessBoard) (moveStr : Str) : Except Str (Move × ChessBoard) := do
  let m ← b.parseMove moveStr
  return (m, (b.applyMove m).1.mirror)

end ChessBoard

theorem square_chars : ∀ s : Square,
    parseFile (Char.ofNat ('a'.toNat + fileIdx s)) = some (fileIdx s) ∧
      parseRank (Char.ofNat ('1'.toNat + rankIdx s)) = some (rankIdx s) ∧
      (Char.ofNat ('a'.toNat + fileIdx s)).utf8Size = 1 ∧ (Char.ofNat ('1'.toNat + rankIdx s)).utf8Size = 1 := by
  decide

theorem promotionOf_letter (k : Promotion) : promotionOf k.letter = some k := by cases k <;> decide

section
variable {p : GamePosition} {b : ChessBoard}

theorem square_seen (hb : Represents b p.toPosition) (s : Square) :
    square (fileIdx s) (b.flipRank (rankIdx s)) = ours p.turn s := by
  have hlt := rankIdx_lt s
  have hrank : b.flipRank (rankIdx s) = seenRank p.turn (rankIdx s) := by
    rw [ChessBoard.flipRank, hb.flipped]
    cases p.turn <;> rfl
  have hseen : seenRank p.turn (rankIdx s) < 8 := by
    cases p.turn <;> simp only [seenRank] <;> omega
  rw [hrank]
  apply square_ext
  · rw [fileIdx_square _ (fileIdx_lt s), fileIdx_ours]
  · rw [rankIdx_square (fileIdx_lt s) hseen, rankIdx_ours]

theorem parseMove_chars (b : ChessBoard) {f r f' r' : Char} {fromFile fromRank toFile toRank : Nat} (rest : Str)
    (hf : parseFile f = some fromFile) (hr : parseRank r = some fromRank) (hf' : parseFile f' = some toFile)
    (hr' : parseRank r' = some toRank) (hsize : f.utf8Size = 1 ∧ r.utf8Size = 1 ∧ f'.utf8Size = 1 ∧ r'.utf8Size = 1)
    (hrest : ChessBoard.byteSize rest ≤ 1) :
    b.parseMove (f :: r :: f' :: r' :: rest) = b.parseSquares (f :: r :: f' :: r' :: rest) (square fromFile (b.flipRank fromRank))
      (square toFile (b.flipRank toRank)) rest.head? := by
  obtain ⟨h1, h2, h3, h4⟩ := hsize
  have hbytes : ChessBoard.byteSize (f :: r :: f' :: r' :: rest) = 4 + ChessBoard.byteSize rest := by
    simp only [ChessBoard.byteSize, List.map_cons, List.sum_cons, h1, h2, h3, h4]
    omega
  rw [ChessBoard.parseMove, hbytes, if_neg (by omega)]
  simp only [hf, hr, hf', hr']

theorem parseMove_text (hb : Represents b p.toPosition) (s t : Square) (promotion : Option Promotion) :
    b.parseMove (squareName s ++ squareName t ++ promotionText promotion) =
      b.parseSquares (squareName s ++ squareName t ++ promotionText promotion) (ours p.turn s) (ours p.turn t)
        (promotion.map Promotion.letter) := by
  obtain ⟨hsf, hsr, hsfSize, hsrSize⟩ := square_chars s
  obtain ⟨htf, htr, htfSize, htrSize⟩ := square_chars t
  have hrest : ChessBoard.byteSize (promotionText promotion) ≤ 1 := by
    rcases promotion with _ | k
    · decide
    · cases k <;> decide
  have hhead : (promotionText promotion).head? = promotion.map Promotion.letter := by cases promotion <;> rfl
  rw [← square_seen hb s, ← square_seen hb t, ← hhead]
  exact parseMove_chars b (promotionText promotion) hsf hsr htf htr ⟨hsfSize, hsrSize, htfSize, htrSize⟩ hrest

theorem ours_get {q : Piece} (hb : Represents b p.toPosition) {s : Square} (hq : p.board s = some q) (hcolor : q.color = p.turn) :
    b.ourPieces.get (ours p.turn s) = true := by
  rw [hb.placement.ourPieces, ours_ours, hq]
  exact decide_eq_true hcolor

/-- The condition for a promotion: a pawn on its way to a back rank. -/
theorem promoting_iff {s t : Square} {promotion : Option Promotion} (hb : Represents b p.toPosition)
    (h : p.Legal (.plain s t promotion)) :
    (b.pawns.get (ours p.turn s) = true ∧ (rankIdx (ours p.turn s) ≠ 0 ∧ rankIdx (ours p.turn s) ≠ 7) ∧
      (rankIdx (ours p.turn t) = 0 ∨ rankIdx (ours p.turn t) = 7)) ↔ promotion ≠ none := by
  have hpawns := hb.placement.pawns (ours p.turn s)
  rw [BitBoard.get_inter, get_pawnMask, ours_ours] at hpawns
  obtain ⟨q, hq, hcolor, htarget, hmove⟩ := Position.source_of_legal h
  have hs := rankIdx_lt s
  have ht := rankIdx_lt t
  constructor
  · rintro ⟨hget, hrank, hlast⟩ hnone
    have hs' := rankIdx_lt (ours p.turn s)
    rw [hget, decide_eq_true (by omega)] at hpawns
    have hpawn : q.type = .pawn := by
      rw [hq, isPawn] at hpawns
      exact of_decide_eq_true hpawns.symm
    have hplaced : p.placed s promotion = some ⟨q.color, .pawn⟩ := by rw [hnone, Position.placed, hq, ← hpawn]
    have harrives := Position.pawn_arrives h.1 (fun c => p.pawns_inside s c) hplaced
    rw [rankIdx_ours] at hlast
    revert hlast
    cases p.turn <;> simp only [seenRank] <;> omega
  · intro hsome
    obtain ⟨k, rfl⟩ := Option.ne_none_iff_exists'.mp hsome
    have hpawn := promoted_pawn h.1
    have hinside := p.pawns_inside s _ hpawn
    obtain rfl := Option.some_inj.mp (hpawn.symm.trans hq)
    have hlast := (hmove.2.mp hsome : rankIdx t = p.turn.lastRank)
    have hsource : 1 ≤ rankIdx (ours p.turn s) ∧ rankIdx (ours p.turn s) ≤ 6 := by
      rw [rankIdx_ours]
      cases p.turn <;> simp only [seenRank] <;> omega
    refine ⟨?_, by omega, ?_⟩
    · rw [decide_eq_true hsource, Bool.and_true, hpawn] at hpawns
      exact hpawns
    · right
      rw [rankIdx_ours, hlast]
      cases p.turn <;> rfl

/-- A king that makes a plain move does not go from e1 to a castled square. -/
theorem king_not_castling {s t : Square} {promotion : Option Promotion} (h : p.Legal (.plain s t promotion)) (side : Side)
    (hs : p.board s = some ⟨p.turn, .king⟩) : ¬ (ours p.turn s = square 4 0 ∧ ours p.turn t = square (kingDst side) 0) := by
  rintro ⟨hsource, htarget⟩
  have hadjacent := Position.adjacent_of_king h hs
  have hfar : ∀ side : Side, (fileStep (square 4 0) (square (kingDst side) 0)).natAbs = 2 := by
    intro side
    cases side <;> decide
  have hfiles := hfar side
  rw [← hsource, ← htarget, fileStep_ours] at hfiles
  rw [Adjacent, hfiles] at hadjacent
  omega

/-- A pawn that changes its file without a piece on its target takes en passant. -/
theorem passing_iff {s t : Square} (hb : Represents b p.toPosition) (h : p.Legal (.plain s t none)) :
    (fileIdx (ours p.turn s) ≠ fileIdx (ours p.turn t) ∧ (b.pawns.inter ChessBoard.pawnMask).get (ours p.turn s) = true ∧
      (!b.theirPieces.get (ours p.turn t)) = true) ↔ p.TakesEnPassant s t := by
  rw [fileIdx_ours, fileIdx_ours, hb.placement.pawns, hb.placement.theirPieces, ours_ours, ours_ours, Bool.not_eq_true']
  obtain ⟨q, hq, hcolor, htarget, hmove⟩ := Position.source_of_legal h
  constructor
  · rintro ⟨hfile, hpawn, hempty⟩
    have htype : q.type = .pawn := by
      rw [hq, isPawn] at hpawn
      exact of_decide_eq_true hpawn
    rw [if_pos htype] at hmove
    rcases hmove.1 with ⟨hstraight, -⟩ | ⟨-, r, hr, hother⟩ | htakes
    · rw [fileStep] at hstraight
      omega
    · rw [Option.mem_def.mp hr, owned, hother] at hempty
      simp at hempty
    · exact htakes
  · rintro ⟨hpawn, hattack, -, hempty⟩
    refine ⟨?_, ?_, ?_⟩
    · have hfile : (fileStep s t).natAbs = 1 := hattack.1
      rw [fileStep] at hfile
      omega
    · rw [hpawn]
      rfl
    · rw [hempty]
      rfl

theorem parse_plain (hb : Represents b p.toPosition) {s t : Square} {promotion : Option Promotion}
    (h : p.Legal (.plain s t promotion)) :
    b.parseMove (squareName s ++ squareName t ++ promotionText promotion) = .ok (encode p.toPosition (.plain s t promotion)) := by
  obtain ⟨q, hq, hcolor, -⟩ := Position.source_of_legal h
  have hpromoting := promoting_iff hb h
  rw [parseMove_text hb]
  unfold ChessBoard.parseSquares
  rw [ours_get hb hq hcolor, if_neg (by simp)]
  cases promotion with
  | some k =>
    rw [if_pos (hpromoting.mpr (by simp))]
    simp only [Option.map_some, promotionOf_letter]
    rfl
  | none =>
    have htarget : b.ourPieces.get (ours p.turn t) = false := by
      rw [hb.placement.ourPieces, ours_ours]
      exact target_not_ours h.1
    have hking (side : Side) : ¬ (ours p.turn s = b.ourKing ∧ ours p.turn s = square 4 0 ∧
        ours p.turn t = square (kingDst side) 0) := by
      rintro ⟨hking, hsquares⟩
      exact king_not_castling h side ((king_moves_iff hb.placement).mp hking) hsquares
    have hkingside := hking .king
    have hqueenside := hking .queen
    simp only [kingDst] at hkingside hqueenside
    rw [if_neg (fun hc => hpromoting.mp hc rfl), if_neg (by simp [htarget]), if_neg hkingside, if_neg hqueenside, encode]
    by_cases hpassing : p.TakesEnPassant s t
    · rw [if_pos ((passing_iff hb h).mpr hpassing), if_pos hpassing]
    · rw [if_neg (fun hc => hpassing ((passing_iff hb h).mp hc)), if_neg hpassing]

private theorem castle_texts : ∀ (c : Color) (side : Side), ours c (kingHome c) = square 4 0 ∧
    ours c (kingCastled c side) = square (kingDst side) 0 ∧ ours c (rookHome c side) = square (rookFile side) 0 := by
  intro c side
  cases c <;> cases side <;> decide

theorem parse_castle (hb : Represents b p.toPosition) {side : Side} (h : p.Legal (.castle side)) :
    b.parseMove (squareName (kingHome p.turn) ++ squareName (kingCastled p.turn side)) =
        .ok (encode p.toPosition (.castle side)) ∧
      b.parseMove (squareName (kingHome p.turn) ++ squareName (rookHome p.turn side)) =
        .ok (encode p.toPosition (.castle side)) := by
  obtain ⟨hkingHome, hkingTo, hrookHome⟩ := castle_texts p.turn side
  obtain ⟨hking, hrook, hfree, -⟩ := Position.castle_squares (Position.castles_of_legal h)
  have hourKing := castle_king hb.placement (Position.castles_of_legal h)
  have hget := ours_get hb hking rfl
  have hrookGet := ours_get hb hrook rfl
  have hfreeGet : b.ourPieces.get (ours p.turn (kingCastled p.turn side)) = false := by
    rw [hb.placement.ourPieces, ours_ours, hfree]
    rfl
  have hback : rankIdx (square 4 0) = 0 := by decide
  have htext (t : Square) := parseMove_text hb (kingHome p.turn) t none
  simp only [promotionText, Option.map_none, Option.toList_none, List.append_nil] at htext
  rw [hkingHome] at hget htext
  rw [hrookHome] at hrookGet
  rw [hkingTo] at hfreeGet
  have hfile : fileOf (square 4 0) = 4 := by decide
  have hcorners : square 2 0 ≠ square 6 0 := by decide
  rw [htext, htext, hkingTo, hrookHome]
  unfold ChessBoard.parseSquares
  constructor
  · rw [hget, hourKing, hfreeGet, hback, hfile, if_neg (by simp), if_neg (by simp), if_neg (by simp)]
    cases side with
    | king =>
      rw [if_pos ⟨rfl, rfl, rfl⟩]
      rfl
    | queen =>
      rw [if_neg (fun hc => hcorners hc.2.2), if_pos ⟨rfl, rfl, rfl⟩]
      rfl
  · rw [hget, hourKing, hrookGet, hback, hfile, if_neg (by simp), if_neg (by simp), if_pos ⟨rfl, rfl⟩]
    cases side <;> rfl

/-- Whichever way lc0 prints a legal move, it reads the text back as the move of the root edge. -/
theorem parse_shown (hb : Represents b p.toPosition) {m : Chess.Move} (h : p.Legal m) (chess960 : Bool) :
    b.parseMove ((shownMove p.toPosition m).toString chess960) = .ok (encode p.toPosition m) := by
  cases m with
  | plain s t promotion =>
    rw [toString_plain]
    exact parse_plain hb h
  | castle side =>
    cases chess960 with
    | true =>
      rw [toString_castle]
      exact (parse_castle hb h).2
    | false =>
      rw [toString_standard]
      exact (parse_castle hb h).1

end

/-- The text of a move of a game, in one of the two castling notations. -/
def lineText (g : Line) (notation960 : Nat → Bool) (i : Nat) : Str :=
  (shownMove (g.position i).toPosition (g.move i)).toString (notation960 i)

def lineMove (g : Line) (i : Nat) : Move := encode (g.position i).toPosition (g.move i)

theorem playMoves_from (g : Line) (notation960 : Nat → Bool) (n : Nat) : ∀ (i : Nat) (b : ChessBoard), i + n ≤ g.length →
    Represents b (g.position i).toPosition →
    playMoves ChessBoard.playMove b ((List.range' i n).map (lineText g notation960)) =
      .ok ((List.range' i n).map (lineMove g)) := by
  induction n with
  | zero =>
    intro i b _ _
    rfl
  | succ n ih =>
    intro i b hi hb
    have hlegal := g.legal i (by omega)
    have hnext : Represents (b.applyMove (lineMove g i)).1.mirror (g.position (i + 1)).toPosition := by
      rw [g.push i (by omega)]
      exact hb.push hlegal
    have hplayed : b.playMove (lineText g notation960 i) = .ok (lineMove g i, (b.applyMove (lineMove g i)).1.mirror) := by
      rw [ChessBoard.playMove, show b.parseMove (lineText g notation960 i) = .ok (lineMove g i) from parse_shown hb hlegal _]
      rfl
    rw [List.range'_succ, List.map_cons, List.map_cons, playMoves, hplayed]
    simp only [ih (i + 1) _ (by omega) hnext, Except.map]

end ChessAnalytics.Lc0.Board
