import ChessAnalytics.Chess.Material
import ChessAnalytics.Lc0.LegalMoves

/-! When a game is over for lc0, and with which result. -/
namespace ChessAnalytics.Lc0.Board
open Strings Chess

inductive GameResult where
  | undecided | blackWon | draw | whiteWon
  deriving DecidableEq, Repr

/-- `kLightSquares`. -/
def lightSquares : BitBoard := ⟨0x55AA55AA55AA55AA#64⟩

/-- `kDarkSquares`. -/
def darkSquares : BitBoard := ⟨0xAA55AA55AA55AA55#64⟩

namespace ChessBoard

def knights (b : ChessBoard) : BitBoard :=
  (((((b.ourPieces.union b.theirPieces).diff (b.pawns.inter pawnMask)).diff (.fromSquare b.ourKing)).diff (.fromSquare b.theirKing)).diff
    b.rooks).diff b.bishops

def hasMatingMaterial (b : ChessBoard) : Bool :=
  if !b.rooks.isEmpty || !b.pawns.isEmpty then true
  else if (b.ourPieces.union b.theirPieces).count < 4 then false
  else if !b.knights.isEmpty then true
  else b.bishops.intersects lightSquares && b.bishops.intersects darkSquares

end ChessBoard

def PositionHistory.computeGameResult (h : PositionHistory) (tables : AttackTables) : GameResult :=
  if (h.last.board.generateLegalMoves tables).isEmpty then
    if h.last.board.isUnderCheck tables then
      if h.last.board.flipped then .whiteWon else .blackWon
    else .draw
  else if !h.last.board.hasMatingMaterial then .draw
  else if 100 ≤ h.last.rule50Ply then .draw
  else if 2 ≤ h.last.repetitions then .draw
  else .undecided

theorem count_lt_four {b : BitBoard} {k k' : Square} (hne : k ≠ k') (hk : b.get k = true) (hk' : b.get k' = true) :
    b.count < 4 ↔ ∃ x, ∀ s, b.get s = true → s ≠ k → s ≠ k' → s = x := by
  have hmem (s : Square) : s ∈ b.squares.toFinset ↔ b.get s = true := by
    rw [List.mem_toFinset, BitBoard.mem_squares]
  have hcount : b.count = b.squares.toFinset.card := (List.toFinset_card_of_nodup (squares_nodup b)).symm
  have hsome : k' ∈ b.squares.toFinset.erase k := Finset.mem_erase.mpr ⟨hne.symm, (hmem k').mpr hk'⟩
  have hrest : ((b.squares.toFinset.erase k).erase k').card + 2 = b.count := by
    rw [hcount, ← Finset.card_erase_add_one ((hmem k).mpr hk), ← Finset.card_erase_add_one hsome]
  have hfew : b.count < 4 ↔ ((b.squares.toFinset.erase k).erase k').card ≤ 1 := by omega
  rw [hfew, Finset.card_le_one_iff_subset_singleton]
  apply exists_congr
  intro x
  constructor
  · intro hsub s hs hsk hsk'
    exact Finset.mem_singleton.mp (hsub (Finset.mem_erase.mpr ⟨hsk', Finset.mem_erase.mpr ⟨hsk, (hmem s).mpr hs⟩⟩))
  · intro hall s hs
    obtain ⟨hsk', hs⟩ := Finset.mem_erase.mp hs
    obtain ⟨hsk, hs⟩ := Finset.mem_erase.mp hs
    exact Finset.mem_singleton.mpr (hall s ((hmem s).mp hs) hsk hsk')

theorem get_lightSquares : ∀ s, lightSquares.get s = isLight s := by decide
theorem get_darkSquares : ∀ s, darkSquares.get s = !isLight s := by decide

theorem one_shade_iff (bishops : BitBoard) : (bishops.intersects lightSquares && bishops.intersects darkSquares) = false ↔
    ∃ light, ∀ s, bishops.get s = true → isLight s = light := by
  rw [Bool.and_eq_false_iff, ← Bool.not_eq_true, ← Bool.not_eq_true, BitBoard.intersects_iff, BitBoard.intersects_iff]
  simp only [get_lightSquares, get_darkSquares]
  constructor
  · rintro (hnone | hnone)
    · refine ⟨false, fun s hs => ?_⟩
      rw [← Bool.not_eq_true]
      exact fun hlight => hnone ⟨s, hs, hlight⟩
    · refine ⟨true, fun s hs => ?_⟩
      by_contra hdark
      exact hnone ⟨s, hs, by rw [Bool.not_eq_true', ← Bool.not_eq_true]; exact hdark⟩
  · rintro ⟨light, hall⟩
    cases light with
    | false =>
      left
      rintro ⟨s, hs, hlight⟩
      rw [hall s hs] at hlight
      cases hlight
    | true =>
      right
      rintro ⟨s, hs, hdark⟩
      rw [hall s hs] at hdark
      cases hdark

section
variable {b : ChessBoard} {p : GamePosition} {s : Square} {q : Piece}

theorem Faces.king_iff (hf : Faces b p) (hq : q ∈ p.board s) : q.type = .king ↔ s = b.ourKing ∨ s = b.theirKing := by
  have hours : p.board b.ourKing = some ⟨.white, .king⟩ := hf.ourKing
  have htheirs : p.board b.theirKing = some ⟨.black, .king⟩ := hf.theirKing
  constructor
  · intro hking
    rcases hcolor : q.color with _ | _
    · exact .inl (ValidPosition.king_unique hours hq hcolor hking)
    · exact .inr (ValidPosition.king_unique htheirs hq hcolor hking)
  · rintro (rfl | rfl)
    · rw [← Option.some_inj.mp (hours.symm.trans hq)]
    · rw [← Option.some_inj.mp (htheirs.symm.trans hq)]

theorem Faces.count_iff (hf : Faces b p) : (b.ourPieces.union b.theirPieces).count < 4 ↔
    ∃ x, ∀ s, ∀ q ∈ p.board s, q.type ≠ .king → s = x := by
  have hours : p.board b.ourKing = some ⟨.white, .king⟩ := hf.ourKing
  have htheirs : p.board b.theirKing = some ⟨.black, .king⟩ := hf.theirKing
  have hoccupied (s : Square) : (b.ourPieces.union b.theirPieces).get s = true ↔ ∃ q, q ∈ p.board s := by
    rw [← Bool.not_eq_false, hf.occupied s]
    exact Option.ne_none_iff_exists'
  have hne : b.ourKing ≠ b.theirKing := by
    intro heq
    rw [heq, htheirs] at hours
    cases hours
  rw [count_lt_four hne ((hoccupied _).mpr ⟨_, hours⟩) ((hoccupied _).mpr ⟨_, htheirs⟩)]
  apply exists_congr
  intro x
  constructor
  · intro hall s q hq hking
    rw [ne_eq, hf.king_iff hq, not_or] at hking
    exact hall s ((hoccupied s).mpr ⟨q, hq⟩) hking.1 hking.2
  · intro hall s hs hk hk'
    obtain ⟨q, hq⟩ := (hoccupied s).mp hs
    exact hall s q hq fun hking => ((hf.king_iff hq).mp hking).elim hk hk'

/-- A mark stands for a pawn that can take, so the marks do not matter here. -/
theorem Faces.pawns_isEmpty (hf : Faces b p) : b.pawns.isEmpty = true ↔ ∀ s, isPawn (p.board s) = false := by
  rw [BitBoard.isEmpty_iff]
  constructor
  · intro hempty s
    rw [← hf.pawns_get, BitBoard.get_inter, hempty, Bool.false_and]
  · intro hnone s
    by_contra hs
    rw [Bool.not_eq_false] at hs
    have hmask := hf.pawns_get s
    rw [hnone, BitBoard.get_inter, hs, Bool.true_and] at hmask
    obtain ⟨-, v, hpawn, -⟩ := (hf.marks s).mp (by rw [BitBoard.get_diff, hs, hmask]; rfl)
    have hnot := hnone v
    rw [hpawn] at hnot
    cases hnot

theorem Faces.minor_iff (hf : Faces b p) : b.rooks.isEmpty = true ∧ b.pawns.isEmpty = true ↔
    ∀ s, ∀ q ∈ p.board s, q.type = .king ∨ q.type = .bishop ∨ q.type = .knight := by
  have hsquare (x : Option Piece) : straight x = false ∧ isPawn x = false ↔
      ∀ q ∈ x, q.type = .king ∨ q.type = .bishop ∨ q.type = .knight := by
    rcases x with _ | ⟨c, type⟩
    · simp [straight, isPawn]
    · cases type <;> simp [straight, isPawn]
  rw [hf.pawns_isEmpty, BitBoard.isEmpty_iff, ← forall_and]
  apply forall_congr'
  intro s
  rw [hf.rooks_get, hsquare]

theorem Faces.knights_isEmpty (hf : Faces b p) : b.knights.isEmpty = true ↔ ∀ s, ∀ q ∈ p.board s, q.type ≠ .knight := by
  rw [BitBoard.isEmpty_iff]
  apply forall_congr'
  intro s
  rw [ChessBoard.knights, BitBoard.get_diff, BitBoard.get_diff, BitBoard.get_diff, BitBoard.get_diff, BitBoard.get_diff, BitBoard.get_union,
    BitBoard.get_fromSquare, BitBoard.get_fromSquare, hf.ours_get, hf.theirs_get, hf.pawns_get, hf.rooks_get, hf.bishops_get]
  cases hs : p.board s with
  | none => simp [owned]
  | some q =>
    have hking := hf.king_iff hs
    obtain ⟨c, type⟩ := q
    by_cases hk : s = b.ourKing ∨ s = b.theirKing
    · obtain rfl : type = .king := hking.mpr hk
      rcases hk with hk | hk <;> simp [hk]
    · have htype : type ≠ .king := fun h => hk (hking.mp h)
      obtain ⟨hours, htheirs⟩ := not_or.mp hk
      rw [decide_eq_false hours, decide_eq_false htheirs]
      cases c <;> cases type <;> simp [owned, straight, diagonal, isPawn] at htype ⊢

theorem Faces.hasMatingMaterial (hf : Faces b p) : b.hasMatingMaterial = false ↔ p.board.Insufficient := by
  rw [ChessBoard.hasMatingMaterial]
  by_cases hlight : b.rooks.isEmpty = true ∧ b.pawns.isEmpty = true
  · have hminor := hf.minor_iff.mp hlight
    rw [hlight.1, hlight.2, if_neg (by simp)]
    by_cases hcount : (b.ourPieces.union b.theirPieces).count < 4
    · rw [if_pos hcount]
      exact iff_of_true rfl ⟨hminor, .inl (hf.count_iff.mp hcount)⟩
    · have hshade (h : p.board.Insufficient) : ∃ light, ∀ s, ∀ q ∈ p.board s, q.type ≠ .king → q.type = .bishop ∧ isLight s = light :=
        h.few.resolve_left fun hone => hcount (hf.count_iff.mpr hone)
      rw [if_neg hcount]
      by_cases hknights : b.knights.isEmpty = true
      · have hnone := hf.knights_isEmpty.mp hknights
        have hbishop {s : Square} {q : Piece} (hq : q ∈ p.board s) (hking : q.type ≠ .king) : q.type = .bishop :=
          ((hminor s q hq).resolve_left hking).resolve_right (hnone s q hq)
        rw [hknights, if_neg (by simp), one_shade_iff]
        constructor
        · rintro ⟨light, hall⟩
          refine ⟨hminor, .inr ⟨light, fun s q hq hking => ⟨hbishop hq hking, hall s ?_⟩⟩⟩
          rw [hf.bishops_get, show p.board s = some q from hq, diagonal, hbishop hq hking]
          rfl
        · intro h
          obtain ⟨light, hall⟩ := hshade h
          refine ⟨light, fun s hs => ?_⟩
          rw [hf.bishops_get] at hs
          cases hq : p.board s with
          | none =>
            rw [hq] at hs
            cases hs
          | some q =>
            rw [hq, diagonal] at hs
            refine (hall s q hq fun hking => ?_).2
            rw [hking] at hs
            cases hs
      · have hsome : (!b.knights.isEmpty) = true := by rw [Bool.not_eq_true', ← Bool.not_eq_true]; exact hknights
        rw [if_pos hsome]
        refine iff_of_false Bool.true_eq_false.mp fun h => hknights (hf.knights_isEmpty.mpr fun s q hq hknight => ?_)
        obtain ⟨light, hall⟩ := hshade h
        have hbishop := (hall s q hq (by rw [hknight]; simp)).1
        rw [hknight] at hbishop
        cases hbishop
  · have hheavy : (!b.rooks.isEmpty || !b.pawns.isEmpty) = true := by
      rw [← Bool.not_and, Bool.not_eq_true', ← Bool.not_eq_true, Bool.and_eq_true]
      exact hlight
    rw [if_pos hheavy]
    exact iff_of_false Bool.true_eq_false.mp fun h => hlight (hf.minor_iff.mpr h.minor)

theorem hasMatingMaterial_iff (hb : Represents b p.toPosition) : b.hasMatingMaterial = false ↔ p.board.Insufficient := by
  cases hturn : p.turn with
  | white => exact (faces_white hb hturn).hasMatingMaterial
  | black => exact (faces_black hb hturn).hasMatingMaterial.trans insufficient_flip

variable {rookNumbers bishopNumbers : Option (Square → BitVec 64)} {tables : AttackTables}

theorem Faces.isUnderCheck (ht : initializeMagicBitboards rookNumbers bishopNumbers = .ok tables) (hf : Faces b p) :
    b.isUnderCheck tables = true ↔ p.board.InCheck p.turn := by
  have hunder := isUnderCheck_iff ht hf.toWhite fun s hs => (p.one_king .white).unique hs hf.ourKing
  rw [hf.turn]
  exact hunder

theorem underCheck (ht : initializeMagicBitboards rookNumbers bishopNumbers = .ok tables) (hb : Represents b p.toPosition) :
    b.isUnderCheck tables = true ↔ p.board.InCheck p.turn := by
  cases hturn : p.turn with
  | white =>
    rw [← hturn]
    exact (faces_white hb hturn).isUnderCheck ht
  | black =>
    rw [← hturn]
    exact ((faces_black hb hturn).isUnderCheck ht).trans (inCheck_flip p.turn)

theorem legalMoves_isEmpty (ht : initializeMagicBitboards rookNumbers bishopNumbers = .ok tables) (hb : Represents b p.toPosition)
    (hfew : p.FewCheckers) : (b.generateLegalMoves tables).isEmpty = true ↔ ∀ m, ¬ p.Legal m := by
  rw [List.isEmpty_iff, List.eq_nil_iff_forall_not_mem]
  constructor
  · intro hnone m hm
    exact hnone _ ((mem_generateLegalMoves ht hb hfew _).mpr ⟨m, hm, rfl⟩)
  · intro hnone m hm
    obtain ⟨m', hm', -⟩ := (mem_generateLegalMoves ht hb hfew m).mp hm
    exact hnone m' hm'

variable {g : Chess.Line} {k : Nat} {h : PositionHistory}

theorem PositionHistory.Counted.material {last : HistoryPosition} (hlast : PositionHistory.Counted g k last) :
    (!last.board.hasMatingMaterial) = true ↔ (g.position k).board.Insufficient := by
  rw [Bool.not_eq_true']
  exact hasMatingMaterial_iff hlast.board

theorem PositionHistory.Counted.fifty {last : HistoryPosition} (hlast : PositionHistory.Counted g k last) :
    100 ≤ last.rule50Ply ↔ 100 ≤ (g.position k).halfmoveClock := by
  rw [hlast.rule50Ply]
  omega

theorem result_over (ht : initializeMagicBitboards rookNumbers bishopNumbers = .ok tables)
    (hlast : PositionHistory.Counted g k h.last) (hfew : (g.position k).FewCheckers) (hnone : ∀ m, ¬ (g.position k).Legal m) :
    h.computeGameResult tables =
      if (g.position k).board.InCheck (g.position k).turn then if (g.position k).turn = .black then .whiteWon else .blackWon
      else .draw := by
  rw [PositionHistory.computeGameResult, if_pos ((legalMoves_isEmpty ht hlast.board hfew).mpr hnone), hlast.board.flipped]
  by_cases hcheck : (g.position k).board.InCheck (g.position k).turn
  · rw [if_pos ((underCheck ht hlast.board).mpr hcheck), if_pos hcheck]
    simp only [decide_eq_true_eq]
  · rw [if_neg fun hunder => hcheck ((underCheck ht hlast.board).mp hunder), if_neg hcheck]

theorem result_goes_on (ht : initializeMagicBitboards rookNumbers bishopNumbers = .ok tables)
    (hlast : PositionHistory.Counted g k h.last) (hfew : (g.position k).FewCheckers) (hsome : ∃ m, (g.position k).Legal m) :
    (h.computeGameResult tables = .draw ↔
      (g.position k).board.Insufficient ∨ 100 ≤ (g.position k).halfmoveClock ∨ 2 ≤ g.earlier k) ∧
    (h.computeGameResult tables = .draw ∨ h.computeGameResult tables = .undecided) := by
  rw [PositionHistory.computeGameResult,
    if_neg fun hempty => not_exists.mpr ((legalMoves_isEmpty ht hlast.board hfew).mp hempty) hsome, hlast.repetitions]
  by_cases hinsufficient : (g.position k).board.Insufficient
  · rw [if_pos (hlast.material.mpr hinsufficient)]
    exact ⟨iff_of_true rfl (.inl hinsufficient), .inl rfl⟩
  · rw [if_neg fun hmissing => hinsufficient (hlast.material.mp hmissing), or_iff_right hinsufficient]
    by_cases hfifty : 100 ≤ (g.position k).halfmoveClock
    · rw [if_pos (hlast.fifty.mpr hfifty)]
      exact ⟨iff_of_true rfl (.inl hfifty), .inl rfl⟩
    · rw [if_neg fun hplies => hfifty (hlast.fifty.mp hplies), or_iff_right hfifty]
      by_cases hthird : 2 ≤ g.earlier k
      · rw [if_pos hthird]
        exact ⟨iff_of_true rfl hthird, .inl rfl⟩
      · rw [if_neg hthird]
        exact ⟨iff_of_false (by simp) hthird, .inr rfl⟩

theorem result_spec (ht : initializeMagicBitboards rookNumbers bishopNumbers = .ok tables)
    (hlast : PositionHistory.Counted g k h.last) (hfew : (g.position k).FewCheckers) :
    (h.computeGameResult tables = .whiteWon ↔ (g.position k).Checkmate ∧ (g.position k).turn = .black) ∧
    (h.computeGameResult tables = .blackWon ↔ (g.position k).Checkmate ∧ (g.position k).turn = .white) ∧
    (h.computeGameResult tables = .draw ↔ g.Drawn k) := by
  by_cases hsome : ∃ m, (g.position k).Legal m
  · obtain ⟨hdraw, hopen⟩ := result_goes_on ht hlast hfew hsome
    have hmate : ¬ (g.position k).Checkmate := fun hmate => not_exists.mpr hmate.2 hsome
    have hstale : ¬ (g.position k).Stalemate := fun hstale => not_exists.mpr hstale.2 hsome
    refine ⟨iff_of_false ?_ fun hwon => hmate hwon.1, iff_of_false ?_ fun hwon => hmate hwon.1, ?_⟩
    · rcases hopen with heq | heq <;> simp [heq]
    · rcases hopen with heq | heq <;> simp [heq]
    · rw [hdraw, Chess.Line.Drawn, or_iff_right hstale, and_iff_right hsome]
  · have hnone := not_exists.mp hsome
    rw [result_over ht hlast hfew hnone]
    by_cases hcheck : (g.position k).board.InCheck (g.position k).turn
    · have hmate : (g.position k).Checkmate := ⟨hcheck, hnone⟩
      have hdrawn : ¬ g.Drawn k := by
        rintro (hstale | hdraw)
        · exact hstale.1 hcheck
        · exact hsome hdraw.1
      rw [if_pos hcheck]
      cases (g.position k).turn <;> simp [hmate, hdrawn]
    · have hmate : ¬ (g.position k).Checkmate := fun hmate => hcheck hmate.1
      have hdrawn : g.Drawn k := .inl ⟨hcheck, hnone⟩
      rw [if_neg hcheck]
      simp [hmate, hdrawn]

end

/-- **Results.** lc0 calls a game won at the mates, and drawn where the rules draw it. -/
theorem gameResult_exact (rookNumbers bishopNumbers : Option (Square → BitVec 64)) (tables : AttackTables)
    (ht : initializeMagicBitboards rookNumbers bishopNumbers = .ok tables) (g : Chess.Line) (board : ChessBoard) (gamePly : Int)
    (hboard : Represents board (g.position 0).toPosition) (hfew : (g.position 0).FewCheckers) (k : Nat) (hk : k ≤ g.length) :
    let result := (PositionHistory.ofLine g board gamePly k).computeGameResult tables
    (result = .whiteWon ↔ (g.position k).Checkmate ∧ (g.position k).turn = .black) ∧
      (result = .blackWon ↔ (g.position k).Checkmate ∧ (g.position k).turn = .white) ∧ (result = .draw ↔ g.Drawn k) :=
  result_spec ht (PositionHistory.tracks_ofLine hboard gamePly k hk).last (g.few hfew hk)

theorem mate_checkmate : (mateLine.position 1).Checkmate := by
  refine ⟨mate_inCheck, fun m hm => ?_⟩
  cases m with
  | castle side =>
    cases side with
    | king => exact absurd hm (by decide +kernel)
    | queen => exact absurd hm (by decide +kernel)
  | plain s t promotion =>
    have hsource : ∀ s, ∀ q ∈ (mateLine.position 1).board s, q.color = (mateLine.position 1).turn → s = square 7 7 := by
      decide +kernel
    have hstuck : ∀ t, ∀ promotion ∈ promotions, ¬ (mateLine.position 1).Legal (.plain (square 7 7) t promotion) := by
      decide +kernel
    obtain ⟨q, hq, hcolor, -⟩ := Position.source_of_legal hm
    obtain rfl := hsource s q hq hcolor
    refine hstuck t promotion ?_ hm
    cases promotion with
    | none => decide
    | some k => cases k <;> decide

theorem mate_won : ∃ tables, initializeMagicBitboards none none = .ok tables ∧
    (mateLine.position 1).Checkmate ∧ (mateLine.position 1).turn = .black ∧
    let result := (PositionHistory.ofLine mateLine cornerChessBoard 0 1).computeGameResult tables
    (result = .whiteWon ↔ (mateLine.position 1).Checkmate ∧ (mateLine.position 1).turn = .black) ∧
      (result = .blackWon ↔ (mateLine.position 1).Checkmate ∧ (mateLine.position 1).turn = .white) ∧
      (result = .draw ↔ mateLine.Drawn 1) := by
  obtain ⟨tables, ht⟩ := initialize_pext
  exact ⟨tables, ht, mate_checkmate, rfl,
    gameResult_exact none none tables ht mateLine cornerChessBoard 0 represents_corner few_corner 1 le_rfl⟩

def bareBoard : Chess.Board := fun s =>
  if s = square 0 0 then some ⟨.white, .king⟩ else if s = square 7 7 then some ⟨.black, .king⟩ else none

def bareKings : GamePosition :=
  { cornered with
    board := bareBoard
    one_king := fun c =>
      ⟨if c = .white then square 0 0 else square 7 7, by cases c <;> decide, by cases c <;> decide +kernel⟩
    castling_home := fun _ _ h => by cases h
    not_in_check := by decide +kernel
    passed_pawn := fun _ h => by cases h
    pawns_inside := fun s c h => by
      rw [bareBoard] at h
      split at h
      · cases h
      · split at h <;> cases h }

private theorem king_walks : bareKings.Legal (.plain (square 0 0) (square 1 0) none) := by decide +kernel

def bareLine : Chess.Line where
  length := 1
  position
    | 0 => bareKings
    | _ => bareKings.push (.plain (square 0 0) (square 1 0) none) king_walks
  move _ := .plain (square 0 0) (square 1 0) none
  legal
    | 0, _ => king_walks
  push
    | 0, _ => rfl

def bareChessBoard : ChessBoard where
  ourPieces := ⟨0x0000000000000001#64⟩
  theirPieces := ⟨0x8000000000000000#64⟩
  ourKing := square 0 0
  theirKing := square 7 7

theorem represents_bare : Represents bareChessBoard bareKings.toPosition where
  placement := by constructor <;> decide +kernel
  flipped := by decide
  castlings := by decide
  marks := by decide +kernel

theorem few_bare : (bareLine.position 0).FewCheckers := Chess.Position.few_of_safe (by decide +kernel)

/-- **Dead positions stay drawn.** Where lc0 misses the material for a mate, no move that can be made
later brings a mate about, and lc0 calls every later position drawn. -/
theorem dead_stays_drawn (rookNumbers bishopNumbers : Option (Square → BitVec 64)) (tables : AttackTables)
    (ht : initializeMagicBitboards rookNumbers bishopNumbers = .ok tables) (g : Chess.Line) (board : ChessBoard) (gamePly : Int)
    (hboard : Represents board (g.position 0).toPosition) (hfew : (g.position 0).FewCheckers) (k j : Nat) (hkj : k ≤ j)
    (hj : j ≤ g.length) (hdead : (PositionHistory.ofLine g board gamePly k).last.board.hasMatingMaterial = false) :
    ¬ (g.position j).Checkmate ∧ (PositionHistory.ofLine g board gamePly j).computeGameResult tables = .draw := by
  have hbefore := (PositionHistory.tracks_ofLine hboard gamePly k (hkj.trans hj)).last
  have hinsufficient := g.insufficient_later ((hasMatingMaterial_iff hbefore.board).mp hdead) hkj hj
  have hmate : ¬ (g.position j).Checkmate := by
    rintro ⟨hcheck, hnone⟩
    obtain ⟨m, hm⟩ := ValidPosition.insufficient_escape hinsufficient hcheck
    exact hnone m hm
  refine ⟨hmate, (result_spec ht (PositionHistory.tracks_ofLine hboard gamePly j hj).last (g.few hfew hj)).2.2.mpr ?_⟩
  by_cases hsome : ∃ m, (g.position j).Legal m
  · exact .inr ⟨hsome, .inl hinsufficient⟩
  · have hnone := not_exists.mp hsome
    exact .inl ⟨fun hcheck => hmate ⟨hcheck, hnone⟩, hnone⟩

theorem kings_stay_drawn : ∃ tables, initializeMagicBitboards none none = .ok tables ∧ bareChessBoard.hasMatingMaterial = false ∧
    ¬ (bareLine.position 1).Checkmate ∧ (PositionHistory.ofLine bareLine bareChessBoard 0 1).computeGameResult tables = .draw := by
  obtain ⟨tables, ht⟩ := initialize_pext
  have hdead : bareChessBoard.hasMatingMaterial = false := by decide
  exact ⟨tables, ht, hdead, dead_stays_drawn none none tables ht bareLine bareChessBoard 0 represents_bare few_bare 0 1 (by decide) (by decide) hdead⟩

end ChessAnalytics.Lc0.Board
