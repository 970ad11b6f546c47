import ChessAnalytics.Lc0.ParseMove
import ChessAnalytics.Lc0.UnderAttack

/-! How lc0 makes the list of the moves of a position, before it asks which of them are legal. -/
namespace ChessAnalytics.Lc0.Board
open Strings Chess

def kingMoves : List Direction := [(-1, -1), (-1, 0), (-1, 1), (0, -1), (0, 1), (1, -1), (1, 0), (1, 1)]

/-- `kPromotions`. -/
def promotionOrder : List Promotion := [.queen, .rook, .bishop, .knight]

def fileAt (n : Nat) : Fin 8 := ⟨n % 8, Nat.mod_lt _ (by decide)⟩

namespace ChessBoard

def occupied (b : ChessBoard) (s : Square) : Bool := b.ourPieces.get s || b.theirPieces.get s

/-- The steps of the king to squares that are not attacked. -/
def kingSteps (b : ChessBoard) (tables : AttackTables) (source : Square) : List Move :=
  kingMoves.filterMap fun delta =>
    match stepped delta source 1 with
    | none => none
    | some destination =>
      if b.ourPieces.get destination then none
      else if b.isUnderAttack tables destination then none
      else some (.white source destination)

/-- `walk_free`: nothing but king and rook on these files of the first rank. -/
def walkFree (b : ChessBoard) (first last rook king : Nat) : Bool :=
  (List.range' first (last + 1 - first)).all fun i => i = rook ∨ i = king ∨ !b.occupied (square i 0)

/-- The files that `range_attacked` looks at. The last is not included unless it is the first. -/
def filesTowards (first last : Nat) : List Nat :=
  if first = last then [first]
  else if first < last then List.range' first (last - first)
  else (List.range' (last + 1) (first - last)).reverse

def rangeAttacked (b : ChessBoard) (tables : AttackTables) (first last : Nat) : Bool :=
  (filesTowards first last).any fun i => b.isUnderAttack tables (square i 0)

/-- Castlings. Whether the king is in check on its new square is looked at later. -/
def castlingMoves (b : ChessBoard) (tables : AttackTables) (source : Square) : List Move :=
  let king := fileIdx source
  let qrook := b.castlings.ourQueensideRook
  let krook := b.castlings.ourKingsideRook
  (if b.castlings.weCan000 ∧ b.walkFree (min 2 qrook) (max 3 king) qrook king ∧ !b.rangeAttacked tables king 2
    then [.whiteCastling (fileOf source) (fileAt qrook)] else []) ++
  (if b.castlings.weCan00 ∧ b.walkFree (min 5 king) (max 6 krook) krook king ∧ !b.rangeAttacked tables king 6
    then [.whiteCastling (fileOf source) (fileAt krook)] else [])

def rookMoves (b : ChessBoard) (tables : AttackTables) (source : Square) : List Move :=
  ((tables.getRookAttacks source (b.ourPieces.union b.theirPieces)).diff b.ourPieces).squares.map (.white source)

def bishopMoves (b : ChessBoard) (tables : AttackTables) (source : Square) : List Move :=
  ((tables.getBishopAttacks source (b.ourPieces.union b.theirPieces)).diff b.ourPieces).squares.map (.white source)

def pawnSteps (b : ChessBoard) (source : Square) : List Move :=
  let dstRank := rankIdx source + 1
  let destination := square (fileIdx source) dstRank
  if b.occupied destination then []
  else if dstRank ≠ 7 then
    .white source destination ::
      (if dstRank = 2 then
        let jumpDst := square (fileIdx source) 3
        if b.occupied jumpDst then [] else [.white source jumpDst]
      else [])
  else promotionOrder.map (.whitePromotion source destination)

/-- Pawn captures to one side. A mark on the eighth rank means that en passant is possible. -/
def pawnCaptures (b : ChessBoard) (source : Square) (direction : Int) : List Move :=
  match stepped (1, direction) source 1 with
  | none => []
  | some destination =>
    if b.theirPieces.get destination then
      if rankIdx destination = 7 then promotionOrder.map (.whitePromotion source destination)
      else [.white source destination]
    else if rankIdx destination = 5 ∧ b.pawns.get (square (fileIdx destination) 7) then [.whiteEnPassant source destination]
    else []

def knightMoves (b : ChessBoard) (source : Square) : List Move :=
  ((knightAttacksOn source).diff b.ourPieces).squares.map (.white source)

def movesFrom (b : ChessBoard) (tables : AttackTables) (source : Square) : List Move :=
  if source = b.ourKing then b.kingSteps tables source ++ b.castlingMoves tables source
  else if b.rooks.get source || b.bishops.get source then
    (if b.rooks.get source then b.rookMoves tables source else []) ++
      (if b.bishops.get source then b.bishopMoves tables source else [])
  else if (b.pawns.inter pawnMask).get source then
    b.pawnSteps source ++ [-1, 1].flatMap (b.pawnCaptures source)
  else b.knightMoves source

def generatePseudolegalMoves (b : ChessBoard) (tables : AttackTables) : List Move :=
  b.ourPieces.squares.flatMap (b.movesFrom tables)

end ChessBoard

section
variable {b : ChessBoard} {p : GamePosition} {s t : Square} {promotion : Option Promotion}
variable {rookNumbers bishopNumbers : Option (Square → BitVec 64)} {tables : AttackTables}

/-- The board stands for a position with White to move: the pieces, the rights, and a mark on rank 8
wherever a pawn can be taken en passant. -/
structure Faces (b : ChessBoard) (p : GamePosition) : Prop extends White b p.board where
  turn : p.turn = .white
  castlings : b.castlings = castlingsOf p.castling .white
  marks : ∀ u, (b.pawns.diff ChessBoard.pawnMask).get u = true ↔
    rankIdx u = 7 ∧ ∃ v, p.TakesEnPassant v (square (fileIdx u) 5)

theorem White.occupied_iff {board : Chess.Board} (hb : White b board) (s : Square) : b.occupied s = false ↔ board s = none := by
  rw [ChessBoard.occupied, ← BitBoard.get_union]
  exact hb.occupied s

theorem target_iff (hb : White b p.board) (hw : p.turn = .white) (t : Square) :
    (∀ r ∈ p.board t, r.color = p.turn.other) ↔ b.ourPieces.get t = false := by
  rw [hb.ours_get, hw]
  rcases p.board t with _ | ⟨c, type⟩
  · simp [owned]
  · cases c <;> simp [owned, Color.other]

theorem source_iff (hb : White b p.board) (s : Square) : b.ourPieces.get s = true ↔ ∃ type, p.board s = some ⟨.white, type⟩ := by
  rw [hb.ours_get]
  rcases p.board s with _ | ⟨c, type⟩
  · simp [owned]
  · cases c <;> simp [owned]

/-- What a piece that is no pawn can do, its own king's safety apart. -/
theorem plays_piece (hb : White b p.board) (hw : p.turn = .white) {type : Chess.PieceType} (hq : p.board s = some ⟨.white, type⟩)
    (hpawn : type ≠ .pawn) : p.Plays s t promotion ↔
      promotion = none ∧ b.ourPieces.get t = false ∧ p.board.Attacks ⟨.white, type⟩ s t := by
  rw [← target_iff hb hw]
  constructor
  · rintro ⟨q, hq', hcolor, htarget, hmove⟩
    obtain rfl := Option.some_inj.mp (hq.symm.trans hq')
    rw [if_neg hpawn] at hmove
    exact ⟨hmove.2, htarget, hmove.1⟩
  · rintro ⟨hnone, htarget, hattack⟩
    refine ⟨_, hq, hw.symm, htarget, ?_⟩
    rw [if_neg hpawn]
    exact ⟨hattack, hnone⟩

theorem encode_piece (hw : p.turn = .white) {type : Chess.PieceType} (hq : p.board s = some ⟨.white, type⟩) (hpawn : type ≠ .pawn)
    (t : Square) : encode p.toPosition (.plain s t none) = .white s t := by
  have hnot : ¬ p.TakesEnPassant s t := by
    rintro ⟨hp, -⟩
    rw [hq] at hp
    exact hpawn (Piece.mk.inj (Option.some_inj.mp hp)).2
  rw [encode, if_neg hnot, hw]
  rfl

theorem clear_iff (hb : White b p.board) : (∀ u ∈ between s t, (b.ourPieces.union b.theirPieces).get u = false) ↔ p.board.Clear s t :=
  hb.clear

/-- The attacks of a piece that are looked up, without our own pieces. -/
theorem mem_squares_map {bits : BitBoard} {m : Move} {P : Square → Prop} (h : ∀ t, bits.get t = true ↔ P t) (s : Square) :
    m ∈ (bits.diff b.ourPieces).squares.map (.white s) ↔ ∃ t, P t ∧ b.ourPieces.get t = false ∧ m = .white s t := by
  rw [List.mem_map]
  apply exists_congr
  intro t
  rw [BitBoard.mem_squares, BitBoard.get_diff, Bool.and_eq_true, h, Bool.not_eq_true', and_assoc, eq_comm (a := m)]

theorem mem_rookMoves (ht : initializeMagicBitboards rookNumbers bishopNumbers = .ok tables) (hb : White b p.board) {m : Move} :
    m ∈ b.rookMoves tables s ↔ ∃ t, (Straight s t ∧ p.board.Clear s t) ∧ b.ourPieces.get t = false ∧ m = .white s t :=
  mem_squares_map (fun t => by rw [get_rookAttacks ht, clear_iff hb]) s

theorem mem_bishopMoves (ht : initializeMagicBitboards rookNumbers bishopNumbers = .ok tables) (hb : White b p.board) {m : Move} :
    m ∈ b.bishopMoves tables s ↔ ∃ t, (Diagonal s t ∧ p.board.Clear s t) ∧ b.ourPieces.get t = false ∧ m = .white s t :=
  mem_squares_map (fun t => by rw [get_bishopAttacks ht, clear_iff hb]) s

theorem mem_knightMoves {m : Move} : m ∈ b.knightMoves s ↔ ∃ t, Leap s t ∧ b.ourPieces.get t = false ∧ m = .white s t :=
  mem_squares_map (fun t => by rw [get_knightAttacksOn, decide_eq_true_iff]) s

theorem adjacent_iff : Adjacent s t ↔ ∃ d ∈ kingMoves, stepped d s 1 = some t := by
  have hone : ∀ d ∈ kingMoves, max d.2.natAbs d.1.natAbs = 1 := by decide
  simp only [stepped_iff, Nat.cast_one, one_mul]
  constructor
  · intro h
    refine ⟨(rankStep s t, fileStep s t), ?_, rfl, rfl⟩
    rw [Adjacent] at h
    have hrank : rankStep s t = -1 ∨ rankStep s t = 0 ∨ rankStep s t = 1 := by omega
    have hfile : fileStep s t = -1 ∨ fileStep s t = 0 ∨ fileStep s t = 1 := by omega
    rcases hrank with hr | hr | hr <;> rcases hfile with hf | hf | hf <;> rw [hr, hf] at h ⊢ <;> revert h <;> decide
  · rintro ⟨d, hd, hrank, hfile⟩
    rw [Adjacent, hrank, hfile]
    exact hone d hd

theorem mem_kingSteps {m : Move} : m ∈ b.kingSteps tables s ↔
    ∃ t, Adjacent s t ∧ b.ourPieces.get t = false ∧ b.isUnderAttack tables t = false ∧ m = .white s t := by
  rw [ChessBoard.kingSteps, List.mem_filterMap]
  constructor
  · rintro ⟨d, hd, h⟩
    split at h
    · cases h
    · rename_i t hstep
      split at h
      · cases h
      · rename_i hours
        split at h
        · cases h
        · rename_i hattacked
          exact ⟨t, adjacent_iff.mpr ⟨d, hd, hstep⟩, Bool.not_eq_true _ ▸ hours, Bool.not_eq_true _ ▸ hattacked, (Option.some_inj.mp h).symm⟩
  · rintro ⟨t, hadjacent, hours, hattacked, rfl⟩
    obtain ⟨d, hd, hstep⟩ := adjacent_iff.mp hadjacent
    refine ⟨d, hd, ?_⟩
    rw [hstep]
    simp [hours, hattacked]

/-- A pawn that reaches the last rank has to become something. -/
def PromotesOn (t : Square) (promotion : Option Promotion) : Prop := promotion ≠ none ↔ rankIdx t = 7

theorem mem_promotionOrder (k : Promotion) : k ∈ promotionOrder := by cases k <;> decide

/-- The moves of a pawn to a square, as it promotes there or does not. -/
theorem mem_arrivals {m : Move} : (m ∈ if rankIdx t = 7 then promotionOrder.map (.whitePromotion s t) else [.white s t]) ↔
    ∃ promotion, PromotesOn t promotion ∧ m = match promotion with | some k => .whitePromotion s t k | none => .white s t := by
  by_cases hlast : rankIdx t = 7
  · rw [if_pos hlast, List.mem_map]
    constructor
    · rintro ⟨k, -, rfl⟩
      exact ⟨some k, by simp [PromotesOn, hlast], rfl⟩
    · rintro ⟨promotion, hpromotes, rfl⟩
      obtain ⟨k, rfl⟩ := Option.ne_none_iff_exists'.mp (hpromotes.mpr hlast)
      exact ⟨k, mem_promotionOrder k, rfl⟩
  · rw [if_neg hlast, List.mem_singleton]
    constructor
    · rintro rfl
      exact ⟨none, by simp [PromotesOn, hlast], rfl⟩
    · rintro ⟨promotion, hpromotes, rfl⟩
      have hnone : promotion = none := by
        by_contra hsome
        exact hlast (hpromotes.mp hsome)
      rw [hnone]

theorem ahead_iff {k : Nat} (hk : rankIdx s + k < 8) :
    t = square (fileIdx s) (rankIdx s + k) ↔ fileStep s t = 0 ∧ rankStep s t = k := by
  have hs := fileIdx_lt s
  rw [fileStep, rankStep]
  constructor
  · rintro rfl
    rw [fileIdx_square _ hs, rankIdx_square hs hk]
    omega
  · rintro ⟨hfile, hrank⟩
    apply square_ext
    · rw [fileIdx_square _ hs]
      omega
    · rw [rankIdx_square hs hk]
      omega

private theorem between_jump : ∀ s t : Square, fileStep s t = 0 → rankIdx s = 1 → rankStep s t = 2 →
    between s t = [square (fileIdx s) 2] := by
  decide +kernel

theorem pawnPush_iff (hw : p.turn = .white) (hs : 1 ≤ rankIdx s ∧ rankIdx s ≤ 6) : p.PawnPush s t ↔
    p.board (square (fileIdx s) (rankIdx s + 1)) = none ∧ (t = square (fileIdx s) (rankIdx s + 1) ∨
      rankIdx s = 1 ∧ t = square (fileIdx s) 3 ∧ p.board t = none) := by
  have hone := ahead_iff (s := s) (t := t) (k := 1) (by omega)
  rw [Position.PawnPush, hw]
  simp only [Color.pawnRank, Color.forward, mul_one]
  constructor
  · rintro ⟨hfile, hempty, hrank | ⟨hhome, hrank, hclear⟩⟩
    · have hst := hone.mpr ⟨hfile, hrank⟩
      rw [← hst]
      exact ⟨hempty, .inl rfl⟩
    · have htwo := (ahead_iff (s := s) (t := t) (k := 2) (by omega)).mpr ⟨hfile, hrank⟩
      rw [hhome] at htwo ⊢
      refine ⟨hclear _ ?_, .inr ⟨rfl, htwo, hempty⟩⟩
      rw [between_jump s t hfile hhome hrank]
      exact List.mem_singleton_self _
  · rintro ⟨hfree, rfl | ⟨hhome, ht, hempty⟩⟩
    · obtain ⟨hfile, hrank⟩ := hone.mp rfl
      exact ⟨hfile, hfree, .inl hrank⟩
    · have htwo := (ahead_iff (s := s) (t := t) (k := 2) (by omega)).mp (by rw [hhome]; exact ht)
      refine ⟨htwo.1, hempty, .inr ⟨hhome, htwo.2, fun u hu => ?_⟩⟩
      rw [between_jump s t htwo.1 hhome htwo.2, List.mem_singleton] at hu
      rw [hhome] at hfree
      rw [hu]
      exact hfree

theorem mem_pawnSteps (hb : White b p.board) (hw : p.turn = .white) (hs : 1 ≤ rankIdx s ∧ rankIdx s ≤ 6) {m : Move} :
    m ∈ b.pawnSteps s ↔ ∃ t promotion, p.PawnPush s t ∧ PromotesOn t promotion ∧
      m = match promotion with | some k => .whitePromotion s t k | none => .white s t := by
  have hfile := fileIdx_lt s
  have hrank : rankIdx (square (fileIdx s) (rankIdx s + 1)) = rankIdx s + 1 := rankIdx_square hfile (by omega)
  have hjump : rankIdx (square (fileIdx s) 3) = 3 := rankIdx_square hfile (by omega)
  have harrive : (∃ t promotion, p.PawnPush s t ∧ PromotesOn t promotion ∧
      m = match promotion with | some k => .whitePromotion s t k | none => .white s t) ↔
      ∃ t, p.PawnPush s t ∧ m ∈ if rankIdx t = 7 then promotionOrder.map (.whitePromotion s t) else [.white s t] := by
    apply exists_congr
    intro t
    rw [mem_arrivals, exists_and_left]
  rw [harrive]
  simp only [pawnPush_iff hw hs]
  rw [ChessBoard.pawnSteps]
  by_cases hfree : p.board (square (fileIdx s) (rankIdx s + 1)) = none
  · rw [if_neg (by rw [(hb.occupied_iff _).mpr hfree]; simp)]
    simp only [hfree, true_and]
    by_cases hlast : rankIdx s + 1 = 7
    · rw [if_neg (by omega)]
      constructor
      · exact fun hm => ⟨_, .inl rfl, by rw [if_pos (hrank.trans hlast)]; exact hm⟩
      · rintro ⟨t, rfl | ⟨hhome, -⟩, hm⟩
        · rw [if_pos (hrank.trans hlast)] at hm
          exact hm
        · omega
    · rw [if_pos hlast, List.mem_cons]
      constructor
      · rintro (rfl | hm)
        · exact ⟨_, .inl rfl, by rw [if_neg (by omega)]; exact List.mem_singleton_self _⟩
        · split at hm
          · rename_i hhome
            split at hm
            · cases hm
            · rename_i hocc
              rw [Bool.not_eq_true, hb.occupied_iff] at hocc
              exact ⟨_, .inr ⟨by omega, rfl, hocc⟩, by rw [if_neg (by omega)]; exact hm⟩
          · cases hm
      · rintro ⟨t, rfl | ⟨hhome, rfl, hempty⟩, hm⟩
        · rw [if_neg (by omega), List.mem_singleton] at hm
          exact .inl hm
        · rw [if_neg (by omega)] at hm
          rw [if_pos (by omega), if_neg (by rw [(hb.occupied_iff _).mpr hempty]; simp)]
          exact .inr hm
  · have hocc : b.occupied (square (fileIdx s) (rankIdx s + 1)) = true := by
      rw [← Bool.not_eq_false, hb.occupied_iff]
      exact hfree
    rw [if_pos hocc]
    simp [hfree]

theorem pawnAttack_iff (hw : p.turn = .white) : p.board.Attacks ⟨p.turn, .pawn⟩ s t ↔ ∃ d ∈ [(-1 : Int), 1], stepped (1, d) s 1 = some t := by
  rw [Chess.Board.Attacks, hw]
  simp only [stepped_iff, Color.forward, Nat.cast_one, one_mul, List.mem_cons, List.not_mem_nil, or_false, exists_eq_or_imp, exists_eq_left]
  omega

/-- A mark on the eighth rank is one for every pawn that attacks the square that has been passed. -/
theorem takesEnPassant_iff (hf : Faces b p) (hs : p.board s = some ⟨.white, .pawn⟩)
    (hattack : p.board.Attacks ⟨p.turn, .pawn⟩ s t) :
    p.TakesEnPassant s t ↔ rankIdx t = 5 ∧ b.pawns.get (square (fileIdx t) 7) = true := by
  have hfile := fileIdx_lt t
  have hmark := hf.marks (square (fileIdx t) 7)
  have hmask : ∀ u : Square, rankIdx u = 7 → ChessBoard.pawnMask.get u = false := by decide
  have hrank : rankIdx (square (fileIdx t) 7) = 7 := rankIdx_square hfile (by omega)
  rw [BitBoard.get_diff, hmask _ hrank, Bool.not_false, Bool.and_true, fileIdx_square _ hfile] at hmark
  rw [hmark]
  constructor
  · intro h
    have hpassed := p.passed_rank t h.2.2.1
    rw [hf.turn] at hpassed
    have ht : t = square (fileIdx t) 5 := by
      apply square_ext
      · rw [fileIdx_square _ hfile]
      · rw [rankIdx_square hfile (by omega)]
        exact hpassed
    refine ⟨hpassed, hrank, s, ?_⟩
    rw [← ht]
    exact h
  · rintro ⟨hpassed, -, v, hv⟩
    have ht : t = square (fileIdx t) 5 := by
      apply square_ext
      · rw [fileIdx_square _ hfile]
      · rw [rankIdx_square hfile (by omega), hpassed]
    rw [← ht] at hv
    exact ⟨by rw [hf.turn]; exact hs, hattack, hv.2.2⟩

theorem encode_other (hw : p.turn = .white) (h : ¬ p.TakesEnPassant s t) (promotion : Option Promotion) :
    encode p.toPosition (.plain s t promotion) = match promotion with | some k => .whitePromotion s t k | none => .white s t := by
  cases promotion with
  | some k =>
    rw [encode, hw]
    rfl
  | none =>
    rw [encode, if_neg h, hw]
    rfl

theorem encode_passing (hw : p.turn = .white) (h : p.TakesEnPassant s t) :
    encode p.toPosition (.plain s t none) = .whiteEnPassant s t := by
  rw [encode, if_pos h, hw]
  rfl

theorem mem_pawnCaptures (hf : Faces b p) (hs : p.board s = some ⟨.white, .pawn⟩) {m : Move} :
    m ∈ [-1, 1].flatMap (b.pawnCaptures s) ↔ ∃ t promotion, (p.PawnTakes s t ∨ p.TakesEnPassant s t) ∧
      PromotesOn t promotion ∧ m = encode p.toPosition (.plain s t promotion) := by
  have hw := hf.turn
  have htaken (t : Square) : b.theirPieces.get t = true ↔ ∃ q ∈ p.board t, q.color = p.turn.other := by
    rw [hf.theirs_get, hw]
    rcases p.board t with _ | ⟨c, type⟩
    · simp [owned]
    · simp [owned, Color.other]
  have hone (d : Int) : m ∈ b.pawnCaptures s d ↔ ∃ t, stepped (1, d) s 1 = some t ∧ m ∈
      if b.theirPieces.get t then if rankIdx t = 7 then promotionOrder.map (.whitePromotion s t) else [.white s t]
      else if rankIdx t = 5 ∧ b.pawns.get (square (fileIdx t) 7) then [.whiteEnPassant s t] else [] := by
    rw [ChessBoard.pawnCaptures]
    cases stepped (1, d) s 1 with
    | none => simp
    | some t => simp
  have hto (t : Square) (hattack : p.board.Attacks ⟨p.turn, .pawn⟩ s t) : (m ∈
      if b.theirPieces.get t then if rankIdx t = 7 then promotionOrder.map (.whitePromotion s t) else [.white s t]
      else if rankIdx t = 5 ∧ b.pawns.get (square (fileIdx t) 7) then [.whiteEnPassant s t] else []) ↔
      ∃ promotion, (p.PawnTakes s t ∨ p.TakesEnPassant s t) ∧ PromotesOn t promotion ∧
        m = encode p.toPosition (.plain s t promotion) := by
    by_cases htheirs : b.theirPieces.get t = true
    · have hnot : ¬ p.TakesEnPassant s t := by
        rintro ⟨-, -, -, hempty⟩
        obtain ⟨q, hq, -⟩ := (htaken t).mp htheirs
        rw [hempty] at hq
        cases hq
      rw [if_pos htheirs, mem_arrivals]
      apply exists_congr
      intro promotion
      rw [encode_other hw hnot]
      exact ⟨fun h => ⟨.inl ⟨hattack, (htaken t).mp htheirs⟩, h⟩, fun h => h.2⟩
    · have hno : ¬ p.PawnTakes s t := fun h => htheirs ((htaken t).mpr h.2)
      rw [if_neg htheirs]
      by_cases hpassing : p.TakesEnPassant s t
      · have hmark := (takesEnPassant_iff hf hs hattack).mp hpassing
        rw [if_pos hmark, List.mem_singleton]
        constructor
        · rintro rfl
          exact ⟨none, .inr hpassing, by simp [PromotesOn, hmark.1], (encode_passing hw hpassing).symm⟩
        · rintro ⟨promotion, -, hpromotes, rfl⟩
          have hnone : promotion = none := by
            by_contra hsome
            have hlast := hpromotes.mp hsome
            omega
          rw [hnone]
          exact encode_passing hw hpassing
      · rw [if_neg (fun hmark => hpassing ((takesEnPassant_iff hf hs hattack).mpr hmark))]
        constructor
        · intro h
          cases h
        · rintro ⟨promotion, h | h, -⟩
          · exact absurd h hno
          · exact absurd h hpassing
  rw [List.mem_flatMap]
  simp only [hone]
  constructor
  · rintro ⟨d, hd, t, hstep, hm⟩
    exact ⟨t, (hto t ((pawnAttack_iff hw).mpr ⟨d, hd, hstep⟩)).mp hm⟩
  · rintro ⟨t, promotion, hmove, hrest⟩
    have hattack : p.board.Attacks ⟨p.turn, .pawn⟩ s t := by
      rcases hmove with h | h
      · exact h.1
      · exact h.2.1
    obtain ⟨d, hd, hstep⟩ := (pawnAttack_iff hw).mp hattack
    exact ⟨d, hd, t, hstep, (hto t hattack).mpr ⟨promotion, hmove, hrest⟩⟩

theorem walkFree_iff (hb : White b p.board) {first last rook king : Nat} : b.walkFree first last rook king = true ↔
    ∀ i ∈ List.range' first (last + 1 - first), i ≠ rook → i ≠ king → p.board (square i 0) = none := by
  rw [ChessBoard.walkFree, List.all_eq_true]
  apply forall₂_congr
  intro i _
  rw [decide_eq_true_iff, Bool.not_eq_true', hb.occupied_iff]
  tauto

theorem rangeAttacked_iff (ht : initializeMagicBitboards rookNumbers bishopNumbers = .ok tables) (hb : White b p.board)
    {first last : Nat} : b.rangeAttacked tables first last = false ↔
    ∀ i ∈ ChessBoard.filesTowards first last, ¬ (square i 0 = b.theirKing ∨ p.board.Attacked .black (square i 0)) := by
  rw [ChessBoard.rangeAttacked, List.any_eq_false]
  simp only [isUnderAttack_iff ht hb]

/-- Between king and rook, on the files that `walk_free` looks at. -/
theorem clear_kingside (hb : White b p.board) : b.walkFree (min 5 4) (max 6 7) 7 4 = true ↔
    p.board.Clear (kingHome .white) (rookHome .white .king) := by
  have hbetween : between (kingHome .white) (rookHome .white .king) = [square 5 0, square 6 0] := by decide
  have hfiles : List.range' (min 5 4) (max 6 7 + 1 - min 5 4) = [4, 5, 6, 7] := by decide
  simp only [walkFree_iff hb, Board.Clear, hbetween, hfiles]
  simp

theorem clear_queenside (hb : White b p.board) : b.walkFree (min 2 0) (max 3 4) 0 4 = true ↔
    p.board.Clear (kingHome .white) (rookHome .white .queen) := by
  have hbetween : between (kingHome .white) (rookHome .white .queen) = [square 3 0, square 2 0, square 1 0] := by decide
  have hfiles : List.range' (min 2 0) (max 3 4 + 1 - min 2 0) = [0, 1, 2, 3, 4] := by decide
  simp only [walkFree_iff hb, Board.Clear, hbetween, hfiles]
  simp
  tauto

/-- Neither king nor empty square is taken for the other king's. -/
theorem castling_safe (ht : initializeMagicBitboards rookNumbers bishopNumbers = .ok tables) (hb : White b p.board)
    (hw : p.turn = .white) {side : Side} (h : p.Castles side) {first last : Nat}
    (hfiles : (ChessBoard.filesTowards first last).map (square · 0) = [kingHome .white, rookCastled .white side]) :
    b.rangeAttacked tables first last = false ↔ ∀ u ∈ [kingHome .white, rookCastled .white side], ¬ p.board.Attacked .black u := by
  have hhome := Position.castle_squares h
  have htheirs : p.board b.theirKing = some ⟨.black, .king⟩ := hb.theirKing
  rw [hw] at hhome
  have hnot : ∀ u ∈ [kingHome .white, rookCastled .white side], u ≠ b.theirKing := by
    rintro u hu rfl
    rw [List.mem_cons, List.mem_singleton] at hu
    rcases hu with hu | hu
    · rw [hu, hhome.1] at htheirs
      cases htheirs
    · rw [hu, hhome.2.2.2] at htheirs
      cases htheirs
  rw [rangeAttacked_iff ht hb, ← hfiles, List.forall_mem_map]
  apply forall₂_congr
  intro i hi
  rw [or_iff_right]
  apply hnot
  rw [← hfiles]
  exact List.mem_map_of_mem hi

/-- The castling moves: the way is clear and the king is safe on its way. -/
theorem mem_castlingMoves (ht : initializeMagicBitboards rookNumbers bishopNumbers = .ok tables) (hf : Faces b p) {m : Move} : m ∈ b.castlingMoves tables b.ourKing ↔
      ∃ side, p.Castles side ∧ (∀ u ∈ [kingHome .white, rookCastled .white side], ¬ p.board.Attacked .black u) ∧
        m = encode p.toPosition (.castle side) := by
  have hb := hf.toWhite
  have hw := hf.turn
  have hcan {side : Side} (hright : p.castling .white side = true) : b.ourKing = square 4 0 :=
    (p.one_king .white).unique hb.ourKing (p.castling_home _ _ hright).1
  have hcastles (side : Side) : p.Castles side ↔ p.castling .white side = true ∧ p.board.Clear (kingHome .white) (rookHome .white side) := by
    rw [Position.Castles, hw]
  rw [ChessBoard.castlingMoves, List.mem_append, hf.castlings]
  constructor
  · rintro (hm | hm)
    · split at hm
      · rename_i hside
        obtain ⟨hright, hwalk, hrange⟩ := hside
        rw [hcan hright] at hm hwalk hrange
        rw [Bool.not_eq_true'] at hrange
        have hclear := (hcastles .queen).mpr ⟨hright, (clear_queenside hb).mp hwalk⟩
        exact ⟨.queen, hclear, (castling_safe ht hb hw hclear (by decide)).mp hrange, List.mem_singleton.mp hm⟩
      · cases hm
    · split at hm
      · rename_i hside
        obtain ⟨hright, hwalk, hrange⟩ := hside
        rw [hcan hright] at hm hwalk hrange
        rw [Bool.not_eq_true'] at hrange
        have hclear := (hcastles .king).mpr ⟨hright, (clear_kingside hb).mp hwalk⟩
        exact ⟨.king, hclear, (castling_safe ht hb hw hclear (by decide)).mp hrange, List.mem_singleton.mp hm⟩
      · cases hm
  · rintro ⟨side, h, hsafe, rfl⟩
    obtain ⟨hright, hclear⟩ := (hcastles side).mp h
    rw [hcan hright]
    cases side with
    | queen =>
      left
      rw [if_pos]
      · exact List.mem_singleton_self _
      · refine ⟨hright, (clear_queenside hb).mpr hclear, ?_⟩
        rw [Bool.not_eq_true']
        exact (castling_safe ht hb hw h (by decide)).mpr hsafe
    | king =>
      right
      rw [if_pos]
      · exact List.mem_singleton_self _
      · refine ⟨hright, (clear_kingside hb).mpr hclear, ?_⟩
        rw [Bool.not_eq_true']
        exact (castling_safe ht hb hw h (by decide)).mpr hsafe

/-- A pseudo-legal move, except that the king does not step to an attacked square and castles on a safe way. -/
inductive Generated (b : ChessBoard) (tables : AttackTables) (p : Chess.Position) : Chess.Move → Prop
  | plain {s t : Square} {promotion : Option Promotion} (h : p.Plays s t promotion)
      (hking : p.board s = some ⟨.white, .king⟩ → b.isUnderAttack tables t = false) : Generated b tables p (.plain s t promotion)
  | castle {side : Side} (h : p.Castles side)
      (hsafe : ∀ u ∈ [kingHome .white, rookCastled .white side], ¬ p.board.Attacked .black u) : Generated b tables p (.castle side)

/-- The moves of a piece that goes to every square it attacks. -/
theorem mem_attacks (hb : White b p.board) (hw : p.turn = .white) {type : Chess.PieceType} (hq : p.board s = some ⟨.white, type⟩)
    (hpawn : type ≠ .pawn) {m : Move} : (∃ t, p.board.Attacks ⟨.white, type⟩ s t ∧ b.ourPieces.get t = false ∧ m = .white s t) ↔
      ∃ t promotion, p.Plays s t promotion ∧ m = encode p.toPosition (.plain s t promotion) := by
  constructor
  · rintro ⟨t, hattack, hours, rfl⟩
    exact ⟨t, none, (plays_piece hb hw hq hpawn).mpr ⟨rfl, hours, hattack⟩, (encode_piece hw hq hpawn t).symm⟩
  · rintro ⟨t, promotion, hplays, rfl⟩
    obtain ⟨rfl, hours, hattack⟩ := (plays_piece hb hw hq hpawn).mp hplays
    exact ⟨t, hattack, hours, encode_piece hw hq hpawn t⟩

theorem plays_pawn (hw : p.turn = .white) (hq : p.board s = some ⟨.white, .pawn⟩) : p.Plays s t promotion ↔
    (p.PawnPush s t ∨ p.PawnTakes s t ∨ p.TakesEnPassant s t) ∧ PromotesOn t promotion := by
  have hlast : p.turn.lastRank = 7 := by rw [hw]; rfl
  constructor
  · rintro ⟨q, hq', hcolor, htarget, hmove⟩
    obtain rfl := Option.some_inj.mp (hq.symm.trans hq')
    rw [if_pos rfl, hlast] at hmove
    exact hmove
  · rintro ⟨hmove, hpromotes⟩
    refine ⟨_, hq, hw.symm, ?_, ?_⟩
    · intro r hr
      rcases hmove with h | h | h
      · rw [h.2.1] at hr
        cases hr
      · obtain ⟨q, hq', hcolor⟩ := h.2
        rw [Option.some_inj.mp (hr.symm.trans hq')]
        exact hcolor
      · rw [h.2.2.2] at hr
        cases hr
    · rw [if_pos rfl, hlast]
      exact ⟨hmove, hpromotes⟩

theorem mem_pawnMoves (hf : Faces b p) (hq : p.board s = some ⟨.white, .pawn⟩) {m : Move} : m ∈ b.pawnSteps s ++ [-1, 1].flatMap (b.pawnCaptures s) ↔
      ∃ t promotion, p.Plays s t promotion ∧ m = encode p.toPosition (.plain s t promotion) := by
  have hpush {t : Square} (h : p.PawnPush s t) (promotion : Option Promotion) :
      encode p.toPosition (.plain s t promotion) = match promotion with | some k => .whitePromotion s t k | none => .white s t := by
    apply encode_other hf.turn
    rintro ⟨-, hattack, -⟩
    have hfile : (fileStep s t).natAbs = 1 := hattack.1
    rw [h.1] at hfile
    cases hfile
  rw [List.mem_append, mem_pawnSteps hf.toWhite hf.turn (p.pawns_inside s _ hq), mem_pawnCaptures hf hq]
  simp only [plays_pawn hf.turn hq]
  constructor
  · rintro (⟨t, promotion, h, hpromotes, rfl⟩ | ⟨t, promotion, h, hpromotes, rfl⟩)
    · exact ⟨t, promotion, ⟨.inl h, hpromotes⟩, (hpush h promotion).symm⟩
    · exact ⟨t, promotion, ⟨.inr h, hpromotes⟩, rfl⟩
  · rintro ⟨t, promotion, ⟨h | h, hpromotes⟩, rfl⟩
    · exact .inl ⟨t, promotion, h, hpromotes, hpush h promotion⟩
    · exact .inr ⟨t, promotion, h, hpromotes, rfl⟩

theorem mem_movesFrom (ht : initializeMagicBitboards rookNumbers bishopNumbers = .ok tables) (hf : Faces b p)
    {type : Chess.PieceType} (hq : p.board s = some ⟨.white, type⟩) (hking : type ≠ .king) {m : Move} : m ∈ b.movesFrom tables s ↔
      ∃ t promotion, p.Plays s t promotion ∧ m = encode p.toPosition (.plain s t promotion) := by
  have hb := hf.toWhite
  have hw := hf.turn
  have hne : s ≠ b.ourKing := by
    rintro rfl
    have hours : p.board b.ourKing = some ⟨.white, .king⟩ := hb.ourKing
    rw [hq] at hours
    exact hking (Piece.mk.inj (Option.some_inj.mp hours)).2
  have hrook := hb.rooks_get s
  have hbishop := hb.bishops_get s
  have hpawn := hb.pawns_get s
  rw [hq] at hrook hbishop hpawn
  rw [ChessBoard.movesFrom, if_neg hne, hrook, hbishop, hpawn]
  cases type with
  | king => exact absurd rfl hking
  | pawn =>
    rw [← mem_pawnMoves hf hq]
    simp [straight, diagonal, isPawn]
  | knight =>
    rw [← mem_attacks hb hw hq (by decide)]
    simp only [straight, diagonal, isPawn]
    exact mem_knightMoves
  | rook =>
    rw [← mem_attacks hb hw hq (by decide)]
    simp only [straight, diagonal, Board.Attacks, ← mem_rookMoves ht hb]
    simp
  | bishop =>
    rw [← mem_attacks hb hw hq (by decide)]
    simp only [straight, diagonal, Board.Attacks, ← mem_bishopMoves ht hb]
    simp
  | queen =>
    rw [← mem_attacks hb hw hq (by decide)]
    simp only [straight, diagonal, Board.Attacks, or_and_right, exists_or, ← mem_rookMoves ht hb, ← mem_bishopMoves ht hb]
    simp

theorem mem_kingMoves (ht : initializeMagicBitboards rookNumbers bishopNumbers = .ok tables) (hf : Faces b p) {m : Move} : m ∈ b.movesFrom tables b.ourKing ↔
      (∃ t promotion, (p.Plays b.ourKing t promotion ∧ b.isUnderAttack tables t = false) ∧
        m = encode p.toPosition (.plain b.ourKing t promotion)) ∨
      ∃ side, p.Castles side ∧ (∀ u ∈ [kingHome .white, rookCastled .white side], ¬ p.board.Attacked .black u) ∧
        m = encode p.toPosition (.castle side) := by
  have hb := hf.toWhite
  have hw := hf.turn
  have hq : p.board b.ourKing = some ⟨.white, .king⟩ := hb.ourKing
  rw [ChessBoard.movesFrom, if_pos rfl, List.mem_append, mem_castlingMoves ht hf, mem_kingSteps]
  apply or_congr_left
  constructor
  · rintro ⟨t, hadjacent, hours, hsafe, rfl⟩
    exact ⟨t, none, ⟨(plays_piece hb hw hq (by decide)).mpr ⟨rfl, hours, hadjacent⟩, hsafe⟩, (encode_piece hw hq (by decide) t).symm⟩
  · rintro ⟨t, promotion, ⟨hplays, hsafe⟩, rfl⟩
    obtain ⟨rfl, hours, hadjacent⟩ := (plays_piece hb hw hq (by decide)).mp hplays
    exact ⟨t, hadjacent, hours, hsafe, encode_piece hw hq (by decide) t⟩

/-- **The moves that are generated.** -/
theorem mem_generatePseudolegalMoves (ht : initializeMagicBitboards rookNumbers bishopNumbers = .ok tables) (hf : Faces b p)
    {m : Move} : m ∈ b.generatePseudolegalMoves tables ↔
      ∃ m', Generated b tables p.toPosition m' ∧ m = encode p.toPosition m' := by
  have hb := hf.toWhite
  have hking : p.board b.ourKing = some ⟨.white, .king⟩ := hb.ourKing
  rw [ChessBoard.generatePseudolegalMoves, List.mem_flatMap]
  simp only [BitBoard.mem_squares]
  constructor
  · rintro ⟨s, hs, hm⟩
    obtain ⟨type, hq⟩ := (source_iff hb s).mp hs
    by_cases htype : type = .king
    · subst htype
      obtain rfl : s = b.ourKing := (p.one_king .white).unique hq hking
      rcases (mem_kingMoves ht hf).mp hm with ⟨t, promotion, ⟨hplays, hsafe⟩, rfl⟩ | ⟨side, hcastles, hsafe, rfl⟩
      · exact ⟨_, .plain hplays fun _ => hsafe, rfl⟩
      · exact ⟨_, .castle hcastles hsafe, rfl⟩
    · obtain ⟨t, promotion, hplays, rfl⟩ := (mem_movesFrom ht hf hq htype).mp hm
      refine ⟨_, .plain hplays fun hking => ?_, rfl⟩
      rw [hq] at hking
      exact absurd (Piece.mk.inj (Option.some_inj.mp hking)).2 htype
  · rintro ⟨m', hgenerated, rfl⟩
    cases hgenerated with
    | @plain s t promotion hplays hsafe =>
      obtain ⟨q, hq, hpseudo⟩ := hplays.source
      obtain ⟨c, type⟩ := q
      obtain rfl : c = .white := hpseudo.1.trans hf.turn
      refine ⟨s, (source_iff hb s).mpr ⟨type, hq⟩, ?_⟩
      by_cases htype : type = .king
      · subst htype
        obtain rfl : s = b.ourKing := (p.one_king .white).unique hq hking
        exact (mem_kingMoves ht hf).mpr (.inl ⟨t, promotion, ⟨hplays, hsafe hq⟩, rfl⟩)
      · exact (mem_movesFrom ht hf hq htype).mpr ⟨t, promotion, hplays, rfl⟩
    | @castle side hcastles hsafe =>
      exact ⟨b.ourKing, (source_iff hb _).mpr ⟨_, hking⟩, (mem_kingMoves ht hf).mpr (.inr ⟨side, hcastles, hsafe, rfl⟩)⟩

end

end ChessAnalytics.Lc0.Board
