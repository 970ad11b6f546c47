import ChessAnalytics.Lc0.LegalMoves

/-! Every move is generated once, so that `Perft` counts the ways to play on; and what it expects of the
legal moves holds at every board that it comes to. -/
namespace ChessAnalytics.Lc0.Board
open Strings Chess

/-- The loop of `Perft` over the generated moves, with the legal moves that have not been met. Beside the
count it says whether the expectations on the way were met. -/
def perftLoop (tables : AttackTables) (b : ChessBoard) (next : ChessBoard → Nat × Bool) : List Move → List Move → Nat × Bool
  | [], iter => (0, iter.isEmpty)
  | move :: moves, iter =>
    let newBoard := (b.applyMove move).1
    if newBoard.isUnderCheck tables then
      let (total, met) := perftLoop tables b next moves iter
      (total, iter.head? ≠ some move && met)
    else
      let (count, metBelow) := next newBoard.mirror
      let (total, met) := perftLoop tables b next moves iter.tail
      (count + total, iter.head? = some move && metBelow && met)

/-- `Perft`, with the number of moves that are left. -/
def perft (tables : AttackTables) : Nat → ChessBoard → Nat × Bool
  | 0, _ => (1, true)
  | n + 1, b => perftLoop tables b (perft tables n) (b.generatePseudolegalMoves tables) (b.generateLegalMoves tables)

/-- The number of ways to play so many legal moves. -/
def waysToPlay : Nat → GamePosition → Nat
  | 0, _ => 1
  | n + 1, p => (p.legalMoves.attach.map fun m => waysToPlay n (p.push m.1 (Position.mem_legalMoves.mp m.2))).sum

theorem white_marked (s t : Square) : Move.white s t = .marked 0#16 s t := by
  rw [Move.marked, BitVec.or_zero]

@[simp] theorem toSq_white (s t : Square) : (Move.white s t).toSq = t := by
  rw [white_marked, Move.toSq_marked (by decide)]

@[simp] theorem isCastling_white (s t : Square) : (Move.white s t).isCastling = false := by
  rw [white_marked, Move.isCastling, Move.upper_marked (by decide)]
  decide

theorem whitePromotion_marked (s t : Square) (k : Promotion) :
    Move.whitePromotion s t k = .marked (Move.promotionBit ||| (Move.pieceIdx k <<< 12)) s t := by
  rw [Move.marked, ← BitVec.or_assoc]
  rfl

@[simp] theorem toSq_whitePromotion (s t : Square) (k : Promotion) : (Move.whitePromotion s t k).toSq = t := by
  rw [whitePromotion_marked, Move.toSq_marked (by cases k <;> decide)]

theorem white_injective (s : Square) : Function.Injective (Move.white s) := by
  intro t t' h
  have hto := congrArg Move.toSq h
  rwa [toSq_white, toSq_white] at hto

theorem whitePromotion_injective (s t : Square) : Function.Injective (Move.whitePromotion s t) := by
  intro k k' h
  have hbits := congrArg (fun m => m.data &&& Move.pieceMask) h
  simp only [whitePromotion_marked] at hbits
  rw [Move.upper_marked (by decide), Move.upper_marked (by decide)] at hbits
  revert hbits
  cases k <;> cases k' <;> decide

@[simp] theorem isCastling_whiteCastling : ∀ king rook, (Move.whiteCastling king rook).isCastling = true := by decide
@[simp] theorem toSq_whiteCastling : ∀ king rook, (Move.whiteCastling king rook).toSq = square rook.val 0 := by decide

theorem encode_injective (p : Chess.Position) : Function.Injective (encode p) := by
  have hplain (s t : Square) (promotion : Option Promotion) (side : Side) : encode p (.plain s t promotion) ≠ encode p (.castle side) := by
    intro h
    have hcastling := congrArg Move.isCastling h
    rw [isCastling_encode, encode, isCastling_whiteCastling] at hcastling
    cases hcastling
  intro m m' h
  cases m with
  | plain s t promotion =>
    cases m' with
    | plain s' t' promotion' =>
      have hfrom := congrArg Move.fromSq h
      have hto := congrArg Move.toSq h
      have hsome := congrArg Move.isPromotion h
      rw [fromSq_encode, fromSq_encode, ours_eq_iff, ours_ours] at hfrom
      rw [toSq_encode, toSq_encode, ours_eq_iff, ours_ours] at hto
      rw [isPromotion_encode, isPromotion_encode] at hsome
      subst hfrom hto
      cases promotion with
      | none =>
        cases promotion' with
        | none => rfl
        | some k' => cases hsome
      | some k =>
        cases promotion' with
        | none => cases hsome
        | some k' =>
          rw [encode, encode] at h
          rw [whitePromotion_injective _ _ h]
    | castle side => exact absurd h (hplain s t promotion side)
  | castle side =>
    cases m' with
    | plain s t promotion => exact absurd h.symm (hplain s t promotion side)
    | castle side' =>
      have hto := congrArg Move.toSq h
      rw [encode, encode, toSq_whiteCastling, toSq_whiteCastling] at hto
      revert hto
      cases side <;> cases side' <;> decide

section
variable {b : ChessBoard} {p : GamePosition} {s : Square} {m : Move}
variable {rookNumbers bishopNumbers : Option (Square → BitVec 64)} {tables : AttackTables}

theorem steps_nodup {f : Direction → Option Move} {directions : List Direction} (hdirections : directions.Nodup)
    (hstep : ∀ d, ∀ m ∈ f d, stepped d s 1 = some m.toSq) : (directions.filterMap f).Nodup := by
  refine List.Nodup.filterMap (fun d d' m h h' => ?_) hdirections
  obtain ⟨hrank, hfile⟩ := stepped_iff.mp (hstep d m h)
  obtain ⟨hrank', hfile'⟩ := stepped_iff.mp (hstep d' m h')
  rw [Nat.cast_one, one_mul] at hrank hfile hrank' hfile'
  exact Prod.ext (hrank.symm.trans hrank') (hfile.symm.trans hfile')

theorem kingSteps_nodup : (b.kingSteps tables s).Nodup := by
  rw [ChessBoard.kingSteps]
  refine steps_nodup (s := s) (by decide) fun d m h => ?_
  split at h
  · cases h
  · rename_i t hstep
    split at h
    · cases h
    · split at h
      · cases h
      · rw [← Option.some_inj.mp h, toSq_white]
        exact hstep

theorem castlingMoves_nodup (hqueen : b.castlings.ourQueensideRook = 0) (hking : b.castlings.ourKingsideRook = 7) :
    (b.castlingMoves tables s).Nodup := by
  have hne : Move.whiteCastling (fileOf s) (fileAt 0) ≠ Move.whiteCastling (fileOf s) (fileAt 7) := by
    intro h
    have hto := congrArg Move.toSq h
    rw [toSq_whiteCastling, toSq_whiteCastling] at hto
    revert hto
    decide
  rw [ChessBoard.castlingMoves, hqueen, hking]
  split <;> split <;> simp [hne]

theorem castlingMoves_castle (h : m ∈ b.castlingMoves tables s) : m.isCastling = true := by
  rw [ChessBoard.castlingMoves, List.mem_append] at h
  rcases h with h | h
  · split at h
    · rw [List.mem_singleton.mp h, isCastling_whiteCastling]
    · cases h
  · split at h
    · rw [List.mem_singleton.mp h, isCastling_whiteCastling]
    · cases h

theorem promotions_nodup (t : Square) : (promotionOrder.map (Move.whitePromotion s t)).Nodup :=
  List.Nodup.map (whitePromotion_injective s t) (by decide)

theorem pawnSteps_nodup : (b.pawnSteps s).Nodup := by
  have hfile := fileIdx_lt s
  rw [ChessBoard.pawnSteps]
  dsimp only
  split
  · exact List.nodup_nil
  · split
    · split
      · split
        · simp
        · rename_i hrank _
          have hne : Move.white s (square (fileIdx s) (rankIdx s + 1)) ≠ Move.white s (square (fileIdx s) 3) := by
            intro h
            have heq := congrArg rankIdx (white_injective s h)
            rw [hrank, rankIdx_square hfile (by omega), rankIdx_square hfile (by omega)] at heq
            cases heq
          simp [hne]
      · simp
    · exact promotions_nodup _

theorem pawnSteps_file (h : m ∈ b.pawnSteps s) : fileStep s m.toSq = 0 := by
  have hfile (r : Nat) : fileStep s (square (fileIdx s) r) = 0 := by
    rw [fileStep, fileIdx_square r (fileIdx_lt s), Int.sub_self]
  have hpromotion (t : Square) (h : m ∈ promotionOrder.map (Move.whitePromotion s t)) : m.toSq = t := by
    obtain ⟨k, -, rfl⟩ := List.mem_map.mp h
    exact toSq_whitePromotion s t k
  rw [ChessBoard.pawnSteps] at h
  dsimp only at h
  split at h
  · cases h
  · split at h
    · rcases List.mem_cons.mp h with rfl | h
      · rw [toSq_white, hfile]
      · split at h
        · split at h
          · cases h
          · rw [List.mem_singleton.mp h, toSq_white, hfile]
        · cases h
    · rw [hpromotion _ h, hfile]

theorem whiteEnPassant_toSq (s t : Square) : (Move.whiteEnPassant s t).toSq = t :=
  Move.toSq_marked (by decide : Move.enPassantBits &&& Move.toMask = 0#16) s t

theorem pawnCaptures_file {d : Int} (h : m ∈ b.pawnCaptures s d) : fileStep s m.toSq = d := by
  rw [ChessBoard.pawnCaptures] at h
  split at h
  · cases h
  · rename_i t hstep
    obtain ⟨-, hfile⟩ := stepped_iff.mp hstep
    rw [Nat.cast_one, one_mul] at hfile
    have hto : m.toSq = t := by
      split at h
      · split at h
        · obtain ⟨k, -, rfl⟩ := List.mem_map.mp h
          exact toSq_whitePromotion s t k
        · rw [List.mem_singleton.mp h, toSq_white]
      · split at h
        · rw [List.mem_singleton.mp h, whiteEnPassant_toSq]
        · cases h
    rw [hto, hfile]

theorem pawnCaptures_nodup (d : Int) : (b.pawnCaptures s d).Nodup := by
  rw [ChessBoard.pawnCaptures]
  split
  · exact List.nodup_nil
  · split
    · split
      · exact promotions_nodup _
      · exact List.nodup_singleton _
    · split
      · exact List.nodup_singleton _
      · exact List.nodup_nil

theorem pawnMoves_nodup : (b.pawnSteps s ++ [-1, 1].flatMap (b.pawnCaptures s)).Nodup := by
  have hcaptures : [-1, 1].flatMap (b.pawnCaptures s) = b.pawnCaptures s (-1) ++ b.pawnCaptures s 1 := by simp
  rw [hcaptures]
  refine pawnSteps_nodup.append ((pawnCaptures_nodup _).append (pawnCaptures_nodup _) ?_) ?_
  · intro m h h'
    have hfile := (pawnCaptures_file h).symm.trans (pawnCaptures_file h')
    cases hfile
  · intro m h h'
    rcases List.mem_append.mp h' with h' | h'
    · have hfile := (pawnSteps_file h).symm.trans (pawnCaptures_file h')
      cases hfile
    · have hfile := (pawnSteps_file h).symm.trans (pawnCaptures_file h')
      cases hfile

theorem rangeMoves_nodup (bits : BitBoard) : (bits.squares.map (Move.white s)).Nodup := (squares_nodup bits).map (white_injective s)

theorem straight_not_diagonal {t : Square} (h : Straight s t) : ¬ Diagonal s t := by
  rintro ⟨hne, hsteps⟩
  have hline := h.2
  apply hne
  rw [Fin.ext_iff]
  rw [fileStep, rankStep, fileIdx, fileIdx, rankIdx, rankIdx] at hline hsteps
  omega

theorem movesFrom_nodup (ht : initializeMagicBitboards rookNumbers bishopNumbers = .ok tables) (hf : Faces b p) :
    (b.movesFrom tables s).Nodup := by
  have hrooks : (b.rookMoves tables s).Nodup := rangeMoves_nodup _
  have hbishops : (b.bishopMoves tables s).Nodup := rangeMoves_nodup _
  rw [ChessBoard.movesFrom]
  split
  · refine kingSteps_nodup.append (castlingMoves_nodup (by rw [hf.castlings]; rfl) (by rw [hf.castlings]; rfl)) ?_
    intro m h h'
    obtain ⟨t, -, -, -, rfl⟩ := mem_kingSteps.mp h
    have hcastling := castlingMoves_castle h'
    rw [isCastling_white] at hcastling
    cases hcastling
  · split
    · refine List.Nodup.append ?_ ?_ ?_
      · split
        · exact hrooks
        · exact List.nodup_nil
      · split
        · exact hbishops
        · exact List.nodup_nil
      · intro m h h'
        split at h
        · split at h'
          · -- no square is reached both ways
            obtain ⟨t, ⟨hstraight, -⟩, -, rfl⟩ := (mem_rookMoves ht hf.toWhite).mp h
            obtain ⟨t', ⟨hdiagonal, -⟩, -, heq⟩ := (mem_bishopMoves ht hf.toWhite).mp h'
            obtain rfl := white_injective s heq
            exact straight_not_diagonal hstraight hdiagonal
          · cases h'
        · cases h
    · split
      · exact pawnMoves_nodup
      · exact rangeMoves_nodup _

/-- What a move tells of the square that it was generated for. -/
theorem movesFrom_source (ht : initializeMagicBitboards rookNumbers bishopNumbers = .ok tables) (hf : Faces b p)
    (hs : b.ourPieces.get s = true) (hm : m ∈ b.movesFrom tables s) :
    m.isCastling = false ∧ m.fromSq = s ∨ m.isCastling = true ∧ s = b.ourKing := by
  have hking : p.board b.ourKing = some ⟨.white, .king⟩ := hf.ourKing
  have hours (s : Square) : ours p.turn s = s := by
    rw [hf.turn]
    rfl
  obtain ⟨type, hq⟩ := (source_iff hf.toWhite s).mp hs
  by_cases htype : type = .king
  · subst htype
    obtain rfl : s = b.ourKing := (p.one_king .white).unique hq hking
    rcases (mem_kingMoves ht hf).mp hm with ⟨t, promotion, -, rfl⟩ | ⟨side, -, -, rfl⟩
    · exact .inl ⟨isCastling_encode .., (fromSq_encode ..).trans (hours _)⟩
    · exact .inr ⟨isCastling_whiteCastling _ _, rfl⟩
  · obtain ⟨t, promotion, -, rfl⟩ := (mem_movesFrom ht hf hq htype).mp hm
    exact .inl ⟨isCastling_encode .., (fromSq_encode ..).trans (hours _)⟩

theorem Faces.nodup (ht : initializeMagicBitboards rookNumbers bishopNumbers = .ok tables) (hf : Faces b p) :
    (b.generatePseudolegalMoves tables).Nodup := by
  rw [ChessBoard.generatePseudolegalMoves, List.nodup_flatMap]
  refine ⟨fun s _ => movesFrom_nodup ht hf, (squares_nodup _).pairwise_of_forall_ne fun s hs s' hs' hne => ?_⟩
  intro m hm hm'
  rw [BitBoard.mem_squares] at hs hs'
  rcases movesFrom_source ht hf hs hm with ⟨hplain, hfrom⟩ | ⟨hcastle, hking⟩
  · rcases movesFrom_source ht hf hs' hm' with ⟨-, hfrom'⟩ | ⟨hcastle', -⟩
    · exact hne (hfrom.symm.trans hfrom')
    · rw [hplain] at hcastle'
      cases hcastle'
  · rcases movesFrom_source ht hf hs' hm' with ⟨hplain', -⟩ | ⟨-, hking'⟩
    · rw [hcastle] at hplain'
      cases hplain'
    · exact hne (hking.trans hking'.symm)

def ChessBoard.leavesSafe (b : ChessBoard) (tables : AttackTables) (m : Move) : Bool := !(b.applyMove m).1.isUnderCheck tables

/-- `IsLegalMove` takes the moves that do not leave the king in check. -/
theorem Faces.isLegalMove_iff (ht : initializeMagicBitboards rookNumbers bishopNumbers = .ok tables) (hf : Faces b p)
    (hfew : p.FewCheckers) (hm : m ∈ b.generatePseudolegalMoves tables) :
    b.isLegalMove tables m b.generateKingAttackInfo = b.leavesSafe tables m := by
  obtain ⟨m', hgenerated, rfl⟩ := (mem_generatePseudolegalMoves ht hf).mp hm
  rw [Bool.eq_iff_iff, ChessBoard.leavesSafe, Bool.not_eq_true', ← Bool.not_eq_true, isLegalMove_generated ht hf hfew hgenerated]
  cases hgenerated with
  | plain h hking =>
    rw [underCheck_plain ht hf h]
    exact ⟨fun hlegal => hlegal.2, fun hsafe => ⟨h, hsafe⟩⟩
  | castle h hsafe =>
    rw [underCheck_castle ht hf h]
    refine ⟨fun hlegal => ValidPosition.castle_safe hlegal, ValidPosition.castle_legal h ?_⟩
    rw [hf.turn]
    exact hsafe

theorem Faces.legalMoves_eq (ht : initializeMagicBitboards rookNumbers bishopNumbers = .ok tables) (hf : Faces b p)
    (hfew : p.FewCheckers) : b.generateLegalMoves tables =
      (b.generatePseudolegalMoves tables).filter (b.leavesSafe tables) :=
  List.filter_congr fun _ hm => hf.isLegalMove_iff ht hfew hm

theorem lists_of_represents (ht : initializeMagicBitboards rookNumbers bishopNumbers = .ok tables) (hb : Represents b p.toPosition)
    (hfew : p.FewCheckers) : (b.generatePseudolegalMoves tables).Nodup ∧ b.generateLegalMoves tables =
      (b.generatePseudolegalMoves tables).filter (b.leavesSafe tables) := by
  cases hturn : p.turn with
  | white =>
    have hf := faces_white hb hturn
    exact ⟨hf.nodup ht, hf.legalMoves_eq ht hfew⟩
  | black =>
    have hf := faces_black hb hturn
    exact ⟨hf.nodup ht, hf.legalMoves_eq ht (GamePosition.few_flip hfew)⟩

/-- With the right list of legal moves the loop meets its expectations and adds up what lies below. -/
theorem perftLoop_eq (next : ChessBoard → Nat × Bool) (moves : List Move) :
    perftLoop tables b next moves (moves.filter (b.leavesSafe tables)) =
      (((moves.filter (b.leavesSafe tables)).map fun m => (next (b.applyMove m).1.mirror).1).sum,
        (moves.filter (b.leavesSafe tables)).all fun m => (next (b.applyMove m).1.mirror).2) := by
  induction moves with
  | nil => rfl
  | cons move moves ih =>
    by_cases hunder : (b.applyMove move).1.isUnderCheck tables = true
    · have hunsafe : ¬ b.leavesSafe tables move = true := by
        rw [ChessBoard.leavesSafe, hunder]
        simp
      have hnot : (moves.filter (b.leavesSafe tables)).head? ≠ some move :=
        fun hhead => hunsafe (List.mem_filter.mp (List.mem_of_head? hhead)).2
      rw [List.filter_cons_of_neg hunsafe, perftLoop, if_pos hunder, ih, decide_eq_true hnot]
      simp only [Bool.true_and]
    · have hsafe : b.leavesSafe tables move = true := by
        rw [ChessBoard.leavesSafe, Bool.not_eq_true', ← Bool.not_eq_true]
        exact hunder
      rw [List.filter_cons_of_pos hsafe, perftLoop, if_neg hunder, List.tail_cons, ih]
      simp

/-- The moves that lc0 finds legal are the legal moves, in another order. -/
theorem legalMoves_perm (ht : initializeMagicBitboards rookNumbers bishopNumbers = .ok tables) (hb : Represents b p.toPosition)
    (hfew : p.FewCheckers) : (b.generateLegalMoves tables).Perm (p.legalMoves.map (encode p.toPosition)) := by
  obtain ⟨hnodup, heq⟩ := lists_of_represents ht hb hfew
  have hlegal : (b.generateLegalMoves tables).Nodup := by
    rw [heq]
    exact hnodup.filter _
  rw [List.perm_ext_iff_of_nodup hlegal (p.legalMoves_nodup.map (encode_injective _))]
  intro m
  rw [mem_generateLegalMoves ht hb hfew, List.mem_map]
  simp only [Position.mem_legalMoves, eq_comm]

theorem perft_eq (ht : initializeMagicBitboards rookNumbers bishopNumbers = .ok tables) (n : Nat) :
    ∀ {b : ChessBoard} {p : GamePosition}, Represents b p.toPosition → p.FewCheckers → perft tables n b = (waysToPlay n p, true) := by
  induction n with
  | zero => exact fun _ _ => rfl
  | succ n ih =>
    intro b p hb hfew
    have hbelow (m : Chess.Move) (hm : p.Legal m) :
        perft tables n (b.applyMove (encode p.toPosition m)).1.mirror = (waysToPlay n (p.push m hm), true) :=
      ih (hb.push hm) (GamePosition.few_push hm)
    have hperm := legalMoves_perm ht hb hfew
    rw [perft, (lists_of_represents ht hb hfew).2, perftLoop_eq, ← (lists_of_represents ht hb hfew).2]
    refine Prod.ext ?_ ?_
    · simp only
      have hmoves : p.legalMoves.map ((fun m => (perft tables n (b.applyMove m).1.mirror).1) ∘ encode p.toPosition) =
          p.legalMoves.attach.map fun m => waysToPlay n (p.push m.1 (Position.mem_legalMoves.mp m.2)) := by
        refine List.attach_map_val.symm.trans (List.map_congr_left fun m _ => ?_)
        rw [Function.comp, hbelow m.1 (Position.mem_legalMoves.mp m.2)]
      rw [(hperm.map _).sum_eq, List.map_map, waysToPlay, hmoves]
    · simp only
      rw [List.all_eq_true]
      intro m hm
      obtain ⟨m', hm', rfl⟩ := (mem_generateLegalMoves ht hb hfew m).mp hm
      rw [hbelow m' hm']

end

/-- **Perft.** At every position of a game the list of legal moves holds no move twice; it is what is left of
the pseudolegal moves, in their order, without those that leave the king in check. So `Perft` meets all its
expectations, to any depth, and counts the ways to play so many legal moves. -/
theorem perft_exact (rookNumbers bishopNumbers : Option (Square → BitVec 64)) (tables : AttackTables)
    (ht : initializeMagicBitboards rookNumbers bishopNumbers = .ok tables) (g : Chess.Line) (board : ChessBoard) (gamePly : Int)
    (hboard : Represents board (g.position 0).toPosition) (hfew : (g.position 0).FewCheckers) (k : Nat) (hk : k ≤ g.length) (n : Nat) :
    let last := (PositionHistory.ofLine g board gamePly k).last
    (last.board.generateLegalMoves tables).Nodup ∧
      last.board.generateLegalMoves tables = (last.board.generatePseudolegalMoves tables).filter (last.board.leavesSafe tables) ∧
      perft tables n last.board = (waysToPlay n (g.position k), true) := by
  have hlast := (PositionHistory.tracks_ofLine hboard gamePly k hk).last.board
  have hchecks := g.few hfew hk
  obtain ⟨hnodup, heq⟩ := lists_of_represents ht hlast hchecks
  refine ⟨?_, heq, perft_eq ht n hlast hchecks⟩
  rw [heq]
  exact hnodup.filter _

theorem knights_perft : ∃ tables, initializeMagicBitboards none none = .ok tables ∧
    let last := (PositionHistory.ofLine knightLine standardBoard 0 4).last
    (last.board.generateLegalMoves tables).Nodup ∧
      last.board.generateLegalMoves tables = (last.board.generatePseudolegalMoves tables).filter (last.board.leavesSafe tables) ∧
      perft tables 6 last.board = (waysToPlay 6 (knightLine.position 4), true) := by
  obtain ⟨tables, ht⟩ := initialize_pext
  exact ⟨tables, ht, perft_exact none none tables ht knightLine standardBoard 0 represents_start few_start 4 (by decide) 6⟩

end ChessAnalytics.Lc0.Board
