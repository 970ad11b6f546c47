import ChessAnalytics.Lc0.KingAttack

/-! Which of the generated moves lc0 takes to be legal: all legal moves of the position and no others. -/
namespace ChessAnalytics.Lc0.Board
open Strings Chess

namespace ChessBoard

def isLegalMove (b : ChessBoard) (tables : AttackTables) (m : Move) (info : KingAttackInfo) : Bool :=
  if m.isEnPassant then !(b.applyMove m).1.isUnderCheck tables
  else if info.inCheck then
    if m.fromSq = b.ourKing then !(b.applyMove m).1.isUnderCheck tables
    else if info.isPinned m.fromSq then false
    else if info.doubleCheck then false
    else info.isOnAttackLine m.toSq
  else if m.fromSq = b.ourKing then
    if !m.isCastling then true else !(b.applyMove m).1.isUnderCheck tables
  else if !info.isPinned m.fromSq then true
  else InLine b.ourKing m.fromSq m.toSq

def generateLegalMoves (b : ChessBoard) (tables : AttackTables) : List Move :=
  (b.generatePseudolegalMoves tables).filter fun m => b.isLegalMove tables m b.generateKingAttackInfo

end ChessBoard

section
variable {b : ChessBoard} {p : GamePosition} {s t u : Square} {promotion : Option Promotion} {side : Side}
variable {rookNumbers bishopNumbers : Option (Square → BitVec 64)} {tables : AttackTables}

/-- The bitboards behind a move that puts no second king on the board and no pawn on a back rank. -/
theorem white_after {board : Chess.Board} (hshows : Shows b board .white) (hking : ∃! s, board s = some ⟨.black, .king⟩)
    (hpawns : ∀ s, board s = some ⟨.black, .pawn⟩ → 1 ≤ rankIdx s ∧ rankIdx s ≤ 6) : White b board where
  toShows := hshows
  king_unique _ hs := hking.unique hs hshows.theirKing
  pawns_below s hs := (hpawns s hs).2

theorem Faces.shows (hf : Faces b p) : Shows b p.board p.turn := by
  rw [hf.turn]
  exact hf.toShows

theorem underCheck_plain (ht : initializeMagicBitboards rookNumbers bishopNumbers = .ok tables) (hf : Faces b p)
    (h : p.Plays s t promotion) : (b.applyMove (encode p.toPosition (.plain s t promotion))).1.isUnderCheck tables = true ↔
      (p.after (.plain s t promotion)).InCheck p.turn := by
  have hshows := hf.shows.plain h
  rw [hf.turn] at hshows ⊢
  refine isUnderCheck_iff ht (white_after hshows (ValidPosition.one_king_plain h .black) fun u hu => p.pawns_inside_plain h hu) ?_
  exact fun u hu => (ValidPosition.one_king_plain h .white).unique hu hshows.ourKing

theorem underCheck_castle (ht : initializeMagicBitboards rookNumbers bishopNumbers = .ok tables) (hf : Faces b p)
    (h : p.Castles side) : (b.applyMove (encode p.toPosition (.castle side))).1.isUnderCheck tables = true ↔
      (p.after (.castle side)).InCheck p.turn := by
  have hshows := hf.shows.castle h
  rw [hf.turn] at hshows ⊢
  refine isUnderCheck_iff ht (white_after hshows (ValidPosition.one_king_castle h .black) fun u hu => p.pawns_inside_castle hu) ?_
  exact fun u hu => (ValidPosition.one_king_castle h .white).unique hu hshows.ourKing

theorem Faces.kings_apart (hf : Faces b p) : ¬ p.board.Attacks ⟨.black, .king⟩ b.theirKing b.ourKing := by
  intro hattack
  have hours : p.board b.ourKing = some ⟨.white, .king⟩ := hf.ourKing
  have htheirs : p.board b.theirKing = some ⟨.black, .king⟩ := hf.theirKing
  apply p.not_in_check
  rw [hf.turn]
  refine ⟨b.theirKing, htheirs, b.ourKing, _, hours, rfl, ?_⟩
  change Adjacent b.ourKing b.theirKing
  have hadjacent : Adjacent b.theirKing b.ourKing := hattack
  rw [Adjacent, fileStep, rankStep] at hadjacent ⊢
  omega

theorem Faces.king (hf : Faces b p) : p.board b.ourKing = some ⟨p.turn, .king⟩ := by
  rw [hf.turn]
  exact hf.ourKing

theorem Faces.inCheck (hf : Faces b p) : b.generateKingAttackInfo.inCheck = true ↔ p.board.InCheck p.turn := by
  rw [inCheck_iff hf.kings_apart hf.toWhite, ValidPosition.king_at hf.king, hf.turn]
  rfl

/-- A piece that could attack the king but for one of ours attacks it, unless ours is pinned. -/
theorem attacker_or_pinned (hu : p.board.Opened .black {s} b.ourKing u) :
    p.board.Attacker .black b.ourKing u ∨ s ∈ p.board.line u b.ourKing := by
  obtain ⟨q, hq, hcolor, haims, hclear⟩ := hu
  by_cases hway : s ∈ q.path u b.ourKing
  · right
    rw [line_some hq]
    exact List.mem_cons_of_mem _ hway
  · left
    refine ⟨q, hq, hcolor, attacks_iff.mpr ⟨haims, fun w hw => (hclear w hw).resolve_left ?_⟩⟩
    rintro rfl
    exact hway hw

theorem attacker_unshielded (hf : Faces b p) (hs : b.ourPieces.get s = true) (hu : p.board.Attacker .black b.ourKing u) :
    s ∉ p.board.line u b.ourKing := by
  obtain ⟨hnot, hne⟩ := hf.toWhite.ours_not_theirs hs
  obtain ⟨q, hq, hcolor, hattack⟩ := hu
  rw [line_some hq, List.mem_cons, not_or]
  constructor
  · rintro rfl
    rw [(hf.toWhite.theirs_iff s).mpr ⟨q, hq, hcolor⟩] at hnot
    cases hnot
  · exact fun hway => hne ((attacks_iff.mp hattack).2 s hway)

/-- The pieces that would attack the king without one of ours. -/
theorem opened_not_source (hf : Faces b p) (hs : b.ourPieces.get s = true) (hu : p.board.Opened .black {s} b.ourKing u) :
    u ∉ ({s} : Set Square) := by
  rintro rfl
  obtain ⟨hnot, -⟩ := hf.toWhite.ours_not_theirs hs
  obtain ⟨q, hq, hcolor, -⟩ := hu
  rw [(hf.toWhite.theirs_iff u).mpr ⟨q, hq, hcolor⟩] at hnot
  cases hnot

/-- The code's tests for a piece that is not the king say that every attack ends at its target. -/
theorem tests_iff (hf : Faces b p) (hfew : FewCheckers p.board .black b.ourKing) (h : p.Plays s t promotion)
    (hs : b.ourPieces.get s = true) :
    (if b.generateKingAttackInfo.inCheck then
      if b.generateKingAttackInfo.isPinned s then false
      else if b.generateKingAttackInfo.doubleCheck then false
      else b.generateKingAttackInfo.isOnAttackLine t
    else if !b.generateKingAttackInfo.isPinned s then true
    else decide (InLine b.ourKing s t)) = true ↔
      ∀ u, p.board.Opened .black {s} b.ourKing u → t ∈ p.board.line u b.ourKing := by
  have hwhite := hf.toWhite
  have hshared {u v w : Square} (hu : p.board.Opened .black {s} b.ourKing u) (hv : p.board.Opened .black {s} b.ourKing v)
      (hwu : w ∈ p.board.line u b.ourKing) (hwv : w ∈ p.board.line v b.ourKing) : u = v :=
    hu.unique hv (opened_not_source hf hs hu) (opened_not_source hf hs hv) hwu hwv
  have hpinned := isPinned_iff hwhite hs
  have hdouble := (doubleCheck_iff hwhite hfew hf.kings_apart).2
  by_cases hcheck : b.generateKingAttackInfo.inCheck = true
  · obtain ⟨u, hu⟩ := attacked_iff_attacker.mp ((inCheck_iff hf.kings_apart hwhite).mp hcheck)
    rw [if_pos hcheck]
    by_cases hpin : b.generateKingAttackInfo.isPinned s = true
    · -- the check and the pin lie on lines apart
      obtain ⟨v, hv, hsv⟩ := hpinned.mp hpin
      rw [if_pos hpin]
      refine iff_of_false (by simp) fun hall => ?_
      obtain rfl := hshared (hu.opened {s}) hv (hall u (hu.opened {s})) (hall v hv)
      exact attacker_unshielded hf hs hu hsv
    · rw [if_neg hpin]
      have hattacker {v : Square} (hv : p.board.Opened .black {s} b.ourKing v) : p.board.Attacker .black b.ourKing v :=
        (attacker_or_pinned hv).resolve_right fun hsv => hpin (hpinned.mpr ⟨v, hv, hsv⟩)
      by_cases htwo : b.generateKingAttackInfo.doubleCheck = true
      · obtain ⟨v, w, hv, hw, hne⟩ := hdouble.mp htwo
        rw [if_pos htwo]
        refine iff_of_false (by simp) fun hall => hne ?_
        exact hshared (hv.opened {s}) (hw.opened {s}) (hall v (hv.opened {s})) (hall w (hw.opened {s}))
      · rw [if_neg htwo, KingAttackInfo.isOnAttackLine, attackLines_iff hf.kings_apart hwhite]
        constructor
        · rintro ⟨v, hv, htv⟩ w hw
          have hone : v = w := by
            by_contra hne
            exact htwo (hdouble.mpr ⟨v, w, hv, hattacker hw, hne⟩)
          rw [← hone]
          exact htv
        · exact fun hall => ⟨u, hu, hall u (hu.opened {s})⟩
  · have hsafe : ∀ u, ¬ p.board.Attacker .black b.ourKing u :=
      fun u hu => hcheck ((inCheck_iff hf.kings_apart hwhite).mpr ⟨u, hu⟩)
    rw [if_neg hcheck]
    by_cases hpin : b.generateKingAttackInfo.isPinned s = true
    · obtain ⟨v, hv, hsv⟩ := hpinned.mp hpin
      have hopened : p.board.Opened p.turn.other {s} b.ourKing v := by
        rw [hf.turn]
        exact hv
      rw [hpin, if_neg (by simp), decide_eq_true_iff, ← ValidPosition.pinned_stays h hf.king hopened hsv]
      constructor
      · intro htv w hw
        rw [hshared hw hv ((attacker_or_pinned hw).resolve_left (hsafe w)) hsv]
        exact htv
      · exact fun hall => hall v hv
    · rw [Bool.not_eq_true] at hpin
      rw [hpin, Bool.not_false, if_pos rfl]
      refine iff_of_true rfl fun u hu => ?_
      rcases attacker_or_pinned hu with hattacker | hsu
      · exact absurd hattacker (hsafe u)
      · rw [hpinned.mpr ⟨u, hu, hsu⟩] at hpin
        cases hpin

theorem isLegalMove_plain (ht : initializeMagicBitboards rookNumbers bishopNumbers = .ok tables) (hf : Faces b p)
    (hfew : FewCheckers p.board .black b.ourKing) (h : p.Plays s t promotion)
    (hking : p.board s = some ⟨.white, .king⟩ → b.isUnderAttack tables t = false) :
    b.isLegalMove tables (encode p.toPosition (.plain s t promotion)) b.generateKingAttackInfo = true ↔
      p.Legal (.plain s t promotion) := by
  have hfrom : (encode p.toPosition (.plain s t promotion)).fromSq = s := by
    rw [fromSq_encode, hf.turn]
    rfl
  have hto : (encode p.toPosition (.plain s t promotion)).toSq = t := by
    rw [toSq_encode, hf.turn]
    rfl
  have happly : (!(b.applyMove (encode p.toPosition (.plain s t promotion))).1.isUnderCheck tables) = true ↔
      p.Legal (.plain s t promotion) := by
    rw [Bool.not_eq_true', ← Bool.not_eq_true, underCheck_plain ht hf h]
    exact ⟨fun hsafe => ⟨h, hsafe⟩, fun hlegal => hlegal.2⟩
  rw [ChessBoard.isLegalMove, isEnPassant_legal h, hfrom, hto, isCastling_encode]
  by_cases hpassing : p.TakesEnPassant s t
  · rw [if_pos (decide_eq_true hpassing)]
    exact happly
  · rw [if_neg (by rw [decide_eq_true_iff]; exact hpassing)]
    by_cases hs : s = b.ourKing
    · subst hs
      have hq : p.board b.ourKing = some ⟨.white, .king⟩ := hf.ourKing
      by_cases hcheck : b.generateKingAttackInfo.inCheck = true
      · rw [if_pos hcheck, if_pos rfl]
        exact happly
      · rw [if_neg hcheck, if_pos rfl, Bool.not_false, if_pos rfl]
        refine iff_of_true rfl (ValidPosition.king_step_legal h hf.king (fun hin => hcheck (hf.inCheck.mpr hin)) fun hattacked => ?_)
        rw [hf.turn] at hattacked
        have hyes := (isUnderAttack_iff ht hf.toWhite t).mpr (.inr hattacked)
        rw [hking hq] at hyes
        cases hyes
    · have hours : b.ourPieces.get s = true := by
        obtain ⟨⟨c, type⟩, hq, hpseudo⟩ := h.source
        obtain rfl : c = .white := hpseudo.1.trans hf.turn
        exact (source_iff hf.toWhite s).mpr ⟨type, hq⟩
      rw [if_neg hs, if_neg hs, ValidPosition.legal_iff_lines h hpassing hf.king hs, hf.turn]
      exact tests_iff hf hfew h hours

theorem isLegalMove_castle (ht : initializeMagicBitboards rookNumbers bishopNumbers = .ok tables) (hf : Faces b p)
    (h : p.Castles side) (hsafe : ∀ u ∈ [kingHome .white, rookCastled .white side], ¬ p.board.Attacked .black u) :
    b.isLegalMove tables (encode p.toPosition (.castle side)) b.generateKingAttackInfo = true ↔ p.Legal (.castle side) := by
  have hbits : (Move.whiteCastling 4 (rookFile side)).isEnPassant = false ∧ (Move.whiteCastling 4 (rookFile side)).fromSq = square 4 0 ∧
      (Move.whiteCastling 4 (rookFile side)).isCastling = true := by
    cases side <;> decide
  have hking : b.ourKing = kingHome .white := castle_king hf.shows h
  have hcheck : ¬ b.generateKingAttackInfo.inCheck = true := by
    rw [inCheck_iff hf.kings_apart hf.toWhite, hking]
    exact hsafe _ (List.mem_cons_self)
  have hunder := underCheck_castle ht hf h
  rw [ChessBoard.isLegalMove]
  change (if (Move.whiteCastling 4 (rookFile side)).isEnPassant then _ else _) = true ↔ _
  rw [hbits.1, if_neg (by simp), if_neg hcheck]
  change (if (Move.whiteCastling 4 (rookFile side)).fromSq = b.ourKing then
    (if !(Move.whiteCastling 4 (rookFile side)).isCastling then true else _) else _) = true ↔ _
  rw [hbits.2.1, hbits.2.2, hking, if_pos (by rfl), if_neg (by simp), Bool.not_eq_true', ← Bool.not_eq_true, hunder]
  constructor
  · intro hafter
    refine ValidPosition.castle_legal h ?_ hafter
    rw [hf.turn]
    exact hsafe
  · exact fun hlegal => ValidPosition.castle_safe hlegal

theorem generated_of_legal (ht : initializeMagicBitboards rookNumbers bishopNumbers = .ok tables) (hf : Faces b p) {m : Chess.Move}
    (h : p.Legal m) : Generated b tables p.toPosition m := by
  cases m with
  | plain s t promotion =>
    refine .plain h.1 fun hking => ?_
    rw [← hf.turn] at hking
    have hsafe := ValidPosition.king_step_safe h hking
    rw [← Bool.not_eq_true, isUnderAttack_iff ht hf.toWhite, not_or]
    constructor
    · rintro rfl
      exact ValidPosition.target_not_king h.1 .black hf.theirKing
    · rw [hf.turn] at hsafe
      exact hsafe
  | castle side =>
    obtain ⟨hright, hclear, hsafe⟩ := h
    refine .castle ⟨hright, hclear⟩ fun u hu => ?_
    rw [hf.turn] at hsafe
    simp only [List.mem_cons, List.not_mem_nil, or_false] at hu hsafe
    rcases hu with rfl | rfl
    · exact hsafe _ (.inl rfl)
    · exact hsafe _ (.inr (.inl rfl))

theorem Faces.few (hf : Faces b p) (hfew : p.FewCheckers) : FewCheckers p.board .black b.ourKing := by
  have hking := hfew _ hf.king
  rw [hf.turn] at hking
  exact hking

theorem isLegalMove_generated (ht : initializeMagicBitboards rookNumbers bishopNumbers = .ok tables) (hf : Faces b p)
    (hfew : p.FewCheckers) {m : Chess.Move} (h : Generated b tables p.toPosition m) :
    b.isLegalMove tables (encode p.toPosition m) b.generateKingAttackInfo = true ↔ p.Legal m := by
  cases h with
  | plain h hking => exact isLegalMove_plain ht hf (hf.few hfew) h hking
  | castle h hsafe => exact isLegalMove_castle ht hf h hsafe

theorem generated_legal (ht : initializeMagicBitboards rookNumbers bishopNumbers = .ok tables) (hf : Faces b p) (hfew : p.FewCheckers)
    {m : Move} : m ∈ b.generateLegalMoves tables ↔ ∃ m', p.Legal m' ∧ m = encode p.toPosition m' := by
  rw [ChessBoard.generateLegalMoves, List.mem_filter, mem_generatePseudolegalMoves ht hf]
  constructor
  · rintro ⟨⟨m', hgenerated, rfl⟩, htest⟩
    exact ⟨m', (isLegalMove_generated ht hf hfew hgenerated).mp htest, rfl⟩
  · rintro ⟨m', h, rfl⟩
    have hgenerated := generated_of_legal ht hf h
    exact ⟨⟨m', hgenerated, rfl⟩, (isLegalMove_generated ht hf hfew hgenerated).mpr h⟩

theorem faces_white (hb : Represents b p.toPosition) (hw : p.turn = .white) : Faces b p where
  toWhite := by
    have hshows := hb.placement
    rw [hw] at hshows
    exact white_after hshows (p.one_king .black) fun s hs => p.pawns_inside s _ hs
  turn := hw
  castlings := by rw [hb.castlings, hw]
  marks u := by
    rw [hb.marks u, hw]
    rfl

private theorem straight_flip (x : Option Piece) : straight (x.map Piece.flip) = straight x := by
  rcases x with _ | ⟨c, type⟩ <;> rfl

private theorem diagonal_flip (x : Option Piece) : diagonal (x.map Piece.flip) = diagonal x := by
  rcases x with _ | ⟨c, type⟩ <;> rfl

private theorem isPawn_flip (x : Option Piece) : isPawn (x.map Piece.flip) = isPawn x := by
  rcases x with _ | ⟨c, type⟩ <;> rfl

/-- Black sees the board turned round, with the colours exchanged. -/
theorem shows_flip {board : Chess.Board} (h : Shows b board .black) : Shows b board.flip .white := by
  have howned (c : Color) (x : Option Piece) : owned c (x.map Piece.flip) = owned c.other x := by
    rcases x with _ | ⟨c', type⟩
    · rfl
    · cases c <;> cases c' <;> rfl
  have hking (c : Color) (s : Square) (hs : board (ours .black s) = some ⟨c.other, .king⟩) :
      board.flip (ours .white s) = some ⟨c, .king⟩ := by
    change (board (Chess.mirror s)).map Piece.flip = _
    rw [show board (Chess.mirror s) = some ⟨c.other, .king⟩ from hs, Option.map_some, Piece.flip, Color.other_other]
  exact {
    ourPieces := fun s => (h.ourPieces s).trans (howned .white _).symm
    theirPieces := fun s => (h.theirPieces s).trans (howned .black _).symm
    rooks := fun s => (h.rooks s).trans (straight_flip _).symm
    bishops := fun s => (h.bishops s).trans (diagonal_flip _).symm
    pawns := fun s => (h.pawns s).trans (isPawn_flip _).symm
    ourKing := hking .white _ h.ourKing
    theirKing := hking .black _ h.theirKing }

theorem faces_black (hb : Represents b p.toPosition) (hblack : p.turn = .black) : Faces b p.flip where
  toWhite := by
    have hshows := hb.placement
    rw [hblack] at hshows
    exact white_after (shows_flip hshows) (p.flip.one_king .black) fun s hs => p.flip.pawns_inside s _ hs
  turn := by
    change p.turn.other = .white
    rw [hblack]
    rfl
  castlings := by
    rw [hb.castlings, hblack]
    rfl
  marks u := by
    rw [hb.marks u, hblack]
    apply and_congr_right
    intro _
    constructor
    · rintro ⟨v, hv⟩
      refine ⟨Chess.mirror v, ?_⟩
      rw [← mirror_mirror (square (fileIdx u) 5)]
      exact Position.takesEnPassant_flip.mpr hv
    · rintro ⟨v, hv⟩
      refine ⟨Chess.mirror v, ?_⟩
      rw [← mirror_mirror v, ← mirror_mirror (square (fileIdx u) 5)] at hv
      exact Position.takesEnPassant_flip.mp hv

theorem encode_flip (hblack : p.turn = .black) (m : Chess.Move) : encode p.flip.toPosition m.flip = encode p.toPosition m := by
  have hours (s : Square) : ours p.flip.turn (Chess.mirror s) = ours p.turn s := by
    change ours p.turn.other (Chess.mirror s) = _
    rw [hblack]
    rfl
  cases m with
  | castle side => rfl
  | plain s t promotion =>
    cases promotion with
    | some k =>
      change Move.whitePromotion (ours p.flip.turn (Chess.mirror s)) (ours p.flip.turn (Chess.mirror t)) k = _
      rw [hours, hours]
      rfl
    | none =>
      have hpassing : p.flip.TakesEnPassant (Chess.mirror s) (Chess.mirror t) ↔ p.TakesEnPassant s t := Position.takesEnPassant_flip
      change (if p.flip.TakesEnPassant (Chess.mirror s) (Chess.mirror t)
        then Move.whiteEnPassant (ours p.flip.turn (Chess.mirror s)) (ours p.flip.turn (Chess.mirror t))
        else Move.white (ours p.flip.turn (Chess.mirror s)) (ours p.flip.turn (Chess.mirror t))) = _
      rw [hours, hours]
      exact if_congr hpassing rfl rfl

theorem mem_generateLegalMoves (ht : initializeMagicBitboards rookNumbers bishopNumbers = .ok tables)
    (hb : Represents b p.toPosition) (hfew : p.FewCheckers) (m : Move) :
    m ∈ b.generateLegalMoves tables ↔ ∃ m', p.Legal m' ∧ m = encode p.toPosition m' := by
  cases hturn : p.turn with
  | white => exact generated_legal ht (faces_white hb hturn) hfew
  | black =>
    rw [generated_legal ht (faces_black hb hturn) (GamePosition.few_flip hfew)]
    constructor
    · rintro ⟨m', h, rfl⟩
      rw [← m'.flip_flip] at h
      refine ⟨m'.flip, (Position.legal_flip m'.flip).mp h, ?_⟩
      rw [← encode_flip hturn, Chess.Move.flip_flip]
    · rintro ⟨m', h, rfl⟩
      exact ⟨m'.flip, (Position.legal_flip m').mpr h, (encode_flip hturn m').symm⟩

theorem Faces.kingAttackInfo (hf : Faces b p) (hfew : p.FewCheckers) : b.numKingAttackers ≤ 2 ∧
    (b.generateKingAttackInfo.inCheck = true ↔ p.board.InCheck p.turn) ∧
    (b.generateKingAttackInfo.doubleCheck = true ↔ p.board.DoubleCheck p.turn) := by
  obtain ⟨hle, htwo⟩ := doubleCheck_iff hf.toWhite (hf.few hfew) hf.kings_apart
  refine ⟨hle, hf.inCheck, htwo.trans ?_⟩
  rw [Board.DoubleCheck, hf.turn]
  constructor
  · rintro ⟨u, v, hu, hv, hne⟩
    exact ⟨b.ourKing, u, v, hf.ourKing, hu, hv, hne⟩
  · rintro ⟨k, u, v, hk, hu, hv, hne⟩
    obtain rfl := (p.one_king .white).unique hk hf.ourKing
    exact ⟨u, v, hu, hv, hne⟩

theorem kingAttackInfo (hb : Represents b p.toPosition) (hfew : p.FewCheckers) : b.numKingAttackers ≤ 2 ∧
    (b.generateKingAttackInfo.inCheck = true ↔ p.board.InCheck p.turn) ∧
    (b.generateKingAttackInfo.doubleCheck = true ↔ p.board.DoubleCheck p.turn) := by
  cases hturn : p.turn with
  | white =>
    rw [← hturn]
    exact (faces_white hb hturn).kingAttackInfo hfew
  | black =>
    obtain ⟨hle, hcheck, htwo⟩ := (faces_black hb hturn).kingAttackInfo (GamePosition.few_flip hfew)
    rw [← hturn]
    exact ⟨hle, hcheck.trans (inCheck_flip p.turn), htwo.trans (doubleCheck_flip (c := p.turn))⟩

end

theorem few_start : (knightLine.position 0).FewCheckers := Position.few_of_safe (by decide +kernel)

/-- **Checks.** The assertion that no more than two pieces give check holds at every position of a game, and
lc0 knows of every check and every double check, although it counts all pawns, and all knights, as one. -/
theorem checks_exact (g : Chess.Line) (board : ChessBoard) (gamePly : Int) (hboard : Represents board (g.position 0).toPosition)
    (hfew : (g.position 0).FewCheckers) (k : Nat) (hk : k ≤ g.length) :
    let last := (PositionHistory.ofLine g board gamePly k).last
    last.board.numKingAttackers ≤ 2 ∧
      (last.board.generateKingAttackInfo.inCheck = true ↔ (g.position k).board.InCheck (g.position k).turn) ∧
      (last.board.generateKingAttackInfo.doubleCheck = true ↔ (g.position k).board.DoubleCheck (g.position k).turn) :=
  kingAttackInfo (PositionHistory.tracks_ofLine hboard gamePly k hk).last.board (g.few hfew hk)

def cornerBoard : Chess.Board := fun s =>
  if s = square 6 5 then some ⟨.white, .king⟩ else if s = square 0 6 then some ⟨.white, .queen⟩
  else if s = square 7 7 then some ⟨.black, .king⟩ else none

/-- White mates in one: the black king stands in the corner. -/
def cornered : GamePosition where
  board := cornerBoard
  turn := .white
  castling _ _ := false
  enPassant := none
  halfmoveClock := 0
  fullmoveNumber := 1
  one_king c := ⟨if c = .white then square 6 5 else square 7 7, by cases c <;> decide, by cases c <;> decide +kernel⟩
  castling_home _ _ h := by cases h
  not_in_check := by decide +kernel
  passed_pawn _ h := by cases h
  pawns_inside s c h := by
    rw [cornerBoard] at h
    repeat (split at h; cases h)
    cases h
  passed_rank _ h := by cases h

def queenMove : Chess.Move := .plain (square 0 6) (square 6 6) none

private theorem queen_mates : cornered.Legal queenMove := by decide +kernel

def mateLine : Chess.Line where
  length := 1
  position
    | 0 => cornered
    | _ => cornered.push queenMove queen_mates
  move _ := queenMove
  legal
    | 0, _ => queen_mates
  push
    | 0, _ => rfl

def cornerChessBoard : ChessBoard where
  ourPieces := ⟨0x0001400000000000#64⟩
  theirPieces := ⟨0x8000000000000000#64⟩
  rooks := ⟨0x0001000000000000#64⟩
  bishops := ⟨0x0001000000000000#64⟩
  ourKing := square 6 5
  theirKing := square 7 7

theorem represents_corner : Represents cornerChessBoard cornered.toPosition where
  placement := by constructor <;> decide +kernel
  flipped := by decide
  castlings := by decide
  marks := by decide +kernel

theorem few_corner : (mateLine.position 0).FewCheckers := Position.few_of_safe (by decide +kernel)

theorem mate_inCheck : (mateLine.position 1).board.InCheck (mateLine.position 1).turn := by decide +kernel

theorem mate_checked : (mateLine.position 1).board.InCheck (mateLine.position 1).turn ∧
    let last := (PositionHistory.ofLine mateLine cornerChessBoard 0 1).last
    last.board.numKingAttackers ≤ 2 ∧
      (last.board.generateKingAttackInfo.inCheck = true ↔ (mateLine.position 1).board.InCheck (mateLine.position 1).turn) ∧
      (last.board.generateKingAttackInfo.doubleCheck = true ↔ (mateLine.position 1).board.DoubleCheck (mateLine.position 1).turn) :=
  ⟨mate_inCheck, checks_exact mateLine cornerChessBoard 0 represents_corner few_corner 1 le_rfl⟩

end ChessAnalytics.Lc0.Board
