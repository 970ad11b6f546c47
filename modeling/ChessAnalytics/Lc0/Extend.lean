import ChessAnalytics.Lc0.Perft
import ChessAnalytics.Lc0.Results

/-! What the search makes of a position that it comes to: an end of the game, or a node with an edge for
every legal move. -/
namespace ChessAnalytics.Lc0.Board
open Strings Chess

/-- `Node::Terminal`, without tablebases. -/
inductive Terminal where
  | endOfGame | twoFold
  deriving DecidableEq, Repr

/-- What becomes of a node: `MakeTerminal` with a result, the plies that are left and the kind of the end,
or `CreateEdges`. -/
inductive Extension where
  | terminal (result : GameResult) (pliesLeft : Nat) (kind : Terminal)
  | edges (legalMoves : List Move)

def Extension.result : Extension → Option GameResult
  | terminal result _ _ => some result
  | edges _ => none

/-- What `ExtendNode` does with the last position. A win for White is a win for the side that has moved. -/
def extendPosition (tables : AttackTables) (twoFoldDraws : Bool) (last : HistoryPosition) (isRoot : Bool) (depth : Int) : Extension :=
  let legalMoves := last.board.generateLegalMoves tables
  if legalMoves.isEmpty then
    if last.board.isUnderCheck tables then .terminal .whiteWon 0 .endOfGame else .terminal .draw 0 .endOfGame
  -- at the root the draws by rule do not end the search
  else if isRoot then .edges legalMoves
  else if !last.board.hasMatingMaterial then .terminal .draw 0 .endOfGame
  else if 100 ≤ last.rule50Ply then .terminal .draw 0 .endOfGame
  else if 2 ≤ last.repetitions then .terminal .draw 0 .endOfGame
  else if last.repetitions = 1 ∧ 4 ≤ depth - 1 ∧ twoFoldDraws ∧ last.cycleLength ≤ depth - 1 then
    .terminal .draw last.cycleLength .twoFold
  else .edges legalMoves

/-- `ExtendNode`, without tablebases: the moves to the node are made behind the played history. -/
def extendNode (tables : AttackTables) (twoFoldDraws : Bool) (playedHistory : PositionHistory) (movesToNode : List Move)
    (isRoot : Bool) (depth : Int) : Extension :=
  extendPosition tables twoFoldDraws (movesToNode.foldl PositionHistory.append playedHistory).last isRoot depth

/-- The moves of a game behind one of its positions, as edges. -/
def movesBehind (g : Chess.Line) (root n : Nat) : List Move :=
  (List.range n).map fun i => encode (g.position (root + i)).toPosition (g.move (root + i))

theorem history_behind (g : Chess.Line) (board : ChessBoard) (gamePly : Int) (root n : Nat) :
    (movesBehind g root n).foldl PositionHistory.append (PositionHistory.ofLine g board gamePly root) =
      PositionHistory.ofLine g board gamePly (root + n) := by
  induction n with
  | zero => rfl
  | succ n ih =>
    rw [movesBehind, List.range_succ, List.map_append, List.foldl_append]
    rw [movesBehind] at ih
    rw [ih]
    rfl

def RepeatsSince (g : Chess.Line) (root k : Nat) : Prop :=
  ∃ i, root ≤ i ∧ i < k ∧ (g.position i).Same (g.position k).toPosition

/-- Where the search may call the node drawn although the game could go on. -/
def SearchDrawn (g : Chess.Line) (twoFoldDraws : Bool) (root k : Nat) : Prop :=
  (g.position k).board.Insufficient ∨ 100 ≤ (g.position k).halfmoveClock ∨ 2 ≤ g.earlier k ∨ twoFoldDraws = true ∧ RepeatsSince g root k

section
variable {g : Chess.Line} {root k : Nat} {last : HistoryPosition}
variable {rookNumbers bishopNumbers : Option (Square → BitVec 64)} {tables : AttackTables}

theorem twoFold_iff (hlast : PositionHistory.Counted g k last) (hk : k ≤ g.length) (hroot : root ≤ k) (hthird : ¬ 2 ≤ g.earlier k) :
    last.repetitions = 1 ∧ 4 ≤ ((k - root : Nat) : Int) ∧ (last.cycleLength : Int) ≤ ((k - root : Nat) : Int) ↔ RepeatsSince g root k := by
  rw [hlast.repetitions]
  rcases hlast.cycleLength with ⟨-, hnone⟩ | ⟨hpos, hle, hsame, hlatest⟩
  · refine iff_of_false (fun hone => ?_) (fun hrepeats => ?_)
    · rw [g.earlier_of_none hnone] at hone
      cases hone.1
    · obtain ⟨i, -, hi, hsame⟩ := hrepeats
      exact hnone i hi hsame
  · obtain ⟨-, hfour, -⟩ := g.same_apart (show k - last.cycleLength < k by omega) hk hsame
    have hearlier : 0 < g.earlier k := g.earlier_pos.mpr ⟨_, by omega, hsame⟩
    constructor
    · rintro ⟨-, -, hcycle⟩
      exact ⟨k - last.cycleLength, by omega, by omega, hsame⟩
    · rintro ⟨i, hi, hik, hsame'⟩
      have hbefore : i ≤ k - last.cycleLength := by
        by_contra hbehind
        exact hlatest i hik (by omega) hsame'
      refine ⟨?_, ?_, ?_⟩ <;> omega

theorem extend_over (ht : initializeMagicBitboards rookNumbers bishopNumbers = .ok tables) (hlast : PositionHistory.Counted g k last)
    (hfew : (g.position k).FewCheckers) (hnone : ∀ m, ¬ (g.position k).Legal m)
    (twoFoldDraws isRoot : Bool) (depth : Int) :
    (extendPosition tables twoFoldDraws last isRoot depth).result =
      some (if (g.position k).board.InCheck (g.position k).turn then .whiteWon else .draw) := by
  rw [extendPosition, if_pos ((legalMoves_isEmpty ht hlast.board hfew).mpr hnone)]
  by_cases hcheck : (g.position k).board.InCheck (g.position k).turn
  · rw [if_pos ((underCheck ht hlast.board).mpr hcheck), if_pos hcheck]
    rfl
  · rw [if_neg fun hunder => hcheck ((underCheck ht hlast.board).mp hunder), if_neg hcheck]
    rfl

theorem extend_goes_on (ht : initializeMagicBitboards rookNumbers bishopNumbers = .ok tables) (hlast : PositionHistory.Counted g k last)
    (hfew : (g.position k).FewCheckers) (hsome : ∃ m, (g.position k).Legal m) (hk : k ≤ g.length) (hroot : root ≤ k)
    (twoFoldDraws : Bool) :
    let node := extendPosition tables twoFoldDraws last (decide (k = root)) ((k - root : Nat) + 1)
    (root < k ∧ SearchDrawn g twoFoldDraws root k ∧ node.result = some .draw) ∨
      ¬ (root < k ∧ SearchDrawn g twoFoldDraws root k) ∧ node = .edges (last.board.generateLegalMoves tables) := by
  intro node
  have hnode : node = extendPosition tables twoFoldDraws last (decide (k = root)) ((k - root : Nat) + 1) := rfl
  rw [extendPosition, if_neg fun hempty => not_exists.mpr ((legalMoves_isEmpty ht hlast.board hfew).mp hempty) hsome] at hnode
  by_cases hbelow : k = root
  · rw [if_pos (decide_eq_true hbelow)] at hnode
    exact .inr ⟨fun hdrawn => by omega, hnode⟩
  · have hlt : root < k := by omega
    rw [if_neg (by rw [decide_eq_true_iff]; exact hbelow)] at hnode
    by_cases hinsufficient : (g.position k).board.Insufficient
    · rw [if_pos (hlast.material.mpr hinsufficient)] at hnode
      exact .inl ⟨hlt, .inl hinsufficient, by rw [hnode]; rfl⟩
    · rw [if_neg fun hmissing => hinsufficient (hlast.material.mp hmissing)] at hnode
      by_cases hfifty : 100 ≤ (g.position k).halfmoveClock
      · rw [if_pos (hlast.fifty.mpr hfifty)] at hnode
        exact .inl ⟨hlt, .inr (.inl hfifty), by rw [hnode]; rfl⟩
      · rw [if_neg fun hplies => hfifty (hlast.fifty.mp hplies)] at hnode
        by_cases hthird : 2 ≤ g.earlier k
        · rw [if_pos (by rw [hlast.repetitions]; exact hthird)] at hnode
          exact .inl ⟨hlt, .inr (.inr (.inl hthird)), by rw [hnode]; rfl⟩
        · rw [if_neg (by rw [hlast.repetitions]; exact hthird), add_sub_cancel_right] at hnode
          have htwo := twoFold_iff hlast hk hroot hthird
          by_cases hrepeats : twoFoldDraws = true ∧ RepeatsSince g root k
          · obtain ⟨hone, hfour, hcycle⟩ := htwo.mpr hrepeats.2
            rw [if_pos ⟨hone, hfour, hrepeats.1, hcycle⟩] at hnode
            exact .inl ⟨hlt, .inr (.inr (.inr hrepeats)), by rw [hnode]; rfl⟩
          · rw [if_neg fun ⟨hone, hfour, hdraws, hcycle⟩ => hrepeats ⟨hdraws, htwo.mp ⟨hone, hfour, hcycle⟩⟩] at hnode
            refine .inr ⟨?_, hnode⟩
            rintro ⟨-, h | h | h | h⟩
            · exact hinsufficient h
            · exact hfifty h
            · exact hthird h
            · exact hrepeats h

end

/-- **Leaves of the search.** For every game and every node at or behind its root, the search sees a mate
exactly where there is one, and a draw exactly at stalemate or, behind the root, where the rules draw the
game or, if asked for, where the position has come since the root. Any other node gets the legal moves as
its edges. -/
theorem extendNode_exact (rookNumbers bishopNumbers : Option (Square → BitVec 64)) (tables : AttackTables)
    (ht : initializeMagicBitboards rookNumbers bishopNumbers = .ok tables) (g : Chess.Line) (board : ChessBoard) (gamePly : Int)
    (hboard : Represents board (g.position 0).toPosition) (hfew : (g.position 0).FewCheckers) (twoFoldDraws : Bool)
    (root n : Nat) (hn : root + n ≤ g.length) :
    let p := g.position (root + n)
    let node := extendNode tables twoFoldDraws (PositionHistory.ofLine g board gamePly root) (movesBehind g root n) (decide (n = 0)) (n + 1)
    (node.result = some .whiteWon ↔ p.Checkmate) ∧
      (node.result = some .draw ↔ p.Stalemate ∨ 0 < n ∧ (∃ m, p.Legal m) ∧ SearchDrawn g twoFoldDraws root (root + n)) ∧
      (node.result ≠ some .whiteWon → node.result ≠ some .draw →
        ∃ moves, node = .edges moves ∧ moves.Perm (p.legalMoves.map (encode p.toPosition))) := by
  have hlast := (PositionHistory.tracks_ofLine hboard gamePly (root + n) hn).last
  have hchecks := g.few hfew hn
  intro p node
  have hroot : decide (n = 0) = decide (root + n = root) := by
    rw [decide_eq_decide]
    omega
  have hdepth : ((n : Nat) : Int) + 1 = ((root + n - root : Nat) : Int) + 1 := by
    rw [Nat.add_sub_cancel_left]
  have hnode : node = extendPosition tables twoFoldDraws (PositionHistory.ofLine g board gamePly (root + n)).last
      (decide (root + n = root)) ((root + n - root : Nat) + 1) := by
    rw [← history_behind, ← hroot, ← hdepth]
    rfl
  have hdrawn : 0 < n ↔ root < root + n := by omega
  by_cases hsome : ∃ m, p.Legal m
  · have hmate : ¬ p.Checkmate := fun hmate => not_exists.mpr hmate.2 hsome
    have hstale : ¬ p.Stalemate := fun hstale => not_exists.mpr hstale.2 hsome
    rw [or_iff_right hstale, hdrawn, and_iff_right hsome]
    rcases extend_goes_on ht hlast hchecks hsome hn (Nat.le_add_right root n) twoFoldDraws with ⟨hlt, hdraw, hresult⟩ | ⟨hnot, hedges⟩
    · rw [← hnode] at hresult
      rw [hresult]
      exact ⟨iff_of_false (by simp) hmate, iff_of_true rfl ⟨hlt, hdraw⟩, fun _ hne => absurd rfl hne⟩
    · rw [← hnode] at hedges
      rw [hedges]
      exact ⟨iff_of_false (by simp [Extension.result]) hmate, iff_of_false (by simp [Extension.result]) hnot,
        fun _ _ => ⟨_, rfl, legalMoves_perm ht hlast.board hchecks⟩⟩
  · have hnone := not_exists.mp hsome
    have hresult : node.result = some (if p.board.InCheck p.turn then .whiteWon else .draw) := by
      rw [hnode]
      exact extend_over ht hlast hchecks hnone _ _ _
    rw [hresult]
    by_cases hcheck : p.board.InCheck p.turn
    · have hmate : p.Checkmate := ⟨hcheck, hnone⟩
      have hstale : ¬ p.Stalemate := fun hstale => hstale.1 hcheck
      rw [if_pos hcheck]
      exact ⟨iff_of_true rfl hmate, iff_of_false (by simp) fun h => h.elim hstale fun h => hsome h.2.1, fun hne => absurd rfl hne⟩
    · have hmate : ¬ p.Checkmate := fun hmate => hcheck hmate.1
      have hstale : p.Stalemate := ⟨hcheck, hnone⟩
      rw [if_neg hcheck]
      exact ⟨iff_of_false (by simp) hmate, iff_of_true rfl (.inl hstale), fun _ hne => absurd rfl hne⟩

/-- With the knights at home again, four plies behind the root. -/
theorem knights_extended : ∃ tables, initializeMagicBitboards none none = .ok tables ∧
    let p := knightLine.position (0 + 4)
    let node := extendNode tables true (PositionHistory.ofLine knightLine standardBoard 0 0) (movesBehind knightLine 0 4) (decide (4 = 0)) ((4 : Nat) + 1)
    (node.result = some .whiteWon ↔ p.Checkmate) ∧
      (node.result = some .draw ↔ p.Stalemate ∨ 0 < 4 ∧ (∃ m, p.Legal m) ∧ SearchDrawn knightLine true 0 (0 + 4)) ∧
      (node.result ≠ some .whiteWon → node.result ≠ some .draw →
        ∃ moves, node = .edges moves ∧ moves.Perm (p.legalMoves.map (encode p.toPosition))) := by
  obtain ⟨tables, ht⟩ := initialize_pext
  exact ⟨tables, ht, extendNode_exact none none tables ht knightLine standardBoard 0 represents_start few_start true 0 4 (by decide)⟩

end ChessAnalytics.Lc0.Board
