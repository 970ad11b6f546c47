import ChessAnalytics.Stockfish.Printer
import ChessAnalytics.Lc0.Decoding
import ChessAnalytics.Lc0.Moves
import ChessAnalytics.Surprise.Metrics

/-! The spellings of one move that meet in an analysis: Stockfish's variation, lc0's best move,
the text of the move played, and the policy lines of lc0. -/
namespace ChessAnalytics.Surprise
open Strings Chess Lc0

def stockfishPromotion : Promotion → Stockfish.PromotionType
  | .knight => .knight
  | .bishop => .bishop
  | .rook => .rook
  | .queen => .queen

/-- The move as Stockfish stores it; castling is "king takes rook". -/
def stockfishMove (p : Position) : Chess.Move → Stockfish.Move
  | .plain s t (some k) => ⟨s, t, .promotion, stockfishPromotion k⟩
  | .plain s t none => ⟨s, t, if p.TakesEnPassant s t then .enPassant else .normal, .knight⟩
  | .castle side => ⟨kingHome p.turn, rookHome p.turn side, .castling, .knight⟩

def IsCastling : Chess.Move → Prop
  | .plain .. => False
  | .castle _ => True

instance : (m : Chess.Move) → Decidable (IsCastling m)
  | .plain .. => .isFalse id
  | .castle _ => .isTrue trivial

theorem stockfish_spells {p : Position} {m : Chess.Move} (h : p.Legal m) :
    Stockfish.move (stockfishMove p m) false = m.uci p.turn := by
  cases m with
  | castle side =>
    rw [stockfishMove]
    cases p.turn <;> cases side <;> decide
  | plain s t promotion =>
    have hst := Position.source_ne_target h
    have hspecial (ty : Stockfish.MoveType) (k : Stockfish.PromotionType) :
        (⟨s, t, ty, k⟩ : Stockfish.Move) ≠ .none ∧ (⟨s, t, ty, k⟩ : Stockfish.Move) ≠ .null := by
      constructor <;> intro he
      · exact hst ((congrArg Stockfish.Move.fromSq he).trans (congrArg Stockfish.Move.toSq he).symm)
      · exact hst ((congrArg Stockfish.Move.fromSq he).trans (congrArg Stockfish.Move.toSq he).symm)
    rcases promotion with _ | k
    · rw [stockfishMove, Stockfish.move, if_neg (hspecial _ _).1, if_neg (hspecial _ _).2]
      split <;> rfl
    · rw [stockfishMove, Stockfish.move, if_neg (hspecial _ _).1, if_neg (hspecial _ _).2]
      cases k <;> rfl

/-- A policy line spells a legal move by its UCI text only when the line is the move's own and the
move is not castling. -/
theorem policy_spells {p : Position} {m m' : Chess.Move} (h : p.Legal m) (h' : p.Legal m') :
    (shownMove p m').toString true = m.uci p.turn ↔ m' = m ∧ ¬ IsCastling m := by
  have hrook (side : Side) : ¬ Adjacent (kingHome p.turn) (rookHome p.turn side) := by
    cases p.turn <;> cases side <;> decide
  have hking (side : Side) : ¬ Adjacent (kingHome p.turn) (kingCastled p.turn side) := by
    cases p.turn <;> cases side <;> decide
  have hnone (s t : Square) : squareName s ++ squareName t = squareName s ++ squareName t ++ promotionText none :=
    (List.append_nil _).symm
  constructor
  · intro htext
    cases m' with
    | plain s' t' promotion' =>
      rw [toString_plain] at htext
      cases m with
      | plain s t promotion =>
        obtain ⟨rfl, rfl, rfl⟩ := text_injective htext
        exact ⟨rfl, id⟩
      | castle side =>
        rw [Chess.Move.uci, Chess.Move.uci, hnone (kingHome _)] at htext
        obtain ⟨rfl, rfl, -⟩ := text_injective htext
        exact absurd (Position.adjacent_of_king h' (Position.king_of_castle (Position.castles_of_legal h))) (hking side)
    | castle side' =>
      rw [toString_castle] at htext
      cases m with
      | plain s t promotion =>
        rw [Chess.Move.uci, hnone (kingHome _)] at htext
        obtain ⟨rfl, rfl, -⟩ := text_injective htext
        exact absurd (Position.adjacent_of_king h (Position.king_of_castle (Position.castles_of_legal h'))) (hrook side')
      | castle side =>
        revert htext
        rw [Chess.Move.uci]
        cases p.turn <;> cases side <;> cases side' <;> decide
  · rintro ⟨rfl, hm⟩
    cases m' with
    | plain s t promotion => exact toString_plain p s t promotion true
    | castle side => exact absurd trivial hm

/-- A root edge: its move, and what the verbose line shows of it. -/
structure Edge where
  move : Chess.Move
  index : Nat
  n : Nat
  nInFlight : Nat
  p : NNRat
  node : Option NodeStats
  u : CFloat
  s : CFloat

/-- The edge as `GetVerboseStats` prints it. -/
def Edge.printed (pos : Position) (e : Edge) : RootEdge :=
  ⟨⟨(shownMove pos e.move).toString true, isMoveText_toString pos e.move true⟩,
    e.index, e.n, e.nInFlight, e.p, e.node, e.u, e.s⟩

/-- A search of lc0: the root has one edge for each legal move, and the best move is one of them. -/
structure RootSearch (pos : Position) where
  pre : List Preliminary
  edges : List Edge
  node : RootNode
  best : Chess.Move
  ponder : Option MoveText
  edges_legal : (edges.map Edge.move).Perm pos.legalMoves
  best_legal : pos.Legal best

/-- The best move with `UCI_Chess960` at its default. -/
def RootSearch.bestInfo {pos : Position} (search : RootSearch pos) : BestMoveInfo where
  bestmove := ⟨(shownMove pos search.best).toString false, isMoveText_toString pos search.best false⟩
  ponder := search.ponder

/-- The lines of the search, up to its bestmove line. -/
def RootSearch.lines {pos : Position} (search : RootSearch pos) (f32 : NNRat → NNRat) (fpu : CFloat)
    (showMovesleft : Bool) : List Str :=
  answerLines f32 fpu showMovesleft search.pre (search.edges.map (Edge.printed pos)) search.node search.bestInfo

def Edge.printedPrior (f32 : NNRat → NNRat) (e : Edge) : ℚ := printedPercent f32 e.p / 100

section
variable {pos : Position} (search : RootSearch pos) (f32 : NNRat → NNRat)

theorem RootSearch.legal {e : Edge} (he : e ∈ search.edges) : pos.Legal e.move :=
  Position.mem_legalMoves.mp (search.edges_legal.mem_iff.mp (List.mem_map_of_mem he))

theorem RootSearch.edge_of_legal {m : Chess.Move} (hm : pos.Legal m) : ∃ e ∈ search.edges, e.move = m :=
  List.mem_map.mp (search.edges_legal.mem_iff.mpr (Position.mem_legalMoves.mpr hm))

def RootSearch.printedPolicy : Policy := (search.edges.map (Edge.printed pos)).map (printedEdge f32)

theorem RootSearch.printedPolicy_eq : search.printedPolicy f32 =
    search.edges.map (fun e => ((shownMove pos e.move).toString true, e.printedPrior f32)) := by
  rw [RootSearch.printedPolicy, List.map_map]
  rfl

private theorem filter_move {edges : List Edge} (hn : (edges.map Edge.move).Nodup) {e : Edge} (he : e ∈ edges) :
    edges.filter (fun x => x.move = e.move) = [e] := by
  induction edges with
  | nil => cases he
  | cons x edges ih =>
    rw [List.map_cons, List.nodup_cons] at hn
    rcases List.mem_cons.mp he with rfl | he
    · have hrest : edges.filter (fun x => x.move = e.move) = [] := by
        rw [List.filter_eq_nil_iff]
        intro y hy hmove
        exact hn.1 (by rw [← of_decide_eq_true hmove]; exact List.mem_map_of_mem hy)
      rw [List.filter_cons_of_pos (by simp), hrest]
    · have hx : x.move ≠ e.move := fun h => hn.1 (h ▸ List.mem_map_of_mem he)
      rw [List.filter_cons_of_neg (by simpa using hx), ih hn.2 he]

theorem RootSearch.entries_printed {e : Edge} (he : e ∈ search.edges) :
    entriesOf (search.printedPolicy f32) (e.move.uci pos.turn) =
      if IsCastling e.move then [] else [(e.move.uci pos.turn, e.printedPrior f32)] := by
  have hfilter : entriesOf (search.printedPolicy f32) (e.move.uci pos.turn) =
      (search.edges.filter (fun x => x.move = e.move ∧ ¬ IsCastling e.move)).map
        (fun e => ((shownMove pos e.move).toString true, e.printedPrior f32)) := by
    rw [entriesOf, search.printedPolicy_eq, List.filter_map]
    refine congrArg _ (List.filter_congr fun x hx => ?_)
    exact decide_eq_decide.mpr (policy_spells (search.legal he) (search.legal hx))
  rw [hfilter]
  split
  · rename_i hc
    rw [List.filter_eq_nil_iff.mpr (fun x _ h => (of_decide_eq_true h).2 hc)]
    rfl
  · rename_i hc
    have hn : (search.edges.map Edge.move).Nodup := search.edges_legal.nodup_iff.mpr pos.legalMoves_nodup
    rw [List.filter_congr (q := fun x => decide (x.move = e.move)) (fun x _ => by simp [hc]), filter_move hn he,
      List.map_singleton, (policy_spells (search.legal he) (search.legal he)).mpr ⟨rfl, hc⟩]

private theorem entries_sorted {policy : Policy} {moveUci : Str} {entries : Policy}
    (h : entriesOf policy moveUci = entries) (hlen : entries.length ≤ 1) :
    entriesOf (sortPolicy policy) moveUci = entries := by
  have hperm : (entriesOf (sortPolicy policy) moveUci).Perm entries := h ▸ (sortPolicy_perm policy).filter _
  match entries, hlen with
  | [], _ => exact List.perm_nil.mp hperm
  | [x], _ => exact List.perm_singleton.mp hperm

theorem RootSearch.entries_policy {e : Edge} (he : e ∈ search.edges) :
    entriesOf (sortPolicy (search.printedPolicy f32)) (e.move.uci pos.turn) =
      if IsCastling e.move then [] else [(e.move.uci pos.turn, e.printedPrior f32)] :=
  entries_sorted (search.entries_printed f32 he) (by split <;> simp)

theorem RootSearch.query_lines (fpu : CFloat) (showMovesleft : Bool) (rest : List (Option Str)) :
    ∃ h, query ((search.lines f32 fpu showMovesleft).map some ++ rest) = .ok h ∧
      h.policy = sortPolicy (search.printedPolicy f32) ∧ h.bestmove = some (search.best.uci pos.turn) := by
  refine ⟨_, query_answer f32 fpu showMovesleft search.pre _ search.node search.bestInfo rest, rfl, ?_⟩
  exact congrArg some (toString_standard pos search.best)

/-- The best move of the search is in the policy exactly when it is not castling. -/
theorem RootSearch.best_in_policy :
    (∃ p, (search.best.uci pos.turn, p) ∈ sortPolicy (search.printedPolicy f32)) ↔ ¬ IsCastling search.best := by
  obtain ⟨e, he, hbest⟩ := search.edge_of_legal search.best_legal
  have hentries := search.entries_policy f32 he
  rw [hbest] at hentries
  constructor
  · rintro ⟨p, hp⟩ hc
    rw [if_pos hc] at hentries
    exact List.filter_eq_nil_iff.mp hentries _ hp (by simp)
  · intro hc
    rw [if_neg hc] at hentries
    exact ⟨_, List.mem_of_mem_filter (hentries ▸ List.mem_singleton_self _)⟩

/-- An edge's move is found under its printed prior exactly when it is not castling and the
prior does not print as zero. -/
theorem RootSearch.found_iff {e : Edge} (he : e ∈ search.edges) :
    Found (sortPolicy (search.printedPolicy f32)) (e.move.uci pos.turn) (e.printedPrior f32) ↔
      ¬ IsCastling e.move ∧ 0 < e.printedPrior f32 := by
  have hentries := search.entries_policy f32 he
  by_cases hc : IsCastling e.move
  · rw [if_pos hc] at hentries
    exact iff_of_false (not_found_of_absent hentries _) (fun h => h.1 hc)
  · rw [if_neg hc] at hentries
    rw [found_iff_of_entry hentries, and_iff_right hc]

end

/-- For every legal move of a position the three programs agree on its UCI text. The policy of the
query carries that text once, with the printed prior, exactly when the move is not castling; the
metrics find it exactly when moreover its prior does not print as zero; and the best move is in the
policy exactly when it is not castling itself. -/
theorem policy_carries_iff (f32 : NNRat → NNRat) (fpu : CFloat) (showMovesleft : Bool) {pos : Position}
    (search : RootSearch pos) (rest : List (Option Str)) {m : Chess.Move} (hm : pos.Legal m) :
    Stockfish.move (stockfishMove pos m) false = m.uci pos.turn ∧
    (shownMove pos m).toString false = m.uci pos.turn ∧
    ∃ h, query ((search.lines f32 fpu showMovesleft).map some ++ rest) = .ok h ∧
      h.bestmove = some (search.best.uci pos.turn) ∧
      (∃ e ∈ search.edges, e.move = m ∧
        (entriesOf h.policy (m.uci pos.turn) = [(m.uci pos.turn, e.printedPrior f32)] ↔ ¬ IsCastling m) ∧
        (Found h.policy (m.uci pos.turn) (e.printedPrior f32) ↔ ¬ IsCastling m ∧ 0 < e.printedPrior f32)) ∧
      ((∃ b ∈ h.bestmove, ∃ p, (b, p) ∈ h.policy) ↔ ¬ IsCastling search.best) := by
  obtain ⟨e, he, rfl⟩ := search.edge_of_legal hm
  obtain ⟨h, hquery, hpolicy, hbest⟩ := search.query_lines f32 fpu showMovesleft rest
  refine ⟨stockfish_spells hm, toString_standard pos e.move, h, hquery, hbest, ⟨e, he, rfl, ?_, ?_⟩, ?_⟩
  · rw [hpolicy, search.entries_policy f32 he]
    split <;> simp [*]
  · rw [hpolicy]
    exact search.found_iff f32 he
  · rw [hbest, hpolicy, ← search.best_in_policy f32]
    simp

/-- White: king e1, rook h1; black: king e8; white to move may castle. -/
def castlingBoard : Board := fun s =>
  if s = square 4 0 then some ⟨.white, .king⟩ else if s = square 7 0 then some ⟨.white, .rook⟩
  else if s = square 4 7 then some ⟨.black, .king⟩ else none

def castlingPosition : Position where
  board := castlingBoard
  turn := .white
  castling c side := c = .white ∧ side = .king
  enPassant := none
  halfmoveClock := 0
  fullmoveNumber := 1
  one_king c := by
    cases c
    · exact ⟨square 4 0, by decide, by decide⟩
    · exact ⟨square 4 7, by decide, by decide⟩
  castling_home := by
    intro c side h
    obtain ⟨rfl, rfl⟩ := of_decide_eq_true h
    decide

private theorem castling_legal : castlingPosition.Legal (.castle .king) := by decide +kernel

private theorem king_step_legal : castlingPosition.Legal (.plain (square 4 0) (square 5 0) none) := by decide +kernel

def plainEdge (m : Chess.Move) : Edge := ⟨m, 0, 1, 0, 1 / 2, none, .finite false 0, .finite false 0⟩

def rootNode : RootNode :=
  ⟨15, 100, 0, 1, false, 0, ⟨.finite false 0, .finite false 0, .finite false 0, .finite false 0, none, .open⟩, rfl⟩

/-- A search of the position that gives every move the same prior. -/
def castlingSearch (best : Chess.Move) (h : castlingPosition.Legal best) : RootSearch castlingPosition where
  pre := []
  edges := castlingPosition.legalMoves.map plainEdge
  node := rootNode
  best := best
  ponder := none
  edges_legal := by
    rw [List.map_map]
    exact (List.map_id castlingPosition.legalMoves).symm ▸ List.Perm.refl _
  best_legal := h

/-- The king's step to f1 has its one entry, and castling as a best move is not in the policy. -/
theorem king_step_carried :
    ∃ h, query (((castlingSearch _ castling_legal).lines id (.finite false 0) false).map some ++ []) = .ok h ∧
      (∃ p, entriesOf h.policy "e1f1".toList = [("e1f1".toList, p)]) ∧
      ¬ ∃ b ∈ h.bestmove, ∃ p, (b, p) ∈ h.policy := by
  obtain ⟨-, -, h, hquery, -, ⟨e, -, -, hentries, -⟩, hbest⟩ :=
    policy_carries_iff id (.finite false 0) false (castlingSearch _ castling_legal) [] king_step_legal
  exact ⟨h, hquery, ⟨_, hentries.mpr id⟩, fun hb => hbest.mp hb trivial⟩

/-- Castling is printed as "e1h1" in the policy, so no entry carries "e1g1". -/
theorem castling_not_carried :
    ¬ ∀ (pos : Position) (search : RootSearch pos) (m : Chess.Move), pos.Legal m →
      ∃ h, query ((search.lines id (.finite false 0) false).map some) = .ok h ∧
        ∃ e ∈ search.edges, e.move = m ∧ entriesOf h.policy (m.uci pos.turn) = [(m.uci pos.turn, e.printedPrior id)] := by
  intro hall
  obtain ⟨h, hquery, e, he, hmove, hentries⟩ :=
    hall castlingPosition (castlingSearch _ castling_legal) (.castle .king) castling_legal
  obtain ⟨h', hquery', hpolicy, -⟩ :=
    (castlingSearch _ castling_legal).query_lines id (.finite false 0) false []
  rw [List.append_nil, hquery] at hquery'
  obtain rfl := Except.ok.inj hquery'
  have habsent := (castlingSearch _ castling_legal).entries_policy id he
  rw [hmove, if_pos (id trivial : IsCastling (.castle .king)), ← hpolicy, hentries] at habsent
  cases habsent

end ChessAnalytics.Surprise
