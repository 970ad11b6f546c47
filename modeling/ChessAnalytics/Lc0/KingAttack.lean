import ChessAnalytics.Chess.Threats
import ChessAnalytics.Lc0.Movegen

/-! What lc0 finds out about its king before it asks which moves are legal: the lines of the pieces that
give check, and its own pieces that are pinned. -/
namespace ChessAnalytics.Lc0.Board
open Strings Chess

/-- Which squares a rook attacks on an empty board. -/
def rookAttacks : List (BitVec 64) :=
  [0x01010101010101FE, 0x02020202020202FD, 0x04040404040404FB, 0x08080808080808F7,
   0x10101010101010EF, 0x20202020202020DF, 0x40404040404040BF, 0x808080808080807F,
   0x010101010101FE01, 0x020202020202FD02, 0x040404040404FB04, 0x080808080808F708,
   0x101010101010EF10, 0x202020202020DF20, 0x404040404040BF40, 0x8080808080807F80,
   0x0101010101FE0101, 0x0202020202FD0202, 0x0404040404FB0404, 0x0808080808F70808,
   0x1010101010EF1010, 0x2020202020DF2020, 0x4040404040BF4040, 0x80808080807F8080,
   0x01010101FE010101, 0x02020202FD020202, 0x04040404FB040404, 0x08080808F7080808,
   0x10101010EF101010, 0x20202020DF202020, 0x40404040BF404040, 0x808080807F808080,
   0x010101FE01010101, 0x020202FD02020202, 0x040404FB04040404, 0x080808F708080808,
   0x101010EF10101010, 0x202020DF20202020, 0x404040BF40404040, 0x8080807F80808080,
   0x0101FE0101010101, 0x0202FD0202020202, 0x0404FB0404040404, 0x0808F70808080808,
   0x1010EF1010101010, 0x2020DF2020202020, 0x4040BF4040404040, 0x80807F8080808080,
   0x01FE010101010101, 0x02FD020202020202, 0x04FB040404040404, 0x08F7080808080808,
   0x10EF101010101010, 0x20DF202020202020, 0x40BF404040404040, 0x807F808080808080,
   0xFE01010101010101, 0xFD02020202020202, 0xFB04040404040404, 0xF708080808080808,
   0xEF10101010101010, 0xDF20202020202020, 0xBF40404040404040, 0x7F80808080808080]

/-- Which squares a bishop attacks on an empty board. -/
def bishopAttacks : List (BitVec 64) :=
  [0x8040201008040200, 0x0080402010080500, 0x0000804020110A00, 0x0000008041221400,
   0x0000000182442800, 0x0000010204885000, 0x000102040810A000, 0x0102040810204000,
   0x4020100804020002, 0x8040201008050005, 0x00804020110A000A, 0x0000804122140014,
   0x0000018244280028, 0x0001020488500050, 0x0102040810A000A0, 0x0204081020400040,
   0x2010080402000204, 0x4020100805000508, 0x804020110A000A11, 0x0080412214001422,
   0x0001824428002844, 0x0102048850005088, 0x02040810A000A010, 0x0408102040004020,
   0x1008040200020408, 0x2010080500050810, 0x4020110A000A1120, 0x8041221400142241,
   0x0182442800284482, 0x0204885000508804, 0x040810A000A01008, 0x0810204000402010,
   0x0804020002040810, 0x1008050005081020, 0x20110A000A112040, 0x4122140014224180,
   0x8244280028448201, 0x0488500050880402, 0x0810A000A0100804, 0x1020400040201008,
   0x0402000204081020, 0x0805000508102040, 0x110A000A11204080, 0x2214001422418000,
   0x4428002844820100, 0x8850005088040201, 0x10A000A010080402, 0x2040004020100804,
   0x0200020408102040, 0x0500050810204080, 0x0A000A1120408000, 0x1400142241800000,
   0x2800284482010000, 0x5000508804020100, 0xA000A01008040201, 0x4000402010080402,
   0x0002040810204080, 0x0005081020408000, 0x000A112040800000, 0x0014224180000000,
   0x0028448201000000, 0x0050880402010000, 0x00A0100804020100, 0x0040201008040201]

def rookAttacksOn (s : Square) : BitBoard := ⟨rookAttacks.getD s.val 0⟩
def bishopAttacksOn (s : Square) : BitBoard := ⟨bishopAttacks.getD s.val 0⟩

theorem get_rookAttacksOn : ∀ s t : Square, (rookAttacksOn s).get t = decide (Straight s t) := by
  decide +kernel

theorem get_bishopAttacksOn : ∀ s t : Square, (bishopAttacksOn s).get t = decide (Diagonal s t) := by
  decide +kernel

structure KingAttackInfo where
  doubleCheck : Bool
  pinnedPieces : BitBoard
  attackLines : BitBoard

namespace KingAttackInfo

def inCheck (info : KingAttackInfo) : Bool := !info.attackLines.isEmpty
def isPinned (info : KingAttackInfo) (s : Square) : Bool := info.pinnedPieces.get s
def isOnAttackLine (info : KingAttackInfo) (s : Square) : Bool := info.attackLines.get s

end KingAttackInfo

/-- What a walk from the king finds: nothing, one of our pieces in front of a piece that would give check,
or a piece that gives check at the end of an attack line. -/
inductive Found where
  | nothing
  | pinned (s : Square)
  | check (attackLine : BitBoard)

/-- What is known so far, and the number of attackers. -/
def Found.store (acc : KingAttackInfo × Nat) : Found → KingAttackInfo × Nat
  | nothing => acc
  | pinned s => ({ acc.1 with pinnedPieces := acc.1.pinnedPieces.set s }, acc.2)
  | check attackLine => ({ acc.1 with attackLines := acc.1.attackLines.union attackLine }, acc.2 + 1)

namespace ChessBoard

/-- The walk along the squares of one direction, with the line so far and the piece that may be pinned. -/
def scanLine (b : ChessBoard) (sliders : BitBoard) : BitBoard → Option Square → List Square → Found
  | _, _, [] => .nothing
  | attackLine, possiblePinned, destination :: rest =>
    if b.ourPieces.get destination ∧ possiblePinned.isSome then .nothing
    else
      let possiblePinned := if b.ourPieces.get destination then some destination else possiblePinned
      let attackLine := if possiblePinned.isSome then attackLine else attackLine.set destination
      if b.theirPieces.get destination then
        if sliders.get destination then
          match possiblePinned with
          | some s => .pinned s
          | none => .check attackLine
        else .nothing
      else b.scanLine sliders attackLine possiblePinned rest

def scanLines (b : ChessBoard) (sliders : BitBoard) (directions : List Direction) (acc : KingAttackInfo × Nat) :
    KingAttackInfo × Nat :=
  directions.foldl (fun acc d => (b.scanLine sliders .zero none (ray d b.ourKing)).store acc) acc

def attackingPawns (b : ChessBoard) : BitBoard := ((pawnAttacksOn b.ourKing).inter b.theirPieces).inter b.pawns
def attackingKnights (b : ChessBoard) : BitBoard := (knightAttacksOn b.ourKing).inter b.theirKnights

/-- The attacks along ranks and files, and then those along diagonals. -/
def lineAttacks (b : ChessBoard) : KingAttackInfo × Nat :=
  let acc : KingAttackInfo × Nat := (⟨false, .zero, .zero⟩, 0)
  let acc := if (rookAttacksOn b.ourKing).intersects (b.theirPieces.inter b.rooks) then b.scanLines b.rooks rookDirections acc else acc
  if (bishopAttacksOn b.ourKing).intersects (b.theirPieces.inter b.bishops) then b.scanLines b.bishops bishopDirections acc else acc

/-- `num_king_attackers`, which counts all attacking pawns as one, and so all knights. -/
def numKingAttackers (b : ChessBoard) : Nat :=
  b.lineAttacks.2 + (if b.attackingPawns.isEmpty then 0 else 1) + (if b.attackingKnights.isEmpty then 0 else 1)

def generateKingAttackInfo (b : ChessBoard) : KingAttackInfo :=
  { b.lineAttacks.1 with
    attackLines := (b.lineAttacks.1.attackLines.union b.attackingPawns).union b.attackingKnights
    doubleCheck := b.numKingAttackers = 2 }

def sliders (b : ChessBoard) (d : Direction) : BitBoard := if d ∈ rookDirections then b.rooks else b.bishops

def founds (b : ChessBoard) : List Found := directions.map fun d => b.scanLine (b.sliders d) .zero none (ray d b.ourKing)

end ChessBoard

private theorem split_cons {α : Type} {P : List α → α → List α → Prop} {v : α} {l : List α} :
    (∃ front u rest, v :: l = front ++ u :: rest ∧ P front u rest) ↔
      P [] v l ∨ ∃ front u rest, l = front ++ u :: rest ∧ P (v :: front) u rest := by
  constructor
  · rintro ⟨front, u, rest, heq, h⟩
    cases front with
    | nil =>
      obtain ⟨rfl, rfl⟩ := List.cons.inj heq
      exact .inl h
    | cons w front =>
      obtain ⟨rfl, rfl⟩ := List.cons.inj heq
      exact .inr ⟨front, u, rest, rfl, h⟩
  · rintro (h | ⟨front, u, rest, rfl, h⟩)
    · exact ⟨[], v, l, rfl, h⟩
    · exact ⟨v :: front, u, rest, rfl, h⟩

section
variable {b : ChessBoard} {board : Chess.Board} {sliders : BitBoard} {s t u : Square} {d : Direction}

/-- The first piece that is met is a slider of theirs. -/
def Meets (b : ChessBoard) (board : Chess.Board) (sliders : BitBoard) (l : List Square) : Prop :=
  ∃ front u rest, l = front ++ u :: rest ∧ (∀ v ∈ front, board v = none) ∧ b.theirPieces.get u = true ∧ sliders.get u = true

theorem White.theirs_empty (hb : White b board) (h : board u = none) : b.ourPieces.get u = false ∧ b.theirPieces.get u = false := by
  rw [hb.ours_get, hb.theirs_get, h]
  exact ⟨rfl, rfl⟩

theorem White.theirs_not_ours (hb : White b board) (h : b.theirPieces.get u = true) : b.ourPieces.get u = false ∧ board u ≠ none := by
  rw [hb.theirs_get] at h
  rw [hb.ours_get]
  revert h
  rcases board u with _ | ⟨c, type⟩
  · simp [owned]
  · cases c <;> simp [owned]

theorem White.ours_not_theirs (hb : White b board) (h : b.ourPieces.get u = true) : b.theirPieces.get u = false ∧ board u ≠ none := by
  rw [hb.ours_get] at h
  rw [hb.theirs_get]
  revert h
  rcases board u with _ | ⟨c, type⟩
  · simp [owned]
  · cases c <;> simp [owned]

theorem White.pieces (hb : White b board) (u : Square) :
    board u = none ∨ b.theirPieces.get u = true ∨ b.ourPieces.get u = true := by
  rw [hb.ours_get, hb.theirs_get]
  rcases board u with _ | ⟨c, type⟩
  · simp
  · cases c <;> simp [owned]

/-- Each square that the walk meets is empty or stops it, but for the first of our pieces. -/
theorem scanLine_empty (hb : White b board) (h : board u = none) (attackLine : BitBoard) (pinned : Option Square) (l : List Square) :
    b.scanLine sliders attackLine pinned (u :: l) =
      b.scanLine sliders (if pinned.isSome then attackLine else attackLine.set u) pinned l := by
  obtain ⟨hours, htheirs⟩ := hb.theirs_empty h
  rw [ChessBoard.scanLine]
  simp [hours, htheirs]

theorem scanLine_theirs (hb : White b board) (h : b.theirPieces.get u = true) (attackLine : BitBoard) (pinned : Option Square)
    (l : List Square) : b.scanLine sliders attackLine pinned (u :: l) =
      if sliders.get u then (match pinned with | some s => .pinned s | none => .check (attackLine.set u)) else .nothing := by
  obtain ⟨hours, -⟩ := hb.theirs_not_ours h
  rw [ChessBoard.scanLine]
  cases pinned <;> simp [hours, h]

theorem scanLine_ours (hb : White b board) (h : b.ourPieces.get u = true) (attackLine : BitBoard) (pinned : Option Square)
    (l : List Square) : b.scanLine sliders attackLine pinned (u :: l) =
      match pinned with | some _ => .nothing | none => b.scanLine sliders attackLine (some u) l := by
  obtain ⟨htheirs, -⟩ := hb.ours_not_theirs h
  rw [ChessBoard.scanLine]
  cases pinned <;> simp [htheirs, h]

theorem meets_cons (l : List Square) : Meets b board sliders (u :: l) ↔
    (b.theirPieces.get u = true ∧ sliders.get u = true) ∨ board u = none ∧ Meets b board sliders l := by
  rw [Meets, split_cons, Meets]
  simp only [List.forall_mem_cons, List.not_mem_nil, false_implies, implies_true, true_and]
  apply or_congr_right
  constructor
  · rintro ⟨front, v, rest, rfl, ⟨hu, hfront⟩, hv⟩
    exact ⟨hu, front, v, rest, rfl, hfront, hv⟩
  · rintro ⟨hu, front, v, rest, rfl, hfront, hv⟩
    exact ⟨front, v, rest, rfl, ⟨hu, hfront⟩, hv⟩

theorem scanLine_some (hb : White b board) (l : List Square) : ∀ attackLine : BitBoard,
    (Meets b board sliders l → b.scanLine sliders attackLine (some s) l = .pinned s) ∧
      (¬ Meets b board sliders l → b.scanLine sliders attackLine (some s) l = .nothing) := by
  induction l with
  | nil =>
    intro attackLine
    refine ⟨?_, fun _ => rfl⟩
    rintro ⟨front, u, rest, heq, -⟩
    simp at heq
  | cons u l ih =>
    intro attackLine
    rw [meets_cons]
    rcases hb.pieces u with h | h | h
    · obtain ⟨-, htheirs⟩ := hb.theirs_empty h
      rw [scanLine_empty hb h, htheirs]
      simpa [h] using ih attackLine
    · obtain ⟨-, hne⟩ := hb.theirs_not_ours h
      rw [scanLine_theirs hb h]
      cases hs : sliders.get u <;> simp [h, hne]
    · obtain ⟨htheirs, hne⟩ := hb.ours_not_theirs h
      rw [scanLine_ours hb h]
      simp [htheirs, hne]

/-- Our only piece in front of one of their sliders is pinned. -/
theorem scanLine_pinned (hb : White b board) (l : List Square) : ∀ attackLine : BitBoard,
    b.scanLine sliders attackLine none l = .pinned s ↔
      ∃ front v rest, l = front ++ v :: rest ∧ v = s ∧ (∀ w ∈ front, board w = none) ∧ b.ourPieces.get s = true ∧
        Meets b board sliders rest := by
  induction l with
  | nil =>
    intro attackLine
    simp [ChessBoard.scanLine]
  | cons u l ih =>
    intro attackLine
    rw [split_cons]
    simp only [List.forall_mem_cons, List.not_mem_nil, false_implies, implies_true, true_and]
    rcases hb.pieces u with h | h | h
    · obtain ⟨hours, -⟩ := hb.theirs_empty h
      rw [scanLine_empty hb h, ih]
      have hne : u = s → b.ourPieces.get s = false := by
        rintro rfl
        exact hours
      constructor
      · rintro ⟨front, v, rest, rfl, hv, hfront, hrest⟩
        exact .inr ⟨front, v, rest, rfl, hv, ⟨h, hfront⟩, hrest⟩
      · rintro (⟨hus, hs, -⟩ | ⟨front, v, rest, rfl, hv, ⟨-, hfront⟩, hrest⟩)
        · rw [hne hus] at hs
          cases hs
        · exact ⟨front, v, rest, rfl, hv, hfront, hrest⟩
    · obtain ⟨hours, hne⟩ := hb.theirs_not_ours h
      rw [scanLine_theirs hb h]
      constructor
      · intro hfound
        split at hfound <;> cases hfound
      · rintro (⟨rfl, hs, -⟩ | ⟨front, v, rest, -, -, ⟨hempty, -⟩, -⟩)
        · rw [hours] at hs
          cases hs
        · exact absurd hempty hne
    · obtain ⟨-, hne⟩ := hb.ours_not_theirs h
      rw [scanLine_ours hb h]
      obtain ⟨hyes, hno⟩ : (Meets b board sliders l → b.scanLine sliders attackLine (some u) l = .pinned u) ∧
          (¬ Meets b board sliders l → b.scanLine sliders attackLine (some u) l = .nothing) := scanLine_some hb l attackLine
      constructor
      · intro hfound
        by_cases hmeets : Meets b board sliders l
        · rw [hyes hmeets] at hfound
          obtain rfl := Found.pinned.inj hfound
          exact .inl ⟨rfl, h, hmeets⟩
        · rw [hno hmeets] at hfound
          cases hfound
      · rintro (⟨rfl, -, hmeets⟩ | ⟨front, v, rest, -, -, ⟨hempty, -⟩, -⟩)
        · exact hyes hmeets
        · exact absurd hempty hne

theorem scanLine_check (hb : White b board) (l : List Square) : ∀ attackLine line : BitBoard,
    b.scanLine sliders attackLine none l = .check line ↔
      ∃ front v rest, l = front ++ v :: rest ∧ (∀ w ∈ front, board w = none) ∧ b.theirPieces.get v = true ∧ sliders.get v = true ∧
        line = (front ++ [v]).foldl .set attackLine := by
  induction l with
  | nil =>
    intro attackLine line
    simp [ChessBoard.scanLine]
  | cons u l ih =>
    intro attackLine line
    rw [split_cons]
    simp only [List.forall_mem_cons, List.not_mem_nil, false_implies, implies_true, true_and]
    rcases hb.pieces u with h | h | h
    · obtain ⟨-, htheirs⟩ := hb.theirs_empty h
      rw [scanLine_empty hb h, ih]
      constructor
      · rintro ⟨front, v, rest, rfl, hfront, hrest⟩
        exact .inr ⟨front, v, rest, rfl, ⟨h, hfront⟩, hrest⟩
      · rintro (⟨hu, -⟩ | ⟨front, v, rest, rfl, ⟨-, hfront⟩, hrest⟩)
        · rw [htheirs] at hu
          cases hu
        · exact ⟨front, v, rest, rfl, hfront, hrest⟩
    · obtain ⟨-, hne⟩ := hb.theirs_not_ours h
      rw [scanLine_theirs hb h]
      constructor
      · intro hfound
        split at hfound
        · rename_i hs
          exact .inl ⟨h, hs, (Found.check.inj hfound).symm⟩
        · cases hfound
      · rintro (⟨-, hs, rfl⟩ | ⟨front, v, rest, -, ⟨hempty, -⟩, -⟩)
        · rw [if_pos hs]
          rfl
        · exact absurd hempty hne
    · obtain ⟨htheirs, hne⟩ := hb.ours_not_theirs h
      rw [scanLine_ours hb h]
      obtain ⟨hyes, hno⟩ : (Meets b board sliders l → b.scanLine sliders attackLine (some u) l = .pinned u) ∧
          (¬ Meets b board sliders l → b.scanLine sliders attackLine (some u) l = .nothing) := scanLine_some hb l attackLine
      constructor
      · intro hfound
        by_cases hmeets : Meets b board sliders l
        · rw [hyes hmeets] at hfound
          cases hfound
        · rw [hno hmeets] at hfound
          cases hfound
      · rintro (⟨hu, -⟩ | ⟨front, v, rest, -, ⟨hempty, -⟩, -⟩)
        · rw [htheirs] at hu
          cases hu
        · exact absurd hempty hne

/-- A slider of theirs that nothing shields the king from. -/
def Bears (b : ChessBoard) (board : Chess.Board) (sliders : BitBoard) (d : Direction) (u : Square) : Prop :=
  u ∈ ray d b.ourKing ∧ b.theirPieces.get u = true ∧ sliders.get u = true ∧ board.Clear b.ourKing u

theorem scan_check (hb : White b board) (hd : d ∈ directions) {line : BitBoard} :
    b.scanLine sliders .zero none (ray d b.ourKing) = .check line →
      ∃ u, Bears b board sliders d u ∧ ∀ t, line.get t = true ↔ t = u ∨ t ∈ between b.ourKing u := by
  intro h
  obtain ⟨front, u, rest, heq, hfront, htheirs, hs, rfl⟩ := (scanLine_check hb _ _ _).mp h
  obtain ⟨hu, hbetween, -⟩ := ray_split hd heq
  refine ⟨u, ⟨hu, htheirs, hs, fun w hw => hfront w ((hbetween w).mpr hw)⟩, fun t => ?_⟩
  rw [get_foldl_set, BitBoard.get_zero, Bool.false_or, decide_eq_true_iff, List.mem_append, List.mem_singleton, hbetween]
  exact or_comm

theorem check_of_bears (hb : White b board) (hd : d ∈ directions) (h : Bears b board sliders d u) :
    ∃ line, b.scanLine sliders .zero none (ray d b.ourKing) = .check line ∧
      ∀ t, line.get t = true ↔ t = u ∨ t ∈ between b.ourKing u := by
  obtain ⟨hu, htheirs, hs, hclear⟩ := h
  obtain ⟨front, rest, heq⟩ := List.append_of_mem hu
  obtain ⟨-, hbetween, -⟩ := ray_split hd heq
  refine ⟨_, (scanLine_check hb _ _ _).mpr ⟨front, u, rest, heq, fun w hw => hclear w ((hbetween w).mp hw), htheirs, hs, rfl⟩, fun t => ?_⟩
  rw [get_foldl_set, BitBoard.get_zero, Bool.false_or, decide_eq_true_iff, List.mem_append, List.mem_singleton, hbetween]
  exact or_comm

theorem scan_pinned (hb : White b board) (hd : d ∈ directions) : b.scanLine sliders .zero none (ray d b.ourKing) = .pinned s ↔
    b.ourPieces.get s = true ∧ ∃ u ∈ ray d b.ourKing, b.theirPieces.get u = true ∧ sliders.get u = true ∧
      s ∈ between b.ourKing u ∧ ∀ w ∈ between b.ourKing u, w = s ∨ board w = none := by
  rw [scanLine_pinned hb]
  constructor
  · rintro ⟨front, v, rest, heq, rfl, hfront, hours, mid, u, rest', rfl, hmid, htheirs, hs⟩
    have heq' : ray d b.ourKing = (front ++ v :: mid) ++ u :: rest' := by
      rw [heq]
      simp
    obtain ⟨hu, hbetween, -⟩ := ray_split hd heq'
    refine ⟨hours, u, hu, htheirs, hs, (hbetween v).mp (by simp), fun w hw => ?_⟩
    have hmem := (hbetween w).mpr hw
    rw [List.mem_append, List.mem_cons] at hmem
    rcases hmem with hmem | rfl | hmem
    · exact .inr (hfront w hmem)
    · exact .inl rfl
    · exact .inr (hmid w hmem)
  · rintro ⟨hours, u, hu, htheirs, hs, hbetween, hclear⟩
    obtain ⟨way, rest', heq⟩ := List.append_of_mem hu
    obtain ⟨-, hway, -⟩ := ray_split hd heq
    obtain ⟨front, mid, rfl⟩ := List.append_of_mem ((hway s).mpr hbetween)
    have heq' : ray d b.ourKing = front ++ s :: (mid ++ u :: rest') := by
      rw [heq]
      simp
    obtain ⟨hsk, hfront, hrest⟩ := ray_split hd heq'
    refine ⟨front, s, mid ++ u :: rest', heq', rfl, fun w hw => ?_, hours, mid, u, rest', rfl, fun w hw => ?_, htheirs, hs⟩
    · refine (hclear w ((hway w).mp (by simp [hw]))).resolve_left ?_
      rintro rfl
      exact ray_irrefl hd w ((mem_between hd hsk).mp ((hfront w).mp hw)).2
    · refine (hclear w ((hway w).mp (by simp [hw]))).resolve_left ?_
      rintro rfl
      exact ray_irrefl hd w ((hrest w).mp (by simp [hw]))

def Found.isCheck : Found → Bool
  | .check _ => true
  | _ => false

theorem store_attackLines (founds : List Found) : ∀ acc : KingAttackInfo × Nat, (founds.foldl Found.store acc).1.attackLines.get t = true ↔
    acc.1.attackLines.get t = true ∨ ∃ line, .check line ∈ founds ∧ line.get t = true := by
  induction founds with
  | nil => simp
  | cons found founds ih =>
    intro acc
    rw [List.foldl_cons, ih]
    cases found with
    | nothing => simp [Found.store]
    | pinned s => simp [Found.store]
    | check line => simp [Found.store, or_assoc, or_and_right, exists_or]

theorem store_pinned (founds : List Found) : ∀ acc : KingAttackInfo × Nat, (founds.foldl Found.store acc).1.pinnedPieces.get s = true ↔
    acc.1.pinnedPieces.get s = true ∨ .pinned s ∈ founds := by
  induction founds with
  | nil => simp
  | cons found founds ih =>
    intro acc
    rw [List.foldl_cons, ih]
    cases found with
    | nothing => simp [Found.store]
    | pinned u => simp [Found.store, or_assoc]
    | check line => simp [Found.store]

theorem store_count (founds : List Found) : ∀ acc : KingAttackInfo × Nat,
    (founds.foldl Found.store acc).2 = acc.2 + founds.countP Found.isCheck := by
  induction founds with
  | nil => simp
  | cons found founds ih =>
    intro acc
    rw [List.foldl_cons, ih, List.countP_cons]
    cases found with
    | nothing => rfl
    | pinned s => rfl
    | check line =>
      simp only [Found.store, Found.isCheck, if_true]
      omega

theorem scanLines_eq (directions : List Direction) (acc : KingAttackInfo × Nat) : b.scanLines sliders directions acc =
    (directions.map fun d => b.scanLine sliders .zero none (ray d b.ourKing)).foldl Found.store acc := by
  rw [ChessBoard.scanLines, List.foldl_map]

/-- Where no slider can see the king there is nothing to find. -/
theorem scanLines_filtered (hb : White b board) {attacks : BitBoard} {ds : List Direction} (hds : ∀ d ∈ ds, d ∈ directions)
    (hattacks : ∀ d ∈ ds, ∀ u ∈ ray d b.ourKing, attacks.get u = true) (acc : KingAttackInfo × Nat) :
    (if attacks.intersects (b.theirPieces.inter sliders) then b.scanLines sliders ds acc else acc) = b.scanLines sliders ds acc := by
  by_cases hmeets : attacks.intersects (b.theirPieces.inter sliders) = true
  · exact if_pos hmeets
  · rw [if_neg hmeets]
    have hno {d : Direction} (hd : d ∈ ds) {u : Square} (hu : u ∈ ray d b.ourKing) (htheirs : b.theirPieces.get u = true)
        (hs : sliders.get u = true) : False := by
      apply hmeets
      rw [BitBoard.intersects_iff]
      exact ⟨u, hattacks d hd u hu, by rw [BitBoard.get_inter, htheirs, hs]; rfl⟩
    have hnothing : ∀ d ∈ ds, b.scanLine sliders .zero none (ray d b.ourKing) = .nothing := by
      intro d hd
      cases hfound : b.scanLine sliders .zero none (ray d b.ourKing) with
      | nothing => rfl
      | pinned s =>
        obtain ⟨-, u, hu, htheirs, hs, -⟩ := (scan_pinned hb (hds d hd)).mp hfound
        exact (hno hd hu htheirs hs).elim
      | check line =>
        obtain ⟨u, ⟨hu, htheirs, hs, -⟩, -⟩ := scan_check hb (hds d hd) hfound
        exact (hno hd hu htheirs hs).elim
    clear hmeets hno hattacks hds
    rw [ChessBoard.scanLines]
    induction ds with
    | nil => rfl
    | cons d ds ih =>
      rw [List.foldl_cons, hnothing d List.mem_cons_self]
      exact ih fun d' hd' => hnothing d' (List.mem_cons_of_mem _ hd')

theorem lineAttacks_eq (hb : White b board) : b.lineAttacks = b.founds.foldl Found.store (⟨false, .zero, .zero⟩, 0) := by
  have hrooks : ∀ d ∈ rookDirections, ∀ u ∈ ray d b.ourKing, (rookAttacksOn b.ourKing).get u = true := by
    intro d hd u hu
    rw [get_rookAttacksOn]
    exact decide_eq_true (straight_iff.mpr ⟨d, hd, hu⟩)
  have hbishops : ∀ d ∈ bishopDirections, ∀ u ∈ ray d b.ourKing, (bishopAttacksOn b.ourKing).get u = true := by
    intro d hd u hu
    rw [get_bishopAttacksOn]
    exact decide_eq_true (diagonal_iff.mpr ⟨d, hd, hu⟩)
  have happart : ∀ d ∈ bishopDirections, d ∉ rookDirections := by decide
  have hstraight : rookDirections.map (fun d => b.scanLine (b.sliders d) .zero none (ray d b.ourKing)) =
      rookDirections.map fun d => b.scanLine b.rooks .zero none (ray d b.ourKing) := by
    apply List.map_congr_left
    intro d hd
    rw [ChessBoard.sliders, if_pos hd]
  have hdiagonal : bishopDirections.map (fun d => b.scanLine (b.sliders d) .zero none (ray d b.ourKing)) =
      bishopDirections.map fun d => b.scanLine b.bishops .zero none (ray d b.ourKing) := by
    apply List.map_congr_left
    intro d hd
    rw [ChessBoard.sliders, if_neg (happart d hd)]
  rw [ChessBoard.lineAttacks, scanLines_filtered hb (fun d hd => List.mem_append_left _ hd) hrooks,
    scanLines_filtered hb (fun d hd => List.mem_append_right _ hd) hbishops, scanLines_eq, scanLines_eq, ← List.foldl_append,
    ← hstraight, ← hdiagonal, ← List.map_append]
  rfl

theorem lineAttacks_lines (hb : White b board) : b.lineAttacks.1.attackLines.get t = true ↔
    ∃ d ∈ directions, ∃ u, Bears b board (b.sliders d) d u ∧ (t = u ∨ t ∈ between b.ourKing u) := by
  rw [lineAttacks_eq hb, store_attackLines, ChessBoard.founds]
  simp only [BitBoard.get_zero, Bool.false_eq_true, false_or, List.mem_map]
  constructor
  · rintro ⟨line, ⟨d, hd, hfound⟩, ht⟩
    obtain ⟨u, hu, hline⟩ := scan_check hb hd hfound
    exact ⟨d, hd, u, hu, (hline t).mp ht⟩
  · rintro ⟨d, hd, u, hu, ht⟩
    obtain ⟨line, hfound, hline⟩ := check_of_bears hb hd hu
    exact ⟨line, ⟨d, hd, hfound⟩, (hline t).mpr ht⟩

theorem lineAttacks_pinned (hb : White b board) : b.lineAttacks.1.pinnedPieces.get s = true ↔
    b.ourPieces.get s = true ∧ ∃ d ∈ directions, ∃ u ∈ ray d b.ourKing, b.theirPieces.get u = true ∧ (b.sliders d).get u = true ∧
      s ∈ between b.ourKing u ∧ ∀ w ∈ between b.ourKing u, w = s ∨ board w = none := by
  rw [lineAttacks_eq hb, store_pinned, ChessBoard.founds]
  simp only [BitBoard.get_zero, Bool.false_eq_true, false_or, List.mem_map]
  constructor
  · rintro ⟨d, hd, hfound⟩
    obtain ⟨hours, hrest⟩ := (scan_pinned hb hd).mp hfound
    exact ⟨hours, d, hd, hrest⟩
  · rintro ⟨hours, d, hd, hrest⟩
    exact ⟨d, hd, (scan_pinned hb hd).mpr ⟨hours, hrest⟩⟩

theorem lineAttacks_count (hb : White b board) : b.lineAttacks.2 =
    directions.countP fun d => (b.scanLine (b.sliders d) .zero none (ray d b.ourKing)).isCheck := by
  rw [lineAttacks_eq hb, store_count, ChessBoard.founds, List.countP_map, Nat.zero_add]
  rfl

theorem isCheck_iff (hb : White b board) (hd : d ∈ directions) :
    (b.scanLine (b.sliders d) .zero none (ray d b.ourKing)).isCheck = true ↔ ∃ u, Bears b board (b.sliders d) d u := by
  constructor
  · intro h
    cases hfound : b.scanLine (b.sliders d) .zero none (ray d b.ourKing) with
    | nothing =>
      rw [hfound] at h
      cases h
    | pinned s =>
      rw [hfound] at h
      cases h
    | check line =>
      obtain ⟨u, hu, -⟩ := scan_check hb hd hfound
      exact ⟨u, hu⟩
  · rintro ⟨u, hu⟩
    obtain ⟨line, hfound, -⟩ := check_of_bears hb hd hu
    rw [hfound]
    rfl

/-- On a ray the sliders of its direction are the pieces that see along it. -/
theorem sliders_iff (hb : White b board) {q : Piece} (hq : board u = some q) (hd : d ∈ directions) (hu : u ∈ ray d b.ourKing) :
    (b.sliders d).get u = true ↔ q.Slides ∧ q.Aims u b.ourKing := by
  have happart (hs : Straight u b.ourKing) (hd : Diagonal u b.ourKing) : False := by
    obtain ⟨hne, hline⟩ := hs
    obtain ⟨-, hsteps⟩ := hd
    rw [fileStep, rankStep] at hline hsteps
    exact hne (square_ext (by omega) (by omega))
  rw [ChessBoard.sliders, Piece.Slides, Piece.Aims]
  by_cases hrook : d ∈ rookDirections
  · have hstraight := straight_symm.mp (straight_iff.mpr ⟨d, hrook, hu⟩)
    rw [if_pos hrook, hb.rooks_get, hq]
    cases htype : q.type <;> simp [straight, htype, hstraight]
    exact happart hstraight
  · have hbishop : d ∈ bishopDirections := (List.mem_append.mp hd).resolve_left hrook
    have hdiagonal := diagonal_symm.mp (diagonal_iff.mpr ⟨d, hbishop, hu⟩)
    rw [if_neg hrook, hb.bishops_get, hq]
    cases htype : q.type <;> simp [diagonal, htype, hdiagonal]
    exact fun hs => happart hs hdiagonal

theorem White.theirs_iff (hb : White b board) (u : Square) : b.theirPieces.get u = true ↔ ∃ q, board u = some q ∧ q.color = .black := by
  rw [hb.theirs_get]
  rcases board u with _ | q
  · simp [owned]
  · simp [owned]

theorem bears_iff (hb : White b board) (hd : d ∈ directions) : Bears b board (b.sliders d) d u ↔
    u ∈ ray d b.ourKing ∧ ∃ q, board u = some q ∧ q.color = .black ∧ q.Slides ∧ board.Attacks q u b.ourKing := by
  rw [Bears, hb.theirs_iff]
  apply and_congr_right
  intro hu
  have hclear {q : Piece} (hslides : q.Slides) : board.Clear b.ourKing u ↔ ∀ w ∈ q.path u b.ourKing, board w = none := by
    rw [path_slides hslides, Chess.Board.Clear]
    simp only [between_symm hd hu]
  constructor
  · rintro ⟨⟨q, hq, hcolor⟩, hs, hfree⟩
    obtain ⟨hslides, haims⟩ := (sliders_iff hb hq hd hu).mp hs
    exact ⟨q, hq, hcolor, hslides, attacks_iff.mpr ⟨haims, (hclear hslides).mp hfree⟩⟩
  · rintro ⟨q, hq, hcolor, hslides, hattack⟩
    obtain ⟨haims, hfree⟩ := attacks_iff.mp hattack
    exact ⟨⟨q, hq, hcolor⟩, (sliders_iff hb hq hd hu).mpr ⟨hslides, haims⟩, (hclear hslides).mpr hfree⟩

theorem exists_direction {q : Piece} {k : Square} (hslides : q.Slides) (haims : q.Aims u k) : ∃ d ∈ directions, u ∈ ray d k := by
  apply exists_ray
  rw [Piece.Aims] at haims
  rcases hslides with h | h | h <;> rw [h] at haims
  · exact .inr (diagonal_symm.mp haims)
  · exact .inl (straight_symm.mp haims)
  · exact haims.imp straight_symm.mp diagonal_symm.mp

theorem attackingPawns_get (hb : White b board) : b.attackingPawns.get u = true ↔
    board u = some ⟨.black, .pawn⟩ ∧ (⟨.black, .pawn⟩ : Piece).Aims u b.ourKing := by
  rw [ChessBoard.attackingPawns, BitBoard.get_inter, BitBoard.get_inter, Bool.and_assoc, ← BitBoard.get_inter, Bool.and_eq_true]
  exact hb.pawnAttackers b.ourKing u

theorem attackingKnights_get (hb : White b board) : b.attackingKnights.get u = true ↔
    board u = some ⟨.black, .knight⟩ ∧ (⟨.black, .knight⟩ : Piece).Aims u b.ourKing := by
  rw [ChessBoard.attackingKnights, BitBoard.get_inter, Bool.and_eq_true, get_knightAttacksOn, hb.theirKnights_get, decide_eq_true_iff,
    leap_symm, and_comm]
  rfl

/-- Where the attackers of the king are looked for: along eight lines, and among pawns and knights. -/
inductive Channel where
  | line (d : Direction)
  | pawn
  | knight
  deriving DecidableEq

def channels : List Channel := directions.map .line ++ [.pawn, .knight]

def Through (b : ChessBoard) (board : Chess.Board) : Channel → Square → Prop
  | .line d, u => u ∈ ray d b.ourKing ∧ ∃ q, board u = some q ∧ q.color = .black ∧ q.Slides ∧ board.Attacks q u b.ourKing
  | .pawn, u => board u = some ⟨.black, .pawn⟩ ∧ board.Attacks ⟨.black, .pawn⟩ u b.ourKing
  | .knight, u => board u = some ⟨.black, .knight⟩ ∧ board.Attacks ⟨.black, .knight⟩ u b.ourKing

/-- Kings do not attack each other, and every other attacker is found. -/
theorem attacker_iff (hkings : ¬ board.Attacks ⟨.black, .king⟩ b.theirKing b.ourKing) (hb : White b board) :
    board.Attacker .black b.ourKing u ↔ ∃ c ∈ channels, Through b board c u := by
  constructor
  · rintro ⟨⟨c, type⟩, hq, hcolor, hattack⟩
    obtain rfl : c = .black := hcolor
    have hslide (hslides : (⟨.black, type⟩ : Piece).Slides) : ∃ c ∈ channels, Through b board c u := by
      obtain ⟨d, hd, hu⟩ := exists_direction hslides (attacks_iff.mp hattack).1
      exact ⟨.line d, List.mem_append_left _ (List.mem_map_of_mem hd), hu, _, hq, rfl, hslides, hattack⟩
    cases type with
    | pawn => exact ⟨.pawn, by simp [channels], hq, hattack⟩
    | knight => exact ⟨.knight, by simp [channels], hq, hattack⟩
    | bishop => exact hslide (.inl rfl)
    | rook => exact hslide (.inr (.inl rfl))
    | queen => exact hslide (.inr (.inr rfl))
    | king =>
      rw [hb.king_unique u hq] at hattack
      exact absurd hattack hkings
  · rintro ⟨c, -, hthrough⟩
    cases c with
    | line d =>
      obtain ⟨-, q, hq, hcolor, -, hattack⟩ := hthrough
      exact ⟨q, hq, hcolor, hattack⟩
    | pawn => exact ⟨_, hthrough.1, rfl, hthrough.2⟩
    | knight => exact ⟨_, hthrough.1, rfl, hthrough.2⟩

/-- The attack lines are the squares of the attackers and those on their ways. -/
theorem attackLines_iff (hkings : ¬ board.Attacks ⟨.black, .king⟩ b.theirKing b.ourKing) (hb : White b board) :
    b.generateKingAttackInfo.attackLines.get t = true ↔ ∃ u, board.Attacker .black b.ourKing u ∧ t ∈ board.line u b.ourKing := by
  have hpawn : ¬ (⟨.black, .pawn⟩ : Piece).Slides := by simp [Piece.Slides]
  have hknight : ¬ (⟨.black, .knight⟩ : Piece).Slides := by simp [Piece.Slides]
  have hempty {q : Piece} {u : Square} (hnot : ¬ q.Slides) : ∀ w ∈ q.path u b.ourKing, board w = none :=
    fun w hw => absurd (slides_of_path hw) hnot
  rw [ChessBoard.generateKingAttackInfo, BitBoard.get_union, BitBoard.get_union, Bool.or_eq_true, Bool.or_eq_true,
    lineAttacks_lines hb, attackingPawns_get hb, attackingKnights_get hb]
  constructor
  · rintro ((⟨d, hd, u, hbears, ht⟩ | ⟨hq, haims⟩) | ⟨hq, haims⟩)
    · obtain ⟨hu, q, hq, hcolor, hslides, hattack⟩ := (bears_iff hb hd).mp hbears
      refine ⟨u, ⟨q, hq, hcolor, hattack⟩, ?_⟩
      rw [line_some hq, List.mem_cons, path_slides hslides, between_symm hd hu]
      exact ht
    · refine ⟨t, ⟨_, hq, rfl, attacks_iff.mpr ⟨haims, hempty hpawn⟩⟩, ?_⟩
      rw [line_some hq]
      exact List.mem_cons_self
    · refine ⟨t, ⟨_, hq, rfl, attacks_iff.mpr ⟨haims, hempty hknight⟩⟩, ?_⟩
      rw [line_some hq]
      exact List.mem_cons_self
  · rintro ⟨u, hattacker, ht⟩
    obtain ⟨c, hc, hthrough⟩ := (attacker_iff hkings hb).mp hattacker
    cases c with
    | line d =>
      have hd : d ∈ directions := by simpa [channels] using hc
      obtain ⟨hu, q, hq, hcolor, hslides, hattack⟩ := hthrough
      rw [line_some hq, List.mem_cons, path_slides hslides, between_symm hd hu] at ht
      exact .inl (.inl ⟨d, hd, u, (bears_iff hb hd).mpr ⟨hu, q, hq, hcolor, hslides, hattack⟩, ht⟩)
    | pawn =>
      obtain ⟨hq, hattack⟩ := hthrough
      rw [line_some hq, List.mem_cons, or_iff_left (fun hpath => hpawn (slides_of_path hpath))] at ht
      subst ht
      exact .inl (.inr ⟨hq, (attacks_iff.mp hattack).1⟩)
    | knight =>
      obtain ⟨hq, hattack⟩ := hthrough
      rw [line_some hq, List.mem_cons, or_iff_left (fun hpath => hknight (slides_of_path hpath))] at ht
      subst ht
      exact .inr ⟨hq, (attacks_iff.mp hattack).1⟩

theorem inCheck_iff (hkings : ¬ board.Attacks ⟨.black, .king⟩ b.theirKing b.ourKing) (hb : White b board) :
    b.generateKingAttackInfo.inCheck = true ↔ board.Attacked .black b.ourKing := by
  have hempty : b.generateKingAttackInfo.inCheck = false ↔ ∀ t, b.generateKingAttackInfo.attackLines.get t = false := by
    rw [KingAttackInfo.inCheck, Bool.not_eq_false', BitBoard.isEmpty_iff]
  rw [← Bool.not_eq_false, hempty, not_forall]
  simp only [Bool.not_eq_false, attackLines_iff hkings hb]
  constructor
  · rintro ⟨t, u, hattacker, -⟩
    exact ⟨u, hattacker⟩
  · rintro ⟨u, hattacker⟩
    have hu := hattacker
    obtain ⟨q, hq, -⟩ := hattacker
    refine ⟨u, u, hu, ?_⟩
    rw [line_some hq]
    exact List.mem_cons_self

/-- A piece is pinned when it alone shields the king from an attack. -/
theorem isPinned_iff (hb : White b board) (hs : b.ourPieces.get s = true) : b.generateKingAttackInfo.isPinned s = true ↔
    ∃ u, board.Opened .black {s} b.ourKing u ∧ s ∈ board.line u b.ourKing := by
  obtain ⟨hnot, -⟩ := hb.ours_not_theirs hs
  rw [KingAttackInfo.isPinned, ChessBoard.generateKingAttackInfo, lineAttacks_pinned hb, and_iff_right hs]
  constructor
  · rintro ⟨d, hd, u, hu, htheirs, hsees, hbetween, hclear⟩
    obtain ⟨q, hq, hcolor⟩ := (hb.theirs_iff u).mp htheirs
    obtain ⟨hslides, haims⟩ := (sliders_iff hb hq hd hu).mp hsees
    rw [← between_symm hd hu, ← path_slides hslides] at hbetween
    refine ⟨u, ⟨q, hq, hcolor, haims, fun w hw => hclear w ?_⟩, ?_⟩
    · rw [← between_symm hd hu, ← path_slides hslides]
      exact hw
    · rw [line_some hq]
      exact List.mem_cons_of_mem _ hbetween
  · rintro ⟨u, ⟨q, hq, hcolor, haims, hclear⟩, hline⟩
    have htheirs := (hb.theirs_iff u).mpr ⟨q, hq, hcolor⟩
    rw [line_some hq, List.mem_cons] at hline
    rcases hline with rfl | hpath
    · rw [hnot] at htheirs
      cases htheirs
    · have hslides := slides_of_path hpath
      obtain ⟨d, hd, hu⟩ := exists_direction hslides haims
      rw [path_slides hslides, between_symm hd hu] at hpath
      refine ⟨d, hd, u, hu, htheirs, (sliders_iff hb hq hd hu).mpr ⟨hslides, haims⟩, hpath, fun w hw => hclear w ?_⟩
      rw [path_slides hslides, between_symm hd hu]
      exact hw

def ChessBoard.active (b : ChessBoard) : Channel → Bool
  | .line d => (b.scanLine (b.sliders d) .zero none (ray d b.ourKing)).isCheck
  | .pawn => !b.attackingPawns.isEmpty
  | .knight => !b.attackingKnights.isEmpty

theorem not_isEmpty_iff {bits : BitBoard} : (!bits.isEmpty) = true ↔ ∃ u, bits.get u = true := by
  rw [Bool.not_eq_true', ← Bool.not_eq_true, BitBoard.isEmpty_iff]
  simp

theorem active_iff (hb : White b board) (c : Channel) (hc : c ∈ channels) : b.active c = true ↔ ∃ u, Through b board c u := by
  cases c with
  | line d =>
    have hd : d ∈ directions := by simpa [channels] using hc
    rw [ChessBoard.active, isCheck_iff hb hd]
    exact exists_congr fun u => bears_iff hb hd
  | pawn =>
    rw [ChessBoard.active, not_isEmpty_iff]
    simp only [attackingPawns_get hb]
    rfl
  | knight =>
    rw [ChessBoard.active, not_isEmpty_iff]
    simp only [attackingKnights_get hb]
    rfl

theorem numKingAttackers_eq (hb : White b board) : b.numKingAttackers = channels.countP b.active := by
  rw [ChessBoard.numKingAttackers, lineAttacks_count hb, channels, List.countP_append, List.countP_map]
  have hlines : (b.active ∘ Channel.line) = fun d => (b.scanLine (b.sliders d) .zero none (ray d b.ourKing)).isCheck := rfl
  rw [hlines, List.countP_cons, List.countP_cons, List.countP_nil, ChessBoard.active, ChessBoard.active]
  cases b.attackingPawns.isEmpty <;> cases b.attackingKnights.isEmpty <;> rfl

theorem through_unique (hb : White b board) (hfew : FewCheckers board .black b.ourKing)
    (hkings : ¬ board.Attacks ⟨.black, .king⟩ b.theirKing b.ourKing) (c : Channel) (hc : c ∈ channels) (u v : Square)
    (hu : Through b board c u) (hv : Through b board c v) : u = v := by
  have hau := (attacker_iff hkings hb).mpr ⟨c, hc, hu⟩
  have hav := (attacker_iff hkings hb).mpr ⟨c, hc, hv⟩
  cases c with
  | line d =>
    have hd : d ∈ directions := by simpa [channels] using hc
    obtain ⟨hur, q, hq, -, hslides, -⟩ := hu
    obtain ⟨hvr, r, hr, -, hslides', -⟩ := hv
    have hopened := hau.opened ∅
    have hopened' := hav.opened ∅
    rcases ray_total hd hur hvr with heq | huv | hvu
    · exact heq
    · refine hopened.unique hopened' (Set.notMem_empty _) (Set.notMem_empty _) (t := v) ?_ ?_
      · rw [line_some hq, List.mem_cons, path_slides hslides, between_symm hd hur, mem_between hd hur]
        exact .inr ⟨hvr, huv⟩
      · rw [line_some hr]
        exact List.mem_cons_self
    · refine hopened.unique hopened' (Set.notMem_empty _) (Set.notMem_empty _) (t := u) ?_ ?_
      · rw [line_some hq]
        exact List.mem_cons_self
      · rw [line_some hr, List.mem_cons, path_slides hslides', between_symm hd hvr, mem_between hd hvr]
        exact .inr ⟨hur, hvu⟩
  | pawn =>
    refine hfew.leaper u v hau hav (fun q hq => .inl ?_) (fun q hq => .inl ?_)
    · rw [← Option.some_inj.mp (hu.1.symm.trans hq)]
    · rw [← Option.some_inj.mp (hv.1.symm.trans hq)]
  | knight =>
    refine hfew.leaper u v hau hav (fun q hq => .inr ?_) (fun q hq => .inr ?_)
    · rw [← Option.some_inj.mp (hu.1.symm.trans hq)]
    · rw [← Option.some_inj.mp (hv.1.symm.trans hq)]

theorem through_apart (c : Channel) (hc : c ∈ channels) (c' : Channel) (hc' : c' ∈ channels) (u : Square)
    (hu : Through b board c u) (hu' : Through b board c' u) : c = c' := by
  have hmem {d : Direction} (h : Channel.line d ∈ channels) : d ∈ directions := by simpa [channels] using h
  have hslider {type : Chess.PieceType} (hnot : ¬ (⟨.black, type⟩ : Piece).Slides) (hq : board u = some ⟨.black, type⟩) {q : Piece}
      (hr : board u = some q) : ¬ q.Slides := by
    rw [← Option.some_inj.mp (hq.symm.trans hr)]
    exact hnot
  have hpawn : ¬ (⟨.black, .pawn⟩ : Piece).Slides := by simp [Piece.Slides]
  have hknight : ¬ (⟨.black, .knight⟩ : Piece).Slides := by simp [Piece.Slides]
  cases c with
  | line d =>
    obtain ⟨hur, q, hq, -, hslides, -⟩ := hu
    cases c' with
    | line d' => rw [ray_towards (hmem hc) hur, ray_towards (hmem hc') hu'.1]
    | pawn => exact absurd hslides (hslider hpawn hu'.1 hq)
    | knight => exact absurd hslides (hslider hknight hu'.1 hq)
  | pawn =>
    cases c' with
    | line d' =>
      obtain ⟨-, q, hq, -, hslides, -⟩ := hu'
      exact absurd hslides (hslider hpawn hu.1 hq)
    | pawn => rfl
    | knight => cases hu.1.symm.trans hu'.1
  | knight =>
    cases c' with
    | line d' =>
      obtain ⟨-, q, hq, -, hslides, -⟩ := hu'
      exact absurd hslides (hslider hknight hu.1 hq)
    | pawn => cases hu.1.symm.trans hu'.1
    | knight => rfl

/-- The assertion of `GenerateKingAttackInfo` holds, and a double check is one by two pieces. -/
theorem doubleCheck_iff (hb : White b board) (hfew : FewCheckers board .black b.ourKing)
    (hkings : ¬ board.Attacks ⟨.black, .king⟩ b.theirKing b.ourKing) : b.numKingAttackers ≤ 2 ∧
      (b.generateKingAttackInfo.doubleCheck = true ↔
        ∃ u v, board.Attacker .black b.ourKing u ∧ board.Attacker .black b.ourKing v ∧ u ≠ v) := by
  obtain ⟨attackers, hnodup, hlength, hmem⟩ := Systems.countP_things channels (by decide) (active_iff hb)
    (through_unique hb hfew hkings) through_apart
  have hattacker (u : Square) : u ∈ attackers ↔ board.Attacker .black b.ourKing u := by
    rw [hmem, attacker_iff hkings hb]
  obtain ⟨hle, htwo⟩ := Systems.length_two hnodup fun u hu v hv w hw =>
    hfew.two u v w ((hattacker u).mp hu) ((hattacker v).mp hv) ((hattacker w).mp hw)
  rw [hlength, ← numKingAttackers_eq hb] at hle htwo
  refine ⟨hle, ?_⟩
  rw [ChessBoard.generateKingAttackInfo, decide_eq_true_iff, htwo]
  simp only [hattacker]
  constructor
  · rintro ⟨u, hu, v, hv, hne⟩
    exact ⟨u, v, hu, hv, hne⟩
  · rintro ⟨u, v, hu, hv, hne⟩
    exact ⟨u, hu, v, hv, hne⟩

end

end ChessAnalytics.Lc0.Board
