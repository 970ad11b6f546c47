import ChessAnalytics.Chess.Flip

/-! Attacks through other pieces: what a square would be attacked by if some pieces were away. Two such
attacks never share a square of their lines. From this follow the legality of a move that the king does not
make, and how many pieces can give check behind a move. -/
namespace ChessAnalytics.Chess

/-- Where a piece attacks when nothing stands in its way. -/
def Piece.Aims (q : Piece) (s t : Square) : Prop :=
  match q.type with
  | .pawn => (fileStep s t).natAbs = 1 ∧ rankStep s t = q.color.forward
  | .knight => (fileStep s t).natAbs = 1 ∧ (rankStep s t).natAbs = 2 ∨ (fileStep s t).natAbs = 2 ∧ (rankStep s t).natAbs = 1
  | .bishop => Diagonal s t
  | .rook => Straight s t
  | .queen => Straight s t ∨ Diagonal s t
  | .king => Adjacent s t

def Piece.path (q : Piece) (s t : Square) : List Square :=
  match q.type with
  | .bishop | .rook | .queen => between s t
  | .pawn | .knight | .king => []

def Piece.Slides (q : Piece) : Prop := q.type = .bishop ∨ q.type = .rook ∨ q.type = .queen

def Piece.Leaps (q : Piece) : Prop := q.type = .pawn ∨ q.type = .knight

theorem path_slides {q : Piece} (h : q.Slides) (s t : Square) : q.path s t = between s t := by
  rw [Piece.path]
  rcases h with h | h | h <;> rw [h]

theorem slides_of_path {q : Piece} {s t w : Square} (h : w ∈ q.path s t) : q.Slides := by
  rw [Piece.path] at h
  cases hq : q.type with
  | pawn | knight | king => simp [hq] at h
  | bishop => exact .inl hq
  | rook => exact .inr (.inl hq)
  | queen => exact .inr (.inr hq)

section
variable {b : Board} {c : Color} {q : Piece} {d : Direction} {s t u v w k : Square}

theorem attacks_iff : b.Attacks q s t ↔ q.Aims s t ∧ ∀ w ∈ q.path s t, b w = none := by
  rw [Board.Attacks, Piece.Aims, Piece.path]
  cases q.type <;> simp [Board.Clear]

theorem mem_path (h : q.Aims u k) (hw : w ∈ q.path u k) : ∃ d ∈ directions, w ∈ ray d k ∧ u ∈ ray d w := by
  have hline : Straight u k ∨ Diagonal u k → w ∈ between u k → ∃ d ∈ directions, w ∈ ray d k ∧ u ∈ ray d w := by
    intro hline hw
    obtain ⟨d, hd, hk⟩ := exists_ray hline
    obtain ⟨hwu, hkw⟩ := (mem_between hd hk).mp hw
    exact ⟨-d, neg_direction hd, (mem_ray_neg hd).mp hkw, (mem_ray_neg hd).mp hwu⟩
  rw [Piece.Aims] at h
  rw [Piece.path] at hw
  cases hq : q.type with
  | pawn | knight | king => simp [hq] at hw
  | bishop =>
    simp only [hq] at h hw
    exact hline (.inr h) hw
  | rook =>
    simp only [hq] at h hw
    exact hline (.inl h) hw
  | queen =>
    simp only [hq] at h hw
    exact hline h hw

/-- A piece with squares on its way sees along a line, and whatever lies in front of it is on the way. -/
theorem path_of_ray (hw : w ∈ q.path u k) (hd : d ∈ directions) (hv : v ∈ ray d k) (hu : u ∈ ray d v) :
    v ∈ q.path u k := by
  rw [path_slides (slides_of_path hw), between_symm hd (ray_trans hd hv hu), mem_between hd (ray_trans hd hv hu)]
  exact ⟨hv, hu⟩

/-- A piece that sees along a line sees the squares on its way too. -/
theorem aims_of_path (h : q.Aims u t) (hk : k ∈ q.path u t) : q.Aims u k ∧ ∀ w ∈ q.path u k, w ∈ q.path u t ∧ w ≠ k := by
  obtain ⟨d, hd, hkt, huk⟩ := mem_path h hk
  have htowards {d' : Direction} (hd' : d' ∈ directions) (hu : u ∈ ray d' t) : d' = d :=
    (ray_towards hd' hu).trans (ray_towards hd (ray_trans hd hkt huk)).symm
  have hstraight (h : Straight u t) : Straight u k := by
    obtain ⟨d', hd', hu⟩ := straight_iff.mp (straight_symm.mp h)
    rw [htowards (List.mem_append_left _ hd') hu] at hd'
    exact straight_symm.mp (straight_iff.mpr ⟨d, hd', huk⟩)
  have hdiagonal (h : Diagonal u t) : Diagonal u k := by
    obtain ⟨d', hd', hu⟩ := diagonal_iff.mp (diagonal_symm.mp h)
    rw [htowards (List.mem_append_right _ hd') hu] at hd'
    exact diagonal_symm.mp (diagonal_iff.mpr ⟨d, hd', huk⟩)
  have haims : q.Aims u k := by
    rw [Piece.Aims] at h ⊢
    rw [Piece.path] at hk
    cases hq : q.type with
    | pawn | knight | king => simp [hq] at hk
    | bishop =>
      simp only [hq] at h
      exact hdiagonal h
    | rook =>
      simp only [hq] at h
      exact hstraight h
    | queen =>
      simp only [hq] at h
      exact h.imp hstraight hdiagonal
  refine ⟨haims, fun w hw => ?_⟩
  obtain ⟨d', hd', hwk, huw⟩ := mem_path haims hw
  obtain rfl : d = d' := (ray_towards hd huk).trans (ray_towards hd' (ray_trans hd' hwk huw)).symm
  refine ⟨path_of_ray hk hd (ray_trans hd hkt hwk) huw, ?_⟩
  rintro rfl
  exact ray_irrefl hd w hwk

theorem aims_irrefl (q : Piece) (s : Square) : ¬ q.Aims s s := by
  rw [Piece.Aims]
  cases hq : q.type <;> simp [Straight, Diagonal, Adjacent, fileStep, rankStep]

def Board.Attacker (b : Board) (c : Color) (k u : Square) : Prop := ∃ q ∈ b u, q.color = c ∧ b.Attacks q u k

theorem Board.attacker_flip {b : Board} {c : Color} {k u : Square} (h : b.Attacker c k u) :
    b.flip.Attacker c.other (mirror k) (mirror u) := by
  obtain ⟨q, hq, hcolor, hattack⟩ := h
  exact ⟨q.flip, flip_some.mpr hq, congrArg Color.other hcolor, (attacks_flip q).mpr hattack⟩

/-- A piece of the colour attacks the square, or would if the pieces on some squares were away. -/
def Board.Opened (b : Board) (c : Color) (away : Set Square) (k u : Square) : Prop :=
  ∃ q ∈ b u, q.color = c ∧ q.Aims u k ∧ ∀ w ∈ q.path u k, w ∈ away ∨ b w = none

/-- The square of a piece and the squares on its way. -/
def Board.line (b : Board) (u k : Square) : List Square :=
  match b u with
  | some q => u :: q.path u k
  | none => []

theorem line_some (hq : b u = some q) : b.line u k = u :: q.path u k := by
  rw [Board.line, hq]

theorem attacked_iff_attacker : b.Attacked c k ↔ ∃ u, b.Attacker c k u := Iff.rfl

theorem Board.Attacker.opened (h : b.Attacker c k u) (away : Set Square) : b.Opened c away k u := by
  obtain ⟨q, hq, hcolor, hattack⟩ := h
  obtain ⟨haims, hclear⟩ := attacks_iff.mp hattack
  exact ⟨q, hq, hcolor, haims, fun w hw => .inr (hclear w hw)⟩

theorem not_mem_path {away : Set Square} {r : Piece} (hr : b u = some r) (hau : u ∉ away)
    (hclear : ∀ w ∈ q.path v k, w ∈ away ∨ b w = none) : u ∉ q.path v k := by
  intro hmem
  rcases hclear u hmem with haway | hempty
  · exact hau haway
  · rw [hempty] at hr
    cases hr

/-- **Lines apart.** Two pieces that attack a square, once some others are away, share no square of their ways. -/
theorem Board.Opened.unique {away : Set Square} (hu : b.Opened c away k u) (hv : b.Opened c away k v) (hau : u ∉ away)
    (hav : v ∉ away) (htu : t ∈ b.line u k) (htv : t ∈ b.line v k) : u = v := by
  obtain ⟨q, hq, -, haims, hclear⟩ := hu
  obtain ⟨r, hr, -, haims', hclear'⟩ := hv
  have hnu := not_mem_path hq hau hclear'
  have hnv := not_mem_path hr hav hclear
  rw [line_some hq, List.mem_cons] at htu
  rw [line_some hr, List.mem_cons] at htv
  rcases htu with rfl | htu
  · rcases htv with heq | htv
    · exact heq
    · exact absurd htv hnu
  · rcases htv with rfl | htv
    · exact absurd htu hnv
    · obtain ⟨d, hd, htk, hut⟩ := mem_path haims htu
      obtain ⟨d', hd', htk', hvt⟩ := mem_path haims' htv
      obtain rfl : d = d' := (ray_towards hd htk).trans (ray_towards hd' htk').symm
      have huk := ray_trans hd htk hut
      have hvk := ray_trans hd htk hvt
      rcases ray_total hd hut hvt with heq | huv | hvu
      · exact heq
      · exact absurd (path_of_ray htu hd hvk huv) hnv
      · exact absurd (path_of_ray htv hd huk hvu) hnu

end

section
variable {p : Position} {s t u k : Square} {promotion : Option Promotion}

def Position.Emptied (p : Position) (s t : Square) : Set Square :=
  {w | w = s ∨ p.TakesEnPassant s t ∧ fileIdx w = fileIdx t ∧ rankIdx w = rankIdx s}

theorem after_emptied (u : Square) (hu : u ≠ t) : p.after (.plain s t promotion) u = none ↔ u ∈ p.Emptied s t ∨ p.board u = none := by
  rw [Position.after_plain, if_neg hu]
  by_cases hs : u = s
  · rw [if_pos hs]
    exact iff_of_true rfl (.inl (.inl hs))
  · rw [if_neg hs]
    by_cases hpassed : p.TakesEnPassant s t ∧ fileIdx u = fileIdx t ∧ rankIdx u = rankIdx s
    · rw [if_pos hpassed]
      exact iff_of_true rfl (.inl (.inr hpassed))
    · rw [if_neg hpassed, or_iff_right]
      rintro (h | h)
      · exact hs h
      · exact hpassed h

theorem after_unmoved (hu : u ≠ t) (hemptied : u ∉ p.Emptied s t) : p.after (.plain s t promotion) u = p.board u := by
  rw [Position.after_plain, if_neg hu, if_neg (fun h => hemptied (.inl h)), if_neg (fun h => hemptied (.inr h))]

theorem after_target (h : p.Plays s t promotion) : ∃ q, p.after (.plain s t promotion) t = some q ∧ q.color = p.turn := by
  rw [Position.after_plain, if_pos rfl]
  exact h.placed_owned

/-- A piece that has not moved attacks a square when the way is free or the move has freed it. -/
theorem attacker_after_plain (h : p.Plays s t promotion) (c : Color) (hu : u ≠ t) :
    (p.after (.plain s t promotion)).Attacker c k u ↔
      u ∉ p.Emptied s t ∧ p.board.Opened c (p.Emptied s t) k u ∧ t ∉ p.board.line u k := by
  obtain ⟨r, hr, -⟩ := after_target h
  by_cases hemptied : u ∈ p.Emptied s t
  · refine iff_of_false ?_ (fun hc => hc.1 hemptied)
    rintro ⟨q, hq, -⟩
    rw [(after_emptied u hu).mpr (.inl hemptied)] at hq
    cases hq
  · rw [Board.Attacker, after_unmoved hu hemptied]
    simp only [attacks_iff]
    constructor
    · rintro ⟨q, hq, hcolor, haims, hclear⟩
      have htarget : t ∉ q.path u k := by
        intro hmem
        rw [hclear t hmem] at hr
        cases hr
      refine ⟨hemptied, ⟨q, hq, hcolor, haims, fun w hw => ?_⟩, ?_⟩
      · refine (after_emptied w ?_).mp (hclear w hw)
        rintro rfl
        exact htarget hw
      · rw [line_some hq, List.mem_cons, not_or]
        exact ⟨hu.symm, htarget⟩
    · rintro ⟨-, ⟨q, hq, hcolor, haims, hclear⟩, htarget⟩
      rw [line_some hq, List.mem_cons, not_or] at htarget
      refine ⟨q, hq, hcolor, haims, fun w hw => (after_emptied w ?_).mpr (hclear w hw)⟩
      rintro rfl
      exact htarget.2 hw

theorem attacked_after_plain (h : p.Plays s t promotion) : (p.after (.plain s t promotion)).Attacked p.turn.other k ↔
    ∃ u, u ∉ p.Emptied s t ∧ p.board.Opened p.turn.other (p.Emptied s t) k u ∧ t ∉ p.board.line u k := by
  constructor
  · rintro ⟨u, hattacker⟩
    have hu : u ≠ t := by
      rintro rfl
      obtain ⟨q, hq, hcolor, -⟩ := hattacker
      obtain ⟨r, hr, hcolor'⟩ := after_target h
      obtain rfl := Option.some_inj.mp (hr.symm.trans hq)
      rw [hcolor'] at hcolor
      exact Color.other_ne p.turn hcolor.symm
    exact ⟨u, (attacker_after_plain h p.turn.other hu).mp hattacker⟩
  · rintro ⟨u, hopened⟩
    refine ⟨u, (attacker_after_plain h p.turn.other ?_).mpr hopened⟩
    rintro rfl
    obtain ⟨-, ⟨q, hq, -⟩, htarget⟩ := hopened
    apply htarget
    rw [line_some hq]
    exact List.mem_cons_self

end

namespace ValidPosition
variable {p : ValidPosition} {s t u k : Square} {promotion : Option Promotion}

theorem king_at (hk : p.board k = some ⟨p.turn, .king⟩) : p.board.InCheck p.turn ↔ p.board.Attacked p.turn.other k := by
  constructor
  · rintro ⟨u, hu, hattacked⟩
    rw [(p.one_king p.turn).unique hk hu]
    exact hattacked
  · exact fun h => ⟨k, hk, h⟩

/-- The king that does not move is in check when its square is attacked. -/
theorem inCheck_after (h : p.Plays s t promotion) (hk : p.board k = some ⟨p.turn, .king⟩) (hs : s ≠ k) :
    (p.after (.plain s t promotion)).InCheck p.turn ↔ (p.after (.plain s t promotion)).Attacked p.turn.other k := by
  have hnot : p.board s ≠ some ⟨p.turn, .king⟩ := fun hking => hs ((p.one_king p.turn).unique hking hk)
  constructor
  · rintro ⟨u, hu, hattacked⟩
    rw [after_plain_king h hnot] at hu
    rw [(p.one_king p.turn).unique hk hu]
    exact hattacked
  · exact fun hattacked => ⟨k, (after_plain_king h hnot k).mpr hk, hattacked⟩

theorem opened_source (h : p.Plays s t promotion) (hu : p.board.Opened p.turn.other {s} k u) : u ∉ ({s} : Set Square) := by
  rintro rfl
  obtain ⟨q, hq, hpseudo⟩ := h.source
  obtain ⟨r, hr, hcolor, -⟩ := hu
  obtain rfl := Option.some_inj.mp (hq.symm.trans hr)
  exact Color.other_ne p.turn (hcolor.symm.trans hpseudo.1)

/-- A move of another piece than the king keeps it safe when it ends on the line of every piece that
gives check, or would without the piece that moves. -/
theorem legal_iff_lines (h : p.Plays s t promotion) (hpassing : ¬ p.TakesEnPassant s t) (hk : p.board k = some ⟨p.turn, .king⟩)
    (hs : s ≠ k) : p.Legal (.plain s t promotion) ↔ ∀ u, p.board.Opened p.turn.other {s} k u → t ∈ p.board.line u k := by
  have hemptied : p.Emptied s t = {s} := by
    funext w
    apply propext
    exact ⟨fun hw => hw.resolve_right fun hc => hpassing hc.1, .inl⟩
  change p.Plays s t promotion ∧ ¬ (p.after (.plain s t promotion)).InCheck p.turn ↔ _
  rw [and_iff_right h, inCheck_after h hk hs, attacked_after_plain h, hemptied, not_exists]
  apply forall_congr'
  intro u
  constructor
  · intro hnot hu
    by_contra htarget
    exact hnot ⟨opened_source h hu, hu, htarget⟩
  · rintro hline ⟨-, hu, htarget⟩
    exact htarget (hline hu)

/-- No step of the king goes to a square that is attacked before. -/
theorem king_step_safe (h : p.Legal (.plain k t promotion)) (hk : p.board k = some ⟨p.turn, .king⟩) :
    ¬ p.board.Attacked p.turn.other t := by
  rintro ⟨u, hu⟩
  have hopened := Board.Attacker.opened hu (p.Emptied k t)
  have hnot : ¬ p.TakesEnPassant k t := by
    rintro ⟨hpawn, -⟩
    rw [hk] at hpawn
    cases hpawn
  have hne : u ∉ p.Emptied k t := by
    rintro (rfl | hpassed)
    · obtain ⟨q, hq, hcolor, -⟩ := hu
      obtain rfl := Option.some_inj.mp (hk.symm.trans hq)
      exact Color.other_ne p.turn hcolor.symm
    · exact hnot hpassed.1
  obtain ⟨q, hq, hcolor, haims, hclear⟩ := hopened
  refine h.2 ⟨t, (after_plain_moved h.1 hk t).mpr rfl, (attacked_after_plain h.1).mpr ⟨u, hne, ⟨q, hq, hcolor, haims, hclear⟩, ?_⟩⟩
  rw [line_some hq, List.mem_cons, not_or]
  refine ⟨?_, fun hmem => ?_⟩
  · rintro rfl
    exact aims_irrefl q _ haims
  · obtain ⟨d, hd, hself, -⟩ := mem_path haims hmem
    exact ray_irrefl hd t hself

/-- A king that is not in check is safe on every square that is not attacked. -/
theorem king_step_legal (h : p.Plays k t promotion) (hk : p.board k = some ⟨p.turn, .king⟩) (hcheck : ¬ p.board.InCheck p.turn)
    (hsafe : ¬ p.board.Attacked p.turn.other t) : p.Legal (.plain k t promotion) := by
  refine ⟨h, ?_⟩
  rintro ⟨v, hv, hattacked⟩
  obtain rfl := (after_plain_moved h hk v).mp hv
  obtain ⟨u, hu, ⟨q, hq, hcolor, haims, hclear⟩, -⟩ := (attacked_after_plain h).mp hattacked
  have hemptied {w : Square} (hw : w ∈ p.Emptied k v) : w = k := by
    rcases hw with hw | ⟨⟨hpawn, -⟩, -⟩
    · exact hw
    · rw [hk] at hpawn
      cases hpawn
  by_cases hway : k ∈ q.path u v
  · obtain ⟨haims', hpath⟩ := aims_of_path haims hway
    refine hcheck ⟨k, hk, u, q, hq, hcolor, attacks_iff.mpr ⟨haims', fun w hw => ?_⟩⟩
    obtain ⟨hwv, hne⟩ := hpath w hw
    exact (hclear w hwv).resolve_left fun haway => hne (hemptied haway)
  · refine hsafe ⟨u, q, hq, hcolor, attacks_iff.mpr ⟨haims, fun w hw => ?_⟩⟩
    refine (hclear w hw).resolve_left fun haway => hway ?_
    rw [← hemptied haway]
    exact hw

private theorem castled_lines : ∀ (c : Color) (side : Side), ∀ d ∈ directions, rookCastled c side ∈ ray d (kingCastled c side) →
    ∀ u ∈ ray d (rookCastled c side), u = kingHome c ∨ kingHome c ∈ ray d (rookCastled c side) ∧ u ∈ ray d (kingHome c) := by
  intro c side
  cases c <;> cases side <;> decide +kernel

/-- A castling move whose king is not in check behind it ends on a square that is not attacked before. -/
theorem castle_legal {side : Side} (h : p.Castles side)
    (hsafe : ∀ u ∈ [kingHome p.turn, rookCastled p.turn side], ¬ p.board.Attacked p.turn.other u)
    (hafter : ¬ (p.after (.castle side)).InCheck p.turn) : p.Legal (.castle side) := by
  obtain ⟨hkingHome, hrookHome, hkingCastled, hrookCastled⟩ := Position.castle_squares h
  have htarget : ¬ p.board.Attacked p.turn.other (kingCastled p.turn side) := by
    rintro ⟨u, q, hq, hcolor, hattack⟩
    obtain ⟨haims, hclear⟩ := attacks_iff.mp hattack
    have hne {v : Square} {type : PieceType} (hv : p.board v = some ⟨p.turn, type⟩) : u ≠ v := by
      rintro rfl
      obtain rfl := Option.some_inj.mp (hv.symm.trans hq)
      exact Color.other_ne p.turn hcolor.symm
    have hempty {v : Square} (hv : p.board v = none) : u ≠ v := by
      rintro rfl
      rw [hv] at hq
      cases hq
    have hsource : p.after (.castle side) u = some q := by
      rw [Position.after_castle, if_neg (hempty hkingCastled), if_neg (hempty hrookCastled), if_neg]
      · exact hq
      · exact not_or.mpr ⟨hne hkingHome, hne hrookHome⟩
    refine hafter ⟨_, (after_castle_king h _).mpr rfl, u, q, hsource, hcolor, attacks_iff.mpr ⟨haims, fun w hw => ?_⟩⟩
    obtain ⟨d, hd, hwk, huw⟩ := mem_path haims hw
    rw [Position.after_castle, if_neg, if_neg]
    · split
      · rfl
      · exact hclear w hw
    · rintro rfl
      rcases castled_lines p.turn side d hd hwk u huw with rfl | ⟨hkr, huk⟩
      · exact hne hkingHome rfl
      · rw [hclear _ (path_of_ray hw hd (ray_trans hd hwk hkr) huk)] at hkingHome
        cases hkingHome
    · rintro rfl
      exact ray_irrefl hd _ hwk
  refine ⟨h.1, h.2, ?_⟩
  simp only [List.forall_mem_cons, List.not_mem_nil, false_implies, implies_true, and_true] at hsafe ⊢
  exact ⟨hsafe.1, hsafe.2, htarget⟩

theorem clear_way (h : p.Plays s t promotion) {q : Piece} (hq : p.board s = some q) (hknight : q.type ≠ .knight) : p.board.Clear s t := by
  obtain ⟨r, hr, hcolor, -, hmove⟩ := h.source
  obtain rfl := Option.some_inj.mp (hq.symm.trans hr)
  have hnear (hnear : max (fileStep s t).natAbs (rankStep s t).natAbs ≤ 1) : p.board.Clear s t := by
    rw [Board.Clear, between_adjacent hnear]
    intro u hu
    cases hu
  have hforward : p.turn.forward.natAbs = 1 := by cases p.turn <;> rfl
  by_cases hpawn : q.type = .pawn
  · rw [if_pos hpawn] at hmove
    have hattack (hattack : p.board.Attacks ⟨p.turn, .pawn⟩ s t) : p.board.Clear s t := by
      obtain ⟨hfile, hrank⟩ : (fileStep s t).natAbs = 1 ∧ rankStep s t = p.turn.forward := hattack
      apply hnear
      rw [hfile, hrank, hforward]
      decide
    rcases hmove.1 with ⟨hfile, -, hrank | ⟨-, -, hclear⟩⟩ | htakes | hpasses
    · apply hnear
      rw [hfile, hrank, hforward]
      decide
    · exact hclear
    · exact hattack htakes.1
    · exact hattack hpasses.2.1
  · rw [if_neg hpawn] at hmove
    have hattack := hmove.1
    rw [Board.Attacks] at hattack
    cases htype : q.type with
    | pawn => exact absurd htype hpawn
    | knight => exact absurd htype hknight
    | bishop | rook | queen =>
      rw [htype] at hattack
      exact hattack.2
    | king =>
      rw [htype] at hattack
      exact hnear (Nat.le_of_eq hattack)

theorem knight_leaves {d : Direction} (hd : d ∈ directions) (h : p.Plays s t promotion) {q : Piece} (hq : p.board s = some q)
    (hknight : q.type = .knight) : t ∉ ray d s := by
  obtain ⟨r, hr, -, -, hmove⟩ := h.source
  obtain rfl := Option.some_inj.mp (hq.symm.trans hr)
  rw [if_neg (by rw [hknight]; decide)] at hmove
  have hleap := hmove.1
  rw [Board.Attacks, hknight] at hleap
  intro ht
  obtain ⟨i, hi, hi'⟩ := (mem_ray hd).mp ht
  obtain ⟨hrank, hfile, -⟩ := direction_steps hd
  rw [hi, hi'] at hleap
  rcases hrank with h1 | h1 | h1 <;> rcases hfile with h2 | h2 | h2 <;> rw [h1, h2] at hleap <;> omega

/-- A pinned piece stays between its king and the piece that pins it, or takes that piece, exactly when
it stays on a line with the king. -/
theorem pinned_stays (h : p.Plays s t promotion) (hk : p.board k = some ⟨p.turn, .king⟩) (hu : p.board.Opened p.turn.other {s} k u)
    (hpin : s ∈ p.board.line u k) : t ∈ p.board.line u k ↔ InLine k s t := by
  have hsource := opened_source h hu
  obtain ⟨q, hq, hcolor, haims, -⟩ := hu
  obtain ⟨r, hr, hpseudo⟩ := h.source
  rw [line_some hq, List.mem_cons] at hpin ⊢
  have hpath : s ∈ q.path u k := hpin.resolve_left fun heq => hsource heq.symm
  obtain ⟨d, hd, hsk, hus⟩ := mem_path haims hpath
  have huk := ray_trans hd hsk hus
  constructor
  · rintro (rfl | ht)
    · exact inLine_of_ray hd hsk huk
    · obtain ⟨d', hd', htk, hut⟩ := mem_path haims ht
      obtain rfl : d = d' := (ray_towards hd huk).trans (ray_towards hd' (ray_trans hd' htk hut)).symm
      exact inLine_of_ray hd hsk htk
  · intro hline
    have htk : t ≠ k := by
      rintro rfl
      exact target_not_king h p.turn hk
    have hway : t ∈ ray d s ∨ t ∈ ray (-d) s := ray_of_inLine hd hsk h.source_ne_target hline
    have hknight : r.type ≠ .knight := by
      intro hknight
      rcases hway with hway | hway
      · exact knight_leaves hd h hr hknight hway
      · exact knight_leaves (neg_direction hd) h hr hknight hway
    have hclear := clear_way h hr hknight
    rcases hway with hahead | hback
    · rcases ray_total hd hahead hus with rfl | htu | hut
      · exact .inl rfl
      · have hblocked := hclear u ((mem_between hd hahead).mpr ⟨hus, htu⟩)
        rw [hq] at hblocked
        cases hblocked
      · exact .inr (path_of_ray hpath hd (ray_trans hd hsk hahead) hut)
    · have hst := (mem_ray_neg hd).mpr hback
      have hks := (mem_ray_neg hd).mp hsk
      rcases ray_total (neg_direction hd) hback hks with heq | htk' | hkt
      · exact absurd heq htk
      · have hblocked := hclear k ((mem_between (neg_direction hd) hback).mpr ⟨hks, htk'⟩)
        rw [hk] at hblocked
        cases hblocked
      · exact .inr (path_of_ray hpath hd ((mem_ray_neg hd).mpr hkt) (ray_trans hd hst hus))

end ValidPosition

/-- No more than two pieces attack the square, and no more than one of them is a pawn or a knight. -/
structure FewCheckers (b : Board) (c : Color) (k : Square) : Prop where
  two : ∀ u v w, b.Attacker c k u → b.Attacker c k v → b.Attacker c k w → u = v ∨ u = w ∨ v = w
  leaper : ∀ u v, b.Attacker c k u → b.Attacker c k v → (∀ q ∈ b u, q.Leaps) → (∀ q ∈ b v, q.Leaps) → u = v

/-- The king of the side to move is attacked as a move can attack it. -/
def Position.FewCheckers (p : Position) : Prop := ∀ k, p.board k = some ⟨p.turn, .king⟩ → Chess.FewCheckers p.board p.turn.other k

theorem few_of_single {b : Board} {c : Color} {k x : Square} (h : ∀ u, b.Attacker c k u → u = x) : FewCheckers b c k where
  two u v _ hu hv _ := .inl ((h u hu).trans (h v hv).symm)
  leaper u v hu hv _ _ := (h u hu).trans (h v hv).symm

theorem Position.few_of_safe {p : Position} (h : ¬ p.board.InCheck p.turn) : p.FewCheckers := by
  intro k hk
  have hnone (u : Square) : ¬ p.board.Attacker p.turn.other k u := fun hu => h ⟨k, hk, u, hu⟩
  exact few_of_single (x := k) fun u hu => absurd hu (hnone u)

/-- More than one piece gives check to the king of the colour. -/
def Board.DoubleCheck (b : Board) (c : Color) : Prop :=
  ∃ k u v, b k = some ⟨c, .king⟩ ∧ b.Attacker c.other k u ∧ b.Attacker c.other k v ∧ u ≠ v

theorem doubleCheck_flip {b : Board} {c : Color} : b.flip.DoubleCheck c.other ↔ b.DoubleCheck c := by
  have hforth {b : Board} {c : Color} (h : b.DoubleCheck c) : b.flip.DoubleCheck c.other := by
    obtain ⟨k, u, v, hk, hu, hv, hne⟩ := h
    refine ⟨mirror k, mirror u, mirror v, Board.flip_some.mpr hk, Board.attacker_flip hu, Board.attacker_flip hv, ?_⟩
    exact fun heq => hne (mirror_inj.mp heq)
  refine ⟨fun h => ?_, hforth⟩
  have hback := hforth h
  rw [Board.flip_flip, Color.other_other] at hback
  exact hback

namespace GamePosition

theorem few_flip {p : GamePosition} (h : p.FewCheckers) : p.flip.FewCheckers := by
  intro k hk
  have hback {c : Color} {u : Square} (hu : p.flip.board.Attacker c k u) : p.board.Attacker c.other (mirror k) (mirror u) := by
    rw [← p.board.flip_flip]
    exact Board.attacker_flip hu
  have hking : p.board (mirror k) = some ⟨p.turn, .king⟩ := by
    rw [← Board.flip_some, mirror_mirror]
    exact hk
  have hleaps {u : Square} (hleap : ∀ q ∈ p.flip.board u, q.Leaps) : ∀ q ∈ p.board (mirror u), q.Leaps := by
    intro q hq
    have hq' := Board.flip_some.mpr hq
    rw [mirror_mirror] at hq'
    exact hleap q.flip hq'
  have hfew := h _ hking
  rw [← Color.other_other p.turn.other] at hfew
  constructor
  · intro u v w hu hv hw
    have hthree := hfew.two _ _ _ (hback hu) (hback hv) (hback hw)
    simp only [mirror_inj] at hthree
    exact hthree
  · intro u v hu hv hleap hleap'
    exact mirror_inj.mp (hfew.leaper _ _ (hback hu) (hback hv) (hleaps hleap) (hleaps hleap'))

variable {p : GamePosition} {s t u v k : Square} {promotion : Option Promotion}

/-- A piece that has not moved gives check through a square that the move has emptied. -/
theorem discovered (h : p.Plays s t promotion) (hk : p.board k = some ⟨p.turn.other, .king⟩) (hu : u ≠ t)
    (hattacker : (p.after (.plain s t promotion)).Attacker p.turn k u) :
    u ∉ p.Emptied s t ∧ p.board.Opened p.turn (p.Emptied s t) k u ∧ ∃ q ∈ p.board u, ∃ w ∈ q.path u k, w ∈ p.Emptied s t := by
  obtain ⟨hne, hopened, -⟩ := (attacker_after_plain h p.turn hu).mp hattacker
  obtain ⟨q, hq, hcolor, haims, hclear⟩ := hopened
  refine ⟨hne, ⟨q, hq, hcolor, haims, hclear⟩, q, hq, ?_⟩
  by_contra hclosed
  refine p.not_in_check ⟨k, hk, u, q, hq, by rw [Color.other_other, hcolor], attacks_iff.mpr ⟨haims, fun w hw => ?_⟩⟩
  exact (hclear w hw).resolve_left fun haway => hclosed ⟨w, hw, haway⟩

theorem discovered_unique (h : p.Plays s t promotion) (hk : p.board k = some ⟨p.turn.other, .king⟩) (hu : u ≠ t) (hv : v ≠ t)
    (hattacker : (p.after (.plain s t promotion)).Attacker p.turn k u) (hattacker' : (p.after (.plain s t promotion)).Attacker p.turn k v)
    {w : Square} (hwu : w ∈ p.board.line u k) (hwv : w ∈ p.board.line v k) : u = v := by
  obtain ⟨hne, hopened, -⟩ := discovered h hk hu hattacker
  obtain ⟨hne', hopened', -⟩ := discovered h hk hv hattacker'
  exact hopened.unique hopened' hne hne' hwu hwv

/-- A pawn that takes en passant and gives check itself opens no line through the pawn that it takes: that
one was a knight's step away from the king. -/
theorem passed_apart (h : p.Plays s t promotion) (hpassing : p.TakesEnPassant s t)
    (hattacker : (p.after (.plain s t promotion)).Attacker p.turn k t) {w : Square} (hfile : fileIdx w = fileIdx t)
    (hrank : rankIdx w = rankIdx s) {d : Direction} (hd : d ∈ directions) : w ∉ ray d k := by
  obtain rfl := passing_not_promoted h hpassing
  obtain ⟨q, hq, -, hattack⟩ := hattacker
  rw [Position.after_plain, if_pos rfl] at hq
  obtain rfl := Option.some_inj.mp (hpassing.1.symm.trans hq)
  have hstep : rankStep s t = p.turn.forward := hpassing.2.1.2
  obtain ⟨hside, hahead⟩ : (fileStep t k).natAbs = 1 ∧ rankStep t k = p.turn.forward := hattack
  intro hw
  obtain ⟨n, hn, hn'⟩ := (mem_ray hd).mp hw
  obtain ⟨hd1, hd2, -⟩ := direction_steps hd
  have hforward : p.turn.forward = 1 ∨ p.turn.forward = -1 := by cases p.turn <;> simp [Color.forward]
  rw [rankStep] at hstep hahead hn
  rw [fileStep] at hside hn'
  rcases hd1 with h1 | h1 | h1 <;> rcases hd2 with h2 | h2 | h2 <;> rw [h1] at hn <;> rw [h2] at hn' <;> omega

/-- A piece that gives check without having moved sees along a line, through the source of the move or
through the pawn that it takes en passant. -/
theorem discovered_way (h : p.Plays s t promotion) (hk : p.board k = some ⟨p.turn.other, .king⟩) (hu : u ≠ t)
    (hattacker : (p.after (.plain s t promotion)).Attacker p.turn k u) :
    s ∈ p.board.line u k ∨ p.TakesEnPassant s t ∧
      ∃ w ∈ p.board.line u k, (fileIdx w = fileIdx t ∧ rankIdx w = rankIdx s) ∧ ∃ d ∈ directions, w ∈ ray d k := by
  obtain ⟨-, ⟨q, hq, -, haims, -⟩, r, hr, w, hw, hemptied⟩ := discovered h hk hu hattacker
  obtain rfl := Option.some_inj.mp (hq.symm.trans hr)
  have hline : w ∈ p.board.line u k := by
    rw [line_some hq]
    exact List.mem_cons_of_mem _ hw
  obtain ⟨d, hd, hwk, -⟩ := mem_path haims hw
  rcases hemptied with rfl | ⟨hpassing, hsquare⟩
  · exact .inl hline
  · exact .inr ⟨hpassing, w, hline, hsquare, d, hd, hwk⟩

theorem discovered_not_leaps (h : p.Plays s t promotion) (hk : p.board k = some ⟨p.turn.other, .king⟩) (hu : u ≠ t)
    (hattacker : (p.after (.plain s t promotion)).Attacker p.turn k u) :
    ¬ ∀ q ∈ p.after (.plain s t promotion) u, q.Leaps := by
  obtain ⟨hne, -, q, hq, w, hw, -⟩ := discovered h hk hu hattacker
  intro hleaps
  rw [after_unmoved hu hne] at hleaps
  rcases hleaps q hq with htype | htype
  · rw [Piece.path, htype] at hw
    cases hw
  · rw [Piece.path, htype] at hw
    cases hw

/-- Of two pieces that give check one has moved or a line is opened through each of two emptied squares. -/
theorem few_after_plain (h : p.Plays s t promotion) (hk : p.board k = some ⟨p.turn.other, .king⟩) :
    FewCheckers (p.after (.plain s t promotion)) p.turn k where
  two u v w hu hv hw := by
    have hsource {x y : Square} (hx : x ≠ t) (hy : y ≠ t) (hax : (p.after (.plain s t promotion)).Attacker p.turn k x)
        (hay : (p.after (.plain s t promotion)).Attacker p.turn k y) :
        s ∈ p.board.line x k → s ∈ p.board.line y k → x = y := discovered_unique h hk hx hy hax hay
    have hpassed {x y : Square} (hx : x ≠ t) (hy : y ≠ t) (hax : (p.after (.plain s t promotion)).Attacker p.turn k x)
        (hay : (p.after (.plain s t promotion)).Attacker p.turn k y) : s ∉ p.board.line x k → s ∉ p.board.line y k → x = y := by
      intro hnx hny
      obtain ⟨-, a, ha, hsquare, -⟩ := (discovered_way h hk hx hax).resolve_left hnx
      obtain ⟨-, c, hc, hsquare', -⟩ := (discovered_way h hk hy hay).resolve_left hny
      obtain rfl : a = c := square_ext (hsquare.1.trans hsquare'.1.symm) (hsquare.2.trans hsquare'.2.symm)
      exact discovered_unique h hk hx hy hax hay ha hc
    have hmover {x : Square} (hx : x ≠ t) (hax : (p.after (.plain s t promotion)).Attacker p.turn k x)
        (hat : (p.after (.plain s t promotion)).Attacker p.turn k t) : s ∈ p.board.line x k := by
      by_contra hnx
      obtain ⟨hpassing, a, -, hsquare, d, hd, hmem⟩ := (discovered_way h hk hx hax).resolve_left hnx
      exact passed_apart h hpassing hat hsquare.1 hsquare.2 hd hmem
    by_cases hut : u = t
    · subst hut
      by_cases hvt : v = u
      · exact .inl hvt.symm
      · by_cases hwt : w = u
        · exact .inr (.inl hwt.symm)
        · exact .inr (.inr (hsource hvt hwt hv hw (hmover hvt hv hu) (hmover hwt hw hu)))
    · by_cases hvt : v = t
      · subst hvt
        by_cases hwt : w = v
        · exact .inr (.inr hwt.symm)
        · exact .inr (.inl (hsource hut hwt hu hw (hmover hut hu hv) (hmover hwt hw hv)))
      · by_cases hwt : w = t
        · subst hwt
          exact .inl (hsource hut hvt hu hv (hmover hut hu hw) (hmover hvt hv hw))
        · have huv := hsource hut hvt hu hv
          have huw := hsource hut hwt hu hw
          have hvw := hsource hvt hwt hv hw
          have huv' := hpassed hut hvt hu hv
          have huw' := hpassed hut hwt hu hw
          have hvw' := hpassed hvt hwt hv hw
          tauto
  leaper u v hu hv hleap hleap' := by
    have htarget {x : Square} (hax : (p.after (.plain s t promotion)).Attacker p.turn k x)
        (hleap : ∀ q ∈ p.after (.plain s t promotion) x, q.Leaps) : x = t := by
      by_contra hx
      exact discovered_not_leaps h hk hx hax hleap
    exact (htarget hu hleap).trans (htarget hv hleap').symm

/-- No line runs through a corner, and a line through the home of the king runs through or to the castled rook. -/
private theorem castling_lines : ∀ (c : Color) (side : Side), ∀ d ∈ directions,
    (ray d (rookHome c side) = [] ∨ ray (-d) (rookHome c side) = []) ∧
      ∀ k ∈ ray (-d) (kingHome c), ∀ u ∈ ray d (kingHome c), k = rookCastled c side ∨ u = rookCastled c side ∨
        rookCastled c side ∈ ray d k ∧ u ∈ ray d (rookCastled c side) := by
  intro c side
  cases c <;> cases side <;> decide +kernel

theorem few_after_castle {side : Side} (h : p.Legal (.castle side)) (hk : p.board k = some ⟨p.turn.other, .king⟩) :
    FewCheckers (p.after (.castle side)) p.turn k := by
  apply few_of_single (x := rookCastled p.turn side)
  rintro u ⟨q, hq, hcolor, hattack⟩
  by_contra hrook
  obtain ⟨hkingHome, hrookHome, hkingCastled, hrookCastled⟩ := Position.castle_squares (Position.castles_of_legal h)
  obtain ⟨haims, hclear⟩ := attacks_iff.mp hattack
  rw [Option.mem_def, Position.after_castle] at hq
  split at hq
  · rename_i hu
    obtain rfl := Option.some_inj.mp hq
    refine h.2.2 (kingCastled p.turn side) (by simp) ⟨k, _, hk, rfl, ?_⟩
    have hadjacent : Adjacent u k := haims
    rw [hu, Adjacent] at hadjacent
    change Adjacent k (kingCastled p.turn side)
    rw [Adjacent, fileStep, rankStep]
    rw [fileStep, rankStep] at hadjacent
    omega
  · split at hq
    · cases hq
    · refine p.not_in_check ⟨k, hk, u, q, hq, by rw [Color.other_other, hcolor], attacks_iff.mpr ⟨haims, fun w hw => ?_⟩⟩
      obtain ⟨d, hd, hwk, huw⟩ := mem_path haims hw
      have hkw := (mem_ray_neg hd).mp hwk
      have hempty := hclear w hw
      rw [Position.after_castle] at hempty
      split at hempty
      · cases hempty
      · split at hempty
        · cases hempty
        · split at hempty
          · rename_i hhome
            exfalso
            rcases hhome with rfl | rfl
            · rcases (castling_lines p.turn side d hd).2 k hkw u huw with hkr | hur | ⟨hrk, hur⟩
              · rw [hkr, hrookCastled] at hk
                cases hk
              · exact hrook hur
              · have hfree := hclear _ (path_of_ray hw hd hrk hur)
                rw [Position.after_castle] at hfree
                split at hfree
                · cases hfree
                · rw [if_pos rfl] at hfree
                  cases hfree
            · rcases (castling_lines p.turn side d hd).1 with hnil | hnil
              · rw [hnil] at huw
                cases huw
              · rw [hnil] at hkw
                cases hkw
          · exact hempty

/-- **Few checkers.** Behind any legal move the king is attacked by no more than two pieces, and no more
than one of them is a pawn or a knight. -/
theorem few_push {m : Move} (h : p.Legal m) : (p.push m h).FewCheckers := by
  intro k hk
  rw [push_board, push_turn] at hk ⊢
  rw [Color.other_other]
  cases m with
  | plain s t promotion =>
    have hs : p.board s ≠ some ⟨p.turn.other, .king⟩ := by
      obtain ⟨q, hq, hpseudo⟩ := Position.source_of_legal h
      rw [hq]
      intro hking
      obtain rfl := Option.some_inj.mp hking
      exact Color.other_ne p.turn hpseudo.1
    exact few_after_plain h.1 ((ValidPosition.after_plain_king h.1 hs k).mp hk)
  | castle side => exact few_after_castle h ((ValidPosition.after_castle_other (Position.castles_of_legal h) k).mp hk)

end GamePosition

theorem Line.few (g : Line) (h : (g.position 0).FewCheckers) {i : Nat} (hi : i ≤ g.length) : (g.position i).FewCheckers := by
  cases i with
  | zero => exact h
  | succ i =>
    rw [g.push i hi]
    exact GamePosition.few_push _

end ChessAnalytics.Chess
