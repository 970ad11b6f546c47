import ChessAnalytics.Chess.Threats

/-! Positions in which too little is left on the board for a mate. So are all positions that come after
them, and none of them is a mate. -/
namespace ChessAnalytics.Chess

def Position.Checkmate (p : Position) : Prop := p.board.InCheck p.turn ∧ ∀ m, ¬ p.Legal m
def Position.Stalemate (p : Position) : Prop := ¬ p.board.InCheck p.turn ∧ ∀ m, ¬ p.Legal m

/-- `a1` is dark. -/
def isLight (s : Square) : Bool := (fileIdx s + rankIdx s) % 2 = 1

theorem isLight_mirror (s : Square) : isLight (mirror s) = !isLight s := by
  have hrank := rankIdx_lt s
  rw [isLight, isLight, fileIdx_mirror, rankIdx_mirror, ← decide_not, decide_eq_decide]
  omega

/-- The shade of the squares that a bishop or a knight attacks from there. -/
def Piece.shade (q : Piece) (s : Square) : Bool := if q.type = .knight then !isLight s else isLight s

theorem shade_bishop {q : Piece} (h : q.type = .bishop) (s : Square) : q.shade s = isLight s := by
  rw [Piece.shade, h, if_neg (by simp)]

theorem shade_of_aims {q : Piece} {s t : Square} (hq : q.type = .bishop ∨ q.type = .knight) (h : q.Aims s t) :
    isLight t = q.shade s := by
  obtain ⟨c, type⟩ := q
  simp only at hq
  rcases hq with rfl | rfl
  · obtain ⟨-, hsteps⟩ : Diagonal s t := h
    rw [fileStep, rankStep] at hsteps
    rw [shade_bishop rfl, isLight, isLight, decide_eq_decide]
    omega
  · have hsteps : (fileStep s t).natAbs = 1 ∧ (rankStep s t).natAbs = 2 ∨ (fileStep s t).natAbs = 2 ∧ (rankStep s t).natAbs = 1 := h
    rw [fileStep, rankStep] at hsteps
    rw [Piece.shade, if_pos rfl, isLight, isLight, ← decide_not, decide_eq_decide]
    omega

def Beside (s t : Square) : Prop := (fileStep s t).natAbs + (rankStep s t).natAbs = 1

theorem Beside.shade {s t : Square} (h : Beside s t) : isLight t ≠ isLight s := by
  rw [Beside, fileStep, rankStep] at h
  intro heq
  rw [isLight, isLight, decide_eq_decide] at heq
  omega

theorem Beside.adjacent {s t : Square} (h : Beside s t) : Adjacent s t := by
  rw [Beside] at h
  rw [Adjacent]
  omega

/-- Whatever square the other king is on, one of those beside a king is out of its reach. -/
theorem exists_beside {k e : Square} (hne : e ≠ k) (hapart : ¬ Adjacent e k) : ∃ t, Beside k t ∧ ¬ Adjacent e t := by
  have hfile := fileIdx_lt k
  have hrank := rankIdx_lt k
  have hdiffer : fileIdx e ≠ fileIdx k ∨ rankIdx e ≠ rankIdx k := by
    by_contra hsame
    apply hne
    rw [Fin.ext_iff]
    rw [fileIdx, fileIdx, rankIdx, rankIdx] at hsame
    omega
  rw [Adjacent, fileStep, rankStep] at hapart
  by_cases hfar : 2 ≤ ((fileIdx k : Int) - fileIdx e).natAbs
  · -- up or down the file of the king
    refine ⟨square (fileIdx k) (if rankIdx k = 0 then 1 else rankIdx k - 1), ?_, ?_⟩
    · rw [Beside, fileStep, rankStep, fileIdx_square _ hfile, rankIdx_square hfile (by split <;> omega)]
      split <;> omega
    · rw [Adjacent, fileStep, rankStep, fileIdx_square _ hfile]
      omega
  · have hside : (if fileIdx k = 0 then 1 else fileIdx k - 1) < 8 := by split <;> omega
    refine ⟨square (if fileIdx k = 0 then 1 else fileIdx k - 1) (rankIdx k), ?_, ?_⟩
    · rw [Beside, fileStep, rankStep, fileIdx_square _ hside, rankIdx_square hside hrank]
      split <;> omega
    · rw [Adjacent, fileStep, rankStep, rankIdx_square hside hrank]
      omega

/-- Beside the kings there is one bishop or knight at most, or there are bishops of one shade only. -/
structure Board.Insufficient (b : Board) : Prop where
  minor : ∀ s, ∀ q ∈ b s, q.type = .king ∨ q.type = .bishop ∨ q.type = .knight
  few : (∃ x, ∀ s, ∀ q ∈ b s, q.type ≠ .king → s = x) ∨
    ∃ light, ∀ s, ∀ q ∈ b s, q.type ≠ .king → q.type = .bishop ∧ isLight s = light

namespace Board.Insufficient
variable {b : Board} {q r : Piece} {s t : Square}

theorem alike (h : b.Insufficient) (hq : q ∈ b s) (hr : r ∈ b t) (hq' : q.type ≠ .king) (hr' : r.type ≠ .king) :
    s = t ∨ q.type = .bishop ∧ r.type = .bishop ∧ isLight s = isLight t := by
  rcases h.few with ⟨x, hx⟩ | ⟨light, hlight⟩
  · left
    rw [hx s q hq hq', hx t r hr hr']
  · right
    obtain ⟨hbishop, hs⟩ := hlight s q hq hq'
    obtain ⟨hbishop', ht⟩ := hlight t r hr hr'
    exact ⟨hbishop, hbishop', hs.trans ht.symm⟩

theorem one_shade (h : b.Insufficient) (hq : q ∈ b s) (hr : r ∈ b t) (hq' : q.type ≠ .king) (hr' : r.type ≠ .king) :
    q.shade s = r.shade t := by
  rcases h.alike hq hr hq' hr' with rfl | ⟨hbishop, hbishop', hlight⟩
  · rw [Option.some_inj.mp (hq.symm.trans hr)]
  · rw [shade_bishop hbishop, shade_bishop hbishop', hlight]

theorem aims_shade (h : b.Insufficient) (hq : q ∈ b s) (hq' : q.type ≠ .king) (haims : q.Aims s t) : isLight t = q.shade s :=
  shade_of_aims ((h.minor s q hq).resolve_left hq') haims

theorem flip (h : b.Insufficient) : b.flip.Insufficient := by
  have hpiece {s : Square} {q : Piece} (hq : q ∈ b.flip s) : q.flip ∈ b (mirror s) := by
    rw [Option.mem_def, ← Board.flip_some, mirror_mirror, Piece.flip_flip]
    exact hq
  refine ⟨fun s q hq => h.minor _ q.flip (hpiece hq), ?_⟩
  rcases h.few with ⟨x, hx⟩ | ⟨light, hlight⟩
  · left
    refine ⟨mirror x, fun s q hq hking => ?_⟩
    rw [← hx _ q.flip (hpiece hq) hking, mirror_mirror]
  · right
    refine ⟨!light, fun s q hq hking => ?_⟩
    obtain ⟨hbishop, hs⟩ := hlight _ q.flip (hpiece hq) hking
    refine ⟨hbishop, ?_⟩
    rw [← hs, isLight_mirror, Bool.not_not]

end Board.Insufficient

theorem insufficient_flip {b : Board} : b.flip.Insufficient ↔ b.Insufficient := by
  refine ⟨fun h => ?_, Board.Insufficient.flip⟩
  have hback := h.flip
  rw [Board.flip_flip] at hback
  exact hback

namespace ValidPosition
variable {p : ValidPosition} {s t : Square} {promotion : Option Promotion}

theorem king_unique {c : Color} {q : Piece} {s k : Square} (hk : p.board k = some ⟨c, .king⟩) (hq : q ∈ p.board s)
    (hcolor : q.color = c) (hking : q.type = .king) : s = k := by
  obtain ⟨c', type⟩ := q
  obtain rfl : c' = c := hcolor
  obtain rfl : type = .king := hking
  exact (p.one_king c').unique hq hk

/-- A king in check can step aside: to a square of the shade that none of the pieces attacks. -/
theorem insufficient_escape (h : p.board.Insufficient) (hcheck : p.board.InCheck p.turn) : ∃ m, p.Legal m := by
  obtain ⟨k, hk, u, q, hq, hcolor, hattack⟩ := hcheck
  obtain ⟨e, he, -⟩ := p.one_king p.turn.other
  have hne : e ≠ k := by
    rintro rfl
    have hcolors := Option.some_inj.mp (hk.symm.trans he)
    rw [Piece.mk.injEq] at hcolors
    exact Color.other_ne p.turn hcolors.1.symm
  have hapart : ¬ Adjacent e k := by
    intro hadjacent
    refine p.not_in_check ⟨e, he, k, ⟨p.turn, .king⟩, hk, (Color.other_other _).symm, ?_⟩
    change Adjacent k e
    rw [Adjacent, fileStep, rankStep] at hadjacent ⊢
    omega
  have hminor : q.type ≠ .king := by
    intro hking
    obtain rfl := king_unique he hq hcolor hking
    apply hapart
    obtain ⟨c, type⟩ := q
    obtain rfl : type = .king := hking
    exact hattack
  have hchecked : isLight k = q.shade u := h.aims_shade hq hminor (attacks_iff.mp hattack).1
  obtain ⟨t, hbeside, hreach⟩ := exists_beside hne hapart
  have hcolors (r : Piece) : r.color = p.turn ∨ r.color = p.turn.other := by
    cases r.color <;> cases p.turn <;> decide
  have hplays : p.Plays k t none := by
    refine ⟨_, hk, rfl, fun r hr => (hcolors r).resolve_left fun hours => ?_, ?_⟩
    · by_cases hking : r.type = .king
      · obtain rfl := king_unique hk hr hours hking
        exact hbeside.shade rfl
      · rcases h.alike hq hr hminor hking with rfl | ⟨hbishop, -, hlight⟩
        · obtain rfl := Option.some_inj.mp (hq.symm.trans hr)
          exact Color.other_ne p.turn (hcolor.symm.trans hours)
        · apply hbeside.shade
          rw [← hlight, hchecked, shade_bishop hbishop]
    · rw [if_neg (by simp)]
      exact ⟨hbeside.adjacent, rfl⟩
  refine ⟨.plain k t none, hplays, ?_⟩
  rintro ⟨v, hv, hattacked⟩
  obtain rfl := (after_plain_moved hplays hk v).mp hv
  obtain ⟨w, -, ⟨r, hr, hrcolor, haims, -⟩, -⟩ := (attacked_after_plain hplays).mp hattacked
  by_cases hking : r.type = .king
  · obtain rfl := king_unique he hr hrcolor hking
    apply hreach
    obtain ⟨c, type⟩ := r
    obtain rfl : type = .king := hking
    exact haims
  · apply hbeside.shade
    rw [hchecked, h.one_shade hq hr hminor hking]
    exact h.aims_shade hr hking haims

/-- A bishop stays on its shade, and only a pawn can become another piece. -/
theorem insufficient_plain (h : p.board.Insufficient) (hplays : p.Plays s t promotion) :
    (p.after (.plain s t promotion)).Insufficient := by
  obtain ⟨q, hq, -, -, hmove⟩ := hplays
  have hpawn : q.type ≠ .pawn := by
    intro hpawn
    have hminor := h.minor s q hq
    rw [hpawn] at hminor
    simp at hminor
  rw [if_neg hpawn] at hmove
  obtain ⟨hattack, rfl⟩ := hmove
  have hafter (u : Square) (r : Piece) (hr : r ∈ p.after (.plain s t none) u) : u = t ∧ r = q ∨ u ≠ s ∧ r ∈ p.board u := by
    rw [Position.after_plain] at hr
    split at hr
    · rename_i hut
      exact .inl ⟨hut, Option.some_inj.mp (hr.symm.trans hq)⟩
    · split at hr
      · cases hr
      · rename_i hus
        split at hr
        · cases hr
        · exact .inr ⟨hus, hr⟩
  constructor
  · intro u r hr
    rcases hafter u r hr with ⟨-, rfl⟩ | ⟨-, hr⟩
    · exact h.minor s r hq
    · exact h.minor u r hr
  · rcases h.few with ⟨x, hx⟩ | ⟨light, hlight⟩
    · left
      by_cases hking : q.type = .king
      · refine ⟨x, fun u r hr hne => ?_⟩
        rcases hafter u r hr with ⟨-, rfl⟩ | ⟨-, hr⟩
        · exact absurd hking hne
        · exact hx u r hr hne
      · refine ⟨t, fun u r hr hne => ?_⟩
        rcases hafter u r hr with ⟨hut, -⟩ | ⟨hus, hr⟩
        · exact hut
        · exact absurd ((hx u r hr hne).trans (hx s q hq hking).symm) hus
    · right
      refine ⟨light, fun u r hr hne => ?_⟩
      rcases hafter u r hr with ⟨rfl, rfl⟩ | ⟨-, hr⟩
      · obtain ⟨hbishop, hs⟩ := hlight s r hq hne
        refine ⟨hbishop, ?_⟩
        rw [h.aims_shade hq hne (attacks_iff.mp hattack).1, shade_bishop hbishop, hs]
      · exact hlight u r hr hne

theorem insufficient_after {m : Move} (h : p.board.Insufficient) (hm : p.Legal m) : (p.after m).Insufficient := by
  cases m with
  | plain s t promotion => exact insufficient_plain h hm.1
  | castle side =>
    -- castling takes a rook
    have hrook := (p.castling_home p.turn side hm.1).2
    have hminor := h.minor _ _ hrook
    simp at hminor

end ValidPosition

namespace Line
variable {g : Line} {k j : Nat}

/-- **Dead positions.** What is left does not become more. -/
theorem insufficient_later (h : (g.position k).board.Insufficient) (hkj : k ≤ j) (hj : j ≤ g.length) :
    (g.position j).board.Insufficient := by
  induction j, hkj using Nat.le_induction with
  | base => exact h
  | succ j _ ih =>
    rw [g.push j hj]
    exact ValidPosition.insufficient_after (ih (by omega)) (g.legal j hj)

/-- When the arbiter calls the game drawn: there is no legal move and no check, or the game could go on but
not to a mate, or for fifty moves nothing was taken and no pawn was moved, or the position has come for
the third time. -/
def Drawn (g : Line) (k : Nat) : Prop :=
  (g.position k).Stalemate ∨ (∃ m, (g.position k).Legal m) ∧
    ((g.position k).board.Insufficient ∨ 100 ≤ (g.position k).halfmoveClock ∨ 2 ≤ g.earlier k)

end Line

end ChessAnalytics.Chess
