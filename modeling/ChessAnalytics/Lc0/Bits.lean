import ChessAnalytics.Lc0.Board

/-! The squares that a bitboard holds. -/
namespace ChessAnalytics.Lc0.Board
open Chess

namespace BitBoard

def reset (b : BitBoard) (s : Square) : BitBoard := ⟨b.board &&& ~~~(1#64 <<< s.val)⟩

def setIf (b : BitBoard) (s : Square) (cond : Bool) : BitBoard := if cond then b.set s else b

def fromSquare (s : Square) : BitBoard := ⟨1#64 <<< s.val⟩

def isEmpty (b : BitBoard) : Bool := b.board = 0#64

def intersects (a b : BitBoard) : Bool := a.board &&& b.board ≠ 0#64

/-- The squares of a board, lower to upper, as `BitIterator` meets them. -/
def squares (b : BitBoard) : List Square := (List.finRange 64).filter b.get

def count (b : BitBoard) : Nat := b.squares.length

theorem ext_get {a b : BitBoard} (h : ∀ s, a.get s = b.get s) : a = b := by
  obtain ⟨a⟩ := a
  obtain ⟨b⟩ := b
  congr 1
  apply BitVec.eq_of_getLsbD_eq
  intro i hi
  exact h ⟨i, hi⟩

@[simp] theorem get_zero (s : Square) : zero.get s = false := by simp [zero, get]

@[simp] theorem get_union (a b : BitBoard) (s : Square) : (a.union b).get s = (a.get s || b.get s) := by
  simp [union, get]

@[simp] theorem get_inter (a b : BitBoard) (s : Square) : (a.inter b).get s = (a.get s && b.get s) := by
  simp [inter, get]

@[simp] theorem get_diff (a b : BitBoard) (s : Square) : (a.diff b).get s = (a.get s && !b.get s) := by
  simp [diff, get]

theorem getLsbD_square (s t : Square) : (1#64 <<< s.val).getLsbD t.val = decide (t = s) := by
  rw [BitVec.getLsbD_shiftLeft, BitVec.getLsbD_one]
  have hlt := t.isLt
  rw [Bool.eq_iff_iff]
  simp only [Bool.and_eq_true, decide_eq_true_eq, Bool.not_eq_true', decide_eq_false_iff_not, Fin.ext_iff]
  omega

@[simp] theorem get_fromSquare (s t : Square) : (fromSquare s).get t = decide (t = s) := getLsbD_square s t

@[simp] theorem get_set (b : BitBoard) (s t : Square) : (b.set s).get t = (b.get t || decide (t = s)) := by
  rw [set, get, BitVec.getLsbD_or, getLsbD_square]
  rfl

@[simp] theorem get_reset (b : BitBoard) (s t : Square) : (b.reset s).get t = (b.get t && !decide (t = s)) := by
  rw [reset, get, BitVec.getLsbD_and, BitVec.getLsbD_not, getLsbD_square]
  simp [get]

@[simp] theorem get_setIf (b : BitBoard) (s t : Square) (cond : Bool) :
    (b.setIf s cond).get t = (b.get t || (cond && decide (t = s))) := by
  cases cond <;> simp [setIf]

theorem isEmpty_iff {b : BitBoard} : b.isEmpty = true ↔ ∀ s, b.get s = false := by
  rw [isEmpty, decide_eq_true_iff]
  constructor
  · intro h s
    simp [get, h]
  · intro h
    have hzero : b = zero := ext_get (fun s => by rw [h, get_zero])
    rw [hzero]
    rfl

theorem intersects_iff {a b : BitBoard} : a.intersects b = true ↔ ∃ s, a.get s = true ∧ b.get s = true := by
  have hinter : a.intersects b = !(a.inter b).isEmpty := by
    rw [intersects, isEmpty, inter]
    simp
  rw [hinter, Bool.not_eq_true', ← Bool.not_eq_true, isEmpty_iff]
  simp

@[simp] theorem mem_squares {b : BitBoard} {s : Square} : s ∈ b.squares ↔ b.get s = true := by
  simp [squares]

/-- A block of eight squares changes its place with the block `k` squares away. -/
private theorem swap_get {v m : BitVec 64} {k : Nat} (hm : ∀ i : Square, m.getLsbD i.val = decide (i.val / k % 2 = 0))
    (hk : k = 8 ∨ k = 16 ∨ k = 32) (i : Square) :
    ((v &&& m) <<< k ||| (v &&& ~~~m) >>> k).getLsbD i.val =
      v.getLsbD (if i.val / k % 2 = 0 then i.val + k else i.val - k) := by
  have hi := i.isLt
  rw [BitVec.getLsbD_or, BitVec.getLsbD_shiftLeft, BitVec.getLsbD_ushiftRight, BitVec.getLsbD_and, BitVec.getLsbD_and,
    BitVec.getLsbD_not]
  by_cases hlow : i.val / k % 2 = 0
  · have hfar : i.val + k < 64 := by rcases hk with rfl | rfl | rfl <;> omega
    have hbit : m.getLsbD (i.val + k) = false := by
      rw [hm ⟨i.val + k, hfar⟩, decide_eq_false_iff_not]
      rcases hk with rfl | rfl | rfl <;> simp only <;> omega
    have hnear : i.val < k ∨ m.getLsbD (i.val - k) = false := by
      by_cases hlt : i.val < k
      · exact .inl hlt
      · right
        rw [hm ⟨i.val - k, by omega⟩, decide_eq_false_iff_not]
        rcases hk with rfl | rfl | rfl <;> simp only <;> omega
    rw [if_pos hlow, Nat.add_comm k, hbit]
    rcases hnear with hlt | hnear
    · simp [hlt, hfar]
    · simp [hnear, hfar]
  · have hge : ¬ i.val < k := by rcases hk with rfl | rfl | rfl <;> omega
    have hbit : m.getLsbD (i.val - k) = true := by
      rw [hm ⟨i.val - k, by omega⟩, decide_eq_true_iff]
      rcases hk with rfl | rfl | rfl <;> simp only <;> omega
    have hfar : v.getLsbD (k + i.val) = false ∨ m.getLsbD (k + i.val) = true ∨ ¬ k + i.val < 64 := by
      by_cases hlt : k + i.val < 64
      · right; left
        rw [hm ⟨k + i.val, hlt⟩, decide_eq_true_iff]
        rcases hk with rfl | rfl | rfl <;> simp only <;> omega
      · exact .inr (.inr hlt)
    rw [if_neg hlow, hbit]
    rcases hfar with hfar | hfar | hfar <;> simp [hfar, hge, hi]

/-- The partner of a square in a swap. -/
private def partner (k : Nat) (i : Square) : Nat := if i.val / k % 2 = 0 then i.val + k else i.val - k

private theorem partner_lt {k : Nat} (hk : k = 8 ∨ k = 16 ∨ k = 32) (i : Square) : partner k i < 64 := by
  have hi := i.isLt
  rw [partner]
  rcases hk with rfl | rfl | rfl <;> split <;> omega

@[simp] theorem get_mirror (b : BitBoard) (s : Square) : b.mirror.get s = b.get (Chess.mirror s) := by
  have h8 : ∀ i : Square, (0x00FF00FF00FF00FF#64).getLsbD i.val = decide (i.val / 8 % 2 = 0) := by decide
  have h16 : ∀ i : Square, (0x0000FFFF0000FFFF#64).getLsbD i.val = decide (i.val / 16 % 2 = 0) := by decide
  have h32 : ∀ i : Square, (0x00000000FFFFFFFF#64).getLsbD i.val = decide (i.val / 32 % 2 = 0) := by decide
  have hsquare : ∀ i : Square, partner 32 ⟨partner 16 ⟨partner 8 i, partner_lt (.inl rfl) i⟩, partner_lt (.inr (.inl rfl)) _⟩ =
      (Chess.mirror i).val := by decide
  rw [mirror, get, get, ← hsquare s]
  rw [show 0xFF00FF00FF00FF00#64 = ~~~0x00FF00FF00FF00FF#64 by decide, show 0xFFFF0000FFFF0000#64 = ~~~0x0000FFFF0000FFFF#64 by decide,
    show 0xFFFFFFFF00000000#64 = ~~~0x00000000FFFFFFFF#64 by decide]
  rw [swap_get h8 (.inl rfl)]
  change BitVec.getLsbD _ (partner 8 s) = _
  rw [swap_get h16 (.inr (.inl rfl)) ⟨partner 8 s, partner_lt (.inl rfl) s⟩]
  exact swap_get h32 (.inr (.inr rfl)) ⟨partner 16 _, partner_lt (.inr (.inl rfl)) _⟩

@[simp] theorem mirror_mirror (b : BitBoard) : b.mirror.mirror = b := ext_get (by simp)

end BitBoard

end ChessAnalytics.Lc0.Board
