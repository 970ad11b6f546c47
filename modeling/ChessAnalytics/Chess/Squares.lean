import ChessAnalytics.Strings.Basic

/-! The squares of the board and their names. -/
namespace ChessAnalytics.Chess

/-- a1 is 0, b1 is 1, h8 is 63. -/
abbrev Square := Fin 64

def fromIdx (n : Nat) : Square := Fin.ofNat 64 n

def fileIdx (s : Square) : Nat := s.val % 8
def rankIdx (s : Square) : Nat := s.val / 8

def square (f r : Nat) : Square := fromIdx (r * 8 + f)

/-- The square on the same file that the opponent sees on this rank. -/
def mirror (s : Square) : Square := square (fileIdx s) (7 - rankIdx s)

def squareName (s : Square) : Str := [Char.ofNat ('a'.toNat + fileIdx s), Char.ofNat ('1'.toNat + rankIdx s)]

theorem squareName_injective : Function.Injective squareName := by
  intro s t h
  revert s t
  decide +kernel

@[simp] theorem mirror_mirror : ∀ s, mirror (mirror s) = s := by decide

end ChessAnalytics.Chess
