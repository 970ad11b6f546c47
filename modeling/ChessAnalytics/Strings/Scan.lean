import ChessAnalytics.Strings.Pattern

/-! Finding a key and its numbers in a line of words. -/
namespace ChessAnalytics.Strings
namespace Pattern

/-- `(\d+)`. -/
def digits : Pattern := group (plus Char.isDigit)

/-- `(-?\d+)`. -/
def signedDigits : Pattern := group (seq (opt (one (· == '-'))) (plus Char.isDigit))

variable {b : Option Char} {g : List Str} {k : Cursor → Option Cursor} {z : Cursor} {r : Str}

private theorem isWord_of_isDigit {c : Char} (h : c.isDigit = true) : isWord c = true := by
  simp [isWord, Char.isAlphanum, h]

theorem head_not_digit (hr : wordAt r.head? = false) : ∀ y ∈ r.head?, y.isDigit = false := by
  intro y hy
  rw [Option.mem_def.mp hy] at hr
  cases hd : y.isDigit with
  | false => rfl
  | true => simp [wordAt, isWord_of_isDigit hd] at hr

/-- A numeral is read as a whole when no word character follows it. -/
theorem run_digits (n : Nat) (hr : ∀ y ∈ r.head?, y.isDigit = false)
    (hk : k ⟨lastOf b (showNat n), r, g ++ [showNat n]⟩ = some z) :
    digits.run ⟨b, showNat n ++ r, g⟩ k = some z :=
  run_group_plus (showNat_ne_nil n) (fun _ hc => isDigit_of_mem_showNat hc) hr hk

theorem run_signedDigits (v : Int) (hr : ∀ y ∈ r.head?, y.isDigit = false)
    (hk : k ⟨lastOf b (showInt v), r, g ++ [showInt v]⟩ = some z) :
    signedDigits.run ⟨b, showInt v ++ r, g⟩ k = some z := by
  have hdig (n : Nat) : ∀ x ∈ showNat n, x.isDigit = true ∧ (x == '-') = false := by
    intro x hx
    have hd := isDigit_of_mem_showNat hx
    refine ⟨hd, ?_⟩
    rw [beq_eq_false_iff_ne]
    rintro rfl
    exact absurd hd (by decide)
  cases v with
  | ofNat n =>
    have h : signedDigits.run ⟨b, [] ++ (showNat n ++ r), g⟩ k = some z :=
      run_group_signed (by simp) (by simp) (showNat_ne_nil n) (hdig n) hr hk
    exact h
  | negSucc n =>
    have h : signedDigits.run ⟨b, ['-'] ++ (showNat (n + 1) ++ r), g⟩ k = some z :=
      run_group_signed (by simp) (by simp) (showNat_ne_nil (n + 1)) (hdig (n + 1)) hr hk
    exact h

private theorem boundary_behind {s : Str} (hs : ∃ c, s.getLast? = some c ∧ c.isDigit = true)
    (hr : wordAt r.head? = false) : boundary.run ⟨lastOf b s, r, g⟩ k = k ⟨lastOf b s, r, g⟩ := by
  obtain ⟨c, hc, hd⟩ := hs
  apply run_boundary_pos
  simp [lastOf, hc, hr, show wordAt (some c) = isWord c from rfl, isWord_of_isDigit hd]

private theorem getLast_showNat (n : Nat) : ∃ c, (showNat n).getLast? = some c ∧ c.isDigit = true :=
  ⟨_, List.getLast?_eq_some_getLast (showNat_ne_nil n),
    isDigit_of_mem_showNat (List.getLast_mem (showNat_ne_nil n))⟩

private theorem getLast_showInt (v : Int) : ∃ c, (showInt v).getLast? = some c ∧ c.isDigit = true := by
  cases v with
  | ofNat n => exact getLast_showNat n
  | negSucc n =>
    obtain ⟨c, hc, hd⟩ := getLast_showNat (n + 1)
    refine ⟨c, ?_, hd⟩
    obtain ⟨x, xs, hx⟩ := List.exists_cons_of_ne_nil (showNat_ne_nil (n + 1))
    rw [hx] at hc
    simp [showInt, hx, hc]

theorem run_boundary_showNat (n : Nat) (hr : wordAt r.head? = false) :
    boundary.run ⟨lastOf b (showNat n), r, g⟩ k = k ⟨lastOf b (showNat n), r, g⟩ :=
  boundary_behind (getLast_showNat n) hr

theorem run_boundary_showInt (v : Int) (hr : wordAt r.head? = false) :
    boundary.run ⟨lastOf b (showInt v), r, g⟩ k = k ⟨lastOf b (showInt v), r, g⟩ :=
  boundary_behind (getLast_showInt v) hr

variable {key : Str} {tail : Pattern}

/-- Words that the key passes over, then the key with a matching rest. -/
theorem search_keyed_line (ws : List Str) {c : Cursor} (hk : IsKey key) (ht : SpaceFirst tail) (hws : ∀ w ∈ ws, Passes key w)
    (hr : tail.run ⟨key.getLast?, ' ' :: r, []⟩ some = some c) :
    (keyed key tail).search (line ws (word key r)) = some c.groups := by
  obtain ⟨d, hd, he⟩ := searchFrom_keyed_line (word key r) hk ht (b := none) rfl hws
  rw [search, he, word]
  apply searchFrom_keyed_here hk hd
  obtain ⟨x, xs, rfl⟩ := List.exists_cons_of_ne_nil hk.1
  rw [← hr]
  simp [lastOf, List.getLast?_cons]

/-- The same key once more, with a rest that does not match, is passed over too. -/
theorem searchFrom_keyed_mismatch (hk : IsKey key) (ht : SpaceFirst tail)
    (hr : ∀ c, tail.run ⟨c, ' ' :: r, []⟩ some = none) :
    (keyed key tail).searchFrom b (word key r) = (keyed key tail).searchFrom (some ' ') r := by
  apply searchFrom_keyed_word hk ht _ (.inr hr)
  exact fun c hc => isSpace_of_isWord (hk.2 c hc)

theorem searchFrom_keyed_joined {ws : List Str} (hk : IsKey key) (ht : SpaceFirst tail) (hws : ∀ w ∈ ws, Passes key w) :
    (keyed key tail).searchFrom b (joined ws) = none := by
  induction ws using joined.induct generalizing b with
  | case1 => exact searchFrom_keyed_last hk ht (by simp [joined])
  | case2 w => exact searchFrom_keyed_last hk ht (hws w (by simp)).1
  | case3 w v ws ih =>
    obtain ⟨hw, hs⟩ := hws w (by simp)
    rw [joined, searchFrom_keyed_word hk ht hw (.inl hs)]
    exact ih (fun u hu => hws u (List.mem_cons_of_mem _ hu))

/-- A line in which every word passes the key over has no match. -/
theorem searchFrom_keyed_none {ws vs : List Str} (hk : IsKey key) (ht : SpaceFirst tail)
    (hb : wordAt b = false) (hws : ∀ w ∈ ws, Passes key w) (hvs : ∀ v ∈ vs, Passes key v) :
    (keyed key tail).searchFrom b (line ws (joined vs)) = none := by
  obtain ⟨d, -, he⟩ := searchFrom_keyed_line (joined vs) hk ht hb hws
  rw [he, searchFrom_keyed_joined hk ht hvs]

/-- A key and one number: `\bKEY (\d+)\b`. -/
def numberPattern (key : Str) : Pattern := keyed key (seq (text " ".toList) (seq digits boundary))

theorem run_space_digits {a : Pattern} (n : Nat) (hr : ∀ y ∈ r.head?, y.isDigit = false)
    (hk : a.run ⟨lastOf (some ' ') (showNat n), r, g ++ [showNat n]⟩ k = some z) :
    (seq (text " ".toList) (seq digits a)).run ⟨b, ' ' :: (showNat n ++ r), g⟩ k = some z := by
  rw [run_seq, show ' ' :: (showNat n ++ r) = " ".toList ++ (showNat n ++ r) from rfl, run_text_append,
    run_seq]
  exact run_digits n hr hk

theorem spaceFirst_number : SpaceFirst (seq (text " ".toList) (seq digits boundary)) :=
  spaceFirst_text (by decide)

theorem search_number (ws : List Str) {n : Nat} (hk : IsKey key) (hws : ∀ w ∈ ws, Passes key w) (hr : wordAt r.head? = false) :
    (numberPattern key).search (line ws (word key (showNat n ++ r))) = some [showNat n] := by
  have h : (seq (text " ".toList) (seq digits boundary)).run ⟨key.getLast?, ' ' :: (showNat n ++ r), []⟩ some =
      some ⟨lastOf (some ' ') (showNat n), r, [showNat n]⟩ := by
    apply run_space_digits n (head_not_digit hr)
    rw [run_boundary_showNat n hr]
    rfl
  exact search_keyed_line ws hk spaceFirst_number hws h

end Pattern
end ChessAnalytics.Strings
