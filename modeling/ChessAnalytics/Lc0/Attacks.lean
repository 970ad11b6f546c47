import ChessAnalytics.Chess.Rays
import ChessAnalytics.Lc0.Bits
import ChessAnalytics.Systems.Lookup
import ChessAnalytics.Systems.Traversal

/-! The attacks of rooks and bishops, which lc0 looks up in tables that it fills when it starts. -/
namespace ChessAnalytics.Lc0.Board
open Strings Chess Systems

/-- The squares of a walk behind which there is another square. -/
def relevant (d : Direction) : Nat → Int → Int → List Square
  | 0, _, _ => []
  | n + 1, row, col =>
    let row := row + d.1
    let col := col + d.2
    if isOnBoard (row + d.1) (col + d.2) then square col.toNat row.toNat :: relevant d n row col else []

/-- The squares whose pieces matter to a rook or bishop. -/
def relevantMask (ways : List Direction) (s : Square) : BitBoard :=
  (ways.flatMap fun d => relevant d 8 (rankIdx s) (fileIdx s)).foldl .set .zero

/-- The pieces that the bits of a number put on the squares. -/
def occupancyOf (squares : List Square) (i : Nat) : BitBoard :=
  squares.zipIdx.foldl (fun occupancy x => occupancy.setIf x.1 (i.testBit x.2)) .zero

/-- The loop along one direction. -/
def walkAttacks (occupancy : BitBoard) : List Square → BitBoard → BitBoard
  | [], attacks => attacks
  | t :: rest, attacks => if occupancy.get t then attacks.set t else walkAttacks occupancy rest (attacks.set t)

def attacksFrom (ways : List Direction) (s : Square) (occupancy : BitBoard) : BitBoard :=
  ways.foldl (fun attacks d => walkAttacks occupancy (ray d s) attacks) .zero

/-- `_pext_u64`. -/
def pext (v mask : BitBoard) : Nat := gather v.get mask.squares

/-- The parameters of a square, with its own table. A build without `pext` has a magic number and the
bits to shift. -/
structure MagicParams where
  mask : BitBoard := .zero
  magic : Option (BitVec 64 × Nat) := none
  attacksTable : List BitBoard := []
  deriving Inhabited

def MagicParams.index (params : MagicParams) (occupancy : BitBoard) : Nat :=
  match params.magic with
  | none => pext occupancy params.mask
  | some (number, shiftBits) => ((occupancy.board * number) >>> shiftBits).toNat

/-- A build without `pext` looks at the entry that is to be replaced. -/
def invalidMagic (magic : Option (BitVec 64 × Nat)) (entry attacks : BitBoard) : Bool :=
  magic.isSome && entry ≠ .zero && entry ≠ attacks

/-- `BuildAttacksTable` for one square. -/
def buildSquare (numbers : Option (Square → BitVec 64)) (ways : List Direction) (s : Square) : Except Str MagicParams :=
  let mask := relevantMask ways s
  let squares := mask.squares
  let params : MagicParams := { mask := mask, magic := numbers.map fun number => (number s, 64 - squares.length) }
  let blank := List.replicate (2 ^ squares.length) BitBoard.zero
  match fill (fun i => params.index (occupancyOf squares i)) (fun i => attacksFrom ways s (occupancyOf squares i))
      (invalidMagic params.magic) (List.range (2 ^ squares.length)) blank with
  | some table => .ok { params with attacksTable := table }
  | none => .error "Invalid magic number!".toList

/-- The tables of all squares. -/
structure AttackTables where
  rook : List MagicParams
  bishop : List MagicParams

/-- `InitializeMagicBitboards`. The magic numbers are there only in a build without `pext`. -/
def initializeMagicBitboards (rookNumbers bishopNumbers : Option (Square → BitVec 64)) : Except Str AttackTables := do
  let rook ← (List.finRange 64).mapM (buildSquare rookNumbers rookDirections)
  let bishop ← (List.finRange 64).mapM (buildSquare bishopNumbers bishopDirections)
  return ⟨rook, bishop⟩

def MagicParams.lookup (params : MagicParams) (pieces : BitBoard) : BitBoard :=
  let i := match params.magic with
    | none => params.index pieces
    | some _ => params.index (pieces.inter params.mask)
  params.attacksTable.getD i .zero

def AttackTables.getRookAttacks (tables : AttackTables) (s : Square) (pieces : BitBoard) : BitBoard :=
  (tables.rook.getD s.val default).lookup pieces

def AttackTables.getBishopAttacks (tables : AttackTables) (s : Square) (pieces : BitBoard) : BitBoard :=
  (tables.bishop.getD s.val default).lookup pieces

theorem get_foldl_set (squares : List Square) : ∀ (b : BitBoard) (u : Square),
    (squares.foldl .set b).get u = (b.get u || decide (u ∈ squares)) := by
  induction squares with
  | nil => simp
  | cons s squares ih =>
    intro b u
    rw [List.foldl_cons, ih, BitBoard.get_set, Bool.or_assoc, ← Bool.decide_or]
    simp

theorem get_walkAttacks (occupancy : BitBoard) (squares : List Square) : ∀ (attacks : BitBoard) (t : Square),
    (walkAttacks occupancy squares attacks).get t = true ↔ attacks.get t = true ∨
      ∃ front rest, squares = front ++ t :: rest ∧ ∀ u ∈ front, occupancy.get u = false := by
  induction squares with
  | nil => simp [walkAttacks]
  | cons s squares ih =>
    intro attacks t
    have hfirst : (∃ front rest, s :: squares = front ++ t :: rest ∧ ∀ u ∈ front, occupancy.get u = false) ↔
        t = s ∨ occupancy.get s = false ∧ ∃ front rest, squares = front ++ t :: rest ∧ ∀ u ∈ front, occupancy.get u = false := by
      constructor
      · rintro ⟨front, rest, heq, hfree⟩
        cases front with
        | nil => exact .inl (List.cons.inj heq).1.symm
        | cons u front =>
          obtain ⟨rfl, htail⟩ := List.cons.inj heq
          exact .inr ⟨hfree _ (List.mem_cons_self ..), front, rest, htail, fun v hv => hfree v (List.mem_cons_of_mem _ hv)⟩
      · rintro (rfl | ⟨hs, front, rest, rfl, hfree⟩)
        · exact ⟨[], squares, rfl, by simp⟩
        · refine ⟨s :: front, rest, rfl, fun u hu => ?_⟩
          rcases List.mem_cons.mp hu with rfl | hu
          · exact hs
          · exact hfree u hu
    rw [walkAttacks, hfirst]
    cases hs : occupancy.get s with
    | true => simp
    | false =>
      rw [if_neg (by simp), ih, BitBoard.get_set, Bool.or_eq_true, decide_eq_true_iff, or_assoc]
      simp

/-- The squares that a piece attacks along some directions: nothing stands in between. -/
def Reaches (ways : List Direction) (occupancy : BitBoard) (s t : Square) : Prop :=
  ∃ d ∈ ways, t ∈ ray d s ∧ ∀ u ∈ between s t, occupancy.get u = false

variable {ways : List Direction} {s t : Square}

theorem get_attacksFrom (hways : ∀ d ∈ ways, d ∈ directions) (occupancy : BitBoard) :
    (attacksFrom ways s occupancy).get t = true ↔ Reaches ways occupancy s t := by
  have hray {d : Direction} (hd : d ∈ directions) :
      (∃ front rest, ray d s = front ++ t :: rest ∧ ∀ u ∈ front, occupancy.get u = false) ↔
        t ∈ ray d s ∧ ∀ u ∈ between s t, occupancy.get u = false := by
    constructor
    · rintro ⟨front, rest, heq, hfree⟩
      obtain ⟨hmem, hfront, -⟩ := ray_split hd heq
      exact ⟨hmem, fun u hu => hfree u ((hfront u).mpr hu)⟩
    · rintro ⟨hmem, hfree⟩
      obtain ⟨front, rest, heq⟩ := List.append_of_mem hmem
      obtain ⟨-, hfront, -⟩ := ray_split hd heq
      exact ⟨front, rest, heq, fun u hu => hfree u ((hfront u).mp hu)⟩
  have hfold (ds : List Direction) (hds : ∀ d ∈ ds, d ∈ directions) (attacks : BitBoard) :
      (ds.foldl (fun attacks d => walkAttacks occupancy (ray d s) attacks) attacks).get t = true ↔
        attacks.get t = true ∨ Reaches ds occupancy s t := by
    induction ds generalizing attacks with
    | nil => simp [Reaches]
    | cons d ds ih =>
      rw [List.foldl_cons, ih (fun d hd => hds d (List.mem_cons_of_mem _ hd)), get_walkAttacks, hray (hds d (List.mem_cons_self ..)),
        or_assoc]
      simp only [Reaches, List.exists_mem_cons_iff]
  rw [attacksFrom, hfold ways hways]
  simp

/-- A square that stands between two others has a square behind it. -/
theorem mem_relevantMask {d : Direction} (hd : d ∈ directions) (hway : d ∈ ways) (ht : t ∈ ray d s) {u : Square}
    (hu : u ∈ between s t) : (relevantMask ways s).get u = true := by
  have hwalk (n : Nat) : ∀ (row col : Int) (k : Nat), k < n →
      (∀ j ≤ k, isOnBoard (row + (j + 2) * d.1) (col + (j + 2) * d.2) = true) →
      square (col + (k + 1) * d.2).toNat (row + (k + 1) * d.1).toNat ∈ relevant d n row col := by
    induction n with
    | zero =>
      intro row col k hk
      omega
    | succ n ih =>
      intro row col k hk hboard
      have hnext := hboard 0 (by omega)
      have htwo (z c : Int) : z + (((0 : Nat) : Int) + 2) * c = z + c + c := by
        push_cast
        ring
      rw [htwo, htwo] at hnext
      rw [relevant, if_pos hnext]
      cases k with
      | zero =>
        push_cast
        rw [one_mul, one_mul]
        exact List.mem_cons_self ..
      | succ k =>
        have hshift (z c : Int) : z + ((k + 1 : Nat) + 1) * c = z + c + (k + 1) * c := by
          push_cast
          ring
        rw [hshift, hshift]
        refine List.mem_cons_of_mem _ (ih _ _ k (by omega) fun j hj => ?_)
        have hlater := hboard (j + 1) (by omega)
        have hshift' (z c : Int) : z + ((j + 1 : Nat) + 2) * c = z + c + (j + 2) * c := by
          push_cast
          ring
        rw [hshift', hshift'] at hlater
        exact hlater
  obtain ⟨hrank, hfile, hmoves⟩ := direction_steps hd
  obtain ⟨k, hk⟩ := (mem_ray hd).mp ht
  obtain ⟨j, hj, hstep⟩ := (ray_between_iff hd hk).mp ((mem_between hd ht).mp hu)
  have hs := rankIdx_lt s
  have hs' := fileIdx_lt s
  have htr := rankIdx_lt t
  have htf := fileIdx_lt t
  obtain ⟨hk1, hk2⟩ := hk
  rw [rankStep] at hk1
  rw [fileStep] at hk2
  rw [relevantMask, get_foldl_set, BitBoard.get_zero, Bool.false_or, decide_eq_true_iff, List.mem_flatMap]
  refine ⟨d, hway, ?_⟩
  rw [stepped] at hstep
  split at hstep
  · rw [← Option.some_inj.mp hstep]
    push_cast
    apply hwalk
    · rcases hrank with h1 | h1 | h1 <;> rcases hfile with h2 | h2 | h2 <;> rw [h1] at hk1 <;> rw [h2] at hk2 <;> omega
    · intro i hi
      rw [isOnBoard_iff]
      rcases hrank with h1 | h1 | h1 <;> rcases hfile with h2 | h2 | h2 <;> rw [h1] at hk1 ⊢ <;> rw [h2] at hk2 ⊢ <;> omega
  · cases hstep

theorem reaches_masked (hways : ∀ d ∈ ways, d ∈ directions) (pieces : BitBoard) :
    Reaches ways (pieces.inter (relevantMask ways s)) s t ↔ Reaches ways pieces s t := by
  constructor
  · rintro ⟨d, hd, ht, hfree⟩
    refine ⟨d, hd, ht, fun u hu => ?_⟩
    have hmasked := hfree u hu
    rw [BitBoard.get_inter, mem_relevantMask (hways d hd) hd ht hu, Bool.and_true] at hmasked
    exact hmasked
  · rintro ⟨d, hd, ht, hfree⟩
    refine ⟨d, hd, ht, fun u hu => ?_⟩
    rw [BitBoard.get_inter, hfree u hu, Bool.false_and]

theorem get_occupancyOf (squares : List Square) (i : Nat) (u : Square) :
    (occupancyOf squares i).get u = true ↔ ∃ k, squares[k]? = some u ∧ i.testBit k = true := by
  have hfold (xs : List (Square × Nat)) : ∀ b : BitBoard,
      (xs.foldl (fun occupancy x => occupancy.setIf x.1 (i.testBit x.2)) b).get u = true ↔
        b.get u = true ∨ ∃ x ∈ xs, x.1 = u ∧ i.testBit x.2 = true := by
    induction xs with
    | nil => simp
    | cons x xs ih =>
      intro b
      rw [List.foldl_cons, ih, BitBoard.get_setIf, Bool.or_eq_true, Bool.and_eq_true, decide_eq_true_iff, or_assoc, List.exists_mem_cons_iff]
      exact or_congr_right (or_congr_left (by rw [and_comm, eq_comm]))
  rw [occupancyOf, hfold, BitBoard.get_zero]
  simp [List.mem_zipIdx_iff_getElem?]

/-- The bits that are taken out of the pieces put the same pieces back on the mask. -/
theorem occupancyOf_pext (pieces mask : BitBoard) : occupancyOf mask.squares (pext pieces mask) = pieces.inter mask := by
  apply BitBoard.ext_get
  intro u
  rw [Bool.eq_iff_iff, get_occupancyOf, BitBoard.get_inter, Bool.and_eq_true, ← BitBoard.mem_squares (b := mask)]
  constructor
  · rintro ⟨k, hk, hbit⟩
    rw [pext, testBit_gather, hk] at hbit
    exact ⟨hbit, List.mem_of_getElem? hk⟩
  · rintro ⟨hu, hmem⟩
    obtain ⟨k, hk⟩ := List.mem_iff_getElem?.mp hmem
    exact ⟨k, hk, by rw [pext, testBit_gather, hk]; exact hu⟩

theorem squares_nodup (b : BitBoard) : b.squares.Nodup := (List.nodup_finRange 64).filter _

theorem pext_inter (pieces mask : BitBoard) : pext (pieces.inter mask) mask = pext pieces mask := by
  apply gather_congr
  intro u hu
  rw [BitBoard.get_inter, BitBoard.mem_squares.mp hu, Bool.and_true]

theorem occupancyOf_inter (mask : BitBoard) (i : Nat) : (occupancyOf mask.squares i).inter mask = occupancyOf mask.squares i := by
  apply BitBoard.ext_get
  intro u
  rw [BitBoard.get_inter, Bool.and_eq_left_iff_imp, get_occupancyOf]
  rintro ⟨k, hk, -⟩
  exact BitBoard.mem_squares.mp (List.mem_of_getElem? hk)

/-- From every square a piece of the kind reaches some other square of an empty board. -/
def Open (ways : List Direction) : Prop := ∀ s, ∃ d ∈ ways, ray d s ≠ []

theorem rook_open : Open rookDirections := by
  rw [Open]
  decide +kernel

theorem bishop_open : Open bishopDirections := by
  rw [Open]
  decide +kernel

theorem attacksFrom_ne_zero (hways : ∀ d ∈ ways, d ∈ directions) (hopen : Open ways) (s : Square) (occupancy : BitBoard) :
    attacksFrom ways s occupancy ≠ .zero := by
  obtain ⟨d, hd, hray⟩ := hopen s
  obtain ⟨t, rest, heq⟩ := List.exists_cons_of_ne_nil hray
  rw [← List.nil_append (t :: rest)] at heq
  obtain ⟨hmem, hfront, -⟩ := ray_split (hways d hd) heq
  have hreach : (attacksFrom ways s occupancy).get t = true := by
    rw [get_attacksFrom hways]
    exact ⟨d, hd, hmem, fun u hu => absurd ((hfront u).mpr hu) (by simp)⟩
  intro hzero
  rw [hzero, BitBoard.get_zero] at hreach
  cases hreach

theorem squares_length_le (b : BitBoard) : b.squares.length ≤ 64 := by
  have hle := List.length_filter_le b.get (List.finRange 64)
  rw [List.length_finRange] at hle
  exact hle

variable {numbers : Option (Square → BitVec 64)} {params : MagicParams}

theorem buildSquare_fields (h : buildSquare numbers ways s = .ok params) :
    params.mask = relevantMask ways s ∧
      params.magic = numbers.map (fun number => (number s, 64 - (relevantMask ways s).squares.length)) ∧
      fill (fun i => params.index (occupancyOf (relevantMask ways s).squares i))
        (fun i => attacksFrom ways s (occupancyOf (relevantMask ways s).squares i)) (invalidMagic params.magic)
        (List.range (2 ^ (relevantMask ways s).squares.length)) (List.replicate (2 ^ (relevantMask ways s).squares.length) .zero) =
        some params.attacksTable := by
  unfold buildSquare at h
  simp only at h
  split at h
  · rename_i table hfill
    obtain rfl := Except.ok.inj h
    exact ⟨rfl, rfl, hfill⟩
  · cases h

theorem index_lt (hmask : params.mask = relevantMask ways s)
    (hmagic : params.magic = numbers.map (fun number => (number s, 64 - (relevantMask ways s).squares.length))) (occupancy : BitBoard) :
    params.index occupancy < 2 ^ (relevantMask ways s).squares.length := by
  have hle := squares_length_le (relevantMask ways s)
  rw [MagicParams.index, hmagic]
  cases numbers with
  | none =>
    rw [hmask]
    exact gather_lt _ _
  | some number =>
    have hlt := (occupancy.board * number s).isLt
    simp only [Option.map_some, BitVec.toNat_ushiftRight, Nat.shiftRight_eq_div_pow]
    rw [Nat.div_lt_iff_lt_mul (by positivity), ← pow_add, Nat.add_sub_cancel' hle]
    exact hlt

/-- The entry under the index of some pieces is what a walk attacks among them. -/
theorem buildSquare_entry (hways : ∀ d ∈ ways, d ∈ directions) (hopen : Open ways) (h : buildSquare numbers ways s = .ok params) {i : Nat}
    (hi : i < 2 ^ (relevantMask ways s).squares.length) :
    params.attacksTable[params.index (occupancyOf (relevantMask ways s).squares i)]? =
      some (attacksFrom ways s (occupancyOf (relevantMask ways s).squares i)) := by
  obtain ⟨hmask, hmagic, hfill⟩ := buildSquare_fields h
  refine fill_get ?_ _ _ _ (fun _ => False) ?_ ?_ hfill i (.inr (List.mem_range.mpr hi))
  · intro j k hkey hclash
    cases hnumbers : numbers with
    | none =>
      -- The index alone tells the pieces.
      simp only [MagicParams.index, hmagic, hnumbers, Option.map_none, hmask] at hkey
      have hsame := congrArg (occupancyOf (relevantMask ways s).squares) hkey
      rw [occupancyOf_pext, occupancyOf_pext, occupancyOf_inter, occupancyOf_inter] at hsame
      rw [hsame]
    | some number =>
      rw [invalidMagic, hmagic, hnumbers, Option.map_some, Option.isSome_some, Bool.true_and, Bool.and_eq_false_iff,
        decide_eq_false_iff_not, decide_eq_false_iff_not, not_not, not_not] at hclash
      rcases hclash with hzero | hsame
      · exact absurd hzero (attacksFrom_ne_zero hways hopen s _)
      · exact hsame
  · intro j _
    rw [List.length_replicate]
    exact index_lt hmask hmagic _
  · exact fun _ hfalse => hfalse.elim

theorem get_lookup (hways : ∀ d ∈ ways, d ∈ directions) (hopen : Open ways) (h : buildSquare numbers ways s = .ok params)
    (pieces : BitBoard) : (params.lookup pieces).get t = true ↔ Reaches ways pieces s t := by
  obtain ⟨hmask, hmagic, -⟩ := buildSquare_fields h
  have hindex : (match params.magic with
      | none => params.index pieces
      | some _ => params.index (pieces.inter params.mask)) = params.index (pieces.inter params.mask) := by
    split
    · rename_i hnone
      rw [MagicParams.index, MagicParams.index, hnone]
      exact (pext_inter pieces params.mask).symm
    · rfl
  have hentry := buildSquare_entry hways hopen h (gather_lt pieces.get (relevantMask ways s).squares)
  change params.attacksTable[params.index (occupancyOf (relevantMask ways s).squares (pext pieces (relevantMask ways s)))]? = some (attacksFrom ways s (occupancyOf (relevantMask ways s).squares (pext pieces (relevantMask ways s)))) at hentry
  rw [occupancyOf_pext, ← hmask] at hentry
  rw [MagicParams.lookup, hindex, List.getD_eq_getElem?_getD, hentry, Option.getD_some, get_attacksFrom hways, hmask]
  exact reaches_masked hways pieces

variable {rookNumbers bishopNumbers : Option (Square → BitVec 64)} {tables : AttackTables}

theorem rook_directions : ∀ d ∈ rookDirections, d ∈ directions := by decide
theorem bishop_directions : ∀ d ∈ bishopDirections, d ∈ directions := by decide

theorem built (h : initializeMagicBitboards rookNumbers bishopNumbers = .ok tables) (s : Square) :
    buildSquare rookNumbers rookDirections s = .ok (tables.rook.getD s.val default) ∧
      buildSquare bishopNumbers bishopDirections s = .ok (tables.bishop.getD s.val default) := by
  obtain ⟨rook, hrook, h⟩ := bind_ok h
  obtain ⟨bishop, hbishop, h⟩ := bind_ok h
  obtain rfl := Except.ok.inj h
  have hsquare {numbers : Option (Square → BitVec 64)} {ways : List Direction} {table : List MagicParams}
      (hbuild : (List.finRange 64).mapM (buildSquare numbers ways) = .ok table) :
      buildSquare numbers ways s = .ok (table.getD s.val default) := by
    have hs : (List.finRange 64)[s.val]? = some s := by
      rw [List.getElem?_eq_some_iff]
      exact ⟨by rw [List.length_finRange]; exact s.isLt, by simp⟩
    obtain ⟨params, hparams, heq⟩ := mapM_get hbuild hs
    rw [heq, List.getD_eq_getElem?_getD, hparams]
    rfl
  exact ⟨hsquare hrook, hsquare hbishop⟩

theorem get_rookAttacks (h : initializeMagicBitboards rookNumbers bishopNumbers = .ok tables) (s t : Square) (pieces : BitBoard) :
    (tables.getRookAttacks s pieces).get t = true ↔ Straight s t ∧ ∀ u ∈ between s t, pieces.get u = false := by
  rw [AttackTables.getRookAttacks, get_lookup rook_directions rook_open (built h s).1, Reaches, straight_iff]
  constructor
  · rintro ⟨d, hd, ht, hfree⟩
    exact ⟨⟨d, hd, ht⟩, hfree⟩
  · rintro ⟨⟨d, hd, ht⟩, hfree⟩
    exact ⟨d, hd, ht, hfree⟩

theorem get_bishopAttacks (h : initializeMagicBitboards rookNumbers bishopNumbers = .ok tables) (s t : Square) (pieces : BitBoard) :
    (tables.getBishopAttacks s pieces).get t = true ↔ Diagonal s t ∧ ∀ u ∈ between s t, pieces.get u = false := by
  rw [AttackTables.getBishopAttacks, get_lookup bishop_directions bishop_open (built h s).2, Reaches, diagonal_iff]
  constructor
  · rintro ⟨d, hd, ht, hfree⟩
    exact ⟨⟨d, hd, ht⟩, hfree⟩
  · rintro ⟨⟨d, hd, ht⟩, hfree⟩
    exact ⟨d, hd, ht, hfree⟩

theorem initialize_pext : ∃ tables, initializeMagicBitboards none none = .ok tables := by
  have hsquare (ways : List Direction) : ∀ s ∈ List.finRange 64, ∃ params, buildSquare none ways s = .ok params := by
    intro s _
    have hclash : ∀ entry attacks, invalidMagic none entry attacks = false := fun _ _ => rfl
    unfold buildSquare
    simp only [Option.map_none]
    split
    · exact ⟨_, rfl⟩
    · rename_i hfill
      exact absurd hfill (fill_ne_none hclash _ _)
  obtain ⟨rook, hrook⟩ := mapM_succeeds (hsquare rookDirections)
  obtain ⟨bishop, hbishop⟩ := mapM_succeeds (hsquare bishopDirections)
  refine ⟨⟨rook, bishop⟩, ?_⟩
  rw [initializeMagicBitboards, hrook, hbishop]
  rfl

/-- **The tables are right.** However they are indexed, once they have been filled without a clash every
lookup is what the piece attacks among the pieces on the board. -/
theorem lookups_exact (rookNumbers bishopNumbers : Option (Square → BitVec 64)) (tables : AttackTables)
    (h : initializeMagicBitboards rookNumbers bishopNumbers = .ok tables) (s t : Square) (pieces : BitBoard) :
    ((tables.getRookAttacks s pieces).get t = true ↔ Straight s t ∧ ∀ u ∈ between s t, pieces.get u = false) ∧
      ((tables.getBishopAttacks s pieces).get t = true ↔ Diagonal s t ∧ ∀ u ∈ between s t, pieces.get u = false) :=
  ⟨get_rookAttacks h s t pieces, get_bishopAttacks h s t pieces⟩

/-- With `pext` the tables are always filled. -/
theorem lookups_pext : ∃ tables, initializeMagicBitboards none none = .ok tables ∧
    ((tables.getRookAttacks 0 (.fromSquare 3)).get 7 = true ↔ Straight 0 7 ∧ ∀ u ∈ between 0 7, (BitBoard.fromSquare 3).get u = false) ∧
    ((tables.getBishopAttacks 0 (.fromSquare 3)).get 7 = true ↔ Diagonal 0 7 ∧ ∀ u ∈ between 0 7, (BitBoard.fromSquare 3).get u = false) := by
  obtain ⟨tables, h⟩ := initialize_pext
  exact ⟨tables, h, lookups_exact none none tables h 0 7 (.fromSquare 3)⟩

end ChessAnalytics.Lc0.Board
