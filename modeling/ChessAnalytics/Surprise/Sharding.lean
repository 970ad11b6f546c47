import ChessAnalytics.Surprise.Store
import ChessAnalytics.Systems.Shards

/-! Sharded analysis: runs over consecutive blocks of the games, and the merge behind them. -/
namespace ChessAnalytics.Surprise
open Strings Systems Pgn

/-- A partition of the first games of a stream into consecutive blocks. -/
structure Partition (total : Nat) where
  lengths : List Nat
  nonempty : ∀ n ∈ lengths, 0 < n
  covers : lengths.sum = total

/-- The arguments `--start-game` and `--games` of a run. -/
abbrev Shard := Nat × Nat

def Partition.blocks {total : Nat} (p : Partition total) : List Shard := blocksFrom 0 p.lengths

/-- The run gets a file of its own, which the merge finds. -/
def OwnFile (b : Shard) : Bool := 0 < b.1 || b.2 = 1

def fileOf (b : Shard) : Str := parquetOf (stem ++ suffixOf b.1 b.2)

theorem suffixOf_own {b : Shard} (h : OwnFile b = true) : suffixOf b.1 b.2 = "_game".toList ++ showInt b.1 := by
  rw [suffixOf, if_pos]
  simpa [OwnFile] using h

theorem suffixOf_shared {b : Shard} (h : OwnFile b = false) : suffixOf b.1 b.2 = [] ∧ b.1 = 0 := by
  have : ¬ (0 < b.1 ∨ b.2 = 1) := by simpa [OwnFile] using h
  exact ⟨by rw [suffixOf, if_neg (by omega)], by omega⟩

theorem fileOf_shared {b : Shard} (h : OwnFile b = false) : fileOf b = combined := by
  rw [fileOf, (suffixOf_shared h).1, List.append_nil, combined]

theorem isPart_fileOf (b : Shard) : isPart (fileOf b) = OwnFile b := by
  cases h : OwnFile b with
  | true =>
    rw [fileOf, suffixOf_own h]
    exact isPart_game _
  | false => rw [fileOf_shared h, not_isPart_combined]

theorem start_of_fileOf {a b : Shard} (h : fileOf a = fileOf b) : a.1 = b.1 := by
  have hown : OwnFile a = OwnFile b := by rw [← isPart_fileOf, ← isPart_fileOf, h]
  have hsuffix : suffixOf a.1 a.2 = suffixOf b.1 b.2 := List.append_cancel_left (parquetOf_injective h)
  cases ha : OwnFile a with
  | true =>
    rw [suffixOf_own ha, suffixOf_own (hown ▸ ha)] at hsuffix
    exact Int.ofNat.inj (showInt_injective (List.append_cancel_left hsuffix))
  | false => rw [(suffixOf_shared ha).2, (suffixOf_shared (hown ▸ ha)).2]

section
variable {P : PyChess} (replies : Replies) (pgn : List (Game P)) (skipPly : Int)

def shardRows (b : Shard) : Table := analyzeGames replies pgn b.2 b.1 skipPly

/-- The directory behind a run of `main` for one block. -/
def runShard (dir : Dir) (b : Shard) : Dir := (main replies (some pgn) skipPly b.1 b.2 false dir).dir

/-- The directory behind the runs, one after the other. -/
def runShards (runs : List Shard) (dir : Dir) : Dir := runs.foldl (runShard replies pgn skipPly) dir

/-- The table that the runs and one merge behind them leave, in a directory that starts empty. -/
def shardedTable (runs : List Shard) : Option Table :=
  (main replies (some pgn) skipPly 0 0 true (runShards replies pgn skipPly runs ∅)).dir.lookup combined

/-- The table that one run over all games writes under the same name. -/
def singleTable : Option Table := (runShard replies pgn skipPly ∅ (0, pgn.length)).lookup combined

theorem runShard_eq (dir : Dir) (b : Shard) :
    runShard replies pgn skipPly dir b = saveResults dir (shardRows replies pgn skipPly b) (stem ++ suffixOf b.1 b.2) :=
  analysisRun_dir replies pgn skipPly b.1 b.2 dir

theorem lookup_runShard_ne (dir : Dir) {b : Shard} {name : Str} (h : parquetOf name ≠ fileOf b) :
    (runShard replies pgn skipPly dir b).lookup (parquetOf name) = dir.lookup (parquetOf name) := by
  rw [runShard_eq, lookup_saved_ne _ _ h (parquetOf_ne_jsonOf _ _)]

theorem lookup_runShards {runs : List Shard} (hn : (runs.map fileOf).Nodup) {b : Shard} (hb : b ∈ runs) (dir : Dir) :
    (runShards replies pgn skipPly runs dir).lookup (fileOf b) = some (shardRows replies pgn skipPly b) := by
  have hkeep : ∀ (rs : List Shard) (d : Dir), fileOf b ∉ rs.map fileOf →
      (runShards replies pgn skipPly rs d).lookup (fileOf b) = d.lookup (fileOf b) := by
    intro rs
    induction rs with
    | nil => exact fun d _ => rfl
    | cons r rs ih =>
      intro d hr
      rw [List.map_cons, List.mem_cons, not_or] at hr
      rw [runShards, List.foldl_cons]
      exact (ih _ hr.2).trans (lookup_runShard_ne replies pgn skipPly d hr.1)
  induction runs generalizing dir with
  | nil => cases hb
  | cons r rs ih =>
    rw [List.map_cons, List.nodup_cons] at hn
    rw [runShards, List.foldl_cons]
    rcases List.mem_cons.mp hb with rfl | hb
    · refine (hkeep rs _ hn.1).trans ?_
      rw [runShard_eq]
      exact lookup_saved _ _ _
    · exact ih hn.2 hb _

theorem mem_runShards {runs : List Shard} {dir : Dir} {file : Str} :
    file ∈ runShards replies pgn skipPly runs dir ↔
      file ∈ dir ∨ ∃ b ∈ runs, file = fileOf b ∨ file = jsonOf (stem ++ suffixOf b.1 b.2) := by
  induction runs generalizing dir with
  | nil => simp [runShards]
  | cons r rs ih =>
    rw [runShards, List.foldl_cons]
    refine (ih).trans ?_
    rw [runShard_eq, mem_saved, List.exists_mem_cons_iff]
    constructor
    · rintro ((h | h | h) | h)
      exacts [.inr (.inl (.inr h)), .inr (.inl (.inl h)), .inl h, .inr (.inr h)]
    · rintro (h | (h | h) | h)
      exacts [.inl (.inr (.inr h)), .inl (.inr (.inl h)), .inl (.inl h), .inr h]

/-- The merge finds the files of the runs that have one of their own. -/
theorem mem_parts_runShards {runs : List Shard} {file : Str} :
    file ∈ parts (runShards replies pgn skipPly runs ∅) ↔ ∃ b ∈ runs.filter OwnFile, file = fileOf b := by
  rw [mem_parts, mem_runShards]
  constructor
  · rintro ⟨hmem | ⟨b, hb, rfl | rfl⟩, hpart⟩
    · exact absurd hmem (AList.notMem_empty _)
    · exact ⟨b, List.mem_filter.mpr ⟨hb, (isPart_fileOf b).symm.trans hpart⟩, rfl⟩
    · rw [isPart_jsonOf] at hpart
      cases hpart
  · rintro ⟨b, hb, rfl⟩
    obtain ⟨hb, hown⟩ := List.mem_filter.mp hb
    exact ⟨.inr ⟨b, hb, .inl rfl⟩, (isPart_fileOf b).trans hown⟩

/-- The joined parts are those of the runs with a file of their own, in the order of the names. -/
theorem shardedTable_eq {runs sorted : List Shard} (hn : (runs.map fileOf).Nodup)
    (hperm : sorted.Perm (runs.filter OwnFile)) (hsorted : sorted.Pairwise (fun a b => fileOf a < fileOf b))
    (hne : sorted ≠ []) :
    shardedTable replies pgn skipPly runs = some (sorted.flatMap (shardRows replies pgn skipPly)) := by
  have hparts : parts (runShards replies pgn skipPly runs ∅) = sorted.map fileOf := by
    have hmap : (sorted.map fileOf).Pairwise (· < ·) := List.pairwise_map.mpr hsorted
    have hfiles : (parts (runShards replies pgn skipPly runs ∅)).Perm (sorted.map fileOf) := by
      rw [List.perm_ext_iff_of_nodup (parts_nodup _) (hmap.imp ne_of_lt)]
      intro file
      rw [mem_parts_runShards, List.mem_map]
      constructor
      · rintro ⟨b, hb, rfl⟩
        exact ⟨b, hperm.mem_iff.mpr hb, rfl⟩
      · rintro ⟨b, hb, rfl⟩
        exact ⟨b, hperm.mem_iff.mp hb, rfl⟩
    exact hfiles.eq_of_pairwise (fun a b _ _ hab hba => le_antisymm hab hba) (parts_sorted _) (hmap.imp le_of_lt)
  have htable : mergedTable (runShards replies pgn skipPly runs ∅) = sorted.flatMap (shardRows replies pgn skipPly) :=
    mergedTable_of_runs hparts fun b hb =>
      lookup_runShards replies pgn skipPly hn (List.mem_of_mem_filter (hperm.mem_iff.mp hb)) ∅
  have hfound : parts (runShards replies pgn skipPly runs ∅) ≠ [] := by
    rw [hparts]
    simpa using hne
  rw [← htable]
  exact lookup_merge hfound

/-- Without such a run the merge finds nothing and leaves the directory as it is. -/
theorem shardedTable_nothing {runs : List Shard} (h : runs.filter OwnFile = []) :
    shardedTable replies pgn skipPly runs = (runShards replies pgn skipPly runs ∅).lookup combined := by
  have hparts : parts (runShards replies pgn skipPly runs ∅) = [] := by
    rw [List.eq_nil_iff_forall_not_mem]
    intro file hfile
    obtain ⟨b, hb, -⟩ := (mem_parts_runShards replies pgn skipPly).mp hfile
    rw [h] at hb
    cases hb
  exact congrArg (AList.lookup combined) (merge_nothing hparts)

end

section
variable {P : PyChess} (replies : Replies) (pgn : List (Game P)) (skipPly : Int)

theorem blocks_files_nodup {start : Nat} {lengths : List Nat} (hpos : ∀ n ∈ lengths, 0 < n) :
    ((blocksFrom start lengths).map fileOf).Nodup := by
  rw [List.Nodup, List.pairwise_map]
  refine (blocksFrom_ordered start lengths).imp_of_mem fun {a b} ha _ hab h => ?_
  have := hpos _ (length_mem_blocksFrom ha)
  have := start_of_fileOf h
  omega

/-- The rows of consecutive blocks are the rows of the games from the first start on. -/
theorem flatMap_shardRows (start : Nat) (lengths : List Nat) :
    (blocksFrom start lengths).flatMap (shardRows replies pgn skipPly) =
      shardRows replies pgn skipPly (start, lengths.sum) := by
  induction lengths generalizing start with
  | nil => simp [blocksFrom, shardRows, analyzeGames, analyzeFrom]
  | cons n lengths ih =>
    rw [blocksFrom, List.flatMap_cons, ih]
    simp only [shardRows, analyzeGames, Int.toNat_natCast, List.sum_cons]
    rw [analyzeFrom_add, List.drop_drop, Nat.cast_add]

theorem mem_shardRows {b : Shard} {row : Row} (h : row ∈ shardRows replies pgn skipPly b) :
    ∃ i, b.1 ≤ i ∧ i < b.1 + b.2 ∧ ∃ g, row.gameId = gameIdOf (i : Int) (P := P) g := by
  obtain ⟨i, hi, g, -, hrow⟩ := mem_analyzeFrom replies h
  have hid := gameRows_gameId replies hrow
  rw [Int.toNat_natCast] at hi
  exact ⟨b.1 + i, by omega, by omega, g, by rw [hid, Nat.cast_add]⟩

theorem shardRows_disjoint {start : Nat} {lengths : List Nat} {a b : Shard} (ha : a ∈ blocksFrom start lengths)
    (hb : b ∈ blocksFrom start lengths) {row : Row} (hra : row ∈ shardRows replies pgn skipPly a)
    (hrb : row ∈ shardRows replies pgn skipPly b) : a = b := by
  obtain ⟨i, hi, hi', g, hg⟩ := mem_shardRows replies pgn skipPly hra
  obtain ⟨j, hj, hj', g', hg'⟩ := mem_shardRows replies pgn skipPly hrb
  have hij : (i : Int) = j := gameIdOf_injective (hg.symm.trans hg')
  rcases blocksFrom_apart ha hb with h | h | h
  · exact h
  · omega
  · omega

/-- Some game of the block is longer than the opening that is skipped. -/
def HasRows (b : Shard) : Prop :=
  ∃ g ∈ (pgn.drop b.1).take b.2, g.mainlineMoves ≠ [] ∧ skipPly < g.mainlineMoves.length

theorem shardRows_ne_nil {b : Shard} : shardRows replies pgn skipPly b ≠ [] ↔ HasRows pgn skipPly b := by
  rw [shardRows, analyzeGames, Ne, analyzeFrom_eq_nil, HasRows]
  simp only [Int.toNat_natCast]
  push Not
  rfl

/-- A table is put together right: there are two games at least, and the blocks are one block, or
every block with rows has a file of its own and the names of these files are in the order of the
blocks. -/
def ShardsInOrder (p : Partition pgn.length) : Prop :=
  2 ≤ pgn.length ∧ (p.lengths.length = 1 ∨
    (∀ b ∈ p.blocks, HasRows pgn skipPly b → OwnFile b = true) ∧
      p.blocks.Pairwise (fun a b => HasRows pgn skipPly a → HasRows pgn skipPly b → fileOf a < fileOf b))

theorem singleTable_eq (h : pgn.length ≠ 1) :
    singleTable replies pgn skipPly = some (shardRows replies pgn skipPly (0, pgn.length)) := by
  have hshared : OwnFile (0, pgn.length) = false := by simpa [OwnFile] using h
  rw [singleTable, ← fileOf_shared hshared, runShard_eq]
  exact lookup_saved _ _ _

/-- A run over the only game of a stream does not write the combined file. -/
theorem singleTable_one (h : pgn.length = 1) : singleTable replies pgn skipPly = none := by
  have hown : isPart (fileOf (0, pgn.length)) = true := by
    rw [isPart_fileOf, h]
    rfl
  have hne : combined ≠ fileOf (0, pgn.length) := fun he => by
    rw [← he, not_isPart_combined] at hown
    cases hown
  exact lookup_runShard_ne replies pgn skipPly ∅ hne

/-- The table of runs of which one at least has a file of its own. -/
theorem shardedTable_iff {lengths : List Nat} (hpos : ∀ n ∈ lengths, 0 < n) {runs : List Shard}
    (hruns : runs.Perm (blocksFrom 0 lengths)) (hown : runs.filter OwnFile ≠ []) :
    ∃ table, shardedTable replies pgn skipPly runs = some table ∧
      (table = shardRows replies pgn skipPly (0, lengths.sum) ↔
        (∀ b ∈ blocksFrom 0 lengths, HasRows pgn skipPly b → OwnFile b = true) ∧
          (blocksFrom 0 lengths).Pairwise
            (fun a b => HasRows pgn skipPly a → HasRows pgn skipPly b → fileOf a < fileOf b)) := by
  have hfiles : (runs.map fileOf).Nodup := (hruns.map fileOf).nodup_iff.mpr (blocks_files_nodup hpos)
  let sorted := (runs.filter OwnFile).mergeSort (fun a b => fileOf a ≤ fileOf b)
  have hperm : sorted.Perm (runs.filter OwnFile) := List.mergeSort_perm _ _
  have hle : sorted.Pairwise (fun a b => fileOf a ≤ fileOf b) := by
    refine (List.pairwise_mergeSort (fun a b c hab hbc => ?_) (fun a b => ?_) _).imp of_decide_eq_true
    · exact decide_eq_true (le_trans (of_decide_eq_true hab) (of_decide_eq_true hbc))
    · simpa using le_total (fileOf a) (fileOf b)
  have hne : sorted.Pairwise (fun a b => fileOf a ≠ fileOf b) := by
    have hsub : ((runs.filter OwnFile).map fileOf).Nodup := hfiles.sublist (List.filter_sublist.map fileOf)
    exact List.pairwise_map.mp ((hperm.map fileOf).nodup_iff.mpr hsub)
  have hsorted : sorted.Pairwise (fun a b => fileOf a < fileOf b) := hle.imp₂ (fun a b => lt_of_le_of_ne) hne
  refine ⟨_, shardedTable_eq replies pgn skipPly hfiles hperm hsorted ?_, ?_⟩
  · exact fun h => hown (List.nil_perm.mp (h ▸ hperm))
  · rw [← flatMap_shardRows, collected_iff (shardRows replies pgn skipPly)
      (fun a ha b hb x => shardRows_disjoint replies pgn skipPly ha hb) (hperm.trans (hruns.filter _)) hsorted]
    simp only [shardRows_ne_nil, contributing, List.pairwise_filter, Bool.not_eq_true', List.isEmpty_eq_false_iff]

private theorem sharded_single {n : Nat} (hpos : 0 < n) (hn : pgn.length = n) :
    (∃ table, singleTable replies pgn skipPly = some table ∧ shardedTable replies pgn skipPly [(0, n)] = some table) ↔
      2 ≤ pgn.length := by
  by_cases hone : pgn.length = 1
  · refine iff_of_false ?_ (by omega)
    rintro ⟨table, h, -⟩
    rw [singleTable_one _ _ _ hone] at h
    cases h
  · have hshared : [(0, n)].filter OwnFile = [] := by
      have : OwnFile (0, n) = false := by simpa [OwnFile] using fun h => hone (hn.trans h)
      simp [this]
    refine iff_of_true ?_ (by omega)
    rw [shardedTable_nothing _ _ _ hshared]
    exact ⟨_, singleTable_eq _ _ _ hone, by rw [← singleTable_eq _ _ _ hone, singleTable, hn]; rfl⟩

private theorem sharded_many {n m : Nat} {ns : List Nat} (hpos : ∀ k ∈ n :: m :: ns, 0 < k)
    (hsum : (n :: m :: ns).sum = pgn.length) (hlen : 2 ≤ pgn.length) {runs : List Shard} (hruns : runs.Perm (blocksFrom 0 (n :: m :: ns))) :
    (∃ table, singleTable replies pgn skipPly = some table ∧ shardedTable replies pgn skipPly runs = some table) ↔
      (∀ b ∈ blocksFrom 0 (n :: m :: ns), HasRows pgn skipPly b → OwnFile b = true) ∧
        (blocksFrom 0 (n :: m :: ns)).Pairwise
          (fun a b => HasRows pgn skipPly a → HasRows pgn skipPly b → fileOf a < fileOf b) := by
  have hown : runs.filter OwnFile ≠ [] := by
    have hsecond : (n, m) ∈ blocksFrom 0 (n :: m :: ns) := by simp [blocksFrom]
    have hmem : (n, m) ∈ runs.filter OwnFile := by
      refine List.mem_filter.mpr ⟨hruns.mem_iff.mpr hsecond, ?_⟩
      simp [OwnFile, hpos n]
    exact List.ne_nil_of_mem hmem
  obtain ⟨table, htable, hiff⟩ := shardedTable_iff replies pgn skipPly hpos hruns hown
  rw [hsum] at hiff
  have heq : (∃ t, some (shardRows replies pgn skipPly (0, pgn.length)) = some t ∧ some table = some t) ↔
      table = shardRows replies pgn skipPly (0, pgn.length) := by simp [eq_comm]
  rw [htable, singleTable_eq _ _ _ (by omega), heq, hiff]

/-- The merge of sharded runs leaves the table of the single run exactly for these partitions,
whatever the order of the runs. -/
theorem sharded_iff (p : Partition pgn.length) {runs : List Shard} (hruns : runs.Perm p.blocks) :
    (∃ table, singleTable replies pgn skipPly = some table ∧ shardedTable replies pgn skipPly runs = some table) ↔
      ShardsInOrder pgn skipPly p := by
  obtain ⟨lengths, hpos, hsum⟩ := p
  match lengths, hpos, hsum, hruns with
  | [], hpos, hsum, hruns =>
    obtain rfl := List.perm_nil.mp hruns
    have hzero : pgn.length = 0 := hsum.symm
    refine iff_of_false ?_ (fun h => by have := h.1; omega)
    rintro ⟨table, -, h⟩
    rw [shardedTable_nothing _ _ _ rfl] at h
    cases h
  | [n], hpos, hsum, hruns =>
    have hn : pgn.length = n := by simpa using hsum.symm
    obtain rfl := List.perm_singleton.mp (hruns.trans (List.Perm.of_eq (rfl : _ = [(0, n)])))
    rw [sharded_single replies pgn skipPly (hpos n (by simp)) hn]
    exact ⟨fun hlen => ⟨hlen, .inl rfl⟩, fun h => h.1⟩
  | n :: m :: ns, hpos, hsum, hruns =>
    have hlen : 2 ≤ pgn.length := by
      have hn := hpos n (by simp)
      have hm := hpos m (by simp)
      rw [← hsum, List.sum_cons, List.sum_cons]
      omega
    have hiff := sharded_many replies pgn skipPly hpos hsum hlen hruns
    constructor
    · exact fun h => ⟨hlen, .inr (hiff.mp h)⟩
    · rintro ⟨-, h | h⟩
      · simp at h
      · exact hiff.mpr h

end

/-- Two games in two blocks, whose runs come in the opposite order. -/
theorem sharded_two_games :
    ∃ table, singleTable kingPawnReplies [kingPawnGame, kingPawnGame] 0 = some table ∧
      shardedTable kingPawnReplies [kingPawnGame, kingPawnGame] 0 [(1, 1), (0, 1)] = some table := by
  refine (sharded_iff kingPawnReplies [kingPawnGame, kingPawnGame] 0 ⟨[1, 1], by decide, rfl⟩
    (List.Perm.swap (0, 1) (1, 1) [])).mpr ⟨by decide, .inr ⟨?_, ?_⟩⟩
  · have hown : ∀ b ∈ blocksFrom 0 [1, 1], OwnFile b = true := by decide
    exact fun b hb _ => hown b hb
  · have hordered : (blocksFrom 0 [1, 1]).Pairwise (fun a b => fileOf a < fileOf b) := by decide
    exact hordered.imp fun h _ _ => h

/-- Three games in blocks of two and one: the merge overwrites the file of the first block. -/
theorem sharded_loses_block :
    ¬ ∀ {P : PyChess} (replies : Replies) (pgn : List (Game P)) (skipPly : Int) (p : Partition pgn.length)
      (runs : List Shard), runs.Perm p.blocks →
      ∃ table, singleTable replies pgn skipPly = some table ∧ shardedTable replies pgn skipPly runs = some table := by
  intro hall
  let pgn := [kingPawnGame, kingPawnGame, kingPawnGame]
  obtain ⟨table, hsingle, hsharded⟩ :=
    hall kingPawnReplies pgn 0 ⟨[2, 1], by decide, rfl⟩ [(0, 2), (2, 1)] (List.Perm.refl _)
  obtain ⟨table', htable', hiff⟩ :=
    shardedTable_iff kingPawnReplies pgn 0 (by decide : ∀ n ∈ [2, 1], 0 < n) (List.Perm.refl _) (by decide)
  rw [singleTable_eq _ _ _ (by decide)] at hsingle
  have hsame : table' = table := Option.some_inj.mp (htable'.symm.trans hsharded)
  have hrows : HasRows pgn 0 (0, 2) := ⟨kingPawnGame, List.mem_cons_self, List.cons_ne_nil _ _, by decide⟩
  have hown := (hiff.mp (hsame.trans (Option.some_inj.mp hsingle).symm)).1 (0, 2) List.mem_cons_self hrows
  revert hown
  decide

end ChessAnalytics.Surprise
