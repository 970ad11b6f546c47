import ChessAnalytics.Surprise.Summary

/-! The analysis directory: the names of its files, what a run and a merge do to it, and the
command line on top. -/
namespace ChessAnalytics.Surprise
open Strings Systems Pgn

/-- The directory: for each file name the rows that the file holds, as Parquet or as JSON. -/
abbrev Dir := AList (fun _ : Str => Table)

def stem : Str := "surprise_sinqcup22".toList
def parquetSuffix : Str := ".parquet".toList
def jsonSuffix : Str := ".json".toList

def parquetOf (name : Str) : Str := name ++ parquetSuffix
def jsonOf (name : Str) : Str := name ++ jsonSuffix

def combined : Str := parquetOf stem

/-- The names that match `surprise_sinqcup22_game*.parquet`. -/
def isPart (file : Str) : Bool :=
  (stem ++ "_game".toList).isPrefixOf file && parquetSuffix.isSuffixOf (file.drop (stem ++ "_game".toList).length)

/-- `p.with_suffix(".json")` for the file of a part. -/
def withJsonSuffix (file : Str) : Str := file.take (file.length - parquetSuffix.length) ++ jsonSuffix

/-- `sorted(ANALYSIS_DIR.glob("surprise_sinqcup22_game*.parquet"))`. -/
def parts (dir : Dir) : List Str := (dir.keys.filter isPart).insertionSort (· ≤ ·)

def saveResults (dir : Dir) (table : Table) (name : Str) : Dir :=
  (dir.insert (parquetOf name) table).insert (jsonOf name) table

def rowsOf (dir : Dir) (file : Str) : Table := (dir.lookup file).getD []

def readParquet (dir : Dir) (file : Str) : Except Failure Table :=
  match dir.lookup file with
  | some table => .ok table
  | none => .error (.fileNotFound file)

def unlink (dir : Dir) (file : Str) : Except Failure Dir :=
  if file ∈ dir then .ok (dir.erase file) else .error (.fileNotFound file)

/-- The clean-up of one part: its file, and its JSON file when there is one. -/
def removePart (dir : Dir) (file : Str) : Except Failure Dir := do
  let dir ← unlink dir file
  if withJsonSuffix file ∈ dir then unlink dir (withJsonSuffix file) else return dir

/-- A command leaves the directory behind in any case, and returns an exit code or raises. -/
structure Outcome where
  dir : Dir
  result : Except Failure Nat

/-- The clean-up loop. -/
def cleanUp : Dir → List Str → Outcome
  | dir, [] => ⟨dir, .ok 0⟩
  | dir, p :: ps =>
    match removePart dir p with
    | .ok dir => cleanUp dir ps
    | .error e => ⟨dir, .error e⟩

def mergeResults (dir : Dir) : Outcome :=
  match parts dir with
  | [] => ⟨dir, .ok 1⟩
  | p :: ps =>
    match (p :: ps).mapM (readParquet dir) with
    | .error e => ⟨dir, .error e⟩
    | .ok dfs =>
      let df := Frame.concat (dfs.map dataFrame)
      let saved := saveResults dir df.rows stem
      match printSummary df with
      | .error e => ⟨saved, .error e⟩
      | .ok _ => cleanUp saved (p :: ps)

def suffixOf (startGame games : Int) : Str :=
  if startGame > 0 ∨ games = 1 then "_game".toList ++ showInt startGame else []

/-- `main` without `--merge`. -/
def analysisRun {P : PyChess} (replies : Replies) (pgn : List (Game P)) (skipPly startGame games : Int) (dir : Dir) : Outcome :=
  let table := analyzeGames replies pgn games startGame skipPly
  let saved := saveResults dir table (stem ++ suffixOf startGame games)
  match printSummary (dataFrame table) with
  | .error e => ⟨saved, .error e⟩
  | .ok _ => ⟨saved, .ok 0⟩

/-- `main`; the PGN file is `none` when there is no such file. -/
def main {P : PyChess} (replies : Replies) (pgn : Option (List (Game P))) (skipPly startGame games : Int) (merge : Bool)
    (dir : Dir) : Outcome :=
  if merge then mergeResults dir
  else
    match pgn with
    | none => ⟨dir, .ok 1⟩
    | some pgn => analysisRun replies pgn skipPly startGame games dir

theorem parquetOf_injective : Function.Injective parquetOf := fun _ _ h => List.append_cancel_right h

theorem parquetOf_ne_jsonOf (a b : Str) : parquetOf a ≠ jsonOf b := by
  intro h
  have hlast := congrArg List.getLast? h
  rw [parquetOf, jsonOf, List.getLast?_append_of_ne_nil _ (by decide), List.getLast?_append_of_ne_nil _ (by decide)] at hlast
  revert hlast
  decide

theorem isPart_game (k : Str) : isPart (parquetOf (stem ++ ("_game".toList ++ k))) = true := by
  rw [isPart, parquetOf, ← List.append_assoc, List.append_assoc _ k, Bool.and_eq_true]
  refine ⟨List.isPrefixOf_iff_prefix.mpr (List.prefix_append _ _), ?_⟩
  rw [List.drop_left]
  exact List.isSuffixOf_iff_suffix.mpr (List.suffix_append _ _)

theorem not_isPart_combined : isPart combined = false := by decide

theorem isPart_jsonOf (name : Str) : isPart (jsonOf name) = false := by
  by_contra h
  rw [Bool.not_eq_false, isPart, Bool.and_eq_true] at h
  have hsuffix := (List.isSuffixOf_iff_suffix.mp h.2).trans (List.drop_suffix _ _)
  obtain ⟨front, hfront⟩ := hsuffix
  exact parquetOf_ne_jsonOf front name hfront

theorem ne_combined {file : Str} (h : isPart file = true) : file ≠ combined := by
  rintro rfl
  rw [not_isPart_combined] at h
  cases h

theorem part_ne_jsonOf {file name : Str} (h : isPart file = true) : file ≠ jsonOf name := by
  rintro rfl
  rw [isPart_jsonOf] at h
  cases h

theorem mem_parts {dir : Dir} {file : Str} : file ∈ parts dir ↔ file ∈ dir ∧ isPart file = true := by
  rw [parts, List.mem_insertionSort, List.mem_filter, AList.mem_keys]

theorem parts_nodup (dir : Dir) : (parts dir).Nodup :=
  (List.perm_insertionSort _ _).nodup_iff.mpr (dir.keys_nodup.filter _)

theorem parts_sorted (dir : Dir) : (parts dir).Pairwise (· ≤ ·) := List.pairwise_insertionSort _ _

theorem analysisRun_dir {P : PyChess} (replies : Replies) (pgn : List (Game P)) (skipPly startGame games : Int) (dir : Dir) :
    (analysisRun replies pgn skipPly startGame games dir).dir =
      saveResults dir (analyzeGames replies pgn games startGame skipPly) (stem ++ suffixOf startGame games) := by
  rw [analysisRun]
  split <;> rfl

theorem lookup_saved (dir : Dir) (table : Table) (name : Str) :
    (saveResults dir table name).lookup (parquetOf name) = some table := by
  rw [saveResults, AList.lookup_insert_ne (parquetOf_ne_jsonOf _ _), AList.lookup_insert]

theorem lookup_saved_ne (dir : Dir) (table : Table) {name file : Str} (hp : file ≠ parquetOf name) (hj : file ≠ jsonOf name) :
    (saveResults dir table name).lookup file = dir.lookup file := by
  rw [saveResults, AList.lookup_insert_ne hj, AList.lookup_insert_ne hp]

theorem mem_saved {dir : Dir} {table : Table} {name file : Str} :
    file ∈ saveResults dir table name ↔ file = jsonOf name ∨ file = parquetOf name ∨ file ∈ dir := by
  rw [saveResults, AList.mem_insert, AList.mem_insert]

theorem readParquet_of_mem {dir : Dir} {p : Str} (h : p ∈ dir) : readParquet dir p = .ok (rowsOf dir p) := by
  obtain ⟨table, htable⟩ := Option.isSome_iff_exists.mp (AList.lookup_isSome.mpr h)
  rw [readParquet, rowsOf, htable]
  rfl

private theorem erase_absent {dir : Dir} {file : Str} (h : file ∉ dir) : dir.erase file = dir :=
  AList.ext (List.kerase_of_notMem_keys h)

theorem removePart_of_mem {dir : Dir} {p : Str} (h : p ∈ dir) :
    removePart dir p = .ok ((dir.erase p).erase (withJsonSuffix p)) := by
  rw [removePart, unlink, if_pos h]
  change (if withJsonSuffix p ∈ dir.erase p then unlink (dir.erase p) (withJsonSuffix p) else .ok (dir.erase p)) = _
  split
  · rename_i hjson
    rw [unlink, if_pos hjson]
  · rename_i hjson
    rw [erase_absent hjson]

theorem removePart_of_absent {dir : Dir} {p : Str} (h : p ∉ dir) : removePart dir p = .error (.fileNotFound p) := by
  rw [removePart, unlink, if_neg h]
  rfl

theorem lookup_removePart {dir dir' : Dir} {p file : Str} (h : removePart dir p = .ok dir') (hp : file ≠ p)
    (hj : file ≠ withJsonSuffix p) : dir'.lookup file = dir.lookup file := by
  by_cases hmem : p ∈ dir
  · rw [removePart_of_mem hmem] at h
    rw [← Except.ok.inj h, AList.lookup_erase_ne hj, AList.lookup_erase_ne hp]
  · rw [removePart_of_absent hmem] at h
    cases h

/-- The clean-up touches nothing but the parts and their JSON files. -/
theorem lookup_cleanUp {ps : List Str} {file : Str} (hp : file ∉ ps) (hj : ∀ p ∈ ps, file ≠ withJsonSuffix p) (dir : Dir) :
    (cleanUp dir ps).dir.lookup file = dir.lookup file := by
  induction ps generalizing dir with
  | nil => rfl
  | cons p ps ih =>
    rw [List.mem_cons, not_or] at hp
    rw [cleanUp]
    split
    · rename_i dir' h
      rw [ih hp.2 (fun q hq => hj q (List.mem_cons_of_mem _ hq)) dir', lookup_removePart h hp.1 (hj p List.mem_cons_self)]
    · rfl

theorem mem_of_mem_cleanUp {ps : List Str} {file : Str} {dir : Dir} (h : file ∈ (cleanUp dir ps).dir) : file ∈ dir := by
  induction ps generalizing dir with
  | nil => exact h
  | cons p ps ih =>
    by_cases hp : p ∈ dir
    · rw [cleanUp, removePart_of_mem hp] at h
      exact (AList.mem_erase.mp (AList.mem_erase.mp (ih h)).2).2
    · rw [cleanUp, removePart_of_absent hp] at h
      exact h

/-- The clean-up of different parts that are all there goes through, and takes each with its JSON file. -/
theorem cleanUp_ok {ps : List Str} (hn : ps.Nodup) (hps : ∀ p ∈ ps, isPart p = true) {dir : Dir} (hmem : ∀ p ∈ ps, p ∈ dir) :
    (cleanUp dir ps).result = .ok 0 ∧
      ∀ p ∈ ps, p ∉ (cleanUp dir ps).dir ∧ withJsonSuffix p ∉ (cleanUp dir ps).dir := by
  induction ps generalizing dir with
  | nil => exact ⟨rfl, fun p hp => (List.not_mem_nil hp).elim⟩
  | cons p ps ih =>
    obtain ⟨hp, hn⟩ := List.nodup_cons.mp hn
    rw [List.forall_mem_cons] at hps hmem
    let dir' := (dir.erase p).erase (withJsonSuffix p)
    have hmem' : ∀ q ∈ ps, q ∈ dir' := by
      intro q hq
      have hne : q ≠ p := fun h => hp (h ▸ hq)
      exact AList.mem_erase.mpr ⟨part_ne_jsonOf (hps.2 q hq), AList.mem_erase.mpr ⟨hne, hmem.2 q hq⟩⟩
    have hclean : cleanUp dir (p :: ps) = cleanUp dir' ps := by rw [cleanUp, removePart_of_mem hmem.1]
    obtain ⟨hresult, hgone⟩ := ih hn hps.2 hmem'
    rw [hclean, List.forall_mem_cons]
    refine ⟨hresult, ⟨fun h => ?_, fun h => ?_⟩, hgone⟩
    · exact (AList.mem_erase.mp (AList.mem_erase.mp (mem_of_mem_cleanUp h)).2).1 rfl
    · exact (AList.mem_erase.mp (mem_of_mem_cleanUp h)).1 rfl

theorem combined_ne_json (p : Str) : combined ≠ withJsonSuffix p := fun h => parquetOf_ne_jsonOf _ _ h

theorem combined_not_part (dir : Dir) : combined ∉ parts dir := fun h =>
  Bool.false_ne_true (not_isPart_combined.symm.trans (mem_parts.mp h).2)

/-- The joined rows of the parts. -/
def mergedTable (dir : Dir) : Table := (parts dir).flatMap (rowsOf dir)

/-- What a merge does with the parts that it finds is decided by the summary. -/
theorem mergeResults_eq {dir : Dir} (hne : parts dir ≠ []) :
    mergeResults dir =
      match printSummary (dataFrame (mergedTable dir)) with
      | .error e => ⟨saveResults dir (mergedTable dir) stem, .error e⟩
      | .ok _ => cleanUp (saveResults dir (mergedTable dir) stem) (parts dir) := by
  obtain ⟨p, ps, hparts⟩ := List.exists_cons_of_ne_nil hne
  have hread : (p :: ps).mapM (readParquet dir) = .ok ((p :: ps).map (rowsOf dir)) := by
    exact mapM_ok fun q hq => readParquet_of_mem (mem_parts.mp (hparts ▸ hq)).1
  rw [mergeResults, mergedTable, hparts]
  simp only [hread, concat_dataFrame, List.flatMap_def]
  rfl

theorem lookup_merge {dir : Dir} (hne : parts dir ≠ []) :
    (mergeResults dir).dir.lookup combined = some (mergedTable dir) := by
  rw [mergeResults_eq hne]
  split
  · exact lookup_saved _ _ _
  · rw [lookup_cleanUp (combined_not_part dir) fun p _ => combined_ne_json p]
    exact lookup_saved _ _ _

theorem mergedTable_of_runs {α : Type} {dir : Dir} {runs : List α} {file : α → Str} {table : α → Table}
    (hparts : parts dir = runs.map file) (h : ∀ b ∈ runs, dir.lookup (file b) = some (table b)) :
    mergedTable dir = runs.flatMap table := by
  rw [mergedTable, hparts, List.flatMap_map]
  refine List.flatMap_congr fun b hb => ?_
  rw [rowsOf, h b hb]
  rfl

theorem merge_nothing {dir : Dir} (h : parts dir = []) : (mergeResults dir).dir = dir := by
  rw [mergeResults, h]

end ChessAnalytics.Surprise
