import ChessAnalytics.Surprise.Store
import ChessAnalytics.Systems.Interleaving

/-! The commands step by step: what each step of an analysis run or a merge does to the directory. -/
namespace ChessAnalytics.Surprise
open Strings Systems Pgn

/-- A game that a run analyses: the PGN file, its place there, and the number in front of its ids,
which is the place again unless `--start-game` is negative. -/
structure Analysed where
  pgn : Str
  index : Nat
  number : Int
  deriving DecidableEq

/-- A command between two of its steps. -/
inductive Proc where
  | analysed (name : Str) (games : List Analysed) (table : Table)
  | analysedJson (name : Str) (table : Table)
  | merging
  | reading (todo : List Str) (read : List (Str × Table))
  | mergedJson (todo : List Str) (df : Table)
  | summary (todo : List Str) (df : Table)
  | removing (todo : List Str)
  | removingJson (file : Str) (todo : List Str)
  | done

/-- `pd.concat` of the parts that have been read. -/
def concat (read : List (Str × Table)) : Table := (read.map Prod.snd).flatten

/-- One step; a command that raises is done. -/
def Proc.step (dir : Dir) : Proc → Option (Dir × Proc)
  | .analysed name _ table => some (dir.insert (parquetOf name) table, .analysedJson name table)
  | .analysedJson name table => some (dir.insert (jsonOf name) table, .done)
  | .merging =>
    match parts dir with
    | [] => some (dir, .done)
    | p :: ps => some (dir, .reading (p :: ps) [])
  | .reading (p :: ps) read =>
    match readParquet dir p with
    | .ok table => some (dir, .reading ps (read ++ [(p, table)]))
    | .error _ => some (dir, .done)
  | .reading [] read => some (dir.insert combined (concat read), .mergedJson (read.map Prod.fst) (concat read))
  | .mergedJson todo df => some (dir.insert (jsonOf stem) df, .summary todo df)
  | .summary todo df =>
    match printSummary (dataFrame df) with
    | .ok _ => some (dir, .removing todo)
    | .error _ => some (dir, .done)
  | .removing [] => some (dir, .done)
  | .removing (p :: ps) =>
    match unlink dir p with
    | .ok dir => some (dir, .removingJson p ps)
    | .error _ => some (dir, .done)
  | .removingJson p ps => some (dir.erase (withJsonSuffix p), .removing ps)
  | .done => none

/-- A table that a command writes: a run saves one for the games it has analysed, and a merge the
combined one. -/
inductive Saved where
  | run (file : Str) (games : List Analysed)
  | merge

def Saved.file : Saved → Str
  | .run file _ => file
  | .merge => combined

/-- The games that are analysed for the table. -/
def Saved.games : Saved → List Analysed
  | .run _ games => games
  | .merge => []

/-- The table that the next step writes, and its rows. -/
def Proc.write : Proc → Option (Saved × Table)
  | .analysed name games table => some (.run (parquetOf name) games, table)
  | .reading [] read => some (.merge, concat read)
  | _ => none

def Proc.events (p : Proc) : List Saved := (p.write.map Prod.fst).toList

/-- The steps branch by branch. Whatever raises, or has nothing left to do, is done, and has no
table to write. -/
inductive Proc.Goes (dir : Dir) : Proc → Dir × Proc → Prop where
  | save (name : Str) (games : List Analysed) (table : Table) :
      Goes dir (.analysed name games table) (dir.insert (parquetOf name) table, .analysedJson name table)
  | saveJson (name : Str) (table : Table) : Goes dir (.analysedJson name table) (dir.insert (jsonOf name) table, .done)
  | glob {p : Str} {ps : List Str} : parts dir = p :: ps → Goes dir .merging (dir, .reading (p :: ps) [])
  | read {p : Str} (ps : List Str) (read : List (Str × Table)) {table : Table} : dir.lookup p = some table →
      Goes dir (.reading (p :: ps) read) (dir, .reading ps (read ++ [(p, table)]))
  | join (read : List (Str × Table)) :
      Goes dir (.reading [] read) (dir.insert combined (concat read), .mergedJson (read.map Prod.fst) (concat read))
  | joinJson (todo : List Str) (df : Table) : Goes dir (.mergedJson todo df) (dir.insert (jsonOf stem) df, .summary todo df)
  | summarize (todo : List Str) (df : Table) : Goes dir (.summary todo df) (dir, .removing todo)
  | remove (p : Str) (ps : List Str) : Goes dir (.removing (p :: ps)) (dir.erase p, .removingJson p ps)
  | removeJson (p : Str) (ps : List Str) : Goes dir (.removingJson p ps) (dir.erase (withJsonSuffix p), .removing ps)
  | finish (p : Proc) : p.write = none → Goes dir p (dir, .done)

theorem Proc.goes {dir : Dir} {p : Proc} {r : Dir × Proc} (h : p.step dir = some r) : p.Goes dir r := by
  cases p with
  | analysed name games table =>
    obtain rfl := Option.some_inj.mp h
    exact .save name games table
  | analysedJson name table =>
    obtain rfl := Option.some_inj.mp h
    exact .saveJson name table
  | merging =>
    rw [step] at h
    split at h
    · obtain rfl := Option.some_inj.mp h
      exact .finish .merging rfl
    · rename_i hparts
      obtain rfl := Option.some_inj.mp h
      exact .glob hparts
  | reading todo read =>
    cases todo with
    | nil =>
      obtain rfl := Option.some_inj.mp h
      exact .join read
    | cons p ps =>
      rw [step, readParquet] at h
      cases htable : dir.lookup p with
      | none =>
        rw [htable] at h
        obtain rfl := Option.some_inj.mp h
        exact .finish (.reading (p :: ps) read) rfl
      | some table =>
        rw [htable] at h
        obtain rfl := Option.some_inj.mp h
        exact .read ps read htable
  | mergedJson todo df =>
    obtain rfl := Option.some_inj.mp h
    exact .joinJson todo df
  | summary todo df =>
    rw [step] at h
    split at h
    · obtain rfl := Option.some_inj.mp h
      exact .summarize todo df
    · obtain rfl := Option.some_inj.mp h
      exact .finish (.summary todo df) rfl
  | removing todo =>
    cases todo with
    | nil =>
      obtain rfl := Option.some_inj.mp h
      exact .finish (.removing []) rfl
    | cons p ps =>
      rw [step, unlink] at h
      by_cases hp : p ∈ dir
      · rw [if_pos hp] at h
        obtain rfl := Option.some_inj.mp h
        exact .remove p ps
      · rw [if_neg hp] at h
        obtain rfl := Option.some_inj.mp h
        exact .finish (.removing (p :: ps)) rfl
  | removingJson p ps =>
    obtain rfl := Option.some_inj.mp h
    exact .removeJson p ps
  | done => cases h

def commands : Machine Dir Proc Saved := ⟨Proc.step, Proc.events, .done⟩

section
variable {P : PyChess} (pgns : Str → List (Game P))

/-- The games that a run over this PGN file analyses. -/
def gamesOf (path : Str) (startGame games : Int) : List Analysed :=
  (((pgns path).drop startGame.toNat).take games.toNat).mapIdx fun i _ => ⟨path, startGame.toNat + i, startGame + i⟩

/-- A run that has analysed its games and is about to save the table. -/
def analysis (replies : Replies) (path : Str) (skipPly startGame games : Int) : Proc :=
  .analysed (stem ++ suffixOf startGame games) (gamesOf pgns path startGame games)
    (analyzeGames replies (pgns path) games startGame skipPly)

/-- The row is one of those that an analysis of this game gives, whatever the engines reply and
wherever the opening ends. -/
def RowOf (game : Analysed) (row : Row) : Prop :=
  ∃ (replies : Replies) (skipPly : Int) (g : Game P), (pgns game.pgn)[game.index]? = some g ∧
    row ∈ rowsOfGame replies skipPly game.number g

theorem rowOf_analysis {replies : Replies} {path : Str} {skipPly startGame games : Int} {row : Row}
    (h : row ∈ analyzeGames replies (pgns path) games startGame skipPly) :
    ∃ game ∈ gamesOf pgns path startGame games, RowOf pgns game row := by
  obtain ⟨i, hi, g, hg, hrow⟩ := mem_analyzeFrom replies h
  rw [List.getElem?_drop] at hg
  refine ⟨⟨path, startGame.toNat + i, startGame + i⟩, ?_, replies, skipPly, g, hg, hrow⟩
  refine List.mem_mapIdx.mpr ⟨i, ?_, rfl⟩
  rw [List.length_take, List.length_drop]
  have hlt := (List.getElem?_eq_some_iff.mp hg).1
  omega

theorem alone {dir : Dir} {p : Proc} {r : Dir × Proc} (h : p.step dir = some r) : commands.Alone (dir, p) r :=
  Machine.Alone.single h

theorem analysis_alone (replies : Replies) (path : Str) (skipPly startGame games : Int) (dir : Dir) :
    commands.Alone (dir, analysis pgns replies path skipPly startGame games)
      ((main replies (some (pgns path)) skipPly startGame games false dir).dir, .done) := by
  have hdir : (main replies (some (pgns path)) skipPly startGame games false dir).dir = _ :=
    analysisRun_dir replies (pgns path) skipPly startGame games dir
  rw [hdir]
  exact (alone rfl).trans (alone rfl)

end

private theorem reading_alone {dir : Dir} {todo : List Str} (h : ∀ p ∈ todo, p ∈ dir) (read : List (Str × Table)) :
    commands.Alone (dir, .reading todo read) (dir, .reading [] (read ++ todo.map fun p => (p, rowsOf dir p))) := by
  induction todo generalizing read with
  | nil => simpa using Machine.Alone.refl _
  | cons p ps ih =>
    have hstep : (Proc.reading (p :: ps) read).step dir = some (dir, .reading ps (read ++ [(p, rowsOf dir p)])) := by
      rw [Proc.step, readParquet_of_mem (h p List.mem_cons_self)]
    have hsteps := ih (fun q hq => h q (List.mem_cons_of_mem _ hq)) (read ++ [(p, rowsOf dir p)])
    rw [List.append_assoc, List.singleton_append] at hsteps
    exact (alone hstep).trans hsteps

private theorem removing_alone (todo : List Str) (dir : Dir) :
    commands.Alone (dir, .removing todo) ((cleanUp dir todo).dir, .done) := by
  induction todo generalizing dir with
  | nil => exact alone rfl
  | cons p ps ih =>
    by_cases hp : p ∈ dir
    · have hunlink : (Proc.removing (p :: ps)).step dir = some (dir.erase p, .removingJson p ps) := by
        rw [Proc.step, unlink, if_pos hp]
      have hclean : cleanUp dir (p :: ps) = cleanUp ((dir.erase p).erase (withJsonSuffix p)) ps := by
        rw [cleanUp, removePart_of_mem hp]
      rw [hclean]
      exact (alone hunlink).trans ((alone rfl).trans (ih _))
    · have hfails : (Proc.removing (p :: ps)).step dir = some (dir, .done) := by
        rw [Proc.step, unlink, if_neg hp]
      have hclean : (cleanUp dir (p :: ps)).dir = dir := by rw [cleanUp, removePart_of_absent hp]
      rw [hclean]
      exact alone hfails

theorem merge_alone (dir : Dir) : commands.Alone (dir, .merging) ((mergeResults dir).dir, .done) := by
  cases hparts : parts dir with
  | nil =>
    have hnothing : Proc.merging.step dir = some (dir, .done) := by rw [Proc.step, hparts]
    rw [merge_nothing hparts]
    exact alone hnothing
  | cons p ps =>
    have hglob : Proc.merging.step dir = some (dir, .reading (p :: ps) []) := by rw [Proc.step, hparts]
    have hmem : ∀ q ∈ p :: ps, q ∈ dir := fun q hq => (mem_parts.mp (hparts ▸ hq)).1
    have hread := reading_alone hmem []
    have hconcat : concat ((p :: ps).map fun p => (p, rowsOf dir p)) = mergedTable dir := by
      rw [concat, List.map_map, mergedTable, hparts, List.flatMap_def]
      rfl
    have hfst : ((p :: ps).map fun p => (p, rowsOf dir p)).map Prod.fst = p :: ps := by
      rw [List.map_map]
      exact List.map_id _
    have hwrite : (Proc.reading [] ((p :: ps).map fun p => (p, rowsOf dir p))).step dir =
        some (dir.insert combined (mergedTable dir), .mergedJson (p :: ps) (mergedTable dir)) := by
      rw [Proc.step, hfst, hconcat]
    have hsaved : commands.Alone (dir, .merging)
        (saveResults dir (mergedTable dir) stem, .summary (p :: ps) (mergedTable dir)) :=
      (alone hglob).trans (hread.trans ((alone hwrite).trans (alone rfl)))
    rw [mergeResults_eq (hparts ▸ List.cons_ne_nil p ps), hparts]
    split
    · rename_i e he
      have hfails : (Proc.summary (p :: ps) (mergedTable dir)).step (saveResults dir (mergedTable dir) stem) =
          some (saveResults dir (mergedTable dir) stem, .done) := by rw [Proc.step, he]
      exact hsaved.trans (alone hfails)
    · rename_i he
      have hsummary : (Proc.summary (p :: ps) (mergedTable dir)).step (saveResults dir (mergedTable dir) stem) =
          some (saveResults dir (mergedTable dir) stem, .removing (p :: ps)) := by rw [Proc.step, he]
      exact hsaved.trans ((alone hsummary).trans (removing_alone _ _))

end ChessAnalytics.Surprise
