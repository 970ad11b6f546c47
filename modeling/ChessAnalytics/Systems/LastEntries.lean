import Mathlib

/-! A dictionary that keeps the last entry of every key, and is read in the order of its keys. -/
namespace ChessAnalytics.Systems

section
variable {κ α : Type} [LinearOrder κ]

/-- The entries in their order, each in place of the earlier ones under its key. -/
def keepLast (d : AList fun _ : κ => α) (entries : List (κ × α)) : AList fun _ : κ => α :=
  entries.foldl (fun d e => d.insert e.1 e.2) d

/-- `sorted(d.keys())`. -/
def sortedKeys (d : AList fun _ : κ => α) : List κ := d.keys.insertionSort (· ≤ ·)

theorem keepLast_append (d : AList fun _ : κ => α) (es fs : List (κ × α)) :
    keepLast d (es ++ fs) = keepLast (keepLast d es) fs := List.foldl_append

theorem mem_keepLast {d : AList fun _ : κ => α} {entries : List (κ × α)} {k : κ} :
    k ∈ keepLast d entries ↔ k ∈ d ∨ k ∈ entries.map Prod.fst := by
  induction entries generalizing d with
  | nil => simp [keepLast]
  | cons e entries ih =>
    have hstep : keepLast d (e :: entries) = keepLast (d.insert e.1 e.2) entries := rfl
    rw [hstep, ih, AList.mem_insert, List.map_cons, List.mem_cons]
    constructor
    · rintro ((h | h) | h)
      · exact .inr (.inl h)
      · exact .inl h
      · exact .inr (.inr h)
    · rintro (h | h | h)
      · exact .inl (.inr h)
      · exact .inl (.inl h)
      · exact .inr h

theorem lookup_keepLast_of_notMem {d : AList fun _ : κ => α} {entries : List (κ × α)} {k : κ}
    (h : k ∉ entries.map Prod.fst) : (keepLast d entries).lookup k = d.lookup k := by
  induction entries generalizing d with
  | nil => rfl
  | cons e entries ih =>
    rw [List.map_cons, List.mem_cons, not_or] at h
    have hstep : keepLast d (e :: entries) = keepLast (d.insert e.1 e.2) entries := rfl
    rw [hstep, ih h.2, AList.lookup_insert_ne h.1]

/-- Entries with different keys are all found, whatever the dictionary held before. -/
theorem lookup_keepLast_of_mem {d : AList fun _ : κ => α} {entries : List (κ × α)} {k : κ} {a : α}
    (hkeys : (entries.map Prod.fst).Nodup) (h : (k, a) ∈ entries) : (keepLast d entries).lookup k = some a := by
  induction entries generalizing d with
  | nil => cases h
  | cons e entries ih =>
    rw [List.map_cons, List.nodup_cons] at hkeys
    have hstep : keepLast d (e :: entries) = keepLast (d.insert e.1 e.2) entries := rfl
    rw [hstep]
    rcases List.mem_cons.mp h with rfl | h
    · rw [lookup_keepLast_of_notMem hkeys.1, AList.lookup_insert]
    · exact ih hkeys.2 h

theorem mem_of_lookup_keepLast {d : AList fun _ : κ => α} {entries : List (κ × α)} {k : κ} {a : α}
    (h : (keepLast d entries).lookup k = some a) : d.lookup k = some a ∨ (k, a) ∈ entries := by
  induction entries generalizing d with
  | nil => exact .inl h
  | cons e entries ih =>
    have hstep : keepLast d (e :: entries) = keepLast (d.insert e.1 e.2) entries := rfl
    rw [hstep] at h
    rcases ih h with h | h
    · by_cases hk : k = e.1
      · subst hk
        rw [AList.lookup_insert] at h
        obtain rfl := Option.some_inj.mp h
        exact .inr List.mem_cons_self
      · rw [AList.lookup_insert_ne hk] at h
        exact .inl h
    · exact .inr (List.mem_cons_of_mem _ h)

theorem lookup_keepLast_concat (d : AList fun _ : κ => α) (entries : List (κ × α)) (k : κ) (a : α) :
    (keepLast d (entries ++ [(k, a)])).lookup k = some a := by
  rw [keepLast_append]
  exact lookup_keepLast_of_mem (List.nodup_singleton k) List.mem_cons_self

/-- The keys come in the order of any increasing list that has the same ones. -/
theorem sortedKeys_eq {d : AList fun _ : κ => α} {ks : List κ} (hks : ks.Pairwise (· < ·)) (h : ∀ k, k ∈ d ↔ k ∈ ks) :
    sortedKeys d = ks := by
  have hperm : (sortedKeys d).Perm ks := by
    refine (List.perm_insertionSort _ _).trans ?_
    exact (List.perm_ext_iff_of_nodup d.nodupKeys (hks.imp fun hlt => hlt.ne)).mpr h
  exact hperm.eq_of_pairwise' (List.pairwise_insertionSort (· ≤ ·) _) (hks.imp fun hlt => hlt.le)

end

end ChessAnalytics.Systems
