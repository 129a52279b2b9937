import Mathlib.Data.List.Induction
import Mathlib.Logic.Function.Basic

namespace MoveTools.KeyStore

variable {K V : Type*} [DecidableEq K]

/-- A value put under a key, or the key removed. -/
abbrev Write (K V : Type*) := K × Option V

def put (store : K → Option V) (w : Write K V) : K → Option V :=
  Function.update store w.1 w.2

def putAll (store : K → Option V) (ws : List (Write K V)) : K → Option V :=
  ws.foldl put store

/-- What the last of the writes to a key left there. -/
def last (ws : List (Write K V)) (k : K) : Option (Option V) :=
  (ws.reverse.find? fun w => w.1 = k).map Prod.snd

theorem last_concat (ws : List (Write K V)) (w : Write K V) (k : K) :
    last (ws ++ [w]) k = if w.1 = k then some w.2 else last ws k := by
  rw [last, List.reverse_append, List.reverse_singleton, List.singleton_append, List.find?_cons]
  by_cases h : w.1 = k
  · simp [h]
  · simp [h, last]

theorem last_eq_none {ws : List (Write K V)} {k : K} :
    last ws k = none ↔ ∀ w ∈ ws, w.1 ≠ k := by
  simp [last]

theorem putAll_eq (store : K → Option V) (ws : List (Write K V)) (k : K) :
    putAll store ws k = (last ws k).getD (store k) := by
  induction ws using List.reverseRecOn with
  | nil => rfl
  | append_singleton ws w ih =>
    rw [putAll, List.foldl_append, List.foldl_cons, List.foldl_nil, last_concat]
    by_cases h : w.1 = k
    · subst h
      simp [put]
    · rw [put, Function.update_of_ne (Ne.symm h), if_neg h]
      exact ih

theorem putAll_of_not_written {store : K → Option V} {ws : List (Write K V)} {k : K}
    (h : ∀ w ∈ ws, w.1 ≠ k) : putAll store ws k = store k := by
  rw [putAll_eq, last_eq_none.mpr h]
  rfl

theorem putAll_of_nodup {store : K → Option V} {ws : List (Write K V)}
    (h : (ws.map Prod.fst).Nodup) {w : Write K V} (hw : w ∈ ws) : putAll store ws w.1 = w.2 := by
  induction ws generalizing store with
  | nil => cases hw
  | cons u ws ih =>
    rw [List.map_cons, List.nodup_cons] at h
    rcases List.mem_cons.mp hw with rfl | hw
    · have hrest : ∀ v ∈ ws, v.1 ≠ w.1 := fun v hv he => h.1 (he ▸ List.mem_map_of_mem hv)
      exact (putAll_of_not_written hrest).trans (Function.update_self ..)
    · exact ih h.2 hw

theorem putAll_append (store : K → Option V) (ws vs : List (Write K V)) :
    putAll store (ws ++ vs) = putAll (putAll store ws) vs :=
  List.foldl_append

theorem mem_of_last {ws : List (Write K V)} {k : K} {v : Option V} (h : last ws k = some v) :
    (k, v) ∈ ws := by
  obtain ⟨w, hw, rfl⟩ := Option.map_eq_some_iff.mp h
  have hk : w.1 = k := by simpa using List.find?_some hw
  rw [← hk]
  exact List.mem_reverse.mp (List.mem_of_find?_eq_some hw)

theorem foldl_putAll {ι : Type*} (block : ι → List (Write K V)) {turn : (K → Option V) → ι → K → Option V}
    (hturn : ∀ store i, turn store i = putAll store (block i)) (is : List ι) (store : K → Option V) :
    is.foldl turn store = putAll store (is.flatMap block) := by
  induction is generalizing store with
  | nil => rfl
  | cons i is ih => rw [List.foldl_cons, hturn, ih, List.flatMap_cons, putAll_append]

theorem last_append (ws vs : List (Write K V)) (k : K) :
    last (ws ++ vs) k = (last vs k).or (last ws k) := by
  rw [last, List.reverse_append, List.find?_append]
  cases h : vs.reverse.find? fun w => w.1 = k <;> simp [last, h]

variable {ι : Type*} {block : ι → List (Write K V)} {is : List ι} {k : K}

theorem exists_of_last_flatMap {v : Option V} (h : last (is.flatMap block) k = some v) :
    ∃ i ∈ is, last (block i) k = some v := by
  induction is using List.reverseRecOn with
  | nil => cases h
  | append_singleton is i ih =>
    rw [List.flatMap_append, List.flatMap_singleton, last_append] at h
    cases hi : last (block i) k with
    | some w =>
      rw [hi] at h
      exact ⟨i, by simp, hi.trans h⟩
    | none =>
      rw [hi] at h
      obtain ⟨j, hj, hv⟩ := ih h
      exact ⟨j, List.mem_append_left _ hj, hv⟩

theorem last_flatMap_concat {i : ι} {v : Option V} (h : last (block i) k = some v) :
    last ((is ++ [i]).flatMap block) k = some v := by
  rw [List.flatMap_append, List.flatMap_singleton, last_append, h]
  rfl

theorem last_flatMap_isSome {i : ι} {v : Option V} (hi : i ∈ is) (h : last (block i) k = some v) :
    ∃ w, last (is.flatMap block) k = some w := by
  cases hl : last (is.flatMap block) k with
  | some w => exact ⟨w, rfl⟩
  | none =>
    exfalso
    rw [last_eq_none] at hl
    have hnone : last (block i) k = none :=
      last_eq_none.mpr fun w hw => hl w (List.mem_flatMap.mpr ⟨i, hi, hw⟩)
    rw [hnone] at h
    cases h

/-- Where all blocks that write a key leave the same there, their order does not matter. -/
theorem last_flatMap_congr {js : List ι} (hmem : ∀ i, i ∈ is ↔ i ∈ js)
    (hagree : ∀ i ∈ is, ∀ j ∈ is, ∀ v w, last (block i) k = some v → last (block j) k = some w →
      v = w) : last (is.flatMap block) k = last (js.flatMap block) k := by
  cases h : last (is.flatMap block) k with
  | some v =>
    obtain ⟨i, hi, hv⟩ := exists_of_last_flatMap h
    obtain ⟨w, hw⟩ := last_flatMap_isSome ((hmem i).mp hi) hv
    obtain ⟨j, hj, hjw⟩ := exists_of_last_flatMap hw
    rw [hw, hagree i hi j ((hmem j).mpr hj) v w hv hjw]
  | none =>
    cases hw : last (js.flatMap block) k with
    | none => rfl
    | some w =>
      obtain ⟨j, hj, hjw⟩ := exists_of_last_flatMap hw
      obtain ⟨v, hv⟩ := last_flatMap_isSome ((hmem j).mpr hj) hjw
      rw [hv] at h
      cases h

end MoveTools.KeyStore
