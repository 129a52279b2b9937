import MoveTools.Library.Collect
import MoveTools.Index.Store

namespace MoveTools.Index.Resolve
open Store Collect

/-- An error, or no fuel left. -/
inductive Stop where
  | error (message : String)
  | outOfFuel
  deriving DecidableEq, Repr

/-- What `resolve_imports` does not decide itself: the order in which a `HashSet` is visited, and
what is found on the chain, `chain::resolve` followed by `ChainIndex::meta`: the name of the file
and its metadata. -/
structure Resolver where
  order : List ModuleId → List ModuleId
  chainMeta : ModuleId → Except String (Text × FileMeta)

/-- The index and the set of paths. -/
abbrev State := ModulesIndex × List Text

/-- An indexed import: its path, and with `resolveImports` those of its own imports. `none` stands
for `Ok(false)`. -/
def resolve (resolveImports : List ModuleId → State → Except Stop State) (import_ : ModuleId)
    (s : State) : Except Stop (Option State) :=
  match s.1.getModule import_ with
  | some module => (resolveImports module.dependencies (s.1, s.2.insert module.path)).map some
  | none => .ok none

def notResolved (import_ : ModuleId) : String := "Failed to resolve dependency:" ++ import_.name

/-- The body of the loop over the imports. -/
def resolveImport (chainMeta : ModuleId → Except String (Text × FileMeta))
    (resolveImports : List ModuleId → State → Except Stop State) (s : State)
    (import_ : ModuleId) : Except Stop State := do
  match ← resolve resolveImports import_ s with
  | some s => return s
  | none =>
    match chainMeta import_ with
    | .error message => .error (.error message)
    | .ok (name, file) =>
      let s ← file.metas.foldlM (fun s unit => resolveImports unit.imports s) s
      let s : State := (s.1.storeMeta [file] .Chain name, s.2)
      match ← resolve resolveImports import_ s with
      | some s => return s
      | none => .error (.error (notResolved import_))

def resolveImports (r : Resolver) : ℕ → List ModuleId → State → Except Stop State
  | 0, _, _ => .error .outOfFuel
  | fuel + 1, imports, s =>
    (r.order imports).foldlM (resolveImport r.chainMeta (resolveImports r fuel)) s

/-- What the project's own files import and do not define. -/
def externalImports (files : List FileMeta) : List ModuleId :=
  let metas := files.flatMap FileMeta.metas
  let modules := metas.map DefinitionMeta.moduleId
  ((metas.flatMap DefinitionMeta.imports).filter fun m => m ∉ modules).dedup

/-- `sources` is what `source_meta` gives for the files of the project, in order. -/
def makeDependencySet (r : Resolver) (fuel : ℕ) (sources : List (Except String FileMeta))
    (index : ModulesIndex) : Except Stop State :=
  match sources.mapM id with
  | .error message => .error (.error message)
  | .ok files => resolveImports r fuel (externalImports files) (index, [])

section
variable (chainMeta : ModuleId → Except String (Text × FileMeta)) (index : ModulesIndex)

/-- The module as it is stored when it was found on the chain. -/
def chainEntry (m : ModuleId) : Option Module :=
  match chainMeta m with
  | .error _ => none
  | .ok (name, file) =>
    file.metas.head?.map fun unit => ⟨m, name, file.path, .Chain, unit.imports⟩

def look (m : ModuleId) : Option Module := (index.getModule m).or (chainEntry chainMeta m)

/-- `k` is imported by `m`. -/
def Imports (m k : ModuleId) : Prop :=
  ∃ module, look chainMeta index m = some module ∧ k ∈ module.dependencies

abbrev Reaches : ModuleId → ModuleId → Prop := Relation.ReflTransGen (Imports chainMeta index)

/-- Following imports from `m` comes to an end. -/
abbrev Finite (m : ModuleId) : Prop := Acc (fun k m => Imports chainMeta index m k) m

/-- Everything that is reached is in the index or on the chain. -/
def Resolvable (m : ModuleId) : Prop :=
  ∀ k, Reaches chainMeta index m k → (look chainMeta index k).isSome

/-- `p` is the path of a module that is reached. -/
def PathOf (m : ModuleId) (p : Text) : Prop :=
  ∃ k module, Reaches chainMeta index m k ∧ look chainMeta index k = some module ∧
    module.path = p

end

/-- The file of a module that is found on the chain holds this module alone. -/
def OneModule (chainMeta : ModuleId → Except String (Text × FileMeta)) : Prop :=
  ∀ m name file, chainMeta m = .ok (name, file) → ∃ unit, file.metas = [unit] ∧ unit.moduleId = m

section
variable {chainMeta : ModuleId → Except String (Text × FileMeta)} {index : ModulesIndex}
  {m : ModuleId} {module : Module} {p : Text} {s : State}

theorem resolvable_iff (h : look chainMeta index m = some module) :
    Resolvable chainMeta index m ↔ ∀ k ∈ module.dependencies, Resolvable chainMeta index k := by
  constructor
  · intro hm k hk j hj
    exact hm j (.head ⟨module, h, hk⟩ hj)
  · intro hdeps k hk
    rcases Relation.ReflTransGen.cases_head hk with rfl | ⟨j, ⟨module', h', hj⟩, hk⟩
    · exact h ▸ rfl
    · cases h.symm.trans h'
      exact hdeps j hj k hk

theorem not_resolvable (h : look chainMeta index m = none) : ¬Resolvable chainMeta index m :=
  fun hm => by simpa [h] using hm m .refl

theorem pathOf_iff (h : look chainMeta index m = some module) :
    PathOf chainMeta index m p ↔
      p = module.path ∨ ∃ k ∈ module.dependencies, PathOf chainMeta index k p := by
  constructor
  · rintro ⟨k, module', hk, hlook, rfl⟩
    rcases Relation.ReflTransGen.cases_head hk with rfl | ⟨j, ⟨module'', h', hj⟩, hk⟩
    · cases h.symm.trans hlook
      exact .inl rfl
    · cases h.symm.trans h'
      exact .inr ⟨j, hj, k, module', hk, hlook, rfl⟩
  · rintro (rfl | ⟨k, hk, j, module', hj, hlook, rfl⟩)
    · exact ⟨m, module, .refl, h, rfl⟩
    · exact ⟨j, module', .head ⟨module, h, hk⟩ hj, hlook, rfl⟩

/-- The index knows no more and no less than `index` with the chain. -/
def Same (chainMeta : ModuleId → Except String (Text × FileMeta)) (index current : ModulesIndex) :
    Prop :=
  ∀ m, look chainMeta current m = look chainMeta index m

theorem Same.look_of_getModule (hs : Same chainMeta index s.1)
    (h : s.1.getModule m = some module) : look chainMeta index m = some module := by
  rw [← hs m, look, h, Option.some_or]

theorem Same.chainEntry_of_getModule (hs : Same chainMeta index s.1)
    (h : s.1.getModule m = none) : chainEntry chainMeta m = look chainMeta index m := by
  rw [← hs m, look, h, Option.none_or]

/-- What resolving the imports `ms` in the state `s` comes to. -/
structure Outcome (chainMeta : ModuleId → Except String (Text × FileMeta)) (index : ModulesIndex)
    (ms : List ModuleId) (s : State) (r : Except Stop State) : Prop where
  resolved : (∀ m ∈ ms, Resolvable chainMeta index m) → ∃ s', r = .ok s' ∧
    Same chainMeta index s'.1 ∧ ∀ p, p ∈ s'.2 ↔ p ∈ s.2 ∨ ∃ m ∈ ms, PathOf chainMeta index m p
  unresolved : ¬(∀ m ∈ ms, Resolvable chainMeta index m) → ∃ e, r = .error (.error e)

theorem Outcome.congr {ms ms' : List ModuleId} {r : Except Stop State}
    (h : Outcome chainMeta index ms s r) (hms : ∀ m, m ∈ ms ↔ m ∈ ms') :
    Outcome chainMeta index ms' s r := by
  constructor
  · simpa only [hms] using h.resolved
  · simpa only [hms] using h.unresolved

theorem foldlM_outcome {f : State → ModuleId → Except Stop State} {ms : List ModuleId}
    (hf : ∀ m ∈ ms, ∀ s : State, Same chainMeta index s.1 →
      Outcome chainMeta index [m] s (f s m))
    (hs : Same chainMeta index s.1) : Outcome chainMeta index ms s (ms.foldlM f s) := by
  induction ms generalizing s with
  | nil =>
    constructor
    · intro _
      exact ⟨s, rfl, hs, fun p => by simp⟩
    · intro h
      simp at h
  | cons m ms ih =>
    have hm := hf m List.mem_cons_self s hs
    have ih := fun s hs => ih (s := s) (fun m hm => hf m (List.mem_cons_of_mem _ hm)) hs
    rw [List.foldlM_cons]
    constructor
    · intro h
      obtain ⟨s1, h1, hs1, hp1⟩ := hm.resolved (by simpa using h m List.mem_cons_self)
      obtain ⟨s2, h2, hs2, hp2⟩ := (ih s1 hs1).resolved fun k hk =>
        h k (List.mem_cons_of_mem _ hk)
      refine ⟨s2, by rw [h1]; exact h2, hs2, fun p => ?_⟩
      rw [hp2, hp1]
      simp [or_assoc]
    · intro h
      by_cases hres : Resolvable chainMeta index m
      · obtain ⟨s1, h1, hs1, _⟩ := hm.resolved (by simpa using hres)
        obtain ⟨e, he⟩ := (ih s1 hs1).unresolved fun hms =>
          h (List.forall_mem_cons.mpr ⟨hres, hms⟩)
        exact ⟨e, by rw [h1]; exact he⟩
      · obtain ⟨e, he⟩ := hm.unresolved (by simpa using hres)
        exact ⟨e, by rw [he]; rfl⟩

theorem resolve_outcome {resolveImports : List ModuleId → State → Except Stop State}
    (hrec : ∀ s : State, Same chainMeta index s.1 →
      Outcome chainMeta index module.dependencies s (resolveImports module.dependencies s))
    (hs : Same chainMeta index s.1) (h : s.1.getModule m = some module) :
    ∃ r, resolve resolveImports m s = r.map some ∧ Outcome chainMeta index [m] s r := by
  have hlook := hs.look_of_getModule h
  refine ⟨resolveImports module.dependencies (s.1, s.2.insert module.path), ?_, ?_⟩
  · simp [resolve, h]
  · have hout := hrec (s.1, s.2.insert module.path) hs
    constructor
    · intro hm
      rw [List.forall_mem_singleton, resolvable_iff hlook] at hm
      obtain ⟨s', hr, hs', hp⟩ := hout.resolved hm
      refine ⟨s', hr, hs', fun p => ?_⟩
      rw [hp]
      simp only [List.mem_insert_iff, List.mem_singleton, exists_eq_left, pathOf_iff hlook]
      rw [or_comm (a := p = module.path), or_assoc]
    · intro hm
      rw [List.forall_mem_singleton, resolvable_iff hlook] at hm
      exact hout.unresolved hm

theorem getModule_insert_same {current : ModulesIndex} (hs : Same chainMeta index current)
    (hlook : look chainMeta index module.name = some module)
    (htype : module.sourceType = .Chain) :
    (current.insert module).getModule module.name = some module := by
  apply ModulesIndex.getModule_insert_chain htype
  cases h : current.getModule module.name with
  | none => exact .inl rfl
  | some x =>
    have hx : look chainMeta current module.name = some x := by rw [look, h, Option.some_or]
    rw [hs, hlook] at hx
    exact .inr hx.symm

theorem Same.insert {current : ModulesIndex} (hs : Same chainMeta index current)
    (hlook : look chainMeta index module.name = some module)
    (htype : module.sourceType = .Chain) : Same chainMeta index (current.insert module) := by
  intro k
  by_cases hk : k = module.name
  · subst hk
    rw [look, getModule_insert_same hs hlook htype, Option.some_or, hlook]
  · rw [look, ModulesIndex.getModule_insert_of_ne hk]
    exact hs k

theorem resolveImport_outcome (hone : OneModule chainMeta)
    {resolveImports : List ModuleId → State → Except Stop State}
    (hrec : ∀ module, look chainMeta index m = some module →
      ∀ s : State, Same chainMeta index s.1 →
        Outcome chainMeta index module.dependencies s (resolveImports module.dependencies s))
    (hs : Same chainMeta index s.1) :
    Outcome chainMeta index [m] s (resolveImport chainMeta resolveImports s m) := by
  unfold resolveImport
  cases hget : s.1.getModule m with
  | some module =>
    obtain ⟨r, hr, hout⟩ := resolve_outcome (hrec module (hs.look_of_getModule hget)) hs hget
    rw [hr]
    cases r with
    | error e => exact hout
    | ok s' => exact hout
  | none =>
    have hnone : resolve resolveImports m s = .ok none := by simp [resolve, hget]
    have hentry := hs.chainEntry_of_getModule hget
    rw [hnone]
    cases hmeta : chainMeta m with
    | error e =>
      have hlook : look chainMeta index m = none := by simp [← hentry, chainEntry, hmeta]
      constructor
      · intro hm
        exact absurd (hm m (List.mem_singleton_self m)) (not_resolvable hlook)
      · intro _
        exact ⟨e, by simp [bind, Except.bind]⟩
    | ok x =>
      obtain ⟨name, file⟩ := x
      obtain ⟨unit, hunit, rfl⟩ := hone m name file hmeta
      -- what is looked up again is what is about to be stored
      obtain ⟨stored, hstored⟩ : ∃ stored : Module,
          stored = ⟨unit.moduleId, name, file.path, .Chain, unit.imports⟩ := ⟨_, rfl⟩
      have hname : stored.name = unit.moduleId := by rw [hstored]
      have htype : stored.sourceType = .Chain := by rw [hstored]
      have himports : stored.dependencies = unit.imports := by rw [hstored]
      have hlook : look chainMeta index stored.name = some stored := by
        rw [hname, ← hentry, hstored]
        simp [chainEntry, hmeta, hunit]
      have hdeps := hrec stored (hname ▸ hlook)
      have hout := hdeps s hs
      rw [← hname]
      simp only [bind, Except.bind, hunit, List.foldlM_cons, List.foldlM_nil, ← himports]
      by_cases hres : ∀ k ∈ stored.dependencies, Resolvable chainMeta index k
      · obtain ⟨s1, h1, hs1, hp1⟩ := hout.resolved hres
        obtain ⟨r, hr, hout2⟩ := resolve_outcome (s := (s1.1.insert stored, s1.2))
          hdeps (hs1.insert hlook htype) (getModule_insert_same hs1 hlook htype)
        have hstore : s1.1.storeMeta [file] .Chain name = s1.1.insert stored := by
          simp [ModulesIndex.storeMeta, ModulesIndex.storeFile, ModulesIndex.storeUnit, hunit,
            hstored]
        obtain ⟨s3, h3, hs3, hp3⟩ := hout2.resolved
          (by simpa [resolvable_iff hlook] using hres)
        have hrun : resolve resolveImports stored.name (s1.1.insert stored, s1.2) =
            .ok (some s3) := by rw [hr, h3]; rfl
        constructor
        · intro _
          refine ⟨s3, ?_, hs3, fun p => ?_⟩
          · simp [h1, pure, Except.pure, hstore, hrun]
          · rw [hp3, hp1]
            simp only [List.mem_singleton, exists_eq_left, pathOf_iff hlook]
            tauto
        · intro h
          exact absurd (by simpa [resolvable_iff hlook] using hres) h
      · obtain ⟨e, he⟩ := hout.unresolved hres
        constructor
        · intro h
          rw [List.forall_mem_singleton, resolvable_iff hlook] at h
          exact absurd h hres
        · intro _
          exact ⟨e, by simp [he]⟩

theorem exists_enough {α : Type} {ms : List α} {P : α → ℕ → Prop}
    (h : ∀ m ∈ ms, ∃ n, ∀ fuel, n ≤ fuel → P m fuel) :
    ∃ n, ∀ fuel, n ≤ fuel → ∀ m ∈ ms, P m fuel := by
  induction ms with
  | nil => exact ⟨0, fun _ _ m hm => by simp at hm⟩
  | cons m ms ih =>
    obtain ⟨n, hn⟩ := h m List.mem_cons_self
    obtain ⟨k, hk⟩ := ih fun m hm => h m (List.mem_cons_of_mem _ hm)
    refine ⟨max n k, fun fuel hf => List.forall_mem_cons.mpr ⟨?_, ?_⟩⟩
    · exact hn fuel (by omega)
    · exact hk fuel (by omega)

/-- A set is visited element by element. -/
def IsOrder (order : List ModuleId → List ModuleId) : Prop := ∀ ms, (order ms).Perm ms

variable {r : Resolver}

theorem resolveImports_outcome_of_step (horder : IsOrder r.order) {ms : List ModuleId} {n : ℕ}
    (h : ∀ fuel, n ≤ fuel → ∀ m ∈ ms, ∀ s : State, Same r.chainMeta index s.1 →
      Outcome r.chainMeta index [m] s
        (resolveImport r.chainMeta (resolveImports r fuel) s m)) :
    ∀ fuel, n + 1 ≤ fuel → ∀ s : State, Same r.chainMeta index s.1 →
      Outcome r.chainMeta index ms s (resolveImports r fuel ms s) := by
  intro fuel hf s hs
  obtain ⟨fuel, rfl⟩ : ∃ k, fuel = k + 1 := ⟨fuel - 1, by omega⟩
  have hmem : ∀ m, m ∈ r.order ms ↔ m ∈ ms := fun m => (horder ms).mem_iff
  apply Outcome.congr _ hmem
  exact foldlM_outcome (fun m hm => h fuel (by omega) m ((hmem m).mp hm)) hs

theorem resolveImport_ends (horder : IsOrder r.order) (hone : OneModule r.chainMeta)
    (hfinite : Finite r.chainMeta index m) :
    ∃ n, ∀ fuel, n ≤ fuel → ∀ s : State, Same r.chainMeta index s.1 →
      Outcome r.chainMeta index [m] s
        (resolveImport r.chainMeta (resolveImports r fuel) s m) := by
  induction hfinite with
  | intro m _ ih =>
    cases hlook : look r.chainMeta index m with
    | none =>
      refine ⟨0, fun fuel _ s hs => resolveImport_outcome hone (fun module h => ?_) hs⟩
      cases hlook.symm.trans h
    | some module =>
      obtain ⟨n, hn⟩ := exists_enough fun k hk => ih k ⟨module, hlook, hk⟩
      have hdeps := resolveImports_outcome_of_step horder hn
      refine ⟨n + 1, fun fuel hf s hs => resolveImport_outcome hone (fun module' h => ?_) hs⟩
      cases hlook.symm.trans h
      exact hdeps fuel hf

theorem resolveImports_ends (horder : IsOrder r.order) (hone : OneModule r.chainMeta)
    {ms : List ModuleId} (h : ∀ m ∈ ms, Finite r.chainMeta index m) :
    ∃ fuel, ∀ s : State, Same r.chainMeta index s.1 →
      Outcome r.chainMeta index ms s (resolveImports r fuel ms s) := by
  obtain ⟨n, hn⟩ := exists_enough fun m hm => resolveImport_ends horder hone (h m hm)
  exact ⟨n + 1, resolveImports_outcome_of_step horder hn (n + 1) (Nat.le_refl _)⟩

variable (chainMeta index) in
open Classical in
/-- An order that visits a module first from which following imports does not come to an end. -/
noncomputable def endlessFirst (ms : List ModuleId) : List ModuleId :=
  if h : ∃ m ∈ ms, ¬Finite chainMeta index m then h.choose :: ms.erase h.choose else ms

theorem endlessFirst_isOrder : IsOrder (endlessFirst chainMeta index) := by
  intro ms
  unfold endlessFirst
  split
  · rename_i h
    exact (List.perm_cons_erase h.choose_spec.1).symm
  · exact List.Perm.refl ms

theorem endlessFirst_eq_cons {ms : List ModuleId} (h : ∃ m ∈ ms, ¬Finite chainMeta index m) :
    ∃ m rest, endlessFirst chainMeta index ms = m :: rest ∧ ¬Finite chainMeta index m :=
  ⟨h.choose, ms.erase h.choose, dif_pos h, h.choose_spec.2⟩

/-- What does not end goes on with one of its imports. -/
theorem exists_endless_import (h : ¬Finite chainMeta index m) :
    ∃ module, look chainMeta index m = some module ∧
      ∃ k ∈ module.dependencies, ¬Finite chainMeta index k := by
  by_contra hno
  apply h
  refine ⟨m, fun k hk => ?_⟩
  obtain ⟨module, hlook, hk⟩ := hk
  by_contra hfin
  exact hno ⟨module, hlook, k, hk, hfin⟩

theorem resolveImports_endless (hone : OneModule chainMeta) (fuel : ℕ) {ms : List ModuleId}
    (h : ∃ m ∈ ms, ¬Finite chainMeta index m) (s : State) (hs : Same chainMeta index s.1) :
    resolveImports ⟨endlessFirst chainMeta index, chainMeta⟩ fuel ms s = .error .outOfFuel := by
  induction fuel generalizing ms s with
  | zero => rfl
  | succ fuel ih =>
    obtain ⟨m, rest, hms, hm⟩ := endlessFirst_eq_cons h
    obtain ⟨module, hlook, hdeps⟩ := exists_endless_import hm
    have hstep : resolveImport chainMeta
        (resolveImports ⟨endlessFirst chainMeta index, chainMeta⟩ fuel) s m =
          .error .outOfFuel := by
      unfold resolveImport
      cases hget : s.1.getModule m with
      | some x =>
        cases hlook.symm.trans (hs.look_of_getModule hget)
        simp [resolve, hget, ih hdeps (s.1, s.2.insert module.path) hs, bind, Except.bind,
          Except.map]
      | none =>
        have hentry := (hs.chainEntry_of_getModule hget).trans hlook
        unfold chainEntry at hentry
        cases hmeta : chainMeta m with
        | error e => simp [hmeta] at hentry
        | ok x =>
          obtain ⟨name, file⟩ := x
          obtain ⟨unit, hunit, _⟩ := hone m name file hmeta
          simp only [hmeta, hunit, List.head?_cons, Option.map_some, Option.some.injEq] at hentry
          have himports : module.dependencies = unit.imports := by rw [← hentry]
          rw [himports] at hdeps
          simp [resolve, hget, hunit, ih hdeps s hs, bind, Except.bind]
    simp only [resolveImports, hms, List.foldlM_cons, hstep]
    rfl

end

section
variable (chainMeta : ModuleId → Except String (Text × FileMeta)) (index : ModulesIndex)

/-- Whatever order sets are visited in: the call ends; it gives the paths of the modules that are
reached if they are all indexed, and an error if one of them cannot be resolved. -/
def Closes (sources : List (Except String FileMeta)) : Prop :=
  ∀ order, IsOrder order → ∃ fuel r,
    makeDependencySet ⟨order, chainMeta⟩ fuel sources index = r ∧ r ≠ .error .outOfFuel ∧
    ∀ files, sources = files.map .ok →
      ((∀ m ∈ externalImports files, ∀ k, Reaches chainMeta index m k →
          (index.getModule k).isSome) →
        ∃ s, r = .ok s ∧ ∀ p, p ∈ s.2 ↔ ∃ m ∈ externalImports files, ∃ k module,
          Reaches chainMeta index m k ∧ index.getModule k = some module ∧ module.path = p) ∧
      ((∃ m ∈ externalImports files, ¬Resolvable chainMeta index m) →
        ∃ e, r = .error (.error e))

/-- From no import of the project can imports be followed forever: with finitely many modules,
none of them reaches an import cycle. -/
def Terminates (sources : List (Except String FileMeta)) : Prop :=
  ∀ files, sources = files.map .ok → ∀ m ∈ externalImports files, Finite chainMeta index m

end

theorem mapM_id_eq_ok {sources : List (Except String FileMeta)} {files : List FileMeta} :
    sources.mapM id = .ok files ↔ sources = files.map .ok := by
  rw [mapM_eq_ok]
  constructor
  · intro h
    induction h with
    | nil => rfl
    | cons hx _ ih => rw [List.map_cons, ← ih, ← hx, id]
  · rintro rfl
    rw [List.forall₂_map_left_iff]
    exact List.forall₂_same.mpr fun _ _ => rfl

theorem makeDependencySet_ok {r : Resolver} {fuel : ℕ} {files : List FileMeta}
    {index : ModulesIndex} : makeDependencySet r fuel (files.map .ok) index =
      resolveImports r fuel (externalImports files) (index, []) := by
  simp [makeDependencySet, mapM_id_eq_ok.mpr rfl]

variable {chainMeta : ModuleId → Except String (Text × FileMeta)} {index : ModulesIndex}

/-- Where everything that is reached is indexed, it is looked up in the index. -/
theorem pathOf_indexed {m : ModuleId} {p : Text}
    (h : ∀ k, Reaches chainMeta index m k → (index.getModule k).isSome) :
    PathOf chainMeta index m p ↔ ∃ k module, Reaches chainMeta index m k ∧
      index.getModule k = some module ∧ module.path = p := by
  have hlook : ∀ k, Reaches chainMeta index m k → look chainMeta index k = index.getModule k := by
    intro k hk
    obtain ⟨module, hmod⟩ := Option.isSome_iff_exists.mp (h k hk)
    rw [look, hmod, Option.some_or]
  constructor
  · rintro ⟨k, module, hk, hmod, hp⟩
    exact ⟨k, module, hk, hlook k hk ▸ hmod, hp⟩
  · rintro ⟨k, module, hk, hmod, hp⟩
    exact ⟨k, module, hk, (hlook k hk).trans hmod, hp⟩

theorem closes_of_terminates (hone : OneModule chainMeta)
    {sources : List (Except String FileMeta)} (h : Terminates chainMeta index sources) :
    Closes chainMeta index sources := by
  intro order horder
  cases hsources : sources.mapM id with
  | error message =>
    refine ⟨0, .error (.error message), by simp [makeDependencySet, hsources], by simp, ?_⟩
    intro files hfiles
    cases hsources.symm.trans (mapM_id_eq_ok.mpr hfiles)
  | ok files =>
    obtain rfl := mapM_id_eq_ok.mp hsources
    obtain ⟨fuel, hfuel⟩ := resolveImports_ends (r := ⟨order, chainMeta⟩) horder hone
      (h files rfl)
    have hout := hfuel (index, []) fun _ => rfl
    refine ⟨fuel, _, makeDependencySet_ok, ?_, fun files' hfiles' => ?_⟩
    · by_cases hres : ∀ m ∈ externalImports files, Resolvable chainMeta index m
      · obtain ⟨s, hs, _⟩ := hout.resolved hres
        simp [hs]
      · obtain ⟨e, he⟩ := hout.unresolved hres
        simp [he]
    · obtain rfl : files = files' := List.map_injective_iff.mpr (fun _ _ => Except.ok.inj) hfiles'
      constructor
      · intro hindexed
        have hres : ∀ m ∈ externalImports files, Resolvable chainMeta index m := by
          intro m hm k hk
          rw [look, Option.isSome_or, hindexed m hm k hk, Bool.true_or]
        obtain ⟨s, hs, _, hp⟩ := hout.resolved hres
        refine ⟨s, hs, fun p => ?_⟩
        rw [hp, List.mem_nil_iff, false_or]
        exact exists_congr fun m => and_congr_right fun hm => pathOf_indexed (hindexed m hm)
      · rintro ⟨m, hm, hres⟩
        exact hout.unresolved fun hall => hres (hall m hm)

theorem terminates_of_closes (hone : OneModule chainMeta)
    {sources : List (Except String FileMeta)} (h : Closes chainMeta index sources) :
    Terminates chainMeta index sources := by
  rintro files rfl m hm
  by_contra hfin
  have horder : IsOrder (endlessFirst chainMeta index) := endlessFirst_isOrder
  obtain ⟨fuel, r, hr, hne, _⟩ := h _ horder
  rw [makeDependencySet_ok, resolveImports_endless hone fuel ⟨m, hm, hfin⟩ _ fun _ => rfl] at hr
  exact hne hr.symm

/-- The dependency set is the closure of the project's imports if and only if following these
imports comes to an end. -/
theorem makeDependencySet_closes_iff (chainMeta : ModuleId → Except String (Text × FileMeta))
    (hone : OneModule chainMeta) (index : ModulesIndex)
    (sources : List (Except String FileMeta)) :
    Closes chainMeta index sources ↔ Terminates chainMeta index sources :=
  ⟨terminates_of_closes hone, closes_of_terminates hone⟩

def moduleA : ModuleId := ⟨[1], "A"⟩

def moduleB : ModuleId := ⟨[1], "B"⟩

/-- Two modules of a git dependency that import each other. -/
def cyclicIndex : ModulesIndex :=
  [⟨moduleA, "git_1".toList, "A.move".toList, .Git, [moduleB]⟩,
    ⟨moduleB, "git_1".toList, "B.move".toList, .Git, [moduleA]⟩]

def usesA : List FileMeta := [⟨"main.move".toList, [⟨⟨[2], "scripts_main_0"⟩, [moduleA]⟩]⟩]

def noChain (_ : ModuleId) : Except String (Text × FileMeta) :=
  .error "Failed to resolve module"

theorem cyclicIndex_endless : ¬Closes noChain cyclicIndex (usesA.map .ok) := by
  intro h
  obtain ⟨fuel, r, hr, hne, _⟩ := h id fun _ => .refl _
  have hA : ModulesIndex.getModule cyclicIndex moduleA =
      some ⟨moduleA, "git_1".toList, "A.move".toList, .Git, [moduleB]⟩ := by decide
  have hB : ModulesIndex.getModule cyclicIndex moduleB =
      some ⟨moduleB, "git_1".toList, "B.move".toList, .Git, [moduleA]⟩ := by decide
  have hcycle : ∀ fuel paths,
      resolveImports ⟨id, noChain⟩ fuel [moduleA] (cyclicIndex, paths) = .error .outOfFuel ∧
        resolveImports ⟨id, noChain⟩ fuel [moduleB] (cyclicIndex, paths) =
          .error .outOfFuel := by
    intro fuel
    induction fuel with
    | zero => exact fun _ => ⟨rfl, rfl⟩
    | succ fuel ih =>
      intro paths
      simp [resolveImports, resolveImport, resolve, hA, hB, (ih _).1, (ih _).2, bind, Except.bind,
        Except.map]
  have himports : externalImports usesA = [moduleA] := by decide
  have hrun : makeDependencySet ⟨id, noChain⟩ fuel (usesA.map .ok) cyclicIndex =
      .error .outOfFuel := by
    rw [← (hcycle fuel []).1, ← himports]
    exact makeDependencySet_ok
  exact hne (hr.symm.trans hrun)

/-- The same without the import of `A` by `B`. -/
def chainIndex : ModulesIndex :=
  [⟨moduleA, "git_1".toList, "A.move".toList, .Git, [moduleB]⟩,
    ⟨moduleB, "git_1".toList, "B.move".toList, .Git, []⟩]

theorem makeDependencySet_closes_iff_chain : Closes noChain chainIndex (usesA.map .ok) := by
  have hone : OneModule noChain := fun m name file h => by simp [noChain] at h
  apply (makeDependencySet_closes_iff noChain hone chainIndex _).mpr
  have hB : Finite noChain chainIndex moduleB := by
    refine ⟨moduleB, fun k ⟨module, hlook, hk⟩ => ?_⟩
    have : look noChain chainIndex moduleB =
        some ⟨moduleB, "git_1".toList, "B.move".toList, .Git, []⟩ := by decide
    cases this.symm.trans hlook
    simp at hk
  have hA : Finite noChain chainIndex moduleA := by
    refine ⟨moduleA, fun k ⟨module, hlook, hk⟩ => ?_⟩
    have : look noChain chainIndex moduleA =
        some ⟨moduleA, "git_1".toList, "A.move".toList, .Git, [moduleB]⟩ := by decide
    cases this.symm.trans hlook
    rw [List.mem_singleton.mp hk]
    exact hB
  intro files hfiles m hm
  obtain rfl : usesA = files := List.map_injective_iff.mpr (fun _ _ => Except.ok.inj) hfiles
  have himports : externalImports usesA = [moduleA] := by decide
  rw [himports, List.mem_singleton] at hm
  exact hm ▸ hA

end MoveTools.Index.Resolve
