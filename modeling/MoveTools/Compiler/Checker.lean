import MoveTools.Compiler.Builder

namespace MoveTools.Compiler
open Compiler.Parser

variable {lang : MoveLang}

def moveChecker : CompileFlow lang (Except Errors Unit) Unit where
  afterParsing s artifact :=
    match artifact.result with
    | .error errors => (artifact.parsingMeta.offsetsMap.transform errors).map fun errors =>
      (.stop (.error errors), s)
    | .ok _ => some (.next artifact, s)
  afterCheck s pmeta
    | .ok _ => some (.stop (.ok ()), s)
    | .error errors => (pmeta.offsetsMap.transform errors).map fun errors =>
      (.stop (.error errors), s)
  afterTranslate _ _ _ := some (.ok ())

variable (lang) in
def MoveChecker.check (fuel : ℕ) (dialect : Dialect) (sender : Option ProvidedAccountAddress)
    (targets deps : List MoveFile) : Option (Except Errors Unit) :=
  compile (moveChecker : CompileFlow lang _ _) () fuel dialect targets deps sender

/-- The errors that the parser stops with, or else the checker. Their spans are of the rewritten
texts. -/
def rawErrors (artifact : ParserArtifact lang) (sender : Option ProvidedAccountAddress) : Errors :=
  match artifact.result, asAddress lang sender with
  | .error errors, _ => errors
  | .ok _, none => []
  | .ok _, some address =>
    match lang.checkProgram artifact.result address with
    | .error errors => errors
    | .ok _ => []

variable {fuel : ℕ} {dialect : Dialect} {sender : Option ProvidedAccountAddress}
  {targets deps : List MoveFile}

/-- All errors that are reported have been led back through the layers of their files. -/
theorem MoveChecker.check_error {errors : Errors}
    (h : MoveChecker.check lang fuel dialect sender targets deps = some (.error errors)) :
    ∃ artifact, parseProgram lang fuel dialect sender targets deps = some artifact ∧
      artifact.parsingMeta.offsetsMap.transform (rawErrors artifact sender) = some errors := by
  obtain ⟨artifact, hparse, h⟩ := Option.bind_eq_some_iff.mp h
  refine ⟨artifact, hparse, ?_⟩
  obtain ⟨step, hstep, h⟩ := Option.bind_eq_some_iff.mp h
  simp only [moveChecker] at hstep
  cases hresult : artifact.result with
  | error raw =>
    simp only [hresult] at hstep
    obtain ⟨errors', htransform, rfl⟩ := Option.map_eq_some_iff.mp hstep
    cases h
    rw [rawErrors, hresult]
    exact htransform
  | ok prog =>
    simp only [hresult] at hstep
    cases hstep
    obtain ⟨address, haddress, h⟩ := Option.bind_eq_some_iff.mp h
    obtain ⟨step, hstep, h⟩ := Option.bind_eq_some_iff.mp h
    simp only [moveChecker] at hstep
    cases hcheck : lang.checkProgram artifact.result address with
    | ok checked =>
      simp only [hcheck] at hstep
      cases hstep
      cases h
    | error raw =>
      simp only [hcheck] at hstep
      obtain ⟨errors', htransform, rfl⟩ := Option.map_eq_some_iff.mp hstep
      cases h
      rw [hresult] at hcheck
      simp only [rawErrors, hresult, haddress, hcheck]
      exact htransform

theorem foldl_update_of_ne {α β : Type} {key : α → Text} {value : α → β} {name : Text}
    {xs : List α} (h : ∀ x ∈ xs, key x ≠ name) (m : Text → β) :
    xs.foldl (fun m x => Function.update m (key x) (value x)) m name = m name := by
  induction xs generalizing m with
  | nil => rfl
  | cons x xs ih =>
    rw [List.foldl_cons, ih fun y hy => h y (List.mem_cons_of_mem x hy),
      Function.update_of_ne (h x List.mem_cons_self).symm]

theorem exists_of_offsetsMap {artifact : ParserArtifact lang}
    (h : parseProgram lang fuel dialect sender targets deps = some artifact) {name : Text}
    {layers : FileOffsetMap} (hname : artifact.parsingMeta.offsetsMap name = some layers) :
    ∃ file ∈ targets ++ deps, file.name = name := by
  rw [(parseProgram_holds h name).2] at hname
  by_contra hno
  push Not at hno
  rw [normalizedFiles, foldl_update_of_ne hno] at hname
  cases hname

end MoveTools.Compiler
