import MoveTools.Compiler.Builder
import MoveTools.Dove.CallPrinting
import MoveTools.Dove.EncodedArguments
import MoveTools.Dove.ScriptLookup
import MoveTools.Index.Resolve
import MoveTools.Index.Sources

namespace MoveTools.Dove
open Syntax Attempt Compiler
open Executor (TypeTag)
open Index (FileMeta)
open Index.Store (ModulesIndex)
open Index.Resolve (Resolver makeDependencySet)

/-! ### What a script is built from -/

/-- What `build_script` finds in the project: the index, the chain and the order in which a set of
imports is visited, the metadata of the modules and of the script, the order of the set of paths,
the modules, the account of the manifest; and what it calls of compiled units. `fuel` bounds how
deep imports are followed and how many placeholders are replaced. -/
structure Workspace (lang : MoveLang) where
  projectName : Text
  fuel : ℕ
  buildIndex : Except String ModulesIndex
  resolver : Resolver
  moduleSources : List (Except String FileMeta)
  sourceMeta : Text → Except String FileMeta
  order : List Text → List Text
  moduleFiles : Except String (List MoveFile)
  accountAddress : Except String ProvidedAccountAddress
  dialect : Dialect
  verifyUnits : List lang.CompiledUnit → List lang.CompiledUnit × Errors
  isModule : lang.CompiledUnit → Bool
  name : lang.CompiledUnit → Text
  serialize : lang.CompiledUnit → List UInt8

section
variable {lang : MoveLang} (w : Workspace lang) (dir : ScriptDir)

def Workspace.dependencySet (script : MoveFile) : Attempt String (List Text) := do
  let index ← result w.buildIndex
  match makeDependencySet w.resolver w.fuel (w.moduleSources ++ [w.sourceMeta script.name]) index with
  | .ok (_, deps) => pure deps
  | .error (.error message) => throw message
  | .error .outOfFuel => stuck

def loadDependencies (pathSet : List Text) : Except String (List MoveFile) := pathSet.mapM dir.load

def buildScript (script : MoveFile) : Attempt String (List lang.CompiledUnit) := do
  let depSet ← w.dependencySet script
  let depList ← result (loadDependencies dir (w.order depSet))
  let modules ← result w.moduleFiles
  let sender ← result w.accountAddress
  match MoveBuilder.build lang w.fuel w.dialect (some sender) [script] (depList ++ modules) with
  | none => stuck
  | some artifacts =>
    match artifacts.prog with
    | .error _ => throw ("could not compile:" ++ String.ofList w.projectName)
    | .ok compiledUnits =>
      let (compiledUnits, iceErrors) := w.verifyUnits compiledUnits
      if iceErrors.isEmpty then pure compiledUnits
      else throw ("could not verify:" ++ String.ofList w.projectName)

/-! ### Transactions -/

structure CreateTransactionCmd where
  call : Option Text
  scriptName : Option Text
  fileName : Option Text
  typeParameters : Option (List Text)
  args : Option (List Text)

structure TransactionBuilder where
  scriptFileName : Option Text
  scriptName : Option Text
  typeParameters : List TypeTag
  args : List Text
  deriving DecidableEq

structure Transaction (A : Type) where
  signersCount : UInt8
  code : List UInt8
  args : List (ScriptArg A)
  typeArgs : List TypeTag
  deriving DecidableEq

variable (ids : Index.Identifiers) (cr : ArgumentCrates) (lexerNew : Text → Lexer)

/-- `replace_ss58_addresses`, without the offsets. -/
def withoutSs58 (text : Text) : Text := (Ss58.replaceSs58Addresses cr.ss58 text {}).1

/-- The types behind `--type`. `lexerNew` is `Lexer::new`, without the first `advance`. -/
def givenTypes (types : List Text) : Attempt String (List TypeTag) :=
  types.mapM fun tp => do
    let (t, _) ← parseTypeParams ids cr.parser (lexerNew (withoutSs58 cr tp))
    pure t

/-- What the call has, in `TransactionBuilder::new`. -/
def CreateTransactionCmd.called (cmd : CreateTransactionCmd) (fuel : ℕ) :
    Attempt String (Option Text × List TypeTag × List Text) :=
  match cmd.call with
  | some call => do
    let call ← parseCall ids cr.parser cr.ss58 fuel call
    pure (some call.scriptName, call.typeParameters, call.arguments)
  | none => pure (none, [], [])

def CreateTransactionCmd.types (cmd : CreateTransactionCmd) (called : List TypeTag) :
    Attempt String (List TypeTag) :=
  match cmd.typeParameters with
  | some types => givenTypes ids cr lexerNew types
  | none => pure called

def CreateTransactionCmd.builder (cmd : CreateTransactionCmd) (fuel : ℕ) :
    Attempt String TransactionBuilder := do
  let (scriptName, typeParameters, args) ← cmd.called ids cr fuel
  let typeParameters ← cmd.types ids cr lexerNew typeParameters
  pure {
    scriptFileName := cmd.fileName
    scriptName := match cmd.scriptName with
      | some name => some name
      | none => scriptName
    typeParameters := typeParameters
    args := match cmd.args with
      | some args => args.map (withoutSs58 cr)
      | none => args }

variable (b : TransactionBuilder)

/-- The last part of `lookup_script`. -/
def onlyScript (mf : MoveFile) : Attempt String (MoveFile × ScriptMeta) := do
  let scripts ← result (extract dir mf)
  if scripts.isEmpty then throw "Script not found."
  else if 1 < scripts.length then
    throw ("Failed to determine script. There are several scripts. Use '--name' to " ++
      "determine the script.")
  else do
    let script ← removeFirst scripts
    pure (mf, script)

def lookupScript : Attempt String (MoveFile × ScriptMeta) :=
  match b.scriptFileName, b.scriptName with
  | some fileName, _ => lookupScriptByFileName dir b.scriptName fileName
  | none, some name => lookupScriptByName dir name
  | none, none => do
    let files ← result dir.findMoveFiles
    match files with
    | [path] => do
      let mf ← result (dir.load path)
      onlyScript dir mf
    | _ => throw ("Failed to determine script. There are several scripts. Use '--name' or " ++
        "'--file' to determine the script.")

/-- The unit that the code is taken from. -/
def findUnit (name : Text) (units : List lang.CompiledUnit) : Option lang.CompiledUnit :=
  units.find? fun unit => !w.isModule unit && w.name unit == name

/-- The last part of `TransactionBuilder::build`. -/
def newTransaction (name : Text) (unit : lang.CompiledUnit) (prepared : Prepared cr) :
    Attempt String (Text × Transaction cr.account.Address) :=
  let (signers, argsCount, args) := prepared
  if b.args.length ≠ argsCount then
    throw ("Script '" ++ String.ofList name ++ "' takes " ++ toString argsCount ++
      " parameters, " ++ toString b.args.length ++ " passed")
  else
    -- `signers as u8`
    pure (name, ⟨UInt8.ofNat signers, w.serialize unit, args, b.typeParameters⟩)

/-- `TransactionBuilder::build`, once the script is compiled. -/
def makeTransaction (fuel : ℕ) (script : ScriptMeta) (units : List lang.CompiledUnit) :
    Attempt String (Text × Transaction cr.account.Address) :=
  match findUnit w script.name units with
  | none => throw ("Script '" ++ String.ofList script.name ++ "' not found")
  | some unit =>
    if script.typeParameters.length ≠ b.typeParameters.length then
      throw ("Script '" ++ String.ofList script.name ++ "' takes " ++
        toString script.typeParameters.length ++ " type parameters, " ++
        toString b.typeParameters.length ++ " passed")
    else do
      let prepared ← prepareArguments cr b.args fuel script.parameters
      newTransaction w cr b script.name unit prepared

def TransactionBuilder.build (fuel : ℕ) : Attempt String (Text × Transaction cr.account.Address) := do
  let (file, script) ← lookupScript dir b
  let units ← buildScript w dir file
  makeTransaction w cr b fuel script units

/-- What `dove ct` stores, and under which name. -/
def CreateTransactionCmd.transaction (cmd : CreateTransactionCmd) (fuel : ℕ) :
    Attempt String (Text × Transaction cr.account.Address) := do
  let b ← cmd.builder ids cr lexerNew fuel
  b.build w dir cr fuel

/-! ### The script that is meant -/

/-- The script that is asked for, with its file. -/
inductive Found : MoveFile × ScriptMeta → Prop
  | alone {fname : Text} {file : MoveFile} {script : ScriptMeta}
      (hfile : b.scriptFileName = some fname) (h : Holds dir fname file [script]) :
      Found (file, script)
  | chosen {fname name : Text} {file : MoveFile} {scripts : List ScriptMeta} {script : ScriptMeta}
      (hfile : b.scriptFileName = some fname) (h : Holds dir fname file scripts)
      (hmany : 1 < scripts.length) (hname : b.scriptName = some name)
      (hone : scripts.filter (isNamed name) = [script]) : Found (file, script)
  | named {name : Text} {file : MoveFile} {script : ScriptMeta} (hfile : b.scriptFileName = none)
      (hname : b.scriptName = some name) (h : candidates dir name = [(file, [script])]) :
      Found (file, script)
  | only {path : Text} {file : MoveFile} {script : ScriptMeta} (hfile : b.scriptFileName = none)
      (hname : b.scriptName = none) (hpaths : dir.findMoveFiles = .ok [path])
      (hload : dir.load path = .ok file) (h : extract dir file = .ok [script]) :
      Found (file, script)

/-- There are several scripts in the file that is asked for, and none with the name. -/
def Lost : Prop :=
  ∃ fname file scripts, b.scriptFileName = some fname ∧ Holds dir fname file scripts ∧
    1 < scripts.length ∧
    scripts.filter (fun sc => b.scriptName.any fun name => isNamed name sc) = []

end

section
variable {dir : ScriptDir} {b : TransactionBuilder} {fname : Text}

theorem found_file {y : MoveFile × ScriptMeta} (hfile : b.scriptFileName = some fname)
    {file : MoveFile} {scripts : List ScriptMeta} (h : Holds dir fname file scripts) :
    Found dir b y ↔ y.1 = file ∧ (scripts = [y.2] ∨ 1 < scripts.length ∧
      scripts.filter (fun sc => b.scriptName.any fun name => isNamed name sc) = [y.2]) := by
  have hsame : ∀ {fname' file' scripts'}, b.scriptFileName = some fname' →
      Holds dir fname' file' scripts' → file' = file ∧ scripts' = scripts := by
    intro fname' file' scripts' hfile' h'
    obtain rfl : fname = fname' := Option.some.inj (hfile.symm.trans hfile')
    obtain rfl : file = file' := Except.ok.inj (h.loaded.symm.trans h'.loaded)
    exact ⟨rfl, Except.ok.inj (h'.extracted.symm.trans h.extracted)⟩
  constructor
  · intro hfound
    cases hfound with
    | alone hfile' h' =>
      obtain ⟨rfl, rfl⟩ := hsame hfile' h'
      exact ⟨rfl, .inl rfl⟩
    | chosen hfile' h' hmany hname hone =>
      obtain ⟨rfl, rfl⟩ := hsame hfile' h'
      refine ⟨rfl, .inr ⟨hmany, ?_⟩⟩
      rw [hname]
      exact hone
    | named hfile' => cases hfile.symm.trans hfile'
    | only hfile' => cases hfile.symm.trans hfile'
  · obtain ⟨file', script⟩ := y
    rintro ⟨rfl, rfl | ⟨hmany, hone⟩⟩
    · exact .alone hfile h
    -- without a name none is chosen of several
    · cases hname : b.scriptName with
      | none =>
        rw [hname] at hone
        have hnone : scripts.filter (fun _ => false) = [script] := hone
        rw [List.filter_false] at hnone
        cases hnone
      | some name =>
        rw [hname] at hone
        exact .chosen hfile h hmany hname hone

theorem Found.holds {y : MoveFile × ScriptMeta} (hfile : b.scriptFileName = some fname)
    (h : Found dir b y) : ∃ scripts, Holds dir fname y.1 scripts ∧ scripts ≠ [] := by
  cases h with
  | alone hfile' h =>
    obtain rfl := Option.some.inj (hfile.symm.trans hfile')
    exact ⟨_, h, List.cons_ne_nil _ _⟩
  | chosen hfile' h hmany =>
    obtain rfl := Option.some.inj (hfile.symm.trans hfile')
    refine ⟨_, h, ?_⟩
    rintro rfl
    cases hmany
  | named hfile' => cases hfile.symm.trans hfile'
  | only hfile' => cases hfile.symm.trans hfile'

theorem found_name {name : Text} {y : MoveFile × ScriptMeta} (hfile : b.scriptFileName = none)
    (hname : b.scriptName = some name) :
    Found dir b y ↔ candidates dir name = [(y.1, [y.2])] := by
  constructor
  · intro h
    cases h with
    | alone hfile' => cases hfile.symm.trans hfile'
    | chosen hfile' => cases hfile.symm.trans hfile'
    | named _ hname' h =>
      obtain rfl := Option.some.inj (hname.symm.trans hname')
      exact h
    | only _ hname' => cases hname.symm.trans hname'
  · exact .named hfile hname

theorem found_only {y : MoveFile × ScriptMeta} (hfile : b.scriptFileName = none)
    (hname : b.scriptName = none) : Found dir b y ↔
      ∃ path, dir.findMoveFiles = .ok [path] ∧ dir.load path = .ok y.1 ∧
        extract dir y.1 = .ok [y.2] := by
  constructor
  · intro h
    cases h with
    | alone hfile' => cases hfile.symm.trans hfile'
    | chosen hfile' => cases hfile.symm.trans hfile'
    | named _ hname' => cases hname.symm.trans hname'
    | only _ _ hpaths hload h => exact ⟨_, hpaths, hload, h⟩
  · rintro ⟨path, hpaths, hload, h⟩
    exact .only hfile hname hpaths hload h

/-! ### Looking it up -/

theorem chooseScript_eq {scripts : List ScriptMeta} (hmany : 1 < scripts.length) :
    chooseScript dir b.scriptName fname scripts =
      match scripts.filter fun sc => b.scriptName.any fun name => isNamed name sc with
      | [] => stuck
      | [script] => result (.ok script)
      | _ => result (.error ("There are several scripts with the name '" ++
          debugOption dir b.scriptName ++ "' in file '" ++ String.ofList fname ++ "'")) := by
  unfold chooseScript
  rw [if_pos hmany]
  rcases scripts.filter fun sc => b.scriptName.any fun name => isNamed name sc with
    _ | ⟨script, _ | ⟨script', more⟩⟩ <;> rfl

theorem chooseScript_gives {scripts : List ScriptMeta} (file : MoveFile)
    (hmany : 1 < scripts.length)
    (hsome : scripts.filter (fun sc => b.scriptName.any fun name => isNamed name sc) ≠ []) :
    Gives (chooseScript dir b.scriptName fname scripts >>= fun script => pure (file, script))
      fun y => y.1 = file ∧
        scripts.filter (fun sc => b.scriptName.any fun name => isNamed name sc) = [y.2] := by
  -- the match is on the scripts that have the name
  rw [chooseScript_eq hmany]
  revert hsome
  generalize scripts.filter (fun sc => b.scriptName.any fun name => isNamed name sc) = chosen
  intro hsome
  rcases chosen with _ | ⟨script, _ | ⟨script', more⟩⟩
  · exact absurd rfl hsome
  · refine (gives_ok (file, script)).congr fun y => ?_
    constructor
    · rintro rfl
      exact ⟨rfl, rfl⟩
    · rintro ⟨hfile, hone⟩
      exact Prod.ext hfile (List.cons.inj hone).1.symm
  · refine (gives_error _).congr fun y => iff_of_false id ?_
    rintro ⟨-, hone⟩
    cases hone

theorem lookupScript_file (hfile : b.scriptFileName = some fname) :
    lookupScript dir b = lookupScriptByFileName dir b.scriptName fname := by
  rw [lookupScript, hfile]

theorem lookupScript_lost (h : Lost dir b) : lookupScript dir b = stuck := by
  obtain ⟨fname, file, scripts, hfile, hholds, hmany, hnone⟩ := h
  rw [lookupScript_file hfile, lookupScriptByFileName_run hholds hmany, chooseScript_eq hmany, hnone,
    stuck_bind]

theorem lookupScript_file_gives (hfile : b.scriptFileName = some fname) (h : ¬Lost dir b) :
    Gives (lookupScript dir b) (Found dir b) := by
  -- a file that cannot be read, or has no scripts, has none that is meant
  have hno : (∀ file scripts, Holds dir fname file scripts → scripts = []) →
      ∀ y, False ↔ Found dir b y := by
    refine fun hempty y => iff_of_false id fun hy => ?_
    obtain ⟨scripts, hholds, hne⟩ := hy.holds hfile
    exact hne (hempty _ _ hholds)
  rw [lookupScript_file hfile, lookupScriptByFileName]
  by_cases hfound : dir.pathExists (scriptPath dir fname)
  swap
  · rw [if_pos (by simp [hfound])]
    exact (gives_error _).congr (hno fun file scripts hholds => absurd hholds.found hfound)
  rw [if_neg (by simp [hfound])]
  cases hload : dir.load (scriptPath dir fname) with
  | error e =>
    rw [error_bind]
    refine (gives_error _).congr (hno fun file scripts hholds => ?_)
    cases hload.symm.trans hholds.loaded
  | ok file =>
    rw [ok_bind]
    cases hextract : extract dir file with
    | error e =>
      rw [error_bind]
      refine (gives_error _).congr (hno fun file' scripts hholds => ?_)
      obtain rfl : file = file' := Except.ok.inj (hload.symm.trans hholds.loaded)
      cases hextract.symm.trans hholds.extracted
    | ok scripts =>
      have hholds : Holds dir fname file scripts := ⟨hfound, hload, hextract⟩
      rw [ok_bind]
      rcases scripts with _ | ⟨script, _ | ⟨script', more⟩⟩
      · refine (gives_error _).congr (hno fun file' scripts hholds' => ?_)
        obtain rfl : file = file' := Except.ok.inj (hload.symm.trans hholds'.loaded)
        exact Except.ok.inj (hholds'.extracted.symm.trans hextract)
      · refine (gives_ok (file, script)).congr fun y => ?_
        rw [found_file hfile hholds]
        constructor
        · rintro rfl
          exact ⟨rfl, .inl rfl⟩
        · rintro ⟨hfile', hone | ⟨hmany, -⟩⟩
          · exact Prod.ext hfile' (List.cons.inj hone).1.symm
          · exact absurd hmany (Nat.lt_irrefl 1)
      -- of several scripts the one with the name is taken
      · have hmany : 1 < (script :: script' :: more).length := Nat.succ_lt_succ (Nat.succ_pos _)
        have hsome : (script :: script' :: more).filter
            (fun sc => b.scriptName.any fun name => isNamed name sc) ≠ [] :=
          fun hnone => h ⟨fname, file, _, hfile, hholds, hmany, hnone⟩
        rw [if_neg (by simp)]
        refine (chooseScript_gives file hmany hsome).congr fun y => ?_
        rw [found_file hfile hholds]
        constructor
        · rintro ⟨hfile', hone⟩
          exact ⟨hfile', .inr ⟨hmany, hone⟩⟩
        · rintro ⟨hfile', hone | ⟨-, hone⟩⟩
          · cases hone
          · exact ⟨hfile', hone⟩

theorem onlyScript_gives (file : MoveFile) :
    Gives (onlyScript dir file) fun y => y.1 = file ∧ extract dir file = .ok [y.2] := by
  unfold onlyScript
  cases extract dir file with
  | error e =>
    refine (gives_error _).congr fun y => iff_of_false id ?_
    rintro ⟨-, h⟩
    cases h
  | ok scripts =>
    rcases scripts with _ | ⟨script, _ | ⟨script', more⟩⟩
    · refine (gives_error _).congr fun y => iff_of_false id ?_
      rintro ⟨-, h⟩
      cases h
    · refine (gives_ok (file, script)).congr fun y => ?_
      constructor
      · rintro rfl
        exact ⟨rfl, rfl⟩
      · rintro ⟨hfile, h⟩
        exact Prod.ext hfile (List.cons.inj (Except.ok.inj h)).1.symm
    · refine (gives_error _).congr fun y => iff_of_false id ?_
      rintro ⟨-, h⟩
      cases h

theorem lookupScript_only_gives (hfile : b.scriptFileName = none) (hname : b.scriptName = none) :
    Gives (lookupScript dir b) (Found dir b) := by
  have hno : (∀ path file, dir.findMoveFiles = .ok [path] → dir.load path = .ok file →
      ∀ script, extract dir file ≠ .ok [script]) → ∀ y, False ↔ Found dir b y := by
    refine fun hnone y => iff_of_false id fun hy => ?_
    obtain ⟨path, hpaths, hload, hextract⟩ := (found_only hfile hname).mp hy
    exact hnone path _ hpaths hload _ hextract
  rw [lookupScript, hfile, hname]
  cases hpaths : dir.findMoveFiles with
  | error e =>
    refine (gives_error _).congr (hno fun path file h => ?_)
    cases hpaths.symm.trans h
  | ok paths =>
    rw [ok_bind]
    rcases paths with _ | ⟨path, _ | ⟨path', more⟩⟩
    · refine (gives_error _).congr (hno fun path file h => ?_)
      cases hpaths.symm.trans h
    · show Gives (result (dir.load path) >>= _) _
      cases hload : dir.load path with
      | error e =>
        refine (gives_error _).congr (hno fun path' file h hload' => ?_)
        cases hpaths.symm.trans h
        cases hload.symm.trans hload'
      | ok file =>
        refine (onlyScript_gives file).congr fun y => ?_
        rw [found_only hfile hname]
        constructor
        · rintro ⟨rfl, hextract⟩
          exact ⟨path, hpaths, hload, hextract⟩
        · rintro ⟨path', h, hload', hextract⟩
          cases hpaths.symm.trans h
          cases hload.symm.trans hload'
          exact ⟨rfl, hextract⟩
    · refine (gives_error _).congr (hno fun path file h => ?_)
      cases hpaths.symm.trans h

theorem lookupScript_gives (h : ¬Lost dir b) : Gives (lookupScript dir b) (Found dir b) := by
  cases hfile : b.scriptFileName with
  | some fname => exact lookupScript_file_gives hfile h
  | none =>
    cases hname : b.scriptName with
    | some name =>
      have hrun : lookupScript dir b = lookupScriptByName dir name := by
        rw [lookupScript, hfile, hname]
      rw [hrun]
      exact (lookupScriptByName_gives dir name).congr fun y => (found_name hfile hname).symm
    | none => exact lookupScript_only_gives hfile hname

theorem Lost.not_found (h : Lost dir b) (y : MoveFile × ScriptMeta) : ¬Found dir b y := by
  obtain ⟨fname, file, scripts, hfile, hholds, hmany, hnone⟩ := h
  rw [found_file hfile hholds, hnone]
  rintro ⟨-, rfl | ⟨-, hone⟩⟩
  · exact Nat.lt_irrefl 1 hmany
  · cases hone

theorem lookupScript_ok_iff (y : MoveFile × ScriptMeta) :
    lookupScript dir b = result (.ok y) ↔ Found dir b y := by
  by_cases hlost : Lost dir b
  · rw [lookupScript_lost hlost]
    exact iff_of_false (fun h => result_ne_stuck _ h.symm) (hlost.not_found y)
  · obtain ⟨r, hr, hvalue⟩ := lookupScript_gives hlost
    rw [hr, ← hvalue y]
    exact ⟨fun h => Option.some.inj h, fun h => congrArg result h⟩

theorem lookupScript_stuck_iff : lookupScript dir b ≠ stuck ↔ ¬Lost dir b := by
  by_cases hlost : Lost dir b
  · exact iff_of_false (fun h => h (lookupScript_lost hlost)) fun h => h hlost
  · obtain ⟨r, hr, -⟩ := lookupScript_gives hlost
    exact iff_of_true (hr ▸ result_ne_stuck r) hlost

end

/-! ### The arguments of any script -/

section
variable {cr : ArgumentCrates} {displayAddress : Address → Text} {args : List Text}
variable {total : ℕ} {x : Prepared cr} {parameters : List (Text × Text)}

/-- No argument is of the type. -/
def Untyped (displayAddress : Address → Text) (tp : Text) : Prop :=
  ∀ t : ParamType, tp ≠ extractTypeName displayAddress t.typ

theorem prepareArgument_untyped {name tp : Text} (h : Untyped displayAddress tp) (fuel : ℕ) :
    prepareArgument args total fuel x (name, tp) =
      result (.error ("Unexpected script parameter: " ++ String.ofList tp)) := by
  have hsigner : tp ≠ "&signer".toList := h .Signer
  have hbool : tp ≠ "bool".toList := h (.Value .Bool)
  have hu8 : tp ≠ "u8".toList := h (.Value .U8)
  have hu64 : tp ≠ "u64".toList := h (.Value .U64)
  have hu128 : tp ≠ "u128".toList := h (.Value .U128)
  have haddress : tp ≠ "address".toList := h (.Value .Address)
  have hbytes : tp ≠ "vector<u8>".toList := h (.Value .VectorU8)
  have hvectorU64 : tp ≠ "vector<u64>".toList := h (.Value .VectorU64)
  have hvectorU128 : tp ≠ "vector<u128>".toList := h (.Value .VectorU128)
  have haddresses : tp ≠ "vector<address>".toList := h (.Value .VectorAddress)
  rw [prepareArgument, if_neg hsigner, if_neg hbool, if_neg hu8, if_neg hu64, if_neg hu128,
    if_neg haddress, if_neg hbytes, if_neg hvectorU64, if_neg hvectorU128, if_neg haddresses]
  rfl

theorem prepareArguments_untyped (h : ∃ p ∈ parameters, Untyped displayAddress p.2) :
    Yields (fun fuel => parameters.foldlM (prepareArgument args total fuel) x) fun _ => False := by
  -- no argument may be left for what stands in front of the parameter that fails
  induction parameters generalizing x with
  | nil =>
    obtain ⟨p, hp, -⟩ := h
    cases hp
  | cons p parameters ih =>
    obtain ⟨name, tp⟩ := p
    by_cases htp : Untyped displayAddress tp
    · have hrun : (fun fuel => ((name, tp) :: parameters).foldlM (prepareArgument args total fuel) x) =
          fun _ => result (.error ("Unexpected script parameter: " ++ String.ofList tp)) := by
        funext fuel
        rw [List.foldlM_cons, prepareArgument_untyped htp, error_bind]
      rw [hrun]
      exact .error _
    · have hrest : ∃ p ∈ parameters, Untyped displayAddress p.2 := by
        obtain ⟨p, hp, hbad⟩ := h
        rcases List.mem_cons.mp hp with rfl | hp
        · exact absurd hbad htp
        · exact ⟨p, hp, hbad⟩
      obtain ⟨t, rfl⟩ := not_forall_not.mp htp
      simp only [List.foldlM_cons]
      cases t with
      | Signer => exact ih hrest
      | Value t =>
        have hstep := (prepareArgument_yields displayAddress args total x name t).bind
          (g := fun fuel y => parameters.foldlM (prepareArgument args total fuel) y)
          fun y _ => ih hrest
        refine hstep.congr fun y => iff_of_false ?_ id
        rintro ⟨_, _, h⟩
        exact h

/-- The parameters are all of types that arguments have, and these stand for the values. -/
def Prepares (cr : ArgumentCrates) (displayAddress : Address → Text)
    (parameters : List (Text × Text)) (args : List Text) (y : Prepared cr) : Prop :=
  ∃ params, parameters = spelled displayAddress params ∧
    ∃ values, Fills cr (Reads cr) (valueTypes params) args values ∧
      y = (signers params, (valueTypes params).length, values)

theorem spelled_or_untyped (displayAddress : Address → Text) (parameters : List (Text × Text)) :
    (∃ params, parameters = spelled displayAddress params) ∨
      ∃ p ∈ parameters, Untyped displayAddress p.2 := by
  induction parameters with
  | nil => exact .inl ⟨[], rfl⟩
  | cons p parameters ih =>
    obtain ⟨name, tp⟩ := p
    by_cases htp : Untyped displayAddress tp
    · exact .inr ⟨_, List.mem_cons_self .., htp⟩
    obtain ⟨t, rfl⟩ := not_forall_not.mp htp
    rcases ih with ⟨params, rfl⟩ | ⟨p, hp, hbad⟩
    · refine .inl ⟨(String.ofList name, t) :: params, ?_⟩
      show _ = ((String.ofList name).toList, _) :: spelled displayAddress params
      rw [String.toList_ofList]
    · exact .inr ⟨p, List.mem_cons_of_mem _ hp, hbad⟩

theorem arguments_prepared (displayAddress : Address → Text) (parameters : List (Text × Text))
    (args : List Text) : Yields (fun fuel => prepareArguments cr args fuel parameters)
      (Prepares cr displayAddress parameters args) := by
  rcases spelled_or_untyped displayAddress parameters with ⟨params, rfl⟩ | hbad
  · have hyields := prepareArguments_yields cr displayAddress args params
    refine hyields.congr fun y => ⟨fun hy => ⟨params, rfl, hy⟩, ?_⟩
    -- other parameters that are spelled alike give the same run
    rintro ⟨params', hsame, hy⟩
    have hyields' := prepareArguments_yields cr displayAddress args params'
    rw [← hsame] at hyields'
    exact hyields.settles_iff.mp (hyields'.settles_iff.mpr hy)
  · refine (prepareArguments_untyped hbad).congr fun y => iff_of_false id ?_
    rintro ⟨params, rfl, -⟩
    obtain ⟨p, hp, hbad⟩ := hbad
    obtain ⟨q, -, rfl⟩ := List.mem_map.mp hp
    exact hbad q.2 rfl

end

/-! ### The transaction of a script -/

section
variable {lang : MoveLang} (w : Workspace lang) (dir : ScriptDir) (cr : ArgumentCrates)
variable (b : TransactionBuilder)

/-- The script takes as many types and arguments as are given, and the arguments are all of its
types. The transaction has the code of the script, the values and the types. -/
def Transacts (script : ScriptMeta) (units : List lang.CompiledUnit)
    (y : Text × Transaction cr.account.Address) : Prop :=
  ∃ unit, findUnit w script.name units = some unit ∧
    script.typeParameters.length = b.typeParameters.length ∧
    ∃ x, Prepares cr dir.displayAddress script.parameters b.args x ∧ b.args.length = x.2.1 ∧
      y = (script.name, ⟨UInt8.ofNat x.1, w.serialize unit, x.2.2, b.typeParameters⟩)

/-- Of the only script that is meant, once it is compiled. -/
def Makes (y : Text × Transaction cr.account.Address) : Prop :=
  ∃ found, Found dir b found ∧ ∃ units, buildScript w dir found.1 = result (.ok units) ∧
    Transacts w dir cr b found.2 units y

end

section
variable {lang : MoveLang} {w : Workspace lang} {dir : ScriptDir} {cr : ArgumentCrates}
variable {b : TransactionBuilder}

theorem newTransaction_yields (name : Text) (unit : lang.CompiledUnit) (x : Prepared cr) :
    Yields (fun _ => newTransaction w cr b name unit x) fun y => b.args.length = x.2.1 ∧
      y = (name, ⟨UInt8.ofNat x.1, w.serialize unit, x.2.2, b.typeParameters⟩) := by
  obtain ⟨signers, argsCount, values⟩ := x
  simp only [newTransaction]
  by_cases hargs : b.args.length = argsCount
  · rw [if_neg (not_not.mpr hargs)]
    refine (Yields.value _).congr fun y => ?_
    exact (and_iff_right hargs).symm
  · rw [if_pos hargs]
    exact (Yields.error _).congr fun y => iff_of_false id fun h => hargs h.1

variable (dir) in
theorem makeTransaction_yields (script : ScriptMeta) (units : List lang.CompiledUnit) :
    Yields (fun fuel => makeTransaction w cr b fuel script units)
      (Transacts w dir cr b script units) := by
  unfold makeTransaction Transacts
  cases findUnit w script.name units with
  | none =>
    refine (Yields.error _).congr fun y => iff_of_false id ?_
    rintro ⟨unit, h, -⟩
    cases h
  | some unit =>
    by_cases htypes : script.typeParameters.length = b.typeParameters.length
    · simp only [ne_eq, htypes, not_true_eq_false, if_false]
      have hrun := (arguments_prepared dir.displayAddress script.parameters b.args).bind
        (g := fun _ x => newTransaction w cr b script.name unit x)
        fun x _ => newTransaction_yields script.name unit x
      refine hrun.congr fun y => ?_
      constructor
      · exact fun h => ⟨unit, rfl, trivial, h⟩
      · rintro ⟨_, h, -, hy⟩
        cases h
        exact hy
    · simp only [ne_eq, htypes, not_false_eq_true, if_true]
      refine (Yields.error _).congr fun y => iff_of_false id ?_
      rintro ⟨_, -, h, -⟩
      exact h

theorem build_decides (b : TransactionBuilder) :
    Decides (fun fuel => b.build w dir cr fuel) (Makes w dir cr b)
      (¬Lost dir b ∧ ∀ found, Found dir b found → buildScript w dir found.1 ≠ stuck) := by
  have hcompiled : ∀ found : MoveFile × ScriptMeta,
      Decides (fun fuel => buildScript w dir found.1 >>= makeTransaction w cr b fuel found.2)
        (fun y => ∃ units, buildScript w dir found.1 = result (.ok units) ∧
          Transacts w dir cr b found.2 units y) (buildScript w dir found.1 ≠ stuck) := by
    intro found
    have hbind := Decides.bind (x := buildScript w dir found.1)
      (g := fun fuel units => makeTransaction w cr b fuel found.2 units)
      fun units _ => (makeTransaction_yields dir found.2 units).decides
    refine hbind.congr (fun y => Iff.rfl) ?_
    exact ⟨fun h => h.1, fun h => ⟨h, fun _ _ => trivial⟩⟩
  -- neither looking up nor compiling takes the fuel of the arguments
  have hrun : (fun fuel => b.build w dir cr fuel) = fun fuel => lookupScript dir b >>= fun found =>
      buildScript w dir found.1 >>= makeTransaction w cr b fuel found.2 := by
    funext fuel
    unfold TransactionBuilder.build
    refine bind_congr fun found => ?_
    cases found
    rfl
  rw [hrun]
  refine (Decides.bind fun found _ => hcompiled found).congr (fun y => ?_) ?_
  · exact exists_congr fun found => and_congr (lookupScript_ok_iff found) Iff.rfl
  · refine and_congr lookupScript_stuck_iff (forall_congr' fun found => ?_)
    exact imp_congr (lookupScript_ok_iff found) Iff.rfl

end

/-! ### From the command line -/

section
variable {ids : Index.Identifiers} {cr : ArgumentCrates} {lexerNew : Text → Lexer}
variable {lang : MoveLang} {w : Workspace lang} {dir : ScriptDir}

inductive Calls (ids : Index.Identifiers) (cr : ArgumentCrates) :
    Option Text → Option Text → List TypeTag → List Text → Prop
  | none : Calls ids cr none none [] []
  | some {text name : Text} {types : List TypeTag} {args : List Argument}
      (h : CallSpelled ids cr.parser name types args (withoutSs58 cr text)) :
      Calls ids cr (some text) (some name) types (args.map Argument.text)

/-- `--type` is given, and not an empty list. -/
def CreateTransactionCmd.GivesTypes (cmd : CreateTransactionCmd) : Prop :=
  ∃ type types, cmd.typeParameters = some (type :: types)

variable (cr) in
/-- What is given by an option goes before what the call has. -/
def CreateTransactionCmd.asked (cmd : CreateTransactionCmd) (name : Option Text)
    (called : List TypeTag) (args : List Text) : TransactionBuilder where
  scriptFileName := cmd.fileName
  scriptName := cmd.scriptName.or name
  -- the types of a list that is not empty are never read
  typeParameters := if cmd.typeParameters.isSome then [] else called
  args := (cmd.args.map (·.map (withoutSs58 cr))).getD args

theorem parseCall_spelled (hp : cr.parser.Correct) {text name : Text} {types : List TypeTag}
    {args : List Argument} (h : CallSpelled ids cr.parser name types args (withoutSs58 cr text)) :
    Settles (fun fuel => parseCall ids cr.parser cr.ss58 fuel text)
      (result (.ok ⟨name, types, args.map Argument.text⟩)) := by
  obtain ⟨text', text'', hname, htypes, hargs⟩ := h
  have hparen := peek_spelled hp hargs
  have hnext := peek_typeListSpelled hp htypes (by simp [hparen])
  have hrun : (fun fuel => parseCall ids cr.parser cr.ss58 fuel text) = fun fuel =>
      callTypes ids cr.parser fuel (cr.parser.lexer text') >>= fun x =>
        callArguments fuel x.1 >>= fun arguments => pure ⟨name, x.2, arguments⟩ := by
    funext fuel
    show (result (Lexer.start cr.parser (withoutSs58 cr text)) >>= _) = _
    rw [start_spelled hp hname, ok_bind, callName_read hp hname hnext, ok_bind]
  rw [hrun]
  apply (callTypes_read hp htypes hparen).bind
  apply (callArguments_read hp hargs).bind
  exact .const _

theorem called_settles (hp : cr.parser.Correct) {cmd : CreateTransactionCmd} {name : Option Text}
    {types : List TypeTag} {args : List Text} (h : Calls ids cr cmd.call name types args) :
    Settles (fun fuel => cmd.called ids cr fuel) (result (.ok (name, types, args))) := by
  unfold CreateTransactionCmd.called
  generalize cmd.call = call at h
  cases h with
  | none => exact .const _
  | some h => exact (parseCall_spelled hp h).bind (.const _)

variable (ids) in
/-- Where no token is ready there is no type. -/
theorem parseTypeParams_atEnd (hp : cr.parser.Correct) {l : Lexer} (hl : l.peek = none) :
    ∃ e, parseTypeParams ids cr.parser l = result (.error e) := by
  unfold parseTypeParams
  cases htype : cr.parser.parseType l with
  | error e => exact ⟨e, rfl⟩
  | ok read => exact absurd hl (hp.type htype).1

variable (ids) in
theorem types_of_given (hp : cr.parser.Correct) (hnew : ∀ text, (lexerNew text).peek = none)
    {cmd : CreateTransactionCmd} (h : cmd.GivesTypes) (called : List TypeTag) :
    ∃ e, cmd.types ids cr lexerNew called = result (.error e) := by
  obtain ⟨type, types, hgiven⟩ := h
  obtain ⟨e, he⟩ := parseTypeParams_atEnd ids hp (hnew (withoutSs58 cr type))
  refine ⟨e, ?_⟩
  rw [CreateTransactionCmd.types, hgiven]
  show givenTypes ids cr lexerNew (type :: types) = _
  rw [givenTypes, List.mapM_cons, he, error_bind, error_bind]

theorem types_of_not_given {cmd : CreateTransactionCmd} (h : ¬cmd.GivesTypes)
    (called : List TypeTag) : cmd.types ids cr lexerNew called =
      result (.ok (if cmd.typeParameters.isSome then [] else called)) := by
  unfold CreateTransactionCmd.types
  rcases hgiven : cmd.typeParameters with _ | _ | ⟨type, types⟩
  · rfl
  · rfl
  · exact absurd ⟨type, types, hgiven⟩ h

theorem builder_settles (hp : cr.parser.Correct) {cmd : CreateTransactionCmd} {name : Option Text}
    {called : List TypeTag} {args : List Text} (hcall : Calls ids cr cmd.call name called args)
    (h : ¬cmd.GivesTypes) :
    Settles (fun fuel => cmd.builder ids cr lexerNew fuel)
      (result (.ok (cmd.asked cr name called args))) := by
  apply (called_settles hp hcall).bind
  refine ⟨0, fun fuel _ => ?_⟩
  show (cmd.types ids cr lexerNew called >>= _) = _
  rw [types_of_not_given h, ok_bind, CreateTransactionCmd.asked]
  cases cmd.scriptName <;> cases cmd.args <;> rfl

variable (ids) in
theorem builder_fails (hp : cr.parser.Correct) (hnew : ∀ text, (lexerNew text).peek = none)
    {cmd : CreateTransactionCmd} {name : Option Text} {called : List TypeTag} {args : List Text}
    (hcall : Calls ids cr cmd.call name called args) (h : cmd.GivesTypes) :
    ∃ e, Settles (fun fuel => cmd.builder ids cr lexerNew fuel) (result (.error e)) := by
  obtain ⟨e, he⟩ := types_of_given ids hp hnew h called
  refine ⟨e, (called_settles hp hcall).bind ⟨0, fun fuel _ => ?_⟩⟩
  show (cmd.types ids cr lexerNew called >>= _) = _
  rw [he, error_bind]

/-- A transaction is made just where no types are given by `--type`, there is one script that is
meant, it compiles, and it takes what it is given: its code, the number of its signers, the values
that its arguments stand for and the types go into the transaction. All else ends with an error, but
for a name that a file of several scripts does not have, and for a script that is never compiled. A
new lexer has no token ready, and none of `--type` is ever advanced. -/
theorem transaction_made_iff (hp : cr.parser.Correct) (hnew : ∀ text, (lexerNew text).peek = none)
    (w : Workspace lang) (dir : ScriptDir) {cmd : CreateTransactionCmd} {name : Option Text}
    {called : List TypeTag} {args : List Text} (hcall : Calls ids cr cmd.call name called args) :
    let b := cmd.asked cr name called args
    let run := fun fuel => cmd.transaction w dir ids cr lexerNew fuel
    (∀ y, Settles run (result (.ok y)) ↔ ¬cmd.GivesTypes ∧ Makes w dir cr b y) ∧
      (Returns run ↔ cmd.GivesTypes ∨
        ¬Lost dir b ∧ ∀ found, Found dir b found → buildScript w dir found.1 ≠ stuck) := by
  intro b run
  by_cases h : cmd.GivesTypes
  · obtain ⟨e, he⟩ := builder_fails ids hp hnew hcall h
    have hrun : Settles run (result (.error e)) := he.bind_error
    refine ⟨fun y => iff_of_false (fun hy => ?_) fun hy => hy.1 h, iff_of_true ⟨_, hrun⟩ (.inl h)⟩
    cases Option.some.inj (hy.unique hrun)
  · have hmade : Decides run (Makes w dir cr b)
        (¬Lost dir b ∧ ∀ found, Found dir b found → buildScript w dir found.1 ≠ stuck) :=
      .after (builder_settles hp hcall h) (build_decides b)
    exact ⟨fun y => (hmade.value y).trans (and_iff_right h).symm,
      hmade.returns.trans (or_iff_right h).symm⟩

end

/-! ### A script for one signer and a number -/

def payScript : Script :=
  mainWith [("account", ParamType.Signer.typ), ("val", (ParamType.Value .U64).typ)]

def payDir : ScriptDir := { oneFile ["main"] with parse := fun _ => .ok [.Script payScript] }

def unitLang : MoveLang :=
  { Index.oneText [] [] with
    CompiledUnit := Text
    parseFileString := fun _ _ => .ok [.Script payScript]
    translateProgram := fun _ => .ok ["main".toList] }

def payWorkspace : Workspace unitLang where
  projectName := "first_project".toList
  fuel := 2
  buildIndex := .ok []
  resolver := ⟨id, fun m => .error m.name⟩
  moduleSources := []
  sourceMeta path := .ok ⟨path, []⟩
  order := id
  moduleFiles := .ok []
  accountAddress := .ok .default
  dialect := Index.plainDialect
  verifyUnits units := (units, [])
  isModule _ := false
  name unit := unit
  serialize _ := [161, 28, 235, 11]

def payCommand : CreateTransactionCmd := ⟨some "main(60)".toList, none, none, none, none⟩

/-- Nothing of the text is ready before the first `advance`. -/
def lexerAtEnd (_ : Text) : Lexer := ⟨[], none⟩

theorem payCommand_made :
    Settles (fun fuel => payCommand.transaction payWorkspace payDir anyName plainCrates lexerAtEnd fuel)
      (result (.ok ("main".toList, ⟨1, [161, 28, 235, 11], [.U64 60], []⟩))) := by
  have hname : Spelled plainParser [⟨.IdentifierValue, "main".toList⟩] "main(60)".toList
      "(60)".toList := .next rfl rfl (.nil _)
  have hargs : Spelled plainParser (lParen :: (Argument.separated [.word (number "60".toList)] ++ [rParen]))
      "(60)".toList [] := .next rfl rfl (.next rfl rfl (.next rfl rfl (.nil _)))
  have htext : withoutSs58 plainCrates "main(60)".toList = "main(60)".toList := by decide
  have hspelled : CallSpelled anyName plainParser "main".toList [] [.word (number "60".toList)]
      (withoutSs58 plainCrates "main(60)".toList) := by
    rw [htext]
    exact ⟨_, _, hname, .absent _, hargs⟩
  have hcall : Calls anyName plainCrates payCommand.call (some "main".toList) [] ["60".toList] :=
    @Calls.some anyName plainCrates _ _ _ [.word (number "60".toList)] hspelled
  have hnumber : Decimal.IsNumber 64 "60".toList 60 := numberFromStr_iff.mp rfl
  have hvalues : Fills plainCrates (Reads plainCrates) [.U64] ["60".toList] [.U64 60] :=
    .cons ⟨by decide, 60, hnumber, rfl⟩ (.nil [])
  refine ((transaction_made_iff plainParser_correct (fun _ => rfl) payWorkspace payDir hcall).1 _).mpr
    ⟨?_, ?_⟩
  · rintro ⟨type, types, h⟩
    cases h
  refine ⟨(⟨"scripts/main.move".toList, _⟩, makeScriptMeta (fun _ => []) payScript),
    .named rfl rfl rfl, ["main".toList], rfl, "main".toList, rfl, rfl, (1, 1, [.U64 60]), ?_, rfl, rfl⟩
  exact ⟨[("account", .Signer), ("val", .Value .U64)], rfl, [.U64 60], hvalues, rfl⟩

end MoveTools.Dove
