import MoveTools.Dove.ScriptArguments
import MoveTools.Compiler.Parser

namespace MoveTools.Dove
open Syntax Attempt Compiler

/-- The script directory: the paths found in it, how a path in it is made and its extension set,
and what is behind a path. A file is parsed, once loaded, and shown in errors. -/
structure ScriptDir where
  findMoveFiles : Except String (List Text)
  join : Text → Text
  setExtension : Text → Text
  pathExists : Text → Bool
  load : Text → Except String MoveFile
  parse : MoveFile → Except String (List Definition)
  displayAddress : Address → Text
  debug : Text → String

def removeFirst {α : Type} : List α → Attempt String α
  | [] => stuck
  | a :: _ => pure a

section
variable (dir : ScriptDir)

def extract (file : MoveFile) : Except String (List ScriptMeta) :=
  (dir.parse file).map fun defs => defs.filterMap fun def_ =>
    match def_ with
    | .Script script => some (makeScriptMeta dir.displayAddress script)
    | _ => none

def nameList : List Text → Text
  | [] => []
  | [n] => n
  | n :: ns => n ++ ", ".toList ++ nameList ns

def mentions (name : Text) (file : MoveFile) : Bool := (Text.find name file.content).isSome

def isNamed (name : Text) (m : ScriptMeta) : Bool := m.name == name

def hasNamed (name : Text) (x : MoveFile × List ScriptMeta) : Bool := x.2.any (isNamed name)

def lookupScriptByName (name : Text) : Attempt String (MoveFile × ScriptMeta) := do
  let paths ← result dir.findMoveFiles
  let files := (paths.filterMap fun path => (dir.load path).toOption).filter (mentions name)
  let files := files.filterMap fun file => (extract dir file).toOption.map fun scripts =>
    (file, scripts)
  let files := files.filter (hasNamed name)
  if files.isEmpty then throw "Script not found."
  else if 1 < files.length then
    throw ("There are several scripts with the name '" ++ dir.debug name ++ "' in files ['" ++
      String.ofList (nameList (files.map fun x => x.1.name)) ++ "'].")
  else do
    let (file, scripts) ← removeFirst files
    if scripts.isEmpty then throw "Script not found."
    else if 1 < scripts.length then
      throw ("There are several scripts with the name '" ++ dir.debug name ++ "' in file '" ++
        String.ofList file.name ++ "'.")
    else do
      let script ← removeFirst scripts
      pure (file, script)

def debugOption : Option Text → String
  | none => "None"
  | some name => "Some(" ++ dir.debug name ++ ")"

def scriptPath (fname : Text) : Text :=
  if "move".toList.isSuffixOf fname then dir.join fname else dir.setExtension (dir.join fname)

def chooseScript (scriptName : Option Text) (fname : Text) (scripts : List ScriptMeta) :
    Attempt String ScriptMeta :=
  if 1 < scripts.length then
    let scripts := scripts.filter fun sc => scriptName.any fun name => isNamed name sc
    if 1 < scripts.length then
      throw ("There are several scripts with the name '" ++ debugOption dir scriptName ++
        "' in file '" ++ String.ofList fname ++ "'")
    else removeFirst scripts
  else removeFirst scripts

def lookupScriptByFileName (scriptName : Option Text) (fname : Text) :
    Attempt String (MoveFile × ScriptMeta) :=
  if !dir.pathExists (scriptPath dir fname) then
    throw ("File [" ++ String.ofList fname ++ "] not found")
  else do
    let file ← result (dir.load (scriptPath dir fname))
    let scripts ← result (extract dir file)
    if scripts.isEmpty then throw ("Script not found in file '" ++ String.ofList fname ++ "'")
    else do
      let script ← chooseScript dir scriptName fname scripts
      pure (file, script)

def files : List (MoveFile × List ScriptMeta) :=
  ((dir.findMoveFiles.toOption.getD []).filterMap fun path => (dir.load path).toOption).filterMap
    fun file => (extract dir file).toOption.map fun scripts => (file, scripts)

def named (name : Text) (x : MoveFile × List ScriptMeta) : List (MoveFile × ScriptMeta) :=
  (x.2.filter (isNamed name)).map fun m => (x.1, m)

def scriptsNamed (name : Text) : List (MoveFile × ScriptMeta) := (files dir).flatMap (named name)

/-- The files with a script of the name, of those whose text contains it. -/
def candidates (name : Text) : List (MoveFile × List ScriptMeta) :=
  (files dir).filter fun x => mentions name x.1 && hasNamed name x

end

section
variable {dir : ScriptDir} {name fname : Text}

theorem named_eq_nil {x : MoveFile × List ScriptMeta} :
    named name x = [] ↔ ¬hasNamed name x := by
  simp only [named, hasNamed, List.map_eq_nil_iff, List.filter_eq_nil_iff, List.any_eq_true,
    not_exists, not_and]

theorem named_eq_singleton {x : MoveFile × List ScriptMeta} {y : MoveFile × ScriptMeta} :
    named name x = [y] ↔ x.1 = y.1 ∧ x.2.filter (isNamed name) = [y.2] := by
  rw [named, List.map_eq_singleton_iff]
  constructor
  · rintro ⟨m, hm, rfl⟩
    exact ⟨rfl, hm⟩
  · rintro ⟨hfile, hm⟩
    exact ⟨y.2, hm, Prod.ext hfile rfl⟩

theorem flatMap_named_singleton {l : List (MoveFile × List ScriptMeta)} {y : MoveFile × ScriptMeta}
    (h : l.flatMap (named name) = [y]) :
    ∃ x, l.filter (hasNamed name) = [x] ∧ named name x = [y] := by
  induction l with
  | nil => cases h
  | cons x l ih =>
    rw [List.flatMap_cons] at h
    by_cases hx : hasNamed name x
    · have hne : named name x ≠ [] := fun hnil => named_eq_nil.mp hnil hx
      rcases List.append_eq_singleton_iff.mp h with ⟨hnil, -⟩ | ⟨hone, hrest⟩
      · exact absurd hnil hne
      · have hothers : l.filter (hasNamed name) = [] := by
          refine List.filter_eq_nil_iff.mpr fun z hz => ?_
          exact named_eq_nil.mp (List.flatMap_eq_nil_iff.mp hrest z hz)
        exact ⟨x, by rw [List.filter_cons_of_pos hx, hothers], hone⟩
    · rw [named_eq_nil.mpr hx, List.nil_append] at h
      rw [List.filter_cons_of_neg hx]
      exact ih h

theorem filter_mentions {l : List MoveFile} : (l.filter (mentions name)).filterMap (fun file =>
      (extract dir file).toOption.map fun scripts => (file, scripts)) =
    (l.filterMap fun file => (extract dir file).toOption.map fun scripts => (file, scripts)).filter
      fun x => mentions name x.1 := by
  induction l with
  | nil => rfl
  | cons file l ih =>
    by_cases hfile : mentions name file
    · rw [List.filter_cons_of_pos hfile]
      cases hscripts : extract dir file with
      | error e => simpa [hscripts, Except.toOption] using ih
      | ok scripts => simpa [hscripts, Except.toOption, hfile] using ih
    · rw [List.filter_cons_of_neg hfile, ih]
      cases hscripts : extract dir file with
      | error e => simp [hscripts, Except.toOption]
      | ok scripts => simp [hscripts, Except.toOption, hfile]

theorem lookupScriptByName_gives (dir : ScriptDir) (name : Text) :
    Gives (lookupScriptByName dir name) fun y => candidates dir name = [(y.1, [y.2])] := by
  cases hfind : dir.findMoveFiles with
  | error e =>
    have hnone : candidates dir name = [] := by
      unfold candidates files
      rw [hfind]
      rfl
    have hrun : lookupScriptByName dir name = result (.error e) := by
      unfold lookupScriptByName
      rw [hfind]
      rfl
    rw [hrun, hnone]
    exact (gives_error e).congr fun y => iff_of_false id fun h => by cases h
  | ok paths =>
    have hfiles : (((paths.filterMap fun path => (dir.load path).toOption).filter
        (mentions name)).filterMap fun file => (extract dir file).toOption.map fun scripts =>
          (file, scripts)).filter (hasNamed name) = candidates dir name := by
      rw [filter_mentions, List.filter_filter]
      unfold candidates files
      rw [hfind]
      exact List.filter_congr fun x _ => Bool.and_comm ..
    unfold lookupScriptByName
    rw [hfind, ok_bind]
    simp only [hfiles]
    -- only one file with one script gives a result
    rcases hc : candidates dir name with _ | ⟨⟨file, scripts⟩, _ | ⟨x, more⟩⟩
    · exact (gives_error _).congr fun y => iff_of_false id fun h => by cases h
    · rcases scripts with _ | ⟨m, _ | ⟨m', more⟩⟩
      · exact (gives_error _).congr fun y => iff_of_false id fun h => by cases h
      · refine (gives_ok (file, m)).congr fun y => ?_
        constructor
        · rintro rfl
          rfl
        · intro h
          cases h
          rfl
      · exact (gives_error _).congr fun y => iff_of_false id fun h => by cases h
    · exact (gives_error _).congr fun y => iff_of_false id fun h => by cases h

theorem mem_files {x : MoveFile × List ScriptMeta} (h : x ∈ files dir) :
    extract dir x.1 = .ok x.2 := by
  obtain ⟨file, -, hfile⟩ := List.mem_filterMap.mp h
  cases hscripts : extract dir file with
  | error e =>
    rw [hscripts] at hfile
    cases hfile
  | ok scripts =>
    rw [hscripts] at hfile
    cases hfile
    exact hscripts

theorem mem_candidates {x : MoveFile × List ScriptMeta} (h : candidates dir name = [x]) :
    x ∈ files dir ∧ mentions name x.1 := by
  have hx : x ∈ candidates dir name := h ▸ List.mem_singleton_self x
  have hmem := List.mem_filter.mp hx
  exact ⟨hmem.1, (Bool.and_eq_true_iff.mp hmem.2).1⟩

/-- The only script of its name, alone in a file that mentions it, is in the only candidate. -/
theorem candidates_of_scriptsNamed {y : MoveFile × ScriptMeta} (h : scriptsNamed dir name = [y])
    (hmentions : mentions name y.1) (halone : extract dir y.1 = .ok [y.2]) :
    candidates dir name = [(y.1, [y.2])] := by
  obtain ⟨x, hone, hx⟩ := flatMap_named_singleton h
  obtain ⟨hfile, -⟩ := named_eq_singleton.mp hx
  have hmem : x ∈ files dir :=
    List.mem_of_mem_filter (hone ▸ List.mem_singleton_self x : x ∈ (files dir).filter _)
  have hscripts := mem_files hmem
  rw [hfile, halone] at hscripts
  have hpair : x = (y.1, [y.2]) := Prod.ext hfile (Except.ok.inj hscripts).symm
  unfold candidates
  rw [← List.filter_filter, hone, hpair]
  exact List.filter_cons_of_pos hmentions

/-- Where there is one candidate, only a file that does not mention the name can have another script
of it. -/
theorem scriptsNamed_eq_iff {y : MoveFile × ScriptMeta} (h : candidates dir name = [(y.1, [y.2])]) :
    scriptsNamed dir name = [y] ↔ ∀ x ∈ files dir, hasNamed name x → mentions name x.1 := by
  have hcandidate : (y.1, [y.2]) ∈ candidates dir name := h ▸ List.mem_singleton_self _
  obtain ⟨hmem, hboth⟩ := List.mem_filter.mp hcandidate
  obtain ⟨hmentions, hnamed⟩ := Bool.and_eq_true_iff.mp hboth
  constructor
  · intro hone x hx hxnamed
    obtain ⟨z, hz, -⟩ := flatMap_named_singleton hone
    have hsame : ∀ x ∈ files dir, hasNamed name x → x = z := by
      intro x hx hxnamed
      have hin : x ∈ (files dir).filter (hasNamed name) := List.mem_filter.mpr ⟨hx, hxnamed⟩
      rw [hz] at hin
      exact List.mem_singleton.mp hin
    rw [hsame x hx hxnamed, ← hsame _ hmem hnamed]
    exact hmentions
  · intro hall
    have hfilter : (files dir).filter (hasNamed name) = [(y.1, [y.2])] := by
      rw [← h, candidates]
      refine List.filter_congr fun x hx => ?_
      by_cases hxnamed : hasNamed name x
      · rw [hxnamed, hall x hx hxnamed]
        rfl
      · simp [hxnamed]
    -- only files with such a script give any
    have hflat : ∀ l : List (MoveFile × List ScriptMeta),
        l.flatMap (named name) = (l.filter (hasNamed name)).flatMap (named name) := by
      intro l
      induction l with
      | nil => rfl
      | cons x l ih =>
        rw [List.flatMap_cons, ih]
        by_cases hx : hasNamed name x
        · rw [List.filter_cons_of_pos hx, List.flatMap_cons]
        · rw [List.filter_cons_of_neg hx, named_eq_nil.mpr hx, List.nil_append]
    have hscript : isNamed name y.2 := by simpa [hasNamed] using hnamed
    rw [scriptsNamed, hflat, hfilter, List.flatMap_singleton, named,
      List.filter_cons_of_pos hscript]
    rfl

theorem scriptsNamed_iff :
    (∀ y, candidates dir name = [(y.1, [y.2])] ↔ scriptsNamed dir name = [y]) ↔
    (∀ y, scriptsNamed dir name = [y] → mentions name y.1 ∧ extract dir y.1 = .ok [y.2]) ∧
      ∀ y : MoveFile × ScriptMeta, candidates dir name = [(y.1, [y.2])] →
        ∀ x ∈ files dir, hasNamed name x → mentions name x.1 := by
  constructor
  · intro h
    refine ⟨fun y hy => ?_, fun y hy => (scriptsNamed_eq_iff hy).mp ((h y).mp hy)⟩
    obtain ⟨hmem, hmentions⟩ := mem_candidates ((h y).mpr hy)
    exact ⟨hmentions, mem_files hmem⟩
  · rintro ⟨halone, honly⟩ y
    refine ⟨fun hy => (scriptsNamed_eq_iff hy).mpr (honly y hy), fun hy => ?_⟩
    exact candidates_of_scriptsNamed hy (halone y hy).1 (halone y hy).2

structure Holds (dir : ScriptDir) (fname : Text) (file : MoveFile) (scripts : List ScriptMeta) :
    Prop where
  found : dir.pathExists (scriptPath dir fname)
  loaded : dir.load (scriptPath dir fname) = .ok file
  extracted : extract dir file = .ok scripts

theorem lookupScriptByFileName_run {file : MoveFile} {scripts : List ScriptMeta}
    (h : Holds dir fname file scripts) (hmany : 1 < scripts.length) (scriptName : Option Text) :
    lookupScriptByFileName dir scriptName fname =
      chooseScript dir scriptName fname scripts >>= fun script => pure (file, script) := by
  have hne : ¬scripts.isEmpty := by
    rw [List.isEmpty_iff]
    rintro rfl
    cases hmany
  unfold lookupScriptByFileName
  rw [if_neg (by simp [h.found]), h.loaded, ok_bind, h.extracted, ok_bind, if_neg hne]

theorem lookupScriptByFileName_gives_iff {file : MoveFile} {scripts : List ScriptMeta}
    (h : Holds dir fname file scripts) (hmany : 1 < scripts.length) :
    Gives (lookupScriptByFileName dir (some name) fname)
        (fun y => y.1 = file ∧ scripts.filter (isNamed name) = [y.2]) ↔
      ∃ m ∈ scripts, isNamed name m := by
  have hsome : (∃ m ∈ scripts, isNamed name m) ↔ scripts.filter (isNamed name) ≠ [] := by
    rw [ne_eq, List.filter_eq_nil_iff]
    simp only [not_forall, not_not, exists_prop]
  rw [lookupScriptByFileName_run h hmany, hsome]
  unfold chooseScript
  rw [if_pos hmany]
  have hfilter : scripts.filter (fun sc => (some name).any fun name => isNamed name sc) =
      scripts.filter (isNamed name) := rfl
  simp only [hfilter]
  rcases scripts.filter (isNamed name) with _ | ⟨m, _ | ⟨m', more⟩⟩
  · exact iff_of_false not_gives_stuck fun h => h rfl
  · refine iff_of_true ((gives_ok (file, m)).congr fun y => ?_) (List.cons_ne_nil _ _)
    constructor
    · rintro rfl
      exact ⟨rfl, rfl⟩
    · rintro ⟨hfile, hm⟩
      exact Prod.ext hfile (List.cons.inj hm).1.symm
  · refine iff_of_true ((gives_error _).congr fun y => iff_of_false id ?_) (List.cons_ne_nil _ _)
    rintro ⟨-, hm⟩
    cases hm

end

/-- A script is found by its name when it is alone in its file, and in a given file of several when
some script there has the name. -/
theorem scripts_found_iff (dir : ScriptDir) (name fname : Text) :
    (Gives (lookupScriptByName dir name) (fun y => scriptsNamed dir name = [y]) ∧
      ∀ file scripts, Holds dir fname file scripts → 1 < scripts.length →
        Gives (lookupScriptByFileName dir (some name) fname)
          fun y => y.1 = file ∧ scripts.filter (isNamed name) = [y.2]) ↔
    ((∀ y, scriptsNamed dir name = [y] → mentions name y.1 ∧ extract dir y.1 = .ok [y.2]) ∧
      ∀ y : MoveFile × ScriptMeta, candidates dir name = [(y.1, [y.2])] →
        ∀ x ∈ files dir, hasNamed name x → mentions name x.1) ∧
    ∀ file scripts, Holds dir fname file scripts → 1 < scripts.length →
      ∃ m ∈ scripts, isNamed name m := by
  refine and_congr ?_ ?_
  · rw [← scriptsNamed_iff]
    constructor
    · exact fun h y => (lookupScriptByName_gives dir name).unique h y
    · exact fun h => (lookupScriptByName_gives dir name).congr h
  · refine forall_congr' fun file => forall_congr' fun scripts => ?_
    exact forall_congr' fun h => forall_congr' fun hmany =>
      lookupScriptByFileName_gives_iff h hmany

def oneFile (names : List String) : ScriptDir where
  findMoveFiles := .ok ["scripts/main.move".toList]
  join fname := "scripts/".toList ++ fname
  setExtension path := path ++ ".move".toList
  pathExists path := path == "scripts/main.move".toList
  load path := .ok ⟨path, names.flatMap fun n => "script \x7b fun ".toList ++ n.toList ++
    "() \x7b\x7d \x7d".toList⟩
  parse _ := .ok (names.map fun n => .Script ⟨[], [], n, ⟨[], [], .Unit⟩, .Defined (.mk [] [] none)⟩)
  displayAddress _ := []
  debug name := "\"" ++ String.ofList name ++ "\""

/-- The only script of the name is not alone, and there is none of another name to look for. -/
theorem main_not_found :
    ¬Gives (lookupScriptByName (oneFile ["main", "other"]) "main".toList)
        (fun y => scriptsNamed (oneFile ["main", "other"]) "main".toList = [y]) ∧
      lookupScriptByFileName (oneFile ["main", "other"]) (some "third".toList) "main".toList =
        stuck := by
  refine ⟨?_, rfl⟩
  rintro ⟨r, hrun, hvalue⟩
  have hone : ∃ y, scriptsNamed (oneFile ["main", "other"]) "main".toList = [y] := ⟨_, rfl⟩
  obtain ⟨y, hy⟩ := hone
  rw [(hvalue y).mpr hy] at hrun
  have herror : ∃ e, lookupScriptByName (oneFile ["main", "other"]) "main".toList =
    result (.error e) := ⟨_, rfl⟩
  obtain ⟨e, he⟩ := herror
  rw [he] at hrun
  cases Option.some.inj hrun

end MoveTools.Dove
