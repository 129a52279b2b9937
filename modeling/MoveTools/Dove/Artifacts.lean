import Mathlib.Data.List.Sigma
import MoveTools.Library.Decimal
import MoveTools.Library.Effects
import MoveTools.Library.FileTree
import MoveTools.Library.KeyStore
import MoveTools.Library.Readable

namespace MoveTools.Dove.Artifacts
open FileTree KeyStore

abbrev Bytes := List UInt8

/-- What of compiled units and of transactions is called. -/
structure Codec where
  CompiledUnit : Type
  Transaction : Type
  Error : Type
  isModule : CompiledUnit → Bool
  name : CompiledUnit → Text
  serialize : CompiledUnit → Bytes
  verifyUnits : List CompiledUnit → List CompiledUnit × List Error
  toBytes : Transaction → Except Error Bytes

inductive Failure (c : Codec) where
  | io (e : IoError)
  | lcs (e : c.Error)
  | message (s : Text)

/-- The paths of the layout are joined to the directory of the project. -/
structure Context where
  projectName : Text
  moduleOutput : Path
  scriptOutput : Path
  transactionOutput : Path
  target : Path

/-- A file name up to its last dot. A dot in front does not count. -/
def fileStem (name : Text) : Text :=
  match (name.reverse.dropWhile (· != '.')).tail.reverse with
  | [] => name
  | stem => stem

def setExtension (name extension : Text) : Text := fileStem name ++ '.' :: extension

section
variable (c : Codec) (ctx : Context)

abbrev Io := EStateM (Failure c) (FileTree Bytes)

def io (call : FileTree Bytes → Except IoError (FileTree Bytes)) : Io c Unit := fun t =>
  match call t with
  | .ok t' => .ok () t'
  | .error e => .error (.io e) t

/-- `if path.exists() { .. }` -/
def ifExists (path : Path) (call : Io c Unit) : Io c Unit := fun t =>
  if t.pathExists path then call t else .ok () t

def ifMissing (path : Path) (call : Io c Unit) : Io c Unit := fun t =>
  if t.pathExists path then .ok () t else call t

def unitFile (idx : ℕ) (unit : c.CompiledUnit) : Text :=
  setExtension (Decimal.display idx ++ '_' :: c.name unit) "mv".toList

def store (units : List c.CompiledUnit) (baseDir : Path) : Io c Unit :=
  forM units.zipIdx fun x => io c (·.writeFile baseDir (unitFile c x.2 x.1) (c.serialize x.1))

/-- An old directory is removed with all that is in it. -/
def storeAfresh (units : List c.CompiledUnit) (dir : Path) : Io c Unit :=
  if units = [] then pure ()
  else do
    ifExists c dir (io c (·.removeDirAll dir))
    io c (·.createDirAll dir)
    store c units dir

def verifyAndStore (compiledUnits : List c.CompiledUnit) : Io c Unit := do
  let verified := c.verifyUnits compiledUnits
  let units := verified.1.partition c.isModule
  storeAfresh c units.1 ctx.moduleOutput
  storeAfresh c units.2 ctx.scriptOutput
  if verified.2.isEmpty then pure ()
  else throw (.message ("could not verify:".toList ++ ctx.projectName))

def clean : Io c Unit := ifExists c ctx.target (io c (·.removeDirAll ctx.target))

def storeTransaction (name : Text) (tx : c.Transaction) : Io c Unit := do
  let txDir := ctx.transactionOutput
  ifMissing c txDir (io c (·.createDirAll txDir))
  let txFile := setExtension name "mvt".toList
  ifExists c (txDir ++ [txFile]) (io c (·.removeFile (txDir ++ [txFile])))
  match c.toBytes tx with
  | .ok bytes => io c (·.writeFile txDir txFile bytes)
  | .error e => throw (.lcs e)

def Context.outputs : List Path := [ctx.moduleOutput, ctx.scriptOutput, ctx.transactionOutput]

/-- On the way to the directories there are no files. -/
def Ways (t : FileTree Bytes) : Prop :=
  ∀ p ∈ ctx.target :: ctx.outputs, ∀ q, q <+: p → t.isFile q = false

/-- What happens on disk beside the outputs: before a command stores anything it writes its index
and fetches dependencies, and in between the sources are edited. -/
structure Elsewhere where
  change : FileTree Bytes → FileTree Bytes
  kept : ∀ t, ∀ p ∈ ctx.outputs, ∀ q, p <+: q → (change t).node q = t.node q
  ways : ∀ t, Ways ctx t → Ways ctx (change t)

/-- `verify_and_store`, the whole of `dove clean`, and `store_transaction`, among other changes. -/
inductive Step where
  | elsewhere (e : Elsewhere ctx)
  | verifyAndStore (compiledUnits : List c.CompiledUnit)
  | clean
  | storeTransaction (name : Text) (tx : c.Transaction)

def Step.apply : Step c ctx → Io c Unit
  | .elsewhere e => fun t => .ok () (e.change t)
  | .verifyAndStore compiledUnits => Artifacts.verifyAndStore c ctx compiledUnits
  | .clean => Artifacts.clean c ctx
  | .storeTransaction name tx => Artifacts.storeTransaction c ctx name tx

/-- A step after the other, each with the failure that it ends with. -/
def run (t : FileTree Bytes) : List (Step c ctx) → FileTree Bytes × List (Option (Failure c))
  | [] => (t, [])
  | step :: steps =>
    match step.apply c ctx t with
    | .ok _ t' => ((run t' steps).1, none :: (run t' steps).2)
    | .error e t' => ((run t' steps).1, some e :: (run t' steps).2)

/-! ### What is meant to be on disk -/

/-- The modules and the scripts of the last builds that had any, and the transactions by the names
of their files; `none` where there is no directory for them. -/
structure Outputs where
  modules : List c.CompiledUnit
  scripts : List c.CompiledUnit
  transactions : Option (Text → Option Bytes)

/-- New units take the place of the old ones, if there are any. -/
def renewed (old new : List c.CompiledUnit) : List c.CompiledUnit := if new = [] then old else new

variable {c ctx} in
def Outputs.apply (a : Outputs c) : Step c ctx → Outputs c
  | .elsewhere _ => a
  | .verifyAndStore compiledUnits =>
    let units := (c.verifyUnits compiledUnits).1.partition c.isModule
    { a with modules := renewed c a.modules units.1, scripts := renewed c a.scripts units.2 }
  | .clean =>
    { modules := if ctx.target <+: ctx.moduleOutput then [] else a.modules
      scripts := if ctx.target <+: ctx.scriptOutput then [] else a.scripts
      transactions := if ctx.target <+: ctx.transactionOutput then none else a.transactions }
  | .storeTransaction name tx =>
    -- a transaction that cannot be written down takes the old one with it
    { a with transactions := some (Function.update (a.transactions.getD fun _ => none)
        (setExtension name "mvt".toList) (c.toBytes tx).toOption) }

variable {c ctx} in
def Step.failure : Step c ctx → Option (Failure c)
  | .elsewhere _ => none
  | .verifyAndStore compiledUnits =>
    if (c.verifyUnits compiledUnits).2.isEmpty then none
    else some (.message ("could not verify:".toList ++ ctx.projectName))
  | .clean => none
  | .storeTransaction _ tx =>
    match c.toBytes tx with
    | .ok _ => none
    | .error e => some (.lcs e)

variable {c ctx} in
/-- Only what happens elsewhere can change a place outside. -/
def Step.Leaves (q : Path) : Step c ctx → Prop
  | .elsewhere e => ∀ t, (e.change t).node q = t.node q
  | _ => True

/-- One file for each unit, by its number and its name. -/
def Lists (units : List c.CompiledUnit) (files : Listing Bytes) : Prop :=
  if units = [] then files = none
  else ∃ m, files = some m ∧ ∀ name bytes, m name = some bytes ↔
    ∃ idx unit, units[idx]? = some unit ∧ name = unitFile c idx unit ∧ bytes = c.serialize unit

/-- No output lies in another one, nor the target directory in any of them. -/
structure Context.Clear : Prop where
  apart : ctx.outputs.Pairwise Apart
  target_ne : ctx.target ≠ []
  target : ∀ p ∈ ctx.outputs, ctx.target <+: p ∨ Apart ctx.target p

structure Represents (t : FileTree Bytes) (a : Outputs c) : Prop where
  modules : ∃ files, t.Holds ctx.moduleOutput files ∧ Lists c a.modules files
  scripts : ∃ files, t.Holds ctx.scriptOutput files ∧ Lists c a.scripts files
  transactions : t.Holds ctx.transactionOutput a.transactions
  ways : Ways ctx t

/-- Nothing is stored or removed there. -/
def Context.Outside (q : Path) : Prop := ¬ctx.target <+: q ∧ ∀ p ∈ ctx.outputs, Apart p q

/-! ### File names -/

variable {c}

theorem fileStem_prefix {w : Text} (name : Text) (hw : '.' ∉ w) :
    ∃ rest, fileStem (w ++ name) = w ++ rest := by
  have hdrop : w.reverse.dropWhile (· != '.') = [] := by
    rw [List.dropWhile_eq_nil_iff]
    intro x hx
    rw [bne_iff_ne]
    rintro rfl
    exact hw (List.mem_reverse.mp hx)
  rw [fileStem, List.reverse_append, List.dropWhile_append]
  split
  case h_1 => exact ⟨name, rfl⟩
  case h_2 hstem =>
    split
    case isTrue hempty =>
      rw [if_pos hempty, hdrop] at hstem
      exact absurd rfl hstem
    case isFalse hmore =>
      refine ⟨(name.reverse.dropWhile (· != '.')).tail.reverse, ?_⟩
      rw [List.tail_append_of_ne_nil (by simpa using hmore), List.reverse_append,
        List.reverse_reverse]

theorem not_dot_of_digit {n : ℕ} : '.' ∉ Decimal.display n ++ ['_'] := by
  intro h
  rcases List.mem_append.mp h with h | h
  · exact absurd (Decimal.isDigit_of_mem_display h) (by decide)
  · exact absurd (List.mem_singleton.mp h) (by decide)

theorem unitFile_prefix (idx : ℕ) (unit : c.CompiledUnit) :
    ∃ rest, unitFile c idx unit = Decimal.display idx ++ '_' :: rest := by
  obtain ⟨rest, hrest⟩ := fileStem_prefix (c.name unit) (not_dot_of_digit (n := idx))
  rw [List.append_assoc, List.singleton_append] at hrest
  refine ⟨rest ++ '.' :: "mv".toList, ?_⟩
  rw [unitFile, setExtension, hrest]
  simp

theorem unitFile_inj {i j : ℕ} {u v : c.CompiledUnit} (h : unitFile c i u = unitFile c j v) :
    i = j := by
  obtain ⟨r, hr⟩ := unitFile_prefix i u
  obtain ⟨s, hs⟩ := unitFile_prefix j v
  have hstop : ∀ r : Text, Readable.Stops (fun c : Char => c.isDigit) ('_' :: r) :=
    fun r => Readable.stops_cons.mpr (by decide)
  rw [hr, hs] at h
  exact Decimal.display_injective (Readable.word (fun _ => Decimal.isDigit_of_mem_display)
    (fun _ => Decimal.isDigit_of_mem_display) (hstop r) (hstop s) h).1

/-- What storing the units writes, where `k` were stored before. -/
def unitWrites (c : Codec) (k : ℕ) (units : List c.CompiledUnit) : List (Write Text Bytes) :=
  (units.zipIdx k).map fun x => (unitFile c x.2 x.1, some (c.serialize x.1))

theorem mem_unitWrites {units : List c.CompiledUnit} {w : Write Text Bytes} :
    w ∈ unitWrites c 0 units ↔
      ∃ idx unit, units[idx]? = some unit ∧ w = (unitFile c idx unit, some (c.serialize unit)) := by
  constructor
  · intro h
    obtain ⟨⟨unit, idx⟩, hunit, rfl⟩ := List.mem_map.mp h
    exact ⟨idx, unit, List.mem_zipIdx_iff_getElem?.mp hunit, rfl⟩
  · rintro ⟨idx, unit, hunit, rfl⟩
    exact List.mem_map.mpr ⟨(unit, idx), List.mem_zipIdx_iff_getElem?.mpr hunit, rfl⟩

theorem unitWrites_nodup (units : List c.CompiledUnit) :
    ((unitWrites c 0 units).map Prod.fst).Nodup := by
  rw [unitWrites, List.map_map]
  refine List.Nodup.map_on ?_ (List.nodup_zipIdx_map_snd units).of_map
  rintro ⟨u, i⟩ hu ⟨v, j⟩ hv heq
  have hij : i = j := unitFile_inj heq
  subst hij
  have hu' : units[i]? = some u := List.mem_zipIdx_iff_getElem?.mp hu
  have hv' : units[i]? = some v := List.mem_zipIdx_iff_getElem?.mp hv
  rw [Option.some.inj (hu'.symm.trans hv')]

theorem lists_unitWrites {units : List c.CompiledUnit} (h : units ≠ []) :
    Lists c units (some (putAll (fun _ => none) (unitWrites c 0 units))) := by
  rw [Lists, if_neg h]
  refine ⟨_, rfl, fun name bytes => ?_⟩
  constructor
  · intro hname
    rw [putAll_eq] at hname
    cases hlast : last (unitWrites c 0 units) name with
    | none =>
      rw [hlast] at hname
      cases hname
    | some content =>
      rw [hlast] at hname
      replace hname : content = some bytes := hname
      subst hname
      obtain ⟨idx, unit, hunit, heq⟩ := mem_unitWrites.mp (mem_of_last hlast)
      cases heq
      exact ⟨idx, unit, hunit, rfl, rfl⟩
  · rintro ⟨idx, unit, hunit, rfl, rfl⟩
    exact putAll_of_nodup (unitWrites_nodup units) (mem_unitWrites.mpr ⟨idx, unit, hunit, rfl⟩)

/-! ### Storing -/

section
variable {t t' : FileTree Bytes} {dir : Path}

theorem io_ok {call : FileTree Bytes → Except IoError (FileTree Bytes)} (h : call t = .ok t') :
    io c call t = .ok () t' := by
  rw [io, h]

theorem store_ok (units : List c.CompiledUnit) (k : ℕ) {files : Text → Option Bytes}
    (h : t.Holds dir (some files)) : ∃ t',
      forM (units.zipIdx k) (fun x => io c (·.writeFile dir (unitFile c x.2 x.1) (c.serialize x.1))) t =
        .ok () t' ∧ t'.Holds dir (some (putAll files (unitWrites c k units))) ∧
      ∀ q, ¬dir <+: q → t'.node q = t.node q := by
  induction units generalizing k t files with
  | nil => exact ⟨t, rfl, h, fun _ _ => rfl⟩
  | cons unit units ih =>
    obtain ⟨t1, hok, hholds, hsame⟩ := writeFile_holds h (unitFile c k unit) (c.serialize unit)
    obtain ⟨t2, hrest, hholds', hsame'⟩ := ih (k + 1) hholds
    refine ⟨t2, ?_, hholds', fun q hq => (hsame' q hq).trans (hsame q hq)⟩
    rw [List.zipIdx_cons, List.forM_cons, Effects.bind_ok (io_ok hok)]
    exact hrest

theorem storeAfresh_ok {units : List c.CompiledUnit} (hunits : units ≠ []) {files : Listing Bytes}
    (h : t.Holds dir files) (hdir : dir ≠ []) (hway : ∀ q, q <+: dir → t.isFile q = false) :
    ∃ t', storeAfresh c units dir t = .ok () t' ∧
      t'.Holds dir (some (putAll (fun _ => none) (unitWrites c 0 units))) ∧ ChangedIn dir t t' := by
  have hremoved : ∃ t1, ifExists c dir (io c (·.removeDirAll dir)) t = .ok () t1 ∧
      t1.Holds dir none ∧ ∀ q, ¬dir <+: q → t1.node q = t.node q := by
    cases files with
    | none =>
      refine ⟨t, if_neg ?_, h, fun _ _ => rfl⟩
      rw [pathExists, holds_none.mp h]
      exact Bool.false_ne_true
    | some files =>
      obtain ⟨t1, hok, hholds, hsame⟩ := removeDirAll_holds h hdir
      exact ⟨t1, (if_pos h.exists).trans (io_ok hok), hholds, hsame⟩
  obtain ⟨t1, hremove, hholds, hsame⟩ := hremoved
  have hway1 : ∀ q, q <+: dir → t1.isFile q = false := by
    intro q hq
    by_cases hle : dir <+: q
    · obtain rfl := hq.eq_of_length_le hle.length_le
      rw [isFile, holds_none.mp hholds]
    · rw [isFile, hsame q hle]
      exact hway q hq
  obtain ⟨t2, hcreate, hholds, hchanged⟩ := createDirAll_holds hholds hway1
  obtain ⟨t3, hstore, hholds, hsame'⟩ := store_ok units 0 hholds
  refine ⟨t3, ?_, hholds, fun q hq => ?_⟩
  · rw [storeAfresh, if_neg hunits, Effects.bind_ok hremove, Effects.bind_ok (io_ok hcreate)]
    exact hstore
  · rw [hsame' q hq, hchanged q hq, hsame q hq]

end

/-! ### Steps -/

variable {ctx} {t t' : FileTree Bytes} {a : Outputs c}

/-- One file is written that is on the way to no output and in none of them. -/
def Elsewhere.writing (dir : Path) (name : Text) (content : Bytes)
    (h : ∀ p ∈ ctx.target :: ctx.outputs, Apart p (dir ++ [name])) : Elsewhere ctx where
  change t := (t.writeFile dir name content).toOption.getD t
  kept t p hp q hq := writeFile_node fun heq => (h p (List.mem_cons_of_mem _ hp)).1 (heq ▸ hq)
  ways t hways p hp q hq := by
    have hne : q ≠ dir ++ [name] := fun heq => (h p hp).2 (heq ▸ hq)
    rw [isFile, writeFile_node hne]
    exact hways p hp q hq

theorem Context.Clear.apart_or_eq (h : ctx.Clear) {p dir : Path} (hp : p ∈ ctx.outputs)
    (hdir : dir ∈ ctx.outputs) : dir = p ∨ Apart dir p := by
  by_cases heq : dir = p
  · exact .inl heq
  · exact .inr (h.apart.forall hdir hp heq)

theorem Context.Clear.ne_nil (h : ctx.Clear) {p : Path} (hp : p ∈ ctx.outputs) : p ≠ [] := by
  rintro rfl
  rcases h.target [] hp with hle | hapart
  · exact h.target_ne (List.prefix_nil.mp hle)
  · exact hapart.2 List.nil_prefix

theorem Ways.changedIn (h : Ways ctx t) (hctx : ctx.Clear) {dir : Path} (hdir : dir ∈ ctx.outputs)
    (hchanged : ChangedIn dir t t') (hthere : t'.node dir = some .dir) : Ways ctx t' := by
  intro p hp q hq
  by_cases hle : dir <+: q
  · have heq : dir = p := by
      have hdirp := hle.trans hq
      rcases List.mem_cons.mp hp with rfl | hp
      · rcases hctx.target dir hdir with htarget | hapart
        · exact hdirp.eq_of_length_le htarget.length_le
        · exact absurd hdirp hapart.2
      · exact (hctx.apart_or_eq hp hdir).resolve_right fun hapart => hapart.1 hdirp
    subst heq
    obtain rfl := hle.eq_of_length_le hq.length_le
    rw [isFile, hthere]
  · rw [isFile, hchanged q hle]
    by_cases hway : q <+: dir
    · rw [if_pos hway]
    · rw [if_neg hway]
      exact h p hp q hq

/-- What storing units does to one of the directories, and what it does not do to the others. -/
theorem renew_ok (hctx : ctx.Clear) (hways : Ways ctx t) {dir : Path} (hdir : dir ∈ ctx.outputs)
    {old : List c.CompiledUnit} (hold : ∃ files, t.Holds dir files ∧ Lists c old files)
    (new : List c.CompiledUnit) : ∃ t', storeAfresh c new dir t = .ok () t' ∧
      (∃ files, t'.Holds dir files ∧ Lists c (renewed c old new) files) ∧ KeptApart dir t t' ∧
      Ways ctx t' := by
  by_cases hnew : new = []
  · subst hnew
    refine ⟨t, by rw [storeAfresh, if_pos rfl]; rfl, ?_, fun _ _ => rfl, hways⟩
    rw [renewed, if_pos rfl]
    exact hold
  · obtain ⟨files, hholds, -⟩ := hold
    obtain ⟨t', hok, hholds', hchanged⟩ := storeAfresh_ok hnew hholds (hctx.ne_nil hdir)
      (hways dir (List.mem_cons_of_mem _ hdir))
    refine ⟨t', hok, ⟨_, hholds', ?_⟩, hchanged.keptApart,
      hways.changedIn hctx hdir hchanged hholds'.isDir⟩
    rw [renewed, if_neg hnew]
    exact lists_unitWrites hnew

theorem mem_outputs (ctx : Context) : ctx.moduleOutput ∈ ctx.outputs ∧ ctx.scriptOutput ∈ ctx.outputs ∧
    ctx.transactionOutput ∈ ctx.outputs := by
  simp [Context.outputs]

theorem Context.Clear.apart_of (h : ctx.Clear) : Apart ctx.moduleOutput ctx.scriptOutput ∧
    Apart ctx.moduleOutput ctx.transactionOutput ∧ Apart ctx.scriptOutput ctx.transactionOutput := by
  have hpairs := h.apart
  simp only [Context.outputs, List.pairwise_cons, List.mem_cons, List.not_mem_nil, or_false,
    forall_eq_or_imp, forall_eq] at hpairs
  exact ⟨hpairs.1.1, hpairs.1.2, hpairs.2.1⟩

/-- How a step ends, and what it leaves. -/
structure Ends (ctx : Context) (t : FileTree Bytes) (a : Outputs c) (step : Step c ctx)
    (t' : FileTree Bytes) : Prop where
  result : step.apply c ctx t = match step.failure with
    | none => .ok () t'
    | some e => .error e t'
  represents : Represents c ctx t' (a.apply step)
  kept : ∀ q, ctx.Outside q → step.Leaves q → t'.node q = t.node q

theorem elsewhere_ends (h : Represents c ctx t a) (e : Elsewhere ctx) :
    Ends ctx t a (.elsewhere e) (e.change t) := by
  obtain ⟨hmodules, hscripts, htransactions⟩ := mem_outputs ctx
  have hholds : ∀ {p : Path} {files : Listing Bytes}, p ∈ ctx.outputs → t.Holds p files →
      (e.change t).Holds p files := by
    intro p files hp hfiles q
    rw [e.kept t p hp _ (List.prefix_append p q), hfiles q]
  refine ⟨rfl, ⟨?_, ?_, hholds htransactions h.transactions, e.ways t h.ways⟩, fun q _ hq => hq t⟩
  · obtain ⟨files, hfiles, hlists⟩ := h.modules
    exact ⟨files, hholds hmodules hfiles, hlists⟩
  · obtain ⟨files, hfiles, hlists⟩ := h.scripts
    exact ⟨files, hholds hscripts hfiles, hlists⟩

theorem verifyAndStore_ends (hctx : ctx.Clear) (h : Represents c ctx t a)
    (compiledUnits : List c.CompiledUnit) : ∃ t', Ends ctx t a (.verifyAndStore compiledUnits) t' := by
  obtain ⟨hmodules, hscripts, htransactions⟩ := mem_outputs ctx
  obtain ⟨h12, h13, h23⟩ := hctx.apart_of
  obtain ⟨t1, hfirst, hnew1, hkept1, hways1⟩ := renew_ok hctx h.ways hmodules h.modules
    ((c.verifyUnits compiledUnits).1.partition c.isModule).1
  obtain ⟨files, hholds, hlists⟩ := h.scripts
  obtain ⟨t2, hsecond, hnew2, hkept2, hways2⟩ := renew_ok hctx hways1 hscripts
    ⟨files, hholds.frame hkept1 h12, hlists⟩
    ((c.verifyUnits compiledUnits).1.partition c.isModule).2
  refine ⟨t2, ?_, ⟨?_, hnew2, ?_, hways2⟩, fun q hq _ => ?_⟩
  · rw [Step.apply, verifyAndStore, Effects.bind_ok hfirst, Effects.bind_ok hsecond, Step.failure]
    split <;> rfl
  · obtain ⟨files, hholds, hlists⟩ := hnew1
    exact ⟨files, hholds.frame hkept2 h12.symm, hlists⟩
  · exact (h.transactions.frame hkept1 h13).frame hkept2 h23
  · rw [hkept2 q (hq.2 _ hscripts), hkept1 q (hq.2 _ hmodules)]

theorem cleaned_holds {p : Path} (hp : ctx.target <+: p ∨ Apart ctx.target p) {files : Listing Bytes}
    (h : t.Holds p files)
    (hnode : ∀ q, t'.node q = if ctx.target <+: q then none else t.node q) :
    t'.Holds p (if ctx.target <+: p then none else files) := by
  by_cases hle : ctx.target <+: p
  · rw [if_pos hle]
    refine holds_none.mpr ?_
    rw [hnode, if_pos hle]
  · rw [if_neg hle]
    intro q
    rw [hnode, if_neg (hp.resolve_left hle).append.1, h q]

theorem lists_nil : Lists c [] none := by
  rw [Lists, if_pos rfl]

theorem clean_ends (hctx : ctx.Clear) (h : Represents c ctx t a) :
    ∃ t', Ends ctx t a .clean t' := by
  have hremoved : ∃ t', Artifacts.clean c ctx t = .ok () t' ∧
      ∀ q, t'.node q = if ctx.target <+: q then none else t.node q := by
    -- what is not there need not be removed, and has nothing in it
    by_cases hthere : t.node ctx.target = none
    · refine ⟨t, if_neg ?_, fun q => ?_⟩
      · rw [pathExists, hthere]
        exact Bool.false_ne_true
      · split
        case isTrue hq =>
          obtain ⟨rest, rfl⟩ := hq
          exact holds_none.mpr hthere rest
        case isFalse => rfl
    · have hdir : t.node ctx.target = some .dir := by
        -- no file is in its place
        have hfile := h.ways ctx.target List.mem_cons_self ctx.target List.prefix_rfl
        rw [isFile] at hfile
        split at hfile
        case h_1 => cases hfile
        case h_2 hno =>
          cases hnode : t.node ctx.target with
          | none => exact absurd hnode hthere
          | some node =>
            cases node with
            | dir => rfl
            | file content => exact absurd hnode (hno content)
      obtain ⟨t', hok, hnode⟩ := removeDirAll_ok hdir hctx.target_ne
      refine ⟨t', (if_pos ?_).trans (io_ok hok), hnode⟩
      rw [pathExists, hdir]
      rfl
  obtain ⟨t', hok, hnode⟩ := hremoved
  have hcleaned : ∀ {p : Path} {units : List c.CompiledUnit}, p ∈ ctx.outputs →
      (∃ files, t.Holds p files ∧ Lists c units files) →
      ∃ files, t'.Holds p files ∧ Lists c (if ctx.target <+: p then [] else units) files := by
    rintro p units hp ⟨files, hholds, hlists⟩
    refine ⟨_, cleaned_holds (hctx.target p hp) hholds hnode, ?_⟩
    by_cases hle : ctx.target <+: p
    · rw [if_pos hle, if_pos hle]
      exact lists_nil
    · rwa [if_neg hle, if_neg hle]
  obtain ⟨hmodules, hscripts, htransactions⟩ := mem_outputs ctx
  refine ⟨t', hok, ⟨hcleaned hmodules h.modules, hcleaned hscripts h.scripts, ?_, ?_⟩,
    fun q hq _ => ?_⟩
  · exact cleaned_holds (hctx.target _ htransactions) h.transactions hnode
  · intro p hp q hq
    rw [isFile, hnode]
    by_cases hle : ctx.target <+: q
    · rw [if_pos hle]
    · rw [if_neg hle]
      exact h.ways p hp q hq
  · rw [hnode, if_neg hq.1]

section
variable {dir : Path} {files : Text → Option Bytes}

theorem ifMissing_ok {listing : Listing Bytes} (h : t.Holds dir listing)
    (hway : ∀ q, q <+: dir → t.isFile q = false) : ∃ t',
      ifMissing c dir (io c (·.createDirAll dir)) t = .ok () t' ∧
      t'.Holds dir (some (listing.getD fun _ => none)) ∧ ChangedIn dir t t' := by
  cases listing with
  | none =>
    obtain ⟨t', hok, hholds, hchanged⟩ := createDirAll_holds h hway
    refine ⟨t', (if_neg ?_).trans (io_ok hok), hholds, hchanged⟩
    rw [pathExists, holds_none.mp h]
    exact Bool.false_ne_true
  | some files =>
    exact ⟨t, if_pos h.exists, h, changedIn_of_inside h.isDir fun _ _ => rfl⟩

theorem removeOld_ok (h : t.Holds dir (some files)) (name : Text) : ∃ t',
      ifExists c (dir ++ [name]) (io c (·.removeFile (dir ++ [name]))) t = .ok () t' ∧
      t'.Holds dir (some (Function.update files name none)) ∧ ChangedIn dir t t' := by
  have hnode : t.node (dir ++ [name]) = (files name).map .file := h [name]
  cases hname : files name with
  | none =>
    rw [hname] at hnode
    have hupdate : Function.update files name none = files := by
      rw [← hname, Function.update_eq_self]
    refine ⟨t, if_neg ?_, hupdate.symm ▸ h, changedIn_of_inside h.isDir fun _ _ => rfl⟩
    rw [pathExists, hnode]
    exact Bool.false_ne_true
  | some content =>
    obtain ⟨t', hok, hholds, hsame⟩ := removeFile_holds h hname
    refine ⟨t', (if_pos ?_).trans (io_ok hok), hholds, changedIn_of_inside h.isDir hsame⟩
    rw [pathExists, hnode, hname]
    rfl

end

theorem storeTransaction_ends (hctx : ctx.Clear) (h : Represents c ctx t a) (name : Text)
    (tx : c.Transaction) : ∃ t', Ends ctx t a (.storeTransaction name tx) t' := by
  obtain ⟨hmodules, hscripts, htransactions⟩ := mem_outputs ctx
  obtain ⟨h12, h13, h23⟩ := hctx.apart_of
  obtain ⟨t1, hcreate, hholds1, hchanged1⟩ := ifMissing_ok (c := c) h.transactions
    (h.ways _ (List.mem_cons_of_mem _ htransactions))
  obtain ⟨t2, hremove, hholds2, hchanged2⟩ := removeOld_ok (c := c) hholds1
    (setExtension name "mvt".toList)
  have hchanged := hchanged1.trans hchanged2
  have hleft : ∀ {t' : FileTree Bytes} {files : Text → Option Bytes},
      t'.Holds ctx.transactionOutput (some files) → ChangedIn ctx.transactionOutput t t' →
      Represents c ctx t' { a with transactions := some files } ∧
        ∀ q, ctx.Outside q → t'.node q = t.node q := by
    intro t' files hholds hchanged
    have hkept := hchanged.keptApart
    obtain ⟨modules, hmoduleFiles, hlists⟩ := h.modules
    obtain ⟨scripts, hscriptFiles, hlists'⟩ := h.scripts
    refine ⟨⟨?_, ?_, hholds, h.ways.changedIn hctx htransactions hchanged hholds.isDir⟩,
      fun q hq => hkept q (hq.2 _ htransactions)⟩
    · exact ⟨modules, hmoduleFiles.frame hkept h13.symm, hlists⟩
    · exact ⟨scripts, hscriptFiles.frame hkept h23.symm, hlists'⟩
  cases hbytes : c.toBytes tx with
  | ok bytes =>
    obtain ⟨t3, hwrite, hholds3, hsame3⟩ := writeFile_holds hholds2 (setExtension name "mvt".toList) bytes
    rw [Function.update_idem] at hholds3
    obtain ⟨hrepresents, hkept⟩ := hleft hholds3
      (hchanged.trans (changedIn_of_inside hholds2.isDir hsame3))
    refine ⟨t3, ?_, ?_, fun q hq _ => hkept q hq⟩
    · rw [Step.apply, storeTransaction, Effects.bind_ok hcreate, Effects.bind_ok hremove,
        Step.failure, hbytes]
      exact io_ok hwrite
    · rw [Outputs.apply, hbytes]
      exact hrepresents
  | error e =>
    obtain ⟨hrepresents, hkept⟩ := hleft hholds2 hchanged
    refine ⟨t2, ?_, ?_, fun q hq _ => hkept q hq⟩
    · rw [Step.apply, storeTransaction, Effects.bind_ok hcreate, Effects.bind_ok hremove,
        Step.failure, hbytes]
      rfl
    · rw [Outputs.apply, hbytes]
      exact hrepresents

theorem apply_ends (hctx : ctx.Clear) (h : Represents c ctx t a) (step : Step c ctx) :
    ∃ t', Ends ctx t a step t' := by
  cases step with
  | elsewhere e => exact ⟨_, elsewhere_ends h e⟩
  | verifyAndStore compiledUnits => exact verifyAndStore_ends hctx h compiledUnits
  | clean => exact clean_ends hctx h
  | storeTransaction name tx => exact storeTransaction_ends hctx h name tx

/-- After any steps the outputs hold what was last stored there since the last clean, each step has
failed or not for its own reasons, and no step has changed anything outside but by what happened
elsewhere. -/
theorem run_represents (hctx : ctx.Clear) (h : Represents c ctx t a) (steps : List (Step c ctx)) :
    Represents c ctx (run c ctx t steps).1 (steps.foldl Outputs.apply a) ∧
      (run c ctx t steps).2 = steps.map Step.failure ∧
      ∀ q, ctx.Outside q → (∀ step ∈ steps, step.Leaves q) →
        (run c ctx t steps).1.node q = t.node q := by
  induction steps generalizing t a with
  | nil => exact ⟨h, rfl, fun _ _ _ => rfl⟩
  | cons step steps ih =>
    obtain ⟨t', hresult, hrepresents, hkept⟩ := apply_ends hctx h step
    obtain ⟨hrun, hfailures, hrest⟩ := ih hrepresents
    have hstep : run c ctx t (step :: steps) =
        ((run c ctx t' steps).1, step.failure :: (run c ctx t' steps).2) := by
      rw [run, hresult]
      cases step.failure <;> rfl
    rw [hstep]
    refine ⟨hrun, congrArg _ hfailures, fun q hq hleaves => ?_⟩
    obtain ⟨hthis, hthose⟩ := List.forall_mem_cons.mp hleaves
    exact (hrest q hq hthose).trans (hkept q hq hthis)

end

section
variable {c : Codec} {ctx : Context} {t : FileTree Bytes} {a : Outputs c}

theorem Represents.module_file (h : Represents c ctx t a) {idx : ℕ} {unit : c.CompiledUnit}
    (hunit : a.modules[idx]? = some unit) :
    t.node (ctx.moduleOutput ++ [unitFile c idx unit]) = some (.file (c.serialize unit)) := by
  obtain ⟨files, hholds, hlists⟩ := h.modules
  have hne : a.modules ≠ [] := by
    intro hnil
    rw [hnil] at hunit
    cases hunit
  rw [Lists, if_neg hne] at hlists
  obtain ⟨m, rfl, hm⟩ := hlists
  rw [hholds, Listing.node, (hm _ _).mpr ⟨idx, unit, hunit, rfl, rfl⟩]
  rfl

end

/-! ### Modules that are no longer built -/

def nameCodec : Codec where
  CompiledUnit := Text × Bool
  Transaction := Bytes
  Error := Empty
  isModule := Prod.snd
  name := Prod.fst
  serialize unit := if unit.2 then [77] else [83]
  verifyUnits units := (units, [])
  toBytes := .ok

def defaultContext : Context where
  projectName := "project".toList
  moduleOutput := ["target".toList, "modules".toList]
  scriptOutput := ["target".toList, "scripts".toList]
  transactionOutput := ["target".toList, "transactions".toList]
  target := ["target".toList]

def emptyTree : FileTree Bytes where
  node q := if q = [] then some .dir else none
  root := rfl
  parent p name h := absurd (if_neg (by simp)) h

theorem emptyTree_node {q : Path} (hq : q ≠ []) : emptyTree.node q = none := if_neg hq

theorem defaultContext_clear : defaultContext.Clear where
  apart := by
    unfold Context.outputs Apart
    decide
  target_ne := by decide
  target p hp := by
    have hall : ∀ p ∈ defaultContext.outputs, defaultContext.target <+: p := by decide
    exact .inl (hall p hp)

theorem emptyTree_represents :
    Represents nameCodec defaultContext emptyTree ⟨[], [], none⟩ where
  modules := ⟨none, holds_none.mpr (emptyTree_node (by decide)), lists_nil⟩
  scripts := ⟨none, holds_none.mpr (emptyTree_node (by decide)), lists_nil⟩
  transactions := holds_none.mpr (emptyTree_node (by decide))
  ways p _ q _ := by
    rw [isFile]
    by_cases hq : q = []
    · rw [hq, emptyTree.root]
    · rw [emptyTree_node hq]

/-- The index is written to the directory of the project. -/
def writesIndex : Elsewhere defaultContext :=
  .writing [] ".Dove.man".toList [0] fun p hp => by
    have hall : ∀ p ∈ defaultContext.target :: defaultContext.outputs,
        ¬p <+: [".Dove.man".toList] ∧ ¬[".Dove.man".toList] <+: p := by decide
    exact hall p hp

/-- Where no modules are stored, those that were stored before are left. -/
theorem run_represents_stale : (run nameCodec defaultContext emptyTree
      [.elsewhere writesIndex, .verifyAndStore [("M".toList, true), ("main".toList, false)],
        .elsewhere writesIndex, .verifyAndStore [("main".toList, false)]]).1.node
      ["target".toList, "modules".toList, "0_M.mv".toList] = some (.file [77]) := by
  have hfile : "0_M.mv".toList = unitFile nameCodec 0 ("M".toList, true) := by decide
  rw [hfile]
  have h := (run_represents defaultContext_clear emptyTree_represents
    [.elsewhere writesIndex, .verifyAndStore [("M".toList, true), ("main".toList, false)],
      .elsewhere writesIndex, .verifyAndStore [("main".toList, false)]]).1
  exact h.module_file (show _ = some (("M".toList, true) : Text × Bool) from rfl)

end MoveTools.Dove.Artifacts
