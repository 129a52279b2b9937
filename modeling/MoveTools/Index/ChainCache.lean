import Mathlib.Order.WellFoundedSet
import Mathlib.Order.Filter.Finite
import Mathlib.Order.Filter.AtTopBot.Basic
import MoveTools.Index.Chain
import MoveTools.Index.Resolve
import MoveTools.Library.Effects
import MoveTools.Library.KeyStore

namespace MoveTools.Index.ChainCache
open Effects
open Disassembler (CompiledModule Bytecode displayAddress)
open Resolve (Stop)

abbrev Bytes := List UInt8

/-- A script in bytecode, with what the disassembler writes for it. -/
structure CompiledScript where
  code : List Bytecode
  text : Text

inductive CompiledUnit where
  | Script (script : CompiledScript)
  | Module (module : CompiledModule)

/-- What the cache does not decide itself. The requests to the chain, the orders in which sets are
visited and the writes are numbered: each has an answer of its own. -/
structure World where
  deserializeModule : Bytes → Except String CompiledModule
  deserializeScript : Bytes → Except String CompiledScript
  ids : Identifiers
  sha3 : Bytes → Bytes
  parseUri : Text → Except String Text
  load : ℕ → Text → ModuleId → Except String Bytes
  visit : ℕ → List ModuleId → List ModuleId
  writable : ℕ → Text → Except String Unit

/-! ### Dependencies -/

/-- `BytecodeUses::extract`: every handle but the first. -/
def extract (ids : Identifiers) (module : CompiledModule) : Extract Unit :=
  forM module.moduleHandles.tail fun handle => insertImport ids ⟨handle.address, handle.name⟩

section
variable (w : World)

def extractBytecodeDependencies (bytecode : Bytes) : Except String (List ModuleId) := do
  let module ← w.deserializeModule bytecode
  let (_, imports) ← (extract w.ids module).run []
  return imports

def loadAsModule (bytecode : Bytes) : Except String CompiledUnit :=
  (w.deserializeModule bytecode).map .Module

/-- `CompiledUnit::new` -/
def unitNew (bytecode : Bytes) : Except String CompiledUnit :=
  match w.deserializeScript bytecode with
  | .ok script => if script.code ≠ [] then .ok (.Script script) else loadAsModule w bytecode
  | .error _ => loadAsModule w bytecode

end

def CompiledUnit.codeString : CompiledUnit → Text
  | .Script script => script.text
  | .Module module => Chain.codeString module

/-! ### Files -/

def PREFIX : Text := "chain".toList

/-- What is hashed: the name, then the address. -/
def localNameBytes (moduleName : ModuleId) : Bytes :=
  moduleName.name.toByteArray.data.toList ++ moduleName.address

def makeLocalName (sha3 : Bytes → Bytes) (moduleName : ModuleId) : Text :=
  PREFIX ++ '_' :: Hex.encodeLower ((sha3 (localNameBytes moduleName)).map UInt8.toNat)

def makePath (w : World) (depsDir : Text) (moduleId : ModuleId) : Text :=
  depsDir ++ '/' :: makeLocalName w.sha3 moduleId

/-- The files, and the number of questions asked so far. -/
structure State where
  files : Text → Option Bytes
  clock : ℕ

/-- A program that may fail. What it has written by then stays. -/
abbrev Program := EStateM Stop State

def ask {α : Type} (answer : ℕ → Except String α) : Program α := fun s =>
  match answer s.clock with
  | .ok a => .ok a { s with clock := s.clock + 1 }
  | .error message => .error (.error message) { s with clock := s.clock + 1 }

def liftExcept {α : Type} : Except String α → Program α
  | .ok a => pure a
  | .error message => throw (.error message)

/-- The file is not truncated when it is opened: what is longer than the new content stays. -/
def overwrite (content old : Bytes) : Bytes := content ++ old.drop content.length

def put (path : Text) (content : Bytes) : Program Unit :=
  modify fun s => { s with
    files := KeyStore.put s.files (path, some (overwrite content ((s.files path).getD []))) }

def pathExists (path : Text) : Program Bool := fun s => .ok (s.files path).isSome s

/-! ### The cache -/

section
variable (w : World) (depsDir : Text)

/-- The body of `load_tree`. The dependencies are written first, whether they are cached or not. -/
def loadModule (loadTree : ModuleId → Program Unit) (url : Text) (moduleId : ModuleId) :
    Program Unit := do
  let bytecode ← ask fun t => w.load t url moduleId
  let imports ← liftExcept (extractBytecodeDependencies w bytecode)
  let imports ← ask fun t => .ok (w.visit t imports)
  forM imports loadTree
  let unit ← liftExcept (unitNew w bytecode)
  ask fun t => w.writable t (makePath w depsDir moduleId)
  put (makePath w depsDir moduleId) (String.ofList unit.codeString).toByteArray.data.toList

def loadTree (url : Text) : ℕ → ModuleId → Program Unit
  | 0, _ => throw .outOfFuel
  | fuel + 1, moduleId => loadModule w depsDir (loadTree url fuel) url moduleId

/-- A call: the address of the chain in the manifest, and the module that is looked for. -/
structure Call where
  blockchainApi : Option Text
  moduleId : ModuleId

def notResolved (moduleId : ModuleId) : String :=
  "Failed to resolve module[" ++ String.ofList (displayAddress moduleId.address) ++ "::" ++
    moduleId.name ++ "]"

def resolve (fuel : ℕ) (call : Call) : Program Text := do
  let dep := makePath w depsDir call.moduleId
  if ← pathExists dep then return dep
  match call.blockchainApi with
  | some chainUrl =>
    let url ← liftExcept (w.parseUri chainUrl)
    loadTree w depsDir url fuel call.moduleId
    return dep
  | none => throw (.error (notResolved call.moduleId))

/-- The state that a call leaves behind, whatever it returns. -/
def after (fuel : ℕ) (s : State) (call : Call) : State :=
  match resolve w depsDir fuel call s with
  | .ok _ s' => s'
  | .error _ s' => s'

end
section
variable (w : World) (depsDir : Text)

/-- The chain has the bytecode of the module. -/
def Published (m : ModuleId) : Prop := ∃ t url bytecode, w.load t url m = .ok bytecode

def DependsOn (m k : ModuleId) : Prop :=
  ∃ t url bytecode imports, w.load t url m = .ok bytecode ∧
    extractBytecodeDependencies w bytecode = .ok imports ∧ k ∈ imports

abbrev Reaches : ModuleId → ModuleId → Prop := Relation.ReflTransGen (DependsOn w)

def Cached (m : ModuleId) (s : State) : Prop := (s.files (makePath w depsDir m)).isSome

/-- With a module, everything below it is in the cache. -/
def Closed (s : State) : Prop :=
  ∀ m k, Cached w depsDir m s → Reaches w m k → Cached w depsDir k s

/-- A finite, acyclic graph of modules, which does not change. A set is visited member by member,
all addresses have one length, and no two modules have one hash. -/
structure World.Consistent : Prop where
  stable : ∀ {t t' url url' m bytecode bytecode'}, w.load t url m = .ok bytecode →
    w.load t' url' m = .ok bytecode' → bytecode = bytecode'
  finite : {m | Published w m}.Finite
  acyclic : ∀ m, ¬Relation.TransGen (DependsOn w) m m
  visits : ∀ t imports, (w.visit t imports).Perm imports
  sameLength : ∀ {m m'}, Published w m → Published w m' → m.address.length = m'.address.length
  noCollision : Set.InjOn w.sha3 (localNameBytes '' {m | Published w m})

end

section
variable {w : World} {depsDir : Text} {m k : ModuleId} {s : State} {α : Type}

/-! ### Paths -/

theorem localNameBytes_injective (hlen : m.address.length = k.address.length)
    (h : localNameBytes m = localNameBytes k) : m = k := by
  obtain ⟨hname, haddress⟩ := List.append_inj' h hlen
  have hname : m.name = k.name :=
    String.toByteArray_inj.mp (ByteArray.ext (Array.toList_inj.mp hname))
  cases m
  cases k
  exact congrArg₂ ModuleId.mk haddress hname

theorem makePath_injective (hw : w.Consistent) (hm : Published w m) (hk : Published w k)
    (h : makePath w depsDir m = makePath w depsDir k) : m = k := by
  have hhex := List.append_cancel_left h
  simp only [makeLocalName, List.cons.injEq, true_and] at hhex
  have hhex := List.append_cancel_left hhex
  simp only [List.cons.injEq, true_and] at hhex
  have hsha := Hex.encodeLower_bytes_injective hhex
  have hname := hw.noCollision (Set.mem_image_of_mem _ hm) (Set.mem_image_of_mem _ hk) hsha
  exact localNameBytes_injective (hw.sameLength hm hk) hname

/-! ### The graph -/

theorem dependsOn_iff (hw : w.Consistent) {t : ℕ} {url : Text} {bytecode : Bytes}
    {imports : List ModuleId} (hload : w.load t url m = .ok bytecode)
    (hdeps : extractBytecodeDependencies w bytecode = .ok imports) :
    DependsOn w m k ↔ k ∈ imports := by
  constructor
  · intro h
    obtain ⟨t', url', bytecode', imports', hload', hdeps', hk⟩ := h
    obtain rfl := hw.stable hload hload'
    cases hdeps.symm.trans hdeps'
    exact hk
  · intro hk
    exact ⟨t, url, bytecode, imports, hload, hdeps, hk⟩

theorem DependsOn.published (h : DependsOn w m k) : Published w m := by
  obtain ⟨t, url, bytecode, _, hload, _⟩ := h
  exact ⟨t, url, bytecode, hload⟩

theorem acc_dependsOn (hw : w.Consistent) (m : ModuleId) :
    Acc (fun k m => DependsOn w m k) m := by
  let below (k m : ModuleId) : Prop := Relation.TransGen (DependsOn w) m k
  have hirrefl : Std.Irrefl below := ⟨hw.acyclic⟩
  have htrans : IsTrans ModuleId below := ⟨fun _ _ _ h h' => h'.trans h⟩
  have horder : IsStrictOrder ModuleId below := ⟨⟩
  have hwf := hw.finite.wellFoundedOn (r := below)
  have hpublished : ∀ m, Published w m → Acc (fun k m => DependsOn w m k) m := by
    intro m hm
    refine hwf.induction hm fun m _ ih => Acc.intro m fun k hk => ?_
    by_cases hkp : Published w k
    · exact ih k hkp (.single hk)
    · exact Acc.intro k fun j hj => absurd hj.published hkp
  by_cases hm : Published w m
  · exact hpublished m hm
  · exact Acc.intro m fun k hk => absurd hk.published hm

/-- It is enough to look one step down. -/
theorem closed_of_step (h : ∀ m k, Cached w depsDir m s → DependsOn w m k → Cached w depsDir k s) :
    Closed w depsDir s := by
  intro m k hm hk
  induction hk with
  | refl => exact hm
  | tail _ hstep ih => exact h _ _ ih hstep

end
/-! ### One download -/

section
variable {w : World} {depsDir : Text} {m k : ModuleId} {α : Type} {P : State → Prop}
  {E : Stop → State → Prop}

theorem ask_spec (answer : ℕ → Except String α)
    (hclock : ∀ s, P s → P { s with clock := s.clock + 1 })
    (hE : ∀ message s, P s → E (.error message) s) :
    Triple P (ask answer) (fun a s => P s ∧ ∃ t, answer t = .ok a) E := by
  intro s hs
  unfold ask
  cases h : answer s.clock with
  | ok a => exact ⟨hclock s hs, s.clock, h⟩
  | error message => exact hE message _ (hclock s hs)

theorem liftExcept_spec {x : Except String α} (hE : ∀ message s, P s → E (.error message) s) :
    Triple P (liftExcept x) (fun a s => P s ∧ x = .ok a) E := by
  intro s hs
  cases x with
  | ok a => exact ⟨hs, rfl⟩
  | error message => exact hE message s hs

/-- The cache is closed, and has the files `paths`. -/
def Holds (w : World) (depsDir : Text) (paths : Set Text) (s : State) : Prop :=
  Closed w depsDir s ∧ ∀ path ∈ paths, (s.files path).isSome

variable {paths : Set Text}

theorem put_isSome {path : Text} {content : Bytes} {s s' : State} {p : Text}
    (h : put path content s = .ok () s') :
    (s'.files p).isSome ↔ p = path ∨ (s.files p).isSome := by
  cases h
  by_cases hp : p = path
  · simp [KeyStore.put, hp]
  · simp [KeyStore.put, hp]

theorem put_spec (hw : w.Consistent) (hm : Published w m) {content : Bytes} :
    Triple (fun s => Holds w depsDir paths s ∧ ∀ k, DependsOn w m k → Cached w depsDir k s)
      (put (makePath w depsDir m) content)
      (fun _ s => Holds w depsDir paths s ∧ Cached w depsDir m s)
      (fun _ s => Holds w depsDir paths s) := by
  apply Triple.intro
  · intro s hs _ s' h
    obtain ⟨⟨hclosed, hpaths⟩, hdeps⟩ := hs
    have hfiles (p : Text) := put_isSome (p := p) h
    refine ⟨⟨closed_of_step fun j k hj hk => ?_, fun p hp => (hfiles p).mpr (.inr (hpaths p hp))⟩,
      (hfiles _).mpr (.inl rfl)⟩
    apply (hfiles _).mpr
    apply Or.inr
    rcases (hfiles _).mp hj with hpath | hj
    · obtain rfl := makePath_injective hw hk.published hm hpath
      exact hdeps k hk
    · exact hclosed j k hj (.single hk)
  · intro s _ e s' h
    cases h

theorem forM_spec {g : ModuleId → Program Unit} {modules : List ModuleId}
    (h : ∀ k ∈ modules, ∀ paths, Triple (Holds w depsDir paths) (g k)
      (fun _ s => Holds w depsDir paths s ∧ Cached w depsDir k s)
      (fun _ s => Holds w depsDir paths s)) :
    Triple (Holds w depsDir paths) (forM modules g)
      (fun _ s => Holds w depsDir paths s ∧ ∀ k ∈ modules, Cached w depsDir k s)
      (fun _ s => Holds w depsDir paths s) := by
  induction modules generalizing paths with
  | nil => exact Triple.pure fun s hs => ⟨hs, fun k hk => absurd hk List.not_mem_nil⟩
  | cons k modules ih =>
    have hk := h k List.mem_cons_self paths
    have hrest (paths : Set Text) := @ih paths fun j hj => h j (List.mem_cons_of_mem k hj)
    apply hk.bind
    intro _
    apply (hrest (insert (makePath w depsDir k) paths)).consequence
    · intro s hs
      refine ⟨hs.1.1, fun path hpath => ?_⟩
      rcases hpath with rfl | hpath
      · exact hs.2
      · exact hs.1.2 path hpath
    · intro _ s hs
      refine ⟨⟨hs.1.1, fun path hpath => hs.1.2 path (Set.mem_insert_of_mem _ hpath)⟩, ?_⟩
      intro j hj
      rcases List.mem_cons.mp hj with rfl | hj
      · exact hs.1.2 _ (Set.mem_insert _ _)
      · exact hs.2 j hj
    · intro _ s hs
      exact ⟨hs.1, fun path hpath => hs.2 path (Set.mem_insert_of_mem _ hpath)⟩

/-- What is downloaded is closed wherever the download may stop. -/
theorem loadTree_spec (hw : w.Consistent) (url : Text) (fuel : ℕ) :
    Triple (Holds w depsDir paths) (loadTree w depsDir url fuel m)
      (fun _ s => Holds w depsDir paths s ∧ Cached w depsDir m s)
      (fun _ s => Holds w depsDir paths s) := by
  induction fuel generalizing m paths with
  | zero => exact Triple.throw fun s hs => hs
  | succ fuel ih =>
    apply (ask_spec _ (fun s hs => hs) fun _ s hs => hs).bind
    intro bytecode
    apply Triple.of_fact
    intro hload
    obtain ⟨t, hload⟩ := hload
    apply (liftExcept_spec fun _ s hs => hs).bind
    intro imports
    apply Triple.of_fact
    intro hdeps
    apply (ask_spec _ (fun s hs => hs) fun _ s hs => hs).bind
    intro visited
    apply Triple.of_fact
    intro hvisit
    obtain ⟨t', hvisit⟩ := hvisit
    have hmem (k : ModuleId) : DependsOn w m k ↔ k ∈ visited := by
      rw [dependsOn_iff hw hload hdeps, ← Except.ok.inj hvisit]
      exact (hw.visits t' imports).mem_iff.symm
    apply (forM_spec fun k _ paths => ih).bind
    intro _
    -- the file of the module itself comes last
    apply (liftExcept_spec fun _ s hs => hs.1).bind
    intro unit
    apply Triple.of_fact
    intro _
    have hask (answer : ℕ → Except String Unit) :=
      ask_spec answer (P := fun s => Holds w depsDir paths s ∧
        ∀ k ∈ visited, Cached w depsDir k s) (E := fun _ s => Holds w depsDir paths s)
        (fun s hs => hs) (fun _ s hs => hs.1)
    apply (hask (fun t => w.writable t (makePath w depsDir m))).bind
    intro _
    apply (put_spec hw ⟨t, url, bytecode, hload⟩).consequence
    · exact fun s hs => ⟨hs.1.1, fun k hk => hs.1.2 k ((hmem k).mp hk)⟩
    · exact fun _ s hs => hs
    · exact fun _ s hs => hs

end

/-! ### Where a download ends -/

section
variable {w : World} {depsDir : Text} {m k : ModuleId} {α : Type}

/-- The program does not run out of fuel. -/
def Returns (x : Program α) : Prop :=
  Triple (fun _ => True) x (fun _ _ => True) (fun e _ => e ≠ .outOfFuel)

theorem Returns.bind {β : Type} {x : Program α} {f : α → Program β} (hx : Returns x)
    (hf : ∀ a, Returns (f a)) : Returns (x >>= f) :=
  Triple.bind hx hf

theorem returns_ask (answer : ℕ → Except String α) : Returns (ask answer) :=
  (ask_spec answer (fun _ hs => hs) fun _ _ _ => Stop.noConfusion).consequence (fun _ hs => hs)
    (fun _ _ _ => trivial) (fun _ _ h => h)

theorem returns_liftExcept (x : Except String α) : Returns (liftExcept x) :=
  (liftExcept_spec fun _ _ _ => Stop.noConfusion).consequence (fun _ hs => hs)
    (fun _ _ _ => trivial) (fun _ _ h => h)

theorem returns_forM {g : ModuleId → Program Unit} {modules : List ModuleId}
    (h : ∀ k ∈ modules, Returns (g k)) : Returns (forM modules g) := by
  induction modules with
  | nil => exact Triple.pure fun _ _ => trivial
  | cons k modules ih =>
    apply (h k List.mem_cons_self).bind
    intro _
    exact ih fun j hj => h j (List.mem_cons_of_mem k hj)

theorem loadModule_returns {g : ModuleId → Program Unit} (h : ∀ k, Returns (g k)) (url : Text) :
    Returns (loadModule w depsDir g url m) := by
  refine (returns_ask _).bind fun bytecode => ?_
  refine (returns_liftExcept _).bind fun imports => ?_
  refine (returns_ask _).bind fun visited => ?_
  refine (returns_forM fun k _ => h k).bind fun _ => ?_
  refine (returns_liftExcept _).bind fun unit => ?_
  refine (returns_ask _).bind fun _ => ?_
  exact Triple.intro (fun _ _ _ _ _ => trivial) (fun _ _ _ _ h => by cases h)

/-- A download is made of downloads of dependencies. -/
theorem loadModule_congr (hw : w.Consistent) {g g' : ModuleId → Program Unit}
    (h : ∀ k, DependsOn w m k → g k = g' k) (url : Text) :
    loadModule w depsDir g url m = loadModule w depsDir g' url m := by
  apply bind_congr_ok
  intro s bytecode s' hload
  obtain ⟨t, hload⟩ : ∃ t, w.load t url m = .ok bytecode :=
    ((ask_spec _ (fun _ hs => hs) fun _ _ _ => trivial).ok (P := fun _ => True)
      (E := fun _ _ => True) trivial hload).2
  apply bind_congr_ok
  intro s imports s' hdeps
  have hdeps : extractBytecodeDependencies w bytecode = .ok imports :=
    ((liftExcept_spec fun _ _ _ => trivial).ok (P := fun _ => True) (E := fun _ _ => True)
      trivial hdeps).2
  apply bind_congr_ok
  intro s visited s' hvisit
  obtain ⟨t', hvisit⟩ : ∃ t', Except.ok (w.visit t' imports) = Except.ok visited :=
    ((ask_spec _ (fun _ hs => hs) fun _ _ _ => trivial).ok (P := fun _ => True)
      (E := fun _ _ => True) trivial hvisit).2
  rw [forM_congr]
  intro k hk
  apply h
  rw [← Except.ok.inj hvisit] at hk
  exact (dependsOn_iff hw hload hdeps).mpr ((hw.visits t' imports).mem_iff.mp hk)

theorem finite_dependsOn (hw : w.Consistent) (m : ModuleId) : {k | DependsOn w m k}.Finite := by
  by_cases h : ∃ k, DependsOn w m k
  · obtain ⟨_, t, url, bytecode, imports, hload, hdeps, _⟩ := h
    exact imports.finite_toSet.subset fun k hk => (dependsOn_iff hw hload hdeps).mp hk
  · apply Set.finite_empty.subset
    exact fun k hk => h ⟨k, hk⟩

variable (w depsDir m) in
/-- From some fuel on, the download of the module is one and the same program, which returns. -/
def Ends : Prop :=
  ∃ r : Text → Program Unit, (∀ url, Returns (r url)) ∧
    ∀ᶠ fuel in Filter.atTop, ∀ url, loadTree w depsDir url fuel m = r url

theorem ends_of_dependsOn (hw : w.Consistent) (h : ∀ k, DependsOn w m k → Ends w depsDir k) :
    Ends w depsDir m := by
  have hprograms : ∀ k, ∃ r : Text → Program Unit, (∀ url, Returns (r url)) ∧
      (DependsOn w m k → ∀ᶠ fuel in Filter.atTop, ∀ url, loadTree w depsDir url fuel k = r url) := by
    intro k
    by_cases hk : DependsOn w m k
    · obtain ⟨r, hr, hfuel⟩ := h k hk
      exact ⟨r, hr, fun _ => hfuel⟩
    · exact ⟨fun _ => pure (), fun _ => Triple.pure fun _ _ => trivial, fun hk' => absurd hk' hk⟩
  choose r hr hfuel using hprograms
  refine ⟨fun url => loadModule w depsDir (fun k => r k url) url m,
    fun url => loadModule_returns (fun k => hr k url) url, ?_⟩
  obtain ⟨N, hN⟩ := Filter.eventually_atTop.mp
    ((Filter.eventually_all_finite (finite_dependsOn hw m)).mpr hfuel)
  refine Filter.eventually_atTop.mpr ⟨N + 1, fun fuel hle url => ?_⟩
  obtain ⟨n, rfl⟩ := Nat.exists_eq_add_of_le' hle
  exact loadModule_congr hw (fun k hk => hN (n + N) (Nat.le_add_left N n) k hk url) url

theorem loadTree_ends (depsDir : Text) (hw : w.Consistent) (m : ModuleId) : Ends w depsDir m := by
  induction acc_dependsOn hw m with
  | intro m _ ih => exact ends_of_dependsOn hw ih

theorem exists_fuel (depsDir : Text) (hw : w.Consistent) : ∃ N, ∀ fuel ≥ N, ∀ m url,
    loadTree w depsDir url fuel m = loadTree w depsDir url N m ∧
      Returns (loadTree w depsDir url N m) := by
  choose r hr hfuel using loadTree_ends depsDir hw
  obtain ⟨N, hN⟩ := Filter.eventually_atTop.mp
    ((Filter.eventually_all_finite hw.finite).mpr fun m _ => hfuel m)
  refine ⟨N + 1, fun fuel hle m url => ?_⟩
  by_cases hm : Published w m
  · rw [hN fuel (by omega) m hm, hN (N + 1) (by omega) m hm]
    exact ⟨rfl, hr m url⟩
  · obtain ⟨n, rfl⟩ := Nat.exists_eq_add_of_le' hle
    have hleaf (g g' : ModuleId → Program Unit) :
        loadModule w depsDir g url m = loadModule w depsDir g' url m :=
      loadModule_congr hw (fun k hk => absurd hk.published hm) url
    refine ⟨hleaf _ _, ?_⟩
    rw [loadTree, hleaf _ fun _ => pure ()]
    exact loadModule_returns (fun _ => Triple.pure fun _ _ => trivial) url

end

/-! ### Calls -/

section
variable {w : World} {depsDir : Text} {call : Call} {calls : List Call} {s₀ : State}

theorem Holds.closed {paths : Set Text} {s : State} (h : Holds w depsDir paths s) :
    Closed w depsDir s := h.1

theorem holds_empty {s : State} (h : Closed w depsDir s) : Holds w depsDir ∅ s :=
  ⟨h, fun _ hp => absurd hp (Set.notMem_empty _)⟩

/-- One call keeps the cache closed. If it returns, the whole tree of the module is there. -/
theorem resolve_spec (hw : w.Consistent) (fuel : ℕ) (call : Call) :
    Triple (Closed w depsDir) (resolve w depsDir fuel call)
      (fun path s => Closed w depsDir s ∧ path = makePath w depsDir call.moduleId ∧
        ∀ k, Reaches w call.moduleId k → Cached w depsDir k s)
      (fun _ s => Closed w depsDir s) := by
  have hexists : Triple (Closed w depsDir) (pathExists (makePath w depsDir call.moduleId))
      (fun found s => Closed w depsDir s ∧ (found = true → Cached w depsDir call.moduleId s))
      (fun _ s => Closed w depsDir s) :=
    fun s hs => ⟨hs, fun hfound => hfound⟩
  apply hexists.bind
  intro found
  cases found with
  | true => exact Triple.pure fun s hs => ⟨hs.1, rfl, fun k hk => hs.1 _ k (hs.2 rfl) hk⟩
  | false =>
    cases hurl : call.blockchainApi with
    | none => exact Triple.throw fun s hs => hs.1
    | some chainUrl =>
      apply Triple.bind (Q := fun _ => Closed w depsDir)
      · exact (liftExcept_spec fun _ s hs => hs).consequence (fun _ h => h.1)
          (fun _ _ h => h.1) (fun _ _ h => h)
      · intro url
        apply ((loadTree_spec hw url fuel).consequence (fun _ => holds_empty) (fun _ _ h => h)
          fun _ s h => h.closed).bind
        intro _
        apply Triple.pure
        intro s hs
        exact ⟨hs.1.closed, rfl, fun k hk => hs.1.closed _ k hs.2 hk⟩

theorem after_closed (hw : w.Consistent) (fuel : ℕ) (call : Call) {s : State}
    (hs : Closed w depsDir s) : Closed w depsDir (after w depsDir fuel s call) := by
  unfold after
  split
  · next h => exact ((resolve_spec hw fuel call).ok hs h).1
  · next h => exact (resolve_spec hw fuel call).error hs h

theorem calls_closed (hw : w.Consistent) (fuel : ℕ) (hstart : ∀ m, ¬Cached w depsDir m s₀)
    (calls : List Call) : Closed w depsDir (calls.foldl (after w depsDir fuel) s₀) := by
  apply List.foldlRecOn (motive := Closed w depsDir)
  · exact fun m k hm => absurd hm (hstart m)
  · exact fun s hs call _ => after_closed hw fuel call hs

/-- A call does not depend on the fuel if there is enough of it. -/
theorem resolve_returns {N fuel : ℕ} (h : ∀ m url,
    loadTree w depsDir url fuel m = loadTree w depsDir url N m ∧
      Returns (loadTree w depsDir url N m)) (call : Call) :
    resolve w depsDir fuel call = resolve w depsDir N call ∧
      Returns (resolve w depsDir N call) := by
  constructor
  · simp only [resolve, (h _ _).1]
  · apply Triple.bind (Q := fun _ _ => True)
    · exact fun s hs => trivial
    · intro found
      split
      · exact Triple.pure fun _ _ => trivial
      · split
        · refine (returns_liftExcept _).bind fun url => ?_
          refine (h _ url).2.bind fun _ => ?_
          exact Triple.pure fun _ _ => trivial
        · exact Triple.throw fun _ _ => Stop.noConfusion

theorem chainCache_closed (w : World) (depsDir : Text) (s₀ : State) (hw : w.Consistent)
    (hstart : ∀ m, ¬Cached w depsDir m s₀) :
    ∃ N, ∀ fuel ≥ N,
      (∀ call s, resolve w depsDir fuel call s = resolve w depsDir N call s ∧
        ∀ s', resolve w depsDir fuel call s ≠ .error .outOfFuel s') ∧
      ∀ calls : List Call, Closed w depsDir (calls.foldl (after w depsDir fuel) s₀) ∧
        ∀ call path s',
          resolve w depsDir fuel call (calls.foldl (after w depsDir fuel) s₀) = .ok path s' →
            path = makePath w depsDir call.moduleId ∧
              ∀ k, Reaches w call.moduleId k → Cached w depsDir k s' := by
  obtain ⟨N, hN⟩ := exists_fuel depsDir hw
  refine ⟨N, fun fuel hfuel => ⟨fun call s => ?_, fun calls => ?_⟩⟩
  · obtain ⟨heq, hreturns⟩ := resolve_returns (hN fuel hfuel) call
    refine ⟨congrFun heq s, fun s' h => ?_⟩
    rw [heq] at h
    exact hreturns.error trivial h rfl
  · have hclosed := calls_closed hw fuel hstart calls
    exact ⟨hclosed, fun call path s' h => ((resolve_spec hw fuel call).ok hclosed h).2⟩

end

/-! ### A chain with two modules -/

def idM : ModuleId := ⟨DefinitionMeta.CORE_CODE_ADDRESS 20, "M"⟩

def idN : ModuleId := ⟨DefinitionMeta.CORE_CODE_ADDRESS 20, "N"⟩

def moduleM : CompiledModule where
  moduleHandles := [⟨idM.address, idM.name⟩, ⟨idN.address, idN.name⟩]
  selfModuleHandle := 0
  structs := []
  functions := []

def moduleN : CompiledModule where
  moduleHandles := [⟨idN.address, idN.name⟩]
  selfModuleHandle := 0
  structs := []
  functions := []

/-- The preamble, the headers of three tables, the tables, and the index of the own handle. -/
def bytecodeM : Bytes :=
  [0xA1, 0x1C, 0xEB, 0x0B, 1, 0, 0, 0, 3, 1, 0, 4, 7, 4, 4, 8, 8, 20, 0, 0, 0, 1, 1, 77, 1, 78] ++
    idM.address ++ [0]

def bytecodeN : Bytes :=
  [0xA1, 0x1C, 0xEB, 0x0B, 1, 0, 0, 0, 3, 1, 0, 2, 7, 2, 2, 8, 4, 20, 0, 0, 1, 78] ++
    idN.address ++ [0]

def hashM : Bytes :=
  [0xc1, 0xa3, 0xde, 0x39, 0x09, 0x06, 0xce, 0x44, 0x91, 0x99, 0x0c, 0xc2, 0xb4, 0x04, 0xf4, 0xa1,
    0x65, 0x34, 0xb3, 0x3d, 0xa4, 0xf1, 0x70, 0xb9, 0xb5, 0x58, 0x25, 0x5b, 0x3a, 0x9d, 0x46, 0xc2]

def hashN : Bytes :=
  [0xe8, 0x45, 0x59, 0xec, 0x54, 0x22, 0x2c, 0x9f, 0xc1, 0x69, 0xd8, 0x9a, 0xe9, 0x40, 0x9e, 0x1a,
    0x79, 0x05, 0x80, 0x40, 0x09, 0x3a, 0xde, 0xad, 0xdc, 0x7a, 0x2c, 0x63, 0xd8, 0x48, 0xbb, 0xa3]

def twoModules : World where
  deserializeModule bytecode :=
    if bytecode = bytecodeM then .ok moduleM
    else if bytecode = bytecodeN then .ok moduleN else .error "BAD_MAGIC"
  deserializeScript _ := .error "MALFORMED"
  ids := ⟨fun _ => true⟩
  sha3 bytes :=
    if bytes = localNameBytes idM then hashM
    else if bytes = localNameBytes idN then hashN else []
  parseUri url := .ok url
  load t _ m :=
    if t = 2 then .error "timeout"
    else if m = idM then .ok bytecodeM
    else if m = idN then .ok bytecodeN else .error "not found"
  visit _ imports := imports
  writable _ _ := .ok ()

theorem twoModules_load {t : ℕ} {url : Text} {m : ModuleId} {bytecode : Bytes}
    (h : twoModules.load t url m = .ok bytecode) :
    m = idM ∧ bytecode = bytecodeM ∨ m = idN ∧ bytecode = bytecodeN := by
  simp only [twoModules] at h
  split_ifs at h with _ hM hN
  · exact .inl ⟨hM, (Except.ok.inj h).symm⟩
  · exact .inr ⟨hN, (Except.ok.inj h).symm⟩

theorem twoModules_dependsOn {m k : ModuleId} (h : DependsOn twoModules m k) :
    m = idM ∧ k = idN := by
  obtain ⟨t, url, bytecode, imports, hload, hdeps, hk⟩ := h
  rcases twoModules_load hload with ⟨rfl, rfl⟩ | ⟨rfl, rfl⟩
  · obtain rfl : [idN] = imports := Except.ok.inj hdeps
    exact ⟨rfl, List.mem_singleton.mp hk⟩
  · obtain rfl : [] = imports := Except.ok.inj hdeps
    cases hk

theorem twoModules_consistent : twoModules.Consistent where
  stable h h' := by
    rcases twoModules_load h with ⟨rfl, rfl⟩ | ⟨rfl, rfl⟩
    · exact (twoModules_load h').elim (fun hM => hM.2.symm) fun hN => absurd hN.1 (by decide)
    · exact (twoModules_load h').elim (fun hM => absurd hM.1 (by decide)) fun hN => hN.2.symm
  finite := by
    apply Set.Finite.subset (Set.toFinite {idM, idN})
    intro m hm
    obtain ⟨t, url, bytecode, hload⟩ := hm
    exact (twoModules_load hload).imp And.left And.left
  acyclic m h := by
    obtain ⟨k, hmk, _⟩ := Relation.TransGen.head'_iff.mp h
    obtain ⟨j, _, hjm⟩ := Relation.TransGen.tail'_iff.mp h
    have hM := (twoModules_dependsOn hmk).1
    have hN := (twoModules_dependsOn hjm).2
    exact absurd (hM.symm.trans hN) (by decide)
  visits _ _ := .refl _
  sameLength h h' := by
    obtain ⟨_, _, _, hload⟩ := h
    obtain ⟨_, _, _, hload'⟩ := h'
    rcases twoModules_load hload with ⟨rfl, _⟩ | ⟨rfl, _⟩ <;>
      rcases twoModules_load hload' with ⟨rfl, _⟩ | ⟨rfl, _⟩ <;> rfl
  noCollision := by
    intro x hx y hy h
    obtain ⟨m, ⟨_, _, _, hload⟩, rfl⟩ := hx
    obtain ⟨k, ⟨_, _, _, hload'⟩, rfl⟩ := hy
    rcases twoModules_load hload with ⟨rfl, _⟩ | ⟨rfl, _⟩ <;>
      rcases twoModules_load hload' with ⟨rfl, _⟩ | ⟨rfl, _⟩
    · rfl
    · exact absurd h (by decide)
    · exact absurd h (by decide)
    · rfl

def emptyCache : State := ⟨fun _ => none, 0⟩

theorem chainCache_closed_twoModules : ∃ N, ∀ fuel ≥ N,
    (∀ call s, resolve twoModules ".deps".toList fuel call s =
        resolve twoModules ".deps".toList N call s ∧
      ∀ s', resolve twoModules ".deps".toList fuel call s ≠ .error .outOfFuel s') ∧
    ∀ calls : List Call, Closed twoModules ".deps".toList
        (calls.foldl (after twoModules ".deps".toList fuel) emptyCache) ∧
      ∀ call path s', resolve twoModules ".deps".toList fuel call
          (calls.foldl (after twoModules ".deps".toList fuel) emptyCache) = .ok path s' →
        path = makePath twoModules ".deps".toList call.moduleId ∧
          ∀ k, Reaches twoModules call.moduleId k → Cached twoModules ".deps".toList k s' :=
  chainCache_closed twoModules ".deps".toList emptyCache twoModules_consistent
    fun _ => Bool.false_ne_true

end MoveTools.Index.ChainCache
