import MoveTools.Index.Meta

namespace MoveTools.Index.Imports
open Syntax Collect

/-! The modules that a definition names. With `all`, everywhere; without it, not in the places
that the extraction passes over: the type of an annotation, lambdas, index expressions, the fields
of a pattern without type arguments, and the constants of a script. -/

def ofIdent (ident : ModuleIdent) : ModuleId := ⟨ident.address, ident.name⟩

def ofUse : Use → List ModuleId
  | .Module ident _ => [ofIdent ident]
  | .Members ident _ => [ofIdent ident]

def ofAccess : ModuleAccess → List ModuleId
  | .QualifiedModuleAccess ident _ => [ofIdent ident]
  | .ModuleAccess _ _ => []
  | .Name _ => []

mutual

def ofType : Typ → List ModuleId
  | .Unit => []
  | .Multiple types => ofTypes types
  | .Apply access args => ofAccess access ++ ofTypes args
  | .Ref _ type => ofType type
  | .Fun args result => ofTypes args ++ ofType result

def ofTypes : List Typ → List ModuleId
  | [] => []
  | t :: ts => ofType t ++ ofTypes ts

end

def ofOptType : Option Typ → List ModuleId
  | none => []
  | some t => ofType t

def ofTypeArgs : Option (List Typ) → List ModuleId
  | none => []
  | some ts => ofTypes ts

variable (all : Bool)

/-- What stands in a place that is passed over. -/
def passedOver (names : List ModuleId) : List ModuleId := if all then names else []

mutual

def ofBind : Bind → List ModuleId
  | .Var _ => []
  | .Unpack access none fields => ofAccess access ++ passedOver all (ofFieldBinds fields)
  | .Unpack access (some typeArgs) fields =>
    ofAccess access ++ (ofTypes typeArgs ++ ofFieldBinds fields)

def ofFieldBinds : List FieldBind → List ModuleId
  | [] => []
  | .mk _ bind :: fields => ofBind bind ++ ofFieldBinds fields

end

def ofBinds : List Bind → List ModuleId
  | [] => []
  | b :: bs => ofBind all b ++ ofBinds bs

mutual

/-- Specifications are left aside. -/
def ofExp : Exp → List ModuleId
  | .Value _ | .InferredNum _ | .Move _ | .Copy _ | .Unit | .Break | .Continue | .Spec
  | .UnresolvedError => []
  | .Name access typeArgs => ofAccess access ++ ofTypeArgs typeArgs
  | .Call access typeArgs args => ofAccess access ++ (ofTypeArgs typeArgs ++ ofExps args)
  | .Pack access typeArgs fields => ofAccess access ++ (ofTypeArgs typeArgs ++ ofFieldExps fields)
  | .IfElse condition ifTrue ifFalse => ofExp condition ++ (ofExp ifTrue ++ ofOptExp ifFalse)
  | .While condition body => ofExp condition ++ ofExp body
  | .Loop body => ofExp body
  | .Block seq => ofSequence seq
  | .Lambda binds body => passedOver all (ofBinds all binds ++ ofExp body)
  | .ExpList exps => ofExps exps
  | .Assign target value => ofExp target ++ ofExp value
  | .Return value => ofOptExp value
  | .Abort e => ofExp e
  | .Dereference e => ofExp e
  | .UnaryExp e => ofExp e
  | .BinopExp left right => ofExp left ++ ofExp right
  | .Borrow _ e => ofExp e
  | .Dot e _ => ofExp e
  | .Index e index => passedOver all (ofExp e ++ ofExp index)
  | .Cast e type => ofExp e ++ ofType type
  | .Annotate e type => ofExp e ++ passedOver all (ofType type)

def ofExps : List Exp → List ModuleId
  | [] => []
  | e :: es => ofExp e ++ ofExps es

def ofOptExp : Option Exp → List ModuleId
  | none => []
  | some e => ofExp e

def ofFieldExps : List FieldExp → List ModuleId
  | [] => []
  | .mk _ e :: fields => ofExp e ++ ofFieldExps fields

def ofItem : SequenceItem → List ModuleId
  | .Seq e => ofExp e
  | .Declare binds type => ofBinds all binds ++ ofOptType type
  | .Bind binds type e => ofBinds all binds ++ (ofOptType type ++ ofExp e)

def ofItems : List SequenceItem → List ModuleId
  | [] => []
  | item :: items => ofItem item ++ ofItems items

def ofSequence : Sequence → List ModuleId
  | .mk us items last => us.flatMap ofUse ++ (ofItems items ++ ofOptExp last)

end

def ofFields (fields : List (String × Typ)) : List ModuleId := fields.flatMap fun x => ofType x.2

def ofSignature (signature : FunctionSignature) : List ModuleId :=
  ofFields signature.parameters ++ ofType signature.returnType

def ofBody : FunctionBody → List ModuleId
  | .Defined seq => ofSequence all seq
  | .Native => []

def ofFunction (function : Function) : List ModuleId :=
  ofSignature function.signature ++ ofBody all function.body

def ofConstant (constant : Constant) : List ModuleId :=
  ofType constant.signature ++ ofExp all constant.value

def ofMember : ModuleMember → List ModuleId
  | .Use u => ofUse u
  | .Function function => ofFunction all function
  | .Struct ⟨_, .Defined fields⟩ => ofFields fields
  | .Struct ⟨_, .Native⟩ => []
  | .Spec => []
  | .Constant constant => ofConstant all constant

def ofModule (m : ModuleDefinition) : List ModuleId := m.members.flatMap (ofMember all)

def ofScript (s : Script) : List ModuleId :=
  s.uses.flatMap ofUse ++
    (passedOver all (s.constants.flatMap (ofConstant all)) ++ ofFunction all s.function)

/-- What has imports of its own. -/
inductive CodeUnit where
  | Module (m : ModuleDefinition)
  | Script (s : Script)

def units : Definition → List CodeUnit
  | .Module m => [.Module m]
  | .Address _ modules => modules.map .Module
  | .Script s => [.Script s]

def ofUnit : CodeUnit → List ModuleId
  | .Module m => ofModule all m
  | .Script s => ofScript all s

section
variable {ids : Identifiers}

abbrev Valid (ids : Identifiers) (m : ModuleId) : Prop := ids.isValid m.name = true

theorem insertImport_collects (ident : ModuleIdent) :
    Collects (Valid ids) (insertImport ids ident) [ofIdent ident] :=
  Collects.insertChecked (m := ofIdent ident)

theorem uses_collects (u : Use) : Collects (Valid ids) (uses ids u) (ofUse u) := by
  cases u <;> exact insertImport_collects _

theorem usesAll_collects (us : List Use) :
    Collects (Valid ids) (usesAll ids us) (us.flatMap ofUse) := by
  induction us with
  | nil => exact .pure
  | cons u us ih => exact (uses_collects u).seq ih

theorem accessUsages_collects (access : ModuleAccess) :
    Collects (Valid ids) (accessUsages ids access) (ofAccess access) := by
  cases access with
  | Name _ => exact .pure
  | ModuleAccess _ _ => exact .pure
  | QualifiedModuleAccess ident _ => exact insertImport_collects ident

mutual

theorem sTypeUsages_collects (t : Typ) : Collects (Valid ids) (sTypeUsages ids t) (ofType t) := by
  cases t with
  | Unit => exact .pure
  | Multiple types => exact sTypesUsages_collects types
  | Apply access args => exact (accessUsages_collects access).seq (sTypesUsages_collects args)
  | Ref _ type => exact sTypeUsages_collects type
  | Fun args result => exact (sTypesUsages_collects args).seq (sTypeUsages_collects result)

theorem sTypesUsages_collects (ts : List Typ) :
    Collects (Valid ids) (sTypesUsages ids ts) (ofTypes ts) := by
  cases ts with
  | nil => exact .pure
  | cons t ts => exact (sTypeUsages_collects t).seq (sTypesUsages_collects ts)

end

theorem typeUsages_collects (t : Typ) : Collects (Valid ids) (typeUsages ids t) (ofType t) := by
  cases t with
  | Unit => exact .pure
  | Multiple types => exact sTypesUsages_collects types
  | Apply access args =>
    apply ((sTypesUsages_collects args).seq (accessUsages_collects access)).congr
    intro m
    rw [ofType, List.mem_append, List.mem_append, or_comm]
  | Ref _ type => exact sTypeUsages_collects type
  | Fun args result =>
    apply ((sTypeUsages_collects result).seq (sTypesUsages_collects args)).congr
    intro m
    rw [ofType, List.mem_append, List.mem_append, or_comm]

theorem optTypeUsages_collects (t : Option Typ) :
    Collects (Valid ids) (optTypeUsages ids t) (ofOptType t) := by
  cases t with
  | none => exact .pure
  | some t => exact typeUsages_collects t

theorem typeArgsUsages_collects (ts : Option (List Typ)) :
    Collects (Valid ids) (typeArgsUsages ids ts) (ofTypeArgs ts) := by
  cases ts with
  | none => exact .pure
  | some ts => exact sTypesUsages_collects ts

mutual

theorem bindUsages_collects (b : Bind) :
    Collects (Valid ids) (bindUsages ids b) (ofBind false b) := by
  match b with
  | .Var _ => exact .pure
  | .Unpack access none fields =>
    apply (accessUsages_collects access).congr
    intro m
    simp [ofBind, passedOver]
  | .Unpack access (some typeArgs) fields =>
    exact (accessUsages_collects access).seq
      ((sTypesUsages_collects typeArgs).seq (fieldBindsUsages_collects fields))

theorem fieldBindsUsages_collects (fields : List FieldBind) :
    Collects (Valid ids) (fieldBindsUsages ids fields) (ofFieldBinds false fields) := by
  match fields with
  | [] => exact .pure
  | .mk _ b :: fields => exact (bindUsages_collects b).seq (fieldBindsUsages_collects fields)

end

theorem bindListUsages_collects (bs : List Bind) :
    Collects (Valid ids) (bindListUsages ids bs) (ofBinds false bs) := by
  induction bs with
  | nil => exact .pure
  | cons b bs ih => exact (bindUsages_collects b).seq ih

mutual

theorem expUsages_collects (e : Exp) :
    Collects (Valid ids) (expUsages ids e) (ofExp false e) := by
  match e with
  | .Value _ | .InferredNum _ | .Move _ | .Copy _ | .Unit | .Break | .Continue | .Spec
  | .UnresolvedError | .Lambda _ _ | .Index _ _ => exact .pure
  | .Name access typeArgs =>
    exact (accessUsages_collects access).seq (typeArgsUsages_collects typeArgs)
  | .Call access typeArgs args =>
    exact (accessUsages_collects access).seq
      ((typeArgsUsages_collects typeArgs).seq (expsUsages_collects args))
  | .Pack access typeArgs fields =>
    exact (accessUsages_collects access).seq
      ((typeArgsUsages_collects typeArgs).seq (fieldExpsUsages_collects fields))
  | .IfElse condition ifTrue ifFalse =>
    exact (expUsages_collects condition).seq
      ((expUsages_collects ifTrue).seq (optExpUsages_collects ifFalse))
  | .While condition body => exact (expUsages_collects condition).seq (expUsages_collects body)
  | .Assign target value => exact (expUsages_collects target).seq (expUsages_collects value)
  | .BinopExp left right => exact (expUsages_collects left).seq (expUsages_collects right)
  | .Block seq => exact seqUsages_collects seq
  | .ExpList exps => exact expsUsages_collects exps
  | .Return value => exact optExpUsages_collects value
  | .Loop e | .Abort e | .Dereference e | .UnaryExp e | .Borrow _ e | .Dot e _ =>
    exact expUsages_collects e
  | .Cast e type => exact (expUsages_collects e).seq (sTypeUsages_collects type)
  | .Annotate e type =>
    apply (expUsages_collects e).congr
    intro m
    simp [ofExp, passedOver]

theorem expsUsages_collects (es : List Exp) :
    Collects (Valid ids) (expsUsages ids es) (ofExps false es) := by
  match es with
  | [] => exact .pure
  | e :: es => exact (expUsages_collects e).seq (expsUsages_collects es)

theorem optExpUsages_collects (e : Option Exp) :
    Collects (Valid ids) (optExpUsages ids e) (ofOptExp false e) := by
  match e with
  | none => exact .pure
  | some e => exact expUsages_collects e

theorem fieldExpsUsages_collects (fields : List FieldExp) :
    Collects (Valid ids) (fieldExpsUsages ids fields) (ofFieldExps false fields) := by
  match fields with
  | [] => exact .pure
  | .mk _ e :: fields => exact (expUsages_collects e).seq (fieldExpsUsages_collects fields)

theorem itemUsages_collects (item : SequenceItem) :
    Collects (Valid ids) (itemUsages ids item) (ofItem false item) := by
  match item with
  | .Seq e => exact expUsages_collects e
  | .Declare binds type =>
    exact (bindListUsages_collects binds).seq (optTypeUsages_collects type)
  | .Bind binds type e =>
    exact (bindListUsages_collects binds).seq
      ((optTypeUsages_collects type).seq (expUsages_collects e))

theorem itemsUsages_collects (items : List SequenceItem) :
    Collects (Valid ids) (itemsUsages ids items) (ofItems false items) := by
  match items with
  | [] => exact .pure
  | item :: items => exact (itemUsages_collects item).seq (itemsUsages_collects items)

theorem seqUsages_collects (seq : Sequence) :
    Collects (Valid ids) (seqUsages ids seq) (ofSequence false seq) := by
  match seq with
  | .mk us items last =>
    exact (usesAll_collects us).seq
      ((itemsUsages_collects items).seq (optExpUsages_collects last))

end

theorem parametersUsages_collects (parameters : List (String × Typ)) :
    Collects (Valid ids) (parametersUsages ids parameters) (ofFields parameters) := by
  induction parameters with
  | nil => exact .pure
  | cons p parameters ih => exact (typeUsages_collects p.2).seq ih

theorem fieldsUsages_collects (fields : List (String × Typ)) :
    Collects (Valid ids) (fieldsUsages ids fields) (ofFields fields) := by
  induction fields with
  | nil => exact .pure
  | cons x fields ih => exact (sTypeUsages_collects x.2).seq ih

theorem functionUsages_collects (function : Function) :
    Collects (Valid ids) (functionUsages ids function) (ofFunction false function) := by
  obtain ⟨_, signature, body⟩ := function
  have hbody : Collects (Valid ids) (internalUsages ids body) (ofBody false body) := by
    cases body with
    | Native => exact .pure
    | Defined seq => exact seqUsages_collects seq
  exact ((parametersUsages_collects signature.parameters).seq
    (typeUsages_collects signature.returnType)).seq hbody

theorem memberUsages_collects (m : ModuleMember) :
    Collects (Valid ids) (memberUsages ids m) (ofMember false m) := by
  match m with
  | .Use u => exact uses_collects u
  | .Function function => exact functionUsages_collects function
  | .Struct ⟨_, .Defined fields⟩ => exact fieldsUsages_collects fields
  | .Struct ⟨_, .Native⟩ => exact .pure
  | .Spec => exact .pure
  | .Constant constant =>
    exact (typeUsages_collects constant.signature).seq (expUsages_collects constant.value)

theorem membersUsages_collects (ms : List ModuleMember) :
    Collects (Valid ids) (membersUsages ids ms) (ms.flatMap (ofMember false)) := by
  induction ms with
  | nil => exact .pure
  | cons m ms ih => exact (memberUsages_collects m).seq ih

end

section
variable {m : ModuleId}

mutual

theorem mem_ofBind (b : Bind) (h : m ∈ ofBind false b) : m ∈ ofBind true b := by
  match b with
  | .Var _ => exact h
  | .Unpack access none fields =>
    apply List.mem_append_left
    simpa [ofBind, passedOver] using h
  | .Unpack access (some typeArgs) fields =>
    simp only [ofBind, List.mem_append] at h ⊢
    exact h.imp_right (Or.imp_right (mem_ofFieldBinds fields))

theorem mem_ofFieldBinds (fields : List FieldBind) (h : m ∈ ofFieldBinds false fields) :
    m ∈ ofFieldBinds true fields := by
  match fields with
  | [] => exact h
  | .mk _ b :: fields =>
    simp only [ofFieldBinds, List.mem_append] at h ⊢
    exact h.imp (mem_ofBind b) (mem_ofFieldBinds fields)

end

theorem mem_ofBinds (bs : List Bind) (h : m ∈ ofBinds false bs) : m ∈ ofBinds true bs := by
  induction bs with
  | nil => exact h
  | cons b bs ih =>
    simp only [ofBinds, List.mem_append] at h ⊢
    exact h.imp (mem_ofBind b) ih

mutual

theorem mem_ofExp (e : Exp) (h : m ∈ ofExp false e) : m ∈ ofExp true e := by
  match e with
  | .Value _ | .InferredNum _ | .Move _ | .Copy _ | .Unit | .Break | .Continue | .Spec
  | .UnresolvedError => exact h
  | .Name _ _ => exact h
  | .Lambda _ _ | .Index _ _ => simp [ofExp, passedOver] at h
  | .Call access typeArgs args =>
    simp only [ofExp, List.mem_append] at h ⊢
    exact h.imp_right (Or.imp_right (mem_ofExps args))
  | .Pack access typeArgs fields =>
    simp only [ofExp, List.mem_append] at h ⊢
    exact h.imp_right (Or.imp_right (mem_ofFieldExps fields))
  | .IfElse condition ifTrue ifFalse =>
    simp only [ofExp, List.mem_append] at h ⊢
    exact h.imp (mem_ofExp condition) (Or.imp (mem_ofExp ifTrue) (mem_ofOptExp ifFalse))
  | .While e e' | .Assign e e' | .BinopExp e e' =>
    simp only [ofExp, List.mem_append] at h ⊢
    exact h.imp (mem_ofExp e) (mem_ofExp e')
  | .Block seq => exact mem_ofSequence seq h
  | .ExpList exps => exact mem_ofExps exps h
  | .Return value => exact mem_ofOptExp value h
  | .Loop e | .Abort e | .Dereference e | .UnaryExp e | .Borrow _ e | .Dot e _ =>
    exact mem_ofExp e h
  | .Cast e type =>
    simp only [ofExp, List.mem_append] at h ⊢
    exact h.imp_left (mem_ofExp e)
  | .Annotate e type =>
    apply List.mem_append_left
    apply mem_ofExp e
    simpa [ofExp, passedOver] using h

theorem mem_ofExps (es : List Exp) (h : m ∈ ofExps false es) : m ∈ ofExps true es := by
  match es with
  | [] => exact h
  | e :: es =>
    simp only [ofExps, List.mem_append] at h ⊢
    exact h.imp (mem_ofExp e) (mem_ofExps es)

theorem mem_ofOptExp (e : Option Exp) (h : m ∈ ofOptExp false e) : m ∈ ofOptExp true e := by
  match e with
  | none => exact h
  | some e => exact mem_ofExp e h

theorem mem_ofFieldExps (fields : List FieldExp) (h : m ∈ ofFieldExps false fields) :
    m ∈ ofFieldExps true fields := by
  match fields with
  | [] => exact h
  | .mk _ e :: fields =>
    simp only [ofFieldExps, List.mem_append] at h ⊢
    exact h.imp (mem_ofExp e) (mem_ofFieldExps fields)

theorem mem_ofItem (item : SequenceItem) (h : m ∈ ofItem false item) : m ∈ ofItem true item := by
  match item with
  | .Seq e => exact mem_ofExp e h
  | .Declare binds type =>
    simp only [ofItem, List.mem_append] at h ⊢
    exact h.imp_left (mem_ofBinds binds)
  | .Bind binds type e =>
    simp only [ofItem, List.mem_append] at h ⊢
    exact h.imp (mem_ofBinds binds) (Or.imp_right (mem_ofExp e))

theorem mem_ofItems (items : List SequenceItem) (h : m ∈ ofItems false items) :
    m ∈ ofItems true items := by
  match items with
  | [] => exact h
  | item :: items =>
    simp only [ofItems, List.mem_append] at h ⊢
    exact h.imp (mem_ofItem item) (mem_ofItems items)

theorem mem_ofSequence (seq : Sequence) (h : m ∈ ofSequence false seq) :
    m ∈ ofSequence true seq := by
  match seq with
  | .mk us items last =>
    simp only [ofSequence, List.mem_append] at h ⊢
    exact h.imp_right (Or.imp (mem_ofItems items) (mem_ofOptExp last))

end

theorem mem_ofFunction (function : Function) (h : m ∈ ofFunction false function) :
    m ∈ ofFunction true function := by
  simp only [ofFunction, List.mem_append] at h ⊢
  apply h.imp_right
  intro h
  cases hbody : function.body with
  | Native => simp [hbody, ofBody] at h
  | Defined seq =>
    rw [hbody] at h
    exact mem_ofSequence seq h

theorem mem_ofMember (member : ModuleMember) (h : m ∈ ofMember false member) :
    m ∈ ofMember true member := by
  match member with
  | .Use _ | .Spec => exact h
  | .Struct ⟨_, .Defined _⟩ | .Struct ⟨_, .Native⟩ => exact h
  | .Function function => exact mem_ofFunction function h
  | .Constant constant =>
    simp only [ofMember, ofConstant, List.mem_append] at h ⊢
    exact h.imp_right (mem_ofExp constant.value)

theorem mem_ofUnit (unit : CodeUnit) (h : m ∈ ofUnit false unit) : m ∈ ofUnit true unit := by
  cases unit with
  | Module module =>
    simp only [ofUnit, ofModule, List.mem_flatMap] at h ⊢
    obtain ⟨member, hmem, h⟩ := h
    exact ⟨member, hmem, mem_ofMember member h⟩
  | Script s =>
    simp only [ofUnit, ofScript, passedOver, Bool.false_eq_true, if_false, List.nil_append,
      List.mem_append] at h ⊢
    exact h.imp_right fun h => .inr (mem_ofFunction s.function h)

end

/-- The imports are the modules that the unit names. -/
def Complete (unit : CodeUnit) (meta_ : DefinitionMeta) : Prop :=
  ∀ m, m ∈ meta_.imports ↔ m ∈ ofUnit true unit

/-- Every module that is named where the extraction does not look is also named elsewhere. -/
def NamedElsewhere (unit : CodeUnit) : Prop := ∀ m ∈ ofUnit true unit, m ∈ ofUnit false unit

/-- What a unit is turned into has the imports that the extraction sees. -/
def Seen (unit : CodeUnit) (meta_ : DefinitionMeta) : Prop :=
  ∀ m, m ∈ meta_.imports ↔ m ∈ ofUnit false unit

theorem complete_iff_namedElsewhere {unit : CodeUnit} {meta_ : DefinitionMeta}
    (h : Seen unit meta_) : Complete unit meta_ ↔ NamedElsewhere unit := by
  constructor
  · intro hc m hm
    exact (h m).mp ((hc m).mpr hm)
  · intro hn m
    exact ⟨fun hm => mem_ofUnit unit ((h m).mp hm), fun hm => (h m).mpr (hn m hm)⟩

variable {ids : Identifiers}

theorem module_seen {m : ModuleDefinition} {address : Address} {meta_ : DefinitionMeta}
    (h : DefinitionMeta.module ids m address = .ok meta_) : Seen (.Module m) meta_ := by
  obtain ⟨name, _, h⟩ := bind_eq_ok.mp h
  obtain ⟨⟨_, imports⟩, hrun, h⟩ := bind_eq_ok.mp h
  cases h
  intro k
  simpa [ofUnit, ofModule] using (membersUsages_collects m.members).mem hrun k

theorem script_seen {random : ℕ} {s : Script} {address : Address} {meta_ : DefinitionMeta}
    (h : DefinitionMeta.script ids random s address = .ok meta_) : Seen (.Script s) meta_ := by
  obtain ⟨name, _, h⟩ := bind_eq_ok.mp h
  obtain ⟨⟨_, imports⟩, hrun, h⟩ := bind_eq_ok.mp h
  cases h
  intro k
  simpa [ofUnit, ofScript, passedOver] using
    ((usesAll_collects s.uses).seq (functionUsages_collects s.function)).mem hrun k

theorem fromDefinition_seen {length random : ℕ} {address : Option Address} {d : Definition}
    {metas : List DefinitionMeta}
    (h : DefinitionMeta.fromDefinition ids length random address d = .ok metas) :
    List.Forall₂ Seen (units d) metas := by
  cases d with
  | Module m =>
    cases address with
    | none => cases h
    | some addr =>
      obtain ⟨meta_, hm, rfl⟩ := map_eq_ok.mp h
      exact .cons (module_seen hm) .nil
  | Address addr modules =>
    rw [units, List.forall₂_map_left_iff]
    exact (mapM_eq_ok.mp h).imp fun _ _ => module_seen
  | Script s =>
    obtain ⟨meta_, hs, rfl⟩ := map_eq_ok.mp h
    exact .cons (script_seen hs) .nil

theorem forall₂_complete_iff {us : List CodeUnit} {metas : List DefinitionMeta}
    (h : List.Forall₂ Seen us metas) :
    List.Forall₂ Complete us metas ↔ ∀ unit ∈ us, NamedElsewhere unit := by
  induction h with
  | nil => simp
  | @cons unit meta_ us metas hseen _ ih =>
    rw [List.forall₂_cons, List.forall_mem_cons, complete_iff_namedElsewhere hseen, ih]

/-- The imports of a definition are complete if and only if what is named in the places that the
extraction passes over is named elsewhere too. -/
theorem imports_complete_iff (ids : Identifiers) (length random : ℕ) (address : Option Address)
    (d : Definition) (metas : List DefinitionMeta)
    (h : DefinitionMeta.fromDefinition ids length random address d = .ok metas) :
    List.Forall₂ Complete (units d) metas ↔ ∀ unit ∈ units d, NamedElsewhere unit :=
  forall₂_complete_iff (fromDefinition_seen h)

def coreAddress : Address := DefinitionMeta.CORE_CODE_ADDRESS 20

def annotated : Script where
  uses := []
  constants := []
  function := ⟨"main", ⟨[], [], .Unit⟩, .Defined (.mk [] []
    (some (.Annotate (.Name (.Name "x") none)
      (.Apply (.QualifiedModuleAccess ⟨coreAddress, "M"⟩ "T") []))))⟩

def anyName : Identifiers := ⟨fun _ => true⟩

theorem annotated_incomplete :
    ∃ metas, DefinitionMeta.fromDefinition anyName 20 0 none (.Script annotated) = .ok metas ∧
      ¬List.Forall₂ Complete (units (.Script annotated)) metas := by
  refine ⟨_, rfl, ?_⟩
  intro h
  have hmem : (⟨coreAddress, "M"⟩ : ModuleId) ∈ ([] : List ModuleId) :=
    ((List.forall₂_cons.mp h).1 _).mpr (by decide)
  exact List.not_mem_nil hmem

def usedAndAnnotated : Script := { annotated with uses := [.Module ⟨coreAddress, "M"⟩ none] }

theorem imports_complete_iff_used :
    List.Forall₂ Complete (units (.Script usedAndAnnotated))
      [⟨⟨coreAddress, "scripts_main_0"⟩, [⟨coreAddress, "M"⟩]⟩] := by
  apply (imports_complete_iff anyName 20 0 none (.Script usedAndAnnotated) _ rfl).mpr
  intro unit hunit
  rw [units, List.mem_singleton] at hunit
  subst hunit
  exact (by decide : ∀ m ∈ ofUnit true (.Script usedAndAnnotated),
    m ∈ ofUnit false (.Script usedAndAnnotated))

end MoveTools.Index.Imports
