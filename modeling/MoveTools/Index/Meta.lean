import MoveTools.Library.Collect
import MoveTools.Syntax.Ast

namespace MoveTools.Index
open Syntax Collect

structure ModuleId where
  address : Address
  name : String
  deriving DecidableEq, Repr

/-- The set of imports that is built, or an error. -/
abbrev Extract := CollectM ModuleId String

structure DefinitionMeta where
  moduleId : ModuleId
  imports : List ModuleId
  deriving DecidableEq, Repr

/-- `Identifier::is_valid` of `move_core_types`. -/
structure Identifiers where
  isValid : String → Bool

section
variable (ids : Identifiers)

def invalidIdentifier (name : String) : String := "Invalid identifier '" ++ name ++ "'"

/-- `Identifier::new` -/
def identifierNew (name : String) : Except String String :=
  if ids.isValid name then .ok name else .error (invalidIdentifier name)

/-- `self.imports.insert(Rc::new(ModuleId::new(address, Identifier::new(name)?)))` -/
def insertImport (ident : ModuleIdent) : Extract Unit :=
  insertChecked (if ids.isValid ident.name then .ok ⟨ident.address, ident.name⟩
    else .error (invalidIdentifier ident.name))

def uses : Use → Extract Unit
  | .Module ident _ => insertImport ids ident
  | .Members ident _ => insertImport ids ident

def usesAll : List Use → Extract Unit
  | [] => pure ()
  | u :: us => do
    uses ids u
    usesAll us

def accessUsages : ModuleAccess → Extract Unit
  | .QualifiedModuleAccess ident _ => insertImport ids ident
  | .ModuleAccess _ _ => pure ()
  | .Name _ => pure ()

mutual

def sTypeUsages : Typ → Extract Unit
  | .Apply access args => do
    accessUsages ids access
    sTypesUsages args
  | .Ref _ type => sTypeUsages type
  | .Fun args result => do
    sTypesUsages args
    sTypeUsages result
  | .Unit => pure ()
  | .Multiple types => sTypesUsages types

def sTypesUsages : List Typ → Extract Unit
  | [] => pure ()
  | t :: ts => do
    sTypeUsages t
    sTypesUsages ts

end

/-- Like `s_type_usages`, in another order. -/
def typeUsages : Typ → Extract Unit
  | .Unit => pure ()
  | .Multiple types => sTypesUsages ids types
  | .Apply access args => do
    sTypesUsages ids args
    accessUsages ids access
  | .Ref _ type => sTypeUsages ids type
  | .Fun args result => do
    sTypeUsages ids result
    sTypesUsages ids args

def optTypeUsages : Option Typ → Extract Unit
  | none => pure ()
  | some t => typeUsages ids t

def typeArgsUsages : Option (List Typ) → Extract Unit
  | none => pure ()
  | some ts => sTypesUsages ids ts

mutual

/-- Without type arguments, the bindings of the fields are passed over as well. -/
def bindUsages : Bind → Extract Unit
  | .Var _ => pure ()
  | .Unpack access none _ => accessUsages ids access
  | .Unpack access (some typeArgs) fields => do
    accessUsages ids access
    sTypesUsages ids typeArgs
    fieldBindsUsages fields

def fieldBindsUsages : List FieldBind → Extract Unit
  | [] => pure ()
  | .mk _ bind :: fields => do
    bindUsages bind
    fieldBindsUsages fields

end

def bindListUsages : List Bind → Extract Unit
  | [] => pure ()
  | b :: bs => do
    bindUsages ids b
    bindListUsages bs

mutual

def expUsages : Exp → Extract Unit
  | .Value _ | .Move _ | .Copy _ | .Unit | .Break | .Continue | .Lambda _ _ | .Spec | .Index _ _
  | .InferredNum _ | .UnresolvedError => pure ()
  | .Call access typeArgs args => do
    accessUsages ids access
    typeArgsUsages ids typeArgs
    expsUsages args
  | .Pack access typeArgs fields => do
    accessUsages ids access
    typeArgsUsages ids typeArgs
    fieldExpsUsages fields
  | .IfElse condition ifTrue ifFalse => do
    expUsages condition
    expUsages ifTrue
    optExpUsages ifFalse
  | .While condition body => do
    expUsages condition
    expUsages body
  | .Block seq => seqUsages seq
  | .ExpList exps => expsUsages exps
  | .Assign target value => do
    expUsages target
    expUsages value
  | .Abort e | .Dereference e | .Loop e | .UnaryExp e | .Borrow _ e | .Dot e _ | .Annotate e _ =>
    expUsages e
  | .Return value => optExpUsages value
  | .BinopExp left right => do
    expUsages left
    expUsages right
  | .Name access typeArgs => do
    accessUsages ids access
    typeArgsUsages ids typeArgs
  | .Cast e type => do
    expUsages e
    sTypeUsages ids type

def expsUsages : List Exp → Extract Unit
  | [] => pure ()
  | e :: es => do
    expUsages e
    expsUsages es

def optExpUsages : Option Exp → Extract Unit
  | none => pure ()
  | some e => expUsages e

def fieldExpsUsages : List FieldExp → Extract Unit
  | [] => pure ()
  | .mk _ e :: fields => do
    expUsages e
    fieldExpsUsages fields

def itemUsages : SequenceItem → Extract Unit
  | .Seq e => expUsages e
  | .Declare binds type => do
    bindListUsages ids binds
    optTypeUsages ids type
  | .Bind binds type e => do
    bindListUsages ids binds
    optTypeUsages ids type
    expUsages e

def itemsUsages : List SequenceItem → Extract Unit
  | [] => pure ()
  | item :: items => do
    itemUsages item
    itemsUsages items

def seqUsages : Sequence → Extract Unit
  | .mk us items last => do
    usesAll ids us
    itemsUsages items
    optExpUsages last

end

def parametersUsages : List (String × Typ) → Extract Unit
  | [] => pure ()
  | (_, t) :: parameters => do
    typeUsages ids t
    parametersUsages parameters

def fieldsUsages : List (String × Typ) → Extract Unit
  | [] => pure ()
  | (_, t) :: fields => do
    sTypeUsages ids t
    fieldsUsages fields

def signatureUsages (signature : FunctionSignature) : Extract Unit := do
  parametersUsages ids signature.parameters
  typeUsages ids signature.returnType

def internalUsages : FunctionBody → Extract Unit
  | .Defined seq => seqUsages ids seq
  | .Native => pure ()

def functionUsages (function : Function) : Extract Unit := do
  signatureUsages ids function.signature
  internalUsages ids function.body

def constantUsages (constant : Constant) : Extract Unit := do
  typeUsages ids constant.signature
  expUsages ids constant.value

def memberUsages : ModuleMember → Extract Unit
  | .Use u => uses ids u
  | .Function function => functionUsages ids function
  | .Struct struct =>
    match struct.fields with
    | .Defined fields => fieldsUsages ids fields
    | .Native => pure ()
  | .Spec => pure ()
  | .Constant constant => constantUsages ids constant

def membersUsages : List ModuleMember → Extract Unit
  | [] => pure ()
  | m :: ms => do
    memberUsages ids m
    membersUsages ms

namespace DefinitionMeta

def module (m : ModuleDefinition) (address : Address) : Except String DefinitionMeta := do
  let name ← identifierNew ids m.name
  let (_, imports) ← (membersUsages ids m.members).run []
  return ⟨⟨address, name⟩, imports⟩

/-- `random` is the number drawn for the name. -/
def script (random : ℕ) (s : Script) (address : Address) : Except String DefinitionMeta := do
  let name ← identifierNew ids ("scripts_" ++ s.function.name ++ "_" ++ toString random)
  let (_, imports) ← (do usesAll ids s.uses; functionUsages ids s.function : Extract Unit).run []
  return ⟨⟨address, name⟩, imports⟩

/-- The address at which Move's own modules are published. -/
def CORE_CODE_ADDRESS (length : ℕ) : Address := List.replicate (length - 1) 0 ++ [1]

/-- `length` is `AccountAddress::LENGTH`. -/
def fromDefinition (length random : ℕ) (address : Option Address) :
    Definition → Except String (List DefinitionMeta)
  | .Module m =>
    match address with
    | some addr => (module ids m addr).map ([·])
    | none => .error ("Address not defined for module " ++ m.name)
  | .Address addr modules => modules.mapM fun m => module ids m addr
  | .Script s => (script ids random s (address.getD (CORE_CODE_ADDRESS length))).map ([·])

end DefinitionMeta
end
end MoveTools.Index
