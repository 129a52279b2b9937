import MoveTools.Compat.BinaryFormat
import MoveTools.Compat.Mutator

namespace MoveTools.Compat

structure Cursor where
  bytes : List UInt8
  position : ℕ

def Cursor.setPosition (cur : Cursor) (position : ℕ) : Cursor := { cur with position }

inductive SignatureToken where
  | Bool | U8 | U64 | U128 | Address | Signer
  | Vector (element : SignatureToken)
  | Struct (index : ℕ)
  | StructInstantiation (index : ℕ) (typeArguments : List SignatureToken)
  | Reference (inner : SignatureToken)
  | MutableReference (inner : SignatureToken)
  | TypeParameter (index : ℕ)

/-- What `adapt` takes from the vm crate. Errors are their rendered texts. -/
structure Vm where
  checkBinary : Cursor → Except String Cursor
  readU8 : Cursor → Except String (UInt8 × Cursor)
  readUleb128AsU64 : Cursor → Except String (ℕ × Cursor)
  writeU64AsUleb128 : ℕ → Except String (List UInt8)
  loadSignatureToken : Cursor → Except String (SignatureToken × Cursor)
  loadConstantSize : Cursor → Except String (ℕ × Cursor)

/-- `outOfFuel` is a run that has not ended yet. -/
inductive Failure where
  | error (text : String)
  | panic
  | outOfFuel
  deriving DecidableEq, Repr

/-- `AccountAddress::LENGTH` of the dfinance build. -/
def DFIN_ADDR_LEN : ℕ := 20

def LIBRA_ADDR_LEN : ℕ := 16

def asU32 (n : ℕ) : ℕ := n % 2 ^ 32

def addU32 (a b : ℕ) : ℕ := (a + b) % 2 ^ 32

def subU32 (a b : ℕ) : ℕ := (a + 2 ^ 32 - b) % 2 ^ 32

/-- The cursor is moved into a table, and back to `oldPos` when the context is dropped. -/
structure TableContext where
  cursor : Cursor
  oldPos : ℕ
  len : ℕ

namespace TableContext

def new (cursor : Cursor) (offset len : ℕ) : TableContext :=
  { cursor := cursor.setPosition offset, oldPos := cursor.position, len }

def position (ctx : TableContext) : ℕ := ctx.cursor.position

def drop (ctx : TableContext) : Cursor := ctx.cursor.setPosition ctx.oldPos

end TableContext

section
variable (vm : Vm)

def orFail {α : Type} (r : Except String α) : Except Failure α := r.mapError Failure.error

def makeUleb128Diff (startPos endPos newOffset : ℕ) (mutator : Mutator) :
    Except Failure Mutator := do
  let binary ← orFail (vm.writeU64AsUleb128 newOffset)
  return mutator.makeDiff startPos endPos binary

def skipHeaders : ℕ → Cursor → Except Failure Cursor
  | 0, cur => .ok cur
  | n + 1, cur => do
    let (_, cur) ← orFail (vm.readU8 cur)
    let (_, cur) ← orFail (vm.readUleb128AsU64 cur)
    let (_, cur) ← orFail (vm.readUleb128AsU64 cur)
    skipHeaders n cur

def calcHeaderSize (cur : Cursor) (tableLen : ℕ) : Except Failure (ℕ × Cursor) := do
  let start := asU32 cur.position
  let cur ← skipHeaders vm tableLen cur
  let stop := asU32 cur.position
  return (subU32 stop start, cur.setPosition start)

section
variable (addrLen : ℕ)

def handleAddressIdentifiers (ctx : TableContext) (mutator : Mutator) : ℕ × Mutator :=
  if ctx.len % LIBRA_ADDR_LEN = 0 then
    let indices := List.range' 0 ((ctx.len + LIBRA_ADDR_LEN - 1) / LIBRA_ADDR_LEN) LIBRA_ADDR_LEN
    let mutator := indices.foldl (fun mutator idx =>
      let index := ctx.position + idx
      mutator.makeDiff index index [0, 0, 0, 0]) mutator
    (ctx.len / LIBRA_ADDR_LEN * (addrLen - LIBRA_ADDR_LEN), mutator)
  else (0, mutator)

/-- `while ctx.cursor.position() < end_offset`, in at most `fuel` tests. -/
def constPoolLoop (endOffset : ℕ) :
    ℕ → Cursor → ℕ → Mutator → Except Failure (ℕ × Mutator)
  | 0, _, _, _ => .error .outOfFuel
  | fuel + 1, cursor, additionalOffset, mutator =>
    if cursor.position < endOffset then do
      let (type, cursor) ← orFail (vm.loadSignatureToken cursor)
      let sizeStartOffset := cursor.position
      let (size, cursor) ← orFail (vm.loadConstantSize cursor)
      let size := asU32 size
      let sizeEndOffset := cursor.position
      match type with
      | .Address =>
        let diffSize := addrLen - LIBRA_ADDR_LEN
        let mutator ←
          makeUleb128Diff vm sizeStartOffset sizeEndOffset (addU32 size diffSize) mutator
        let additionalOffset := addU32 additionalOffset diffSize
        let index := cursor.position
        let mutator := mutator.makeDiff index index [0, 0, 0, 0]
        constPoolLoop endOffset fuel (cursor.setPosition (cursor.position + size))
          additionalOffset mutator
      | _ =>
        constPoolLoop endOffset fuel (cursor.setPosition (cursor.position + size))
          additionalOffset mutator
    else .ok (additionalOffset, mutator)

def handleConstPool (fuel : ℕ) (ctx : TableContext) (mutator : Mutator) :
    Except Failure (ℕ × Mutator) :=
  constPoolLoop vm addrLen (ctx.position + ctx.len) fuel ctx.cursor 0 mutator

def handleTable (fuel : ℕ) (kind : UInt8) (ctx : TableContext) (mutator : Mutator) :
    Except Failure (ℕ × Mutator) :=
  if kind = TableType.ADDRESS_IDENTIFIERS then .ok (handleAddressIdentifiers addrLen ctx mutator)
  else if kind = TableType.CONSTANT_POOL then handleConstPool vm addrLen fuel ctx mutator
  else .ok (0, mutator)

/-- What the loop over the table headers carries. -/
structure DiffState where
  cur : Cursor
  mutator : Mutator
  additionalOffset : ℕ

def makeTableDiff (fuel headerLen headerSize : ℕ) (s : DiffState) : Except Failure DiffState := do
  let (kind, cur) ← orFail (vm.readU8 s.cur)
  let startPos := cur.position
  let (offset, cur) ← orFail (vm.readUleb128AsU64 cur)
  let offset := asU32 offset
  let mutator ←
    (if s.additionalOffset > 0 then
      makeUleb128Diff vm startPos cur.position (addU32 offset s.additionalOffset) s.mutator
    else .ok s.mutator)
  let lenStartPos := cur.position
  let (len, cur) ← orFail (vm.readUleb128AsU64 cur)
  let len := asU32 len
  let lenEndPos := cur.position
  let ctx := TableContext.new cur (addU32 (addU32 offset headerSize) headerLen) len
  let (offsetDiff, mutator) ← handleTable vm addrLen fuel kind ctx mutator
  let mutator ←
    (if offsetDiff > 0 then makeUleb128Diff vm lenStartPos lenEndPos (addU32 len offsetDiff) mutator
    else .ok mutator)
  return { cur := ctx.drop, mutator, additionalOffset := addU32 s.additionalOffset offsetDiff }

def makeTableDiffs (fuel headerLen headerSize : ℕ) : ℕ → DiffState → Except Failure DiffState
  | 0, s => .ok s
  | n + 1, s => do
    let s ← makeTableDiff vm addrLen fuel headerLen headerSize s
    makeTableDiffs fuel headerLen headerSize n s

def makeDiff (fuel : ℕ) (cur : Cursor) (mutator : Mutator) : Except Failure Mutator := do
  let (tableLen, cur) ← orFail (vm.readUleb128AsU64 cur)
  let headerLen := asU32 cur.position
  let (headerSize, cur) ← calcHeaderSize vm cur tableLen
  let s ← makeTableDiffs vm addrLen fuel headerLen headerSize tableLen
    { cur, mutator, additionalOffset := 0 }
  return s.mutator

/-- `adapt` in a build with addresses of `addrLen` bytes. The result is the bytes afterwards, when
`Ok(())` is returned. `fuel` bounds the rounds in one constant pool. -/
def adaptFor (fuel : ℕ) (bytes : List UInt8) : Except Failure (List UInt8) := do
  let cur ← orFail (vm.checkBinary { bytes, position := 0 })
  let mutator ← makeDiff vm addrLen fuel cur Mutator.new
  match mutator.mutate bytes with
  | some bytes => return bytes
  | none => throw .panic

end

def adapt : ℕ → List UInt8 → Except Failure (List UInt8) := adaptFor vm DFIN_ADDR_LEN

end

def ConstantType.token : ConstantType → SignatureToken
  | .Bool => .Bool
  | .U8 => .U8
  | .U64 => .U64
  | .U128 => .U128
  | .Address => .Address
  | .Vector element => .Vector element.token

/-- The bytes `w` lie at the cursor. -/
def Cursor.At (cur : Cursor) (w : List UInt8) : Prop := w <+: cur.bytes.drop cur.position

def Cursor.skip (cur : Cursor) (w : List UInt8) : Cursor :=
  cur.setPosition (cur.position + w.length)

/-- The functions of the vm crate read and write the binary format, within the limits of the
loader. -/
structure Vm.FollowsFormat (vm : Vm) (limits : Limits) : Prop where
  check_binary : ∀ {bytes}, preamble <+: bytes →
    vm.checkBinary ⟨bytes, 0⟩ = .ok ⟨bytes, preamble.length⟩
  read_u8 : ∀ {cur b}, cur.At [b] → vm.readU8 cur = .ok (b, cur.skip [b])
  read_uleb128_as_u64 : ∀ {cur n}, n < 2 ^ 64 → cur.At (Uleb.write n) →
    vm.readUleb128AsU64 cur = .ok (n, cur.skip (Uleb.write n))
  write_u64_as_uleb128 : ∀ {n}, n < 2 ^ 64 → vm.writeU64AsUleb128 n = .ok (Uleb.write n)
  load_signature_token : ∀ {cur} {t : ConstantType}, t.depth ≤ limits.signatureTokenDepthMax →
    cur.At t.write → vm.loadSignatureToken cur = .ok (t.token, cur.skip t.write)
  load_constant_size : ∀ {cur n}, n ≤ limits.constantSizeMax → cur.At (Uleb.write n) →
    vm.loadConstantSize cur = .ok (n, cur.skip (Uleb.write n))
  constant_size_max : DFIN_ADDR_LEN ≤ limits.constantSizeMax

end MoveTools.Compat
