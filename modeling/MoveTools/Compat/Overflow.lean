import MoveTools.Compat.Adaptation

namespace MoveTools.Compat

/-! `adapt` on any bytes. -/

/-- A number of 32 bits. Where something would get lost, the run ends as a panic. -/
def exactU32 (n : ℕ) : Except Failure ℕ := if n < 2 ^ 32 then .ok n else .error .panic

namespace Exact

section
variable (vm : Vm)

def calcHeaderSize (cur : Cursor) (tableLen : ℕ) : Except Failure (ℕ × Cursor) := do
  let start ← exactU32 cur.position
  let cur ← skipHeaders vm tableLen cur
  let stop ← exactU32 cur.position
  if start ≤ stop then return (stop - start, cur.setPosition start) else throw .panic

def constPoolLoop (endOffset : ℕ) :
    ℕ → Cursor → ℕ → Mutator → Except Failure (ℕ × Mutator)
  | 0, _, _, _ => .error .outOfFuel
  | fuel + 1, cursor, additionalOffset, mutator =>
    if cursor.position < endOffset then do
      let (type, cursor) ← orFail (vm.loadSignatureToken cursor)
      let sizeStartOffset := cursor.position
      let (size, cursor) ← orFail (vm.loadConstantSize cursor)
      let size ← exactU32 size
      let sizeEndOffset := cursor.position
      match type with
      | .Address =>
        let diffSize := DFIN_ADDR_LEN - LIBRA_ADDR_LEN
        let newSize ← exactU32 (size + diffSize)
        let mutator ← makeUleb128Diff vm sizeStartOffset sizeEndOffset newSize mutator
        let additionalOffset ← exactU32 (additionalOffset + diffSize)
        let index := cursor.position
        let mutator := mutator.makeDiff index index [0, 0, 0, 0]
        constPoolLoop endOffset fuel (cursor.setPosition (cursor.position + size))
          additionalOffset mutator
      | _ =>
        constPoolLoop endOffset fuel (cursor.setPosition (cursor.position + size))
          additionalOffset mutator
    else .ok (additionalOffset, mutator)

/-- Where a table lies is computed only for the kinds that are looked into. -/
def handleTable (fuel : ℕ) (kind : UInt8) (cur : Cursor) (offset headerSize headerLen len : ℕ)
    (mutator : Mutator) : Except Failure (ℕ × Mutator) :=
  if kind = TableType.ADDRESS_IDENTIFIERS then do
    let position ← exactU32 (offset + headerSize)
    let position ← exactU32 (position + headerLen)
    return handleAddressIdentifiers DFIN_ADDR_LEN (TableContext.new cur position len) mutator
  else if kind = TableType.CONSTANT_POOL then do
    let position ← exactU32 (offset + headerSize)
    let position ← exactU32 (position + headerLen)
    let ctx := TableContext.new cur position len
    constPoolLoop vm (ctx.position + ctx.len) fuel ctx.cursor 0 mutator
  else .ok (0, mutator)

def makeTableDiff (fuel headerLen headerSize : ℕ) (s : DiffState) : Except Failure DiffState := do
  let (kind, cur) ← orFail (vm.readU8 s.cur)
  let startPos := cur.position
  let (offset, cur) ← orFail (vm.readUleb128AsU64 cur)
  let offset ← exactU32 offset
  let mutator ←
    (if s.additionalOffset > 0 then do
      let newOffset ← exactU32 (offset + s.additionalOffset)
      makeUleb128Diff vm startPos cur.position newOffset s.mutator
    else .ok s.mutator)
  let lenStartPos := cur.position
  let (len, cur) ← orFail (vm.readUleb128AsU64 cur)
  let len ← exactU32 len
  let lenEndPos := cur.position
  let (offsetDiff, mutator) ← handleTable vm fuel kind cur offset headerSize headerLen len mutator
  let mutator ←
    (if offsetDiff > 0 then do
      let newLen ← exactU32 (len + offsetDiff)
      makeUleb128Diff vm lenStartPos lenEndPos newLen mutator
    else .ok mutator)
  let additionalOffset ← exactU32 (s.additionalOffset + offsetDiff)
  return { cur, mutator, additionalOffset }

def makeTableDiffs (fuel headerLen headerSize : ℕ) : ℕ → DiffState → Except Failure DiffState
  | 0, s => .ok s
  | n + 1, s => do
    let s ← makeTableDiff vm fuel headerLen headerSize s
    makeTableDiffs fuel headerLen headerSize n s

def makeDiff (fuel : ℕ) (cur : Cursor) (mutator : Mutator) : Except Failure Mutator := do
  let (tableLen, cur) ← orFail (vm.readUleb128AsU64 cur)
  let headerLen ← exactU32 cur.position
  let (headerSize, cur) ← calcHeaderSize vm cur tableLen
  let s ← makeTableDiffs vm fuel headerLen headerSize tableLen
    { cur, mutator, additionalOffset := 0 }
  return s.mutator

/-- What `adapt` does before it mutates the vector. -/
def prepare (fuel : ℕ) (bytes : List UInt8) : Except Failure Mutator := do
  let cur ← orFail (vm.checkBinary { bytes, position := 0 })
  makeDiff vm fuel cur Mutator.new

/-- `adapt` as a program over the vector that it changes. -/
def adapt (fuel : ℕ) : EStateM Failure (List UInt8) Unit := do
  let bytes ← get
  match prepare vm fuel bytes with
  | .error failure => throw failure
  | .ok mutator =>
    match mutator.mutate bytes with
    | some bytes => set bytes
    | none => throw .panic

/-- What `adapt` returns. -/
def outcome : EStateM.Result Failure (List UInt8) Unit → Except Failure (List UInt8)
  | .ok _ bytes => .ok bytes
  | .error failure _ => .error failure

end

end Exact

/-- The run comes to an end without a panic, with all its numbers exact. If it fails, the vector is
as it was. -/
def Safe (vm : Vm) (fuel : ℕ) (bytes : List UInt8) : Prop :=
  match Exact.adapt vm fuel bytes with
  | .ok _ _ => True
  | .error failure after => failure ≠ .panic ∧ failure ≠ .outOfFuel ∧ after = bytes

instance (vm : Vm) (fuel : ℕ) (bytes : List UInt8) : Decidable (Safe vm fuel bytes) := by
  unfold Safe
  split <;> infer_instance

/-- What the readers of the vm crate accept is in the buffer, and in the format. -/
structure Vm.Sound (vm : Vm) (limits : Limits) : Prop where
  check_binary : ∀ {bytes cur}, vm.checkBinary ⟨bytes, 0⟩ = .ok cur →
    cur = ⟨bytes, preamble.length⟩
  read_u8 : ∀ {cur b cur'}, vm.readU8 cur = .ok (b, cur') → cur.At [b] ∧ cur' = cur.skip [b]
  read_uleb128_as_u64 : ∀ {cur n cur'}, vm.readUleb128AsU64 cur = .ok (n, cur') →
    n < 2 ^ 64 ∧ cur.At (Uleb.write n) ∧ cur' = cur.skip (Uleb.write n)
  write_u64_as_uleb128 : ∀ {n}, n < 2 ^ 64 → vm.writeU64AsUleb128 n = .ok (Uleb.write n)
  load_signature_token : ∀ {cur t cur'}, vm.loadSignatureToken cur = .ok (t, cur') →
    ∃ w ≠ [], cur.At w ∧ cur' = cur.skip w
  load_constant_size : ∀ {cur n cur'}, vm.loadConstantSize cur = .ok (n, cur') →
    n ≤ limits.constantSizeMax ∧ cur.At (Uleb.write n) ∧ cur' = cur.skip (Uleb.write n)
  constant_size_max : limits.constantSizeMax < 2 ^ 16

section
variable (vm : Vm)

def readHeaders : ℕ → Cursor → Except String (List TableHeader × Cursor)
  | 0, cur => .ok ([], cur)
  | n + 1, cur => do
    let (kind, cur) ← vm.readU8 cur
    let (offset, cur) ← vm.readUleb128AsU64 cur
    let (len, cur) ← vm.readUleb128AsU64 cur
    let (hs, cur) ← readHeaders n cur
    return ((kind, offset, len) :: hs, cur)

/-- The types of the constants between the cursor and `stop`, as far as they can be read, and
whether all can. -/
def poolTypes (stop : ℕ) : ℕ → Cursor → List SignatureToken × Bool
  | 0, _ => ([], false)
  | fuel + 1, cur =>
    if cur.position < stop then
      match vm.loadSignatureToken cur with
      | .error _ => ([], false)
      | .ok (type, cur) =>
        match vm.loadConstantSize cur with
        | .error _ => ([], false)
        | .ok (size, cur) =>
          let rest := poolTypes stop fuel (cur.setPosition (cur.position + size))
          (type :: rest.1, rest.2)
    else ([], true)

def isAddress : SignatureToken → Bool
  | .Address => true
  | _ => false

/-- A table whose contents `adapt` looks at. -/
def TableHeader.Special (x : TableHeader) : Prop :=
  x.1 = TableType.ADDRESS_IDENTIFIERS ∨ x.1 = TableType.CONSTANT_POOL

variable (fuel : ℕ) (bytes : List UInt8) (contentStart : ℕ)

def typesIn (x : TableHeader) : List SignatureToken × Bool :=
  if x.1 = TableType.CONSTANT_POOL then
    poolTypes vm (x.2.1 + contentStart + x.2.2) fuel ⟨bytes, x.2.1 + contentStart⟩
  else ([], true)

def Readable (x : TableHeader) : Prop := (typesIn vm fuel bytes contentStart x).2 = true

/-- Four bytes for each address in a table, as far as it can be read. -/
def growthIn (x : TableHeader) : ℕ :=
  if x.1 = TableType.ADDRESS_IDENTIFIERS then
    if x.2.2 % LIBRA_ADDR_LEN = 0 then x.2.2 / LIBRA_ADDR_LEN * 4 else 0
  else ((typesIn vm fuel bytes contentStart x).1.filter isAddress).length * 4

structure HeaderFits (added : ℕ) (x : TableHeader) : Prop where
  offset : x.2.1 + added < 2 ^ 32
  len : x.2.2 < 2 ^ 32
  place : x.Special → x.2.1 + contentStart < 2 ^ 32
  growth : growthIn vm fuel bytes contentStart x < 2 ^ 32
  grown : Readable vm fuel bytes contentStart x →
    x.2.2 + growthIn vm fuel bytes contentStart x < 2 ^ 32 ∧
      added + growthIn vm fuel bytes contentStart x < 2 ^ 32

def HeadersFitFrom (added : ℕ) (hs : List TableHeader) : Prop :=
  ∀ before x after, hs = before ++ x :: after →
    (∀ y ∈ before, Readable vm fuel bytes contentStart y) →
      HeaderFits vm fuel bytes contentStart
        (added + (before.map (growthIn vm fuel bytes contentStart)).sum) x

end

/-- If the file has readable headers, they end below 2^32, and their numbers stay below 2^32, also
when they are grown, up to the first pool that cannot be read. -/
def FitsU32 (vm : Vm) (fuel : ℕ) (bytes : List UInt8) : Prop :=
  ∀ cur n cur' hs stop, vm.checkBinary ⟨bytes, 0⟩ = .ok cur →
    vm.readUleb128AsU64 cur = .ok (n, cur') → readHeaders vm n cur' = .ok (hs, stop) →
      stop.position < 2 ^ 32 ∧ HeadersFitFrom vm fuel bytes stop.position 0 hs

@[simp] theorem orFail_error {α : Type} (text : String) :
    orFail (.error text : Except String α) = .error (.error text) := rfl

theorem error_bind {α β : Type} (e : Failure) (f : α → Except Failure β) :
    (Except.error e >>= f) = .error e := rfl

theorem exactU32_of_lt {n : ℕ} (h : n < 2 ^ 32) : exactU32 n = .ok n := if_pos h

theorem exactU32_of_ge {n : ℕ} (h : ¬n < 2 ^ 32) : exactU32 n = .error .panic := if_neg h

theorem exact_adapt (vm : Vm) (fuel : ℕ) (bytes : List UInt8) : Exact.adapt vm fuel bytes =
    match Exact.prepare vm fuel bytes with
    | .error failure => .error failure bytes
    | .ok mutator =>
      match mutator.mutate bytes with
      | some bytes' => .ok () bytes'
      | none => .error .panic bytes := by
  have hget : Exact.adapt vm fuel bytes =
      (match Exact.prepare vm fuel bytes with
      | .error failure => throw failure
      | .ok mutator =>
        match mutator.mutate bytes with
        | some bytes' => set bytes'
        | none => throw .panic : EStateM Failure (List UInt8) Unit) bytes := rfl
  rw [hget]
  cases Exact.prepare vm fuel bytes with
  | error failure => rfl
  | ok mutator =>
    simp only
    cases mutator.mutate bytes <;> rfl

/-- The same outcome, unless the first run panics. -/
def Agrees {α : Type} (r r' : Except Failure α) : Prop := r = .error .panic ∨ r = r'

section
variable {α β : Type} {r r' : Except Failure α} {f f' : α → Except Failure β}

theorem Agrees.refl (r : Except Failure α) : Agrees r r := Or.inr rfl

theorem Agrees.bind (h : Agrees r r') (hf : ∀ a, Agrees (f a) (f' a)) :
    Agrees (r >>= f) (r' >>= f') := by
  rcases h with rfl | rfl
  · exact Or.inl rfl
  · cases r with
    | error e => exact Agrees.refl _
    | ok a => exact hf a

theorem Agrees.exact {n : ℕ} {f : ℕ → Except Failure β} {r' : Except Failure β}
    (h : n < 2 ^ 32 → Agrees (f n) r') : Agrees (exactU32 n >>= f) r' := by
  by_cases hn : n < 2 ^ 32
  · rw [exactU32_of_lt hn]
    exact h hn
  · rw [exactU32_of_ge hn]
    exact Or.inl rfl

end

section
variable (vm : Vm)

theorem calcHeaderSize_agrees (cur : Cursor) (tableLen : ℕ) :
    Agrees (Exact.calcHeaderSize vm cur tableLen) (calcHeaderSize vm cur tableLen) := by
  rw [Exact.calcHeaderSize, calcHeaderSize]
  apply Agrees.exact
  intro hstart
  rw [asU32_of_lt hstart]
  apply (Agrees.refl _).bind
  intro cur'
  apply Agrees.exact
  intro hstop
  rw [asU32_of_lt hstop]
  split_ifs with hle
  · have hsub : subU32 cur'.position cur.position = cur'.position - cur.position := by
      rw [subU32]
      omega
    simp only [hsub]
    exact Agrees.refl _
  · exact Or.inl rfl

theorem constPoolLoop_agrees (stop fuel : ℕ) (cur : Cursor) (added : ℕ) (m : Mutator) :
    Agrees (Exact.constPoolLoop vm stop fuel cur added m)
      (constPoolLoop vm DFIN_ADDR_LEN stop fuel cur added m) := by
  induction fuel generalizing cur added m with
  | zero => exact Agrees.refl _
  | succ fuel ih =>
    rw [Exact.constPoolLoop, constPoolLoop]
    split_ifs with hlt
    · apply (Agrees.refl _).bind
      intro x
      apply (Agrees.refl _).bind
      intro y
      apply Agrees.exact
      intro hsize
      simp only [asU32_of_lt hsize]
      cases x.1 with
      | Address =>
        apply Agrees.exact
        intro hnew
        simp only [addU32_of_lt hnew]
        apply (Agrees.refl _).bind
        intro m'
        apply Agrees.exact
        intro hadded
        simp only [addU32_of_lt hadded]
        exact ih _ _ _
      | _ => exact ih _ _ _
    · exact Agrees.refl _

theorem handleTable_agrees (fuel : ℕ) (kind : UInt8) (cur : Cursor)
    (offset headerSize headerLen len : ℕ) (m : Mutator) :
    Agrees (Exact.handleTable vm fuel kind cur offset headerSize headerLen len m)
      (handleTable vm DFIN_ADDR_LEN fuel kind
        (TableContext.new cur (addU32 (addU32 offset headerSize) headerLen) len) m) := by
  rw [Exact.handleTable, handleTable]
  split_ifs
  · apply Agrees.exact
    intro hsize
    apply Agrees.exact
    intro hplace
    simp only [addU32_of_lt hsize, addU32_of_lt hplace]
    exact Agrees.refl _
  · apply Agrees.exact
    intro hsize
    apply Agrees.exact
    intro hplace
    simp only [addU32_of_lt hsize, addU32_of_lt hplace]
    exact constPoolLoop_agrees vm _ _ _ _ _
  · exact Agrees.refl _

theorem makeTableDiff_agrees (fuel headerLen headerSize : ℕ) (s : DiffState) :
    Agrees (Exact.makeTableDiff vm fuel headerLen headerSize s)
      (makeTableDiff vm DFIN_ADDR_LEN fuel headerLen headerSize s) := by
  have hnumber : ∀ n growth p q (m : Mutator), Agrees
      (if growth > 0 then do
        let grown ← exactU32 (n + growth)
        makeUleb128Diff vm p q grown m
      else .ok m)
      (if growth > 0 then makeUleb128Diff vm p q (addU32 n growth) m else .ok m) := by
    intro n growth p q m
    split_ifs
    · apply Agrees.exact
      intro hgrown
      simp only [addU32_of_lt hgrown]
      exact Agrees.refl _
    · exact Agrees.refl _
  rw [Exact.makeTableDiff, makeTableDiff]
  apply (Agrees.refl _).bind
  intro x
  apply (Agrees.refl _).bind
  intro y
  apply Agrees.exact
  intro hoffset
  simp only [asU32_of_lt hoffset]
  apply (hnumber _ _ _ _ _).bind
  intro m
  apply (Agrees.refl _).bind
  intro z
  apply Agrees.exact
  intro hlen
  simp only [asU32_of_lt hlen]
  apply (handleTable_agrees vm _ _ _ _ _ _ _ _).bind
  intro w
  apply (hnumber _ _ _ _ _).bind
  intro m'
  apply Agrees.exact
  intro hadded
  simp only [addU32_of_lt hadded]
  exact Agrees.refl _

theorem makeTableDiffs_agrees (fuel headerLen headerSize n : ℕ) (s : DiffState) :
    Agrees (Exact.makeTableDiffs vm fuel headerLen headerSize n s)
      (makeTableDiffs vm DFIN_ADDR_LEN fuel headerLen headerSize n s) := by
  induction n generalizing s with
  | zero => exact Agrees.refl _
  | succ n ih => exact (makeTableDiff_agrees vm fuel headerLen headerSize s).bind ih

theorem makeDiff_agrees (fuel : ℕ) (cur : Cursor) (m : Mutator) :
    Agrees (Exact.makeDiff vm fuel cur m) (makeDiff vm DFIN_ADDR_LEN fuel cur m) := by
  rw [Exact.makeDiff, makeDiff]
  apply (Agrees.refl _).bind
  intro x
  apply Agrees.exact
  intro hstart
  simp only [asU32_of_lt hstart]
  apply (calcHeaderSize_agrees vm _ _).bind
  intro y
  exact (makeTableDiffs_agrees vm _ _ _ _ _).bind fun s => Agrees.refl _

theorem adapt_of_safe {vm : Vm} {fuel : ℕ} {bytes : List UInt8} (h : Safe vm fuel bytes) :
    adapt vm fuel bytes = Exact.outcome (Exact.adapt vm fuel bytes) := by
  have hprepare : Agrees (Exact.prepare vm fuel bytes) (do
      let cur ← orFail (vm.checkBinary { bytes, position := 0 })
      makeDiff vm DFIN_ADDR_LEN fuel cur Mutator.new) :=
    (Agrees.refl _).bind fun cur => makeDiff_agrees vm fuel cur Mutator.new
  have hadapt : adapt vm fuel bytes = (do
      let cur ← orFail (vm.checkBinary { bytes, position := 0 })
      makeDiff vm DFIN_ADDR_LEN fuel cur Mutator.new) >>= fun mutator =>
        match mutator.mutate bytes with
        | some bytes => return bytes
        | none => throw .panic :=
    (bind_assoc _ _ _).symm
  rw [Safe, exact_adapt] at h
  rw [hadapt, exact_adapt]
  rcases hprepare with hpanics | hsame
  · rw [hpanics] at h
    exact absurd rfl h.1
  · rw [← hsame]
    cases Exact.prepare vm fuel bytes with
    | error failure => rfl
    | ok mutator =>
      simp only [ok_bind]
      cases mutator.mutate bytes <;> rfl

end

end MoveTools.Compat
