import MoveTools.Compat.Adapt

namespace MoveTools.Compat

/-! Readers and writers of the format, as `adapt` finds them in the vm crate. -/

def libraLimits : Limits := { signatureTokenDepthMax := 256, constantSizeMax := 65535 }

/-- A value is read at the cursor, and the cursor moved behind it. -/
def readWith {α : Type} (c : Codec α) (accepted : α → Bool) (cur : Cursor) :
    Except String (α × Cursor) :=
  match c.read (cur.bytes.drop cur.position) with
  | some (a, rest) =>
    if accepted a then .ok (a, cur.setPosition (cur.bytes.length - rest.length))
    else .error "MALFORMED"
  | none => .error "MALFORMED"

def libraVm : Vm where
  checkBinary cur := (readWith (Codec.fixed preamble) (fun _ => true) cur).map Prod.snd
  readU8 := readWith Codec.byte fun _ => true
  readUleb128AsU64 := readWith Uleb.codec fun n => n < 2 ^ 64
  writeU64AsUleb128 n := .ok (Uleb.write n)
  loadSignatureToken cur :=
    (readWith ConstantType.codec (fun t => t.depth ≤ libraLimits.signatureTokenDepthMax) cur).map
      fun x => (x.1.token, x.2)
  loadConstantSize := readWith Uleb.codec fun n => n ≤ libraLimits.constantSizeMax

theorem readWith_ok {α : Type} (c : Codec α) {accepted : α → Bool} {cur : Cursor} {a : α}
    (ha : accepted a = true) (hne : c.write a ≠ []) (hat : cur.At (c.write a)) :
    readWith c accepted cur = .ok (a, cur.skip (c.write a)) := by
  obtain ⟨rest, hr⟩ := hat
  have hlen := congrArg List.length hr
  have hpos := List.length_pos_iff.mpr hne
  rw [List.length_append, List.length_drop] at hlen
  have hend : cur.bytes.length - rest.length = cur.position + (c.write a).length := by omega
  rw [readWith, ← hr, Codec.read_write]
  simp only [ha, if_true, hend]
  rfl

theorem libraVm_followsFormat : libraVm.FollowsFormat libraLimits where
  check_binary := by
    intro bytes h
    have hat : Cursor.At ⟨bytes, 0⟩ ((Codec.fixed preamble).write ()) := h
    simp only [libraVm]
    rw [readWith_ok (Codec.fixed preamble) rfl (List.cons_ne_nil _ _) hat]
    rfl
  read_u8 h := readWith_ok Codec.byte rfl (List.cons_ne_nil _ _) h
  read_uleb128_as_u64 hn h :=
    readWith_ok Uleb.codec (decide_eq_true hn) (Uleb.write_ne_nil _) h
  write_u64_as_uleb128 _ := rfl
  load_signature_token hd h := by
    simp only [libraVm]
    rw [readWith_ok ConstantType.codec (decide_eq_true hd) (ConstantType.write_ne_nil _) h]
    rfl
  load_constant_size hn h :=
    readWith_ok Uleb.codec (decide_eq_true hn) (Uleb.write_ne_nil _) h
  constant_size_max := by decide

end MoveTools.Compat
