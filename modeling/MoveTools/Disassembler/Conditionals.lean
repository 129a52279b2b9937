import MoveTools.Disassembler.Statements

namespace MoveTools.Disassembler

/-! Conditionals that are laid out as a compiler does it. -/

structure Statement (f : Function) where
  code : List Bytecode
  leaves : ∃ left, Leaves f [] code left

structure Condition (f : Function) where
  code : List Bytecode
  leaves : ∃ kind, Leaves f [] code [kind]

inductive Structured (f : Function) where
  | done
  | statement (s : Statement f) (rest : Structured f)
  | ifElse (c : Condition f) (trueBranch falseBranch rest : Structured f)
  | ifThen (c : Condition f) (trueBranch rest : Structured f)

/-- The false branch is left out when there is nothing in it. -/
def branchOf (block : List ExpLoc) : Option Block :=
  if block.isEmpty then none else some (.mk block true)

def Function.condition (f : Function) (offset : ℕ) (code : List Bytecode) : ExpLoc :=
  (f.translation offset code).headD (.mk 0 .Nop)

variable {f : Function}

namespace Structured

def size : Structured f → ℕ
  | done => 0
  | statement s rest => s.code.length + rest.size
  | ifElse c trueBranch falseBranch rest =>
    c.code.length + 2 + trueBranch.size + 1 + falseBranch.size + rest.size
  | ifThen c trueBranch rest => c.code.length + 2 + trueBranch.size + rest.size

def code : ℕ → Structured f → List Bytecode
  | _, done => []
  | offset, statement s rest => s.code ++ rest.code (offset + s.code.length)
  | offset, ifElse c trueBranch falseBranch rest =>
    let trueOffset := offset + c.code.length + 2
    let falseOffset := trueOffset + trueBranch.size + 1
    let stop := falseOffset + falseBranch.size
    c.code ++ .BrTrue trueOffset :: .Branch falseOffset :: (trueBranch.code trueOffset ++
      .Branch stop :: (falseBranch.code falseOffset ++ rest.code stop))
  | offset, ifThen c trueBranch rest =>
    let trueOffset := offset + c.code.length + 2
    let falseOffset := trueOffset + trueBranch.size
    c.code ++ .BrTrue trueOffset :: .Branch falseOffset ::
      (trueBranch.code trueOffset ++ rest.code falseOffset)

/-- The translations of the parts, each taken on its own. A conditional has the offset of its last
instruction. -/
def restored : ℕ → Structured f → List ExpLoc
  | _, done => []
  | offset, statement s rest =>
    f.translation offset s.code ++ rest.restored (offset + s.code.length)
  | offset, ifElse c trueBranch falseBranch rest =>
    let trueOffset := offset + c.code.length + 2
    let falseOffset := trueOffset + trueBranch.size + 1
    let stop := falseOffset + falseBranch.size
    .mk (stop - 1) (.If (f.condition offset c.code)
      (.mk (f.translation trueOffset (trueBranch.code trueOffset)) true)
      (branchOf (f.translation falseOffset (falseBranch.code falseOffset)))) :: rest.restored stop
  | offset, ifThen c trueBranch rest =>
    let trueOffset := offset + c.code.length + 2
    let falseOffset := trueOffset + trueBranch.size
    .mk (falseOffset - 1) (.If (f.condition offset c.code)
      (.mk (f.translation trueOffset (trueBranch.code trueOffset)) true) none) ::
        rest.restored falseOffset

end Structured

mutual

/-- Without the entries that are `Nop`, and without the keywords of returns. -/
def Exp.tidy : Exp → Exp
  | .Ret retList _ => .Ret retList false
  | .If condition trueBranch none => .If condition trueBranch.tidy none
  | .If condition trueBranch (some falseBranch) =>
    .If condition trueBranch.tidy (some falseBranch.tidy)
  | e => e

def ExpLoc.tidy : ExpLoc → ExpLoc
  | .mk index e => .mk index e.tidy

def Block.tidy : Block → Block
  | .mk exp basket => .mk (tidyList exp) basket

def tidyList : List ExpLoc → List ExpLoc
  | [] => []
  | e :: es => if e.val.isNop then tidyList es else e.tidy :: tidyList es

end

variable {t t' : Translator} {offset stop : ℕ} {opcode : Bytecode}
  {body code after : List Bytecode} {es es' block : List ExpLoc}
  {translateBlock : ℕ → Translator → BlockStep}

/-- The jumps at whose end the translator looks for more. -/
def Exp.isJump : Exp → Bool
  | .Nop | .Continue => true
  | _ => false

/-- The last return of the true branch gets its keyword. -/
def explicitRet (block : List ExpLoc) : List ExpLoc :=
  match block.getLast? with
  | some (.mk index (.Ret retList _)) => block.dropLast ++ [.mk index (.Ret retList true)]
  | _ => block

/-- Nothing follows a block that does not end with a jump. -/
def Quiet (f : Function) (offset : ℕ) (block : List ExpLoc) : Prop :=
  (opcodeAt f offset).offset = none ∨ ∀ e ∈ block.getLast?, e.val.isJump = false

theorem brTrueBranch_ifThen {trueOffset falseOffset : ℕ}
    (htrue : ¬trueOffset < t.opcodeOffset) (hle : trueOffset ≤ falseOffset)
    (hblock : translateBlock (falseOffset - trueOffset) t = .ok (block, t'))
    (hquiet : Quiet f t'.opcodeOffset block) :
    brTrueBranch f translateBlock trueOffset falseOffset t =
      .ok (popUnary (fun c => .If c (.mk (explicitRet block) true) none) t') := by
  have hjump : ∀ index e, block.getLast? = some (.mk index e) → e.isJump →
      (opcodeAt f t'.opcodeOffset).offset = none := by
    intro index e hlast he
    rcases hquiet with hnone | hquiet
    · exact hnone
    · exact absurd he (by simpa [hlast] using hquiet)
  simp only [brTrueBranch, if_neg htrue, usub, if_pos hle, hblock, bind, Except.bind]
  split
  case h_1 hlast =>
    rw [explicitRet, hlast]
    rfl
  case h_2 hlast =>
    rw [hjump _ _ hlast rfl, explicitRet, hlast]
    rfl
  case h_3 hlast =>
    have hnone := hjump _ _ hlast rfl
    rw [explicitRet, hlast]
    split
    case h_1 hop =>
      rw [hop] at hnone
      cases hnone
    case h_2 => rfl
  case h_4 hret _ _ =>
    have hsame : explicitRet block = block := by
      unfold explicitRet
      split
      case h_1 index retList keyword hlast => exact absurd hlast (hret index retList keyword)
      case h_2 => rfl
    rw [hsame]
    rfl

theorem brTrueBranch_ifElse {trueOffset falseOffset index : ℕ} {t'' : Translator}
    {falseBranch : Option Block}
    (htrue : ¬trueOffset < t.opcodeOffset) (hle : trueOffset ≤ falseOffset)
    (hblock : translateBlock (falseOffset - trueOffset) t = .ok (es ++ [.mk index .Nop], t'))
    (hbranch : opcodeAt f t'.opcodeOffset = .Branch stop) (hstop : t'.opcodeOffset < stop)
    (hfalse : falseBranchOf translateBlock falseOffset (some stop) t' = .ok (falseBranch, t'')) :
    brTrueBranch f translateBlock trueOffset falseOffset t =
      .ok (popUnary (fun c => .If c (.mk (es ++ [.mk index .Nop]) true) falseBranch) t'') := by
  have hlast : (es ++ [ExpLoc.mk index .Nop]).getLast? = some (.mk index .Nop) :=
    List.getLast?_concat
  simp only [brTrueBranch, if_neg htrue, usub, if_pos hle, hblock, bind, Except.bind, hlast, hbranch,
    gt_iff_lt, if_pos hstop, hfalse]
  rfl

theorem Turns.falseBranchOf (h : Turns f offset code [] es') (hpos : 0 < offset)
    (hbody : body.drop offset = code ++ after) (ht : Stands t offset (code ++ after) es stop) :
    ∃ t', (∀ fuel, t.rest.length < fuel →
        falseBranchOf (blockWith (translate (f.on body) fuel)) offset (some (offset + code.length))
          t = .ok (branchOf es', t')) ∧
      Stands t' (offset + code.length) after es stop := by
  have hback : ¬offset < t.opcodeOffset := by
    rw [ht.opcodeOffset]
    omega
  obtain ⟨t', hblock, ht'⟩ := h.block hpos hbody ht
  cases code with
  | nil =>
    have hnothing := h.translation.symm.trans (Turns.nil f offset []).translation
    refine ⟨t, fun fuel _ => ?_, ht⟩
    simp only [Disassembler.falseBranchOf, if_neg hback, usub, List.length_nil, Nat.add_zero, Nat.le_refl,
      if_true, Nat.sub_self, bind, Except.bind, hnothing]
    rfl
  | cons opcode code =>
    refine ⟨t', fun fuel hfuel => ?_, ht'⟩
    have hlen : offset + (opcode :: code).length - offset = (opcode :: code).length := by omega
    have hsome : ¬(opcode :: code).length = 0 := Nat.succ_ne_zero _
    simp only [Disassembler.falseBranchOf, if_neg hback, usub, Nat.le_add_right, if_true, bind,
      Except.bind, hlen, if_neg hsome, hblock fuel hfuel]
    rfl

theorem nextExp_brTrue {trueOffset falseOffset : ℕ} {rest : List Bytecode}
    (hbody : body.drop offset = .Branch falseOffset :: rest)
    (ht : Stands t offset (.Branch falseOffset :: rest) es stop) (hpos : 0 < offset)
    (translateBlock : ℕ → Translator → BlockStep) :
    nextExp (f.on body) translateBlock (.BrTrue trueOffset) t =
      brTrueBranch (f.on body) translateBlock trueOffset falseOffset (t.advance rest) := by
  have hin : InStep (f.on body) t := by
    rw [InStep, ht.rest, ht.next]
    exact hbody.symm
  have hop := (hin.cons ht.rest).2.1
  have hnext : t.opcodeOffset + 1 = t.next := by
    rw [ht.opcodeOffset, ht.next]
    omega
  rw [nextExp, brTrue, hnext, hop]
  dsimp only
  rw [nextOpcode_cons ht.rest]

/-- The last instruction of a piece is not a branch, or its last expression is no jump. -/
def EndsPlain (code : List Bytecode) (es : List ExpLoc) : Prop :=
  (code = [] ∧ es = []) ∨ (∃ last, code.getLast? = some last ∧ last.offset = none) ∨
    ∃ e, es.getLast? = some e ∧ e.val.isJump = false

theorem EndsPlain.append {code' : List Bytecode} (h : EndsPlain code es)
    (h' : EndsPlain code' es') : EndsPlain (code ++ code') (es ++ es') := by
  rcases h' with ⟨rfl, rfl⟩ | ⟨last, hlast, hnone⟩ | ⟨e, he, hjump⟩
  · rwa [List.append_nil, List.append_nil]
  · refine .inr (.inl ⟨last, ?_, hnone⟩)
    rw [List.getLast?_append, hlast, Option.some_or]
  · refine .inr (.inr ⟨e, ?_, hjump⟩)
    rw [List.getLast?_append, he, Option.some_or]

theorem opcodeAt_on (h : body.drop offset = code ++ opcode :: after) :
    opcodeAt (f.on body) (offset + code.length) = opcode := by
  have hget : body[offset + code.length]? = some opcode := by
    rw [← List.getElem?_drop, h, List.getElem?_append_right (Nat.le_refl _), Nat.sub_self,
      List.getElem?_cons_zero]
  exact congrArg (Option.getD · .Nop) hget

theorem EndsPlain.quiet (h : EndsPlain code es) (hbody : body.drop offset = code ++ after) :
    Quiet (f.on body) (offset + code.length - 1) es := by
  rcases h with ⟨_, rfl⟩ | ⟨last, hlast, hnone⟩ | ⟨e, he, hjump⟩
  · exact .inr (by simp)
  · obtain ⟨init, rfl⟩ := List.getLast?_eq_some_iff.mp hlast
    rw [List.append_assoc, List.singleton_append] at hbody
    rw [Quiet, List.length_append, List.length_singleton, ← Nat.add_assoc, Nat.add_sub_cancel,
      opcodeAt_on hbody]
    exact .inl hnone
  · exact .inr (by simpa [he] using hjump)

/-- An instruction that takes code behind it along, and one expression. -/
theorem turns_of_popUnary {make : ExpLoc → Exp} {below : List ExpLoc} {e : ExpLoc}
    (h : ∀ body t after stop, body.drop (offset + 1) = code ++ after →
      Stands t (offset + 1) (code ++ after) (below ++ [e]) stop →
      ∃ t', (∀ fuel, t.rest.length < fuel →
          nextExp (f.on body) (blockWith (translate (f.on body) fuel)) opcode t =
            .ok (popUnary make t')) ∧
        Stands t' (offset + 1 + code.length) after (below ++ [e]) stop) :
    Turns f offset (opcode :: code) (below ++ [e])
      (below ++ [.mk (offset + code.length) (make e)]) := by
  apply Turns.of_nextExp
  intro body t after stop hbody _ ht
  obtain ⟨t', hstep, ht'⟩ := h body t after stop hbody ht
  obtain ⟨he, hleft, hs⟩ := popExp_append ht'.expressions
  refine ⟨(popUnary make t').1, (popUnary make t').2, below, hstep, ht'.of_samePlace hs hleft, ?_⟩
  change below ++ [.mk (offset + code.length) (make t'.popExp.1)] = _
  rw [he]

theorem ifThen_turns (h : Turns f (offset + 2) code [] es) (hends : EndsPlain code es)
    (below : List ExpLoc) (e : ExpLoc) :
    Turns f offset (.BrTrue (offset + 2) :: .Branch (offset + 2 + code.length) :: code)
      (below ++ [e])
      (below ++ [.mk (offset + (code.length + 1)) (.If e (.mk (explicitRet es) true) none)]) := by
  apply turns_of_popUnary
  intro body t after stop hbody ht
  rw [List.cons_append] at hbody ht
  have hbody' : body.drop (offset + 2) = code ++ after := by
    rw [← List.tail_drop, hbody, List.tail_cons]
  have ht₁ := ht.advance
  obtain ⟨t', hblock, ht'⟩ := h.block (Nat.succ_pos _) hbody' ht₁
  have htrue : ¬offset + 2 < (t.advance (code ++ after)).opcodeOffset := by
    rw [ht₁.opcodeOffset]
    omega
  have hquiet : Quiet (f.on body) t'.opcodeOffset es := by
    rw [ht'.opcodeOffset]
    exact hends.quiet hbody'
  have hlen : offset + 2 + code.length - (offset + 2) = code.length := by omega
  refine ⟨t', fun fuel hfuel => ?_, ht'.at (by rw [List.length_cons]; omega)⟩
  rw [nextExp_brTrue hbody ht (Nat.succ_pos _)]
  apply brTrueBranch_ifThen htrue (Nat.le_add_right _ _) _ hquiet
  rw [hlen]
  apply hblock
  rw [ht.rest, List.length_cons] at hfuel
  rw [ht₁.rest]
  omega

theorem branch_turns {target : ℕ} (htarget : offset < target) (es : List ExpLoc) :
    Turns f offset [.Branch target] es (es ++ [.mk offset .Nop]) := by
  apply Turns.single
  intro body t _ hoffset hexp
  have hnop : ∀ translateBlock, nextExp (f.on body) translateBlock (.Branch target) t =
      .ok (⟨[], .Nop⟩, t) := by
    intro translateBlock
    have hlt : target > t.opcodeOffset := hoffset ▸ htarget
    rw [nextExp, br, if_pos hlt]
  exact ⟨_, t, hnop, .refl t, by rw [hexp]⟩

theorem ifElse_turns {trueCode falseCode : List Bytecode} {trueEs falseEs : List ExpLoc}
    {falseOffset target : ℕ} (hoffset : falseOffset = offset + 2 + trueCode.length + 1)
    (htarget : target = falseOffset + falseCode.length)
    (htrue : Turns f (offset + 2) trueCode [] trueEs)
    (hfalse : Turns f falseOffset falseCode [] falseEs) (below : List ExpLoc) (e : ExpLoc) :
    Turns f offset (.BrTrue (offset + 2) :: .Branch falseOffset ::
        (trueCode ++ .Branch target :: falseCode))
      (below ++ [e])
      (below ++ [.mk (target - 1) (.If e
        (.mk (trueEs ++ [.mk (falseOffset - 1) .Nop]) true) (branchOf falseEs))]) := by
  -- the jump over the false block belongs to the true one
  have hbranch : falseOffset - 1 = offset + 2 + trueCode.length := by omega
  have hjump : Turns f (offset + 2) (trueCode ++ [.Branch target]) []
      (trueEs ++ [.mk (falseOffset - 1) .Nop]) := by
    rw [hbranch]
    exact htrue.append (branch_turns (by omega) trueEs)
  have hlen : (Bytecode.Branch falseOffset :: (trueCode ++ .Branch target :: falseCode)).length =
      trueCode.length + falseCode.length + 2 := by
    rw [List.length_cons, List.length_append, List.length_cons]
    omega
  have hlast : target - 1 = offset + (Bytecode.Branch falseOffset ::
      (trueCode ++ .Branch target :: falseCode)).length := by omega
  rw [hlast]
  apply turns_of_popUnary
  intro body t after stop hbody ht
  rw [List.cons_append, List.append_assoc, List.cons_append, List.append_cons] at hbody ht
  have hbody₁ : body.drop (offset + 2) = (trueCode ++ [.Branch target]) ++ (falseCode ++ after) := by
    rw [← List.tail_drop, hbody, List.tail_cons]
  have ht₁ := ht.advance
  obtain ⟨t₂, hblock, ht₂⟩ := hjump.block (Nat.succ_pos _) hbody₁ ht₁
  rw [List.length_append, List.length_singleton] at hblock ht₂
  have hbody₂ : body.drop falseOffset = falseCode ++ after := by
    rw [hoffset, Nat.add_assoc (offset + 2), ← List.length_singleton (a := Bytecode.Branch target),
      ← List.length_append]
    exact drop_add_length hbody₁
  have hplace : offset + 2 + (trueCode.length + 1) = falseOffset := by omega
  replace ht₂ := ht₂.at hplace
  -- its target says where the false block ends
  obtain ⟨t₃, hfalseBlock, ht₃⟩ := hfalse.falseBranchOf (by omega) hbody₂ ht₂
  have hback : ¬offset + 2 < (t.advance ((trueCode ++ [.Branch target]) ++
      (falseCode ++ after))).opcodeOffset := by
    rw [ht₁.opcodeOffset]
    omega
  have hat : opcodeAt (f.on body) t₂.opcodeOffset = .Branch target := by
    rw [ht₂.opcodeOffset, hbranch]
    rw [← List.append_cons] at hbody₁
    exact opcodeAt_on hbody₁
  have hforward : t₂.opcodeOffset < target := by
    rw [ht₂.opcodeOffset]
    omega
  refine ⟨t₃, fun fuel hfuel => ?_, ht₃.at (by omega)⟩
  rw [nextExp_brTrue hbody ht (Nat.succ_pos _)]
  have hsize : falseOffset - (offset + 2) = trueCode.length + 1 := by omega
  rw [ht.rest, List.length_cons, List.length_append] at hfuel
  apply brTrueBranch_ifElse hback (by omega) _ hat hforward
  · rw [htarget]
    apply hfalseBlock
    rw [ht₂.rest]
    omega
  · rw [hsize]
    apply hblock
    rw [ht₁.rest, List.length_append]
    omega

theorem tidyList_append (es es' : List ExpLoc) :
    tidyList (es ++ es') = tidyList es ++ tidyList es' := by
  induction es with
  | nil => rw [tidyList, List.nil_append, List.nil_append]
  | cons e es ih =>
    rw [List.cons_append, tidyList, tidyList, ih]
    split
    · rfl
    · rw [List.cons_append]

theorem tidyList_nop (index : ℕ) : tidyList [.mk index .Nop] = [] := by
  rw [tidyList, tidyList]
  rfl

theorem tidyList_ret (index : ℕ) (retList : List ExpLoc) (explicitKeyword : Bool) :
    tidyList [.mk index (.Ret retList explicitKeyword)] = [.mk index (.Ret retList false)] := by
  rw [tidyList, tidyList, ExpLoc.tidy, Exp.tidy]
  rfl

theorem tidyList_if (index : ℕ) (c : ExpLoc) (es : List ExpLoc) (falseBranch : Option Block) :
    tidyList [.mk index (.If c (.mk es true) falseBranch)] =
      [.mk index (.If c (.mk (tidyList es) true) (falseBranch.map Block.tidy))] := by
  cases falseBranch with
  | none =>
    rw [tidyList, tidyList, ExpLoc.tidy, Exp.tidy, Block.tidy]
    rfl
  | some falseBranch =>
    rw [tidyList, tidyList, ExpLoc.tidy, Exp.tidy, Block.tidy]
    rfl

theorem tidyList_explicitRet (es : List ExpLoc) : tidyList (explicitRet es) = tidyList es := by
  unfold explicitRet
  split
  case h_1 hlast =>
    conv_rhs => rw [eq_dropLast_append hlast]
    rw [tidyList_append, tidyList_append, tidyList_ret, tidyList_ret]
  case h_2 => rfl

theorem Structured.code_length (s : Structured f) (offset : ℕ) :
    (s.code offset).length = s.size := by
  induction s generalizing offset with
  | done => rfl
  | statement s rest ih => rw [Structured.code, List.length_append, ih, Structured.size]
  | ifElse c trueBranch falseBranch rest ihTrue ihFalse ih =>
    simp only [Structured.code, List.length_append, List.length_cons, ihTrue, ihFalse, ih,
      Structured.size]
    omega
  | ifThen c trueBranch rest ihTrue ih =>
    simp only [Structured.code, List.length_append, List.length_cons, ihTrue, ih, Structured.size]
    omega

theorem Leaves.notBranch {own left : List Bool} (h : Leaves f own code left) :
    ∀ opcode ∈ code, opcode.offset = none := by
  induction h with
  | done => exact fun _ h => absurd h List.not_mem_nil
  | next hop _ _ ih => exact List.forall_mem_cons.mpr ⟨hop.2.1, ih⟩
  | unpack hop _ _ hstores _ ih =>
    refine List.forall_mem_cons.mpr ⟨hop.2.1, fun opcode hmem => ?_⟩
    rcases List.mem_append.mp hmem with hmem | hmem
    · rcases (hstores opcode hmem).2 with hstore | rfl
      · obtain ⟨i, rfl⟩ := exists_of_isStore hstore
        rfl
      · rfl
    · exact ih opcode hmem

/-- Wherever `code` stands, it is translated to `es`, which is tidied up to what is expected. -/
structure Restores (f : Function) (offset : ℕ) (code : List Bytecode) (expected es : List ExpLoc) :
    Prop where
  turns : ∀ below, Turns f offset code below (below ++ es)
  ends : EndsPlain code es
  tidy : tidyList es = tidyList expected

theorem Restores.append {code' : List Bytecode} {expected expected' : List ExpLoc}
    (h : Restores f offset code expected es)
    (h' : Restores f (offset + code.length) code' expected' es') :
    Restores f offset (code ++ code') (expected ++ expected') (es ++ es') where
  turns below := by
    rw [← List.append_assoc]
    exact (h.turns below).append (h'.turns _)
  ends := h.ends.append h'.ends
  tidy := by rw [tidyList_append, tidyList_append, h.tidy, h'.tidy]

theorem Statement.restores (s : Statement f) (offset : ℕ) :
    Restores f offset s.code (f.translation offset s.code) (f.translation offset s.code) := by
  obtain ⟨left, hleaves⟩ := s.leaves
  have hnothing : kinds [] = [] := rfl
  obtain ⟨es, _, hturns⟩ := hleaves.turns hnothing offset
  have halone : f.translation offset s.code = es := Turns.translation (hturns [])
  rw [halone]
  refine ⟨fun below => by simpa using hturns below, ?_, rfl⟩
  cases hcode : s.code.getLast? with
  | none =>
    have hnil := List.getLast?_eq_none_iff.mp hcode
    rw [hnil] at halone
    exact .inl ⟨hnil, halone.symm.trans (Turns.nil f offset []).translation⟩
  | some last =>
    exact .inr (.inl ⟨last, hcode, hleaves.notBranch last (List.mem_of_getLast? hcode)⟩)

theorem Condition.turns (c : Condition f) (offset : ℕ) (below : List ExpLoc) :
    Turns f offset c.code below (below ++ [f.condition offset c.code]) := by
  obtain ⟨kind, hleaves⟩ := c.leaves
  have hnothing : kinds [] = [] := rfl
  obtain ⟨es, hkinds, hturns⟩ := hleaves.turns hnothing offset
  have halone : f.translation offset c.code = es := Turns.translation (hturns [])
  obtain ⟨e, rfl⟩ : ∃ e, es = [e] :=
    List.length_eq_one_iff.mp ((kinds_length es).symm.trans (congrArg List.length hkinds))
  rw [Function.condition, halone]
  simpa using hturns below

/-- A conditional is one expression at the end of its code. -/
theorem Restores.conditional {c : Condition f} {index : ℕ} {trueEs trueBranch : List ExpLoc}
    {falseBranch : Option Block}
    (h : ∀ below e, Turns f (offset + c.code.length) code (below ++ [e])
      (below ++ [.mk index (.If e (.mk trueEs true) falseBranch)]))
    (htidy : tidyList trueEs = tidyList trueBranch) :
    Restores f offset (c.code ++ code)
      [.mk index (.If (f.condition offset c.code) (.mk trueBranch true) falseBranch)]
      [.mk index (.If (f.condition offset c.code) (.mk trueEs true) falseBranch)] where
  turns below := (c.turns offset below).append (h below _)
  ends := .inr (.inr ⟨_, rfl, rfl⟩)
  tidy := by rw [tidyList_if, tidyList_if, htidy]

theorem Restores.at {offset' : ℕ} {expected : List ExpLoc} (h : Restores f offset code expected es)
    (ho : offset = offset') : Restores f offset' code expected es := ho ▸ h

open Structured in
theorem Structured.restores (s : Structured f) (offset : ℕ) :
    ∃ es, Restores f offset (s.code offset) (s.restored offset) es := by
  induction s generalizing offset with
  | done =>
    refine ⟨[], fun below => ?_, .inl ⟨rfl, rfl⟩, rfl⟩
    rw [List.append_nil]
    exact .nil f offset below
  | statement s rest ih =>
    obtain ⟨es, hrest⟩ := ih (offset + s.code.length)
    exact ⟨_, (s.restores offset).append hrest⟩
  | ifElse c trueBranch falseBranch rest ihTrue ihFalse ih =>
    obtain ⟨trueEs, htrue⟩ := ihTrue (offset + c.code.length + 2)
    obtain ⟨falseEs, hfalse⟩ := ihFalse (offset + c.code.length + 2 + trueBranch.size + 1)
    obtain ⟨es, hrest⟩ :=
      ih (offset + c.code.length + 2 + trueBranch.size + 1 + falseBranch.size)
    have htrueTurns : Turns f _ _ [] trueEs := htrue.turns []
    have hfalseTurns : Turns f _ _ [] falseEs := hfalse.turns []
    have hif := ifElse_turns (by rw [code_length]) (by rw [code_length]) htrueTurns hfalseTurns
    have htidy : tidyList (trueEs ++
        [.mk (offset + c.code.length + 2 + trueBranch.size + 1 - 1) .Nop]) = tidyList trueEs := by
      rw [tidyList_append, tidyList_nop, List.append_nil]
    have hpart := Restores.conditional hif htidy
    have hend : offset + c.code.length + 2 + trueBranch.size + 1 + falseBranch.size =
        offset + (c.code ++ .BrTrue (offset + c.code.length + 2) ::
          .Branch (offset + c.code.length + 2 + trueBranch.size + 1) ::
          (trueBranch.code (offset + c.code.length + 2) ++
            .Branch (offset + c.code.length + 2 + trueBranch.size + 1 + falseBranch.size) ::
            falseBranch.code (offset + c.code.length + 2 + trueBranch.size + 1))).length := by
      simp only [List.length_append, List.length_cons, code_length]
      omega
    have hall := hpart.append (hrest.at hend)
    simp only [List.append_assoc, List.cons_append] at hall
    simp only [code, restored, htrueTurns.translation, hfalseTurns.translation]
    exact ⟨_, hall⟩
  | ifThen c trueBranch rest ihTrue ih =>
    obtain ⟨trueEs, htrue⟩ := ihTrue (offset + c.code.length + 2)
    obtain ⟨es, hrest⟩ := ih (offset + c.code.length + 2 + trueBranch.size)
    have htrueTurns : Turns f _ _ [] trueEs := htrue.turns []
    have hif := ifThen_turns htrueTurns htrue.ends
    rw [code_length] at hif
    have hpart := Restores.conditional hif (tidyList_explicitRet trueEs)
    have hend : offset + c.code.length + 2 + trueBranch.size =
        offset + (c.code ++ .BrTrue (offset + c.code.length + 2) ::
          .Branch (offset + c.code.length + 2 + trueBranch.size) ::
          trueBranch.code (offset + c.code.length + 2)).length := by
      simp only [List.length_append, List.length_cons, code_length]
      omega
    have hindex : offset + c.code.length + (trueBranch.size + 1) =
        offset + c.code.length + 2 + trueBranch.size - 1 := by omega
    rw [hindex] at hpart
    have hall := hpart.append (hrest.at hend)
    simp only [List.append_assoc, List.cons_append] at hall
    simp only [code, restored, htrueTurns.translation]
    exact ⟨_, hall⟩

/-- A block of a structured body, taken alone, is translated to its parts. -/
theorem Structured.translation_restored (s : Structured f) (offset : ℕ) :
    tidyList (f.translation offset (s.code offset)) = tidyList (s.restored offset) := by
  obtain ⟨es, hturns, _, htidy⟩ := s.restores offset
  have halone : f.translation offset (s.code offset) = es := Turns.translation (hturns [])
  rw [halone, htidy]

/-- Every structured body is translated to its parts in their order, with one `If` for each
conditional, and so is every block nested in it. -/
theorem conditionals_restored (f : Function) (s : Structured f) (hcode : f.code = s.code 0)
    (fuel : ℕ) (hfuel : f.code.length < fuel) :
    (∃ t, translate f fuel (bodyTranslator f) = .ok t ∧
      tidyList t.expressions = tidyList (s.restored 0)) ∧
    ∀ (offset : ℕ) (block : Structured f),
      tidyList (f.translation offset (block.code offset)) = tidyList (block.restored offset) := by
  obtain ⟨es, hturns, _, htidy⟩ := s.restores 0
  have hbody : Turns f 0 f.code [] es := hcode ▸ hturns []
  obtain ⟨t, ht, hexp⟩ := hbody.wholeBody hfuel
  exact ⟨⟨t, ht, (congrArg tidyList hexp).trans htidy⟩,
    fun offset block => block.translation_restored offset⟩

/-- `let x = 1; if (true) { if (false) { x = 2 } else { 3; } }; return` -/
def nestedConditionals (body : List Bytecode) : Structured (scriptOf body) :=
  have store : ∀ val, Leaves (scriptOf body) [] [.LdU64 val, .StLoc 0] [true] := fun _ =>
    .next ⟨trivial, rfl, Nat.le_refl 0⟩ rfl
      (.next ⟨Nat.succ_pos 1, rfl, Nat.le_refl 1⟩ rfl .done)
  .statement ⟨[.LdU64 1, .StLoc 0], _, store 1⟩
    (.ifElse ⟨[.LdTrue], _, .next ⟨trivial, rfl, Nat.le_refl 0⟩ rfl .done⟩
      (.ifElse ⟨[.LdFalse], _, .next ⟨trivial, rfl, Nat.le_refl 0⟩ rfl .done⟩
        (.statement ⟨[.LdU64 2, .StLoc 0], _, store 2⟩ .done)
        (.statement ⟨[.LdU64 3, .Pop], _, .next ⟨trivial, rfl, Nat.le_refl 0⟩ rfl
          (.next ⟨trivial, rfl, Nat.zero_le 1⟩ rfl .done)⟩ .done) .done) .done
      (.statement ⟨[.Ret], _, .next ⟨trivial, rfl, Nat.le_refl 0⟩ rfl .done⟩ .done))

def nestedCode : List Bytecode :=
  [.LdU64 1, .StLoc 0, .LdTrue, .BrTrue 5, .Branch 14, .LdFalse, .BrTrue 8, .Branch 11, .LdU64 2,
    .StLoc 0, .Branch 13, .LdU64 3, .Pop, .Branch 14, .Ret]

theorem nestedConditionals_restored :
    (∃ t, translate (scriptOf nestedCode) 16 (bodyTranslator (scriptOf nestedCode)) = .ok t ∧
      tidyList t.expressions = tidyList ((nestedConditionals nestedCode).restored 0)) ∧
    ∀ (offset : ℕ) (block : Structured (scriptOf nestedCode)),
      tidyList ((scriptOf nestedCode).translation offset (block.code offset)) =
        tidyList (block.restored offset) :=
  conditionals_restored (scriptOf nestedCode) (nestedConditionals nestedCode) rfl 16 (by decide)

end MoveTools.Disassembler
