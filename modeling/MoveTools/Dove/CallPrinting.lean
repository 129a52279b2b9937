import Mathlib.Data.Nat.Digits.Defs
import MoveTools.Dove.CallEnds
import MoveTools.Compiler.Ss58Tokens
import MoveTools.Library.Words

namespace MoveTools.Dove
open Syntax Attempt Index Compiler Text
open Executor (TypeTag StructTag AccountAddress)

/-! Calls are read as they are written. -/

section
variable (p : MoveParser)

/-- The lexer that stands in front of `text`. -/
def MoveParser.lexer (text : Text) : Lexer := ⟨p.tokens text, p.failure text⟩

/-- White space is skipped, and neither the end of the text nor `>` nor a comma starts a type. -/
structure MoveParser.Correct : Prop where
  white : ∀ {c : Char} (text : Text), isWhitespace c → p.lexer (c :: text) = p.lexer text
  type : ∀ {l ty l'}, p.parseType l = .ok (ty, l') → AtType l

/-- The first token is `t`, and the others are those of `rest`. -/
def ReadsToken (t : Token) (text rest : Text) : Prop :=
  p.lexer text = ⟨t :: p.tokens rest, p.failure rest⟩

/-- The tokens are written one behind the other in front of `rest`, with white space between them,
where there is any. -/
inductive Spelled : List Token → Text → Text → Prop
  | nil (rest : Text) : Spelled [] rest rest
  | white {ts : List Token} {c : Char} {text rest : Text} (hc : isWhitespace c)
      (h : Spelled ts text rest) : Spelled ts (c :: text) rest
  | token {ts : List Token} {t : Token} {text rest : Text}
      (ht : ReadsToken p t (t.content ++ text) text) (h : Spelled ts text rest) :
      Spelled (t :: ts) (t.content ++ text) rest

variable {p} {ts : List Token} {t : Token} {text rest : Text}

theorem lexer_spelled (hp : p.Correct) (h : Spelled p ts text rest) :
    p.lexer text = ⟨ts ++ p.tokens rest, p.failure rest⟩ := by
  induction h with
  | nil rest => rfl
  | white hc _ ih => rw [hp.white _ hc, ih]
  | token ht _ ih =>
    obtain ⟨htokens, hfailure⟩ := Lexer.mk.inj ih
    rw [ht, htokens, hfailure]
    rfl

theorem filter_spelled (h : Spelled p ts text rest)
    (hts : ∀ t ∈ ts, ∀ c ∈ t.content, ¬isWhitespace c) :
    ∃ written, text = written ++ rest ∧
      written.filter (fun c => !isWhitespace c) = ts.flatMap Token.content := by
  induction h with
  | nil rest => exact ⟨[], rfl, rfl⟩
  | @white ts c text rest hc _ ih =>
    obtain ⟨written, rfl, hwritten⟩ := ih hts
    refine ⟨c :: written, rfl, ?_⟩
    rw [List.filter_cons_of_neg (by simp [hc]), hwritten]
  | @token ts t text rest _ _ ih =>
    obtain ⟨ht, hts⟩ := List.forall_mem_cons.mp hts
    obtain ⟨written, rfl, hwritten⟩ := ih hts
    refine ⟨t.content ++ written, (List.append_assoc ..).symm, ?_⟩
    have hcontent : t.content.filter (fun c => !isWhitespace c) = t.content :=
      List.filter_eq_self.mpr fun c hc => by simp [ht c hc]
    rw [List.filter_append, hcontent, hwritten, List.flatMap_cons]

theorem start_spelled (hp : p.Correct) (h : Spelled p (t :: ts) text rest) :
    Lexer.start p text = .ok (p.lexer text) := by
  have hlexer := lexer_spelled hp h
  obtain ⟨htokens, -⟩ := Lexer.mk.inj hlexer
  rw [Lexer.start, MoveParser.lexer, htokens]
  rfl

theorem advance_spelled (hp : p.Correct) (h : Spelled p [t] text rest)
    (hrest : (p.lexer rest).peek ≠ none) : (p.lexer text).advance = .ok (p.lexer rest) := by
  rw [lexer_spelled hp h]
  unfold MoveParser.lexer at hrest ⊢
  cases htokens : p.tokens rest with
  | nil => exact absurd (by rw [htokens]; rfl) hrest
  | cons t ts =>
    rw [Lexer.advance, List.singleton_append, List.tail_cons]
    rfl

theorem peek_spelled (hp : p.Correct) (h : Spelled p (t :: ts) text rest) :
    (p.lexer text).peek = some t.tok := by
  rw [lexer_spelled hp h]
  rfl

end

def addressBytes (address : AccountAddress) : Address :=
  (Nat.digits 256 address).reverse.map UInt8.ofNat

theorem accountAddress_addressBytes (address : AccountAddress) :
    accountAddress (addressBytes address) = address := by
  have hbyte : ∀ d ∈ Nat.digits 256 address, ∀ n : ℕ,
      256 * n + (UInt8.ofNat d).toNat = d + 256 * n := by
    intro d hd n
    have hlt : d < 256 := Nat.digits_lt_base (by omega) hd
    rw [UInt8.toNat_ofNat_of_lt' hlt, Nat.add_comm]
  rw [accountAddress, addressBytes, List.foldl_map, List.foldl_reverse, List.foldr_ext _ _ 0 hbyte]
  exact (Nat.ofDigits_eq_foldr 256 _).symm.trans (Nat.ofDigits_digits 256 address)

mutual

def typeOf : TypeTag → Typ
  | .Bool => .Apply (.Name "bool") []
  | .U8 => .Apply (.Name "u8") []
  | .U64 => .Apply (.Name "u64") []
  | .U128 => .Apply (.Name "u128") []
  | .Address => .Apply (.Name "address") []
  | .Signer => .Apply (.Name "signer") []
  | .Vector t => .Apply (.Name "Vec") [typeOf t]
  | .Struct s => structOf s

def structOf : StructTag → Typ
  | ⟨address, module, name, typeParams⟩ =>
    .Apply (.QualifiedModuleAccess ⟨addressBytes address, String.ofList module⟩ (String.ofList name))
      (typesOf typeParams)

def typesOf : List TypeTag → List Typ
  | [] => []
  | t :: ts => typeOf t :: typesOf ts

end

section
variable (ids : Identifiers)

mutual

/-- The names in a tag are identifiers. -/
def NamesValid : TypeTag → Prop
  | .Vector t => NamesValid t
  | .Struct s => StructNamesValid s
  | _ => True

def StructNamesValid : StructTag → Prop
  | ⟨_, module, name, typeParams⟩ =>
    (ids.isValid (String.ofList module) ∧ ids.isValid (String.ofList name)) ∧ AllNamesValid typeParams

def AllNamesValid : List TypeTag → Prop
  | [] => True
  | t :: ts => NamesValid t ∧ AllNamesValid ts

end

variable {ids} {this : Option AccountAddress}

mutual

theorem tagOf_typeOf : ∀ {this : Option AccountAddress} {t : TypeTag}, NamesValid ids t →
    tagOf ids this (typeOf t) = some t
  | this, .Vector t, h => by
    have ht : tagOf ids this (typeOf t) = some t := tagOf_typeOf h
    rw [typeOf, tagOf_vec, ht]
    rfl
  | this, .Struct s, h => tagOf_structOf h
  | _, .Bool, _ | _, .U8, _ | _, .U64, _ | _, .U128, _ | _, .Address, _ | _, .Signer, _ => rfl

theorem tagOf_structOf : ∀ {this : Option AccountAddress} {s : StructTag}, StructNamesValid ids s →
    tagOf ids this (structOf s) = some (.Struct s)
  | this, ⟨address, module, name, typeParams⟩, ⟨hnames, hparams⟩ => by
    rw [structOf, tagOf_qualified, accountAddress_addressBytes, tagsOf_typesOf hparams]
    show structTag ids address _ _ typeParams = _
    rw [structTag, if_pos hnames, String.toList_ofList, String.toList_ofList]

theorem tagsOf_typesOf : ∀ {this : Option AccountAddress} {ts : List TypeTag}, AllNamesValid ids ts →
    tagsOf ids this (typesOf ts) = some ts
  | this, [], _ => rfl
  | this, t :: ts, ⟨ht, hts⟩ => by
    rw [typesOf, tagsOf, tagOf_typeOf ht, tagsOf_typesOf hts]
    rfl

end
end

abbrev comma : Token := ⟨.Comma, [',']⟩

section
variable (ids : Identifiers) (p : MoveParser)

/-- Move's parser reads a type that stands for the tag. -/
def TypeSpelled (t : TypeTag) (text rest : Text) : Prop :=
  ∃ ty, p.parseType (p.lexer text) = .ok (ty, p.lexer rest) ∧ tagOf ids none ty = some t

/-- The types are written in front of `rest`, with commas between them. -/
inductive TypesSpelled : List TypeTag → Text → Text → Prop
  | nil (rest : Text) : TypesSpelled [] rest rest
  | last {t : TypeTag} {text rest : Text} (ht : TypeSpelled ids p t text rest) :
      TypesSpelled [t] text rest
  | cons {t u : TypeTag} {ts : List TypeTag} {text text' text'' rest : Text}
      (ht : TypeSpelled ids p t text text') (hcomma : Spelled p [comma] text' text'')
      (hts : TypesSpelled (u :: ts) text'' rest) : TypesSpelled (t :: u :: ts) text rest

/-- Without types the angle brackets may be left out. -/
inductive TypeListSpelled : List TypeTag → Text → Text → Prop
  | absent (rest : Text) : TypeListSpelled [] rest rest
  | angles {ts : List TypeTag} {text text' text'' rest : Text}
      (hless : Spelled p [⟨.Less, ['<']⟩] text text') (hts : TypesSpelled ids p ts text' text'')
      (hgreater : Spelled p [⟨.Greater, ['>']⟩] text'' rest) : TypeListSpelled ts text rest

variable {ids p} {t : TypeTag} {ts acc : List TypeTag} {text rest : Text}

theorem typeSpelled_of_valid (ht : NamesValid ids t)
    (h : p.parseType (p.lexer text) = .ok (typeOf t, p.lexer rest)) :
    TypeSpelled ids p t text rest := ⟨typeOf t, h, tagOf_typeOf ht⟩

theorem atType_of_typeSpelled (hp : p.Correct) (h : TypeSpelled ids p t text rest) :
    AtType (p.lexer text) := by
  obtain ⟨ty, hty, -⟩ := h
  exact hp.type hty

theorem typeParameterTurn_spelled (hp : p.Correct) (h : TypeSpelled ids p t text rest) :
    typeParameterTurn ids p (p.lexer text, acc) =
      result (.ok (.again (p.lexer rest, acc ++ [t]))) := by
  obtain ⟨hnone, hgreater, hcomma⟩ := atType_of_typeSpelled hp h
  obtain ⟨ty, hty, htag⟩ := h
  have hparse : parseTypeParams ids p (p.lexer text) = result (.ok (t, p.lexer rest)) := by
    rw [parseTypeParams, hty, ok_bind]
    show (unwrapSpannedTy_ ids none ty >>= _) = _
    rw [unwrapSpannedTy_of_tag htag]
    rfl
  rw [typeParameterTurn, if_neg hgreater, if_neg hnone, if_neg hcomma, hparse]
  rfl

theorem typeParameterTurn_comma (hp : p.Correct) (h : Spelled p [comma] text rest)
    (hrest : (p.lexer rest).peek ≠ none) :
    typeParameterTurn ids p (p.lexer text, acc) = result (.ok (.again (p.lexer rest, acc))) := by
  have hpeek := peek_spelled hp h
  rw [typeParameterTurn, if_neg (by simp [hpeek]), if_neg (by simp [hpeek]), if_pos hpeek,
    advance_spelled hp h hrest]
  rfl

theorem peek_typesSpelled (hp : p.Correct) (h : TypesSpelled ids p ts text rest)
    (hrest : (p.lexer rest).peek ≠ none) : (p.lexer text).peek ≠ none := by
  cases h with
  | nil => exact hrest
  | last ht => exact (atType_of_typeSpelled hp ht).1
  | cons ht _ _ => exact (atType_of_typeSpelled hp ht).1

theorem types_read (hp : p.Correct) (h : TypesSpelled ids p ts text rest)
    (hgreater : (p.lexer rest).peek = some .Greater) :
    Settles (fun fuel => loop (typeParameterTurn ids p) fuel (p.lexer text, acc))
      (result (.ok (p.lexer rest, acc ++ ts))) := by
  induction h generalizing acc with
  | nil rest =>
    rw [List.append_nil]
    exact settles_leave (if_pos hgreater)
  | last ht =>
    apply settles_again (typeParameterTurn_spelled hp ht)
    exact settles_leave (if_pos hgreater)
  | @cons t u ts _ _ _ _ ht hcomma hts ih =>
    have hnext := peek_typesSpelled hp hts (by simp [hgreater])
    apply settles_again (typeParameterTurn_spelled hp ht)
    apply settles_again (typeParameterTurn_comma hp hcomma hnext)
    rw [List.append_cons acc t (u :: ts)]
    exact ih hgreater

theorem callTypes_read (hp : p.Correct) (h : TypeListSpelled ids p ts text rest)
    (hparen : (p.lexer rest).peek = some .LParen) :
    Settles (fun fuel => callTypes ids p fuel (p.lexer text)) (result (.ok (p.lexer rest, ts))) := by
  cases h with
  | absent =>
    have hbody : (fun fuel => callTypes ids p fuel (p.lexer text)) =
        fun _ => result (.ok (p.lexer text, [])) := by
      funext fuel
      rw [callTypes, if_neg (by simp [hparen])]
      rfl
    rw [hbody]
    exact .const _
  | @angles _ _ text' _ _ hless hts hgreater =>
    have hend := peek_spelled hp hgreater
    have hstart := advance_spelled hp hless (peek_typesSpelled hp hts (by simp [hend]))
    have hstop := advance_spelled hp hgreater (by simp [hparen])
    have hbody : (fun fuel => callTypes ids p fuel (p.lexer text)) = fun fuel =>
        loop (typeParameterTurn ids p) fuel (p.lexer text', []) >>= fun x =>
          result x.1.advance >>= fun lexer => pure (lexer, x.2) := by
      funext fuel
      rw [callTypes_less (peek_spelled hp hless), hstart, ok_bind]
    rw [hbody]
    apply (types_read hp hts hend).bind
    rw [hstop]
    exact .const _

theorem peek_typeListSpelled (hp : p.Correct) (h : TypeListSpelled ids p ts text rest)
    (hrest : (p.lexer rest).peek ≠ none) : (p.lexer text).peek ≠ none := by
  cases h with
  | absent => exact hrest
  | angles hless _ _ => simp [peek_spelled hp hless]

end

abbrev lParen : Token := ⟨.LParen, ['(']⟩
abbrev rParen : Token := ⟨.RParen, [')']⟩
abbrev lBracket : Token := ⟨.LBracket, ['[']⟩
abbrev rBracket : Token := ⟨.RBracket, [']']⟩

/-- Neither a comma nor a bracket nor a parenthesis. -/
def Tok.plain : Tok → Bool
  | .Comma | .LParen | .RParen | .LBracket | .RBracket => false
  | _ => true

theorem Tok.ne_of_plain {t : Tok} (h : t.plain) :
    t ≠ .RParen ∧ t ≠ .Comma ∧ t ≠ .LBracket ∧ t ≠ .RBracket := by
  refine ⟨?_, ?_, ?_, ?_⟩ <;>
  · rintro rfl
    cases h

structure Word where
  tokens : List Token
  nonempty : tokens ≠ []
  plain : ∀ t ∈ tokens, t.tok.plain

inductive Argument where
  | word (w : Word)
  | list (ws : List Word)

namespace Argument

def tokens : Argument → List Token
  | .word w => w.tokens
  | .list ws => lBracket :: ([comma].intercalate (ws.map Word.tokens) ++ [rBracket])

theorem length_pos (a : Argument) : 0 < a.tokens.length := by
  cases a with
  | word w => exact List.length_pos_of_ne_nil w.nonempty
  | list ws => exact Nat.succ_pos _

def text (a : Argument) : Text := a.tokens.flatMap Token.content

theorem text_spelled {p : MoveParser} {a : Argument} {written rest : Text}
    (h : Spelled p a.tokens (written ++ rest) rest)
    (ha : ∀ t ∈ a.tokens, ∀ c ∈ t.content, ¬isWhitespace c) :
    a.text = written.filter (fun c => !isWhitespace c) := by
  obtain ⟨written', htext, hfilter⟩ := filter_spelled h ha
  rw [List.append_cancel_right htext, hfilter, text]

def separated (args : List Argument) : List Token := [comma].intercalate (args.map tokens)

theorem separated_cons_cons (a b : Argument) (args : List Argument) :
    separated (a :: b :: args) = a.tokens ++ comma :: separated (b :: args) := by
  rw [separated, List.map_cons, List.map_cons, List.intercalate_cons_cons, List.append_assoc]
  rfl

end Argument

open Argument

section
variable {t u : Token} {ts after : List Token} {failure : Option String} {acc : List Text}
  {fuel k : ℕ}

theorem argumentTurn_word (w : Word) (hu : u.tok = .Comma ∨ u.tok = .RParen)
    (hfuel : w.tokens.length ≤ fuel) :
    argumentTurn fuel (⟨w.tokens ++ u :: after, failure⟩, acc) =
      if u.tok = .RParen then result (.ok (.leave (acc ++ [text (.word w)])))
      else result (Lexer.standing after failure) >>= fun lexer =>
        pure (.again (lexer, acc ++ [text (.word w)])) := by
  obtain ⟨t, before, hw⟩ := List.exists_cons_of_ne_nil w.nonempty
  have hplain := w.plain
  rw [hw] at hplain hfuel
  obtain ⟨ht, hbefore⟩ := List.forall_mem_cons.mp hplain
  have hpass : ∀ x ∈ before,
      (some x.tok == some Tok.Comma || some x.tok == some Tok.RParen) = false := by
    intro x hx
    obtain ⟨hparen, hcomma, -⟩ := Tok.ne_of_plain (hbefore x hx)
    simp [hparen, hcomma]
  obtain ⟨hparen, hcomma, hbracket, -⟩ := Tok.ne_of_plain ht
  have hfound : loop (tokenTurn fun t => t == some .Comma || t == some .RParen) fuel
      (⟨before ++ u :: after, failure⟩, t.content) =
        result (.ok (⟨u :: after, failure⟩, t.content ++ before.flatMap Token.content)) :=
    tokens_found hpass (by simpa using hu) hfuel
  rw [text, Argument.tokens, hw, List.flatMap_cons, List.cons_append,
    argumentTurn_eq_word hparen hcomma hbracket, Lexer.standing_append, ok_bind, hfound, ok_bind]
  rcases hu with hu | hu
  · rw [if_neg (by simp [hu]), if_neg (by simp [hu])]
    rfl
  · rw [if_pos (by simp [hu]), if_pos hu]
    rfl

/-- No word of a list, and no comma between them, closes the bracket. -/
theorem intercalate_words (ws : List Word) :
    ∀ t ∈ [comma].intercalate (ws.map Word.tokens), (some t.tok == some Tok.RBracket) = false := by
  have hword : ∀ w : Word, ∀ t ∈ w.tokens, (some t.tok == some Tok.RBracket) = false := by
    intro w t ht
    obtain ⟨-, -, -, hbracket⟩ := Tok.ne_of_plain (w.plain t ht)
    simp [hbracket]
  induction ws with
  | nil => exact fun t ht => absurd ht List.not_mem_nil
  | cons w ws ih =>
    cases ws with
    | nil =>
      rw [List.map_singleton, List.intercalate_singleton]
      exact hword w
    | cons v ws =>
      intro t ht
      rw [List.map_cons, List.map_cons, List.intercalate_cons_cons, List.append_assoc] at ht
      rcases List.mem_append.mp ht with ht | ht
      · exact hword w t ht
      rcases List.mem_cons.mp ht with rfl | ht
      · rfl
      · exact ih t ht

theorem argumentTurn_list (ws : List Word) (u : Token)
    (hfuel : (Argument.tokens (.list ws)).length ≤ fuel) :
    argumentTurn fuel (⟨Argument.tokens (.list ws) ++ u :: after, failure⟩, acc) =
      result (.ok (.again (⟨u :: after, failure⟩, acc ++ [text (.list ws)]))) := by
  have hfound : loop (tokenTurn (· == some .RBracket)) fuel
      (⟨[comma].intercalate (ws.map Word.tokens) ++ rBracket :: u :: after, failure⟩, ['[']) =
        result (.ok (⟨rBracket :: u :: after, failure⟩,
          '[' :: ([comma].intercalate (ws.map Word.tokens)).flatMap Token.content)) := by
    apply tokens_found (intercalate_words ws) rfl
    rw [Argument.tokens, List.length_cons, List.length_append] at hfuel
    omega
  rw [text, Argument.tokens, List.cons_append, List.append_assoc, List.singleton_append,
    argumentTurn_eq_list rfl, Lexer.standing_append, ok_bind, hfound, ok_bind]
  have hcontent : ([comma].intercalate (ws.map Word.tokens) ++ [rBracket]).flatMap Token.content =
      ([comma].intercalate (ws.map Word.tokens)).flatMap Token.content ++ [']'] :=
    List.flatMap_append
  rw [List.flatMap_cons, hcontent]
  rfl

theorem argument_last (a : Argument) (hfuel : a.tokens.length ≤ fuel) :
    loop (argumentTurn fuel) (k + 2) (⟨a.tokens ++ rParen :: after, failure⟩, acc) =
      result (.ok (acc ++ [a.text])) := by
  cases a with
  | word w =>
    apply loop_leave
    rw [Argument.tokens, argumentTurn_word w (.inr rfl) hfuel, if_pos rfl]
  | list ws =>
    rw [loop_again (argumentTurn_list ws rParen hfuel)]
    exact loop_leave (if_pos rfl)

theorem argument_followed (a : Argument) (acc : List Text) (k : ℕ) (hfuel : a.tokens.length ≤ fuel)
    (hafter : Lexer.standing after failure = .ok ⟨after, failure⟩) : ∃ j, k ≤ j ∧
      loop (argumentTurn fuel) (k + 2) (⟨a.tokens ++ comma :: after, failure⟩, acc) =
        loop (argumentTurn fuel) j (⟨after, failure⟩, acc ++ [a.text]) := by
  cases a with
  | word w =>
    refine ⟨k + 1, Nat.le_succ k, loop_again ?_⟩
    rw [Argument.tokens, argumentTurn_word w (.inl rfl) hfuel, if_neg (by simp), hafter]
    rfl
  | list ws =>
    refine ⟨k, Nat.le_refl k, ?_⟩
    rw [loop_again (argumentTurn_list ws comma hfuel)]
    apply loop_again
    rw [argumentTurn, if_neg (by simp), if_neg (by simp), if_pos (by simp), Lexer.advance]
    show (result (Lexer.standing after failure) >>= _) = _
    rw [hafter]
    rfl

theorem arguments_read (args : List Argument) {fuel' : ℕ} (hfuel : (separated args).length < fuel)
    (hfuel' : (separated args).length < fuel') :
    loop (argumentTurn fuel) fuel' (⟨separated args ++ rParen :: after, failure⟩, acc) =
      result (.ok (acc ++ args.map text)) := by
  induction args generalizing acc fuel' with
  | nil =>
    obtain ⟨k, rfl⟩ := Nat.exists_eq_add_of_lt hfuel'
    rw [List.map_nil, List.append_nil]
    exact loop_leave (if_pos rfl)
  | cons a args ih =>
    cases args with
    | nil =>
      -- a list at the end takes a turn, and one more for the parenthesis
      have ha : separated [a] = a.tokens := List.intercalate_singleton
      have hpos := a.length_pos
      rw [ha] at hfuel hfuel' ⊢
      obtain ⟨k, rfl⟩ := Nat.exists_eq_add_of_le' (by omega : 2 ≤ fuel')
      exact argument_last a (by omega)
    | cons b args =>
      rw [separated_cons_cons, List.length_append, List.length_cons] at hfuel hfuel'
      have hpos := a.length_pos
      obtain ⟨k, rfl⟩ := Nat.exists_eq_add_of_le' (by omega : 2 ≤ fuel')
      have ha : a.tokens.length ≤ fuel := by omega
      obtain ⟨j, hj, hturn⟩ := argument_followed a acc k ha
        (Lexer.standing_append (separated (b :: args)) rParen after failure)
      have hsep : (separated (b :: args)).length < j := by omega
      rw [separated_cons_cons, List.append_assoc, List.cons_append, hturn, ih (by omega) hsep,
        List.append_assoc]
      rfl

end

/-- `name<t1, ..., tn>(a1, ..., am)` -/
def CallSpelled (ids : Identifiers) (p : MoveParser) (name : Text) (types : List TypeTag)
    (args : List Argument) (text : Text) : Prop :=
  ∃ text' text'', Spelled p [⟨.IdentifierValue, name⟩] text text' ∧
    TypeListSpelled ids p types text' text'' ∧
    Spelled p (lParen :: (separated args ++ [rParen])) text'' []

variable {ids : Identifiers} {p : MoveParser} {name text : Text} {types : List TypeTag}
  {args : List Argument}

theorem callName_read (hp : p.Correct) {rest : Text}
    (h : Spelled p [⟨.IdentifierValue, name⟩] text rest) (hrest : (p.lexer rest).peek ≠ none) :
    callName (p.lexer text) = result (.ok (p.lexer rest, name)) := by
  have hpeek := peek_spelled hp h
  have hcontent : (p.lexer text).content = name := by
    rw [lexer_spelled hp h]
    rfl
  rw [callName, if_neg (by simp [hpeek]), advance_spelled hp h hrest, ok_bind, hcontent]
  rfl

theorem callArguments_read (hp : p.Correct) {rest : Text}
    (h : Spelled p (lParen :: (separated args ++ [rParen])) text rest) :
    Settles (fun fuel => callArguments fuel (p.lexer text)) (result (.ok (args.map Argument.text))) := by
  refine ⟨(separated args).length, fun fuel hfuel => ?_⟩
  show callArguments fuel (p.lexer text) = _
  rw [lexer_spelled hp h, callArguments, if_neg (by simp)]
  show (result (Lexer.standing ((separated args ++ [rParen]) ++ _) _) >>= _) = _
  rw [List.append_assoc, List.singleton_append, Lexer.standing_append, ok_bind,
    arguments_read args hfuel hfuel, List.nil_append]

/-- A call is read as it is written: its name, its types and its arguments in their order, each of
these without the white space between its tokens. -/
theorem parse_call_inverts_printing (hp : p.Correct) (cr : Ss58.Crates)
    (h : CallSpelled ids p name types args text) (haddress : Ss58.NoAddress cr text) :
    Settles (fun fuel => parseCall ids p cr fuel text)
        (result (.ok ⟨name, types, args.map Argument.text⟩)) ∧
      ∀ a ∈ args, ∀ written rest, Spelled p a.tokens (written ++ rest) rest →
        (∀ t ∈ a.tokens, ∀ c ∈ t.content, ¬isWhitespace c) →
          a.text = written.filter (fun c => !isWhitespace c) := by
  refine ⟨?_, fun a _ written rest => text_spelled⟩
  obtain ⟨text', text'', hname, htypes, hargs⟩ := h
  have hparen := peek_spelled hp hargs
  have hnext := peek_typeListSpelled hp htypes (by simp [hparen])
  have hbody : (fun fuel => parseCall ids p cr fuel text) = fun fuel =>
      callTypes ids p fuel (p.lexer text') >>= fun x => callArguments fuel x.1 >>= fun arguments =>
        pure ⟨name, x.2, arguments⟩ := by
    funext fuel
    rw [parseCall, Ss58.replaceSs58Addresses_noAddress haddress, start_spelled hp hname, ok_bind,
      callName_read hp hname hnext, ok_bind]
  rw [hbody]
  apply (callTypes_read hp htypes hparen).bind
  apply (callArguments_read hp hargs).bind
  exact .const _

theorem Spelled.next {t : Token} {ts : List Token} {text' rest : Text}
    (htext : text = t.content ++ text') (ht : ReadsToken p t text text')
    (h : Spelled p ts text' rest) : Spelled p (t :: ts) text rest := by
  subst htext
  exact .token ht h

theorem plainTokens_white {c : Char} (hc : isWhitespace c) (text : Text) :
    plainTokens [] (c :: text) = plainTokens [] text := by
  have hpunctuation : punctuation c = none := by
    unfold punctuation
    split <;> first | rfl | cases hc
  have hother : ¬((c.isAlphanum || c == '_') = true) := by
    rw [Bool.or_eq_true]
    rintro (h | h)
    · exact not_isAlphanum_of_isWhitespace hc h
    · rw [beq_iff_eq.mp h] at hc
      cases hc
  rw [plainTokens, if_neg hother, hpunctuation]
  rfl

theorem plainParser_correct : plainParser.Correct where
  white text hc := congrArg (Lexer.mk · none) (plainTokens_white hc text)
  type h := by
    obtain ⟨name, htokens⟩ := plainParser_parseType h
    rw [AtType, Lexer.peek, htokens]
    exact ⟨by simp, by simp, by simp⟩

def number (digits : Text) : Word := ⟨[⟨.Other, digits⟩], by simp, by simp [Tok.plain]⟩

theorem storeCall_parsed : Settles
    (fun fuel => parseCall anyName plainParser Ss58.polkaCrates fuel
      "store<u8, bool>(60, [1, 2])".toList)
    (result (.ok ⟨"store".toList, [.U8, .Bool], ["60".toList, "[1,2]".toList]⟩)) := by
  have hname : Spelled plainParser [⟨.IdentifierValue, "store".toList⟩]
      "store<u8, bool>(60, [1, 2])".toList "<u8, bool>(60, [1, 2])".toList :=
    .next rfl rfl (.nil _)
  have hu8 : TypeSpelled anyName plainParser .U8 "u8, bool>(60, [1, 2])".toList
      ", bool>(60, [1, 2])".toList := typeSpelled_of_valid trivial rfl
  have hbool : TypeSpelled anyName plainParser .Bool "bool>(60, [1, 2])".toList
      ">(60, [1, 2])".toList := typeSpelled_of_valid trivial rfl
  have htypes : TypeListSpelled anyName plainParser [.U8, .Bool] "<u8, bool>(60, [1, 2])".toList
      "(60, [1, 2])".toList :=
    .angles (.next rfl rfl (.nil _))
      (.cons hu8 (.next rfl rfl (.white rfl (.nil _))) (.last hbool)) (.next rfl rfl (.nil _))
  have hargs : Spelled plainParser (lParen :: (separated [.word (number "60".toList),
      .list [number ['1'], number ['2']]] ++ [rParen])) "(60, [1, 2])".toList [] :=
    .next rfl rfl (.next rfl rfl (.next rfl rfl (.white rfl (.next rfl rfl (.next rfl rfl
      (.next rfl rfl (.white rfl (.next rfl rfl (.next rfl rfl (.next rfl rfl (.nil _)))))))))))
  exact (parse_call_inverts_printing plainParser_correct Ss58.polkaCrates
    ⟨_, _, hname, htypes, hargs⟩ (by unfold Ss58.NoAddress; decide)).1

end MoveTools.Dove
