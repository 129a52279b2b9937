import Mathlib.Data.List.DropRight
import MoveTools.Compiler.Location

namespace MoveTools.Compiler.Location

def utf16Size (c : Char) : ℕ := if c.toNat ≤ 0xFFFF then 1 else 2

def utf16Len (s : Text) : ℕ := (s.map utf16Size).sum

def lastLine (s : Text) : Text := s.rtakeWhile (· != '\n')

def lspPosition (before : Text) : Position := ⟨before.count '\n', utf16Len (lastLine before)⟩

/-- The byte index that a client finds at a line and a code unit in it. -/
def clientIndex : Text → ℕ → ℕ → Option ℕ
  | _, 0, 0 => some 0
  | [], _, _ => none
  | c :: s, 0, n + 1 =>
    if c = '\n' ∨ n + 1 < utf16Size c then none
    else (clientIndex s 0 (n + 1 - utf16Size c)).map (c.utf8Size + ·)
  | c :: s, l + 1, n => (clientIndex s (if c = '\n' then l else l + 1) n).map (c.utf8Size + ·)

/-- Every character boundary has the position that the client maps back to it, and no other byte
index has one. -/
structure PositionsCorrect (source : Text) : Prop where
  boundary : ∀ before after, source = before ++ after →
    (File.new source).position (Text.len before) = .ok (lspPosition before)
  back : ∀ before after, source = before ++ after →
    ∀ p, (File.new source).position (Text.len before) = .ok p →
      clientIndex source p.line p.character = some (Text.len before)
  other : ∀ b < 2 ^ 32, ¬source.isCharBoundary b → ∃ e, (File.new source).position b = .error e

theorem afterNewlines_append (n : ℕ) (s t : Text) :
    afterNewlines n (s ++ t) = afterNewlines n s ++ afterNewlines (n + Text.len s) t := by
  induction s generalizing n with
  | nil => simp [afterNewlines]
  | cons c s ih =>
    rw [List.cons_append, afterNewlines, afterNewlines, ih, Text.len_cons, Nat.add_assoc]
    split
    · rw [List.cons_append]
    · rfl

theorem lt_of_mem_afterNewlines {n x : ℕ} {s : Text} (h : x ∈ afterNewlines n s) : n < x := by
  induction s generalizing n with
  | nil => cases h
  | cons c s ih =>
    have hpos := c.utf8Size_pos
    unfold afterNewlines at h
    split at h
    · rcases List.mem_cons.mp h with rfl | h
      · omega
      · exact lt_trans (by omega) (ih h)
    · exact lt_trans (by omega) (ih h)

theorem le_of_mem_afterNewlines {n x : ℕ} {s : Text} (h : x ∈ afterNewlines n s) :
    x ≤ n + Text.len s := by
  induction s generalizing n with
  | nil => cases h
  | cons c s ih =>
    rw [Text.len_cons]
    unfold afterNewlines at h
    split at h
    · rcases List.mem_cons.mp h with rfl | h
      · omega
      · exact (ih h).trans (by omega)
    · exact (ih h).trans (by omega)

theorem length_afterNewlines (n : ℕ) (s : Text) : (afterNewlines n s).length = s.count '\n' := by
  induction s generalizing n with
  | nil => rfl
  | cons c s ih =>
    rw [afterNewlines, List.count_cons]
    split
    · rename_i h
      simp [ih, h]
    · rename_i h
      simp [ih, h]

theorem getElem_afterNewlines (n : ℕ) (s : Text) :
    (n :: afterNewlines n s)[s.count '\n']? =
      some (n + Text.len (s.rdropWhile (· != '\n'))) := by
  induction s using List.reverseRecOn with
  | nil => rfl
  | append_singleton s c ih =>
    rw [afterNewlines_append, List.count_append]
    by_cases hc : c = '\n'
    · subst hc
      have hlen : (n :: afterNewlines n s).length = s.count '\n' + ['\n'].count '\n' := by
        rw [List.length_cons, length_afterNewlines]
        rfl
      rw [List.rdropWhile_concat_neg _ _ _ (by decide), ← hlen, ← List.cons_append,
        List.getElem?_append_right le_rfl, Nat.sub_self, Text.len_append]
      simp [afterNewlines, add_assoc]
    · have hnil : afterNewlines (n + Text.len s) [c] = [] := by simp [afterNewlines, hc]
      rw [List.rdropWhile_concat_pos _ _ _ (by simpa using hc), hnil, List.append_nil]
      simpa [hc] using ih

theorem lastLine_of_not_mem {s : Text} (h : '\n' ∉ s) : lastLine s = s := by
  rw [lastLine, List.rtakeWhile_eq_self_iff]
  intro c hc
  simpa using fun he : c = '\n' => h (he ▸ hc)

theorem lastLine_cons {c : Char} {s : Text} (h : c = '\n' ∨ '\n' ∈ s) :
    lastLine (c :: s) = lastLine s := by
  unfold lastLine List.rtakeWhile
  rw [List.reverse_cons, List.takeWhile_append]
  split
  · rename_i hlen
    have hall := List.takeWhile_eq_self_iff.mp ((List.takeWhile_prefix _).eq_of_length hlen)
    have hc : c = '\n' := by
      refine h.resolve_right fun hs => ?_
      exact absurd (hall '\n' (List.mem_reverse.mpr hs)) (by decide)
    rw [List.takeWhile_eq_self_iff.mpr hall]
    simp [hc]
  · rfl

theorem utf16Size_pos (c : Char) : 1 ≤ utf16Size c := by
  unfold utf16Size
  split <;> decide

theorem clientIndex_cons_zero {c : Char} (hc : c ≠ '\n') (s : Text) (n : ℕ) :
    clientIndex (c :: s) 0 (utf16Size c + n) = (clientIndex s 0 n).map (c.utf8Size + ·) := by
  have hpos := utf16Size_pos c
  obtain ⟨m, hm⟩ : ∃ m, utf16Size c + n = m + 1 := ⟨utf16Size c + n - 1, by omega⟩
  have hle : ¬(c = '\n' ∨ m + 1 < utf16Size c) := by
    rw [not_or]
    exact ⟨hc, by omega⟩
  rw [hm, clientIndex, if_neg hle, ← hm, Nat.add_sub_cancel_left]

/-- The position after a text leads a client to its end. -/
theorem clientIndex_lspPosition (before after : Text) :
    clientIndex (before ++ after) (lspPosition before).line (lspPosition before).character =
      some (Text.len before) := by
  induction before with
  | nil =>
    change clientIndex after 0 0 = some 0
    cases after <;> rfl
  | cons c s ih =>
    unfold lspPosition at ih ⊢
    rw [List.cons_append, List.count_cons, Text.len_cons]
    by_cases hs : '\n' ∈ s
    · -- the last line is that of the rest
      rw [lastLine_cons (.inr hs)]
      obtain ⟨k, hk⟩ := Nat.exists_eq_add_one_of_ne_zero (List.count_pos_iff.mpr hs).ne'
      rw [hk] at ih ⊢
      by_cases hc : c = '\n'
      · simp [clientIndex, hc, ih]
      · simp [clientIndex, hc, ih]
    · have hcount : s.count '\n' = 0 := List.count_eq_zero_of_not_mem hs
      rw [hcount] at ih ⊢
      by_cases hc : c = '\n'
      · rw [lastLine_cons (.inl hc)]
        simp [clientIndex, hc, ih]
      · have hline : lastLine (c :: s) = c :: lastLine s := by
          rw [lastLine_of_not_mem hs]
          exact lastLine_of_not_mem (by simp [hs, Ne.symm hc])
        have hlen : utf16Len (c :: lastLine s) = utf16Size c + utf16Len (lastLine s) := rfl
        rw [hline, hlen]
        simp [hc, clientIndex_cons_zero hc, ih]

theorem isCharBoundary_of_slice {s x : Text} {start stop : ℕ} (h : s.slice start stop = some x) :
    s.isCharBoundary stop := by
  unfold Text.slice at h
  split at h
  · rename_i hle
    obtain ⟨⟨a, rest⟩, ha, h⟩ := Option.bind_eq_some_iff.mp h
    obtain ⟨⟨y, b⟩, hy, _⟩ := Option.bind_eq_some_iff.mp h
    obtain ⟨rfl, hla⟩ := Text.splitBytes_eq_some.mp ha
    obtain ⟨rfl, hly⟩ := Text.splitBytes_eq_some.mp hy
    exact Text.isCharBoundary_iff.mpr ⟨a ++ y, b, by simp, by rw [Text.len_append]; omega⟩
  · cases h

theorem slice_append (a x b : Text) :
    (a ++ x ++ b).slice (Text.len a) (Text.len (a ++ x)) = some x := by
  have ha : Text.splitBytes (Text.len a) (a ++ (x ++ b)) = some (a, x ++ b) :=
    Text.splitBytes_eq_some.mpr ⟨rfl, rfl⟩
  have hx : Text.splitBytes (Text.len x) (x ++ b) = some (x, b) :=
    Text.splitBytes_eq_some.mpr ⟨rfl, rfl⟩
  have hlen : Text.len (a ++ x) = Text.len a + Text.len x := Text.len_append a x
  rw [Text.slice, hlen, if_pos (Nat.le_add_right _ _), Nat.add_sub_cancel_left, List.append_assoc,
    ha]
  exact congrArg (·.bind fun y => some y.1) hx

namespace File

theorem position_error {source : Text} {b : ℕ} (h : ¬source.isCharBoundary b) :
    ∃ e, (new source).position b = .error e := by
  cases hstart : (new source).lineStart ((new source).lineIndex b) with
  | none => exact ⟨_, by simp only [position, hstart]; rfl⟩
  | some start =>
    cases hs : (new source).source.slice start b with
    | none => exact ⟨_, by simp only [position, hstart, hs]; rfl⟩
    | some x => exact absurd (isCharBoundary_of_slice hs) h

section
variable {source before after : Text}

theorem lineStarts_new (hlen : Text.len source < 2 ^ 32) :
    (new source).lineStarts = 0 :: afterNewlines 0 source := by
  have hid : (afterNewlines 0 source).map asU32 = (afterNewlines 0 source).map id := by
    apply List.map_congr_left
    intro x hx
    have hle := le_of_mem_afterNewlines hx
    rw [Nat.zero_add] at hle
    exact Nat.mod_eq_of_lt (hle.trans_lt hlen)
  simp [new, hid, asU32]

theorem lineIndex_new (hlen : Text.len source < 2 ^ 32) (h : source = before ++ after) :
    (new source).lineIndex (Text.len before) = before.count '\n' := by
  have htake : (new source).lineStarts.takeWhile (· ≤ Text.len before) =
      0 :: afterNewlines 0 before := by
    rw [lineStarts_new hlen, h, afterNewlines_append, ← List.cons_append, Nat.zero_add,
      List.takeWhile_append_of_pos]
    · rw [List.takeWhile_eq_nil_iff.mpr, List.append_nil]
      intro hpos hle
      have hlt := lt_of_mem_afterNewlines (List.getElem_mem hpos)
      exact absurd hlt (not_lt.mpr (of_decide_eq_true hle))
    · intro x hx
      rcases List.mem_cons.mp hx with rfl | hx
      · simp
      · simpa using le_of_mem_afterNewlines hx
  rw [lineIndex, htake, List.length_cons, length_afterNewlines, Nat.add_sub_cancel]

theorem lastLineIndex_new (source : Text) :
    (new source).lastLineIndex = asU32 (source.count '\n' + 1) := by
  simp [lastLineIndex, new, length_afterNewlines]

theorem position_boundary (hlen : Text.len source < 2 ^ 32)
    (hlines : source.count '\n' < 2 ^ 32 - 1) (h : source = before ++ after) :
    (new source).position (Text.len before) =
      .ok ⟨before.count '\n', (lastLine before).length⟩ := by
  have hcount : before.count '\n' ≤ source.count '\n' := by
    rw [h, List.count_append]
    exact Nat.le_add_right _ _
  have hlast : (new source).lastLineIndex = source.count '\n' + 1 := by
    rw [lastLineIndex_new]
    exact Nat.mod_eq_of_lt (by omega)
  have hstart : (new source).lineStart (before.count '\n') =
      some (Text.len (before.rdropWhile (· != '\n'))) := by
    rw [lineStart, hlast, compare_lt_iff_lt.mpr (by omega), lineStarts_new hlen, h,
      afterNewlines_append, ← List.cons_append, List.getElem?_append_left, getElem_afterNewlines,
      Nat.zero_add]
    rw [List.length_cons, length_afterNewlines]
    exact Nat.lt_succ_self _
  have hbefore : before.rdropWhile (· != '\n') ++ lastLine before = before :=
    List.rdropWhile_append_rtakeWhile
  have hslice : (new source).source.slice (Text.len (before.rdropWhile (· != '\n')))
      (Text.len before) = some (lastLine before) := by
    have h' : source = before.rdropWhile (· != '\n') ++ lastLine before ++ after := by
      rw [hbefore, h]
    have hs := slice_append (before.rdropWhile (· != '\n')) (lastLine before) after
    rwa [← h', hbefore] at hs
  have hline : (lastLine before).length < 2 ^ 32 := by
    have h1 := Text.length_le_len (lastLine before)
    have h2 := congrArg Text.len hbefore
    have h3 := congrArg Text.len h
    rw [Text.len_append] at h2 h3
    omega
  simp only [position, lineIndex_new hlen h, hstart, hslice]
  rw [asU32, Nat.mod_eq_of_lt hline]

end
end File

theorem utf16Len_eq_length {s : Text} (h : ∀ c ∈ s, utf16Size c = 1) : utf16Len s = s.length := by
  rw [utf16Len, List.map_congr_left h, List.map_const', List.sum_replicate]
  simp

theorem length_le_utf16Len (s : Text) : s.length ≤ utf16Len s := by
  induction s with
  | nil => rfl
  | cons c s ih =>
    have hpos := utf16Size_pos c
    have hcons : utf16Len (c :: s) = utf16Size c + utf16Len s := rfl
    rw [hcons, List.length_cons]
    omega

section
variable {source : Text}

/-- With `2 ^ 32` lines there is no last line, and not even the start of the text is found. -/
theorem PositionsCorrect.count_lt (hlen : Text.len source < 2 ^ 32) (h : PositionsCorrect source) :
    source.count '\n' < 2 ^ 32 - 1 := by
  by_contra hge
  have hcount : source.count '\n' ≤ Text.len source :=
    List.count_le_length.trans (Text.length_le_len source)
  have hlast : (File.new source).lastLineIndex = 0 := by
    rw [File.lastLineIndex_new, show source.count '\n' + 1 = 2 ^ 32 by omega]
    rfl
  have hindex : (File.new source).lineIndex 0 = 0 :=
    File.lineIndex_new hlen (show source = [] ++ source from rfl)
  have hstart : (File.new source).lineStart 0 = some (Text.len source) := by
    rw [File.lineStart, hlast]
    exact congrArg some (Nat.mod_eq_of_lt hlen)
  have hslice : (File.new source).source.slice (Text.len source) 0 = none :=
    if_neg (by omega)
  have hzero := h.boundary [] source rfl
  simp only [File.position, Text.len_nil, hindex, hstart, hslice] at hzero
  cases hzero

theorem PositionsCorrect.utf16Size_eq (hlen : Text.len source < 2 ^ 32)
    (h : PositionsCorrect source) {c : Char} (hc : c ∈ source) : utf16Size c = 1 := by
  by_cases hn : c = '\n'
  · rw [hn]
    rfl
  · obtain ⟨a, b, hab⟩ := List.append_of_mem hc
    have hsplit : source = (a ++ [c]) ++ b := by rw [hab, List.append_assoc, List.singleton_append]
    have hok := h.boundary (a ++ [c]) b hsplit
    rw [File.position_boundary hlen (h.count_lt hlen) hsplit] at hok
    -- the two columns just behind the character
    have hcolumn : (lastLine (a ++ [c])).length = utf16Len (lastLine (a ++ [c])) :=
      congrArg Position.character (Except.ok.inj hok)
    have hline : lastLine (a ++ [c]) = lastLine a ++ [c] :=
      List.rtakeWhile_concat_pos _ _ _ (by simpa using hn)
    have hlen : utf16Len (lastLine a ++ [c]) = utf16Len (lastLine a) + utf16Size c := by
      simp [utf16Len]
    have hle := length_le_utf16Len (lastLine a)
    have hpos := utf16Size_pos c
    rw [hline, hlen, List.length_append, List.length_singleton] at hcolumn
    omega

end

/-- Columns are counted in characters, and lines in 32 bits. -/
theorem positionsCorrect_iff (source : Text) (hlen : Text.len source < 2 ^ 32) :
    PositionsCorrect source ↔
      (∀ c ∈ source, utf16Size c = 1) ∧ source.count '\n' < 2 ^ 32 - 1 := by
  constructor
  · intro h
    exact ⟨fun c hc => h.utf16Size_eq hlen hc, h.count_lt hlen⟩
  · rintro ⟨hunits, hlines⟩
    have hboundary : ∀ before after, source = before ++ after →
        (File.new source).position (Text.len before) = .ok (lspPosition before) := by
      intro before after h
      have hline : ∀ c ∈ lastLine before, utf16Size c = 1 := by
        intro c hc
        apply hunits
        rw [h]
        exact List.mem_append_left _ ((List.rtakeWhile_suffix _ _).subset hc)
      rw [File.position_boundary hlen hlines h, lspPosition, utf16Len_eq_length hline]
    refine ⟨hboundary, fun before after h p hp => ?_, fun b _ hb => File.position_error hb⟩
    rw [hboundary before after h] at hp
    cases hp
    rw [h]
    exact clientIndex_lspPosition before after

theorem positionsCorrect_iff_ascii :
    PositionsCorrect "a\nb".toList ↔
      (∀ c ∈ "a\nb".toList, utf16Size c = 1) ∧ "a\nb".toList.count '\n' < 2 ^ 32 - 1 :=
  positionsCorrect_iff _ (by decide)

/-- The end of a text that is one character outside the basic plane is in column 2. -/
theorem astral_position : ¬PositionsCorrect "😀".toList := by
  intro h
  have hend := h.boundary "😀".toList [] rfl
  revert hend
  decide

end MoveTools.Compiler.Location
