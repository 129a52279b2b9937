import MoveTools.Compiler.LibraRewriting
import MoveTools.Executor.Session

namespace MoveTools.Executor.Reports
open Compiler Compiler.Parser

variable (compiled : FileMap (Text × FileOffsetMap))

/-- The reported span, in the text that is printed with it, is the piece of the compiled text
that the compiler's span is. The printed text is the compiled one, so the spans are equal. -/
def SamePiece (files : FileMap Text) (x y : Loc × Text) : Prop :=
  y.1.file = x.1.file ∧ files y.1.file = (compiled x.1.file).map Prod.fst ∧ y.1.span = x.1.span

def PairsAgree (errors : Errors) (report : Option (FileMap Text × Errors)) : Prop :=
  ∃ files reported, report = some (files, reported) ∧
    List.Forall₂ (List.Forall₂ (SamePiece compiled files)) errors reported

/-- Every span lies in a text that was compiled, and has byte indices. -/
def Over (errors : Errors) : Prop :=
  ∀ error ∈ errors, ∀ x ∈ error, ∃ text map, compiled x.1.file = some (text, map) ∧
    x.1.span.start ≤ x.1.span.stop ∧ x.1.span.stop ≤ Text.len text ∧ Text.len text < 2 ^ 32

/-- What rewriting added and took away in front of either end of a span cancels out. -/
def LengthsCancel (errors : Errors) : Prop :=
  ∀ error ∈ errors, ∀ x ∈ error, ∀ text map, compiled x.1.file = some (text, map) →
    (2 ^ 32 : ℤ) ∣ drift map.layers x.1.span.start ∧ (2 ^ 32 : ℤ) ∣ drift map.layers x.1.span.stop

theorem translateError_span_iff (m : FileOffsetMap) {x : Loc × Text}
    (hspan : x.1.span.start ≤ x.1.span.stop) (hstop : x.1.span.stop < 2 ^ 32) :
    (∃ y, m.translateError x = some y ∧ y.1.file = x.1.file ∧ y.1.span = x.1.span) ↔
      (2 ^ 32 : ℤ) ∣ drift m.layers x.1.span.start ∧
        (2 ^ 32 : ℤ) ∣ drift m.layers x.1.span.stop := by
  rw [← asU32_translatePos_eq_iff m (by omega), ← asU32_translatePos_eq_iff m hstop]
  rcases x with ⟨⟨file, start, stop⟩, msg⟩
  simp only at hspan hstop ⊢
  constructor
  · rintro ⟨y, hy, -, hs⟩
    obtain ⟨span, hnew, heq⟩ := Option.bind_eq_some_iff.mp hy
    cases heq
    simp only [FileOffsetMap.translateSpan, Span.new, Option.ite_none_right_eq_some,
      Option.some.injEq] at hnew
    obtain ⟨-, rfl⟩ := hnew
    simpa using hs
  · rintro ⟨h1, h2⟩
    refine ⟨(⟨file, ⟨start, stop⟩⟩, m.translateMessage msg), ?_, rfl, rfl⟩
    simp [FileOffsetMap.translateError, FileOffsetMap.translateSpan, h1, h2, Span.new, hspan]

variable {compiled}

theorem PairsAgree.spans_eq {errors : Errors} {report : Option (FileMap Text × Errors)}
    (h : PairsAgree compiled errors report) :
    report.map (fun r => r.2.map (·.map fun x => x.1.span)) =
      some (errors.map (·.map fun x => x.1.span)) := by
  obtain ⟨files, reported, rfl, hall⟩ := h
  have herror : ∀ {xs ys : Error}, List.Forall₂ (SamePiece compiled files) xs ys →
      ys.map (fun x => x.1.span) = xs.map fun x => x.1.span := by
    intro xs ys h
    induction h with
    | nil => rfl
    | cons h _ ih => rw [List.map_cons, List.map_cons, h.2.2, ih]
  rw [Option.map_some]
  congr 1
  induction hall with
  | nil => rfl
  | cons h _ ih => rw [List.map_cons, List.map_cons, herror h, ih]

/-- All flows report the translated errors, together with the rewritten texts. -/
theorem pairsAgree_transform_iff {errors : Errors} {files : FileMap Text}
    {offsets : ProjectOffsetMap} (hfiles : ∀ name, files name = (compiled name).map Prod.fst)
    (hoffsets : ∀ name, offsets name = (compiled name).map Prod.snd) (hover : Over compiled errors) :
    PairsAgree compiled errors ((offsets.transform errors).map fun e => (files, e)) ↔
      LengthsCancel compiled errors := by
  have hlist : PairsAgree compiled errors ((offsets.transform errors).map fun e => (files, e)) ↔
      ∃ reported, offsets.transform errors = some reported ∧
        List.Forall₂ (List.Forall₂ (SamePiece compiled files)) errors reported := by
    constructor
    · rintro ⟨_, reported, h, hall⟩
      obtain ⟨e, he, heq⟩ := Option.map_eq_some_iff.mp h
      cases heq
      exact ⟨reported, he, hall⟩
    · rintro ⟨reported, h, hall⟩
      exact ⟨files, reported, by rw [h]; rfl, hall⟩
  rw [hlist, ProjectOffsetMap.transform, mapM_forall₂_iff]
  refine forall₂_congr fun error herror => mapM_forall₂_iff.trans (forall₂_congr fun x hx => ?_)
  obtain ⟨text, map, hmap, hspan, hstop, hlen⟩ := hover error herror x hx
  have hiff := translateError_span_iff map hspan (by omega)
  have hmap' : offsets x.1.file = some map := by rw [hoffsets, hmap]; rfl
  constructor
  · rintro ⟨y, hy, hfile, -, hs⟩ _ _ hm
    cases hmap.symm.trans hm
    rw [hmap'] at hy
    exact hiff.mp ⟨y, hy, hfile, hs⟩
  · intro h
    obtain ⟨y, hy, hfile, hs⟩ := hiff.mpr (h text map hmap)
    exact ⟨y, by rw [hmap']; exact hy, hfile, by rw [hfile, hfiles], hs⟩

variable {lang : MoveLang} {α : Type}

def artifactsReport (artifacts : Artifacts lang) : Option (FileMap Text × Errors) :=
  match artifacts.prog with
  | .error errors => some (artifacts.files, errors)
  | .ok _ => none

def resultReport : Except CompilerError α → Option (FileMap Text × Errors)
  | .error e => some (e.sourceMap, e.errors)
  | .ok _ => none

section
variable {fuel : ℕ} {dialect : Dialect} {targets deps : List MoveFile}
  {artifact : ParserArtifact lang} {errors : Errors}

theorem moveBuilder_report {sender : Option ProvidedAccountAddress}
    (hparse : parseProgram lang fuel dialect sender targets deps = some artifact)
    (hresult : translation artifact sender = some (.error errors)) :
    (MoveBuilder.build lang fuel dialect sender targets deps).bind artifactsReport =
      (artifact.parsingMeta.offsetsMap.transform errors).map
        fun e => (artifact.parsingMeta.sourceMap, e) := by
  obtain ⟨s, hs⟩ := compile_eq_afterTranslate moveBuilder () hparse hresult
    (fun s => ⟨s, rfl⟩) (fun s r => ⟨s, rfl⟩)
  rw [MoveBuilder.build, hs]
  simp only [moveBuilder]
  cases artifact.parsingMeta.offsetsMap.transform errors <;> rfl

theorem sessionBuilder_report {parts : SessionParts lang} {sender : ProvidedAccountAddress}
    (hparse : parseProgram lang fuel dialect (some sender) targets deps = some artifact)
    (hresult : translation artifact (some sender) = some (.error errors)) :
    (SessionBuilder.build parts fuel dialect sender targets deps).bind resultReport =
      (artifact.parsingMeta.offsetsMap.transform errors).map
        fun e => (artifact.parsingMeta.sourceMap, e) := by
  obtain ⟨s, hs⟩ := compile_eq_afterTranslate (sessionBuilder parts) (.new parts sender)
    hparse hresult
    (fun s => by simp only [sessionBuilder]; split <;> exact ⟨_, rfl⟩)
    (fun s r => by simp only [sessionBuilder]; split <;> exact ⟨_, rfl⟩)
  rw [SessionBuilder.build, hs]
  simp only [sessionBuilder]
  cases artifact.parsingMeta.offsetsMap.transform errors <;> rfl

theorem scriptMetadata_report {metas : ScriptMetas lang} {script : MoveFile}
    (hparse : parseProgram lang fuel dialect none [script] [] = some artifact)
    (hresult : artifact.result = .error errors) :
    (ScriptMetadata.extract metas fuel dialect script).bind resultReport =
      (artifact.parsingMeta.offsetsMap.transform errors).map
        fun e => (artifact.parsingMeta.sourceMap, e) := by
  simp only [ScriptMetadata.extract, compile, hparse, scriptMetadata, Option.bind_eq_bind,
    Option.bind_some, hresult]
  cases artifact.parsingMeta.offsetsMap.transform errors <;> rfl

end

/-- Translated spans are printed with the rewritten text, so they only fit where the rewriting has
not moved anything. -/
theorem reports_agree_iff (lang : MoveLang) (fuel : ℕ) (dialect : Dialect)
    (targets deps : List MoveFile) (artifact : ParserArtifact lang) (errors : Errors) :
    (∀ sender, parseProgram lang fuel dialect sender targets deps = some artifact →
      translation artifact sender = some (.error errors) →
      let compiled := normalizedFiles fuel dialect sender (targets ++ deps)
      Over compiled errors →
      (PairsAgree compiled errors
          ((MoveBuilder.build lang fuel dialect sender targets deps).bind artifactsReport) ↔
        LengthsCancel compiled errors)) ∧
    (∀ (parts : SessionParts lang) (sender : ProvidedAccountAddress),
      parseProgram lang fuel dialect (some sender) targets deps = some artifact →
      translation artifact (some sender) = some (.error errors) →
      let compiled := normalizedFiles fuel dialect (some sender) (targets ++ deps)
      Over compiled errors →
      (PairsAgree compiled errors
          ((SessionBuilder.build parts fuel dialect sender targets deps).bind resultReport) ↔
        LengthsCancel compiled errors)) ∧
    (∀ (metas : ScriptMetas lang) (script : MoveFile),
      parseProgram lang fuel dialect none [script] [] = some artifact →
      artifact.result = .error errors →
      let compiled := normalizedFiles fuel dialect none [script]
      Over compiled errors →
      (PairsAgree compiled errors
          ((ScriptMetadata.extract metas fuel dialect script).bind resultReport) ↔
        LengthsCancel compiled errors)) := by
  refine ⟨?_, ?_, ?_⟩
  · intro sender hparse hresult compiled hover
    rw [moveBuilder_report hparse hresult]
    exact pairsAgree_transform_iff (fun name => (parseProgram_holds hparse name).1)
      (fun name => (parseProgram_holds hparse name).2) hover
  · intro parts sender hparse hresult compiled hover
    rw [sessionBuilder_report hparse hresult]
    exact pairsAgree_transform_iff (fun name => (parseProgram_holds hparse name).1)
      (fun name => (parseProgram_holds hparse name).2) hover
  · intro metas script hparse hresult compiled hover
    rw [scriptMetadata_report hparse hresult]
    exact pairsAgree_transform_iff (fun name => (parseProgram_holds hparse name).1)
      (fun name => (parseProgram_holds hparse name).2) hover

def unboundFile : MoveFile := ⟨"script.move".toList, "script{fun main(){0x1::M::f();x}}".toList⟩

/-- The compiler as it behaves on this file. -/
def unboundLang : MoveLang where
  Definition := Unit
  FileCommentMap := Unit
  CheckedProgram := Unit
  CompiledUnit := Unit
  Address := Unit
  noComments := ()
  stripCommentsAndVerify _ text := .ok (text, ())
  parseFileString _ _ := .ok [()]
  checkProgram _ _ := .error [[(⟨"script.move".toList, ⟨69, 70⟩⟩, "Unbound variable 'x'".toList)]]
  translateProgram _ := .ok []
  fromHexLiteral _ := some ()

abbrev unboundDialect : Dialect :=
  LibraAddresses.libraDialect LibraRewriting.digitsCrate 100

theorem unbound_parses :
    (parseProgram unboundLang 100 unboundDialect none [unboundFile] []).isSome := by
  decide +kernel

def unboundArtifact : ParserArtifact unboundLang :=
  (parseProgram unboundLang 100 unboundDialect none [unboundFile] []).get unbound_parses

def unboundErrors : Errors :=
  [[(⟨"script.move".toList, ⟨69, 70⟩⟩, "Unbound variable 'x'".toList)]]

theorem unbound_over :
    Over (normalizedFiles 100 unboundDialect none [unboundFile]) unboundErrors := by
  have hlen : (normalizedFiles 100 unboundDialect none [unboundFile] "script.move".toList).map
      (fun c => Text.len c.1) = some 72 := by
    decide +kernel
  obtain ⟨⟨text, map⟩, hc, hlen⟩ := Option.map_eq_some_iff.mp hlen
  intro error herror x hx
  obtain rfl := List.mem_singleton.mp herror
  obtain rfl := List.mem_singleton.mp hx
  exact ⟨text, map, hc, by decide, by simp only at hlen ⊢; omega, by simp only at hlen; omega⟩

theorem unbound_translation : translation unboundArtifact none = some (.error unboundErrors) := by
  simp only [translation, asAddress]
  rfl

/-- The `x` at byte 69 of the printed text is reported at byte 30, in the middle of an address. -/
theorem unbound_reported :
    translation unboundArtifact none = some (.error unboundErrors) ∧
      Over (normalizedFiles 100 unboundDialect none [unboundFile]) unboundErrors ∧
      ¬ PairsAgree (normalizedFiles 100 unboundDialect none [unboundFile]) unboundErrors
        ((MoveBuilder.build unboundLang 100 unboundDialect none [unboundFile] []).bind
          artifactsReport) := by
  refine ⟨unbound_translation, unbound_over, ?_⟩
  intro h
  have hspans := h.spans_eq
  revert hspans
  decide +kernel

theorem reports_agree_iff_unbound :
    PairsAgree (normalizedFiles 100 unboundDialect none [unboundFile]) unboundErrors
        ((MoveBuilder.build unboundLang 100 unboundDialect none [unboundFile] []).bind
          artifactsReport) ↔
      LengthsCancel (normalizedFiles 100 unboundDialect none [unboundFile]) unboundErrors :=
  (reports_agree_iff unboundLang 100 unboundDialect [unboundFile] [] unboundArtifact
    unboundErrors).1 none (Option.some_get _).symm unbound_translation unbound_over

end MoveTools.Executor.Reports
