import MoveTools.Library.Collect
import MoveTools.LanguageServer.Diagnostics

namespace MoveTools.LanguageServer.VisitingOrder
open Compiler Collect KeyStore

variable {δ : Type} (env : Env) (check : MoveFile → Option (Text × δ)) (db : RootDatabase)

/-- An order in which a hash set of files can be visited. -/
structure Visits (order : List Text) (files : Finset Text) : Prop where
  nodup : order.Nodup
  mem_iff : ∀ fpath, fpath ∈ order ↔ fpath ∈ files

/-- What the client shows after the batch has been published; `none` is a panic. -/
def viewAfter (s : Server δ) (order : List Text) : Option (Text → Option (List δ)) :=
  ((computeFileDiagnostics (fun file => some (check file)) db order).bind fun batch =>
    s.onTask env (.diagnostic batch)).map fun s' => clientView s'.sent

/-- The list that visiting a file leaves for a URI: the diagnostic found, or else an empty list
for the file itself. -/
def leaves (fpath uri : Text) : Option (List δ) :=
  let own := if env.urlFromFilePath fpath = some uri then some [] else none
  match (db.availableFiles.lookup fpath).bind fun text => check ⟨fpath, text⟩ with
  | some (file, d) => if env.urlFromFilePath file = some uri then some [d] else own
  | none => own

/-- All files that publish for the same URI leave the same list there. -/
def OneList (files : Finset Text) : Prop :=
  ∀ f ∈ files, ∀ g ∈ files, ∀ uri a b, leaves env check db f uri = some a →
    leaves env check db g uri = some b → a = b

/-- The main loop panics in any order. -/
def Unpublishable (files : Finset Text) : Prop :=
  ∃ f ∈ files, ∃ e ∈ entries check db f, env.urlFromFilePath e.fpath = none

def block (fpath : Text) : List (Write Text (List δ)) :=
  (entries check db fpath).filterMap (publishes env)

variable {env check db} {s : Server δ} {files : Finset Text} {order : List Text}

theorem last_block (fpath uri : Text) (h : ∀ e ∈ entries check db fpath,
    env.urlFromFilePath e.fpath ≠ none) :
    last (block env check db fpath) uri = (leaves env check db fpath uri).map some := by
  unfold block leaves
  generalize hr : ((db.availableFiles.lookup fpath).bind fun text => check ⟨fpath, text⟩) = reported
  have hentries : entries check db fpath =
      ⟨fpath, none⟩ :: (reported.map fun d => ⟨d.1, some d.2⟩).toList := by
    rw [entries, hr]
  rw [hentries] at h ⊢
  obtain ⟨own, hown⟩ := Option.ne_none_iff_exists'.mp (h ⟨fpath, none⟩ List.mem_cons_self)
  simp only at hown
  cases reported with
  | none =>
    by_cases huri : own = uri <;> simp [publishes, hown, huri, last]
  | some d =>
    obtain ⟨other, hother⟩ := Option.ne_none_iff_exists'.mp (h ⟨d.1, some d.2⟩ (by simp))
    simp only at hother
    by_cases h1 : other = uri
    · simp [publishes, hown, hother, h1, last]
    · by_cases h2 : own = uri <;> simp [publishes, hown, hother, h1, h2, last]

theorem viewAfter_eq : viewAfter env check db s order =
    ((order.flatMap (entries check db)).mapM (publishes env)).map (putAll (clientView s.sent)) := by
  rw [viewAfter, computeFileDiagnostics_eq, Option.bind_some, clientView_onTask]

theorem viewAfter_of_unpublishable (hv : Visits order files)
    (h : Unpublishable env check db files) : viewAfter env check db s order = none := by
  obtain ⟨f, hf, e, he, hnone⟩ := h
  rw [viewAfter_eq, mapM_eq_none (x := e)]
  · rfl
  · exact List.mem_flatMap.mpr ⟨f, (hv.mem_iff f).mpr hf, he⟩
  · simp [publishes, hnone]

theorem viewAfter_of_publishable (hv : Visits order files)
    (h : ¬ Unpublishable env check db files) : viewAfter env check db s order =
      some (putAll (clientView s.sent) (order.flatMap (block env check db))) := by
  rw [viewAfter_eq, mapM_eq_some_filterMap, Option.map_some, List.filterMap_flatMap]
  · rfl
  · intro e he hnone
    obtain ⟨f, hf, he⟩ := List.mem_flatMap.mp he
    exact h ⟨f, (hv.mem_iff f).mp hf, e, he, by simpa [publishes] using hnone⟩

theorem visits_last {f : Text} (hf : f ∈ files) :
    Visits ((files.erase f).toList ++ [f]) files where
  nodup := by
    rw [List.nodup_append]
    refine ⟨Finset.nodup_toList _, List.nodup_singleton f, ?_⟩
    rintro g hg h hh rfl
    obtain rfl := List.mem_singleton.mp hh
    simp at hg
  mem_iff g := by
    by_cases hg : g = f
    · simp [hg, hf]
    · simp [hg]

/-- Clearing entries stand between the others, so the last file visited decides. -/
theorem visiting_order_iff (env : Env) (check : MoveFile → Option (Text × δ)) (db : RootDatabase)
    (s : Server δ) (files : Finset Text) :
    (∀ o p, Visits o files → Visits p files →
        viewAfter env check db s o = viewAfter env check db s p) ↔
      Unpublishable env check db files ∨ OneList env check db files := by
  constructor
  · intro h
    by_cases hpub : Unpublishable env check db files
    · exact .inl hpub
    refine .inr fun f hf g hg uri a b ha hb => ?_
    -- two orders that visit one of the two files last
    have hsame := h _ _ (visits_last hf) (visits_last hg)
    rw [viewAfter_of_publishable (visits_last hf) hpub,
      viewAfter_of_publishable (visits_last hg) hpub] at hsame
    have huri := congrFun (Option.some.inj hsame) uri
    have hgood : ∀ f ∈ files, ∀ e ∈ entries check db f, env.urlFromFilePath e.fpath ≠ none :=
      fun f hf e he hnone => hpub ⟨f, hf, e, he, hnone⟩
    have hfa : last (block env check db f) uri = some (some a) := by
      rw [last_block f uri (hgood f hf), ha]
      rfl
    have hgb : last (block env check db g) uri = some (some b) := by
      rw [last_block g uri (hgood g hg), hb]
      rfl
    rw [putAll_eq, putAll_eq, last_flatMap_concat hfa, last_flatMap_concat hgb] at huri
    exact Option.some.inj huri
  · rintro (hpub | hone) o p ho hp
    · rw [viewAfter_of_unpublishable ho hpub, viewAfter_of_unpublishable hp hpub]
    · by_cases hpub : Unpublishable env check db files
      · rw [viewAfter_of_unpublishable ho hpub, viewAfter_of_unpublishable hp hpub]
      rw [viewAfter_of_publishable ho hpub, viewAfter_of_publishable hp hpub]
      congr 1
      funext uri
      rw [putAll_eq, putAll_eq]
      congr 1
      -- what a file publishes does not depend on where it is visited
      refine last_flatMap_congr (fun f => (ho.mem_iff f).trans (hp.mem_iff f).symm) ?_
      intro f hf g hg v w hv hw
      have hgood : ∀ f ∈ o, ∀ e ∈ entries check db f, env.urlFromFilePath e.fpath ≠ none :=
        fun f hf e he hnone => hpub ⟨f, (ho.mem_iff f).mp hf, e, he, hnone⟩
      rw [last_block f uri (hgood f hf)] at hv
      rw [last_block g uri (hgood g hg)] at hw
      obtain ⟨a, ha, rfl⟩ := Option.map_eq_some_iff.mp hv
      obtain ⟨b, hb, rfl⟩ := Option.map_eq_some_iff.mp hw
      rw [hone f ((ho.mem_iff f).mp hf) g ((ho.mem_iff g).mp hg) uri a b ha hb]

def pathEnv : Env where
  getDialect _ := ⟨fun addr => some ⟨addr, addr, addr⟩, fun text map => some (text, map)⟩
  uriToStr uri := some uri
  urlFromFilePath fpath := some fpath

def twoFiles : RootDatabase where
  config := ⟨.libra, none, ["/modules".toList], .default⟩
  availableFiles := (∅ : Files).insert "/modules/a.move".toList [] |>.insert "/modules/b.move".toList []

/-- Checking the second file reports an error in the first. -/
def blames (file : MoveFile) : Option (Text × Unit) :=
  if file.name = "/modules/b.move".toList then some ("/modules/a.move".toList, ()) else none

def bothFiles : Finset Text := {"/modules/a.move".toList, "/modules/b.move".toList}

theorem visits_pair {f g : Text} (hne : f ≠ g) : Visits [f, g] {f, g} ∧ Visits [g, f] {f, g} :=
  ⟨⟨by simp [hne], fun h => by simp⟩, ⟨by simp [hne.symm], fun h => by simp [or_comm]⟩⟩

/-- Visited last, the blamed file is cleared. -/
theorem blame_erased : ¬ ∀ o p, Visits o bothFiles → Visits p bothFiles →
    viewAfter pathEnv blames twoFiles ⟨⟨twoFiles⟩, {}, [], [], []⟩ o =
      viewAfter pathEnv blames twoFiles ⟨⟨twoFiles⟩, {}, [], [], []⟩ p := by
  intro h
  have hsame := h ["/modules/a.move".toList, "/modules/b.move".toList]
    ["/modules/b.move".toList, "/modules/a.move".toList] (visits_pair (by decide)).1
    (visits_pair (by decide)).2
  have hview := congrArg (fun v => v.map fun v => v "/modules/a.move".toList) hsame
  revert hview
  decide +kernel

end MoveTools.LanguageServer.VisitingOrder
