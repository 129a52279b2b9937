import MoveTools.LanguageServer.OpenDocuments

namespace MoveTools.LanguageServer.Configuration
open Compiler Runs

variable {δ : Type} (env : Env)

def asRequest : ServerMessage δ → Option (RequestId × Method)
  | .request id method => some (id, method)
  | _ => none

/-- The requests of the server, from the first to the last. -/
def requests (s : Server δ) : List (RequestId × Method) := s.sent.filterMap asRequest

/-- The server, and the requests that its client has answered, by their places. -/
structure World (δ : Type) where
  server : Server δ
  answered : List ℕ := []

inductive Action (δ : Type) where
  | input (input : Input δ)
  | answer (disk : Disk) (i : ℕ) (error : Option Text) (result : Option (Option Settings))

def isResponse (input : Input δ) : Bool :=
  match input.ready with
  | .lsp (.response _) => true
  | _ => false

/-- The client answers each request at most once, in any order; all else may happen in between. -/
def act (w : World δ) : Action δ → Option (World δ)
  | .input input =>
    if isResponse input then none
    else (turn env w.server input).map fun s => { w with server := s }
  | .answer disk i error result =>
    match (requests w.server)[i]? with
    | none => none
    | some (id, _) =>
      if i ∈ w.answered then none
      else (turn env w.server ⟨disk, .lsp (.response ⟨id, error, result⟩)⟩).map fun s =>
        ⟨s, i :: w.answered⟩

/-- A response with this id would be taken for the answer to a configuration request. -/
def Treated (s : Server δ) (id : RequestId) : Prop := s.loopState.configurationRequestId = some id

def Latest (s : Server δ) (i : ℕ) : Prop :=
  ∃ id, (requests s)[i]? = some (id, .workspaceConfiguration) ∧
    ∀ j id', (requests s)[j]? = some (id', .workspaceConfiguration) → j ≤ i

/-- Settings that come with the answer are put into effect. -/
def Applied (w : World δ) (i : ℕ) : Prop :=
  ∀ disk newConfig config state, Config.default env = some config →
    initializeNewGlobalState disk (config.update env disk newConfig) = some state →
    ∃ w', act env w (.answer disk i none (some (some newConfig))) = some w' ∧
      w'.server.globalState = state

/-- An answer is only treated as one to a configuration request if it is, and the one to the
latest configuration request is applied. -/
def SafeStep (w : World δ) (action : Action δ) : Prop :=
  ∀ disk i error result, action = .answer disk i error result → ∀ id method,
    (requests w.server)[i]? = some (id, method) → i ∉ w.answered →
    (Treated w.server id → method = .workspaceConfiguration) ∧
      (Latest w.server i → Treated w.server id ∧ Applied env w i)

/-- The number that the server gives to its request in place `i`. The first is the registration,
which takes the number of the first configuration request. -/
def number (i : ℕ) : ℕ := max i 1

/-- While the last request is not answered, no other answer arrives that carries its number. -/
def NoClash (w : World δ) (action : Action δ) : Prop :=
  ∀ disk i error result, action = .answer disk i error result →
    let last := (requests w.server).length - 1
    last ∉ w.answered → i ≠ last → number i % 2 ^ 32 ≠ number last % 2 ^ 32

def requestAt (i : ℕ) : RequestId × Method :=
  (.i32 (BitVec.ofNat 32 (number i)),
    if i = 0 then .registerCapability else .workspaceConfiguration)

/-- After `n` configuration requests: what was sent, and what is awaited. -/
structure Numbered (n : ℕ) (w : World δ) : Prop where
  requests_eq : requests w.server = (List.range (n + 1)).map requestAt
  next_eq : w.server.loopState.nextRequestId = BitVec.ofNat 32 n
  awaited_eq : w.server.loopState.configurationRequestId =
    if 1 ≤ n ∧ n ∉ w.answered then some (.i32 (BitVec.ofNat 32 n)) else none
  answered_le : ∀ i ∈ w.answered, i ≤ n

/-- Nothing that has to do with configuration requests. -/
structure Unrelated (s s' : Server δ) : Prop where
  requests_eq : requests s' = requests s
  next_eq : s'.loopState.nextRequestId = s.loopState.nextRequestId
  awaited_eq : s'.loopState.configurationRequestId = s.loopState.configurationRequestId

variable {env} {w w' : World δ} {s s' : Server δ} {n : ℕ}

theorem Unrelated.refl (s : Server δ) : Unrelated s s := ⟨rfl, rfl, rfl⟩

theorem Unrelated.trans {s'' : Server δ} (h : Unrelated s s') (h' : Unrelated s' s'') :
    Unrelated s s'' :=
  ⟨h'.1.trans h.1, h'.2.trans h.2, h'.3.trans h.3⟩

theorem Numbered.unrelated (h : Numbered n w) (hs : Unrelated w.server s) :
    Numbered n { w with server := s } where
  requests_eq := hs.requests_eq.trans h.requests_eq
  next_eq := hs.next_eq.trans h.next_eq
  awaited_eq := hs.awaited_eq.trans h.awaited_eq
  answered_le := h.answered_le

theorem removeFiles_unrelated {uris : List Text}
    (h : uris.foldlM (Server.removeFile env) s = some s') : Unrelated s s' := by
  apply foldlM_preserves (I := Unrelated s) (fun _ hremove ht => ht.trans ?_) h (.refl s)
  obtain ⟨fpath, -, heq⟩ := Option.bind_eq_some_iff.mp hremove
  cases heq
  exact ⟨rfl, rfl, rfl⟩

theorem filterMap_mapM_eq_nil {α β γ : Type} {f : α → Option β} {g : β → Option γ}
    (hg : ∀ {x y}, f x = some y → g y = none) {xs : List α} {ys : List β}
    (h : xs.mapM f = some ys) : ys.filterMap g = [] := by
  induction xs generalizing ys with
  | nil =>
    cases h
    rfl
  | cons x xs ih =>
    rw [List.mapM_cons] at h
    obtain ⟨y, hy, h⟩ := Option.bind_eq_some_iff.mp h
    obtain ⟨zs, hzs, heq⟩ := Option.bind_eq_some_iff.mp h
    cases heq
    rw [List.filterMap_cons, hg hy, ih hzs]

theorem onTask_unrelated {task : ResponseEvent δ} (h : s.onTask env task = some s') :
    Unrelated s s' := by
  cases task with
  | respond id =>
    cases h
    exact ⟨by simp [requests, asRequest], rfl, rfl⟩
  | diagnostic fileDiags =>
    obtain ⟨messages, hmessages, heq⟩ := Option.bind_eq_some_iff.mp h
    cases heq
    refine ⟨?_, rfl, rfl⟩
    have hnone := filterMap_mapM_eq_nil (g := asRequest) (fun {fileDiag message} hm => by
      obtain ⟨uri, -, heq⟩ := Option.bind_eq_some_iff.mp hm
      cases heq
      rfl) hmessages
    simp [requests, hnone]

theorem Numbered.request (h : Numbered n w) :
    Numbered (n + 1) { w with server := w.server.requestConfiguration } where
  requests_eq := by
    have := h.requests_eq
    simp only [requests] at this
    simp [requests, Server.requestConfiguration, asRequest, this, List.range_succ (n := n + 1),
      LoopState.takeRequestId, h.next_eq, requestAt, number, BitVec.ofNat_add]
  next_eq := by
    simp [Server.requestConfiguration, LoopState.takeRequestId, h.next_eq, BitVec.ofNat_add]
  awaited_eq := by
    have hnew : n + 1 ∉ w.answered := fun hm => by
      have := h.answered_le _ hm
      omega
    simp [Server.requestConfiguration, LoopState.takeRequestId, h.next_eq, hnew, BitVec.ofNat_add]
  answered_le i hi := (h.answered_le i hi).trans (Nat.le_succ n)

theorem onNotification_numbered (h : Numbered n w) {not : Notification}
    (hs : w.server.onNotification env not = some s) :
    ∃ m, Numbered m { w with server := s } := by
  cases not with
  | didOpen uri text =>
    obtain ⟨fpath, -, heq⟩ := Option.bind_eq_some_iff.mp hs
    cases heq
    exact ⟨n, h.unrelated ⟨rfl, rfl, rfl⟩⟩
  | didChange uri contentChanges =>
    obtain ⟨fpath, -, hs⟩ := Option.bind_eq_some_iff.mp hs
    obtain ⟨newText, -, heq⟩ := Option.bind_eq_some_iff.mp hs
    cases heq
    exact ⟨n, h.unrelated ⟨rfl, rfl, rfl⟩⟩
  | didClose uri =>
    obtain ⟨fpath, -, heq⟩ := Option.bind_eq_some_iff.mp hs
    cases heq
    exact ⟨n, h.unrelated ⟨rfl, rfl, rfl⟩⟩
  | didChangeConfiguration =>
    cases hs
    exact ⟨n + 1, h.request⟩
  | didChangeWatchedFiles uris => exact ⟨n, h.unrelated (removeFiles_unrelated hs)⟩
  | other =>
    cases hs
    exact ⟨n, h⟩

theorem input_numbered (h : Numbered n w) {input : Input δ}
    (hact : act env w (.input input) = some w') : ∃ m, Numbered m w' := by
  simp only [act, Option.ite_none_left_eq_some] at hact
  obtain ⟨hnot, hact⟩ := hact
  obtain ⟨s, hs, rfl⟩ := Option.map_eq_some_iff.mp hact
  unfold turn at hs
  cases hready : input.ready with
  | lsp message =>
    rw [hready] at hs
    cases message with
    | request =>
      cases hs
      exact ⟨n, h⟩
    | notification not => exact onNotification_numbered h hs
    | response resp => simp [isResponse, hready] at hnot
  | response task =>
    rw [hready] at hs
    exact ⟨n, h.unrelated (onTask_unrelated hs)⟩
  | fileSystem =>
    rw [hready] at hs
    cases hqueue : w.server.fsEvents with
    | nil =>
      rw [hqueue] at hs
      cases hs
    | cons e rest =>
      rw [hqueue] at hs
      cases hs
      exact ⟨n, h.unrelated ⟨rfl, rfl, rfl⟩⟩

theorem Numbered.getElem (h : Numbered n w) {i : ℕ} {id : RequestId} {method : Method}
    (hi : (requests w.server)[i]? = some (id, method)) : i ≤ n ∧ (id, method) = requestAt i := by
  rw [h.requests_eq, List.getElem?_map] at hi
  obtain ⟨j, hj, heq⟩ := Option.map_eq_some_iff.mp hi
  obtain ⟨hlt, rfl⟩ := List.getElem?_eq_some_iff.mp hj
  rw [List.length_range] at hlt
  rw [List.getElem_range] at heq
  exact ⟨by omega, heq.symm⟩

/-- Only the number decides whether an answer is taken for the one that is awaited. -/
theorem Numbered.treated_iff (h : Numbered n w) {i : ℕ} {id : RequestId} {method : Method}
    (hi : (requests w.server)[i]? = some (id, method)) :
    Treated w.server id ↔ (1 ≤ n ∧ n ∉ w.answered) ∧ number i % 2 ^ 32 = number n % 2 ^ 32 := by
  obtain ⟨-, hid⟩ := h.getElem hi
  obtain ⟨rfl, -⟩ := Prod.mk.inj hid
  rw [Treated, h.awaited_eq]
  by_cases hn : 1 ≤ n ∧ n ∉ w.answered
  · rw [if_pos hn, Option.some.injEq, RequestId.i32.injEq, ← BitVec.toNat_inj, BitVec.toNat_ofNat,
      BitVec.toNat_ofNat, number, number, max_eq_left hn.1]
    exact ⟨fun he => ⟨hn, he.symm⟩, fun he => he.2.symm⟩
  · simp [hn]

theorem Numbered.eq_last (h : Numbered n w) {disk : Disk} {i : ℕ} {error : Option Text}
    {result : Option (Option Settings)} (hok : NoClash w (.answer disk i error result))
    {id : RequestId} {method : Method} (hi : (requests w.server)[i]? = some (id, method))
    (ht : Treated w.server id) : i = n ∧ 1 ≤ n := by
  obtain ⟨⟨hpos, hn⟩, hnum⟩ := (h.treated_iff hi).mp ht
  have hlast : (requests w.server).length - 1 = n := by simp [h.requests_eq]
  refine ⟨by_contra fun hne => ?_, hpos⟩
  have := hok disk i error result rfl
  rw [hlast] at this
  exact this hn hne hnum

variable (env) in
theorem onResponse_untreated (disk : Disk) (resp : Response) (ht : ¬ Treated s resp.id) :
    s.onResponse env disk resp = some s := if_neg ht

theorem onResponse_treated {disk : Disk} {resp : Response} (ht : Treated s resp.id)
    (hs : s.onResponse env disk resp = some s') :
    requests s' = requests s ∧ s'.loopState.nextRequestId = s.loopState.nextRequestId ∧
      s'.loopState.configurationRequestId = none := by
  have ht' : s.loopState.configurationRequestId = some resp.id := ht
  rw [Server.onResponse, if_pos ht'] at hs
  split at hs
  · cases hs
    exact ⟨rfl, rfl, rfl⟩
  · obtain ⟨config, -, hs⟩ := Option.bind_eq_some_iff.mp hs
    obtain ⟨state, -, heq⟩ := Option.bind_eq_some_iff.mp hs
    cases heq
    exact ⟨rfl, rfl, rfl⟩
  · cases hs
    exact ⟨rfl, rfl, rfl⟩
  · cases hs
    exact ⟨rfl, rfl, rfl⟩

theorem answer_numbered (h : Numbered n w) {disk : Disk} {i : ℕ} {error : Option Text}
    {result : Option (Option Settings)} (hok : NoClash w (.answer disk i error result))
    (hact : act env w (.answer disk i error result) = some w') : Numbered n w' := by
  simp only [act] at hact
  split at hact
  · cases hact
  · rename_i id method hi
    rw [Option.ite_none_left_eq_some] at hact
    obtain ⟨hfresh, hact⟩ := hact
    obtain ⟨s, hs, rfl⟩ := Option.map_eq_some_iff.mp hact
    have hle : ∀ j ∈ i :: w.answered, j ≤ n := by
      intro j hj
      rcases List.mem_cons.mp hj with rfl | hj
      · exact (h.getElem hi).1
      · exact h.answered_le j hj
    by_cases ht : Treated w.server id
    · obtain ⟨rfl, hpos⟩ := h.eq_last hok hi ht
      obtain ⟨hreq, hnext, hnone⟩ := onResponse_treated ht hs
      exact ⟨hreq.trans h.requests_eq, hnext.trans h.next_eq, hnone.trans (by simp), hle⟩
    · have hsame : s = w.server := by
        have hkeep := onResponse_untreated env disk ⟨id, error, result⟩ ht
        exact (Option.some.inj (hkeep.symm.trans hs)).symm
      subst hsame
      refine ⟨h.requests_eq, h.next_eq, h.awaited_eq.trans ?_, hle⟩
      by_cases hin : i = n
      · -- the answer to the last request would be treated
        subst hin
        have : ¬ (1 ≤ i ∧ i ∉ w.answered) := fun hp => ht ((h.treated_iff hi).mpr ⟨hp, rfl⟩)
        rw [if_neg this, if_neg (by simp)]
      · simp [Ne.symm hin]

theorem Numbered.safeStep (h : Numbered n w) {action : Action δ} (hok : NoClash w action) :
    SafeStep env w action := by
  rintro disk i error result rfl id method hi hfresh
  obtain ⟨hle, hid⟩ := h.getElem hi
  refine ⟨fun ht => ?_, fun hlatest => ?_⟩
  · obtain ⟨rfl, hpos⟩ := h.eq_last hok hi ht
    rw [(Prod.mk.inj hid).2, if_neg (by omega)]
  · obtain ⟨id', hi', hmax⟩ := hlatest
    obtain ⟨rfl, hmethod⟩ := Prod.mk.inj (Option.some.inj (hi.symm.trans hi'))
    have hpos : i ≠ 0 := by
      rintro rfl
      rw [hmethod] at hid
      simp [requestAt] at hid
    have hlast : n ≤ i := by
      refine hmax n (requestAt n).1 ?_
      rw [h.requests_eq, List.getElem?_map, List.getElem?_range (Nat.lt_succ_self n)]
      simp [requestAt, show n ≠ 0 by omega]
    obtain rfl : i = n := le_antisymm hle hlast
    have ht : Treated w.server id := (h.treated_iff hi).mpr ⟨⟨by omega, hfresh⟩, rfl⟩
    refine ⟨ht, fun disk newConfig config state hconfig hstate => ?_⟩
    have ht' : w.server.loopState.configurationRequestId = some id := ht
    refine ⟨⟨{ w.server with
      globalState := state
      loopState := { w.server.loopState with configurationRequestId := none } }, i :: w.answered⟩,
      ?_, rfl⟩
    simp [act, hi, hfresh, turn, Server.loopTurn, Server.onResponse, ht', hconfig, hstate]

/-- The registration and the first configuration request have one id. Where their answers do not
meet, and no number comes round while an older request with it is open, each answer is taken for
what it is. -/
theorem answers_safe {disk : Disk} {options : Option Settings} {start : Server δ}
    (hstart : runServer env disk options = some start) {history : List (Action δ)} {w : World δ}
    (h : Run (act env) (fun _ => NoClash) ⟨start, []⟩ history w) {action : Action δ}
    (hok : NoClash w action) : SafeStep env w action := by
  have hfirst : Numbered 0 (⟨start, []⟩ : World δ) := by
    obtain ⟨config, -, hs⟩ := Option.bind_eq_some_iff.mp hstart
    obtain ⟨state, -, heq⟩ := Option.bind_eq_some_iff.mp hs
    cases heq
    exact ⟨rfl, rfl, rfl, by simp⟩
  have hall : ∃ n, Numbered n w := by
    refine h.invariant (I := fun _ w => ∃ n, Numbered n w) ⟨0, hfirst⟩ ?_
    rintro _ w w' (input | ⟨disk, i, error, result⟩) ⟨n, hn⟩ hok hact
    · exact input_numbered hn hact
    · exact ⟨n, answer_numbered hn hok hact⟩
  obtain ⟨n, hn⟩ := hall
  exact hn.safeStep hok

open OpenDocuments

def didChangeConfiguration : Action Unit :=
  .input ⟨emptyDisk, .lsp (.notification .didChangeConfiguration)⟩

def answerRegistration : Action Unit := .answer emptyDisk 0 none (some none)

def answerConfiguration : Action Unit :=
  .answer emptyDisk 1 none (some (some ⟨none, none, none, none⟩))

theorem configurationAwaited_isSome :
    (act plainEnv ⟨plainStart, []⟩ didChangeConfiguration).isSome := by
  decide +kernel

def configurationAwaited : World Unit :=
  (act plainEnv ⟨plainStart, []⟩ didChangeConfiguration).get configurationAwaited_isSome

theorem configurationDiscarded_isSome :
    (act plainEnv configurationAwaited answerRegistration).isSome := by
  decide +kernel

def configurationDiscarded : World Unit :=
  (act plainEnv configurationAwaited answerRegistration).get configurationDiscarded_isSome

theorem configurationAwaited_run {ok : List (Action Unit) → World Unit → Action Unit → Prop}
    (hok : ok [] ⟨plainStart, []⟩ didChangeConfiguration) :
    Run (act plainEnv) ok ⟨plainStart, []⟩ [didChangeConfiguration] configurationAwaited :=
  .next .start hok (Option.some_get _).symm

/-- The answer to the registration is taken for the configuration, and then the configuration is
not taken for anything. -/
theorem late_registration :
    Run (act plainEnv) (fun _ _ _ => True) ⟨plainStart, []⟩
        ([didChangeConfiguration] ++ [answerRegistration]) configurationDiscarded ∧
      ¬ SafeStep plainEnv configurationAwaited answerRegistration ∧
      ¬ SafeStep plainEnv configurationDiscarded answerConfiguration := by
  refine ⟨.next (configurationAwaited_run trivial) trivial (Option.some_get _).symm, fun h => ?_,
    fun h => ?_⟩
  · have htreated : Treated configurationAwaited.server (.i32 1) := by
      unfold Treated
      decide +kernel
    have := (h _ _ _ _ rfl (.i32 1) .registerCapability (by decide +kernel)
      (by decide +kernel)).1 htreated
    cases this
  · have hrequest : (requests configurationDiscarded.server)[1]? =
        some (.i32 1, .workspaceConfiguration) := by
      decide +kernel
    have hlatest : Latest configurationDiscarded.server 1 := by
      refine ⟨.i32 1, hrequest, fun j id hj => ?_⟩
      have hlen : (requests configurationDiscarded.server).length = 2 := by decide +kernel
      have := (List.getElem?_eq_some_iff.mp hj).1
      omega
    have := ((h _ _ _ _ rfl _ _ hrequest (by decide +kernel)).2 hlatest).1
    revert this
    unfold Treated
    decide +kernel

theorem answers_safe_plain : SafeStep plainEnv configurationAwaited answerConfiguration := by
  refine answers_safe (Option.some_get plainStart_isSome).symm
    (configurationAwaited_run fun _ _ _ _ h => by cases h) ?_
  intro disk i error result h last hlast hne
  cases h
  exact absurd (by decide +kernel) hne

end MoveTools.LanguageServer.Configuration
