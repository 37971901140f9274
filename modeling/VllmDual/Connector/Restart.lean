/-
  Subject:   A PAIRED RESTART (`restart_affected_pair`,
             `ascend/remote_fill_restart.py`).

  A source and a destination engine are restarted together through an adapter of the deployment:
  placement and admission are withdrawn, every process is stopped, the groups are started and only
  an identity that is new in every freshness field is published. Each operation of the adapter may
  return anything or raise:

  * `restart_fails_closed` -- what holds of a record and of an exception;
    `restart_untouched` -- an exception that leaves the placement.
-/
import VllmDual.Split.Wire

namespace VllmDual.Connector.Restart

open Split Std.Do

set_option mvcgen.warning false

/-! ## 1. Identities -/

/-- `IDENTITY_FIELDS`. -/
inductive IdentityField where
  | sourceIncarnationId
  | destinationIncarnationId
  | sourceEngineEpoch
  | destinationEngineEpoch
  | sourceSession
  | destinationSession
  | globalTeRegistrationGeneration
  | sharedCacheGeneration
  | sharedCacheIncarnationId
deriving DecidableEq

/-- How a field is checked: an epoch is a positive int, a text is not empty, a generation is an int
    from zero on. A bool is not an int here. -/
inductive FieldKind where
  | epoch
  | text
  | generation

namespace IdentityField

def name : IdentityField → String
  | sourceIncarnationId => "source_incarnation_id"
  | destinationIncarnationId => "destination_incarnation_id"
  | sourceEngineEpoch => "source_engine_epoch"
  | destinationEngineEpoch => "destination_engine_epoch"
  | sourceSession => "source_session"
  | destinationSession => "destination_session"
  | globalTeRegistrationGeneration => "global_te_registration_generation"
  | sharedCacheGeneration => "shared_cache_generation"
  | sharedCacheIncarnationId => "shared_cache_incarnation_id"

def kind : IdentityField → FieldKind
  | sourceEngineEpoch | destinationEngineEpoch => .epoch
  | globalTeRegistrationGeneration | sharedCacheGeneration => .generation
  | _ => .text

/-- The fields in the order `_identity` checks them: epochs, texts, generations. -/
def checked : List IdentityField :=
  [sourceEngineEpoch, destinationEngineEpoch, sourceIncarnationId, destinationIncarnationId,
    sourceSession, destinationSession, sharedCacheIncarnationId, globalTeRegistrationGeneration,
    sharedCacheGeneration]

theorem mem_checked (f : IdentityField) : f ∈ checked := by cases f <;> decide

end IdentityField

/-- `FRESHNESS_FIELDS`. -/
def freshnessFields : List IdentityField :=
  [.sourceIncarnationId, .destinationIncarnationId, .sourceEngineEpoch, .destinationEngineEpoch,
    .globalTeRegistrationGeneration, .sharedCacheIncarnationId]

def FieldKind.accepts : FieldKind → Option PyVal → Bool
  | .epoch, some (.int n) => decide (0 < n)
  | .text, some (.str s) => !s.isEmpty
  | .generation, some (.int n) => decide (0 ≤ n)
  | _, _ => false

structure Identity where
  value : IdentityField → PyVal
  valid : ∀ f : IdentityField, f.kind.accepts (some (value f)) = true

def invalidFields (es : Entries) : List IdentityField :=
  IdentityField.checked.filter fun f => !f.kind.accepts (lookup es f.name)

theorem accepts_of_invalidFields {es : Entries} (h : invalidFields es = []) (f : IdentityField) :
    f.kind.accepts (some ((lookup es f.name).getD .none)) = true := by
  have hf : f.kind.accepts (lookup es f.name) = true := by
    simpa using List.filter_eq_nil_iff.mp h f f.mem_checked
  cases hv : lookup es f.name with
  | some v => rwa [hv] at hf
  | none =>
    rw [hv] at hf
    cases hk : f.kind <;> rw [hk] at hf <;> cases hf

/-- `_identity`. -/
def identityOf : PyVal → Except PyExc Identity
  | .dict es =>
    if h : invalidFields es = [] then
      .ok ⟨fun f => (lookup es f.name).getD .none, accepts_of_invalidFields h⟩
    else
      .error (.runtimeError ("paired restart identity is invalid: "
        ++ ", ".intercalate ((invalidFields es).map (·.name))))
  | _ => .error .attributeError

/-- `==` on checked values. -/
def sameValue : PyVal → PyVal → Bool
  | .int m, .int n => m = n
  | .str s, .str t => s = t
  | _, _ => false

theorem sameValue_self {k : FieldKind} {v : PyVal} (h : k.accepts (some v) = true) :
    sameValue v v = true := by
  cases k <;> cases v <;> first | cases h | simp [sameValue]

def staleFields (old new : Identity) : List IdentityField :=
  freshnessFields.filter fun f => sameValue (new.value f) (old.value f)

theorem ne_of_staleFields {old new : Identity} (h : staleFields old new = []) :
    ∀ f ∈ freshnessFields, new.value f ≠ old.value f := by
  intro f hf heq
  have hs := List.filter_eq_nil_iff.mp h f hf
  rw [heq] at hs
  exact hs (sameValue_self (old.valid f))

/-- `stopped.get(actual) == expected`, by value. -/
def equalsCount : Option PyVal → Int → Bool
  | some (.int m), n => m = n
  | some (.bool b), n => (b.toNat : Int) = n
  | some (.float _ value), n => value = some (n : Rat)
  | _, _ => false

def sideStopped (es : Entries) (expected actual : String) : Bool :=
  match lookup es expected with
  | some (.int n) => decide (0 < n) && equalsCount (lookup es actual) n
  | _ => false

/-- The check of what `wait_engine_groups_stopped` returns. -/
def allStopped : PyVal → Bool
  | .dict es => sideStopped es "source_expected" "source_stopped"
      && sideStopped es "destination_expected" "destination_stopped"
  | _ => false

/-! ## 2. The adapter -/

inductive Op where
  | currentIdentity
  | invalidateProxyPlacement
  | stopAdmission
  | terminateEngineGroups
  | waitEngineGroupsStopped
  | startEngineGroups
  | discoverIdentity
  | publishProxyPlacement
  | restoreAdmission
deriving DecidableEq

structure Call where
  op : Op
  returned : Bool
deriving DecidableEq

/-- `PairedRestartAdapter`. An operation may depend on all that was done before, which the adapter
    keeps in a state `σ`, and may raise any exception `ε`. -/
structure Adapter (σ ε : Type) where
  currentIdentity : String → σ → Except ε PyVal × σ
  invalidateProxyPlacement : String → σ → Except ε Unit × σ
  stopAdmission : String → σ → Except ε Unit × σ
  terminateEngineGroups : String → σ → Except ε Unit × σ
  waitEngineGroupsStopped : String → ℚ → σ → Except ε PyVal × σ
  startEngineGroups : String → σ → Except ε Unit × σ
  discoverIdentity : String → ℚ → σ → Except ε PyVal × σ
  publishProxyPlacement : String → Identity → σ → Except ε Unit × σ
  restoreAdmission : String → σ → Except ε Unit × σ

inductive RestartError (ε : Type) where
  /-- An exception of the adapter. -/
  | adapter (e : ε)
  | py (e : PyExc)

/-- The adapter's state, the calls made, the identities handed to `publish_proxy_placement`, and the
    variables `steps` (without the times) and `started`. -/
structure World (σ : Type) where
  adapter : σ
  calls : List Call
  published : List Identity
  steps : List String
  started : Bool

def World.init {σ : Type} (s : σ) : World σ := ⟨s, [], [], [], false⟩

abbrev Program (σ ε : Type) := ExceptT (RestartError ε) (StateM (World σ))

section Code

variable {σ ε α : Type}

def call (op : Op) (operation : σ → Except ε α × σ) : Program σ ε α := do
  let w ← get
  match operation w.adapter with
  | (.ok a, s) =>
    set ({ w with adapter := s, calls := w.calls ++ [⟨op, true⟩] } : World σ)
    return a
  | (.error e, s) =>
    set ({ w with adapter := s, calls := w.calls ++ [⟨op, false⟩] } : World σ)
    throw (.adapter e)

/-- `run`: an operation, entered into the steps when it has returned. -/
def run (name : String) (operation : Program σ ε α) : Program σ ε α := do
  let result ← operation
  modify fun w => { w with steps := w.steps ++ [name] }
  return result

def check : Except PyExc α → Program σ ε α
  | .ok a => return a
  | .error e => throw (.py e)

structure Record where
  pairId : String
  oldIdentity : Identity
  newIdentity : Identity
  stopped : PyVal
  steps : List String

variable (adapter : Adapter σ ε) (pairId : String) (timeoutSeconds : ℚ)

def takeDown : Program σ ε PyVal := do
  run "proxy_placement_invalidated"
    (call .invalidateProxyPlacement (adapter.invalidateProxyPlacement pairId))
  run "admission_stopped" (call .stopAdmission (adapter.stopAdmission pairId))
  run "engine_groups_terminated"
    (call .terminateEngineGroups (adapter.terminateEngineGroups pairId))
  let stopped ← run "engine_groups_stopped"
    (call .waitEngineGroupsStopped (adapter.waitEngineGroupsStopped pairId timeoutSeconds))
  if allStopped stopped then
    return stopped
  else
    throw (.py (.runtimeError "paired restart did not stop every P and D process"))

def bringUp (old : Identity) : Program σ ε Identity := do
  run "engine_groups_started" (call .startEngineGroups (adapter.startEngineGroups pairId))
  modify fun w => { w with started := true }
  let discovered ← run "fresh_identity_discovered"
    (call .discoverIdentity (adapter.discoverIdentity pairId timeoutSeconds))
  let new ← check (identityOf discovered)
  if staleFields old new = [] then
    modify fun w => { w with published := w.published ++ [new] }
    run "proxy_placement_published"
      (call .publishProxyPlacement (adapter.publishProxyPlacement pairId new))
    run "admission_restored" (call .restoreAdmission (adapter.restoreAdmission pairId))
    return new
  else
    throw (.py (.runtimeError ("paired restart reused identity: "
      ++ ", ".intercalate ((staleFields old new).map (·.name)))))

/-- The clean-up after an exception of `bringUp`, which is raised again. -/
def cleanUp (e : RestartError ε) : Program σ ε Identity := do
  if (← get).started then
    run "failed_restart_groups_terminated"
      (call .terminateEngineGroups (adapter.terminateEngineGroups pairId))
    let _ ← run "failed_restart_groups_stopped"
      (call .waitEngineGroupsStopped (adapter.waitEngineGroupsStopped pairId timeoutSeconds))
  throw e

def restartAffectedPair : Program σ ε Record := do
  if pairId.isEmpty ∨ timeoutSeconds ≤ 0 then
    throw (.py (.valueError "pair_id and timeout_seconds must be valid"))
  else
    let current ← call .currentIdentity (adapter.currentIdentity pairId)
    let old ← check (identityOf current)
    let stopped ← takeDown adapter pairId timeoutSeconds
    let new ← tryCatch (bringUp adapter pairId timeoutSeconds old)
      (cleanUp adapter pairId timeoutSeconds)
    return ⟨pairId, old, new, stopped, (← get).steps⟩

end Code

/-! ## 3. What the calls leave behind -/

variable (calls : List Call)

/-- Whether a placement can be published after the calls: there may be one at first, an invalidation
    that has returned removes it, and a publication may bring one even if it raises. -/
def mayBePublished : Bool :=
  calls.foldl (fun published c =>
    match c.op with
    | .invalidateProxyPlacement => published && !c.returned
    | .publishProxyPlacement => true
    | _ => published) true

def mayAdmit : Bool :=
  calls.foldl (fun admits c =>
    match c.op with
    | .stopAdmission => admits && !c.returned
    | .restoreAdmission => true
    | _ => admits) true

/-- Whether the groups were started and their termination was not requested since. -/
def awaitsTermination : Bool :=
  calls.foldl (fun awaits c =>
    match c.op with
    | .startEngineGroups => true
    | .terminateEngineGroups => false
    | _ => awaits) false

/-- What an exception leaves behind:
    * before the invalidation has returned, nothing else was done to the pair;
    * after it, and as long as nothing was handed to `publish_proxy_placement`, no placement is
      published;
    * after admission was stopped, and as long as `restore_admission` was not called, it is stopped;
    * groups that were started have been told to terminate. -/
def FailsClosed : Prop :=
  (⟨.invalidateProxyPlacement, true⟩ ∉ calls →
    ∀ c ∈ calls, c.op = .currentIdentity ∨ c.op = .invalidateProxyPlacement) ∧
  (⟨.invalidateProxyPlacement, true⟩ ∈ calls → (∀ c ∈ calls, c.op ≠ .publishProxyPlacement) →
    mayBePublished calls = false) ∧
  (⟨.stopAdmission, true⟩ ∈ calls → (∀ c ∈ calls, c.op ≠ .restoreAdmission) →
    mayAdmit calls = false) ∧
  (⟨.startEngineGroups, true⟩ ∈ calls → awaitsTermination calls = false)

instance : DecidablePred FailsClosed := fun _ => inferInstanceAs (Decidable (_ ∧ _))

/-! ## 4. The restart, part by part -/

section Specs

variable {σ ε α : Type}

@[spec] theorem call_spec (op : Op) (o : σ → Except ε α × σ) (w₀ : World σ) :
    ⦃fun w => ⌜w = w₀⌝⦄ call op o
    ⦃post⟨fun _ w => ⌜w.calls = w₀.calls ++ [⟨op, true⟩] ∧ w.published = w₀.published ∧
      w.started = w₀.started⌝,
      fun _ w => ⌜w.calls = w₀.calls ++ [⟨op, false⟩] ∧ w.started = w₀.started⌝⟩⦄ := by
  mvcgen [call] <;> simp_all

@[spec] theorem run_spec (name : String) (op : Op) (o : σ → Except ε α × σ)
    (w₀ : World σ) :
    ⦃fun w => ⌜w = w₀⌝⦄ run name (call op o)
    ⦃post⟨fun _ w => ⌜w.calls = w₀.calls ++ [⟨op, true⟩] ∧ w.published = w₀.published ∧
      w.started = w₀.started⌝,
      fun _ w => ⌜w.calls = w₀.calls ++ [⟨op, false⟩] ∧ w.started = w₀.started⌝⟩⦄ := by
  mvcgen [run] <;> simp_all +zetaDelta

@[spec] theorem check_spec (x : Except PyExc α) (w₀ : World σ) :
    ⦃fun w => ⌜w = w₀⌝⦄ (check x : Program σ ε α)
    ⦃post⟨fun a w => ⌜w = w₀ ∧ x = .ok a⌝, fun _ w => ⌜w = w₀⌝⟩⦄ := by
  cases x <;> mvcgen [check]

variable (adapter : Adapter σ ε) (pairId : String) (timeoutSeconds : ℚ)

def downCalls : List Call :=
  [⟨.currentIdentity, true⟩, ⟨.invalidateProxyPlacement, true⟩, ⟨.stopAdmission, true⟩,
    ⟨.terminateEngineGroups, true⟩, ⟨.waitEngineGroupsStopped, true⟩]

@[spec] theorem takeDown_spec :
    ⦃fun w => ⌜w.calls = [⟨.currentIdentity, true⟩] ∧ w.published = [] ∧ w.started = false⌝⦄
    takeDown adapter pairId timeoutSeconds
    ⦃post⟨fun s w => ⌜(w.calls = downCalls ∧ w.published = [] ∧ w.started = false) ∧
      allStopped s = true⌝, fun _ w => ⌜FailsClosed w.calls⌝⟩⦄ := by
  mvcgen [takeDown]
  · simp_all [downCalls]
  all_goals
    intros
    simp_all
    decide

def failedCalls : List (List Call) :=
  [[⟨.discoverIdentity, false⟩], [⟨.discoverIdentity, true⟩],
    [⟨.discoverIdentity, true⟩, ⟨.publishProxyPlacement, false⟩],
    [⟨.discoverIdentity, true⟩, ⟨.publishProxyPlacement, true⟩, ⟨.restoreAdmission, false⟩]]

def cleanUpCalls : List (List Call) :=
  [[⟨.terminateEngineGroups, false⟩],
    [⟨.terminateEngineGroups, true⟩, ⟨.waitEngineGroupsStopped, false⟩],
    [⟨.terminateEngineGroups, true⟩, ⟨.waitEngineGroupsStopped, true⟩]]

theorem failsClosed_cleanUp : ∀ f ∈ failedCalls, ∀ cleaned ∈ cleanUpCalls,
    FailsClosed (downCalls ++ ⟨.startEngineGroups, true⟩ :: f ++ cleaned) := by
  decide

theorem failsClosed_notStarted : FailsClosed (downCalls ++ [⟨.startEngineGroups, false⟩]) := by
  decide

def FailedUp (started : Bool) : Prop :=
  (started = false ∧ calls = downCalls ++ [⟨.startEngineGroups, false⟩]) ∨
  (started = true ∧ ∃ failed ∈ failedCalls, calls = downCalls ++
    ⟨.startEngineGroups, true⟩ :: failed)

theorem FailedUp.cleaned {cs c : List Call} (h : FailedUp cs true) (hc : c ∈ cleanUpCalls) :
    FailsClosed (cs ++ c) := by
  cases h with
  | inl h => cases h.1
  | inr h =>
    obtain ⟨-, f, hf, rfl⟩ := h
    exact failsClosed_cleanUp f hf c hc

theorem FailedUp.notStarted {cs : List Call} (h : FailedUp cs false) : FailsClosed cs := by
  cases h with
  | inl h => exact h.2 ▸ failsClosed_notStarted
  | inr h => cases h.1

@[spec] theorem bringUp_spec (old : Identity) :
    ⦃fun w => ⌜w.calls = downCalls ∧ w.published = [] ∧ w.started = false⌝⦄
    bringUp adapter pairId timeoutSeconds old
    ⦃post⟨fun new w => ⌜w.calls = downCalls ++ [⟨.startEngineGroups, true⟩,
          ⟨.discoverIdentity, true⟩, ⟨.publishProxyPlacement, true⟩, ⟨.restoreAdmission, true⟩] ∧
        w.published = [new] ∧ staleFields old new = []⌝,
      fun _ w => ⌜FailedUp w.calls w.started⌝⟩⦄ := by
  mvcgen [bringUp]
  all_goals
    intros
    simp_all +zetaDelta [FailedUp, failedCalls]

@[spec] theorem cleanUp_spec (e : RestartError ε) :
    ⦃fun w => ⌜FailedUp w.calls w.started⌝⦄ cleanUp adapter pairId timeoutSeconds e
    ⦃post⟨fun _ _ => ⌜False⌝, fun _ w => ⌜FailsClosed w.calls⌝⟩⦄ := by
  mvcgen [cleanUp]
  · rename_i hf _ hs _ _ ht _ _ hw
    rw [hs] at hf
    rw [hw.1, ht.1, List.append_assoc]
    exact hf.cleaned (by decide)
  · rename_i hf _ hs _ _ ht _ _
    intro hw _
    rw [hs] at hf
    rw [hw, ht.1, List.append_assoc]
    exact hf.cleaned (by decide)
  · rename_i hf _ hs _ _
    intro ht _
    rw [hs] at hf
    rw [ht]
    exact hf.cleaned (by decide)
  · rename_i hf _ hs
    rw [Bool.not_eq_true] at hs
    rw [hs] at hf
    exact hf.notStarted

def restartCalls : List Call :=
  downCalls ++ [⟨.startEngineGroups, true⟩, ⟨.discoverIdentity, true⟩,
    ⟨.publishProxyPlacement, true⟩, ⟨.restoreAdmission, true⟩]

theorem restartAffectedPair_spec : ⦃fun w => ⌜w.calls = [] ∧ w.published = [] ∧ w.started = false⌝⦄
    restartAffectedPair adapter pairId timeoutSeconds
    ⦃post⟨fun record w => ⌜w.calls = restartCalls ∧ w.published = [record.newIdentity] ∧
        allStopped record.stopped = true ∧
        staleFields record.oldIdentity record.newIdentity = []⌝,
      fun _ w => ⌜FailsClosed w.calls⌝⟩⦄ := by
  mvcgen [restartAffectedPair]
  · rename_i hw
    rw [hw.1]
    decide
  · simp_all
  · simp_all
  · simp_all [restartCalls]
  · rename_i hw _ _ hc _ _
    intro heq
    rw [heq, hc.1, hw.1]
    decide
  · rename_i hw _ _
    intro hc _
    rw [hc, hw.1]
    decide

/-- **A paired restart fails closed.** Whatever the operations return and whenever they raise: a
    restart that returns has made exactly the calls of `restartCalls`, has seen every process
    stopped, and has published one valid identity, new in every freshness field; one that raises
    leaves what `FailsClosed` says. -/
theorem restart_fails_closed (s : σ) :
    match (restartAffectedPair adapter pairId timeoutSeconds).run.run (World.init s) with
    | (.ok record, w) => w.calls = restartCalls ∧ w.published = [record.newIdentity] ∧
        allStopped record.stopped = true ∧
        ∀ f ∈ freshnessFields, record.newIdentity.value f ≠ record.oldIdentity.value f
    | (.error _, w) => FailsClosed w.calls := by
  have hs := restartAffectedPair_spec adapter pairId timeoutSeconds (World.init s) ⟨rfl, rfl, rfl⟩
  split
  · rename_i record w hrun
    have hr : w.calls = restartCalls ∧ w.published = [record.newIdentity] ∧
        allStopped record.stopped = true ∧
        staleFields record.oldIdentity record.newIdentity = [] := by
      simpa [wp, Id.run, hrun] using hs
    exact ⟨hr.1, hr.2.1, hr.2.2.1, ne_of_staleFields hr.2.2.2⟩
  · rename_i hrun
    simpa [wp, Id.run, hrun] using hs

end Specs

def fixedAdapter (old new stopped : PyVal) (restore : Except Unit Unit) : Adapter Unit Unit where
  currentIdentity _ s := (.ok old, s)
  invalidateProxyPlacement _ s := (.ok (), s)
  stopAdmission _ s := (.ok (), s)
  terminateEngineGroups _ s := (.ok (), s)
  waitEngineGroupsStopped _ _ s := (.ok stopped, s)
  startEngineGroups _ s := (.ok (), s)
  discoverIdentity _ _ s := (.ok new, s)
  publishProxyPlacement _ _ s := (.ok (), s)
  restoreAdmission _ s := (restore, s)

/-- **A restart that raises before it has begun** leaves the placement and the admission as they
    are: here the current identity is invalid. -/
theorem restart_untouched :
    let w :=
      ((restartAffectedPair (fixedAdapter (.dict []) .none .none (.ok ())) "p0-d1" 30).run.run
      (World.init ())).2
    w.calls = [⟨.currentIdentity, true⟩] ∧ mayBePublished w.calls = true ∧
      mayAdmit w.calls = true := by
  refine ⟨?_, ?_, ?_⟩ <;> rfl

end VllmDual.Connector.Restart
