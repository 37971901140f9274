/-
  Subject:   RESULTS OF LIVE-SPLIT TRANSFERS BETWEEN THE CHILDREN OF A CONNECTOR
             (`AscendMultiConnector.get_live_split_results`, `shutdown`,
             `ascend/ascend_multi_connector.py`).

  Children that transfer report a status per request, children that own the destinations accept
  them. An accepting child may raise; what it was handed then waits in a backlog of its own and is
  joined with the reports of the next call:

  * `results_delivered` -- the whole: delivery, and no owner shut down over a backlog.
-/
import VllmDual.Connector.TaskTracker
import VllmDual.Lib.Verdict

namespace VllmDual.Connector

open Verdict List

/-! ## 1. The two methods -/

abbrev Results := OrderedDict RequestId String

/-- What waits for each child. A child is its place among the children; the code uses
    `id(child)`. -/
abbrev Backlog := OrderedDict Nat Results

def failure : String := "failure"

/-- What a child is asked for: whether it has `get_live_split_results` and
    `_accept_live_split_results`, and `releases_live_transfer_destinations_on_shutdown`. -/
structure LiveChild where
  reports : Bool
  accepts : Bool
  borrower : Bool

/-- How the children behave in one call of `get_live_split_results`: what each reports, and whether
    it raises when it is handed results. -/
structure Poll where
  results : Nat → Results
  raises : Nat → Bool

inductive Act where
  | accept (child : Nat) (results : Results)
  | shutdown (child : Nat)

variable (children : List LiveChild)

def childrenWith (p : LiveChild → Bool) : List Nat :=
  (children.zipIdx.filter fun e => p e.1).map Prod.snd

def acceptResults (merged : Results) (poll : Poll) (l : Backlog × List Act) (child : Nat) :
    Backlog × List Act :=
  let (backlog, acts) := l
  let pending := noteAll failure ((backlog.get child).getD .empty) merged.entries
  let backlog := backlog.pop child
  if pending.entries.isEmpty then
    (backlog, acts)
  else
    (if poll.raises child then backlog.set child pending else backlog,
      acts ++ [.accept child pending])

/-- `merged`: the statuses of one call. -/
def mergeResults (reporting : List Nat) (poll : Poll) : Results :=
  reporting.foldl (fun merged child => noteAll failure merged (poll.results child).entries) .empty

def getLiveSplitResults (backlog : Backlog) (poll : Poll) : Results × Backlog × List Act :=
  let merged := mergeResults (childrenWith children (·.reports)) poll
  (merged, (childrenWith children (·.accepts)).foldl (acceptResults merged poll) (backlog, []))

inductive ShutdownError where
  /-- The exception of a child. -/
  | child (child : Nat)
  | runtimeError (message : String)

/-- `shutdown`. `raises` says which children's own `shutdown` raises; the last exception of a phase
    is raised after the phase. -/
def shutdown (backlog : Backlog) (raises : Nat → Bool) (poll : Poll) :
    Option ShutdownError × Backlog × List Act :=
  let borrowers := childrenWith children (·.borrower)
  let owners := childrenWith children (!·.borrower)
  let acts := borrowers.map .shutdown
  match (borrowers.filter raises).getLast? with
  | some child => (some (.child child), backlog, acts)
  | none =>
    let (_, backlog, drained) := getLiveSplitResults children backlog poll
    if backlog.entries.any fun e => !e.2.entries.isEmpty then
      (some (.runtimeError ("Live-split terminal results were not accepted before "
        ++ "destination-owner shutdown")), backlog, acts ++ drained)
    else
      (((owners.filter raises).getLast?).map .child, backlog,
        acts ++ drained ++ owners.map .shutdown)

/-- A call from outside. `get_finished` polls after the children's own `get_finished`. -/
inductive LiveEvent where
  | getLiveSplitResults (poll : Poll)
  | shutdown (raises : Nat → Bool) (poll : Poll)

def LiveEvent.poll : LiveEvent → Poll
  | getLiveSplitResults poll => poll
  | shutdown _ poll => poll

def liveStep (backlog : Backlog) : LiveEvent → Backlog × List Act
  | .getLiveSplitResults poll => (getLiveSplitResults children backlog poll).2
  | .shutdown raises poll => (shutdown children backlog raises poll).2

/-- A run: the backlog, and what each call has done, with the children's behaviour in it. -/
def liveRun (events : List LiveEvent) : Backlog × List (Poll × List Act) :=
  events.foldl (fun l event =>
    let (backlog, acts) := liveStep children l.1 event
    (backlog, l.2 ++ [(event.poll, acts)])) (.empty, [])

/-! ## 2. What is reported and what is handed over -/

def Poll.reported (poll : Poll) : List (RequestId × String) :=
  (childrenWith children (·.reports)).flatMap fun child => (poll.results child).entries

/-- What the children report in a call. `shutdown` asks them unless a borrower has raised. -/
def LiveEvent.reported : LiveEvent → List (RequestId × String)
  | getLiveSplitResults poll => poll.reported children
  | shutdown raises poll =>
    if (childrenWith children (·.borrower)).any raises then [] else poll.reported children

def reported (events : List LiveEvent) : List (RequestId × String) :=
  events.flatMap (·.reported children)

def Poll.handed (poll : Poll) (child : Nat) (acts : List Act) : List Results :=
  acts.filterMap fun
    | .accept i results => if i = child ∧ poll.raises i = false then some results else none
    | .shutdown _ => none

def handed (child : Nat) (calls : List (Poll × List Act)) : List Results :=
  calls.flatMap fun call => call.1.handed child call.2

/-- `results` stands for the reports: it names the requests reported, with the status that all
    reports agree on, and with a failure when two differ or one is a failure. -/
structure Delivers (reports : List (RequestId × String)) (results : Results) : Prop where
  names : ∀ r, r ∈ results.keys ↔ ∃ status, (r, status) ∈ reports
  agreed : ∀ r status, (r, status) ∈ reports → (∀ other, (r, other) ∈ reports → other = status) →
    results.get r = some status
  failed : ∀ r, (r, failure) ∈ reports ∨
      (∃ status other, (r, status) ∈ reports ∧ (r, other) ∈ reports ∧ status ≠ other) →
    results.get r = some failure

theorem Delivers.of_verdict {re : List (RequestId × String)} {rs : Results}
    (h : ∀ r, rs.get r = verdict failure (statuses r re)) : Delivers re rs where
  names r := by
    rw [← OrderedDict.get_isSome, h r, Option.isSome_iff_ne_none, ne_eq, verdict_eq_none]
    refine ⟨fun hne => ?_, fun ⟨st, hm⟩ => ne_nil_of_mem (mem_statuses.mpr hm)⟩
    have hex := exists_mem_of_ne_nil _ hne
    exact hex.imp fun st hm => mem_statuses.mp hm
  agreed r st hm hall := by
    rw [h r]
    refine verdict_of_forall (ne_nil_of_mem (mem_statuses.mpr hm)) fun other hot => ?_
    exact hall other (mem_statuses.mp hot)
  failed r hbad := by
    rw [h r]
    refine verdict_eq_bad ?_
    cases hbad with
    | inl hm => exact .inr (mem_statuses.mpr hm)
    | inr hd =>
      obtain ⟨st, other, hs, ho, hne⟩ := hd
      exact .inl ⟨st, mem_statuses.mpr hs, other, mem_statuses.mpr ho, hne⟩

/-- **Every report is handed over, once**: the reports are cut into batches, one for each time the
    child was handed results. -/
def HandedOver (reports : List (RequestId × String)) (got : List Results) : Prop :=
  ∃ batches, reports = batches.flatten ∧ Forall₂ Delivers batches got

/-! ## 3. One call -/

section Call

variable {children : List LiveChild} {backlog : Backlog} {a a' : List Act} {child i : Nat}
  {poll : Poll}
  {merged : Results} {l : Backlog × List Act}
  {held held' reports reports' : List (RequestId × String)}
  {got got' : List Results} {is : List Nat} {raises : Nat → Bool}

@[simp] theorem handed_append :
    poll.handed child (a ++ a') = poll.handed child a ++ poll.handed child a' := filterMap_append

@[simp] theorem handed_shutdowns (poll : Poll) (child : Nat) (p : List Nat) :
    poll.handed child (p.map .shutdown) = [] := by
  simp [Poll.handed, filterMap_map]

theorem nodup_childrenWith (children : List LiveChild) (p : LiveChild → Bool) :
    (childrenWith children p).Nodup := by
  have hs : (children.zipIdx.map Prod.snd).Nodup := by
    rw [zipIdx_map_snd]
    exact nodup_range'
  exact hs.sublist (filter_sublist.map Prod.snd)

theorem get_mergeResults (children : List LiveChild) (poll : Poll) (r : RequestId) :
    (mergeResults (childrenWith children (·.reports)) poll).get r
      = verdict failure (statuses r (poll.reported children)) := by
  have hf : mergeResults (childrenWith children (·.reports)) poll
      = noteAll failure .empty (poll.reported children) := by
    rw [noteAll, Poll.reported, foldl_flatMap]
    rfl
  rw [hf, get_noteAll]
  rfl

/-- The backlog of a child stands for the reports `held`. -/
def Holds (child : Nat) (backlog : Backlog) (held : List (RequestId × String)) : Prop :=
  ∀ r, ((backlog.get child).getD .empty).get r = verdict failure (statuses r held)

/-- Of the reports, `held` are left over. -/
def Accounted (reports : List (RequestId × String)) (got : List Results)
    (held : List (RequestId × String)) : Prop :=
  ∃ batches, reports = batches.flatten ++ held ∧ Forall₂ Delivers batches got

theorem Accounted.append (h : Accounted reports got held)
    (h' : Accounted (held ++ reports') got' held') :
    Accounted (reports ++ reports') (got ++ got') held' := by
  obtain ⟨bs, hr, hh⟩ := h
  obtain ⟨bs', hr', hh'⟩ := h'
  exact ⟨bs ++ bs', by rw [hr, append_assoc, hr', flatten_append, append_assoc], rel_append hh hh'⟩

theorem Accounted.none (held : List (RequestId × String)) : Accounted held [] held :=
  ⟨[], rfl, .nil⟩

theorem acceptResults_of_ne (merged : Results) (poll : Poll) (l : Backlog × List Act)
    (hne : child ≠ i) : (acceptResults merged poll l i).1.get child = l.1.get child ∧
      poll.handed child (acceptResults merged poll l i).2 = poll.handed child l.2 := by
  unfold acceptResults
  dsimp only
  split
  · exact ⟨by simp [hne], rfl⟩
  · refine ⟨?_, by simp [Poll.handed, Ne.symm hne]⟩
    split <;> simp [OrderedDict.get_set, hne]

theorem eq_nil_of_isEmpty {rs : Results} (he : rs.entries.isEmpty = true)
    (h : ∀ r, rs.get r = verdict failure (statuses r reports)) : reports = [] := by
  rw [eq_nil_iff_forall_not_mem]
  intro (r, st) hm
  have hk : r ∉ rs.keys := by
    rw [OrderedDict.keys, List.isEmpty_iff.mp he]
    exact not_mem_nil
  exact hk (((Delivers.of_verdict h).names r).mpr ⟨st, hm⟩)

theorem acceptResults_self (poll : Poll) (hh : Holds child l.1 held)
    (hm : ∀ r, merged.get r = verdict failure (statuses r reports)) :
    ∃ got held', poll.handed child (acceptResults merged poll l child).2
      = poll.handed child l.2 ++ got ∧
      Accounted (held ++ reports) got held' ∧
      Holds child (acceptResults merged poll l child).1 held' ∧
      (poll.raises child = false → held' = []) := by
  have hp : ∀ r, (noteAll failure ((l.1.get child).getD .empty) merged.entries).get r
      = verdict failure (statuses r (held ++ reports)) := by
    intro r
    rw [get_noteAll_entries (hm r), hh r, verdict_toList_append, statuses_append]
  unfold acceptResults
  dsimp only
  generalize noteAll failure ((l.1.get child).getD .empty) merged.entries = pending at hp
  split
  · rename_i he
    refine ⟨[], [], (append_nil _).symm, ?_, ?_, fun _ => rfl⟩
    · rw [eq_nil_of_isEmpty he hp]
      exact .none []
    · intro r
      simp [statuses, verdict]
  · cases hr : poll.raises child with
    | true =>
      refine ⟨[], held ++ reports, by simp [Poll.handed, hr], .none _, ?_, Bool.noConfusion⟩
      intro r
      simp only [OrderedDict.get_set, if_true, Option.getD_some]
      exact hp r
    | false =>
      refine ⟨[pending], [], by simp [Poll.handed, hr], ⟨[held ++ reports], by simp, ?_⟩, ?_,
        fun _ => rfl⟩
      · exact .cons (.of_verdict hp) .nil
      · intro r
        simp [statuses, verdict]

theorem foldl_acceptResults_of_notMem (merged : Results) (poll : Poll) (l : Backlog × List Act)
    (hn : child ∉ is) : (is.foldl (acceptResults merged poll) l).1.get child = l.1.get child ∧
      poll.handed child (is.foldl (acceptResults merged poll) l).2 = poll.handed child l.2 := by
  induction is generalizing l with
  | nil => exact ⟨rfl, rfl⟩
  | cons i is ih =>
    rw [mem_cons, not_or] at hn
    obtain ⟨hg, hh⟩ := acceptResults_of_ne merged poll l hn.1
    obtain ⟨hg', hh'⟩ := ih (acceptResults merged poll l i) hn.2
    exact ⟨hg'.trans hg, hh'.trans hh⟩

theorem foldl_acceptResults (poll : Poll) (hn : is.Nodup) (hmem : child ∈ is)
    (hhe : Holds child l.1 held) (hm : ∀ r, merged.get r = verdict failure (statuses r reports)) :
    ∃ got held', poll.handed child (is.foldl (acceptResults merged poll) l).2
      = poll.handed child l.2 ++ got ∧
      Accounted (held ++ reports) got held' ∧
      Holds child (is.foldl (acceptResults merged poll) l).1 held' ∧
      (poll.raises child = false → held' = []) := by
  induction is generalizing l with
  | nil => cases hmem
  | cons i is ih =>
    rw [nodup_cons] at hn
    rw [foldl_cons]
    by_cases hi : child = i
    · subst hi
      obtain ⟨got, held', ha, hac, hho, hra⟩ := acceptResults_self poll hhe hm
      obtain ⟨hg, hh⟩ :=
        foldl_acceptResults_of_notMem merged poll (acceptResults merged poll l child) hn.1
      refine ⟨got, held', hh.trans ha, hac, ?_, hra⟩
      unfold Holds
      rw [hg]
      exact hho
    · obtain ⟨hg, hh⟩ := acceptResults_of_ne merged poll l hi
      have hhe' : Holds child (acceptResults merged poll l i).1 held := by
        unfold Holds
        rw [hg]
        exact hhe
      rw [← hh]
      exact ih hn.2 ((mem_cons.mp hmem).resolve_left hi) hhe'

theorem getLiveSplitResults_accounted (poll : Poll) (hc : child ∈ childrenWith children (·.accepts))
    (hhe : Holds child backlog held) : ∃ held',
      Accounted (held ++ poll.reported children)
        (poll.handed child (getLiveSplitResults children backlog poll).2.2) held' ∧
      Holds child (getLiveSplitResults children backlog poll).2.1 held' ∧
        (poll.raises child = false → held' = []) := by
  have hs : Holds child (backlog, ([] : List Act)).1 held := hhe
  obtain ⟨got, held', hg, h⟩ :=
    foldl_acceptResults poll (nodup_childrenWith children _) hc hs (get_mergeResults children poll)
  exact ⟨held', by rw [getLiveSplitResults, hg]; exact h.1, h.2⟩

theorem mem_childrenWith {p : LiveChild → Bool} :
    i ∈ childrenWith children p ↔ ∃ c, children[i]? = some c ∧ p c = true := by
  simp [childrenWith, mem_zipIdx_iff_getElem?]

theorem shutdown_notMem_foldl (is : List Nat) (h : .shutdown i ∉ l.2) :
    .shutdown i ∉ (is.foldl (acceptResults merged poll) l).2 := by
  induction is generalizing l with
  | nil => exact h
  | cons j is ih =>
    refine ih ?_
    unfold acceptResults
    dsimp only
    split
    · exact h
    · simpa using h

/-- What `shutdown` does: the borrowers, and unless one has raised, the poll, and some owners if
    nothing waits then. -/
theorem shutdown_cases (children : List LiveChild) (backlog : Backlog) (raises : Nat → Bool)
    (poll : Poll) :
    let borrowers := childrenWith children (·.borrower)
    let res := (getLiveSplitResults children backlog poll).2
    (borrowers.any raises = true ∧
      (shutdown children backlog raises poll).2 = (backlog, borrowers.map .shutdown)) ∨
    (borrowers.any raises = false ∧ ∃ owners : List Nat,
      (shutdown children backlog raises poll).2
        = (res.1, borrowers.map .shutdown ++ res.2 ++ owners.map .shutdown) ∧
      (owners ≠ [] → ∀ e ∈ res.1.entries, e.2.entries = [])) := by
  unfold shutdown
  dsimp only
  split
  · rename_i c hc
    have hm := mem_filter.1 (mem_of_getLast? hc)
    exact .inl ⟨any_eq_true.2 ⟨c, hm⟩, rfl⟩
  · rename_i hn
    refine .inr ⟨any_eq_false.2 fun c hc =>
      filter_eq_nil_iff.1 (getLast?_eq_none_iff.1 hn) c hc, ?_⟩
    split
    · exact ⟨[], by simp, by simp⟩
    · rename_i he
      exact ⟨_, rfl, fun _ => by simpa using he⟩

theorem liveStep_accounted (hc : child ∈ childrenWith children (·.accepts))
    (hh : Holds child backlog held) (e : LiveEvent) : ∃ held',
      Accounted (held ++ e.reported children)
        (e.poll.handed child (liveStep children backlog e).2) held' ∧
      Holds child (liveStep children backlog e).1 held' := by
  cases e with
  | getLiveSplitResults poll =>
    obtain ⟨held', ha, hho, -⟩ := getLiveSplitResults_accounted poll hc hh
    exact ⟨held', ha, hho⟩
  | shutdown raises poll =>
    obtain ⟨hany, hs⟩ | ⟨hany, owners, hs, -⟩ := shutdown_cases children backlog raises poll
    · refine ⟨held, ?_, by rw [liveStep, hs]; exact hh⟩
      simpa [liveStep, hs, LiveEvent.reported, hany] using Accounted.none held
    · obtain ⟨held', ha, hho, -⟩ := getLiveSplitResults_accounted poll hc hh
      refine ⟨held', ?_, by rw [liveStep, hs]; exact hho⟩
      simpa [liveStep, hs, LiveEvent.reported, LiveEvent.poll, hany] using ha

/-- **An owner is shut down** when no result waits, and behind all that is handed over. -/
theorem shutdown_owner {e : LiveEvent} (hi : i ∈ childrenWith children (!·.borrower))
    (ha : (liveStep children backlog e).2 = a ++ .shutdown i :: a') :
    (∀ w ∈ (liveStep children backlog e).1.entries, w.2.entries = []) ∧
      ∀ child, e.poll.handed child a = e.poll.handed child (liveStep children backlog e).2 := by
  have hb : .shutdown i ∉ (childrenWith children (·.borrower)).map Act.shutdown := by
    intro hm
    obtain ⟨j, hj, heq⟩ := mem_map.mp hm
    cases heq
    obtain ⟨c, hc, ho⟩ := mem_childrenWith.mp hi
    obtain ⟨c', hc', hbo⟩ := mem_childrenWith.mp hj
    cases Option.some.inj (hc.symm.trans hc')
    simp [hbo] at ho
  have hp : ∀ poll, .shutdown i ∉ (getLiveSplitResults children backlog poll).2.2 := fun poll =>
    shutdown_notMem_foldl _ not_mem_nil
  have hm : .shutdown i ∈ (liveStep children backlog e).2 := by simp [ha]
  cases e with
  | getLiveSplitResults poll => exact absurd hm (hp poll)
  | shutdown raises poll =>
    obtain ⟨-, hs⟩ | ⟨-, owners, hs, hw⟩ := shutdown_cases children backlog raises poll
    · rw [liveStep, hs] at hm
      exact absurd hm hb
    · rw [liveStep, hs] at hm ha ⊢
      have hd : .shutdown i ∉ (childrenWith children (·.borrower)).map Act.shutdown ++
          (getLiveSplitResults children backlog poll).2.2 := by
        simpa using ⟨by simpa using hb, hp poll⟩
      have hne : owners ≠ [] := by
        rintro rfl
        exact hd (by simpa using hm)
      refine ⟨hw hne, fun child => ?_⟩
      -- what comes behind is a part of the owners' shutdowns
      obtain ⟨x, rfl, hx⟩ | ⟨x, hx, hx'⟩ := append_eq_append_iff.1 ha
      · have hnil := handed_shutdowns poll child owners
        rw [hx, handed_append, append_eq_nil_iff] at hnil
        simp [LiveEvent.poll, hnil.1]
      · cases x with
        | nil => simp [LiveEvent.poll, (append_nil a) ▸ hx]
        | cons y x =>
          rw [cons_append, List.cons.injEq] at hx'
          exact absurd (by simp [hx, hx'.1]) hd

theorem Holds.eq_nil (h : Holds child backlog held) (he : ∀ e ∈ backlog.entries, e.2.entries = []) :
    held = [] := by
  refine eq_nil_of_isEmpty ?_ h
  cases hg : backlog.get child with
  | none => rfl
  | some rs => simpa using he _ (OrderedDict.get_eq_some_iff.1 hg)

end Call

/-! ## 4. Runs -/

section Runs

variable {children : List LiveChild} {c : Nat}

theorem liveRun_concat (children : List LiveChild) (events : List LiveEvent) (e : LiveEvent) :
    liveRun children (events ++ [e]) = ((liveStep children (liveRun children events).1 e).1,
      (liveRun children events).2 ++
        [(e.poll, (liveStep children (liveRun children events).1 e).2)]) := by
  rw [liveRun, foldl_append]
  rfl

theorem handed_concat (calls : List (Poll × List Act)) (poll : Poll) (a : List Act) :
    handed c (calls ++ [(poll, a)]) = handed c calls ++ poll.handed c a := by
  simp [handed]

theorem reported_concat (children : List LiveChild) (events : List LiveEvent) (e : LiveEvent) :
    reported children (events ++ [e]) = reported children events ++ e.reported children := by
  simp [reported]

/-- **On every run** the reports are what a child was handed and what its backlog holds. -/
theorem accounted_run (hc : c ∈ childrenWith children (·.accepts))
    (events : List LiveEvent) : ∃ held,
    Accounted (reported children events) (handed c (liveRun children events).2) held ∧
      Holds c (liveRun children events).1 held := by
  induction events using List.reverseRecOn with
  | nil => exact ⟨[], .none [], fun r => rfl⟩
  | append_singleton events e ih =>
    obtain ⟨held, ha, hh⟩ := ih
    obtain ⟨held', ha', hh'⟩ := liveStep_accounted hc hh e
    rw [liveRun_concat, handed_concat, reported_concat]
    exact ⟨held', ha.append ha', hh'⟩

/-- **Results are delivered, each once, and never taken back.** On every run, whoever raises: the
    reports of the children are those an accepting child was handed without raising, batch after
    batch, and those its backlog stands for; once the child accepts a call, nothing is left over;
    and when an owner is shut down, nothing waits and every report was handed over before. -/
theorem results_delivered (children : List LiveChild) (events : List LiveEvent) :
    (∀ c ∈ childrenWith children (·.accepts),
      (∃ delivered rest, reported children events = delivered ++ rest ∧
        HandedOver delivered (handed c (liveRun children events).2) ∧
        Delivers rest (((liveRun children events).1.get c).getD .empty)) ∧
      ∀ poll, poll.raises c = false →
        HandedOver (reported children (events ++ [.getLiveSplitResults poll]))
          (handed c (liveRun children (events ++ [.getLiveSplitResults poll])).2)) ∧
    ∀ owner ∈ childrenWith children (!·.borrower), ∀ event before behind,
      (liveStep children (liveRun children events).1 event).2
        = before ++ .shutdown owner :: behind →
      (∀ e ∈ (liveRun children (events ++ [event])).1.entries, e.2.entries = []) ∧
      ∀ c ∈ childrenWith children (·.accepts), HandedOver (reported children (events ++ [event]))
        (handed c ((liveRun children events).2 ++ [(event.poll, before)])) := by
  refine ⟨fun c hc => ?_, fun owner ho event before behind hact => ?_⟩
  · obtain ⟨held, ha, hho⟩ := accounted_run hc events
    refine ⟨?_, fun poll hra => ?_⟩
    · obtain ⟨batches, hr, hh⟩ := ha
      exact ⟨_, held, hr, ⟨batches, rfl, hh⟩, .of_verdict hho⟩
    · obtain ⟨held', ha', -, hn⟩ := getLiveSplitResults_accounted poll hc hho
      obtain ⟨batches, hr, hh⟩ := ha.append ha'
      rw [liveRun_concat, handed_concat, reported_concat]
      exact ⟨batches, by simpa [hn hra, LiveEvent.reported] using hr, hh⟩
  · obtain ⟨hw, hpre⟩ := shutdown_owner ho hact
    rw [liveRun_concat]
    refine ⟨hw, fun c hc => ?_⟩
    obtain ⟨held, ha, hho⟩ := accounted_run hc (events ++ [event])
    rw [liveRun_concat] at ha hho
    obtain rfl := hho.eq_nil hw
    obtain ⟨batches, hr, hh⟩ := ha
    rw [handed_concat] at hh ⊢
    rw [hpre]
    exact ⟨batches, by simpa using hr, hh⟩

end Runs

end VllmDual.Connector
