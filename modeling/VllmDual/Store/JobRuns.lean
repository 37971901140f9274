/-
  Subject:   RUNS OF SAVE JOBS: WHAT IS REPORTED, AND WHO PUTS.

  Over the counters of `VllmDual.Store.Jobs` this file follows the log of a run:

  * `sound_of_clean` -- in a run of clean actions every state is sound;
  * `unclean_runs` -- a put that raises, and a request that is saved again after a preemption, break
    it.
-/
import VllmDual.Store.Jobs

namespace VllmDual.Store

open Function List

variable {ρ : Type} [DecidableEq ρ]

/-! ## 1. The log -/

section Log

variable {log : List (Event ρ)} {e : Event ρ} {job : Job ρ} {r : ρ}

omit [DecidableEq ρ] in
theorem stale_concat :
    Stale (log ++ [e]) job ↔ Stale log job ∨ e = .preempted job.reqId ∧ .enqueued job ∈ log := by
  constructor
  · rintro ⟨bf, a, heq, hm⟩
    rcases eq_nil_or_concat a with rfl | ⟨a', e', rfl⟩
    · obtain ⟨rfl, he⟩ := append_inj' heq rfl
      exact .inr ⟨singleton_inj.mp he, hm⟩
    · rw [concat_eq_append, ← cons_append, ← append_assoc] at heq
      obtain ⟨rfl, -⟩ := append_inj' heq rfl
      exact .inl ⟨bf, a', rfl, hm⟩
  · rintro (⟨bf, a, rfl, hm⟩ | ⟨rfl, hm⟩)
    · exact ⟨bf, a ++ [e], by simp, hm⟩
    · exact ⟨log, [], rfl, hm⟩

def PutsFresh (log : List (Event ρ)) : Prop :=
  ∀ job before after, log = before ++ .put job :: after → ¬ Stale before job

omit [DecidableEq ρ] in
theorem PutsFresh.concat (h : PutsFresh log) (he : ∀ job, e = .put job → ¬ Stale log job) :
    PutsFresh (log ++ [e]) := by
  intro job bf a heq
  rcases eq_nil_or_concat a with rfl | ⟨a', e', rfl⟩
  · obtain ⟨rfl, hp⟩ := append_inj' heq rfl
    exact he job (singleton_inj.mp hp)
  · rw [concat_eq_append, ← cons_append, ← append_assoc] at heq
    obtain ⟨rfl, -⟩ := append_inj' heq rfl
    exact h job bf a' rfl

end Log

namespace World

variable {w w' : World ρ} {act : Act ρ} {r : ρ} {job : Job ρ} {p : Phase}

def Waits (w : World ρ) (job : Job ρ) : Prop :=
  job ∈ w.requestQueue ∨ w.running = some (job, .taken)

theorem Waits.outstanding_pos (h : w.Waits job) : 0 < w.outstanding job.reqId := by
  rcases h with hm | hr
  · have hp : 0 < w.requestQueue.countP (·.reqId = job.reqId) :=
      countP_pos_iff.mpr ⟨job, hm, by simp⟩
    unfold outstanding
    omega
  · exact World.outstanding_pos hr

theorem Waits.of_ne (hw : w'.Waits job) (hq : w'.requestQueue = w.requestQueue)
    (hne : w'.running ≠ some (job, .taken)) : w.Waits job :=
  .inl (hq ▸ hw.resolve_right hne)

/-- Job numbers are new; a stale job that waits will not pass the check; one that may put is not
    stale; and none has put when it was. -/
structure Logged (w : World ρ) : Prop where
  fresh : ∀ job, .enqueued job ∈ w.log → job.id < w.nextId
  waits : ∀ job, w.Waits job → Stale w.log job → w.storedRequests.get job.reqId = none
  admitted : ∀ job, w.running = some (job, .admitted) → ¬ Stale w.log job
  puts : PutsFresh w.log

namespace Logged

variable (h : w.Logged)
include h

theorem mono (hl : w'.log = w.log ∨ ∃ e, w'.log = w.log ++ [e] ∧
      (∀ job, e ≠ .enqueued job) ∧ (∀ r, e ≠ .preempted r) ∧ ∀ job, e ≠ .put job)
    (hn : w'.nextId = w.nextId) (hwt : ∀ job, w'.Waits job → w.Waits job)
    (ha : ∀ job, w'.running = some (job, .admitted) → w.running = some (job, .admitted) ∨
      w.Waits job ∧ w.storedRequests.get job.reqId ≠ none)
    (hg : ∀ job, w.Waits job → w.storedRequests.get job.reqId = none →
      w'.storedRequests.get job.reqId = none) : w'.Logged := by
  have hst : ∀ job, Stale w'.log job → Stale w.log job := by
    intro job hst
    rcases hl with heq | ⟨e, heq, -, hp, -⟩
    · rwa [heq] at hst
    · rw [heq, stale_concat] at hst
      rcases hst with hst | ⟨he, -⟩
      · exact hst
      · exact absurd he (hp _)
  refine ⟨fun job hm => ?_, fun job hw hs => ?_, fun job hr hs => ?_, ?_⟩
  · rw [hn]
    rcases hl with heq | ⟨e, heq, henq, -⟩
    · exact h.fresh job (heq ▸ hm)
    · rw [heq, mem_append, mem_singleton] at hm
      rcases hm with hm | he
      · exact h.fresh job hm
      · exact absurd he.symm (henq job)
  · have hwa := hwt job hw
    exact hg job hwa (h.waits job hwa (hst job hs))
  · rcases ha job hr with hr' | ⟨hwa, hso⟩
    · exact h.admitted job hr' (hst job hs)
    · exact hso (h.waits job hwa (hst job hs))
  · rcases hl with heq | ⟨e, heq, -, -, hput⟩
    · rw [heq]
      exact h.puts
    · rw [heq]
      exact h.puts.concat fun job he => absurd he (hput job)

variable {c : Call ρ}

theorem setCall : ({ w with call := c } : World ρ).Logged :=
  h.mono (.inl rfl) rfl (fun _ => id) (fun _ => .inl) fun _ _ => id

theorem forget : ({ w.deleteFinishedStoredRequest r with call := c } : World ρ).Logged := by
  refine h.mono (.inl rfl) rfl (fun _ => id) (fun _ => .inl) fun job _ hn => ?_
  change (w.deleteFinishedStoredRequest r).storedRequests.get job.reqId = none
  rw [get_deleteFinishedStoredRequest, update_apply]
  split_ifs
  · rfl
  · exact hn

theorem addRequest : ({ w.addRequest r with call := c } : World ρ).Logged := by
  have hst : ∀ job, Stale (w.log ++ [.enqueued ⟨w.nextId, r⟩]) job → Stale w.log job := by
    intro job hst
    rcases stale_concat.mp hst with hst | ⟨he, -⟩
    · exact hst
    · cases he
  refine ⟨fun job hm => ?_, fun job hw hs => ?_, fun job hr hs => ?_, ?_⟩
  · rcases mem_append.mp hm with hm | hm
    · exact (h.fresh job hm).trans (Nat.lt_succ_self _)
    · cases mem_singleton.mp hm
      exact Nat.lt_succ_self _
  · rcases hw with hm | hr
    · rcases mem_append.mp hm with hm | hm
      · exact h.waits job (.inl hm) (hst job hs)
      · -- the new job has a number that no job in the log has
        cases mem_singleton.mp hm
        obtain ⟨bf, a, heq, henq⟩ := hst _ hs
        have hlt := h.fresh ⟨w.nextId, r⟩ (by rw [heq]; exact mem_append_left _ henq)
        exact absurd hlt (lt_irrefl _)
    · exact h.waits job (.inr hr) (hst job hs)
  · exact h.admitted job hr (hst job hs)
  · exact h.puts.concat nofun

theorem preempt (hc : ∀ job, w.running = some (job, .admitted) → job.reqId ≠ r) :
    ({ w.deleteFinishedStoredRequest r with
      call := c
      log := w.log ++ [.preempted r] } : World ρ).Logged := by
  refine ⟨fun job hm => ?_, fun job hw hs => ?_, fun job hr hs => ?_, ?_⟩
  · rcases mem_append.mp hm with hm | hm
    · exact h.fresh job hm
    · cases mem_singleton.mp hm
  · change (w.deleteFinishedStoredRequest r).storedRequests.get job.reqId = none
    rw [get_deleteFinishedStoredRequest, update_apply]
    split_ifs with heq
    · rfl
    · rcases stale_concat.mp hs with hs | ⟨he, -⟩
      · exact h.waits job hw hs
      · cases he
        exact absurd rfl heq
  · rcases stale_concat.mp hs with hs | ⟨he, -⟩
    · exact h.admitted job hr hs
    · cases he
      exact hc job hr rfl
  · exact h.puts.concat (by simp)

theorem work (ha : w.Account) (hcl : Clean w .work) (hs : w.work = some w') : w'.Logged := by
  match hc : w.call with
  | .idle =>
    rw [World.work, hc] at hs
    cases hs
  | .saving (some _) _ =>
    rw [World.work, hc] at hs
    cases hs
    exact h.addRequest
  | .saving none (r :: _) =>
    rw [World.work, hc] at hs
    simp only [Clean, hc] at hcl
    cases hs
    refine h.mono (.inl rfl) rfl (fun _ => id) (fun _ => .inl) fun job hwa hn => ?_
    have hne : job.reqId ≠ r := by
      intro heq
      have hp := hwa.outstanding_pos
      rw [heq, hcl (heq ▸ hn)] at hp
      exact lt_irrefl _ hp
    change (w.addStoredRequest r).storedRequests.get job.reqId = none
    rw [get_addStoredRequest, update_of_ne hne, hn]
  | .saving none [] =>
    rw [World.work, hc] at hs
    cases hs
    exact h.setCall
  | .preempting (_ :: _) _ =>
    rw [World.work, hc] at hs
    simp only [Clean, hc] at hcl
    cases hs
    exact h.preempt hcl
  | .preempting [] _ =>
    rw [World.work, hc] at hs
    cases hs
    exact h.setCall
  | .scanning _ (some _) _ _ =>
    rw [World.work, hc] at hs
    cases hs
    exact h.forget
  | .scanning (r :: _) none _ _ =>
    have hco := ha.copy
    rw [hc] at hco
    rw [World.work, hc] at hs
    cases hs
    obtain ⟨n, hg⟩ := Option.ne_none_iff_exists'.mp (hco r mem_cons_self).1
    simp only [World.examine, hg]
    split_ifs
    · exact h.mono (.inl rfl) rfl (fun _ => id) (fun _ => .inl) fun _ _ => id
    · exact h.setCall
  | .scanning [] none _ _ =>
    rw [World.work, hc] at hs
    cases hs
    exact h.setCall
  | .finishing _ (some _) _ =>
    rw [World.work, hc] at hs
    cases hs
    exact h.forget
  | .finishing (r :: _) none _ =>
    rw [World.work, hc] at hs
    cases hs
    have hl : ∀ {w' : World ρ}, w'.log = w.log ++ [.finished r] → w'.nextId = w.nextId →
        w'.requestQueue = w.requestQueue → w'.running = w.running →
        w'.storedRequests = w.storedRequests → w'.Logged := by
      intro w' hl hnx hq hr hst
      refine h.mono (.inr ⟨_, hl, by simp, by simp, by simp⟩) hnx (fun job hw => ?_)
        (fun job hadm => .inl (hr ▸ hadm)) fun job _ hn => hst ▸ hn
      unfold Waits at hw ⊢
      rwa [hq, hr] at hw
    unfold World.finish
    dsimp only
    split
    · exact hl rfl rfl rfl rfl rfl
    · split_ifs
      · exact hl rfl rfl rfl rfl rfl
      · exact hl rfl rfl rfl rfl rfl
  | .finishing [] none _ =>
    rw [World.work, hc] at hs
    cases hs
    exact h.mono (.inr ⟨_, rfl, by simp, by simp, by simp⟩) rfl (fun _ => id) (fun _ => .inl)
      fun _ _ => id

theorem decStoredRequest : ({ w.decStoredRequest r with running := none } : World ρ).Logged := by
  unfold World.decStoredRequest
  split
  · exact h.mono (.inl rfl) rfl (fun _ hw => hw.of_ne rfl nofun) nofun fun _ _ => id
  · rename_i n hg
    refine h.mono (.inl rfl) rfl (fun _ hw => hw.of_ne rfl nofun) nofun fun job _ hn => ?_
    have hne : job.reqId ≠ r := fun heq => by rw [heq, hg] at hn; cases hn
    exact OrderedDict.get_set.trans ((if_neg hne).trans hn)

theorem step (ha : w.Account) (hc : Clean w act) (hst : w.step act = some w') : w'.Logged := by
  cases stepped hst with
  | save => exact h.setCall
  | get => exact h.setCall
  | work _ hst => exact h.work ha hc hst
  | take job qu hr hq =>
    refine h.mono (.inl rfl) rfl (fun job' hw => .inl ?_) nofun fun _ _ => id
    rw [hq]
    rcases hw with hm | hr'
    · exact mem_cons_of_mem _ hm
    · cases hr'
      exact mem_cons_self
  | drop => exact h.mono (.inl rfl) rfl (fun _ hw => hw.of_ne rfl nofun) nofun fun _ _ => id
  | pass job hr hg =>
    refine h.mono (.inl rfl) rfl (fun _ hw => hw.of_ne rfl nofun) (fun job' hadm => .inr ?_)
      fun _ _ => id
    cases hadm
    exact ⟨.inr hr, hg⟩
  | put job hr =>
    have hsl : ∀ job', Stale (w.log ++ [.put job]) job' → Stale w.log job' := by
      intro job' hs
      rcases stale_concat.mp hs with hs | ⟨he, -⟩
      · exact hs
      · cases he
    refine ⟨fun job' hm => ?_, fun job' hw hs => ?_, nofun, ?_⟩
    · rcases mem_append.mp hm with hm | hm
      · exact h.fresh job' hm
      · cases mem_singleton.mp hm
    · exact h.waits job' (hw.of_ne rfl nofun) (hsl job' hs)
    · refine h.puts.concat fun job' he => ?_
      cases he
      exact h.admitted job hr
  | fail => exact hc.elim
  | finish => exact h.decStoredRequest

end Logged

/-! ## 2. Reports -/

end World

section Marks

variable {s : Finset ρ} {q r : ρ}

def mark (s : Finset ρ) (r : ρ) : Nat := if r ∈ s then 1 else 0

theorem mark_empty : mark ∅ r = 0 := if_neg (Finset.notMem_empty r)

theorem mark_of_mem (h : r ∈ s) : mark s r = 1 := if_pos h

theorem mark_insert_self : mark (insert r s) r = 1 := if_pos (Finset.mem_insert_self r s)

theorem mark_insert_of_ne (h : q ≠ r) : mark (insert r s) q = mark s q := by
  simp [mark, h]

theorem mark_erase_self : mark (s.erase r) r = 0 := if_neg (Finset.notMem_erase r s)

theorem mark_erase_of_ne (h : q ≠ r) : mark (s.erase r) q = mark s q := by
  simp [mark, h]

end Marks

section Events

variable {log : List (Event ρ)} {e : Event ρ} {r : ρ}

theorem reports_concat : reports r (log ++ [e])
    = reports r log + match e with
      | .reported sending => mark sending r
      | _ => 0 := by
  cases e <;> simp [reports, countP_append, countP_singleton, mark]

theorem finishes_concat : finishes r (log ++ [e])
    = finishes r log + if e = .finished r then 1 else 0 := by
  simp [finishes, countP_append, countP_singleton]

end Events

namespace World

variable {w w' : World ρ} {act : Act ρ} {r : ρ}

/-- Reports that were made, that the call is going to make and that are owed are no more than the
    times a request has finished. -/
def Reported (w : World ρ) : Prop :=
  ∀ r, reports r w.log + mark w.call.sending r + mark w.finishedStoreReq r ≤ finishes r w.log

namespace Reported

variable (h : w.Reported)
include h

theorem mono (hl : w'.log = w.log ∨ ∃ e, w'.log = w.log ++ [e] ∧
      (∀ sending, e ≠ .reported sending) ∧ ∀ r, e ≠ .finished r)
        (hs : w'.call.sending = w.call.sending)
    (hst : w'.finishedStoreReq = w.finishedStoreReq) : w'.Reported := by
  intro r
  rw [hs, hst]
  rcases hl with heq | ⟨e, heq, hr, hf⟩
  · rw [heq]
    exact h r
  · rw [heq, reports_concat, finishes_concat, if_neg (hf r)]
    cases e with
    | reported sending => exact absurd rfl (hr sending)
    | _ => exact h r

variable {re : List ρ} {sn : Finset ρ}

theorem examine {f : List ρ} (hc : w.call.sending = sn) : (w.examine r re f sn).Reported := by
  -- whether the read has created a counter makes no difference
  have hst : ∀ {v : World ρ}, v.log = w.log → v.finishedStoreReq = w.finishedStoreReq →
      World.Reported (if v.storedRequests.get r = some 0 ∧ r ∈ v.finishedStoreReq then
        { v with
          finishedStoreReq := v.finishedStoreReq.erase r
          call := .scanning re (some r) f (insert r sn) }
      else { v with call := .scanning re none f sn }) := by
    intro v hl hsr
    split_ifs with hco
    · intro s
      have hs := h s
      rw [hc, ← hsr, ← hl] at hs
      change reports s v.log + mark (insert r sn) s + mark (v.finishedStoreReq.erase r) s
        ≤ finishes s v.log
      by_cases heq : s = r
      · subst heq
        rw [mark_of_mem hco.2] at hs
        rw [mark_insert_self, mark_erase_self]
        omega
      · rwa [mark_insert_of_ne heq, mark_erase_of_ne heq]
    · exact h.mono (.inl hl) hc.symm hsr
  unfold World.examine
  split
  · exact hst rfl rfl
  · exact hst rfl rfl

theorem finish (hc : w.call.sending = sn) : (w.finish r re sn).Reported := by
  have hr : ∀ s, reports s (w.log ++ [.finished r]) = reports s w.log :=
    fun s => reports_concat
  have hf : ∀ s, finishes s (w.log ++ [.finished r])
      = finishes s w.log + if r = s then 1 else 0 := by
    intro s
    rw [finishes_concat]
    simp only [Event.finished.injEq]
  -- what is reported and what is owed grow by one at most
  have hg : ∀ {v : World ρ}, v.log = w.log ++ [.finished r] →
      (∀ s ≠ r, mark v.call.sending s + mark v.finishedStoreReq s = mark sn s
        + mark w.finishedStoreReq s) →
      mark v.call.sending r + mark v.finishedStoreReq r ≤ mark sn r + mark w.finishedStoreReq r
        + 1 → v.Reported := by
    intro v hl hne hle s
    have hs := h s
    rw [hc] at hs
    rw [hl, hr, hf]
    by_cases heq : r = s
    · subst heq
      rw [if_pos rfl]
      omega
    · have hsa := hne s fun h => heq h.symm
      rw [if_neg heq]
      omega
  unfold World.finish
  dsimp only
  split
  · exact hg rfl (fun _ _ => rfl) (Nat.le_succ _)
  · split_ifs
    · refine hg rfl (fun s hs => ?_) ?_
      · exact congrArg (· + _) (mark_insert_of_ne hs)
      · change mark (insert r sn) r + mark w.finishedStoreReq r ≤ _
        rw [mark_insert_self]
        omega
    · refine hg rfl (fun s hs => ?_) ?_
      · exact congrArg (_ + ·) (mark_insert_of_ne hs)
      · change mark sn r + mark (insert r w.finishedStoreReq) r ≤ _
        rw [mark_insert_self]
        omega

theorem returned (hc : w.call.sending = sn) :
    ({ w with call := .idle, log := w.log ++ [.reported sn] } : World ρ).Reported := by
  intro r
  have hr := h r
  rw [hc] at hr
  rw [reports_concat, finishes_concat, if_neg nofun]
  change _ + mark sn r + mark ∅ r + _ ≤ _
  rwa [mark_empty]

theorem step (hs : w.step act = some w') : w'.Reported := by
  -- what the thread does is no report
  have hr : ∀ {v : World ρ}, v.log = w.log → v.call = w.call →
      v.finishedStoreReq = w.finishedStoreReq → v.Reported := fun hl hc hst =>
    h.mono (.inl hl) (by rw [hc]) hst
  have hd : ∀ r, ({ w.decStoredRequest r with running := none } : World ρ).Reported := by
    intro r
    unfold World.decStoredRequest
    split
    · exact hr rfl rfl rfl
    · exact hr rfl rfl rfl
  cases stepped hs with
  | save _ hc => exact h.mono (.inl rfl) (by rw [hc]; rfl) rfl
  | get _ _ hc => exact h.mono (.inl rfl) (by rw [hc]; rfl) rfl
  | work _ hs =>
    unfold World.work at hs
    split at hs
    · cases hs
    all_goals
      rename_i hc
      cases hs
    · exact h.mono (.inr ⟨_, rfl, nofun, nofun⟩) (by rw [hc]; rfl) rfl
    · exact h.mono (.inl rfl) (by rw [hc]; rfl) rfl
    · exact h.mono (.inl rfl) (by rw [hc]; rfl) rfl
    · exact h.mono (.inr ⟨_, rfl, nofun, nofun⟩) (by rw [hc]; rfl) rfl
    · exact h.mono (.inl rfl) (by rw [hc]; rfl) rfl
    · exact h.mono (.inl rfl) (by rw [hc]; rfl) rfl
    · exact h.examine (by rw [hc]; rfl)
    · exact h.mono (.inl rfl) (by rw [hc]; rfl) rfl
    · exact h.mono (.inl rfl) (by rw [hc]; rfl) rfl
    · exact h.finish (by rw [hc]; rfl)
    · exact h.returned (by rw [hc]; rfl)
  | take => exact hr rfl rfl rfl
  | drop => exact hr rfl rfl rfl
  | pass => exact hr rfl rfl rfl
  | put => exact h.mono (.inr ⟨_, rfl, nofun, nofun⟩) rfl rfl
  | fail => exact h.mono (.inr ⟨_, rfl, nofun, nofun⟩) rfl rfl
  | finish => exact hd _

end Reported

/-! ## 3. Runs -/

theorem start_account : (start : World ρ).Account :=
  ⟨⟨nofun, fun _ _ => ⟨nofun, nofun⟩⟩, fun r hr => absurd hr (Finset.notMem_empty r), nofun,
    nodup_nil, nofun⟩

theorem start_logged : (start : World ρ).Logged := by
  refine ⟨nofun, fun job hw => ?_, nofun, fun job bf a heq => ?_⟩
  · rcases hw with hm | hr
    · cases hm
    · cases hr
  · have hl := congrArg List.length heq
    simp [start] at hl

theorem start_reported : (start : World ρ).Reported := by
  intro r
  simp [start, reports, finishes, Call.sending, mark_empty]

theorem exec_invariant {a : List (Act ρ)} (ha : w.Account) (hl : w.Logged)
    (hr : w.Reported) (hc : RunsClean a w) (he : exec a w = some w') :
    w'.Account ∧ w'.Logged ∧ w'.Reported := by
  induction a generalizing w with
  | nil =>
    cases he
    exact ⟨ha, hl, hr⟩
  | cons act a ih =>
    obtain ⟨v, hv, hre⟩ := Option.bind_eq_some_iff.mp he
    obtain ⟨hact, hc'⟩ := hc
    rw [hv] at hc'
    exact ih (ha.step hact hv) (hl.step ha hact hv) (hr.step hv) hc' hre

theorem sound_of_invariant (ha : w.Account) (hl : w.Logged) (hre : w.Reported) : w.Sound := by
  refine ⟨ha.sending, fun r => ?_, fun hq hrun hc r n hg => ?_, hl.puts⟩
  · have hr := hre r
    omega
  · have hn := ha.books.counter r n hg
    rw [hc] at hn
    simpa [outstanding, hq, hrun] using hn

end World

/-- **Save jobs lose nothing** in a run of clean actions: a request about to be reported has no job
    left, reports are no more than finishes, counters are zero when there are no jobs, and no job
    has put after its request was preempted. -/
theorem sound_of_clean (acts : List (Act ρ)) (hclean : RunsClean acts start) (w : World ρ)
    (hexec : World.exec acts start = some w) : w.Sound := by
  obtain ⟨ha, hl, hr⟩ := World.exec_invariant World.start_account World.start_logged
    World.start_reported hclean hexec
  exact World.sound_of_invariant ha hl hr

/-- A request is preempted while its job waits, comes back when the job is gone, is saved and
    finishes. -/
def preemptedRun : List (Act Nat) :=
  [.waitForSave [(0, some true), (1, none)], .work, .work, .work,
    .getFinished [] [0], .work, .work, .work, .work, .take, .check,
    .waitForSave [(0, some true)], .work, .work, .work, .take, .check, .put, .done,
    .getFinished [0] [], .work, .work, .work, .work, .work, .work]

theorem preemptedRun_sound : ∃ w, World.exec preemptedRun start = some w ∧
    w.log = [.enqueued ⟨0, 0⟩, .preempted 0, .reported ∅, .enqueued ⟨1, 0⟩, .put ⟨1, 0⟩,
      .finished 0, .reported {0}] ∧ w.Sound := by
  refine ⟨_, rfl, rfl, sound_of_clean preemptedRun ?_ _ rfl⟩
  -- the actions that could be unclean are the two saves and the preemption
  exact ⟨trivial, fun _ => rfl, trivial, trivial, trivial, nofun, trivial, trivial,
    trivial, trivial,
    trivial, trivial, fun _ => rfl, trivial, trivial, trivial, trivial, trivial, trivial, trivial,
    trivial, trivial, trivial, trivial, trivial, trivial, trivial⟩

def failedRun : List (Act Nat) :=
  [.waitForSave [(0, some true)], .work, .work, .work, .take, .check, .fail]

def resumedRun : List (Act Nat) :=
  [.waitForSave [(0, some true)], .work, .work, .work, .getFinished [] [0], .work, .work, .work,
    .work, .waitForSave [(0, some true)], .work, .work, .work, .take, .check, .put, .done,
    .getFinished [0] [], .work, .work, .work, .work]

/-- After a put that raises, the counter stays above zero with nothing queued or running. A request
    saved again after a preemption has its old job put, and is about to be reported with its new job
    queued. -/
theorem unclean_runs :
    (∃ w, World.exec failedRun start = some w ∧ w.requestQueue = [] ∧ w.running = none ∧
      w.call.counted = none ∧ w.storedRequests.get 0 = some 1 ∧ ¬ w.Sound) ∧
    ∃ w, World.exec resumedRun start = some w ∧ 0 ∈ w.call.sending ∧
      w.requestQueue = [⟨1, 0⟩] ∧ w.log = [.enqueued ⟨0, 0⟩, .preempted 0, .reported ∅,
        .enqueued ⟨1, 0⟩, .put ⟨0, 0⟩, .finished 0] ∧ ¬ w.Sound := by
  refine ⟨⟨_, rfl, rfl, rfl, rfl, rfl, fun h => ?_⟩, ⟨_, rfl, ?_, rfl, rfl, fun h => ?_⟩⟩
  · have hz := h.zero rfl rfl rfl 0 1 rfl
    omega
  · decide
  · have hz := h.sending 0 (by decide)
    revert hz
    decide

end VllmDual.Store
