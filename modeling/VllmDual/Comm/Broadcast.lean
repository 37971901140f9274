/-
  Subject:   THE BROADCAST QUEUE IN SHARED MEMORY (`MessageQueue`, `ShmRingBuffer`,
             `vllm/distributed/device_communicators/shm_broadcast.py`).

  One writer and `n` local readers share a ring of chunks without a lock. A chunk has a written flag
  and a flag for each reader; a message that is too long for a chunk follows on a socket. The
  programs are cut into their accesses to the shared memory, which come in any order:

  * `in_order_unless_timeout`, `delivered_in_order` -- what a reader got is what was sent, in order;
  * `dequeue_completes` -- a reader that is behind gets its next message by itself;
  * `recvTimeout_misaligns` -- a receive that times out shifts what the reader gets.
-/
import Mathlib

namespace VllmDual.Comm

open Function List

/-! ## 1. The queue -/

variable {M : Type} {n : Nat}

/-- Where the writer is in `enqueue`: `readCount` is the sum of the first `i` flags; the data are
    being filled in; the first `i` flags are cleared; the chunk is published and the socket is to
    follow. -/
inductive WriterAt (M : Type) where
  | idle
  | scanning (m : M) (i readCount : Nat)
  | filling (m : M)
  | clearing (m : M) (i : Nat)
  | sending (m : M)

/-- Where a reader is in `dequeue`: in front of the loop's next look; its own flag is read, and not
    the written flag; it reads the data; it has them, and its flag is to be set; it waits for the
    socket. -/
inductive ReaderAt (M : Type) where
  | waiting
  | checking (readFlag : Bool)
  | reading
  | marking (data : Option M)
  | receiving

/-- The shared memory, chunk by chunk (no data are an overflow), where the writer and the readers
    are, the socket's messages to each reader, and what was published and returned. -/
structure MessageQueue (M : Type) (n : Nat) where
  written : Nat → Bool
  readFlag : Nat → Fin n → Bool
  data : Nat → Option M
  writer : WriterAt M
  currentIdx : Nat
  reader : Fin n → ReaderAt M
  readerIdx : Fin n → Nat
  socket : Fin n → List M
  sent : List M
  got : Fin n → List M

/-- `write` and `read` are the next access of the writer or a reader, `scribble` is any write to the
    data of a chunk that is being filled. -/
inductive Act (M : Type) (n : Nat) where
  | enqueue (m : M)
  | write
  | scribble (data : Option M)
  | writeTimeout
  | read (r : Fin n)
  | recvTimeout (r : Fin n)

namespace MessageQueue

def new : MessageQueue M n :=
  ⟨fun _ => false, fun _ _ => false, fun _ => none, .idle, 0, fun _ => .waiting, fun _ => 0,
    fun _ => [], [], fun _ => []⟩

section

variable (maxChunks : Nat) (overflows : M → Bool)

def content (m : M) : Option M := if overflows m then none else some m

variable (q : MessageQueue M n)

/-- `acquire_write`, and the end of `enqueue`. -/
def write : Option (MessageQueue M n) :=
  match q.writer with
  | .idle => none
  | .scanning m i readCount =>
    if h : i < n then
      some { q with
        writer := .scanning m (i + 1) (readCount + (q.readFlag q.currentIdx ⟨i, h⟩).toNat) }
    else if q.written q.currentIdx ∧ readCount ≠ n then some { q with writer := .scanning m 0 0 }
    else some { q with writer := .filling m, written := update q.written q.currentIdx false }
  | .filling m => some { q with
      writer := .clearing m 0
      data := update q.data q.currentIdx (content overflows m) }
  | .clearing m i =>
    if h : i < n then
      some { q with
        writer := .clearing m (i + 1)
        readFlag := update q.readFlag q.currentIdx (update (q.readFlag q.currentIdx) ⟨i, h⟩ false) }
    else some { q with
      writer := if overflows m then .sending m else .idle
      written := update q.written q.currentIdx true
      currentIdx := (q.currentIdx + 1) % maxChunks
      sent := q.sent ++ [m] }
  | .sending m => some { q with writer := .idle, socket := fun r => q.socket r ++ [m] }

/-- `acquire_read`, and the end of `dequeue`. -/
def read (r : Fin n) : Option (MessageQueue M n) :=
  match q.reader r with
  | .waiting =>
    some { q with reader := update q.reader r (.checking (q.readFlag (q.readerIdx r) r)) }
  | .checking readFlag => some { q with
      reader :=
        update q.reader r (if !q.written (q.readerIdx r) || readFlag then .waiting else .reading) }
  | .reading => some { q with reader := update q.reader r (.marking (q.data (q.readerIdx r))) }
  | .marking data =>
    let c := q.readerIdx r
    let q := { q with
      readFlag := update q.readFlag c (update (q.readFlag c) r true)
      readerIdx := update q.readerIdx r ((c + 1) % maxChunks) }
    match data with
    | some m => some { q with
      reader := update q.reader r .waiting, got := update q.got r (q.got r ++ [m]) }
    | none => some { q with reader := update q.reader r .receiving }
  | .receiving =>
    match q.socket r with
    | [] => none
    | m :: ms => some { q with
        reader := update q.reader r .waiting
        socket := update q.socket r ms
        got := update q.got r (q.got r ++ [m]) }

def step : Act M n → Option (MessageQueue M n)
  | .enqueue m => match q.writer with
    | .idle => some { q with writer := .scanning m 0 0 }
    | _ => none
  | .write => q.write maxChunks overflows
  | .scribble data => match q.writer with
    | .filling _ => some { q with data := update q.data q.currentIdx data }
    | _ => none
  | .writeTimeout => match q.writer with
    | .scanning .. => some { q with writer := .idle }
    | _ => none
  | .read r => q.read maxChunks r
  | .recvTimeout r => match q.reader r with
    | .receiving => some { q with reader := update q.reader r .waiting }
    | _ => none

def run (q : MessageQueue M n) : List (Act M n) → Option (MessageQueue M n)
  | [] => some q
  | a :: as => (q.step maxChunks overflows a).bind (run · as)

end

end MessageQueue

/-! ## 2. The invariant -/

def WriterAt.busy : WriterAt M → Nat
  | .filling _ => 1
  | .clearing .. => 1
  | _ => 0

def WriterAt.unsent : WriterAt M → List M
  | .sending m => [m]
  | _ => []

def ReaderAt.owes : ReaderAt M → Nat
  | .receiving => 1
  | _ => 0

/-- Counts the receives of each reader that timed out. -/
def Act.timeouts (lost : Fin n → Nat) : Act M n → Fin n → Nat
  | .recvTimeout r => update lost r (lost r + 1)
  | _ => lost

namespace MessageQueue

variable {k : Nat} {overflows : M → Bool} {q q' : MessageQueue M n} {r : Fin n} {b : Nat}
  {t lost : Fin n → Nat}

def taken (q : MessageQueue M n) (r : Fin n) : Nat := (q.got r).length + (q.reader r).owes

/-- The chunks a reader has marked, with those of the receives it gave up. -/
def passed (lost : Fin n → Nat) (q : MessageQueue M n) (r : Fin n) : Nat := q.taken r + lost r

def WriterOk (overflows : M → Bool) (q : MessageQueue M n) : WriterAt M → Prop
  | .scanning _ i readCount => readCount ≤ i ∧ i ≤ n ∧
      (readCount = i → ∀ r : Fin n, r < i → q.readFlag q.currentIdx r = true)
  | .clearing m i => q.data q.currentIdx = content overflows m ∧
      ∀ r : Fin n, r < i → q.readFlag q.currentIdx r = false
  | _ => True

/-- What a reader has found out whose next message is the `j`-th. -/
def ReaderOk (overflows : M → Bool) (q : MessageQueue M n) (j : Nat) : ReaderAt M → Prop
  | .checking false => j = q.sent.length → q.written q.currentIdx = false
  | .reading => j < q.sent.length
  | .marking data => ∃ m ∈ q.sent[j]?, data = content overflows m
  | .receiving => ∃ m ∈ q.sent[j]?, overflows m = true
  | _ => True

/-- The shared memory. A chunk is live from its publication until the writer takes it again, which
    is after all readers have read it. -/
structure Ring (k : Nat) (overflows : M → Bool) (q : MessageQueue M n) (busy : Nat)
    (taken : Fin n → Nat) : Prop where
  currentIdx : q.currentIdx = q.sent.length % k
  readerIdx : ∀ r, q.readerIdx r = taken r % k
  taken_le : ∀ r, taken r ≤ q.sent.length
  lag : ∀ r, q.sent.length + busy ≤ taken r + k
  closed : 0 < busy → q.written q.currentIdx = false
  fresh : ∀ c, q.sent.length ≤ c → c < k → q.written c = false
  live : ∀ j m, q.sent[j]? = some m → q.sent.length + busy ≤ j + k → q.written (j % k) = true ∧
    q.data (j % k) = content overflows m ∧ ∀ r, q.readFlag (j % k) r = decide (j < taken r)

structure Inv (k : Nat) (overflows : M → Bool) (lost : Fin n → Nat) (q : MessageQueue M n) :
    Prop where
  ring : q.Ring k overflows q.writer.busy (q.passed lost)
  writer : q.WriterOk overflows q.writer
  reader : ∀ r, q.ReaderOk overflows ((q.got r).length + lost r) (q.reader r)
  got : ∀ r, lost r = 0 → q.got r <+: q.sent
  socket : ∀ r, lost r = 0 →
    (q.sent.drop (q.got r).length).filter overflows = q.socket r ++ q.writer.unsent

theorem mod_ne {i j : Nat} (h : i < j) (hk : j < i + k) : i % k ≠ j % k := by
  intro heq
  have hd : k ∣ j - i := (Nat.modEq_iff_dvd' h.le).mp heq
  have hle := Nat.le_of_dvd (by omega) hd
  omega

theorem Ring.live_ne (hr : q.Ring k overflows b t) {j : Nat} {m : M} (hj : q.sent[j]? = some m)
    (hle : q.sent.length < j + k) : j % k ≠ q.currentIdx :=
  hr.currentIdx ▸ mod_ne (List.getElem?_eq_some_iff.mp hj).1 hle

theorem inv_new (k : Nat) (overflows : M → Bool) : (new : MessageQueue M n).Inv k overflows 0 where
  ring := ⟨(Nat.zero_mod k).symm, fun _ => (Nat.zero_mod k).symm, fun _ => le_rfl,
    fun _ => Nat.zero_le _, fun _ => rfl, fun _ _ _ => rfl, nofun⟩
  writer := trivial
  reader _ := trivial
  got _ _ := prefix_rfl
  socket _ _ := rfl

theorem Ring.oldest (h : q.Ring k overflows 0 t) (hk : 0 < k) (hge : k ≤ q.sent.length) :
    q.written q.currentIdx = true ∧
      ∀ r, q.readFlag q.currentIdx r = decide (q.sent.length - k < t r) := by
  obtain ⟨hw, -, hf⟩ :=
    h.live _ _ (getElem?_eq_getElem (show q.sent.length - k < q.sent.length by omega)) (by omega)
  rw [← Nat.mod_eq_sub_mod hge, ← h.currentIdx] at hw hf
  exact ⟨hw, hf⟩

theorem Ring.room (hk : 0 < k) (h : q.Ring k overflows 0 t)
    (hf : q.written q.currentIdx = false ∨ ∀ r, q.readFlag q.currentIdx r = true) :
    ∀ r, q.sent.length < t r + k := by
  intro r
  rcases Nat.lt_or_ge q.sent.length k with hlt | hge
  · omega
  obtain ⟨hw, hfl⟩ := h.oldest hk hge
  rcases hf with hf | hf
  · rw [hf] at hw
    cases hw
  · have ht := (hfl r).symm.trans (hf r)
    rw [decide_eq_true_iff] at ht
    omega

theorem Ring.unwritten (hk : 0 < k) (hr : q.Ring k overflows b t) (ht : t r = q.sent.length)
    (hf : q.readFlag q.currentIdx r = false) : q.written q.currentIdx = false := by
  rcases Nat.eq_zero_or_pos b with rfl | hb
  · rcases Nat.lt_or_ge q.sent.length k with hlt | hge
    · rw [hr.currentIdx, Nat.mod_eq_of_lt hlt]
      exact hr.fresh _ le_rfl hlt
    · have hlt := (hr.oldest hk hge).2 r
      rw [hf, eq_comm, decide_eq_false_iff_not] at hlt
      omega
  · exact hr.closed hb

theorem passed_of (h : (q.reader r).owes = 0) :
    q.passed lost r = (q.got r).length + lost r := by
  rw [passed, taken, h, Nat.add_zero]

theorem Inv.pos_le (h : q.Inv k overflows lost) (r : Fin n) :
    (q.got r).length + lost r ≤ q.sent.length :=
  (Nat.add_le_add_right (Nat.le_add_right ..) _).trans (h.ring.taken_le r)

theorem Inv.setWriter (h : q.Inv k overflows lost) {w : WriterAt M} (hb : w.busy = q.writer.busy)
    (hu : w.unsent = q.writer.unsent) (hw : q.WriterOk overflows w) :
    ({ q with writer := w } : MessageQueue M n).Inv k overflows lost where
  ring := { hb ▸ h.ring with }
  writer := hw
  reader := h.reader
  got := h.got
  socket := hu ▸ h.socket

theorem ReaderOk.mono {j : Nat} {a : ReaderAt M} (h : q.ReaderOk overflows j a)
    (hs : q.sent <+: q'.sent) (hw : j = q'.sent.length → q'.written q'.currentIdx = false) :
    q'.ReaderOk overflows j a := by
  have hat {m : M} (hm : q.sent[j]? = some m) : q'.sent[j]? = some m := by
    obtain ⟨l, hl⟩ := hs
    rw [← hl, getElem?_append_left (List.getElem?_eq_some_iff.mp hm).1, hm]
  cases a with
  | waiting => trivial
  | checking f =>
    cases f with
    | false => exact hw
    | true => trivial
  | reading => exact lt_of_lt_of_le h hs.length_le
  | marking d => exact h.imp fun m hm => ⟨hat hm.1, hm.2⟩
  | receiving => exact h.imp fun m hm => ⟨hat hm.1, hm.2⟩

theorem Ring.touch (hr : q.Ring k overflows b t) (hl : ∀ r, q.sent.length + 1 ≤ t r + k)
    {w : Nat → Bool} {d : Nat → Option M} {f : Nat → Fin n → Bool} (hw : w q.currentIdx = false)
    (ho : ∀ c ≠ q.currentIdx, w c = q.written c ∧ d c = q.data c ∧ f c = q.readFlag c) (hb : b ≤ 1)
    (x : WriterAt M) :
    ({ q with writer := x, written := w, data := d, readFlag := f } : MessageQueue M n).Ring k
      overflows 1 t := by
  refine { hr with
    lag := hl, closed := fun _ => hw, fresh := fun c hc hck => ?_, live := fun j m hj hle => ?_ }
  · rcases eq_or_ne c q.currentIdx with rfl | hne
    · exact hw
    · exact (ho c hne).1.trans (hr.fresh c hc hck)
  · obtain ⟨h₁, h₂, h₃⟩ := ho (j % k) (hr.live_ne hj hle)
    obtain ⟨hwr, hd, hf⟩ := hr.live j m hj (le_trans (Nat.add_le_add_left hb _) hle)
    exact ⟨h₁.trans hwr, h₂.trans hd, fun r => (congrFun h₃ r).trans (hf r)⟩

theorem Ring.publish {m : M} (hr : q.Ring k overflows 1 t)
    (hda : q.data q.currentIdx = content overflows m)
    (hcl : ∀ r, q.readFlag q.currentIdx r = false) (w : WriterAt M) :
    ({ q with
      writer := w
      written := update q.written q.currentIdx true
      currentIdx := (q.currentIdx + 1) % k
      sent := q.sent ++ [m] } : MessageQueue M n).Ring k overflows 0 t := by
  have hx := hr.currentIdx
  have hlen : (q.sent ++ [m]).length = q.sent.length + 1 := length_append
  refine ⟨?_, hr.readerIdx, fun r => ?_, fun r => ?_, nofun, fun c hc hck => ?_,
    fun j m' hj hle => ?_⟩
  · change (q.currentIdx + 1) % k = (q.sent ++ [m]).length % k
    rw [hlen, hx, Nat.mod_add_mod]
  · exact (hr.taken_le r).trans (hlen ▸ Nat.le_succ _)
  · exact hlen ▸ hr.lag r
  · have hc : q.sent.length + 1 ≤ c := hlen ▸ hc
    have hne : c ≠ q.currentIdx := by
      rw [hx, Nat.mod_eq_of_lt (by omega)]
      omega
    exact (update_of_ne hne ..).trans (hr.fresh c (by omega) hck)
  · have hj : (q.sent ++ [m])[j]? = some m' := hj
    have hle : q.sent.length + 1 ≤ j + k := hlen ▸ hle
    have hlt : j < q.sent.length + 1 := hlen ▸ (List.getElem?_eq_some_iff.mp hj).1
    rcases Nat.lt_succ_iff_lt_or_eq.mp hlt with hlt | rfl
    · rw [getElem?_append_left hlt] at hj
      obtain ⟨hwr, hd⟩ := hr.live j m' hj hle
      exact ⟨(update_of_ne (hr.live_ne hj hle) ..).trans hwr, hd⟩
    · rw [getElem?_concat_length] at hj
      cases hj
      rw [← hx]
      exact ⟨update_self .., hda, fun r => (hcl r).trans
        (decide_eq_false (hr.taken_le r).not_gt).symm⟩

theorem Inv.write (hk : 0 < k) (h : q.Inv k overflows lost) (hs : q.write k overflows = some q') :
    q'.Inv k overflows lost := by
  have hr := h.ring
  have hw := h.writer
  have hso := h.socket
  unfold MessageQueue.write at hs
  cases hq : q.writer with
  | idle => simp only [hq, reduceCtorEq] at hs
  | scanning m i c =>
    simp only [hq] at hs
    rw [hq] at hr hw hso
    obtain ⟨hc, hi, hall⟩ := hw
    split_ifs at hs with hlt hfull
    · cases hs
      have hb := Bool.toNat_le (q.readFlag q.currentIdx ⟨i, hlt⟩)
      refine h.setWriter (by rw [hq]; rfl) (by rw [hq]; rfl) ⟨by omega, hlt, fun heq r hri => ?_⟩
      rcases Nat.lt_succ_iff_lt_or_eq.mp hri with hri | hri
      · exact hall (by omega) r hri
      · have ht : (q.readFlag q.currentIdx ⟨i, hlt⟩).toNat = 1 := by omega
        rw [show r = ⟨i, hlt⟩ from Fin.ext hri]
        simpa using ht
    · cases hs
      exact h.setWriter (by rw [hq]; rfl) (by rw [hq]; rfl)
        ⟨le_rfl, Nat.zero_le _, fun _ r hr => absurd hr (Nat.not_lt_zero _)⟩
    · cases hs
      have hro := hr.room hk <| by
        by_cases hwr : q.written q.currentIdx = true
        · exact .inr fun r => hall (by grind) r (by omega)
        · exact .inl (by simpa using hwr)
      exact ⟨hr.touch hro (update_self ..) (fun c hc => ⟨update_of_ne hc .., rfl, rfl⟩)
        (Nat.zero_le _) _, trivial,
        fun r => (h.reader r).mono prefix_rfl fun _ => update_self .., h.got, hso⟩
  | filling m =>
    simp only [hq, Option.some.injEq] at hs
    rw [hq] at hr hso
    subst hs
    exact ⟨hr.touch hr.lag (hr.closed Nat.one_pos) (fun c hc => ⟨rfl, update_of_ne hc .., rfl⟩)
      le_rfl _, ⟨update_self .., fun r hlt => absurd hlt (Nat.not_lt_zero _)⟩, h.reader, h.got, hso⟩
  | clearing m i =>
    simp only [hq] at hs
    rw [hq] at hr hw hso
    obtain ⟨hda, hcl⟩ := hw
    split at hs
    case isTrue hlt =>
      cases hs
      refine ⟨hr.touch hr.lag (hr.closed Nat.one_pos) (fun c hc => ⟨rfl, rfl, update_of_ne hc ..⟩)
        le_rfl _, ⟨hda, fun r hri => ?_⟩, h.reader, h.got, hso⟩
      change update q.readFlag q.currentIdx _ _ r = false
      rw [update_self, update_apply]
      split_ifs with heq
      · rfl
      · exact hcl r (by grind)
    case isFalse hlt =>
      cases hs
      have hb : (if overflows m then WriterAt.sending m else .idle).busy = 0 := by split <;> rfl
      refine ⟨?_, ?_, fun r => (h.reader r).mono (prefix_append ..) fun heq => ?_,
        fun r hl => (h.got r hl).trans (prefix_append ..), fun r hl => ?_⟩
      · change Ring k overflows _ (if overflows m then WriterAt.sending m else .idle).busy
          (q.passed lost)
        rw [hb]
        exact hr.publish hda (fun r => hcl r (by omega)) _
      · cases hov : overflows m <;> exact trivial
      · have hle := h.pos_le r
        simp only [length_append, length_singleton] at heq
        omega
      · rw [drop_append_of_le_length (h.got r hl).length_le, filter_append, hso r hl]
        cases hov : overflows m <;> simp [WriterAt.unsent, hov]
  | sending m =>
    simp only [hq, Option.some.injEq] at hs
    rw [hq] at hr hso
    subst hs
    refine ⟨{ hr with }, trivial, h.reader, h.got, fun r hl => ?_⟩
    rw [hso r hl]
    simp [WriterAt.unsent]

theorem passed_update (r : Fin n) (a : ReaderAt M) (g : List M) (l : Nat) :
    ({ q with reader := update q.reader r a, got := update q.got r g } : MessageQueue M n).passed
      (update lost r l) = update (q.passed lost) r (g.length + a.owes + l) := by
  funext r'
  rcases eq_or_ne r' r with rfl | hne
  · simp only [passed, taken, update_self]
  · simp only [passed, taken, update_of_ne hne]

theorem Inv.setReader (h : q.Inv k overflows lost) {f : Nat → Fin n → Bool} {x : Fin n → Nat}
    {a : ReaderAt M} {g s : List M} {l : Nat}
    (hr : ({ q with readFlag := f, readerIdx := x } : MessageQueue M n).Ring k overflows
      q.writer.busy (update (q.passed lost) r (g.length + a.owes + l)))
    (hw : ({ q with readFlag := f } : MessageQueue M n).WriterOk overflows q.writer)
    (ha : q.ReaderOk overflows (g.length + l) a) (hg : l = 0 → g <+: q.sent)
    (hs : l = 0 → (q.sent.drop g.length).filter overflows = s ++ q.writer.unsent) :
    ({ q with
      readFlag := f
      readerIdx := x
      reader := update q.reader r a
      got := update q.got r g
      socket := update q.socket r s } : MessageQueue M n).Inv k overflows (update lost r l) := by
  have hall (p : List M → ReaderAt M → List M → Nat → Prop) (hp : p g a s l)
      (ho : ∀ r, p (q.got r) (q.reader r) (q.socket r) (lost r)) (r' : Fin n) :
      p (update q.got r g r') (update q.reader r a r') (update q.socket r s r')
        (update lost r l r') := by
    rcases eq_or_ne r' r with rfl | hne
    · simpa only [update_self] using hp
    · simpa only [update_of_ne hne] using ho r'
  refine ⟨?_, hw, hall (fun g a _ l => q.ReaderOk overflows (g.length + l) a) ha h.reader,
    hall (fun g _ _ l => l = 0 → g <+: q.sent) hg h.got,
    hall (fun g _ s l => l = 0 →
      (q.sent.drop g.length).filter overflows = s ++ q.writer.unsent) hs h.socket⟩
  rw [← passed_update] at hr
  exact { hr with }

theorem Inv.look (h : q.Inv k overflows lost) {a : ReaderAt M} (hq : (q.reader r).owes = 0)
    (ho : a.owes = 0) (ha : q.ReaderOk overflows ((q.got r).length + lost r) a) :
    ({ q with reader := update q.reader r a } : MessageQueue M n).Inv k overflows lost := by
  have ht : update (q.passed lost) r ((q.got r).length + a.owes + lost r) = q.passed lost := by
    rw [ho, ← hq]
    exact update_eq_self ..
  have hi := h.setReader (f := q.readFlag) (x := q.readerIdx) (ht ▸ h.ring) h.writer ha (h.got r)
      (h.socket r)
  rwa [update_eq_self, update_eq_self, update_eq_self] at hi

/-- The chunk of a receive that times out stays marked. -/
theorem Inv.giveUp (h : q.Inv k overflows lost) (hq : q.reader r = .receiving) :
    ({ q with reader := update q.reader r .waiting } : MessageQueue M n).Inv k overflows
      (update lost r (lost r + 1)) := by
  have ht : update (q.passed lost) r ((q.got r).length + 0 + (lost r + 1)) = q.passed lost := by
    rw [update_eq_iff, passed, taken, hq]
    exact ⟨by simp only [ReaderAt.owes]; omega, fun _ _ => rfl⟩
  have hi := h.setReader (f := q.readFlag) (x := q.readerIdx) (a := .waiting) (s := q.socket r)
    (ht ▸ h.ring) h.writer trivial (fun hl => absurd hl (Nat.succ_ne_zero _))
    fun hl => absurd hl (Nat.succ_ne_zero _)
  rwa [update_eq_self, update_eq_self] at hi

theorem Ring.mark (hr : q.Ring k overflows b t) (hlt : t r < q.sent.length) :
    ({ q with
      readFlag := update q.readFlag (q.readerIdx r) (update (q.readFlag (q.readerIdx r)) r true)
      readerIdx := update q.readerIdx r ((q.readerIdx r + 1) % k) } : MessageQueue M n).Ring k
        overflows b
      (update t r (t r + 1)) := by
  have hx := hr.readerIdx r
  have hl := hr.lag r
  refine { hr with
    readerIdx := fun r' => ?_
    taken_le := (forall_update_iff t fun _ x => x ≤ q.sent.length).mpr ⟨hlt,
      fun r' _ => hr.taken_le r'⟩
    lag := (forall_update_iff t fun _ x => q.sent.length + b ≤ x + k).mpr ⟨by omega,
      fun r' _ => hr.lag r'⟩
    live := fun j m hj hle => ?_ }
  · change update q.readerIdx r _ r' = _
    rcases eq_or_ne r' r with rfl | hne
    · rw [update_self, update_self, hx, Nat.mod_add_mod]
    · rw [update_of_ne hne, update_of_ne hne, hr.readerIdx]
  · obtain ⟨hw, hd, hf⟩ := hr.live j m hj hle
    refine ⟨hw, hd, fun r' => ?_⟩
    have hjl : j < q.sent.length := (List.getElem?_eq_some_iff.mp hj).1
    have hle : q.sent.length + b ≤ j + k := hle
    change update q.readFlag (q.readerIdx r) _ (j % k) r' = _
    rw [hx]
    by_cases hjt : j = t r
    · rw [hjt, update_self]
      rcases eq_or_ne r' r with rfl | hne
      · rw [update_self, update_self, decide_eq_true (Nat.lt_succ_self _)]
      · rw [update_of_ne hne, update_of_ne hne, ← hjt, hf]
    -- two live messages are in two chunks
    · have hne : j % k ≠ t r % k := by
        rcases Nat.lt_or_gt_of_ne hjt with h | h
        · exact mod_ne h (by omega)
        · exact (mod_ne h (by omega)).symm
      rw [update_of_ne hne, hf, decide_eq_decide]
      rcases eq_or_ne r' r with rfl | hne
      · rw [update_self]
        omega
      · rw [update_of_ne hne]

theorem Inv.mark (h : q.Inv k overflows lost) (hlt : q.passed lost r < q.sent.length) :
    ({ q with
      readFlag := update q.readFlag (q.readerIdx r) (update (q.readFlag (q.readerIdx r)) r true) } :
      MessageQueue M n).WriterOk overflows q.writer := by
  have hr := h.ring
  have hw := h.writer
  have hl := hr.lag r
  cases hq : q.writer with
  | scanning m i c =>
    rw [hq] at hw
    refine ⟨hw.1, hw.2.1, fun hc r' hri => ?_⟩
    have ht := hw.2.2 hc r' hri
    change update q.readFlag _ _ q.currentIdx r' = true
    rw [update_apply]
    split_ifs with heq
    · rw [update_apply, ← heq, ht, ite_self]
    · exact ht
  | clearing m i =>
    rw [hq] at hw hl
    have hne : q.currentIdx ≠ q.readerIdx r := by
      rw [hr.currentIdx, hr.readerIdx]
      exact (mod_ne hlt hl).symm
    exact ⟨hw.1, fun r' hri => (congrFun (update_of_ne hne ..) r').trans (hw.2 r' hri)⟩
  | _ => trivial

theorem Ring.unread (hr : q.Ring k overflows b t) {m : M} (hm : q.sent[t r]? = some m) :
    q.written (q.readerIdx r) = true ∧ q.data (q.readerIdx r) = content overflows m ∧
      q.readFlag (q.readerIdx r) r = false := by
  rw [hr.readerIdx]
  exact (hr.live _ m hm (hr.lag r)).imp_right
    (And.imp_right fun hf => (hf r).trans (decide_eq_false (Nat.lt_irrefl _)))

theorem Ring.kept (hr : q.Ring k overflows b t) {j : Nat} {m : M} (hm : q.sent[j]? = some m)
    (hj : t r ≤ j) : q.data (j % k) = content overflows m ∧ (0 < b → q.currentIdx ≠ j % k) := by
  have hl := hr.lag r
  exact ⟨(hr.live j m hm (by omega)).2.1, fun hb => (hr.live_ne hm (by omega)).symm⟩

theorem prefix_next {g l : List M} {m : M} (hg : g <+: l) (hm : l[g.length]? = some m) :
    g ++ [m] <+: l ∧ l.drop g.length = m :: l.drop (g ++ [m]).length := by
  obtain ⟨l', rfl⟩ := hg
  cases l' with
  | nil => simp at hm
  | cons m' l' =>
    simp at hm
    subst hm
    simp

theorem Inv.read (hk : 0 < k) (h : q.Inv k overflows lost) (hs : q.read k r = some q') :
    q'.Inv k overflows lost := by
  have hr := h.ring
  have hx := hr.readerIdx r
  have ha := h.reader r
  unfold MessageQueue.read at hs
  cases hq : q.reader r with
  | waiting =>
    have ht : q.passed lost r = _ := passed_of (by rw [hq]; rfl)
    simp only [hq, Option.some.injEq] at hs
    subst hs
    refine h.look (by rw [hq]; rfl) rfl ?_
    cases hf : q.readFlag (q.readerIdx r) r with
    | true => exact trivial
    | false =>
      intro heq
      rw [hx, ht, heq, ← hr.currentIdx] at hf
      exact hr.unwritten hk (ht.trans heq) hf
  | checking f =>
    have ht : q.passed lost r = _ := passed_of (by rw [hq]; rfl)
    simp only [hq, Option.some.injEq] at hs
    subst hs
    rw [hq] at ha
    split
    case isTrue => exact h.look (by rw [hq]; rfl) rfl trivial
    case isFalse hn =>
      simp only [Bool.or_eq_true, Bool.not_eq_true', not_or, Bool.not_eq_true,
        Bool.not_eq_false] at hn
      refine h.look (by rw [hq]; rfl) rfl (lt_of_le_of_ne (h.pos_le r) fun heq => ?_)
      rw [hn.2] at ha
      have hw := ha heq
      rw [hr.currentIdx, ← heq, ← ht, ← hx, hn.1] at hw
      cases hw
  | reading =>
    have ht : q.passed lost r = _ := passed_of (by rw [hq]; rfl)
    simp only [hq, Option.some.injEq] at hs
    subst hs
    rw [hq] at ha
    have hm := getElem?_eq_getElem ha
    exact h.look (by rw [hq]; rfl) rfl ⟨_, hm, (hr.unread (by rw [ht]; exact hm)).2.1⟩
  | marking d =>
    have ht : q.passed lost r = _ := passed_of (by rw [hq]; rfl)
    simp only [hq] at hs
    rw [hq] at ha
    obtain ⟨m, hm, rfl⟩ := ha
    have hlt : q.passed lost r < q.sent.length := ht ▸ (List.getElem?_eq_some_iff.mp hm).1
    cases hov : overflows m with
    | true =>
      simp only [content, hov, if_true, Option.some.injEq] at hs
      subst hs
      have hi := h.setReader (a := .receiving) (by
        simpa [ReaderAt.owes, ht, Nat.add_right_comm] using hr.mark hlt) (h.mark hlt) ⟨m, hm, hov⟩
        (h.got r) (h.socket r)
      rwa [update_eq_self, update_eq_self, update_eq_self] at hi
    | false =>
      simp only [content, hov, Bool.false_eq_true, if_false, Option.some.injEq] at hs
      subst hs
      have hn (hl : lost r = 0) := prefix_next (h.got r hl) (by simpa [hl] using hm)
      have hi := h.setReader (a := .waiting) (g := q.got r ++ [m]) (by
        simpa [ReaderAt.owes, ht, Nat.add_right_comm] using hr.mark hlt) (h.mark hlt) trivial
        (fun hl => (hn hl).1) fun hl => by
          have hso := h.socket r hl
          rwa [(hn hl).2, filter_cons_of_neg (by simp [hov])] at hso
      rwa [update_eq_self, update_eq_self] at hi
  | receiving =>
    simp only [hq] at hs
    rw [hq] at ha
    obtain ⟨m, hm, hov⟩ := ha
    split at hs
    case h_1 => cases hs
    case h_2 m' ms hms =>
      cases hs
      have hu : update (q.passed lost) r ((q.got r ++ [m']).length + 0 + lost r)
          = q.passed lost := by
        rw [length_append, length_singleton, Nat.add_zero, update_eq_iff, passed, taken, hq]
        exact ⟨rfl, fun _ _ => rfl⟩
      have hn (hl : lost r = 0) : m = m' ∧
          (q.sent.drop (q.got r ++ [m]).length).filter overflows = ms ++ q.writer.unsent := by
        have hso := h.socket r hl
        rw [(prefix_next (h.got r hl) (by simpa [hl] using hm)).2, filter_cons_of_pos hov, hms,
          cons_append, cons.injEq] at hso
        exact hso
      have hi := h.setReader (a := .waiting) (f := q.readFlag) (x := q.readerIdx) (l := lost r)
        (g := q.got r ++ [m']) (s := ms) (hu ▸ hr) h.writer trivial
        (fun hl => (hn hl).1 ▸ (prefix_next (h.got r hl) (by simpa [hl] using hm)).1)
        fun hl => (hn hl).1 ▸ (hn hl).2
      rwa [update_eq_self] at hi

theorem Inv.step (hk : 0 < k) (h : q.Inv k overflows lost) {a : Act M n}
    (hs : q.step k overflows a = some q') : q'.Inv k overflows (a.timeouts lost) := by
  cases a with
  | enqueue m =>
    simp only [MessageQueue.step] at hs
    split at hs <;> cases hs
    rename_i hq
    exact h.setWriter (by rw [hq]; rfl) (by rw [hq]; rfl)
      ⟨le_rfl, Nat.zero_le _, fun _ r hr => absurd hr (Nat.not_lt_zero _)⟩
  | write => exact h.write hk hs
  | scribble d =>
    simp only [MessageQueue.step] at hs
    split at hs <;> cases hs
    rename_i m hq
    have hr := h.ring
    rw [hq] at hr
    refine ⟨?_, hq ▸ trivial, h.reader, h.got, h.socket⟩
    rw [hq]
    exact hr.touch hr.lag (hr.closed Nat.one_pos)
      (fun c hc => ⟨rfl, update_of_ne hc .., rfl⟩) le_rfl _
  | writeTimeout =>
    simp only [MessageQueue.step] at hs
    split at hs <;> cases hs
    rename_i hq
    exact h.setWriter (by rw [hq]; rfl) (by rw [hq]; rfl) trivial
  | read r => exact h.read hk hs
  | recvTimeout r =>
    simp only [MessageQueue.step] at hs
    split at hs <;> cases hs
    rename_i hq
    exact h.giveUp hq

theorem Inv.run (hk : 0 < k) (h : q.Inv k overflows lost) {acts : List (Act M n)}
    (hs : q.run k overflows acts = some q') :
    q'.Inv k overflows (acts.foldl Act.timeouts lost) := by
  induction acts generalizing q lost with
  | nil =>
    cases hs
    exact h
  | cons a acts ih =>
    obtain ⟨q₁, h₁, h₂⟩ := Option.bind_eq_some_iff.mp hs
    exact ih (h.step hk h₁) h₂

theorem timeouts_eq {acts : List (Act M n)} (ha : ∀ a ∈ acts, a ≠ .recvTimeout r) :
    acts.foldl Act.timeouts lost r = lost r := by
  induction acts generalizing lost with
  | nil => rfl
  | cons a acts ih =>
    rw [foldl_cons, ih fun a' h => ha a' (mem_cons_of_mem _ h)]
    cases a with
    | recvTimeout r' => exact update_of_ne (fun h => ha _ mem_cons_self (congrArg _ h.symm)) ..
    | _ => rfl

theorem read_next {m x : M} {ms : List M} (hq : q.reader r = .waiting)
    (h : q.written (q.readerIdx r) = true ∧ q.data (q.readerIdx r) = content overflows m ∧
      q.readFlag (q.readerIdx r) r = false) (hs : overflows m = true → q.socket r = x :: ms) :
    ∃ i ≤ 5, ∃ q', q.run k overflows (replicate i (.read r)) = some q' ∧ q'.reader r = .waiting ∧
      q'.got = update q.got r (q.got r ++ [if overflows m then x else m]) := by
  obtain ⟨hw, hd, hf⟩ := h
  cases hov : overflows m with
  | false =>
    refine ⟨4, by decide, ?_⟩
    simp [replicate, MessageQueue.run, MessageQueue.step, MessageQueue.read, hq, hw, hd, hf,
      content, hov]
  | true =>
    refine ⟨5, le_rfl, ?_⟩
    simp [replicate, MessageQueue.run, MessageQueue.step, MessageQueue.read, hq, hw, hd, hf,
      content, hov, hs hov]

/-! ## 3. Every message, once and in order -/

section Runs

-- no receive from the socket times out
variable {acts : List (Act M n)} (hk : 0 < k) (ha : ∀ a ∈ acts, ∀ r, a ≠ .recvTimeout r)
  (hs : (new : MessageQueue M n).run k overflows acts = some q)

include hk ha hs

theorem inv_run : q.Inv k overflows 0 := by
  have h := (inv_new k overflows).run hk hs
  rwa [show acts.foldl Act.timeouts 0 = 0 from
    funext fun r => timeouts_eq fun a hm => ha a hm r] at h

/-- A reader that is behind gets its next message by itself, unless that is still to be put on the
    socket. -/
theorem dequeue_completes (hu : q.writer.unsent = []) (r : Fin n)
    (hq : q.reader r = .waiting) {m : M}
    (hm : q.sent[(q.got r).length]? = some m) :
    ∃ i ≤ 5, ∃ q', q.run k overflows (replicate i (.read r)) = some q' ∧ q'.reader r = .waiting ∧
      q'.got = update q.got r (q.got r ++ [m]) := by
  have h := inv_run hk ha hs
  have hri : q.Ring k overflows _ q.taken := h.ring
  have ht : q.taken r = (q.got r).length := by rw [taken, hq]; rfl
  have hr := read_next (k := k) (x := m) hq (hri.unread (ht ▸ hm)) fun hov => by
    have hso := h.socket r rfl
    rw [hu, append_nil, (prefix_next (h.got r rfl) hm).2, filter_cons_of_pos hov] at hso
    exact hso.symm
  rwa [ite_self] at hr

/-- A receive that times out takes its chunk and leaves its message on the socket: the next
    `dequeue` returns the message after it, or, if that overflows too, the one given up. -/
theorem recvTimeout_misaligns (hu : q.writer.unsent = []) (r : Fin n) (hq : q.reader r = .receiving)
    {m m' : M}
    (hm' : q.sent[(q.got r).length]? = some m') (hm : q.sent[(q.got r).length + 1]? = some m) :
    ∃ i ≤ 5, ∃ q', q.run k overflows (.recvTimeout r :: replicate i (.read r)) = some q' ∧
      q'.reader r = .waiting ∧
      q'.got = update q.got r (q.got r ++ [if overflows m then m' else m]) := by
  have h := inv_run hk ha hs
  have hri : q.Ring k overflows _ q.taken := h.ring
  have ht : q.taken r = (q.got r).length + 1 := by rw [taken, hq]; rfl
  have hre := h.reader r
  rw [hq] at hre
  obtain ⟨m₁, hm₁, hov⟩ := hre
  obtain rfl := Option.some.inj (hm'.symm.trans hm₁)
  have hso := h.socket r rfl
  rw [hu, append_nil, (prefix_next (h.got r rfl) hm').2, filter_cons_of_pos hov] at hso
  have hst : q.step k overflows (.recvTimeout r)
      = some { q with reader := update q.reader r .waiting } := by
    simp only [MessageQueue.step, hq]
  simp only [MessageQueue.run, hst, Option.bind_some]
  exact read_next (update_self ..) (hri.unread (ht ▸ hm)) fun _ => hso.symm

end Runs

/-- Two messages for two readers, the first one too long; reader `0` has made `i` accesses. -/
def twoSent (i : Nat) : List (Act Nat 2) :=
  .enqueue 0 :: replicate 8 .write ++ .enqueue 7 :: replicate 7 .write ++
    replicate i (.read ⟨0, Nat.two_pos⟩)

def queueOfTwo (i : Nat) : MessageQueue Nat 2 :=
  ((new : MessageQueue Nat 2).run 2 (· == 0) (twoSent i)).getD new

theorem twoSent_ok (i : Nat) : ∀ a ∈ twoSent i, ∀ r, a ≠ .recvTimeout r := by
  simp [twoSent, -reduceReplicate]

theorem dequeue_completes_two :
    ∃ i ≤ 5, ∃ q', (queueOfTwo 0).run 2 (· == 0) (replicate i (.read 1)) = some q' ∧
    q'.reader 1 = .waiting ∧ q'.got = update (queueOfTwo 0).got 1 [0] :=
  dequeue_completes Nat.two_pos (twoSent_ok 0) rfl rfl 1 rfl rfl

/-- Reader `0` gets the second message, and not the first. -/
theorem recvTimeout_misaligns_two :
    ∃ i ≤ 5, ∃ q', (queueOfTwo 4).run 2 (· == 0) (.recvTimeout 0 :: replicate i (.read 0))
      = some q' ∧
    q'.reader 0 = .waiting ∧ q'.got = update (queueOfTwo 4).got 0 [7] :=
  recvTimeout_misaligns (m := 7) Nat.two_pos (twoSent_ok 4) rfl rfl 0 rfl rfl rfl

end MessageQueue

end VllmDual.Comm
