/-
  Subject:   THE FREE BLOCK QUEUE IS A SEQUENCE (`FreeKVCacheBlockQueue`,
             `vllm/v1/core/kv_cache_utils.py`).

  * `queue_refines_list` -- every run of calls does to the links what it does to a list.
-/
import VllmDual.Core.LinkedPool

namespace VllmDual.Core

open Linked List

namespace LinkedBlockQueue

/-- `__init__`, for new blocks: from the sentinels alone, neighbours are linked. -/
def ofBlocks (blocks : List BlockId) : LinkedBlockQueue :=
  let (last, links) := attach blocks .head (init 0).links
  ⟨links.link last .tail, blocks.length⟩

def append (q : LinkedBlockQueue) (b : BlockId) : Except CoreError LinkedBlockQueue :=
  match q.links.prev .tail with
  | none => .error (.assertion "prev_free_block of fake_free_list_tail should always exist")
  | some last => .ok ⟨(q.links.link last (.item b)).link (.item b) .tail, q.numFreeBlocks + 1⟩

end LinkedBlockQueue

inductive QueueCall where
  | popleft
  | popleftN (n : Nat)
  | remove (b : BlockId)
  | append (b : BlockId)
  | appendN (blocks : List BlockId)
  | getAllFreeBlocks

namespace QueueCall

/-- What a call returns and leaves; none where it raises. The walk of `get_all_free_blocks` has room
    for as many nodes as are counted. -/
def exec (q : LinkedBlockQueue) : QueueCall → Option (List (Node BlockId) × LinkedBlockQueue)
  | popleft => q.popleft.map fun (b, q) => ([b], q)
  | popleftN n => (q.popleftN n).toOption.map fun (bs, q) => (bs.map .item, q)
  | remove b => (q.remove b).toOption.map ([], ·)
  | append b => (q.append b).toOption.map ([], ·)
  | appendN bs => (q.appendN bs).toOption.map ([], ·)
  | getAllFreeBlocks => (q.getAllFreeBlocks (q.numFreeBlocks.toNat + 1)).map (·, q)

variable (l : List BlockId)

/-- The calls on a sequence. Only a pop of more than there is fails. -/
def onList : QueueCall → Option (List BlockId × List BlockId)
  | popleft => l.head?.map ([·], l.tail)
  | popleftN n => if n ≤ l.length then some (l.take n, l.drop n) else none
  | remove b => some ([], l.erase b)
  | append b => some ([], l ++ [b])
  | appendN bs => some ([], l ++ bs)
  | getAllFreeBlocks => some (l, l)

/-- A queued block is removed, blocks that are not queued are appended. -/
def Legal : QueueCall → Prop
  | remove b => b ∈ l
  | append b => b ∉ l
  | appendN bs => bs.Nodup ∧ ∀ b ∈ bs, b ∉ l
  | _ => True

def run (q : LinkedBlockQueue) (c : QueueCall) : LinkedBlockQueue :=
  ((c.exec q).map Prod.snd).getD q

def runOnList (c : QueueCall) : List BlockId := ((c.onList l).map Prod.snd).getD l

end QueueCall

open QueueCall

def LegalRun : List BlockId → List QueueCall → Prop
  | _, [] => True
  | l, c :: cs => c.Legal l ∧ LegalRun (c.runOnList l) cs

/-- What there is to see of a queue: a sequence forward, its reverse backward, its length, and no
    links outside of it. -/
structure Shows (q : LinkedBlockQueue) (l : List BlockId) : Prop where
  forward : IsChain (fun x y => q.links.next x = some y) (.head :: (l.map .item ++ [.tail]))
  backward : IsChain (fun x y => q.links.prev x = some y)
    (.tail :: (l.reverse.map .item ++ [.head]))
  count : q.numFreeBlocks = l.length
  outside : ∀ b, b ∉ l → q.links.next (.item b) = none ∧ q.links.prev (.item b) = none

def Refines (q : LinkedBlockQueue) (l : List BlockId) : Prop :=
  Represents q.links l ∧ q.numFreeBlocks = l.length

variable {q : LinkedBlockQueue} {l : List BlockId} {c : QueueCall}

theorem refines_ofBlocks (h : l.Nodup) : Refines (.ofBlocks l) l := by
  refine ⟨?_, rfl⟩
  cases l with
  | nil => exact ⟨⟨rfl, rfl⟩, h, fun _ _ => ⟨rfl, rfl⟩, rfl⟩
  | cons a l =>
    obtain ⟨k, hp, hk⟩ := pushBack_spec (init_represents 0) h
    cases hp
    exact hk

theorem exec_onList (h : Refines q l) (hc : c.Legal l) :
    match c.onList l with
    | none => c.exec q = none
    | some (bs, l') => ∃ q', c.exec q = some (bs.map .item, q') ∧ Refines q' l' := by
  obtain ⟨hr, hs⟩ := h
  cases c with
  | popleft =>
    cases l with
    | nil =>
      have hn : q.links.next .head = some .tail := hr.seg.1
      simp [onList, exec, LinkedBlockQueue.popleft, hn]
    | cons b l =>
      obtain ⟨k, hp, hk⟩ := popleft_spec hr
      exact ⟨_, by rw [exec, hp]; rfl, hk, by simp [hs]⟩
  | popleftN n =>
    by_cases hn : n ≤ l.length
    · obtain ⟨k, hp, hk⟩ := popleftN_spec hr hs (Int.natCast_nonneg n) (Int.ofNat_le.mpr hn)
      rw [onList, if_pos hn]
      exact ⟨_, by rw [exec, hp]; rfl, hk, by simp [hs, hn]⟩
    · have h0 : (n : Int) ≠ 0 := by omega
      have hlt : ¬(n : Int) ≤ q.numFreeBlocks := by omega
      rw [onList, if_neg hn]
      show (q.popleftN n).toOption.map _ = none
      rw [LinkedBlockQueue.popleftN, if_neg h0, Outcome.ensure, if_neg hlt]
      rfl
  | remove b =>
    obtain ⟨l₁, l₂, rfl⟩ := append_of_mem hc
    obtain ⟨k, hu, -⟩ := unlink_spec hr
    have ho : q.remove b = .ok ⟨k, q.numFreeBlocks - 1⟩ := by rw [LinkedBlockQueue.remove, hu]
    obtain ⟨hm, k', hk', -, hrep⟩ := (remove_spec hr).mp ho
    cases hk'
    refine ⟨_, by rw [exec, ho]; rfl, hrep, ?_⟩
    rw [hs, length_erase_of_mem hm, Nat.cast_sub (length_pos_of_mem hm)]
    rfl
  | append b =>
    have hnd : (l ++ [b]).Nodup := by
      simpa [nodup_append] using ⟨hr.nodup, fun a ha e => hc (e ▸ ha)⟩
    obtain ⟨k, hp, hk⟩ := pushBack_spec hr hnd
    rw [pushBack, if_neg (cons_ne_nil b []), hr.seg.prev_eq] at hp
    cases hp
    exact ⟨_, by rw [exec, LinkedBlockQueue.append, hr.seg.prev_eq]; rfl, hk, by simp [hs]⟩
  | appendN bs =>
    have hnd : (l ++ bs).Nodup := nodup_append.mpr ⟨hr.nodup, hc.1,
        fun a ha b hb e => hc.2 b hb (e ▸ ha)⟩
    obtain ⟨k, hp, hk⟩ := appendN_spec hr hnd
    exact ⟨_, by rw [exec, hp]; rfl, hk, by simp [hs]⟩
  | getAllFreeBlocks =>
    exact ⟨q, by rw [exec, getAllFreeBlocks_eq hr (by omega)]; rfl, hr, hs⟩

theorem Refines.run (h : Refines q l) (hc : c.Legal l) : Refines (c.run q) (c.runOnList l) := by
  have he := exec_onList h hc
  unfold QueueCall.run runOnList
  split at he
  · rename_i hl
    rw [he, hl]
    exact h
  · rename_i hl
    obtain ⟨q', he, h'⟩ := he
    rw [he, hl]
    exact h'

theorem Refines.shows (h : Refines q l) : Shows q l where
  forward := h.1.seg.isChain.imp fun _ _ h => h.1
  backward := by
    have hb := isChain_reverse.mpr (h.1.seg.isChain.imp fun _ _ h => h.2)
    simpa using hb
  count := h.2
  outside := h.1.outside

/-- **The linked queue is a sequence.** After any calls it shows the sequence that they make of the
    initial blocks, and the next call returns what it returns on the sequence, or raises where that
    has too few. -/
theorem queue_refines_list {blocks : List BlockId} (hnd : blocks.Nodup) {calls : List QueueCall}
    (hlegal : LegalRun blocks calls) :
    let q := calls.foldl QueueCall.run (.ofBlocks blocks)
    let l := calls.foldl QueueCall.runOnList blocks
    Shows q l ∧ ∀ c : QueueCall, c.Legal l → (c.exec q).map Prod.fst = (c.onList l).map fun x =>
      x.1.map .item := by
  have hr : ∀ {q l}, Refines q l → LegalRun l calls →
      Refines (calls.foldl QueueCall.run q) (calls.foldl QueueCall.runOnList l) := by
    clear hlegal
    induction calls with
    | nil => exact fun h _ => h
    | cons c cs ih => exact fun h hl => ih (h.run hl.1) hl.2
  have h := hr (refines_ofBlocks hnd) hlegal
  refine ⟨h.shows, fun c hc => ?_⟩
  have he := exec_onList h hc
  split at he
  · rename_i hl
    rw [he, hl]
    rfl
  · rename_i hl
    obtain ⟨q', he, -⟩ := he
    rw [he, hl]
    rfl

/-- Three blocks; the last pop asks for more than there is. -/
theorem queue_refines_list_three : Shows
    ([popleft, remove 2, appendN [], append 3, popleftN 5].foldl QueueCall.run
      (.ofBlocks [3, 1, 2])) [1, 3] :=
  (queue_refines_list (by decide) (by simp [LegalRun, Legal, runOnList, onList])).1

end VllmDual.Core
