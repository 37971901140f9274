/-
  Subject:   A DOUBLY LINKED QUEUE BETWEEN TWO SENTINELS.

  The items carry their own links, and an item outside the queue has none. The operations are
  pointer programs; each is proved against the list of the items:

  * `Seg` -- the links run from one node through a list of items to another, both ways;
  * `Represents` -- the queue holds exactly a list; `Represents.walk` -- a walk finds it;
  * `unlink_spec`, `takeFront_spec`, `pushBack_spec` -- removal anywhere, pops in front, appends.
-/
import Mathlib

namespace Linked

/-- An item, or one of the two sentinels. -/
inductive Node (α : Type) where
  | head
  | tail
  | item (a : α)
deriving DecidableEq

/-- The two fields of every node. -/
structure Links (α : Type) where
  prev : Node α → Option (Node α)
  next : Node α → Option (Node α)

/-! ## 1. Segments -/

open Node Links Function
open List (mem_cons_self mem_cons_of_mem nodup_append nodup_cons forall_mem_cons)

section Segments

variable {α : Type}

/-- The links run from `x` through the items of `l` to `y`, in both directions. -/
def Seg (k : Links α) : Node α → List α → Node α → Prop
  | x, [], y => k.next x = some y ∧ k.prev y = some x
  | x, a :: l, y => k.next x = some (.item a) ∧ k.prev (.item a) = some x ∧ Seg k (.item a) l y

def lastNode (x : Node α) : List α → Node α
  | [] => x
  | a :: l => lastNode (.item a) l

def firstNode (y : Node α) : List α → Node α
  | [] => y
  | a :: _ => .item a

variable {k k' : Links α} {x y z : Node α} {l l₁ l₂ : List α} {a b : α}

theorem Seg.next_eq (h : Seg k x l y) : k.next x = some (firstNode y l) := by
  cases l with
  | nil => exact h.1
  | cons a l => exact h.1

theorem Seg.prev_eq (h : Seg k x l y) : k.prev y = some (lastNode x l) := by
  induction l generalizing x with
  | nil => exact h.2
  | cons a l ih => exact ih h.2.2

theorem Seg.frame (h : Seg k x l y) (hx : k'.next x = k.next x) (hy : k'.prev y = k.prev y)
    (hl : ∀ a ∈ l, k'.next (.item a) = k.next (.item a) ∧ k'.prev (.item a) = k.prev (.item a)) :
    Seg k' x l y := by
  induction l generalizing x with
  | nil => exact ⟨hx.trans h.1, hy.trans h.2⟩
  | cons a l ih =>
    obtain ⟨ha, hl⟩ := forall_mem_cons.mp hl
    exact ⟨hx.trans h.1, ha.2.trans h.2.1, ih h.2.2 ha.1 hl⟩

theorem seg_append : Seg k x (l₁ ++ a :: l₂) y ↔ Seg k x l₁ (.item a) ∧ Seg k (.item a) l₂ y := by
  induction l₁ generalizing x with
  | nil => exact and_assoc.symm
  | cons b l₁ ih =>
    rw [List.cons_append]
    show _ ∧ _ ∧ Seg k (.item b) (l₁ ++ a :: l₂) y ↔ (_ ∧ _ ∧ _) ∧ _
    rw [ih, and_assoc, and_assoc]

theorem Seg.isChain (h : Seg k x l y) :
    List.IsChain (fun x y => k.next x = some y ∧ k.prev y = some x)
    (x :: (l.map .item ++ [y])) := by
  induction l generalizing x with
  | nil => exact .cons_cons h (.singleton y)
  | cons a l ih => exact .cons_cons ⟨h.1, h.2.1⟩ (ih h.2.2)

theorem lastNode_eq (x : Node α) (l : List α) :
    lastNode x l = x ∨ ∃ a ∈ l, lastNode x l = .item a := by
  induction l generalizing x with
  | nil => exact .inl rfl
  | cons a l ih =>
    rcases ih (.item a) with h | ⟨b, hb, h⟩
    · exact .inr ⟨a, mem_cons_self, h⟩
    · exact .inr ⟨b, mem_cons_of_mem _ hb, h⟩

end Segments

/-! ## 2. Updates -/

variable {α : Type} [DecidableEq α]

namespace Links

variable (k : Links α) (x : Node α)

def setPrev (v : Option (Node α)) : Links α :=
  { k with prev := update k.prev x v }

def setNext (v : Option (Node α)) : Links α :=
  { k with next := update k.next x v }

def link (y : Node α) : Links α := (k.setNext x (some y)).setPrev y (some x)

def clear : Links α := (k.setPrev x none).setNext x none

variable (k : Links α) (x y z : Node α)

theorem link_next : (k.link x y).next z = if z = x then some y else k.next z :=
  update_apply ..

theorem link_prev : (k.link x y).prev z = if z = y then some x else k.prev z :=
  update_apply ..

theorem clear_next : (k.clear x).next z = if z = x then none else k.next z :=
  update_apply ..

theorem clear_prev : (k.clear x).prev z = if z = x then none else k.prev z :=
  update_apply ..

end Links

variable {k k' : Links α} {x y z : Node α} {l l₁ l₂ : List α} {a b : α}

theorem Seg.retarget (h : Seg k x l y) (hnd : l.Nodup) (hx : ∀ a ∈ l, x ≠ .item a)
    (hz : ∀ a ∈ l, z ≠ .item a) : Seg (k.link (lastNode x l) z) x l z := by
  induction l generalizing x with
  | nil => exact ⟨by simp [link_next, lastNode], by simp [link_prev, lastNode]⟩
  | cons a l ih =>
    obtain ⟨ha, hnd⟩ := nodup_cons.mp hnd
    have hxl : x ≠ lastNode (.item a) l := by
      rcases lastNode_eq (.item a) l with hl | ⟨b, hb, hl⟩
      · rw [hl]
        exact hx a mem_cons_self
      · rw [hl]
        exact hx b (mem_cons_of_mem _ hb)
    have hza : item a ≠ z := (hz a mem_cons_self).symm
    refine ⟨?_, ?_, ih h.2.2 hnd (fun b hb hab => ?_) fun b hb => hz b (mem_cons_of_mem _ hb)⟩
    · rw [lastNode, link_next, if_neg hxl]
      exact h.1
    · rw [lastNode, link_prev, if_neg hza]
      exact h.2.1
    · exact ha (item.inj hab ▸ hb)

/-! ## 3. The queue -/

/-- The queue holds exactly the items of `l`, in this order; an item outside has no links. -/
structure Represents (k : Links α) (l : List α) : Prop where
  seg : Seg k .head l .tail
  nodup : l.Nodup
  outside : ∀ a, a ∉ l → k.next (.item a) = none ∧ k.prev (.item a) = none
  ended : k.next .tail = none

/-- Follow `next` from a node, up to a node without one. -/
def walk (k : Links α) : Nat → Node α → Option (List (Node α))
  | 0, _ => none
  | fuel + 1, x =>
    match k.next x with
    | none => some []
    | some y => (x :: ·) <$> walk k fuel y

omit [DecidableEq α] in
/-- **A walk finds the items**, with one step for each and one for the end. -/
theorem Seg.walk_eq (h : Seg k x l .tail) (he : k.next .tail = none) {f : Nat}
    (hf : l.length < f) : walk k f (firstNode .tail l) = some (l.map .item) := by
  induction l generalizing x f with
  | nil =>
    obtain ⟨f, rfl⟩ := Nat.exists_eq_succ_of_ne_zero (Nat.pos_iff_ne_zero.mp hf)
    simp [walk, firstNode, he]
  | cons a l ih =>
    obtain ⟨f, rfl⟩ := Nat.exists_eq_succ_of_ne_zero (Nat.pos_iff_ne_zero.mp (Nat.zero_lt_of_lt hf))
    rw [List.length_cons] at hf
    have hn := h.2.2.next_eq
    rw [walk, firstNode, hn]
    simp [ih h.2.2 (Nat.lt_of_succ_lt_succ hf)]

def unlink (k : Links α) (x : Node α) : Option (Links α) :=
  match k.prev x, k.next x with
  | some p, some n => some ((k.link p n).clear x)
  | _, _ => none

omit [DecidableEq α] in
theorem Represents.mem_iff (h : Represents k l) : a ∈ l ↔ k.next (.item a) ≠ none := by
  constructor
  · intro ha
    obtain ⟨l₁, l₂, rfl⟩ := List.append_of_mem ha
    rw [(seg_append.mp h.seg).2.next_eq]
    exact Option.some_ne_none _
  · intro hne
    by_contra ha
    exact hne (h.outside a ha).1

omit [DecidableEq α] in
theorem head_ne (a : α) : head ≠ .item a := nofun

omit [DecidableEq α] in
theorem tail_ne (a : α) : tail ≠ .item a := nofun

omit [DecidableEq α] in
theorem item_ne (hb : b ∈ l) (ha : a ∉ l) : item b ≠ .item a :=
  fun hba => ha (item.inj hba ▸ hb)

omit [DecidableEq α] in
theorem firstNode_ne (hy : y ≠ .item a) (ha : a ∉ l) : firstNode y l ≠ .item a := by
  cases l with
  | nil => exact hy
  | cons b l => exact fun h => ha (item.inj h ▸ mem_cons_self)

omit [DecidableEq α] in
theorem lastNode_ne (hx : x ≠ .item a) (ha : a ∉ l) : lastNode x l ≠ .item a := by
  rcases lastNode_eq x l with h | ⟨b, hb, h⟩
  · rwa [h]
  · rw [h]
    exact fun h => ha (item.inj h ▸ hb)

omit [DecidableEq α] in
theorem Represents.lastNode_ne_tail (l : List α) : lastNode .head l ≠ .tail := by
  rcases lastNode_eq .head l with h | ⟨b, _, h⟩ <;> rw [h] <;> exact nofun

theorem unlink_spec (h : Represents k (l₁ ++ a :: l₂)) :
    ∃ k', unlink k (.item a) = some k' ∧ Represents k' (l₁ ++ l₂) := by
  obtain ⟨hseg₁, hseg₂⟩ := seg_append.mp h.seg
  obtain ⟨hnd₁, hnd₂, hd⟩ := nodup_append.mp h.nodup
  obtain ⟨ha₂, hnd₂⟩ := nodup_cons.mp hnd₂
  have ha₁ : a ∉ l₁ := fun ha => hd a ha a mem_cons_self rfl
  have hd : ∀ b ∈ l₁, b ∉ l₂ := fun b hb hb' => hd b hb b (mem_cons_of_mem _ hb') rfl
  -- the two neighbours
  let p := lastNode .head l₁
  let n := firstNode .tail l₂
  refine ⟨(k.link p n).clear (.item a), ?_, ?_⟩
  · rw [unlink, hseg₁.prev_eq, hseg₂.next_eq]
  · have hl : Seg (k.link p n) .head (l₁ ++ l₂) .tail := by
      cases hl₂ : l₂ with
      | nil =>
        have hn : n = .tail := by simp [n, hl₂, firstNode]
        rw [List.append_nil, hn]
        exact hseg₁.retarget hnd₁ (fun _ _ => nofun) fun _ _ => nofun
      | cons c l₂' =>
        subst hl₂
        obtain ⟨hc, -⟩ := nodup_cons.mp hnd₂
        have hcl₁ : ∀ b ∈ l₁, item c ≠ .item b := fun b hb hcb =>
          hd b hb (item.inj hcb ▸ mem_cons_self)
        have hpl₂ : ∀ b ∈ c :: l₂', item b ≠ p := fun b hb =>
          (lastNode_ne (head_ne b) fun hb' => hd b hb' hb).symm
        refine seg_append.mpr ⟨hseg₁.retarget hnd₁ (fun _ _ => nofun) hcl₁,
          hseg₂.2.2.frame ?_ ?_ fun b hb => ⟨?_, ?_⟩⟩
        · rw [link_next, if_neg (hpl₂ c mem_cons_self)]
        · rw [link_prev, if_neg nofun]
        · rw [link_next, if_neg (hpl₂ b (mem_cons_of_mem _ hb))]
        · have hbc : item b ≠ n := item_ne hb hc
          rw [link_prev, if_neg hbc]
    have hnot : ∀ b ∈ l₁ ++ l₂, item b ≠ .item a := fun b hb =>
      item_ne hb (by simp [ha₁, ha₂])
    refine ⟨hl.frame ?_ ?_ fun b hb => ⟨?_, ?_⟩, ?_, fun b hb => ?_, ?_⟩
    · rw [clear_next, if_neg nofun]
    · rw [clear_prev, if_neg nofun]
    · rw [clear_next, if_neg (hnot b hb)]
    · rw [clear_prev, if_neg (hnot b hb)]
    · exact nodup_append.mpr ⟨hnd₁, hnd₂, fun b hb c hc hbc => hd b hb (hbc ▸ hc)⟩
    · rw [clear_next, clear_prev]
      by_cases hba : b = a
      · simp [hba]
      · obtain ⟨hb₁, hb₂⟩ := not_or.mp (fun hb' => hb (List.mem_append.mpr hb'))
        have hbp : item b ≠ p := (lastNode_ne (head_ne b) hb₁).symm
        have hbn : item b ≠ n := (firstNode_ne (tail_ne b) hb₂).symm
        have ho := h.outside b (by simp [hb₁, hb₂, hba])
        simp [hba, link_next, link_prev, hbp, hbn, ho]
    · rw [clear_next, if_neg nofun, link_next,
        if_neg (Represents.lastNode_ne_tail l₁).symm, h.ended]

/-! ## 4. Pops in front -/

def detach : Nat → Option (Node α) → Links α → Option (List (Node α) × Option (Node α) × Links α)
  | 0, curr, k => some ([], curr, k)
  | _ + 1, none, _ => none
  | n + 1, some x, k =>
    (detach n (k.next x) (k.clear x)).map fun (ret, curr, k) => (x :: ret, curr, k)

/-- Detach `n` nodes behind the front sentinel, and close the gap. -/
def takeFront (k : Links α) (n : Nat) : Option (List (Node α) × Links α) :=
  (detach n (k.next .head) k).map fun (ret, curr, k) => (ret, match curr with
    | none => k
    | some first => k.link .head first)

def clearAll (k : Links α) (l : List α) : Links α := l.foldl (fun k a => k.clear (.item a)) k

theorem clearAll_next :
    (clearAll k l).next x = if ∃ a ∈ l, x = .item a then none else k.next x := by
  induction l generalizing k with
  | nil => simp [clearAll]
  | cons a l ih =>
    show (clearAll (k.clear (.item a)) l).next x = _
    rw [ih, clear_next]
    by_cases hx : x = .item a <;> simp [hx]

theorem clearAll_prev :
    (clearAll k l).prev x = if ∃ a ∈ l, x = .item a then none else k.prev x := by
  induction l generalizing k with
  | nil => simp [clearAll]
  | cons a l ih =>
    show (clearAll (k.clear (.item a)) l).prev x = _
    rw [ih, clear_prev]
    by_cases hx : x = .item a <;> simp [hx]

theorem detach_spec (h : Seg k x (l₁ ++ l₂) y) (hnd : (l₁ ++ l₂).Nodup) {k' : Links α}
    (hk' : ∀ a ∈ l₁ ++ l₂, k'.next (.item a) = k.next (.item a)) :
    detach l₁.length (some (firstNode y (l₁ ++ l₂))) k'
      = some (l₁.map .item, some (firstNode y l₂), clearAll k' l₁) := by
  induction l₁ generalizing k' x with
  | nil => rfl
  | cons a l₁ ih =>
    rw [List.cons_append] at h hnd hk'
    obtain ⟨ha, hnd⟩ := nodup_cons.mp hnd
    obtain ⟨hn, hk'⟩ := forall_mem_cons.mp hk'
    have hs : detach l₁.length (some (firstNode y (l₁ ++ l₂))) (k'.clear (.item a)) = _ :=
      ih h.2.2 hnd fun b hb => by
        rw [clear_next, if_neg (item_ne hb ha)]
        exact hk' b hb
    rw [List.cons_append, firstNode, List.length_cons, detach, hn, h.2.2.next_eq, hs]
    rfl

theorem takeFront_spec (h : Represents k (l₁ ++ l₂)) :
    ∃ k', takeFront k l₁.length = some (l₁.map .item, k') ∧ Represents k' l₂ := by
  obtain ⟨-, hnd₂, hd⟩ := nodup_append.mp h.nodup
  have hn : ∀ b ∈ l₂, ¬∃ a ∈ l₁, item b = .item a := fun b hb ⟨a, ha, hba⟩ =>
    hd a ha b hb (item.inj hba).symm
  have ht : ¬∃ a ∈ l₁, (tail : Node α) = .item a := fun ⟨_, _, h⟩ => nomatch h
  refine ⟨(clearAll k l₁).link .head (firstNode .tail l₂), ?_, ?_⟩
  · rw [takeFront, h.seg.next_eq, detach_spec h.seg h.nodup fun _ _ => rfl]
    rfl
  · refine ⟨?_, hnd₂, fun b hb => ⟨?_, ?_⟩, ?_⟩
    · cases hl₂ : l₂ with
      | nil => exact ⟨by rw [link_next, if_pos rfl, firstNode], by simp [link_prev, firstNode]⟩
      | cons c l₂' =>
        subst hl₂
        obtain ⟨hc, -⟩ := nodup_cons.mp hnd₂
        refine ⟨by rw [link_next, if_pos rfl, firstNode], by rw [link_prev, firstNode, if_pos rfl],
          (seg_append.mp h.seg).2.frame ?_ ?_ fun b hb => ⟨?_, ?_⟩⟩
        · rw [link_next, if_neg nofun, clearAll_next, if_neg (hn c mem_cons_self)]
        · rw [link_prev, firstNode, if_neg nofun, clearAll_prev, if_neg ht]
        · rw [link_next, if_neg nofun, clearAll_next, if_neg (hn b (mem_cons_of_mem _ hb))]
        · rw [link_prev, firstNode, if_neg (item_ne hb hc), clearAll_prev,
            if_neg (hn b (mem_cons_of_mem _ hb))]
    · rw [link_next, if_neg nofun, clearAll_next]
      by_cases hb₁ : b ∈ l₁
      · rw [if_pos ⟨b, hb₁, rfl⟩]
      · rw [if_neg fun ⟨a, ha, hba⟩ => hb₁ (item.inj hba ▸ ha)]
        exact (h.outside b (by simp [hb₁, hb])).1
    · have hne : item b ≠ firstNode .tail l₂ := (firstNode_ne (tail_ne b) hb).symm
      rw [link_prev, if_neg hne, clearAll_prev]
      by_cases hb₁ : b ∈ l₁
      · rw [if_pos ⟨b, hb₁, rfl⟩]
      · rw [if_neg fun ⟨a, ha, hba⟩ => hb₁ (item.inj hba ▸ ha)]
        exact (h.outside b (by simp [hb₁, hb])).2
    · rw [link_next, if_neg nofun, clearAll_next, if_neg ht, h.ended]

/-! ## 5. Appends -/

def attach : List α → Node α → Links α → Node α × Links α
  | [], last, k => (last, k)
  | a :: l, last, k => attach l (.item a) (k.link last (.item a))

def pushBack (k : Links α) (l : List α) : Option (Links α) :=
  if l = [] then some k
  else (k.prev .tail).map fun last =>
    let (last, k) := attach l last k
    k.link last .tail

theorem Seg.snoc (h : Seg k x l (.item a)) (hx : x ≠ .item a) (ha : a ∉ l) (hz : z ≠ .item a)
    (hzl : ∀ b ∈ l, z ≠ .item b) : Seg (k.link (.item a) z) x (l ++ [a]) z := by
  refine seg_append.mpr ⟨h.frame ?_ ?_ fun b hb => ⟨?_, ?_⟩, ?_, ?_⟩
  · rw [link_next, if_neg hx]
  · rw [link_prev, if_neg hz.symm]
  · rw [link_next, if_neg (item_ne hb ha)]
  · rw [link_prev, if_neg (hzl b hb).symm]
  · rw [link_next, if_pos rfl]
  · rw [link_prev, if_pos rfl]

theorem attach_spec (h : Seg k .head l₁ (.item a)) (hnd : (l₁ ++ a :: l₂).Nodup) :
    let f := (attach l₂ (.item a) k).2.link (attach l₂ (.item a) k).1 .tail
    Seg f .head (l₁ ++ a :: l₂) .tail ∧
    (∀ z, (∀ b ∈ a :: l₂, z ≠ .item b) → f.next z = k.next z) ∧
    ∀ z, z ≠ .tail → (∀ b ∈ l₂, z ≠ .item b) → f.prev z = k.prev z := by
  induction l₂ generalizing k l₁ a with
  | nil =>
    obtain ⟨-, -, hd⟩ := nodup_append.mp hnd
    have ha : a ∉ l₁ := fun ha => hd a ha a mem_cons_self rfl
    refine ⟨h.snoc nofun ha nofun fun _ _ => nofun, fun z hz => ?_, fun z hz _ => ?_⟩
    · rw [attach, link_next, if_neg (hz a mem_cons_self)]
    · rw [attach, link_prev, if_neg hz]
  | cons b l₂ ih =>
    have has : l₁ ++ a :: b :: l₂ = (l₁ ++ [a]) ++ b :: l₂ := by simp
    have hd := (nodup_append.mp hnd).2.2
    have ha : a ∉ l₁ := fun ha => hd a ha a mem_cons_self rfl
    have hba : item b ≠ .item a := fun hba => by
      have hnot := (nodup_cons.mp (nodup_append.mp hnd).2.1).1
      exact hnot (item.inj hba ▸ mem_cons_self)
    have hbl : ∀ c ∈ l₁, item b ≠ .item c := fun c hc hbc =>
      hd c hc b (mem_cons_of_mem _ mem_cons_self) (item.inj hbc).symm
    obtain ⟨hs, hn, hp⟩ := ih (h.snoc nofun ha hba hbl) (has ▸ hnd)
    refine ⟨has ▸ hs, fun z hz => ?_, fun z hz hzl => ?_⟩
    · obtain ⟨hza, hzl⟩ := forall_mem_cons.mp hz
      rw [attach, hn z hzl, link_next, if_neg hza]
    · obtain ⟨hzb, hzl⟩ := forall_mem_cons.mp hzl
      rw [attach, hp z hz hzl, link_prev, if_neg hzb]

theorem pushBack_spec (h : Represents k l₁) (hnd : (l₁ ++ l₂).Nodup) :
    ∃ k', pushBack k l₂ = some k' ∧ Represents k' (l₁ ++ l₂) := by
  cases l₂ with
  | nil => exact ⟨k, rfl, by simpa using h⟩
  | cons a l₂ =>
    obtain ⟨hnd₁, -, hd⟩ := nodup_append.mp hnd
    have hal₁ : ∀ b ∈ l₁, item a ≠ .item b := fun b hb hab =>
      hd b hb a mem_cons_self (item.inj hab).symm
    let k₁ := k.link (lastNode .head l₁) (.item a)
    have hseg₁ : Seg k₁ .head l₁ (.item a) := h.seg.retarget hnd₁ (fun _ _ => nofun) hal₁
    obtain ⟨hs, hn, hp⟩ := attach_spec hseg₁ hnd
    refine ⟨_, ?_, hs, hnd, fun b hb => ?_, ?_⟩
    · rw [pushBack, if_neg (List.cons_ne_nil _ _), h.seg.prev_eq]
      rfl
    · obtain ⟨hb₁, hb₂⟩ := not_or.mp fun hb' => hb (List.mem_append.mpr hb')
      have hne : ∀ c ∈ a :: l₂, item b ≠ .item c := fun c hc => (item_ne hc hb₂).symm
      have hl : item b ≠ lastNode .head l₁ := (lastNode_ne (head_ne b) hb₁).symm
      obtain ⟨hba, hbl⟩ := forall_mem_cons.mp hne
      rw [hn _ hne, hp _ (tail_ne b).symm hbl, link_next, link_prev, if_neg hl, if_neg hba]
      exact h.outside b hb₁
    · rw [hn _ fun c _ => tail_ne c, link_next,
        if_neg (Represents.lastNode_ne_tail l₁).symm, h.ended]

end Linked
