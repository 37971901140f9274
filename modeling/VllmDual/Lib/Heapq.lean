/-
  Subject:   BINARY HEAPS IN LISTS, as Python's module `heapq` keeps them.

  The sift loops take an item out, move others along one path of the tree, and put the item where
  the path ends. In between the list has a hole:

  * `Hole` -- everything but the hole is in order; `siftdownLoop_heap`, `siftupLoop_hole`;
  * `heappush_spec`, `heapify_spec`, `heappop_spec` -- the operations keep a heap, or make one, of
    the same items.
-/
import Mathlib

namespace Heapq

open List

variable {α : Type} (lt : α → α → Bool)

/-! ## 1. The operations -/

/-- The loop of `_siftdown`. As many rounds as `pos` are enough. -/
def siftdownLoop (startpos : Nat) (newitem : α) : Nat → List α → Nat → List α
  | 0, heap, pos => heap.set pos newitem
  | fuel + 1, heap, pos =>
    let parentpos := (pos - 1) / 2
    let parent := heap.getD parentpos newitem
    if startpos < pos ∧ lt newitem parent then
      siftdownLoop startpos newitem fuel (heap.set pos parent) parentpos
    else heap.set pos newitem

def siftdown (heap : List α) (startpos pos : Nat) : List α :=
  match heap[pos]? with
  | none => heap
  | some newitem => siftdownLoop lt startpos newitem pos heap pos

def smallerChild (heap : List α) (pos : Nat) (newitem : α) : Nat :=
  let childpos := 2 * pos + 1
  let rightpos := childpos + 1
  if rightpos < heap.length ∧ !lt (heap.getD childpos newitem) (heap.getD rightpos newitem) then
    rightpos
  else childpos

/-- The loop of `_siftup`: smaller children move up until `pos` is a leaf. -/
def siftupLoop (newitem : α) : Nat → List α → Nat → List α × Nat
  | 0, heap, pos => (heap, pos)
  | fuel + 1, heap, pos =>
    if 2 * pos + 1 < heap.length then
      let childpos := smallerChild lt heap pos newitem
      siftupLoop newitem fuel (heap.set pos (heap.getD childpos newitem)) childpos
    else (heap, pos)

def siftup (heap : List α) (pos : Nat) : List α :=
  match heap[pos]? with
  | none => heap
  | some newitem =>
    let (heap, leaf) := siftupLoop lt newitem heap.length heap pos
    siftdown lt (heap.set leaf newitem) pos leaf

def heappush (heap : List α) (item : α) : List α := siftdown lt (heap ++ [item]) 0 heap.length

/-- `heappop`; `none` is the `IndexError` of an empty heap. -/
def heappop (heap : List α) : Option (α × List α) :=
  match heap.getLast?, heap.dropLast with
  | none, _ => none
  | some lastelt, [] => some (lastelt, [])
  | some lastelt, returnitem :: heap => some (returnitem, siftup lt (lastelt :: heap) 0)

/-- `for i in reversed(range(n // 2)): _siftup(x, i)`. -/
def heapify (x : List α) : List α :=
  (range (x.length / 2)).foldr (fun i x => siftup lt x i) x

/-! ## 2. Order -/

/-- What the operations need of `__lt__`. -/
structure WeakOrder : Prop where
  asymm : ∀ {a b}, lt a b = true → lt b a = false
  trans : ∀ {a b c}, lt b a = false → lt c b = false → lt c a = false

/-- The item at `j` is not less than the one at `k`. -/
def Le (a : List α) (k j : Nat) : Prop := ∀ x ∈ a[k]?, ∀ y ∈ a[j]?, lt y x = false

/-- From `s` on, no item is less than its parent. -/
def HeapFrom (s : Nat) (a : List α) : Prop := ∀ j, 0 < j → s ≤ (j - 1) / 2 → Le lt a ((j - 1) / 2) j

/-- `a[k] <= a[2*k+1]` and `a[k] <= a[2*k+2]`. -/
def IsHeap (a : List α) : Prop := HeapFrom lt 0 a

/-- `p` is `s`, or below it in the tree. -/
inductive Under (s : Nat) : Nat → Prop
  | refl : Under s s
  | child {j : Nat} : Under s ((j - 1) / 2) → 0 < j → Under s j

/-- From `s` on everything is in order, also across `p`, if nothing is at `p`. -/
structure Hole (s : Nat) (a : List α) (p : Nat) : Prop where
  under : Under s p
  lt_length : p < a.length
  pairs : ∀ j, 0 < j → s ≤ (j - 1) / 2 → (j - 1) / 2 ≠ p → j ≠ p → Le lt a ((j - 1) / 2) j
  across : ∀ j, 0 < j → (j - 1) / 2 = p → s < p → Le lt a ((p - 1) / 2) j

variable {lt} {a : List α} {s p k j fuel : Nat} {x : α}

theorem WeakOrder.irrefl (o : WeakOrder lt) (x : α) : lt x x = false := by
  cases e : lt x x with
  | false => rfl
  | true => exact e.symm.trans (o.asymm e)

theorem Under.le (h : Under s p) : s ≤ p := by
  induction h with
  | refl => exact le_rfl
  | child _ _ ih => omega

theorem Under.parent (h : Under s p) (hs : s < p) : Under s ((p - 1) / 2) := by
  cases h with
  | refl => omega
  | child h _ => exact h

theorem under_zero (p : Nat) : Under 0 p := by
  induction p using Nat.strongRecOn with
  | ind p ih =>
    by_cases hp : p = 0
    · exact hp ▸ .refl
    · exact .child (ih _ (by omega)) (by omega)

theorem Le.trans (o : WeakOrder lt) {q : Nat} (h : Le lt a k q) (h' : Le lt a q j)
    (hq : q < a.length) : Le lt a k j :=
  fun x hx y hy => o.trans (h x hx _ (getElem?_eq_getElem hq)) (h' _ (getElem?_eq_getElem hq) y hy)

theorem IsHeap.root_least (o : WeakOrder lt) (h : IsHeap lt a) (hx : a[0]? = some x) (i : Nat)
    {y : α} (hy : a[i]? = some y) : lt y x = false := by
  induction i using Nat.strongRecOn generalizing y with
  | ind i ih =>
    by_cases h0 : i = 0
    · subst h0
      cases hx.symm.trans hy
      exact o.irrefl x
    · obtain ⟨hi, -⟩ := List.getElem?_eq_some_iff.mp hy
      have hz : a[(i - 1) / 2]? = some (a[(i - 1) / 2]) := getElem?_eq_getElem (by omega)
      exact o.trans (ih _ (by omega) hz) (h i (by omega) (by omega) _ hz y hy)

/-! ## 3. The hole moves -/

theorem move_perm {q : Nat} (hp : p < a.length) (hq : q < a.length) (hne : p ≠ q) :
    ((a.set p (a.getD q x)).set q x).Perm (a.set p x) := by
  have hp' : p < (a.set p x).length := by simpa
  have hq' : q < (a.set p x).length := by simpa
  have h := set_set_perm hp' hq'
  simpa [set_set, getElem_set_ne hne, getD_eq_getElem, hq] using h

theorem Hole.fill (h : Hole lt s a p)
    (hc : ∀ j, 0 < j → (j - 1) / 2 = p → ∀ y ∈ a[j]?, lt y x = false)
    (hp : s < p → ∀ y ∈ a[(p - 1) / 2]?, lt x y = false) : HeapFrom lt s (a.set p x) := by
  intro j hj hs y hy z hz
  have hpairs := h.pairs j hj hs
  grind [Le, Hole]

theorem Hole.up (o : WeakOrder lt) (h : Hole lt s a p) (hs : s < p) {y : α}
    (hy : a[(p - 1) / 2]? = some y) : Hole lt s (a.set p y) ((p - 1) / 2) ∧
      ∀ j, 0 < j → (j - 1) / 2 = (p - 1) / 2 → Le lt (a.set p y) ((p - 1) / 2) j := by
  have hlen := h.lt_length
  have hunder := h.under.parent hs
  have hsq := hunder.le
  have hi := o.irrefl y
  -- the children of the new hole are the old one, with the parent in it, and its sibling
  have hch : ∀ j, 0 < j → (j - 1) / 2 = (p - 1) / 2 → Le lt (a.set p y) ((p - 1) / 2) j := by
    intro j hj hjq z hz w hw
    have hpairs := h.pairs j hj
    grind [Le]
  refine ⟨⟨hunder, by simp; omega, fun j hj hsj hjq _ z hz w hw => ?_,
    fun j hj hjq hsq' => ?_⟩, hch⟩
  · have hpairs := h.pairs j hj
    have hacross := h.across j hj
    grind [Le]
  · have hup : Le lt (a.set p y) (((p - 1) / 2 - 1) / 2) ((p - 1) / 2) := by
      intro z hz w hw
      have hpairs := h.pairs ((p - 1) / 2) (by omega) (hunder.parent hsq').le
      grind [Le]
    exact hup.trans o (hch j hj hjq) (by simp; omega)

theorem Hole.down (h : Hole lt s a p) {c : Nat} {y : α} (h0 : 0 < c) (hcp : (c - 1) / 2 = p)
    (hy : a[c]? = some y) (hle : ∀ j, 0 < j → (j - 1) / 2 = p → Le lt a c j) :
    Hole lt s (a.set p y) c := by
  have hlen := h.lt_length
  have hsc := h.under.le
  refine ⟨.child (hcp ▸ h.under) h0, by grind, fun j hj _ _ _ z hz w hw => ?_,
    fun j hj _ _ z hz w hw => ?_⟩
  · have hpairs := h.pairs j hj
    have hacross := h.across c h0
    have hchild := hle j hj
    grind [Le]
  · have hpairs := h.pairs j hj
    grind [Le]

theorem smallerChild_spec (o : WeakOrder lt) (hp : 2 * p + 1 < a.length) :
    let c := smallerChild lt a p x
    0 < c ∧ (c - 1) / 2 = p ∧ c < a.length ∧ ∀ j, 0 < j → (j - 1) / 2 = p → Le lt a c j := by
  have hi := o.irrefl
  have ha := @o.asymm
  unfold smallerChild
  grind [Le]

/-! ## 4. The loops -/

theorem siftdownLoop_perm (hp : p < a.length) :
    (siftdownLoop lt s x fuel a p).Perm (a.set p x) := by
  induction fuel generalizing a p with
  | zero => exact .rfl
  | succ fuel ih =>
    unfold siftdownLoop
    dsimp only
    split
    · exact (ih (by simp; omega)).trans (move_perm hp (by omega) (by omega))
    · exact .rfl

theorem siftdownLoop_heap (o : WeakOrder lt) (h : Hole lt s a p) (hf : p ≤ fuel)
    (hc : ∀ j, 0 < j → (j - 1) / 2 = p → ∀ y ∈ a[j]?, lt y x = false) :
    HeapFrom lt s (siftdownLoop lt s x fuel a p) := by
  induction fuel generalizing a p with
  | zero => exact h.fill hc fun hs => by omega
  | succ fuel ih =>
    have hlen := h.lt_length
    have hq : (p - 1) / 2 < a.length := by omega
    have hy := getElem?_eq_getElem hq
    unfold siftdownLoop
    dsimp only
    rw [getD_eq_getElem _ _ hq]
    split
    · rename_i hlt
      obtain ⟨hs, hx⟩ := hlt
      obtain ⟨hup, hch⟩ := h.up o hs hy
      refine ih hup (by omega) fun j hj hjq y hz => o.trans (o.asymm hx) (hch j hj hjq _ ?_ y hz)
      rw [getElem?_set_ne (by omega)]
      exact hy
    · rename_i hlt
      refine h.fill hc fun hs z hz => ?_
      cases Option.some.inj (hy.symm.trans hz)
      exact Bool.eq_false_iff.2 fun hx => hlt ⟨hs, hx⟩

theorem siftupLoop_hole (o : WeakOrder lt) (h : Hole lt s a p) (hf : a.length ≤ p + fuel) :
    let r := siftupLoop lt x fuel a p
    Hole lt s r.1 r.2 ∧ r.1.length ≤ 2 * r.2 + 1 ∧ (r.1.set r.2 x).Perm (a.set p x) := by
  induction fuel generalizing a p with
  | zero => exact absurd h.lt_length (by omega)
  | succ fuel ih =>
    have hlen := h.lt_length
    unfold siftupLoop
    split
    · rename_i hp
      obtain ⟨h0, hcp, hc, hle⟩ := smallerChild_spec (x := x) o hp
      dsimp only at *
      generalize smallerChild lt a p x = c at h0 hcp hc hle ⊢
      have hperm := move_perm (x := x) hlen hc (by omega)
      rw [getD_eq_getElem _ _ hc] at hperm ⊢
      obtain ⟨hh, hleaf, hr⟩ := ih (h.down h0 hcp (getElem?_eq_getElem hc) hle) (by simp; omega)
      exact ⟨hh, hleaf, hr.trans hperm⟩
    · rename_i hp
      exact ⟨h, Nat.le_of_not_lt hp, .rfl⟩

theorem siftdown_spec (o : WeakOrder lt) (h : Hole lt s a p) (hx : a[p]? = some x)
    (hc : ∀ j, 0 < j → (j - 1) / 2 = p → ∀ y ∈ a[j]?, lt y x = false) :
    HeapFrom lt s (siftdown lt a s p) ∧ (siftdown lt a s p).Perm a := by
  obtain ⟨hp, rfl⟩ := List.getElem?_eq_some_iff.mp hx
  unfold siftdown
  rw [hx]
  have hperm : (siftdownLoop lt s a[p] p a p).Perm (a.set p a[p]) := siftdownLoop_perm hp
  rw [set_getElem_self] at hperm
  exact ⟨siftdownLoop_heap o h le_rfl hc, hperm⟩

theorem siftup_spec (o : WeakOrder lt) (h : HeapFrom lt (s + 1) a) (hs : s < a.length) :
    HeapFrom lt s (siftup lt a s) ∧ (siftup lt a s).Perm a := by
  have hole : Hole lt s a s :=
    ⟨.refl, hs, fun j hj _ _ _ => h j hj (by omega), fun _ _ _ hss => by omega⟩
  obtain ⟨hh, hleaf, hp⟩ := siftupLoop_hole (x := a[s]) o hole (Nat.le_add_left _ _)
  unfold siftup
  rw [getElem?_eq_getElem hs]
  dsimp only
  generalize siftupLoop lt a[s] a.length a s = r at *
  -- the item in the hole does not matter
  have hset : Hole lt s (r.1.set r.2 a[s]) r.2 := by
    refine ⟨hh.under, by simpa using hh.lt_length, fun j hj hsj _ _ y hy z hz => ?_,
      fun j hj _ _ y hy z hz => ?_⟩
    · have hpairs := hh.pairs j hj hsj
      grind [Le]
    · have hacross := hh.across j hj
      grind [Le]
  obtain ⟨hheap, hperm⟩ := siftdown_spec o hset (getElem?_set_self hh.lt_length) (by grind)
  rw [set_getElem_self] at hp
  exact ⟨hheap, hperm.trans hp⟩

/-! ## 5. The operations keep a heap -/

theorem heappush_spec (o : WeakOrder lt) (h : IsHeap lt a) (x : α) :
    IsHeap lt (heappush lt a x) ∧ (heappush lt a x).Perm (x :: a) := by
  have hole : Hole lt 0 (a ++ [x]) a.length := by
    refine ⟨under_zero _, by simp, fun j hj _ _ _ y hy z hz => ?_, fun j hj _ _ y hy z hz => ?_⟩
    · have hle := h j hj (by omega)
      grind [Le]
    · grind
  obtain ⟨hh, hp⟩ := siftdown_spec (x := x) o hole (by simp) (by grind)
  exact ⟨hh, hp.trans (by simp)⟩

theorem heapify_spec (o : WeakOrder lt) (a : List α) :
    IsHeap lt (heapify lt a) ∧ (heapify lt a).Perm a := by
  suffices h : ∀ m b, HeapFrom lt m b → m ≤ b.length → IsHeap lt ((range m).foldr
      (fun i x => siftup lt x i) b) ∧ ((range m).foldr (fun i x => siftup lt x i) b).Perm b from
    h _ a (fun j hj hs y _ z hz => by grind) (by omega)
  intro m
  induction m with
  | zero => exact fun b hb _ => ⟨hb, .rfl⟩
  | succ m ih =>
    intro b hb hm
    obtain ⟨hs, hp⟩ := siftup_spec o hb hm
    obtain ⟨hh, hp'⟩ := ih _ hs (hp.length_eq ▸ by omega)
    rw [range_succ, foldr_append]
    exact ⟨hh, hp'.trans hp⟩

theorem heappop_spec (o : WeakOrder lt) (h : IsHeap lt a) {b : List α}
    (e : heappop lt a = some (x, b)) :
    IsHeap lt b ∧ a.Perm (x :: b) ∧ ∀ y ∈ a, lt y x = false := by
  have hleast : a[0]? = some x → ∀ y ∈ a, lt y x = false := fun hx y hy => by
    obtain ⟨i, hi⟩ := mem_iff_getElem?.mp hy
    exact h.root_least o hx i hi
  unfold heappop at e
  split at e
  · cases e
  · rename_i last hl hd
    cases e
    have ha := dropLast_append_getLast? x hl
    rw [hd, nil_append] at ha
    subst ha
    exact ⟨fun j _ _ y hy => by simp at hy, .rfl, hleast rfl⟩
  · rename_i last ret t hl hd
    cases e
    have ha := dropLast_append_getLast? last hl
    rw [hd] at ha
    subst ha
    -- behind the root the list is as it was
    have hfrom : HeapFrom lt 1 (last :: t) := fun j hj hs y hy z hz => by
      have hle := h j hj (by omega)
      grind [Le]
    obtain ⟨hh, hp⟩ := siftup_spec o hfrom (by simp)
    exact ⟨hh, ((perm_append_singleton last t).trans hp.symm).cons x, hleast rfl⟩

theorem heappop_isSome (lt : α → α → Bool) (ha : a ≠ []) : (heappop lt a).isSome := by
  unfold heappop
  rw [getLast?_eq_getLast_of_ne_nil ha]
  cases a.dropLast <;> rfl

end Heapq
