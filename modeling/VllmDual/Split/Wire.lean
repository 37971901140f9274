/-
  Subject:   WIRE VALUES: THE PYTHON OBJECTS THE LIVE-SPLIT CODE READS FROM A MESSAGE.

  Descriptors and plans arrive as nested dicts, lists and scalars. Whether a key is absent or
  null, whether a value is falsy and whether it can be iterated are different questions, and the
  code asks all three; so the model keeps Python's values and the operations on them.
-/
import VllmDual.Lib.Outcome

namespace VllmDual.Split

open Outcome

/-! ## 1. Values -/

inductive PyExc where
  | keyError (key : String)
  | typeError
  | attributeError
  | indexError
  | valueError (message : String)
  | runtimeError (message : String)

/-- A Python object of a message. A float carries its text and its value, which an infinite one and
    a NaN do not have. A dict lists its entries in order. -/
inductive PyVal where
  | none
  | bool (b : Bool)
  | int (n : Int)
  | float (text : String) (value : Option Rat)
  | str (s : String)
  | bytes (bs : List Nat)
  | list (xs : List PyVal)
  | tuple (xs : List PyVal)
  | dict (entries : List (PyVal × PyVal))

abbrev Entries := List (PyVal × PyVal)

variable (v : PyVal)

namespace PyVal

def isNone : PyVal → Bool
  | none => true
  | _ => false

def isStr : PyVal → String → Bool
  | str s, k => s == k
  | _, _ => false

/-- `bool(v)`. -/
def truthy : PyVal → Bool
  | none => false
  | bool b => b
  | int n => n != 0
  | float _ value => value ≠ some 0
  | str s => !s.isEmpty
  | bytes bs => !bs.isEmpty
  | list xs => !xs.isEmpty
  | tuple xs => !xs.isEmpty
  | dict es => !es.isEmpty

/-- `str(v)`. The text of bytes and containers is cut to its first sign: no text the code compares
    with starts so. -/
def text : PyVal → String
  | none => "None"
  | bool true => "True"
  | bool false => "False"
  | int n => toString n
  | float t _ => t
  | str s => s
  | bytes _ => "b'"
  | list _ => "["
  | tuple _ => "("
  | dict _ => "\x7b"

/-- `for x in v`. -/
def iter : PyVal → Except PyExc (List PyVal)
  | list xs => .ok xs
  | tuple xs => .ok xs
  | dict es => .ok (es.map (·.1))
  | str s => .ok (s.toList.map fun c => str (String.singleton c))
  | bytes bs => .ok (bs.map fun b => int b)
  | _ => .error .typeError

/-- Whether `for x in v` runs. -/
def iterable : Bool :=
  match v.iter with
  | .ok _ => true
  | .error _ => false

mutual

def hashable : PyVal → Bool
  | list _ => false
  | dict _ => false
  | tuple xs => hashableAll xs
  | _ => true

def hashableAll : List PyVal → Bool
  | [] => true
  | x :: xs => hashable x && hashableAll xs

end

end PyVal

/-! ## 2. Dicts -/

variable (es : Entries) (key : String)

def lookup : Option PyVal :=
  (es.find? fun e => e.1.isStr key).map (·.2)

/-- `key in d`. -/
def hasKey : Bool := es.any fun e => e.1.isStr key

/-- `d[key] = v`: in place when the key is there. -/
def setKey (v : PyVal) : Entries :=
  if hasKey es key then
    es.map fun e => if e.1.isStr key then (e.1, v) else e
  else
    es ++ [(.str key, v)]

/-- `d.pop(key, None)`. -/
def popKey : Entries := es.filter fun e => !e.1.isStr key

namespace PyVal

/-- `v[key]` with a text key. -/
def item : Except PyExc PyVal :=
  match v with
  | dict es =>
    match lookup es key with
    | some x => .ok x
    | Option.none => .error (.keyError key)
  | _ => .error .typeError

/-- `v.get(key, default)`. -/
def get (default : PyVal := .none) : Except PyExc PyVal :=
  match v with
  | dict es => .ok ((lookup es key).getD default)
  | _ => .error .attributeError

/-- One element of the sequence `dict(v)` reads: a pair with a hashable first part. -/
def asPair : Except PyExc (PyVal × PyVal) := do
  match ← v.iter with
  | [k, x] => if k.hashable then .ok (k, x) else .error .typeError
  | _ => .error (.valueError "dictionary update sequence element")

/-- `dict(v)`: a copy of a dict, or the dict of a sequence of pairs, where a later text key
    replaces an earlier one (no other key is ever read). -/
def asDict : Except PyExc Entries :=
  match v with
  | dict es => .ok es
  | v => do
    let pairs ← (← v.iter).mapM asPair
    return pairs.foldl (fun es (k, x) =>
      match k with
      | str s => setKey es s x
      | k => es ++ [(k, x)]) []

end PyVal

/-! ## 3. Integers -/

/-- `MAX_WIRE_INTEGER`. -/
def maxWireInteger : Int := 2 ^ 63 - 1

/-- The integers `wire_int` lets through. -/
def InWireRange (n : Int) : Prop := -maxWireInteger ≤ n ∧ n ≤ maxWireInteger

instance (n : Int) : Decidable (InWireRange n) := inferInstanceAs (Decidable (_ ∧ _))

variable (field : String)

def wireInt : Except PyExc Int :=
  match v with
  | .int n =>
    if InWireRange n then
      .ok n
    else
      .error (.valueError (field ++ " is outside the supported integer range"))
  | _ => .error (.valueError (field ++ " must be an integer"))

/-- `wire_int(v[key], field)`. -/
def wireItem : Except PyExc Int := do
  wireInt (← v.item key) field

/-- `tuple(wire_int(x, field) for x in v)`. -/
def wireInts : Except PyExc (List Int) := do
  (← v.iter).mapM fun x => wireInt x field

/-! ## 4. Reading back -/

variable {v : PyVal} {field k k' : String} {n : Int} {ns : List Int} {es : Entries}

theorem wireInt_eq_ok : wireInt v field = .ok n ↔ v = .int n ∧ InWireRange n := by
  cases v with
  | int m =>
    by_cases h : InWireRange m
    · simp only [wireInt, if_pos h, Except.ok.injEq, PyVal.int.injEq]
      exact ⟨fun hm => ⟨hm, hm ▸ h⟩, fun hm => hm.1⟩
    · simp only [wireInt, if_neg h, reduceCtorEq, false_iff, PyVal.int.injEq, not_and]
      exact fun hm => hm ▸ h
  | _ => simp [wireInt]

theorem wireInt_int (field : String) (h : InWireRange n) : wireInt (.int n) field = .ok n :=
  wireInt_eq_ok.mpr ⟨rfl, h⟩

theorem wireInts_eq_ok (h : wireInts v field = .ok ns) : ∀ n ∈ ns, InWireRange n := by
  obtain ⟨xs, -, hxs⟩ := of_bind h
  intro n hn
  obtain ⟨x, -, hx⟩ := exists_of_mem_mapM hxs hn
  exact (wireInt_eq_ok.mp hx).2

theorem wireInts_list (field : String) (h : ∀ n ∈ ns, InWireRange n) :
    wireInts (.list (ns.map .int)) field = .ok ns := by
  simp only [wireInts, PyVal.iter, ok_bind]
  rw [mapM_eq_ok, List.forall₂_map_left_iff]
  exact List.forall₂_same.mpr fun n hn => wireInt_int field (h n hn)

@[simp] theorem get_dict (es : Entries) (key : String) (d : PyVal) :
    (PyVal.dict es).get key d = .ok ((lookup es key).getD d) := rfl

theorem item_dict_eq_ok {x : PyVal} : (PyVal.dict es).item k = .ok x ↔ lookup es k = some x := by
  simp only [PyVal.item]
  split <;> simp_all

theorem wireItem_dict_eq_ok :
    wireItem (.dict es) k field = .ok n ↔ lookup es k = some (.int n) ∧ InWireRange n := by
  simp only [wireItem, bind_eq_ok, item_dict_eq_ok, wireInt_eq_ok]
  constructor
  · intro ⟨_, hx, hint, hr⟩
    exact ⟨hint ▸ hx, hr⟩
  · intro ⟨hx, hr⟩
    exact ⟨_, hx, rfl, hr⟩

theorem exists_dict_of_wireItem (h : wireItem v k field = .ok n) : ∃ es, v = .dict es := by
  obtain ⟨x, hx, -⟩ := of_bind h
  cases v with
  | dict es => exact ⟨es, rfl⟩
  | _ => cases hx

theorem iter_eq_nil_of_not_truthy {xs : List PyVal} (hf : v.truthy = false) (h : v.iter = .ok xs) :
    xs = [] := by
  cases v <;> simp_all [PyVal.truthy, PyVal.iter]

theorem hasKey_eq_isSome (es : Entries) (key : String) :
    hasKey es key = (lookup es key).isSome := by
  induction es with
  | nil => rfl
  | cons e es ih =>
    by_cases h : e.1.isStr key
    · simp [hasKey, lookup, h]
    · simpa [hasKey, lookup, h] using ih

@[simp] theorem isStr_str (s k : String) : (PyVal.str s).isStr k = (s == k) := rfl

theorem isStr_eq {a b : String} (h : v.isStr a = true) : v.isStr b = (a == b) := by
  cases v with
  | str s =>
    obtain rfl : s = a := by simpa using h
    rfl
  | _ => cases h

@[simp] theorem lookup_setKey_self (es : Entries) (key : String) (v : PyVal) :
    lookup (setKey es key v) key = some v := by
  unfold setKey
  split
  · rename_i h
    induction es with
    | nil => simp [hasKey] at h
    | cons e es ih =>
      by_cases he : e.1.isStr key
      · simp [lookup, he]
      · have h' : hasKey es key = true := by simpa [hasKey, he] using h
        simpa [lookup, he] using ih h'
  · rename_i h
    have hn : es.find? (fun e => e.1.isStr key) = none := by
      rw [List.find?_eq_none]
      intro e he hk
      exact h (List.any_eq_true.mpr ⟨e, he, hk⟩)
    simp [lookup, List.find?_append, hn]

theorem lookup_setKey_of_ne (es : Entries) (v : PyVal) (hne : k' ≠ k) :
    lookup (setKey es k' v) k = lookup es k := by
  unfold setKey
  split
  · rename_i h
    clear h
    induction es with
    | nil => rfl
    | cons e es ih =>
      by_cases he : e.1.isStr k'
      · have hk : e.1.isStr k = false := by simp [isStr_eq he, hne]
        simpa [lookup, he, hk] using ih
      · by_cases hk : e.1.isStr k
        · simp [lookup, he, hk]
        · simpa [lookup, he, hk] using ih
  · simp [lookup, List.find?_append, hne]

theorem lookup_popKey_of_ne (es : Entries) (hne : k' ≠ k) :
    lookup (popKey es k') k = lookup es k := by
  induction es with
  | nil => rfl
  | cons e es ih =>
    by_cases he : e.1.isStr k'
    · have hk : e.1.isStr k = false := by simp [isStr_eq he, hne]
      simpa [popKey, lookup, he, hk] using ih
    · by_cases hk : e.1.isStr k
      · simp [popKey, lookup, he, hk]
      · simpa [popKey, lookup, he, hk] using ih

end VllmDual.Split
