/-
  Subject:   SEQUENCES OF CHECKS IN `Except`: WHEN THEY SUCCEED.

  A validator is a `do` block of reads and checks. These lemmas take a successful run apart, step
  by step, and put one together:

  * `ensure_eq_ok` -- one check;
  * `mapM_eq_ok` -- a loop that collects results succeeds exactly when every round does;
  * `Raises` -- which errors a computation can end with;
  * `Agree` -- two computations that raise the same error or return related values.
-/
import Mathlib

namespace Outcome

open List Except

variable {ε α β : Type} {p : Prop} {e : ε} {x : Except ε α} {f : α → Except ε β} {b : β}
  {l : List α} {r : List β}

/-- Stop with `e` unless `p` holds. -/
def ensure (p : Prop) [Decidable p] (e : ε) : Except ε Unit :=
  if p then .ok () else .error e

@[simp] theorem ensure_eq_ok [Decidable p] {u : Unit} : ensure p e = .ok u ↔ p := by
  unfold ensure
  by_cases h : p <;> simp [h]

theorem ensure_pos [Decidable p] (h : p) : ensure p e = .ok () := if_pos h

theorem bind_eq_ok : (x >>= f) = .ok b ↔ ∃ a, x = .ok a ∧ f a = .ok b := by
  cases x <;> simp [bind, Except.bind]

theorem of_bind (h : (x >>= f) = .ok b) : ∃ a, x = .ok a ∧ f a = .ok b := bind_eq_ok.mp h

theorem bind_eq_error : (x >>= f) = .error e ↔ x = .error e ∨ ∃ a, x = .ok a ∧ f a = .error e := by
  cases x <;> simp [bind, Except.bind]

theorem ok_bind (a : α) (f : α → Except ε β) : ((Except.ok a : Except ε α) >>= f) = f a := rfl

theorem pure_eq_ok {a b : α} : (pure a : Except ε α) = .ok b ↔ a = b := by
  simp [pure, Except.pure]

theorem bind_pure_eq_ok {f : α → β} :
    (x >>= fun a => pure (f a)) = .ok b ↔ ∃ a, x = .ok a ∧ f a = b := by
  simp only [bind_eq_ok, pure_eq_ok]

theorem pair_inj {a a' : α} {b' : β} (h : (.ok (a, b) : Except ε (α × β)) = .ok (a', b')) :
    a = a' ∧ b = b' :=
  Prod.mk.inj (ok.inj h)

theorem triple_inj {γ : Type} {a a' : α} {b' : β} {c c' : γ}
    (h : (.ok (a, b, c) : Except ε (α × β × γ)) = .ok (a', b', c')) : a = a' ∧ b = b' ∧ c = c' :=
  (pair_inj h).imp_right Prod.mk.inj

theorem map_eq_ok {f : α → β} : f <$> x = .ok b ↔ ∃ a, x = .ok a ∧ f a = b := by
  cases x <;> simp [Functor.map, Except.map]

theorem toOption_eq_some {a : α} : x.toOption = some a ↔ x = .ok a := by
  cases x <;> simp [Except.toOption]

theorem ensure_bind_eq_ok [Decidable p] {f : Unit → Except ε β} :
    (ensure p e >>= f) = .ok b ↔ p ∧ f () = .ok b := by
  rw [bind_eq_ok]
  constructor
  · intro ⟨_, h, hf⟩
    exact ⟨ensure_eq_ok.mp h, hf⟩
  · intro ⟨h, hf⟩
    exact ⟨(), ensure_pos h, hf⟩

theorem of_ensure [Decidable p] {f : Unit → Except ε β} (h : (ensure p e >>= f) = .ok b) :
    f () = .ok b :=
  (ensure_bind_eq_ok.mp h).2

theorem ensure_bind_pure_eq_ok [Decidable p] {a : β} :
    (ensure p e >>= fun _ => pure a) = .ok b ↔ p ∧ a = b := by
  rw [ensure_bind_eq_ok, pure_eq_ok]

theorem mapM_eq_ok : l.mapM f = .ok r ↔ Forall₂ (fun a b => f a = .ok b) l r := by
  induction l generalizing r with
  | nil =>
    rw [mapM_nil, pure_eq_ok]
    constructor
    · intro h
      subst h
      exact .nil
    · intro h
      cases h
      rfl
  | cons a l ih =>
    rw [mapM_cons, bind_eq_ok]
    constructor
    · intro ⟨b, hb, h⟩
      obtain ⟨bs, hbs, h⟩ := bind_eq_ok.mp h
      obtain rfl := pure_eq_ok.mp h
      exact .cons hb (ih.mp hbs)
    · intro h
      cases h with
      | cons hb hbs => exact ⟨_, hb, bind_eq_ok.mpr ⟨_, ih.mpr hbs, rfl⟩⟩

theorem exists_of_mem_mapM (h : l.mapM f = .ok r) (hb : b ∈ r) : ∃ a ∈ l, f a = .ok b := by
  have h2 := mapM_eq_ok.mp h
  clear h
  induction h2 with
  | nil => cases hb
  | cons hab _ ih =>
    rcases mem_cons.mp hb with hb | hb
    · exact ⟨_, mem_cons_self, hb ▸ hab⟩
    · obtain ⟨a, ha, hf⟩ := ih hb
      exact ⟨a, mem_cons_of_mem _ ha, hf⟩

theorem mapM_ok {g : α → β} (h : ∀ a ∈ l, f a = .ok (g a)) : l.mapM f = .ok (l.map g) := by
  rw [mapM_eq_ok, forall₂_map_right_iff]
  exact forall₂_same.mpr h

theorem mapM_eq_some {f : α → Option β} :
    l.mapM f = some r ↔ Forall₂ (fun a b => f a = some b) l r := by
  induction l generalizing r with
  | nil => simp [eq_comm]
  | cons a l ih =>
    rw [mapM_cons, Option.bind_eq_bind, Option.bind_eq_some_iff]
    constructor
    · rintro ⟨b, hb, hre⟩
      obtain ⟨bs, hbs, hr⟩ := Option.bind_eq_some_iff.mp hre
      obtain rfl := Option.some.inj hr
      exact .cons hb (ih.mp hbs)
    · intro h
      cases h with
      | cons hb hbs => exact ⟨_, hb, Option.bind_eq_some_iff.mpr ⟨_, ih.mpr hbs, rfl⟩⟩

theorem mapM_eq_none {f : α → Option β} : l.mapM f = none ↔ ∃ a ∈ l, f a = none := by
  induction l with
  | nil => simp
  | cons a l ih =>
    rw [mapM_cons]
    cases ha : f a with
    | none => simp [ha]
    | some b =>
      have hr : (do let bs ← l.mapM f; pure (b :: bs)) = none ↔ l.mapM f = none := by
        cases l.mapM f <;> simp
      simpa [ha] using hr.trans ih

def collect : {W : Nat} → (Fin W → Except ε α) → Except ε (Fin W → α)
  | 0, _ => .ok Fin.elim0
  | _ + 1, f => do
    let a ← f 0
    let rest ← collect fun w => f w.succ
    return Fin.cons a rest

theorem collect_ok {W : Nat} {f : Fin W → Except ε α} {g : Fin W → α} (h : ∀ w, f w = .ok (g w)) :
    collect f = .ok g := by
  induction W with
  | zero => exact congrArg ok (funext fun w => Fin.elim0 w)
  | succ W ih =>
    rw [collect, h 0, ok_bind, ih fun w => h w.succ, ok_bind]
    exact congrArg _ (Fin.cons_self_tail g)

/-! ## Loops over each other's results -/

section Chain

variable {γ : Type} {R : α → β → Prop} {S : β → γ → Prop} {T : α → γ → Prop} {P : β → Prop}
  {as : List α} {bs : List β} {cs : List γ}

theorem forall₂_chain (h₁ : Forall₂ R as bs) (h₂ : Forall₂ S bs cs)
    (hT : ∀ a b c, R a b → S b c → T a c) : Forall₂ T as cs := by
  induction h₁ generalizing cs with
  | nil =>
    cases h₂
    exact .nil
  | cons hab _ ih =>
    cases h₂ with
    | cons hbc hr => exact .cons (hT _ _ _ hab hbc) (ih hr)

theorem exists_forall₂ (h : Forall₂ R as bs) (hS : ∀ a ∈ as, ∀ b, R a b → ∃ c, S b c) :
    ∃ cs, Forall₂ S bs cs := by
  induction h with
  | nil => exact ⟨[], .nil⟩
  | cons hab _ ih =>
    obtain ⟨c, hc⟩ := hS _ mem_cons_self _ hab
    obtain ⟨cs, hcs⟩ := ih fun a ha => hS a (mem_cons_of_mem _ ha)
    exact ⟨c :: cs, .cons hc hcs⟩

theorem forall₂_and_right :
    Forall₂ (fun a b => R a b ∧ P b) as bs ↔ Forall₂ R as bs ∧ ∀ b ∈ bs, P b := by
  constructor
  · intro h
    induction h with
    | nil => exact ⟨.nil, by simp⟩
    | cons hab _ ih =>
      refine ⟨.cons hab.1 ih.1, fun b hb => ?_⟩
      rcases mem_cons.mp hb with hb | hb
      · exact hb ▸ hab.2
      · exact ih.2 b hb
  · intro ⟨h, hP⟩
    induction h with
    | nil => exact .nil
    | cons hab _ ih =>
      exact .cons ⟨hab, hP _ mem_cons_self⟩ (ih fun b hb => hP b (mem_cons_of_mem _ hb))

theorem exists_of_mem_left (h : Forall₂ R as bs) {a : α} (ha : a ∈ as) : ∃ b ∈ bs, R a b := by
  induction h with
  | nil => cases ha
  | cons hab _ ih =>
    rcases mem_cons.mp ha with ha | ha
    · exact ⟨_, mem_cons_self, ha ▸ hab⟩
    · obtain ⟨b, hb, hR⟩ := ih ha
      exact ⟨b, mem_cons_of_mem _ hb, hR⟩

end Chain

/-! ## Which errors -/

/-- Whatever the computation raises satisfies `P`. -/
def Raises (P : ε → Prop) (x : Except ε α) : Prop := ∀ e, x = .error e → P e

section Raises

variable {P : ε → Prop}

theorem raises_ok (a : α) : Raises P (.ok a : Except ε α) := fun _ h => by cases h

theorem raises_ensure {p : Prop} [Decidable p] {e : ε} (h : P e) : Raises P (ensure p e) := by
  intro e' he
  unfold ensure at he
  split at he
  · cases he
  · exact error.inj he ▸ h

theorem raises_bind {x : Except ε α} (hx : Raises P x) (hf : ∀ a, x = .ok a → Raises P (f a)) :
    Raises P (x >>= f) := by
  intro e he
  cases x with
  | error e' =>
    obtain rfl : e' = e := error.inj he
    exact hx e' rfl
  | ok a => exact hf a rfl e he

theorem raises_mapM (l : List α) (h : ∀ a ∈ l, Raises P (f a)) : Raises P (l.mapM f) := by
  induction l with
  | nil => exact raises_ok []
  | cons a l ih =>
    rw [mapM_cons]
    refine raises_bind (h a mem_cons_self) fun b _ => ?_
    exact raises_bind (ih fun c hc => h c (mem_cons_of_mem _ hc)) fun bs _ => raises_ok _

end Raises

/-! ## Two computations -/

section Agree

variable {α' β' : Type} {R : α → α' → Prop} {S : β → β' → Prop}

/-- Both raise the same error, or both return, and the values are related. -/
inductive Agree (R : α → α' → Prop) : Except ε α → Except ε α' → Prop
  | error (e : ε) : Agree R (.error e) (.error e)
  | ok {a : α} {a' : α'} : R a a' → Agree R (.ok a) (.ok a')

theorem Agree.bind {x' : Except ε α'} {f : α → Except ε β} {f' : α' → Except ε β'}
    (hx : Agree R x x')
    (hf : ∀ a a', R a a' → Agree S (f a) (f' a')) : Agree S (x >>= f) (x' >>= f') := by
  cases hx with
  | error e => exact .error e
  | ok ha => exact hf _ _ ha

theorem agree_ensure_bind {p : Prop} [Decidable p] {e : ε} {f : Unit → Except ε β}
    {f' : Unit → Except ε β'}
    (hf : p → Agree S (f ()) (f' ())) : Agree S (ensure p e >>= f) (ensure p e >>= f') := by
  by_cases hp : p
  · rw [ensure_pos hp]
    exact hf hp
  · rw [ensure, if_neg hp]
    exact .error e

end Agree

end Outcome
